import RulesForge.Engine.AccumulateFold
import RulesForge.Engine.SessionInvariant
import RulesForge.Rete.Propagation

/-!
# The result facts of an accumulate node

What an accumulate node does to its session when it publishes an item: the item's result fact gets
its fields and, the first time, an id and a place in working memory, and everything else that the
other items and the matching facts rest on stays as it is (`HeapBeside`, `Beside`). The invariant
`Results` says that every item is published; `publish_results` keeps it.

No fact is logically inserted in the sessions considered here.
-/

namespace RulesForge

variable {kb : KnowledgeBase} {steps : ℕ} {s s' s'' : Session}

/-! ### Propagations leave the base alone -/

theorem base_carried (kb : KnowledgeBase) (steps : ℕ) :
    Carries kb (logicalRetract kb steps) fun s s' ↦ s.tms = {} → s'.base = s.base where
  refl _ _ := rfl
  trans {s s' s''} h h' htms := by
    have hbase := h htms
    have htms' : s'.tms = {} := by
      show s'.base.tms = {}
      rw [hbase]
      exact htms
    exact (h' htms').trans hbase
  silent h _ := h.base
  terminal {n rule bindings} w type s _ htms := by
    cases type with
    | retract =>
      unfold terminalLeft terminalRetract
      dsimp only
      split
      · rw [logicalRetract_eq (by exact htms)]
        rfl
      · rw [logicalRetract_eq htms]
    | assert =>
      unfold terminalLeft
      dsimp only
      split
      · rfl
      · exact (applyAutoFocus_base _).trans (addActivation_base _ _)
    | modify => rfl

theorem activateEntryPoint_base (htms : s.tms = {}) (fact : FactPtr) (type : PropagationType) :
    (activateEntryPoint kb (logicalRetract kb steps) fact type s).base = s.base := by
  unfold activateEntryPoint
  split
  · rfl
  · exact (base_carried kb steps).rightActivate (fun _ _ _ _ ↦ rfl) _ _ fact type s htms

theorem foldl_leftActivate_base (htms : s.tms = {}) (children : List ℕ) (levels : ℕ)
    (w : TokenWME) (type : PropagationType) :
    (children.foldl (fun s child ↦
      leftActivate kb (logicalRetract kb steps) levels child w type s) s).base = s.base :=
  (base_carried kb steps).foldl
    (fun s child ↦ (base_carried kb steps).leftActivate levels child w type s) children s htms

/-! ### What stays as it is -/

/-- Only the facts in `P` have been written; others may have got an id that had none. -/
structure HeapBeside (P : Set FactPtr) (heap heap' : Heap) : Prop where
  fields : ∀ q ∉ P, (heap' q).fields = (heap q).fields
  type : ∀ q ∉ P, (heap' q).type = (heap q).type
  id : ∀ q ∉ P, (heap q).id ≠ 0 → (heap' q).id = (heap q).id

namespace HeapBeside

variable {P Q : Set FactPtr} {heap heap' heap'' : Heap}

theorem refl (P : Set FactPtr) (heap : Heap) : HeapBeside P heap heap :=
  ⟨fun _ _ ↦ rfl, fun _ _ ↦ rfl, fun _ _ _ ↦ rfl⟩

theorem trans (h : HeapBeside P heap heap') (h' : HeapBeside P heap' heap'') :
    HeapBeside P heap heap'' where
  fields q hq := (h'.fields q hq).trans (h.fields q hq)
  type q hq := (h'.type q hq).trans (h.type q hq)
  id q hq hid := (h'.id q hq (by rwa [h.id q hq hid])).trans (h.id q hq hid)

theorem mono (h : HeapBeside P heap heap') (hsub : P ⊆ Q) : HeapBeside Q heap heap' where
  fields q hq := h.fields q fun hmem ↦ hq (hsub hmem)
  type q hq := h.type q fun hmem ↦ hq (hsub hmem)
  id q hq := h.id q fun hmem ↦ hq (hsub hmem)

theorem eq (h : HeapBeside P heap heap') {q : FactPtr} (hq : q ∉ P) (hid : (heap q).id ≠ 0) :
    heap' q = heap q := by
  have hfields := h.fields q hq
  have htype := h.type q hq
  have hid' := h.id q hq hid
  cases hfact : heap q
  cases hfact' : heap' q
  simp_all

theorem update (heap : Heap) (p : FactPtr) (fact : Fact) :
    HeapBeside {p} heap (Function.update heap p fact) where
  fields q hq := by rw [Function.update_of_ne hq]
  type q hq := by rw [Function.update_of_ne hq]
  id q hq _ := by rw [Function.update_of_ne hq]

end HeapBeside

/-- What an operation on the result fact `p` leaves as it is: other facts, and what working
memory holds under the ids that were given out and are not that of `p`. -/
structure Beside (p : FactPtr) (s s' : Session) : Prop where
  tms : s'.tms = {}
  heap : HeapBeside {p} s.heap s'.heap
  nextId : s.workingMemory.nextId ≤ s'.workingMemory.nextId
  id : (s'.heap p).id = (s.heap p).id ∨ s.workingMemory.nextId ≤ (s'.heap p).id
  get : ∀ id < s.workingMemory.nextId, id ≠ (s.heap p).id →
    s'.workingMemory.get id = s.workingMemory.get id

namespace Beside

variable {p : FactPtr}

theorem of_base (htms : s.tms = {}) (hbase : s'.base = s.base) : Beside p s s' := by
  obtain ⟨hheap, hstore, htms', -⟩ := base_parts hbase
  refine ⟨htms'.trans htms, ?_, ?_, ?_, ?_⟩
  · rw [hheap]
    exact .refl _ _
  · rw [hstore]
  · rw [hheap]
    exact .inl rfl
  · rw [hstore]
    exact fun _ _ _ ↦ rfl

theorem trans (h : Beside p s s') (h' : Beside p s' s'') : Beside p s s'' where
  tms := h'.tms
  heap := h.heap.trans h'.heap
  nextId := h.nextId.trans h'.nextId
  id := by
    have hle := h.nextId
    rcases h'.id with heq | hlt
    · rw [heq]
      exact h.id
    · exact .inr (hle.trans hlt)
  get id hlt hne := by
    have hle := h.nextId
    refine (h'.get id (by omega) ?_).trans (h.get id hlt hne)
    rcases h.id with heq | hge
    · rwa [heq]
    · omega

end Beside

/-- A fact that was written is another result fact. -/
theorem Beside.eq {p q : FactPtr} (h : Beside p s s') (hq : q ≠ p) (hid : (s.heap q).id ≠ 0) :
    s'.heap q = s.heap q :=
  h.heap.eq hq hid

/-! ### Operations on a result fact -/

theorem writeFields_beside (htms : s.tms = {}) (p : FactPtr)
    (fields : List (String × ConstraintValue)) : Beside p s (writeFields p fields s) where
  tms := htms
  heap := .update _ _ _
  nextId := le_refl _
  id := .inl (by simp [writeFields])
  get _ _ _ := rfl

/-- **A result fact enters working memory.** -/
theorem addFact_result (htms : s.tms = {}) (hpos : 0 < s.workingMemory.nextId) {p : FactPtr}
    (hzero : p ≠ 0) (hid : (s.heap p).id = 0) (hok : (addFact kb steps p s).2 = none) :
    let s' := (addFact kb steps p s).1
    Beside p s s' ∧ (s'.heap p).fields = (s.heap p).fields ∧ (s'.heap p).id ≠ 0 ∧
      (s'.heap p).id < s'.workingMemory.nextId ∧ s'.workingMemory.get (s'.heap p).id = some p := by
  intro s'
  unfold addFact at hok
  have hs' : s' = (addFact kb steps p s).1 := rfl
  unfold addFact at hs'
  rw [if_neg hzero] at hok hs'
  split at hok
  · cases hok
  next hconsistent =>
  rw [if_neg hconsistent] at hs'
  split at hok
  · cases hok
  next name hname =>
  simp only [hname] at hs'
  dsimp only at hok
  split at hok
  · cases hok
  next hvalid =>
  rw [if_neg hvalid] at hs'
  -- The type is written, the ids are given out, and the fact is stored under its own.
  set s₁ := writeType p name s with hs₁
  set s₂ := assignIds kb p s₁ with hs₂
  set s₃ := insertWorkingMemory p s₂ with hs₃
  have hbase : s'.base = s₃.base := by
    rw [hs']
    exact activateEntryPoint_base (s := s₃) htms p .assert
  obtain ⟨hheap, hstore, htms', -⟩ := base_parts hbase
  obtain ⟨hassigned, hne, hlt, hfresh⟩ := assignIds_spec kb p s₁ hpos
  have hid₁ : (s₁.heap p).id = 0 := by
    rw [hs₁, writeType]
    simpa using hid
  have hfields₁ : (s₁.heap p).fields = (s.heap p).fields := by
    rw [hs₁, writeType]
    simp
  have hnew : (s₂.heap p).id = s.workingMemory.nextId := hfresh hid₁
  have hheap₂ : HeapBeside {p} s.heap s₂.heap :=
    (HeapBeside.update s.heap p _).trans
      ⟨fun q _ ↦ hassigned.fields q, fun q _ ↦ hassigned.type q, fun q _ ↦ hassigned.id⟩
  have hheap' : s'.heap = s₂.heap := hheap
  have hstore' : s'.workingMemory =
      { s₂.workingMemory with
        facts := AssocMap.insert (s₂.heap p).id p s₂.workingMemory.facts } := hstore
  have hnext : s'.workingMemory.nextId = s₂.workingMemory.nextId := by rw [hstore']
  have hle : s.workingMemory.nextId ≤ s₂.workingMemory.nextId := hassigned.le
  refine ⟨⟨htms'.trans htms, ?_, ?_, ?_, ?_⟩, ?_, ?_, ?_, ?_⟩
  · rw [hheap']
    exact hheap₂
  · rw [hnext]
    exact hle
  · rw [hheap', hnew]
    exact .inr (le_refl _)
  · intro id hlt _
    have hne' : id ≠ (s₂.heap p).id := by omega
    rw [hstore']
    exact AssocMap.lookup_insert_ne hne' p s.workingMemory.facts
  · rw [hheap', ← hfields₁]
    exact hassigned.fields p
  · rw [hheap']
    exact hne
  · rw [hheap', hnext]
    exact hlt
  · rw [hheap', hstore']
    exact AssocMap.lookup_insert_self _ p _

/-- A result fact is written, and the network is told. -/
theorem updateFact_result (htms : s.tms = {}) {p : FactPtr} (hzero : p ≠ 0)
    (hget : s.workingMemory.get (s.heap p).id = some p)
    (fields : List (String × ConstraintValue)) (hok : (updateFact kb steps p fields s).2 = none) :
    (updateFact kb steps p fields s).1.base = (writeFields p fields s).base := by
  have hcontains : s.workingMemory.contains (s.heap p).id = true :=
    AssocMap.contains_iff.mpr ⟨p, AssocMap.mem_of_lookup hget⟩
  have hin : ¬ (p = 0 ∨ (!s.workingMemory.contains (s.heap p).id) = true) := by
    rw [hcontains]
    simp [hzero]
  unfold updateFact at hok ⊢
  rw [if_neg hin] at hok ⊢
  split at hok
  · cases hok
  next hconsistent =>
  rw [if_neg hconsistent]
  exact activateEntryPoint_base (s := writeFields p fields s) htms p .modify

/-- A result fact leaves working memory. -/
theorem retractFact_result (htms : s.tms = {}) {p : FactPtr}
    (hget : s.workingMemory.get (s.heap p).id = some p) :
    Beside p s (retractFact kb (logicalRetract kb steps) p s).1 := by
  unfold retractFact
  split
  · exact .of_base htms rfl
  split
  · exact .of_base htms rfl
  rw [hget]
  cases htransaction : s.transaction with
  | some t => exact ⟨htms, .refl _ _, le_refl _, .inl rfl, fun _ _ _ ↦ rfl⟩
  | none =>
    set s₁ := leaveFact p s with hs₁
    have htms₁ : s₁.tms = {} := by
      show s.tms.onFactRetracted (s.heap p).id = {}
      rw [htms]
      rfl
    set s₂ := activateEntryPoint kb (logicalRetract kb steps) p .retract s₁ with hs₂
    have hbase₂ : s₂.base = s₁.base := activateEntryPoint_base htms₁ p .retract
    have htms₂ : s₂.tms = {} := (base_parts hbase₂).2.2.1.trans htms₁
    have hbase : (cleanWmeCache kb (logicalRetract kb steps) (s.heap p).id s₂).base = s₁.base :=
      (cleanWmeCache_eq kb steps htms₂ _).1.trans hbase₂
    obtain ⟨hheap, hstore, htms', -⟩ := base_parts hbase
    show Beside p s (cleanWmeCache kb (logicalRetract kb steps) (s.heap p).id s₂)
    refine ⟨htms'.trans htms₁, ?_, ?_, ?_, ?_⟩
    · rw [hheap]
      exact .refl _ _
    · rw [hstore]
      exact le_refl _
    · rw [hheap]
      exact .inl rfl
    · intro id _ hne
      rw [hstore]
      exact AssocMap.lookup_erase_ne hne _

/-! ### Published items -/

/-- Assigning other fields leaves a field as it is. -/
theorem lookup_assignFields_of_ne {name : String} {assigned : List (String × ConstraintValue)}
    (h : ∀ entry ∈ assigned, entry.1 ≠ name) (fields : List (String × ConstraintValue)) :
    (ParsedAccumulate.assignFields fields assigned).lookup name = fields.lookup name := by
  unfold ParsedAccumulate.assignFields
  induction assigned generalizing fields with
  | nil => rfl
  | cons entry assigned ih =>
    rw [List.foldl_cons, ih fun e he ↦ h e (List.mem_cons_of_mem entry he)]
    exact AssocMap.lookup_insert_ne (h entry List.mem_cons_self).symm entry.2 fields

/-- The modifier assigns the result. -/
theorem lookup_result (info : ParsedAccumulate) (item : LeftMemoryItem)
    (fields : List (String × ConstraintValue)) :
    ∃ result, (info.resultFields item).lookup "result" = some result ∧
      (ParsedAccumulate.assignFields fields (info.resultFields item)).lookup "result" =
        some result := by
  have hassign : ∀ result rest, (∀ entry ∈ rest, entry.1 ≠ "result") →
      (ParsedAccumulate.assignFields fields (("result", result) :: rest)).lookup "result" =
        some result := by
    intro result rest hrest
    show (ParsedAccumulate.assignFields (AssocMap.insert "result" result fields) rest).lookup _ = _
    rw [lookup_assignFields_of_ne hrest, AssocMap.lookup_insert_self]
  unfold ParsedAccumulate.resultFields
  split
  · exact ⟨_, rfl, hassign _ _ fun _ h ↦ absurd h List.not_mem_nil⟩
  · exact ⟨_, rfl, hassign _ _ (by simp)⟩

/-- An item is published: its result fact is in working memory and holds its result. -/
structure PublishedItem (info : ParsedAccumulate) (s : Session) (item : LeftMemoryItem) : Prop where
  zero : item.resultFact ≠ 0
  id : (s.heap item.resultFact).id ≠ 0
  lt : (s.heap item.resultFact).id < s.workingMemory.nextId
  get : s.workingMemory.get (s.heap item.resultFact).id = some item.resultFact
  result : ∃ result, (info.resultFields item).lookup "result" = some result ∧
    (s.heap item.resultFact).fields.lookup "result" = some result

/-- An operation on another result fact leaves an item published. -/
theorem PublishedItem.beside {info : ParsedAccumulate} {item : LeftMemoryItem} {p : FactPtr}
    (h : PublishedItem info s item) (hbeside : Beside p s s') (hne : item.resultFact ≠ p)
    (hp : (s.heap p).id = 0 ∨ s.workingMemory.get (s.heap p).id = some p) :
    PublishedItem info s' item := by
  have hsame : s'.heap item.resultFact = s.heap item.resultFact := hbeside.eq hne h.id
  have hid : (s.heap item.resultFact).id ≠ (s.heap p).id := by
    intro heq
    rcases hp with hzero | hget
    · exact h.id (heq.trans hzero)
    · rw [← heq, h.get] at hget
      exact hne (Option.some.inj hget)
  have hget := hbeside.get _ h.lt hid
  have hle := hbeside.nextId
  have hlt := h.lt
  refine ⟨h.zero, ?_, ?_, ?_, ?_⟩
  · rw [hsame]
    exact h.id
  · rw [hsame]
    omega
  · rw [hsame, hget]
    exact h.get
  · rw [hsame]
    exact h.result

section Publish

variable {node : AccumulateNode} {a a' : AccumulateSession} {item : LeftMemoryItem}

open EStateM (Ends)

/-- An operation that the session completes. -/
theorem callSession_ends {f : Session → Session × Option SessionError}
    {ok : Unit → AccumulateSession → Prop}
    (h : (f a.session).2 = none → ok () { a with session := (f a.session).1 }) :
    (callSession f).Ends a ok fun _ _ ↦ True := by
  unfold Ends callSession
  dsimp only
  split
  · next heq =>
    split at heq
    · next hnone =>
      cases heq
      exact h hnone
    · cases heq
  · trivial

theorem activateChildren_ends (htms : a.session.tms = {}) (w : TokenWME) (type : PropagationType) :
    (node.activateChildren kb steps w type).Ends a
      (fun _ a' ↦ a'.mem = a.mem ∧ a'.session.base = a.session.base) fun _ _ ↦ True := by
  obtain ⟨hmem, hsession⟩ := AccumulateNode.foldl_activateChild kb steps w type node.children a
  refine .modify ⟨hmem, ?_⟩
  rw [hsession]
  exact foldl_leftActivate_base htms _ _ w type

theorem resultWme_ends (item : LeftMemoryItem) :
    (AccumulateNode.resultWme item).Ends a
      (fun _ a' ↦ a'.mem = a.mem ∧ a'.session.base = a.session.base) fun _ _ ↦ True := by
  obtain ⟨n, s', hget, hbase, -⟩ := getOrCreateWme_spec a.session item.wme item.resultFact
  refine .bind (.get ?_)
  rw [hget]
  exact .bind (.modify (.pure ⟨rfl, hbase⟩))

/-- What it takes to publish an item: its result fact is new, or it is in working memory. -/
structure Publishable (s : Session) (p : FactPtr) : Prop where
  tms : s.tms = {}
  nextId_pos : 0 < s.workingMemory.nextId
  zero : p ≠ 0
  held : (s.heap p).id = 0 ∨
    (s.heap p).id < s.workingMemory.nextId ∧ s.workingMemory.get (s.heap p).id = some p

/-- **Publishing an item.** -/
theorem publish_ends (h : Publishable a.session item.resultFact) :
    (node.updateAndPropagateResult kb steps item).Ends a
      (fun _ a' ↦ a'.mem = a.mem ∧ Beside item.resultFact a.session a'.session ∧
        PublishedItem node.info a'.session item) fun _ _ ↦ True := by
  unfold AccumulateNode.updateAndPropagateResult
  refine .bind (.get ?_)
  dsimp only
  set p := item.resultFact with hp
  split
  · next hid =>
    refine .bind (callSession_ends fun _ ↦ ?_)
    -- The fields are written before the fact enters working memory.
    set s₁ := writeFields p (ParsedAccumulate.assignFields (a.session.heap p).fields
      (node.info.resultFields item)) a.session with hs₁
    have hbeside₁ : Beside p a.session s₁ := writeFields_beside h.tms p _
    have hid₁ : (s₁.heap p).id = 0 := by
      rw [hs₁, writeFields]
      simpa using hid
    refine .bind (callSession_ends fun hok ↦ ?_)
    obtain ⟨hbeside₂, hfields, hne, hlt, hget⟩ :=
      addFact_result (s := s₁) h.tms h.nextId_pos h.zero hid₁ hok
    refine .bind ((resultWme_ends item).mono ?_ fun _ _ _ ↦ trivial)
    rintro w a₃ ⟨hmem₃, hbase₃⟩
    have htms₃ : a₃.session.tms = {} := (base_parts hbase₃).2.2.1.trans hbeside₂.tms
    refine (activateChildren_ends htms₃ w .assert).mono ?_ fun _ _ h ↦ h
    rintro - a₄ ⟨hmem₄, hbase₄⟩
    have hbase : a₄.session.base = (addFact kb steps p s₁).1.base := hbase₄.trans hbase₃
    obtain ⟨hheap, hstore, -, -⟩ := base_parts hbase
    obtain ⟨result, hresult, hassigned⟩ :=
      lookup_result node.info item (a.session.heap p).fields
    refine ⟨hmem₄.trans hmem₃, (hbeside₁.trans hbeside₂).trans (.of_base hbeside₂.tms hbase),
      h.zero, ?_, ?_, ?_, result, hresult, ?_⟩
    · rw [hheap]
      exact hne
    · rw [hheap, hstore]
      exact hlt
    · rw [hheap, hstore]
      exact hget
    · rw [hheap, hfields, ← hassigned, hs₁, writeFields]
      simp
  · next hid =>
    obtain ⟨hlt, hget⟩ := h.held.resolve_left hid
    refine .bind ((resultWme_ends item).mono ?_ fun _ _ _ ↦ trivial)
    rintro w a₁ ⟨hmem₁, hbase₁⟩
    have htms₁ : a₁.session.tms = {} := (base_parts hbase₁).2.2.1.trans h.tms
    refine .bind ((activateChildren_ends htms₁ w .retract).mono ?_ fun _ _ h ↦ h)
    rintro - a₂ ⟨hmem₂, hbase₂⟩
    have htms₂ : a₂.session.tms = {} := (base_parts hbase₂).2.2.1.trans htms₁
    have hbase₂' : a₂.session.base = a.session.base := hbase₂.trans hbase₁
    obtain ⟨hheap₂, hstore₂, -, -⟩ := base_parts hbase₂'
    refine .bind (callSession_ends fun hok ↦ ?_)
    set s₂ := writeFields p (ParsedAccumulate.assignFields (a₂.session.heap p).fields
      (node.info.resultFields item)) a₂.session with hs₂
    have hget₂ : a₂.session.workingMemory.get (a₂.session.heap p).id = some p := by
      rw [hheap₂, hstore₂]
      exact hget
    have hbase₃ := updateFact_result htms₂ h.zero hget₂ _ hok
    have htms₃ := (base_parts hbase₃).2.2.1.trans htms₂
    refine (activateChildren_ends htms₃ w .assert).mono ?_ fun _ _ h ↦ h
    rintro - a₄ ⟨hmem₄, hbase₄⟩
    have hbase : a₄.session.base = s₂.base := hbase₄.trans hbase₃
    obtain ⟨hheap, hstore, -, -⟩ := base_parts hbase
    have hid₂ : (s₂.heap p).id = (a.session.heap p).id := by
      rw [hs₂, writeFields, ← hheap₂]
      simp
    have hstore' : a₄.session.workingMemory = a.session.workingMemory := hstore.trans hstore₂
    obtain ⟨result, hresult, hassigned⟩ :=
      lookup_result node.info item (a₂.session.heap p).fields
    refine ⟨hmem₄.trans (hmem₂.trans hmem₁),
      ((Beside.of_base h.tms hbase₂').trans (writeFields_beside htms₂ p _)).trans
        (.of_base htms₂ hbase), h.zero, ?_, ?_, ?_, result, hresult, ?_⟩
    · rw [hheap, hid₂]
      exact hid
    · rw [hheap, hid₂, hstore']
      exact hlt
    · rw [hheap, hid₂, hstore']
      exact hget
    · have hfields : (s₂.heap p).fields = ParsedAccumulate.assignFields
          (a₂.session.heap p).fields (node.info.resultFields item) := by
        rw [hs₂, writeFields]
        simp
      rw [hheap, hfields, hassigned]

/-! ### All items -/

/-- **Every item of the node is published**, each through a result fact of its own. -/
structure Results (R : Set FactPtr) (info : ParsedAccumulate) (a : AccumulateSession) : Prop where
  tms : a.session.tms = {}
  nextId_pos : 0 < a.session.workingMemory.nextId
  unique : AssocMap.Unique a.mem.left
  wme : ∀ {w item}, (w, item) ∈ a.mem.left → item.wme = w
  mem : ∀ {w item}, (w, item) ∈ a.mem.left → item.resultFact ∈ R
  distinct : ∀ {w item w' item'}, (w, item) ∈ a.mem.left → (w', item') ∈ a.mem.left →
    item.resultFact = item'.resultFact → w = w'
  published : ∀ {w item}, (w, item) ∈ a.mem.left → PublishedItem info a.session item

/-- The item of a token is stored. -/
def AccumulateSession.store (a : AccumulateSession) (w : TokenWME) (item : LeftMemoryItem) :
    AccumulateSession :=
  { a with mem := { a.mem with left := AssocMap.insert w item a.mem.left } }

/-- **An item is stored and published**: it is the new item of a token that the node knows, with
the result fact it had, or the first one, with a fresh result fact. -/
theorem Results.publish {R : Set FactPtr} (h : Results R node.info a) {w : TokenWME}
    (hwme : item.wme = w) (hR : item.resultFact ∈ R) (hfact : Publishable a.session item.resultFact)
    (hown : ∀ {w' item'}, (w', item') ∈ a.mem.left → item'.resultFact = item.resultFact → w' = w) :
    (node.updateAndPropagateResult kb steps item).Ends (a.store w item)
      (fun _ a' ↦ Results R node.info a' ∧ a'.mem = (a.store w item).mem ∧
        HeapBeside R a.session.heap a'.session.heap) fun _ _ ↦ True := by
  refine (publish_ends (a := a.store w item) hfact).mono ?_ fun _ _ h ↦ h
  rintro - a' ⟨hmem, hbeside, hpublished⟩
  have hleft : a'.mem.left = AssocMap.insert w item a.mem.left := by
    rw [hmem]
    rfl
  have hheld : (a.session.heap item.resultFact).id = 0 ∨
      a.session.workingMemory.get (a.session.heap item.resultFact).id = some item.resultFact :=
    hfact.held.imp_right And.right
  refine ⟨⟨hbeside.tms, h.nextId_pos.trans_le hbeside.nextId, ?_, ?_, ?_, ?_, ?_⟩, hmem,
    hbeside.heap.mono (Set.singleton_subset_iff.mpr hR)⟩ <;> rw [hleft]
  · exact h.unique.insert w item
  · intro w' item' hitem
    rcases AssocMap.mem_insert.mp hitem with ⟨-, hitem⟩ | ⟨rfl, rfl⟩
    · exact h.wme hitem
    · exact hwme
  · intro w' item' hitem
    rcases AssocMap.mem_insert.mp hitem with ⟨-, hitem⟩ | ⟨rfl, rfl⟩
    · exact h.mem hitem
    · exact hR
  · intro w₁ item₁ w₂ item₂ h₁ h₂ heq
    rcases AssocMap.mem_insert.mp h₁ with ⟨-, hin₁⟩ | ⟨rfl, rfl⟩ <;>
      rcases AssocMap.mem_insert.mp h₂ with ⟨-, hin₂⟩ | ⟨rfl, rfl⟩
    · exact h.distinct hin₁ hin₂ heq
    · exact hown hin₁ heq
    · exact (hown hin₂ heq.symm).symm
    · rfl
  · intro w' item' hitem
    rcases AssocMap.mem_insert.mp hitem with ⟨hne, hitem⟩ | ⟨rfl, rfl⟩
    · exact (h.published hitem).beside hbeside (fun heq ↦ hne (hown hitem heq)) hheld
    · exact hpublished

end Publish

end RulesForge
