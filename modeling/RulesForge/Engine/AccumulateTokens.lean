import RulesForge.Engine.Accumulate
import RulesForge.Engine.TokenTyping

/-!
# Tokens below an accumulate node

Every token below an accumulate node extends a token on the node's left, as long as no token
leaves the left of which a child has kept a result (`supported_below`). A hashed join keeps no token
without a key, and an eval node none that its expression refuses; the other nodes keep every token.

When a token leaves the left of the node, its result fact is retracted from working memory, and
the children are not told: what they hold stays (`retraction_stopsAtAccumulate`).
-/

namespace RulesForge

open EStateM Forest

/-! ### Extensions of tokens -/

/-- A token has another one as a proper ancestor. -/
def TokenWME.Extends (w : TokenWME) : TokenWME → Prop
  | root => False
  | mk _ parent _ => parent = w ∨ Extends w parent

theorem TokenWME.Extends.depth_lt {w t : TokenWME} (h : w.Extends t) : w.depth < t.depth := by
  induction t with
  | root => exact h.elim
  | mk a parent f ih =>
    rcases h with rfl | h
    · exact Nat.lt_succ_self _
    · exact (ih h).trans (Nat.lt_succ_self _)

/-- Two ancestors of one depth are the same. -/
theorem TokenWME.Extends.unique {w v t : TokenWME} (hw : w.Extends t) (hv : v.Extends t)
    (hdepth : w.depth = v.depth) : w = v := by
  induction t with
  | root => exact hw.elim
  | mk a parent f ih =>
    rcases hw with rfl | hw
    · rcases hv with rfl | hv
      · rfl
      · exact absurd hv.depth_lt (hdepth ▸ lt_irrefl _)
    · rcases hv with rfl | hv
      · exact absurd hw.depth_lt (hdepth ▸ lt_irrefl _)
      · exact ih hw hv

/-- A token is in some part of a node's memory. -/
def NodeMemory.Holds (mem : NodeMemory) (t : TokenWME) : Prop :=
  (∃ entry ∈ mem.hashedJoin.left, entry.2 = t) ∨ t ∈ mem.crossProductJoin.left ∨
    (∃ w, t ∈ mem.leftToChildren w) ∨ (∃ entry ∈ mem.betaCondition.left, entry.1 = t) ∨
    (∃ entry ∈ mem.betaCondition.leftIndex, entry.2 = t) ∨
    t ∈ mem.betaCondition.leftUnindexed ∨ t ∈ mem.terminal ∨ t ∈ mem.eval ∨ t ∈ mem.results

theorem nodeTyped_iff {S : Set TokenWME} {mem : NodeMemory} :
    NodeTyped S S mem ↔ ∀ t, mem.Holds t → t ∈ S := by
  constructor
  · rintro h t (⟨e, he, rfl⟩ | ht | ⟨w, ht⟩ | ⟨e, he, rfl⟩ | ⟨e, he, rfl⟩ | ht | ht | ht | ht)
    · exact h.hashedJoin e he
    · exact h.crossProductJoin t ht
    · exact h.children ht
    · exact h.condition e he
    · exact h.leftIndex e he
    · exact h.leftUnindexed t ht
    · exact h.terminal t ht
    · exact h.eval t ht
    · exact h.results t ht
  · intro h
    exact ⟨fun e he ↦ h _ (.inl ⟨e, he, rfl⟩), fun t ht ↦ h t (.inr (.inl ht)),
      fun {w t} ht ↦ h t (.inr (.inr (.inl ⟨w, ht⟩))),
      fun e he ↦ h _ (.inr (.inr (.inr (.inl ⟨e, he, rfl⟩)))),
      fun e he ↦ h _ (.inr (.inr (.inr (.inr (.inl ⟨e, he, rfl⟩))))),
      fun t ht ↦ h t (.inr (.inr (.inr (.inr (.inr (.inl ht)))))),
      fun t ht ↦ h t (.inr (.inr (.inr (.inr (.inr (.inr (.inl ht))))))),
      fun t ht ↦ h t (.inr (.inr (.inr (.inr (.inr (.inr (.inr (.inl ht)))))))),
      fun t ht ↦ h t (.inr (.inr (.inr (.inr (.inr (.inr (.inr (.inr ht))))))))⟩

/-! ### The nodes below -/

/-- An accumulate node at its place: the length of the tokens on its left, and that the nodes below
it get tokens from it alone. -/
structure PlacedAccumulate (net : CompiledNetwork) extends AccumulateNode where
  depth : ℕ
  fed : ∀ {n m}, net.LeftEdge n m → (∃ c ∈ children, Desc net.LeftEdge c m) →
    ∃ c ∈ children, Desc net.LeftEdge c n

section Placed

variable {kb : KnowledgeBase} (A : PlacedAccumulate kb.network)

/-- The nodes below the accumulate node. -/
def PlacedAccumulate.Below (n : ℕ) : Prop :=
  ∃ c ∈ A.children, Desc kb.network.LeftEdge c n

/-- Below the node, tokens extend those of a set. -/
def PlacedAccumulate.extending (held : Set TokenWME) : TokenTyping kb.network where
  left n := {t | A.Below n → ∃ v ∈ held, v.Extends t}
  out n := {t | A.Below n → ∃ v ∈ held, v.Extends t}
  join := by
    intro n t _ ht a f hn
    obtain ⟨v, hv, hext⟩ := ht hn
    exact ⟨v, hv, .inr hext⟩
  condition _ ht := ht
  eval _ ht := ht
  child hedge ht hm := ht (A.fed hedge hm)

/-- The tokens on the left of the node. -/
def AccumulateMem.heldTokens (mem : AccumulateMem) : Set TokenWME :=
  {w | ∃ item, (w, item) ∈ mem.left}

/-- The tokens of which a child has kept a result. -/
def AccumulateSession.delivered (s : AccumulateSession) : Set TokenWME :=
  {w | ∃ a f, .mk a w f ∈ s.kept}

/-- The invariant: tokens below extend tokens on the left of which a child has kept a result. The
tokens on the left have the length of the node's place. -/
structure Supported (s : AccumulateSession) : Prop where
  typed : Typed (A.extending (s.mem.heldTokens ∩ s.delivered)) s.session
  depth : ∀ w ∈ s.mem.heldTokens, w.depth = A.depth
  wme : ∀ {w item}, (w, item) ∈ s.mem.left → item.wme = w

variable {A}

theorem typed_extending_iff {held : Set TokenWME} {s : Session} :
    Typed (A.extending held) s ↔
      ∀ n, A.Below n → ∀ t, (s.mem n).Holds t → ∃ v ∈ held, v.Extends t := by
  constructor
  · exact fun h n hn t ht ↦ nodeTyped_iff.mp (h n) t ht hn
  · exact fun h n ↦ nodeTyped_iff.mpr fun t ht hn ↦ h n hn t ht

theorem Typed.mono_extending {held held' : Set TokenWME} (hsub : held ⊆ held') {s : Session}
    (h : Typed (A.extending held) s) : Typed (A.extending held') s := by
  rw [typed_extending_iff] at h ⊢
  intro n hn t ht
  obtain ⟨v, hv, hext⟩ := h n hn t ht
  exact ⟨v, hsub hv, hext⟩

/-! ### Steps of the node -/

variable {steps : ℕ} {allocate : Session → FactPtr} {held : Set TokenWME}

section Steps

variable {s : AccumulateSession}

/-- A node that does not keep a token ignores it. -/
theorem leftActivate_of_not_keepsToken {logicalRetract : TokenWME → Session → Session}
    {levels n : ℕ} {w : TokenWME} {s : Session} (h : keepsToken kb n w s = false) :
    leftActivate kb logicalRetract (levels + 1) n w .assert s = s := by
  unfold keepsToken at h
  simp only [leftActivate]
  cases hkind : kb.network.kind n with
  | entryPoint => rfl
  | alpha c => rfl
  | crossProductJoin c => simp [hkind] at h
  | condition kind c => simp [hkind] at h
  | terminal rule bindings => simp [hkind] at h
  | hashedJoin c l r =>
    simp only [hkind, Option.isSome_eq_false_iff, Option.isNone_iff_eq_none] at h
    simp only [hashedLeft, h]
  | tokenNode node =>
    cases node with
    | queryTerminal bindings => simp [hkind] at h
    | eval node =>
      simp only [hkind] at h
      simp [tokenNodeLeft, evalLeft, h]

variable (A) in
/-- The memory of the node stays, and the tokens below extend those of a set of which a child has kept
a result. -/
def BelowKept (held : Set TokenWME) (s s' : AccumulateSession) : Prop :=
  Typed (A.extending (held ∩ s'.delivered)) s'.session ∧ s'.mem = s.mem

theorem BelowKept.trans {s s' s'' : AccumulateSession} (h : BelowKept A held s s')
    (h' : BelowKept A held s' s'') : BelowKept A held s s'' :=
  ⟨h'.1, h'.2.trans h.2⟩

theorem callSession_keepsBelow {f : Session → Session × Option SessionError}
    (hf : Typed (A.extending (held ∩ s.delivered)) (f s.session).1) :
    (callSession f).Ends s (fun _ ↦ BelowKept A held s) fun _ ↦ BelowKept A held s := by
  unfold Ends callSession
  dsimp only
  cases (f s.session).2 with
  | none => exact ⟨hf, rfl⟩
  | some e => exact ⟨hf, rfl⟩

/-- A child gets a token that joins a token of the set with a fact: it keeps the token, which is then
recorded, or it ignores it. What is retracted may be any token. -/
theorem activateChild_keepsBelow {v : TokenWME} (hv : v ∈ held) (a : ℕ)
    (f : FactPtr) (type : PropagationType) (htype : type ≠ .modify) (child : ℕ)
    (h : Typed (A.extending (held ∩ s.delivered)) s.session) :
    BelowKept A held s (AccumulateNode.activateChild kb steps (.mk a v f) type child s) := by
  refine ⟨?_, rfl⟩
  have hretract : ∀ {T : TokenTyping kb.network} {w : TokenWME} {s : Session}, Typed T s →
      Typed T (logicalRetract kb steps w s) := fun h ↦ logicalRetract_typed h
  cases type with
  | modify => exact absurd rfl htype
  | retract => exact leftActivate_typed hretract (fun hne ↦ absurd rfl hne) h
  | assert =>
    cases hkeeps : keepsToken kb child (.mk a v f) s.session with
    | false =>
      have hsame : AccumulateNode.activateChild kb steps (.mk a v f) .assert child s = s := by
        simp only [AccumulateNode.activateChild, leftActivate_of_not_keepsToken hkeeps, hkeeps,
          Bool.false_eq_true, and_false, if_false]
      rw [hsame]
      exact h
    | true =>
      have hkept : (AccumulateNode.activateChild kb steps (.mk a v f) .assert child s).kept =
          .mk a v f :: s.kept := by
        simp only [AccumulateNode.activateChild, hkeeps, and_self, if_true]
      have hdelivered : v ∈ (AccumulateNode.activateChild kb steps (.mk a v f) .assert child
          s).delivered := ⟨a, f, hkept ▸ List.mem_cons_self⟩
      have hmono : s.delivered ⊆ (AccumulateNode.activateChild kb steps (.mk a v f) .assert child
          s).delivered := fun w ⟨a', f', hw⟩ ↦ ⟨a', f', hkept ▸ List.mem_cons_of_mem _ hw⟩
      exact leftActivate_typed hretract (fun _ _ ↦ ⟨v, ⟨hv, hdelivered⟩, .inl rfl⟩)
        (h.mono_extending (Set.inter_subset_inter_right held hmono))

theorem activateChildren_keepsBelow {v : TokenWME} (hv : v ∈ held) (a : ℕ)
    (f : FactPtr) (type : PropagationType) (htype : type ≠ .modify)
    (h : Typed (A.extending (held ∩ s.delivered)) s.session)
    {err : SessionError → AccumulateSession → Prop} :
    (A.activateChildren kb steps (.mk a v f) type).Ends s (fun _ ↦ BelowKept A held s) err :=
  .modify <| List.foldlRecOn A.children _ (motive := BelowKept A held s) ⟨h, rfl⟩
    fun _ hs child _ ↦ hs.trans (activateChild_keepsBelow hv a f type htype child hs.1)

theorem resultWme_keepsBelow (item : LeftMemoryItem)
    (h : Typed (A.extending (held ∩ s.delivered)) s.session)
    {err : SessionError → AccumulateSession → Prop} :
    (AccumulateNode.resultWme item).Ends s
      (fun w s' ↦ (∃ a, w = .mk a item.wme item.resultFact) ∧ BelowKept A held s s') err := by
  obtain ⟨hw, hmem⟩ := getOrCreateWme_eq s.session item.wme item.resultFact
  refine .bind (.get ?_)
  exact .bind (.modify (.pure ⟨hw, h.of_mem hmem, rfl⟩))

/-- Publishing the result of an item. -/
theorem updateAndPropagateResult_keepsBelow {item : LeftMemoryItem}
    (hitem : item.wme ∈ held) (h : Typed (A.extending (held ∩ s.delivered)) s.session) :
    (A.updateAndPropagateResult kb steps item).Ends s (fun _ ↦ BelowKept A held s)
      fun _ ↦ BelowKept A held s := by
  unfold AccumulateNode.updateAndPropagateResult
  refine .bind (.get ?_)
  dsimp only
  split
  · refine .bind ((callSession_keepsBelow (h.of_mem rfl)).mono (fun _ s₁ h₁ ↦ ?_) fun _ _ h ↦ h)
    refine .bind ((callSession_keepsBelow (addFact_typed h₁.1)).mono (fun _ s₂ h₂ ↦ ?_)
      fun _ _ ↦ h₁.trans)
    refine .bind ((resultWme_keepsBelow item h₂.1).mono ?_ fun _ _ h ↦ h)
    rintro _ s₃ ⟨⟨a, rfl⟩, h₃⟩
    exact (activateChildren_keepsBelow hitem a _ .assert (by decide) h₃.1).mono
      (fun _ _ h₄ ↦ h₁.trans (h₂.trans (h₃.trans h₄))) fun _ _ h ↦ h
  · refine .bind ((resultWme_keepsBelow item h).mono ?_ fun _ _ h ↦ h)
    rintro _ s₁ ⟨⟨a, rfl⟩, h₁⟩
    refine .bind ((activateChildren_keepsBelow hitem a _ .retract (by decide) h₁.1).mono (fun _ s₂ h₂ ↦ ?_)
      fun _ _ h ↦ h)
    refine .bind ((callSession_keepsBelow (updateFact_typed h₂.1)).mono (fun _ s₃ h₃ ↦ ?_)
      fun _ _ h₃ ↦ h₁.trans (h₂.trans h₃))
    exact (activateChildren_keepsBelow hitem a _ .assert (by decide) h₃.1).mono
      (fun _ _ h₄ ↦ h₁.trans (h₂.trans (h₃.trans h₄))) fun _ _ h ↦ h

/-! ### Items -/

theorem applyAccumulate_wme (info : ParsedAccumulate) (env : RuntimeEnv) (heap : Heap)
    (bindings : Bindings) (forward : Bool) (fact : FactPtr) (item : LeftMemoryItem) :
    (info.applyAccumulate env heap bindings forward fact item).1.wme = item.wme := by
  unfold ParsedAccumulate.applyAccumulate ParsedAccumulate.applyCollectAccumulate
    ParsedAccumulate.applyNumericAccumulate
  repeat' split
  all_goals rfl

theorem applyAccumulate_resultFact (info : ParsedAccumulate) (env : RuntimeEnv) (heap : Heap)
    (bindings : Bindings) (forward : Bool) (f : FactPtr) (item : LeftMemoryItem) :
    (info.applyAccumulate env heap bindings forward f item).1.resultFact = item.resultFact := by
  unfold ParsedAccumulate.applyAccumulate ParsedAccumulate.applyCollectAccumulate
    ParsedAccumulate.applyNumericAccumulate
  repeat' split
  all_goals rfl

/-- The facts of a list that match the token of an item are added to it. -/
def AccumulateNode.accumulateAll (kb : KnowledgeBase) (node : AccumulateNode) (s : Session)
    (facts : List FactPtr) (item : LeftMemoryItem) : LeftMemoryItem :=
  facts.foldl (fun item f ↦
    if checkCondition kb node.condition s item.wme f then
      (node.info.applyAccumulate kb.runtime s.heap node.condition.bindings true f item).1
    else item) item

theorem accumulateRight_eq (node : AccumulateNode) (s : AccumulateSession) (item : LeftMemoryItem) :
    node.accumulateRight kb s item =
      node.accumulateAll kb s.session (s.mem.right.map Prod.snd) item := by
  unfold AccumulateNode.accumulateRight AccumulateNode.accumulateAll
  rw [List.foldl_map]

theorem accumulateBatch_fst (node : AccumulateNode) (s : Session) (facts : List FactPtr)
    (item : LeftMemoryItem) :
    (node.accumulateBatch kb s facts item).1 = node.accumulateAll kb s facts item := by
  unfold AccumulateNode.accumulateBatch AccumulateNode.accumulateAll
  generalize false = changed
  induction facts generalizing item changed with
  | nil => rfl
  | cons f facts ih =>
    simp only [List.foldl_cons]
    split
    · exact ih _ _
    · exact ih _ _

/-- The token and the result fact of an item stay. -/
theorem accumulateAll_keeps (node : AccumulateNode) (s : Session) (facts : List FactPtr)
    (item : LeftMemoryItem) :
    (node.accumulateAll kb s facts item).wme = item.wme ∧
      (node.accumulateAll kb s facts item).resultFact = item.resultFact := by
  refine List.foldlRecOn facts _ (motive := fun x : LeftMemoryItem ↦
    x.wme = item.wme ∧ x.resultFact = item.resultFact) ⟨rfl, rfl⟩ fun x hx f _ ↦ ?_
  split
  · rw [applyAccumulate_wme, applyAccumulate_resultFact]
    exact hx
  · exact hx

theorem accumulateRight_wme (node : AccumulateNode) (s : AccumulateSession)
    (item : LeftMemoryItem) : (node.accumulateRight kb s item).wme = item.wme := by
  rw [accumulateRight_eq]
  exact (accumulateAll_keeps _ _ _ _).1

theorem accumulateRight_resultFact (node : AccumulateNode) (s : AccumulateSession)
    (item : LeftMemoryItem) : (node.accumulateRight kb s item).resultFact = item.resultFact := by
  rw [accumulateRight_eq]
  exact (accumulateAll_keeps _ _ _ _).2

theorem heldTokens_insert (mem : AccumulateMem) (w : TokenWME) (item : LeftMemoryItem) :
    ({ mem with left := AssocMap.insert w item mem.left } : AccumulateMem).heldTokens =
      insert w mem.heldTokens := by
  ext v
  constructor
  · rintro ⟨i, hi⟩
    rcases AssocMap.mem_insert.mp hi with ⟨-, hi⟩ | ⟨rfl, -⟩
    · exact .inr ⟨i, hi⟩
    · exact .inl rfl
  · rintro (rfl | ⟨i, hi⟩)
    · exact ⟨item, AssocMap.mem_insert.mpr (.inr ⟨rfl, rfl⟩)⟩
    · by_cases hv : v = w
      · exact ⟨item, AssocMap.mem_insert.mpr (.inr ⟨hv, rfl⟩)⟩
      · exact ⟨i, AssocMap.mem_insert.mpr (.inl ⟨hv, hi⟩)⟩

/-- An item of the node's place is stored. -/
theorem Supported.insertItem (h : Supported A s) {w : TokenWME}
    (hw : w.depth = A.depth) {item : LeftMemoryItem} (hitem : item.wme = w) :
    Supported A { s with mem := { s.mem with left := AssocMap.insert w item s.mem.left } } where
  typed := by
    rw [heldTokens_insert]
    exact h.typed.mono_extending (Set.inter_subset_inter_left _ (Set.subset_insert _ _))
  depth := by
    rw [heldTokens_insert]
    rintro v (rfl | hv)
    · exact hw
    · exact h.depth v hv
  wme := by
    intro v i hi
    rcases AssocMap.mem_insert.mp hi with ⟨-, hi⟩ | ⟨rfl, rfl⟩
    · exact h.wme hi
    · exact hitem

/-- The right memory of the node does not matter. -/
theorem Supported.updateRight (h : Supported A s)
    (right : List (ℤ × FactPtr)) : Supported A { s with mem := { s.mem with right := right } } :=
  ⟨h.typed, h.depth, h.wme⟩

theorem Supported.of_keepsBelow {s s' : AccumulateSession} (h : Supported A s)
    (hkept : BelowKept A s.mem.heldTokens s s') : Supported A s' := by
  obtain ⟨htyped, hmem⟩ := hkept
  refine ⟨?_, ?_, ?_⟩
  · rw [hmem]
    exact htyped
  · rw [hmem]
    exact h.depth
  · rw [hmem]
    exact h.wme

/-- An item is stored and its result published. -/
theorem storeItem_supported (h : Supported A s) {w : TokenWME}
    (hw : w.depth = A.depth) {item : LeftMemoryItem} (hitem : item.wme = w) (publish : Bool) :
    (do
      updateAccumulate fun mem ↦ { mem with left := AssocMap.insert w item mem.left }
      if publish then A.updateAndPropagateResult kb steps item).Ends s
      (fun _ ↦ Supported A) fun _ ↦ Supported A := by
  have h₁ := h.insertItem hw hitem
  refine .bind (.modify ?_)
  cases publish with
  | false => exact .pure h₁
  | true =>
    have hmem : item.wme ∈ ({ s.mem with left := AssocMap.insert w item s.mem.left } :
        AccumulateMem).heldTokens := by
      rw [heldTokens_insert, hitem]
      exact .inl rfl
    exact (updateAndPropagateResult_keepsBelow hmem h₁.typed).mono (fun _ _ ↦ h₁.of_keepsBelow)
      fun _ _ ↦ h₁.of_keepsBelow

/-! ### Activations of the node -/

theorem updateItem_supported (h : Supported A s) (forward : Bool) (fact : FactPtr) (w : TokenWME) :
    (A.updateItem kb steps forward fact w).Ends s (fun _ ↦ Supported A) fun _ ↦ Supported A := by
  unfold AccumulateNode.updateItem
  refine .bind (.get ?_)
  cases hlookup : s.mem.left.lookup w with
  | none => exact .pure h
  | some item =>
    have hmem : (w, item) ∈ s.mem.left := AssocMap.mem_of_lookup hlookup
    dsimp only
    split
    · exact storeItem_supported h (h.depth w ⟨item, hmem⟩)
        ((applyAccumulate_wme _ _ _ _ _ _ _).trans (h.wme hmem)) _
    · exact .pure h

theorem rebuildItem_supported (h : Supported A s) (w : TokenWME) :
    (A.rebuildItem kb steps w).Ends s (fun _ ↦ Supported A) fun _ ↦ Supported A := by
  unfold AccumulateNode.rebuildItem
  refine .bind (.get ?_)
  cases hlookup : s.mem.left.lookup w with
  | none => exact .pure h
  | some item =>
    have hmem : (w, item) ∈ s.mem.left := AssocMap.mem_of_lookup hlookup
    have hkey : item.wme = w := h.wme hmem
    have hwme : (A.accumulateRight kb s (ParsedAccumulate.resetItem item)).wme = w :=
      (accumulateRight_wme _ _ _).trans hkey
    exact storeItem_supported h (h.depth w ⟨item, hmem⟩) hwme true

/-- **Right activation keeps the tokens below supported.** -/
theorem rightActivate_supported (h : Supported A s) (fact : FactPtr) (type : PropagationType) :
    (A.rightActivate kb steps fact type).Ends s (fun _ ↦ Supported A) fun _ ↦ Supported A := by
  unfold AccumulateNode.rightActivate
  refine .bind (.get ?_)
  dsimp only
  split
  · exact .pure h
  · cases type with
    | modify =>
      refine .bind (.modify ?_)
      exact Ends.forM (P := fun _ ↦ Supported A) (h.updateRight _) fun h ↦ rebuildItem_supported h _
    | assert =>
      refine .bind (.modify ?_)
      exact Ends.forM (P := fun _ ↦ Supported A) (h.updateRight _) fun h ↦
        updateItem_supported h _ _ _
    | retract =>
      dsimp only
      split
      · refine .bind ((Ends.forM (P := fun _ ↦ Supported A) h fun h ↦
          updateItem_supported h _ _ _).mono (fun _ s₁ h₁ ↦ ?_) fun _ _ h ↦ h)
        exact .modify (h₁.updateRight _)
      · exact .pure h

theorem heldTokens_erase (mem : AccumulateMem) (w : TokenWME) :
    ({ mem with left := AssocMap.erase w mem.left } : AccumulateMem).heldTokens =
      mem.heldTokens \ {w} := by
  ext v
  constructor
  · rintro ⟨i, hi⟩
    obtain ⟨hne, hi⟩ := AssocMap.mem_erase.mp hi
    exact ⟨⟨i, hi⟩, hne⟩
  · rintro ⟨⟨i, hi⟩, hne⟩
    exact ⟨i, AssocMap.mem_erase.mpr ⟨hne, hi⟩⟩

theorem updateItemBatch_supported (h : Supported A s) (facts : List FactPtr) (w : TokenWME) :
    (A.updateItemBatch kb steps facts w).Ends s (fun _ ↦ Supported A) fun _ ↦ Supported A := by
  unfold AccumulateNode.updateItemBatch
  refine .bind (.get ?_)
  cases hlookup : s.mem.left.lookup w with
  | none => exact .pure h
  | some item =>
    have hmem : (w, item) ∈ s.mem.left := AssocMap.mem_of_lookup hlookup
    have hkey : (A.accumulateBatch kb s.session facts item).1.wme = w := by
      rw [accumulateBatch_fst, (accumulateAll_keeps _ _ _ _).1]
      exact h.wme hmem
    exact storeItem_supported h (h.depth w ⟨item, hmem⟩) hkey _

/-- **Right activation with a batch keeps the tokens below supported.** -/
theorem rightActivateBatch_supported (h : Supported A s) (facts : List FactPtr) :
    (A.rightActivateBatch kb steps facts).Ends s (fun _ ↦ Supported A) fun _ ↦ Supported A := by
  unfold AccumulateNode.rightActivateBatch
  refine .bind (.get (.bind (.modify ?_)))
  exact Ends.forM (P := fun _ ↦ Supported A) (h.updateRight _) fun h ↦
    updateItemBatch_supported h _ _

/-- **Left activation keeps the tokens below supported**, if no child has kept a result of a token that
leaves the left. -/
theorem leftActivate_supported (h : Supported A s) {w : TokenWME}
    (hw : w.depth = A.depth) {type : PropagationType}
    (hleaves : type = .retract → w ∉ s.delivered) :
    (A.leftActivate kb steps allocate w type).Ends s (fun _ ↦ Supported A)
      fun _ ↦ Supported A := by
  unfold AccumulateNode.leftActivate
  refine .bind (.get ?_)
  split
  · next hretract =>
    cases hlookup : s.mem.left.lookup w with
    | none => exact .pure h
    | some item =>
      have hremaining : s.mem.heldTokens ∩ s.delivered ⊆ (s.mem.heldTokens \ {w}) ∩ s.delivered :=
        fun v hv ↦ ⟨⟨hv.1, fun heq ↦ hleaves hretract (heq ▸ hv.2)⟩, hv.2⟩
      have hretracted : Typed (A.extending ((s.mem.heldTokens \ {w}) ∩ s.delivered))
          (retractFact kb (logicalRetract kb steps) item.resultFact s.session).1 :=
        retractFact_typed (fun h ↦ logicalRetract_typed h) (h.typed.mono_extending hremaining)
      refine .bind ((callSession_keepsBelow hretracted).mono (fun _ s₁ h₁ ↦ ?_) fun _ s₁ h₁ ↦ ?_)
      · obtain ⟨htyped, hmem⟩ := h₁
        refine .modify ⟨?_, ?_, ?_⟩
        · rw [heldTokens_erase, hmem]
          exact htyped
        · rw [heldTokens_erase, hmem]
          exact fun v hv ↦ h.depth v hv.1
        · rw [hmem]
          exact fun hi ↦ h.wme (AssocMap.mem_erase.mp hi).2
      · exact h.of_keepsBelow
          ⟨h₁.1.mono_extending (Set.inter_subset_inter_left _ Set.sdiff_subset), h₁.2⟩
  · split
    · exact .pure h
    · have hcreated : Typed (A.extending (s.mem.heldTokens ∩ s.delivered))
          (AccumulateNode.createResultFact kb allocate A.resultFactType s.session).1 := by
        unfold AccumulateNode.createResultFact
        split
        · exact h.typed
        · exact h.typed.of_mem rfl
      refine .bind ((callSession_keepsBelow hcreated).mono (fun _ s₁ h₁ ↦ ?_)
        fun _ _ h₁ ↦ h.of_keepsBelow h₁)
      refine .bind (.get ?_)
      exact storeItem_supported (h.of_keepsBelow h₁) hw (accumulateRight_wme _ _ _) true

end Steps

/-! ### Runs -/

variable (A) in
/-- The states of a session with an accumulate node, at the granularity of one activation: of the
node itself, of a node below it from the right, or of anything else in the session, which may make
nodes below forget tokens but gives them none. A token leaves the left of the node only when no child
has kept a result of it. -/
inductive AccumulateRun (steps : ℕ) (allocate : Session → FactPtr) : AccumulateSession → Prop
  | start {s} : s.mem = {} → (∀ n, A.Below n → ∀ t, ¬ (s.session.mem n).Holds t) →
      AccumulateRun steps allocate s
  | left {s w} (type : PropagationType) : AccumulateRun steps allocate s → w.depth = A.depth →
      (type = .retract → w ∉ s.delivered) →
      AccumulateRun steps allocate ((A.leftActivate kb steps allocate w type) s).state
  | right {s} (fact : FactPtr) (type : PropagationType) : AccumulateRun steps allocate s →
      AccumulateRun steps allocate ((A.rightActivate kb steps fact type) s).state
  | rightBatch {s} (facts : List FactPtr) : AccumulateRun steps allocate s →
      AccumulateRun steps allocate ((A.rightActivateBatch kb steps facts) s).state
  | node {s} (levels n : ℕ) (fact : FactPtr) (type : PropagationType) :
      AccumulateRun steps allocate s →
      AccumulateRun steps allocate { s with
        session := rightActivate kb (logicalRetract kb steps) levels n fact type s.session }
  | nodeBatch {s} (levels n : ℕ) (facts : List FactPtr) : AccumulateRun steps allocate s →
      AccumulateRun steps allocate { s with
        session := (rightActivateBatch kb (logicalRetract kb steps) levels n facts s.session).2 }
  | outside {s} (session : Session) : AccumulateRun steps allocate s →
      (∀ n, A.Below n → ∀ t, (session.mem n).Holds t → (s.session.mem n).Holds t) →
      AccumulateRun steps allocate { s with session := session }

theorem AccumulateRun.supported {s : AccumulateSession} (h : AccumulateRun A steps allocate s) :
    Supported A s := by
  have hretract : ∀ {T : TokenTyping kb.network} {w : TokenWME} {s : Session}, Typed T s →
      Typed T (logicalRetract kb steps w s) := fun h ↦ logicalRetract_typed h
  induction h with
  | @start s hmem hnone =>
    have hheld : s.mem.heldTokens = ∅ := by
      rw [hmem]
      exact Set.eq_empty_of_forall_notMem fun w ⟨_, hw⟩ ↦ absurd hw List.not_mem_nil
    refine ⟨typed_extending_iff.mpr fun n hn t ht ↦ absurd ht (hnone n hn t), ?_, ?_⟩
    · rw [hheld]
      exact fun w hw ↦ absurd hw (Set.notMem_empty w)
    · rw [hmem]
      exact fun hi ↦ absurd hi List.not_mem_nil
  | left type _ hw hleaves ih => exact (leftActivate_supported ih hw hleaves).state
  | right fact type _ ih => exact (rightActivate_supported ih fact type).state
  | rightBatch facts _ ih => exact (rightActivateBatch_supported ih facts).state
  | node levels n fact type _ ih =>
    exact ih.of_keepsBelow ⟨rightActivate_typed hretract ih.typed, rfl⟩
  | nodeBatch levels n facts _ ih =>
    exact ih.of_keepsBelow ⟨rightActivateBatch_typed hretract ih.typed, rfl⟩
  | @outside s session _ hless ih =>
    refine ih.of_keepsBelow ⟨typed_extending_iff.mpr fun n hn t ht ↦ ?_, rfl⟩
    exact typed_extending_iff.mp ih.typed n hn t (hless n hn t ht)

end Placed

/-- **Nothing below extends a token that has left the node**, in every state of every run in
which a token leaves only when no child has kept a result of it. -/
theorem supported_below (kb : KnowledgeBase) (A : PlacedAccumulate kb.network) (steps : ℕ)
    (allocate : Session → FactPtr) {s : AccumulateSession}
    (hrun : AccumulateRun A steps allocate s) {w : TokenWME} (hdepth : w.depth = A.depth)
    (hgone : AssocMap.contains w s.mem.left = false) {n : ℕ} (hn : A.Below n) {t : TokenWME}
    (ht : (s.session.mem n).Holds t) : ¬ w.Extends t := by
  intro hext
  obtain ⟨v, ⟨⟨item, hv⟩, -⟩, hvext⟩ := typed_extending_iff.mp hrun.supported.typed n hn t ht
  obtain rfl := hext.unique hvext
    (hdepth.trans (hrun.supported.depth v ⟨item, hv⟩).symm)
  exact absurd (AssocMap.contains_iff.mpr ⟨item, hv⟩) (by rw [hgone]; exact Bool.false_ne_true)

/-! ### A total -/

/-- `$a : A(), $n : Number() from accumulate(B(), count), eval($n.result > 0)`, after its accumulate
pattern: the eval node and the terminal node. -/
def totalNetwork : CompiledNetwork where
  nodes :=
    [{ kind := .tokenNode (.eval ⟨"$n.result > 0", [("$a", 0), ("$n", 1)], [], none⟩),
       children := [1] }, { kind := .terminal 0 [] }]

/-- The evaluator on the one text of the rule. -/
def positiveResult : RuntimeEnv where
  evaluateRuntimeExpression _ _ _ _ := none
  evaluateRuntimeBooleanExpression heap _ fact _ :=
    match (heap fact).fields.lookup "result" with
    | some (.int64 i) => some (decide (0 < i))
    | _ => none

def totalBase : KnowledgeBase where
  rules := [{ name := "total" }]
  network := totalNetwork
  runtime := positiveResult
  hashes := ⟨fun p ↦ p, fun w ↦ w.depth, fun rule ↦ rule⟩
  validate := fun _ ↦ true
  nestingLimit := 1

theorem totalNetwork_leftEdge {n m : ℕ} (h : totalNetwork.LeftEdge n m) : n = 0 := by
  have hbeta : (totalNetwork.kind n).isBetaNode = true := h.2
  match n with
  | 0 => rfl
  | 1 => exact absurd hbeta (by decide)
  | n + 2 => exact absurd hbeta (by rw [CompiledNetwork.kind_of_le _ (by simp [totalNetwork])]; decide)

def totalNode : PlacedAccumulate totalBase.network where
  info := { function := .count }
  resultFactType := "Number"
  condition := ⟨[], [("$a", 0)], []⟩
  children := [0]
  depth := 1
  fed {n m} h _ := by
    obtain rfl : n = 0 := totalNetwork_leftEdge h
    exact ⟨0, List.mem_singleton_self 0, .refl⟩

def totalTokens : TokenWME × TokenWME := (.mk 1 .root 1, .mk 2 .root 2)

def nextFact (s : Session) : FactPtr :=
  s.workingMemory.nextId.toNat

/-- Two facts of type `A` at `1` and `2`, two of type `B` at `3` and `4`. -/
def totalStart : AccumulateSession where
  session :=
    { heap := fun p ↦
        if p = 0 ∨ 4 < p then {} else { id := p, type := if p < 3 then "A" else "B" }
      workingMemory := { nextId := 5 } }

def totalEnter (w : TokenWME) (type : PropagationType) (s : AccumulateSession) :
    AccumulateSession :=
  ((totalNode.leftActivate totalBase 1 nextFact w type) s).state

/-- Two tokens have come. -/
def totalEntered : AccumulateSession :=
  totalEnter totalTokens.2 .assert (totalEnter totalTokens.1 .assert totalStart)

/-- The second has gone. -/
def totalCounted : AccumulateSession :=
  totalEnter totalTokens.2 .retract totalEntered

/-- A batch of two facts has come: the eval node keeps the result of the first token. -/
def totalSession : AccumulateSession :=
  ((totalNode.rightActivateBatch totalBase 1 [3, 4]) totalCounted).state

theorem totalEntered_run : AccumulateRun totalNode 1 nextFact totalEntered := by
  have hstart : AccumulateRun totalNode 1 nextFact totalStart := .start rfl fun n _ t ht ↦ by
    rcases ht with ⟨_, h, -⟩ | h | ⟨_, h⟩ | ⟨_, h, -⟩ | ⟨_, h, -⟩ | h | h | h | h <;>
      exact absurd h List.not_mem_nil
  exact .left (w := totalTokens.2) .assert (.left (w := totalTokens.1) .assert hstart rfl nofun) rfl
    nofun

theorem totalSession_run : AccumulateRun totalNode 1 nextFact totalSession := by
  have hkept : totalEntered.kept = [] := by decide +kernel
  have hleaves : totalTokens.2 ∉ totalEntered.delivered := by
    rintro ⟨a, f, hmem⟩
    rw [hkept] at hmem
    exact absurd hmem List.not_mem_nil
  exact .rightBatch [3, 4]
    (.left (w := totalTokens.2) .retract totalEntered_run rfl fun _ ↦ hleaves)

/-- The terminal node is below the accumulate node. -/
theorem totalNode_below : totalNode.Below 1 :=
  ⟨0, List.mem_singleton_self 0, .tail .refl ⟨List.mem_singleton_self 1, rfl⟩⟩

/-- The second token has gone; the terminal node holds the result of the first, and nothing below
extends the second. -/
theorem supported_below_total :
    AssocMap.contains totalTokens.2 totalEntered.mem.left = true ∧
      .mk 1 totalTokens.1 5 ∈ (totalSession.session.mem 1).terminal ∧
      ∀ t ∈ (totalSession.session.mem 1).terminal, ¬ totalTokens.2.Extends t :=
  ⟨by decide +kernel, by decide +kernel, fun _ ht ↦
    supported_below totalBase totalNode 1 nextFact totalSession_run rfl (by decide +kernel)
      totalNode_below (.inr (.inr (.inr (.inr (.inr (.inr (.inl ht)))))))⟩

/-- **A retraction stops at the node**: the first token leaves, and the terminal node below still
holds its result. -/
theorem retraction_stopsAtAccumulate :
    AccumulateRun totalNode 1 nextFact totalSession ∧ totalNode.Below 1 ∧
    let s := totalEnter totalTokens.1 .retract totalSession
    AssocMap.contains totalTokens.1 totalSession.mem.left = true ∧
      AssocMap.contains totalTokens.1 s.mem.left = false ∧
      ∃ t ∈ (s.session.mem 1).terminal, totalTokens.1.Extends t :=
  ⟨totalSession_run, totalNode_below, by decide +kernel, by decide +kernel,
    .mk 1 totalTokens.1 5, by decide +kernel, .inl rfl⟩

end RulesForge
