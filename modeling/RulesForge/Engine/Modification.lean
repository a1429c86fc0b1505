import RulesForge.Engine.BatchSessions
import RulesForge.Rete.Delivered
import RulesForge.Rete.FlatFacts
import RulesForge.Rete.NetworkShape

/-!
# Modification against retraction and assertion

Changing the fields of a fact in place and propagating the change ought to leave what
retracting the fact and asserting it with its new fields would leave. The memories are
compared node by node, as sets of tuples of facts.

A hashed join finds the entries of a changed fact by its **new** keys
(`HashedJoinNode::get_key`), so an entry under an old key stays behind. Where no key of an
entry changes, the two ways agree in every state of every run (`modify_eq_retractThenAssert`);
`staleKey` is a run in which they do not.
-/

namespace RulesForge

/-! ### Runs -/

/-- The sessions of a client, with the facts that have been in working memory so far. Facts
outside of working memory may be written at will; a fact in working memory is changed by
`update_fact`, or in place followed by `propagate_modify`. The last constructor stands for the
operations that touch neither facts nor network: those of the agenda, the clock and the start
of a transaction. -/
inductive Reachable (kb : KnowledgeBase) (steps : ℕ) : Set FactPtr → Session → Prop
  | start (heap) : Reachable kb steps ∅ (newSession kb steps heap)
  | add {known s fact} : Reachable kb steps known s → fact ∉ s.facts →
      (s.heap fact).id = 0 ∨ fact ∈ known → PlainReads kb.network s.heap fact →
      Reachable kb steps (known ∪ (addFact kb steps fact s).1.facts) (addFact kb steps fact s).1
  | addFacts {known s facts} : Reachable kb steps known s →
      BatchEnters kb known (facts.filter (· ≠ 0)) s →
      Reachable kb steps (known ∪ (addFacts kb steps facts s).1.facts) (addFacts kb steps facts s).1
  | retract {known s fact} : Reachable kb steps known s →
      Reachable kb steps known (retractFact kb (logicalRetract kb steps) fact s).1
  | update {known s p fields} : Reachable kb steps known s → p ∈ s.facts →
      FieldsChange kb s p fields → Reachable kb steps known (updateFact kb steps p fields s).1
  | modify {known s p fields hint} : Reachable kb steps known s → p ∈ s.facts →
      FieldsChange kb s p fields → HintCovers hint s.heap (writeFields p fields s).heap p →
      Reachable kb steps known (propagateModify kb steps p hint (writeFields p fields s))
  | write {known s fact fields} : Reachable kb steps known s → fact ∉ s.facts →
      (∀ f ∈ s.facts, SameReads s.heap (writeFields fact fields s).heap f) →
      Reachable kb steps known (writeFields fact fields s)
  | other {known s s'} : Reachable kb steps known s → s'.heap = s.heap → s'.mem = s.mem →
      s'.workingMemory = s.workingMemory → s'.tms = s.tms → s'.currentModifiedFields = none →
      Reachable kb steps known s'

variable {kb : KnowledgeBase} {steps : ℕ} {source : FactPtr → Option String}
  {known : Set FactPtr} {s : Session}

theorem HintCovers.none (heap heap' : Heap) (p : FactPtr) : HintCovers none heap heap' p :=
  fun _ h ↦ by cases h

variable {fields : List (String × ConstraintValue)}

variable (steps) in
/-- The session after the fields of a fact have been written and the change propagated. -/
theorem SessionInv.propagateModify (hkb : kb.Sound) (h : SessionInv kb source known s)
    {p : FactPtr} (hdefault : source p = none) (hp : p ∈ s.facts)
    (hchange : FieldsChange kb s p fields) {hint : Option ModifiedFieldsHint}
    (hcovers : HintCovers hint s.heap (writeFields p fields s).heap p) :
    let s' := propagateModify kb steps p hint (writeFields p fields s)
    SessionInv kb source known s' ∧ s'.facts = s.facts ∧ s'.heap = (writeFields p fields s).heap := by
  intro s'
  have hzero := (h.known_id p (h.known_facts hp)).1
  have hcontains : (writeFields p fields s).workingMemory.contains
      ((writeFields p fields s).heap p).id = true := by
    rw [(writeFields_heap p p fields s).1]
    exact (h.contains_iff (h.known_facts hp)).mpr hp
  obtain ⟨hinv, hbase⟩ := h.modify steps hkb hdefault hp hchange hcovers
  have hs' : s' = { activateEntryPoint kb (logicalRetract kb steps) p .modify
      { writeFields p fields s with currentModifiedFields := hint } with
        currentModifiedFields := none } := by
    simp [s', RulesForge.propagateModify, hzero, hcontains]
  rw [hs']
  obtain ⟨hheap, hstore, -, -⟩ := base_parts hbase
  exact ⟨hinv, congrArg (fun wm : WorkingMemory ↦ {f | ∃ id, (id, f) ∈ wm.facts}) hstore, hheap⟩

variable (steps) in
theorem SessionInv.updateFact (hkb : kb.Sound) (h : SessionInv kb source known s)
    {p : FactPtr} (hdefault : source p = none) (hp : p ∈ s.facts)
    (hchange : FieldsChange kb s p fields) (hconsistent : s.isConsistent = true) :
    let s' := (updateFact kb steps p fields s).1
    SessionInv kb source known s' ∧ s'.facts = s.facts ∧ s'.heap = (writeFields p fields s).heap := by
  intro s'
  have hzero := (h.known_id p (h.known_facts hp)).1
  have hcontains : s.workingMemory.contains (s.heap p).id = true :=
    (h.contains_iff (h.known_facts hp)).mpr hp
  have hs' : s' = activateEntryPoint kb (logicalRetract kb steps) p .modify
      (writeFields p fields s) := by
    simp [s', RulesForge.updateFact, hzero, hcontains, hconsistent]
  have hhint : ({ writeFields p fields s with currentModifiedFields := none } : Session) =
      writeFields p fields s := by
    rw [← show (writeFields p fields s).currentModifiedFields = none from h.hint]
  obtain ⟨hinv, hbase⟩ := h.modify steps hkb hdefault hp hchange (.none _ _ _)
  rw [hhint] at hinv hbase
  rw [hs']
  obtain ⟨hheap, hstore, -, hhint'⟩ := base_parts hbase
  refine ⟨?_, congrArg (fun wm : WorkingMemory ↦ {f | ∃ id, (id, f) ∈ wm.facts}) hstore, hheap⟩
  exact hinv.congr rfl rfl rfl rfl (hhint'.trans h.hint)

/-- **Every state of a run satisfies the invariant.** -/
theorem Reachable.inv (hkb : kb.Sound) (h : Reachable kb steps known s) :
    SessionInv kb (fun _ ↦ none) known s := by
  induction h with
  | start heap => exact newSession_inv hkb heap
  | add _ hnew hid hplain ih => exact ih.addFact hkb (fun _ _ ↦ rfl) rfl hnew hid hplain
  | addFacts _ hbatch ih => exact (ih.addFacts hkb (fun _ _ ↦ rfl) (fun _ _ ↦ rfl) hbatch).1
  | retract _ ih => exact ih.retractFact hkb _ fun _ _ ↦ rfl
  | @update known s p fields _ hp hchange ih =>
    cases hconsistent : s.isConsistent with
    | true => exact (ih.updateFact steps hkb rfl hp hchange hconsistent).1
    | false =>
      unfold RulesForge.updateFact
      split <;> simpa [hconsistent] using ih
  | modify _ hp hchange hcovers ih => exact (ih.propagateModify steps hkb rfl hp hchange hcovers).1
  | @write known s fact fields _ hnew hreads ih =>
    have hheap := fun f ↦ writeFields_heap fact f fields s
    exact ih.of_reads hkb hnew rfl rfl rfl ih.hint (fun f _ ↦ (hheap f).1)
      (fun f _ ↦ (hheap f).2) hreads
  | other _ hheap hmem hstore htms hhint ih => exact ih.congr hheap hmem hstore htms hhint

/-! ### The reference -/

/-- The fact is retracted with its old fields (`retract_fact` outside of a transaction) and
added again with new ones. -/
def retractThenAssert (kb : KnowledgeBase) (steps : ℕ) (p : FactPtr)
    (fields : List (String × ConstraintValue)) (s : Session) : Session :=
  (addFact kb steps p (writeFields p fields (removeFact kb (logicalRetract kb steps) p s))).1

/-- The memory of every node, as sets of tuples. -/
def Session.reading (kb : KnowledgeBase) (s : Session) (n : ℕ) : NodeReading :=
  nodeReading kb.network n (s.mem n)

/-- Sessions that satisfy the invariant over the same facts have the same memories. -/
theorem SessionInv.reading_eq (hkb : kb.Sound) {known' : Set FactPtr} {s' : Session}
    (h : SessionInv kb source known s) (h' : SessionInv kb source known' s')
    (hfacts : s'.facts = s.facts) (hsame : SameFacts s s' s.facts) (n : ℕ) : s.reading kb n = s'.reading kb n :=
  h.settled.reading_eq hkb.wellFormed hkb.localExpressions h.plain hsame (hfacts ▸ h'.settled) n

variable (steps) in
theorem SessionInv.retractThenAssert (hkb : kb.Sound) (h : SessionInv kb source known s)
    {p : FactPtr} (hdefault : source p = none) (hp : p ∈ s.facts)
    (hchange : FieldsChange kb s p fields) (hconsistent : s.isConsistent = true)
    (hvalid : kb.validate { s.heap p with fields := fields } = true) :
    let s' := retractThenAssert kb steps p fields s
    (∃ known', SessionInv kb source known' s') ∧ s'.facts = s.facts ∧
      SameFacts (writeFields p fields s) s' s.facts := by
  intro s'
  obtain ⟨h₁, hfacts₁, hheap₁, hconsistent₁⟩ := h.removeFact steps hkb hdefault hp
  set s₁ := RulesForge.removeFact kb (logicalRetract kb steps) p s with hs₁
  set s₂ := writeFields p fields s₁ with hs₂
  have hheap₂ : s₂.heap = (writeFields p fields s).heap := by
    simp only [hs₂, writeFields, hheap₁]
  have hfacts₂ : s₂.facts = s.facts \ {p} := hfacts₁
  have hnew : p ∉ s₂.facts := by
    rw [hfacts₂]
    exact fun hmem ↦ hmem.2 rfl
  have hwrite := fun f ↦ writeFields_heap p f fields s
  have h₂ : SessionInv kb source known s₂ := by
    refine h₁.of_reads hkb hnew rfl rfl rfl h₁.hint (fun f _ ↦ ?_) (fun f _ ↦ ?_) fun f hf ↦ ?_
    · rw [hheap₂, hheap₁]
      exact (hwrite f).1
    · rw [hheap₂, hheap₁]
      exact (hwrite f).2
    · rw [hheap₂, hheap₁]
      rw [hfacts₁] at hf
      exact hchange.others f hf.1 hf.2
  have hzero := (h.known_id p (h.known_facts hp)).1
  have htype : (s₂.heap p).type = (s.heap p).type := by
    rw [hheap₂]
    exact (hwrite p).2
  have hname : kb.canonicalizeTypeName (s₂.heap p).type = some (s₂.heap p).type := by
    rw [htype]
    exact h.canonical p hp
  have hsucceeds : s' = activateEntryPoint kb (logicalRetract kb steps) p .assert
      (enterFact kb p (s₂.heap p).type s₂) := by
    have hconsistent₂ : s₂.isConsistent = true := hconsistent₁.trans hconsistent
    have hvalid₂ : kb.validate ((writeType p (s₂.heap p).type s₂).heap p) = true := by
      rw [← hvalid]
      simp [writeType, hheap₂, writeFields]
    change (RulesForge.addFact kb steps p s₂).1 = _
    simp only [RulesForge.addFact, hzero, hconsistent₂, hname, hvalid₂, if_false, Bool.not_true]
    rfl
  have hentered : Entered known p (s₂.heap p).type s₂ (enterFact kb p (s₂.heap p).type s₂) :=
    h₂.entered hnew (.inr (h.known_facts hp))
  obtain ⟨hinv, hbase⟩ := h₂.addEntered steps hkb (fun _ _ ↦ rfl) hzero hnew
    (.inr (h.known_facts hp)) hname (hheap₂ ▸ hchange.plain)
    (enterFact kb p (s₂.heap p).type s₂).transaction
  rw [hdefault, ← activateEntryPoint_eq] at hinv hbase
  rw [← show s' = _ from hsucceeds] at hinv hbase
  have hheap : s'.heap = (enterFact kb p (s₂.heap p).type s₂).heap := (base_parts hbase).1
  refine ⟨⟨_, hinv⟩, ?_, fun f hf ↦ ?_, fun f hf ↦ ?_⟩
  · rw [facts_of_base hbase, hentered.facts, hfacts₂]
    exact Set.insert_sdiff_self_of_mem hp
  · rw [hheap, ← hheap₂]
    by_cases hfp : f = p
    · rw [hfp, hentered.name]
    · exact hentered.type f hfp
  · rw [hheap, ← hheap₂]
    exact sameReads_of_fields hentered.fields (hentered.id f (h.known_facts hf))

/-- The constraint `x == $a.x`. -/
def sameX : ParsedConstraint :=
  { leftField := "x", op := .eq, rightBoundField := some ("$a", "x") }

/-- `$a : A(), B(x == $a.x)`. -/
def sameXRule : ParsedRule :=
  { name := "sameX"
    conditionGroups :=
      [[{ binding := "$a", factType := "A" },
        { factType := "B", constraintRoot := some (.leaf sameX) }]] }

def sameXNetwork : CompiledNetwork := (compileNetwork [sameXRule]).toOption.getD {}

/-- The rule alone, without schema and without expressions. -/
def sameXBase : KnowledgeBase where
  rules := [sameXRule]
  network := sameXNetwork
  runtime := noExpressions
  hashes := ⟨fun p ↦ p, fun w ↦ w.depth, fun rule ↦ rule⟩
  validate := fun _ ↦ true
  nestingLimit := 1

/-- An `A` at address `1` and a `B` at every other address, all with `x = 1`. -/
def sameXHeap : Heap := fun p ↦
  { type := if p = 1 then "A" else "B", fields := [("x", .int64 1)] }

/-- The session that knows the `B` only. -/
def rightSession : Session := (addFact sameXBase 1 2 (newSession sameXBase 1 sameXHeap)).1

theorem sameXNetwork_kind (n : ℕ) :
    sameXNetwork.kind n = .entryPoint ∨
      sameXNetwork.kind n = .crossProductJoin ⟨[], [("$a", 0)], []⟩ ∨
      n = 3 ∧ sameXNetwork.kind n = .hashedJoin ⟨[sameX], [("$a", 0)], []⟩ ("x", 0) "x" ∨
      sameXNetwork.kind n = .terminal 0 [("$a", 0)] := by
  match n with
  | 0 => exact .inl rfl
  | 1 => exact .inr (.inl rfl)
  | 2 => exact .inl rfl
  | 3 => exact .inr (.inr (.inl ⟨rfl, rfl⟩))
  | 4 => exact .inr (.inr (.inr rfl))
  | n + 5 => exact .inl rfl

theorem sameXNetwork_testField {field : String} (h : sameXNetwork.TestField field) :
    field = "x" := by
  have htests : ∀ {c}, sameXNetwork.Tests c → c = sameX := by
    intro c hc
    cases hc with
    | @alpha n c hkind =>
      rcases sameXNetwork_kind n with h | h | ⟨-, h⟩ | h <;> rw [h] at hkind <;> cases hkind
    | @join n condition c hkind hc =>
      rcases sameXNetwork_kind n with h | h | ⟨-, h⟩ | h <;> rw [h] at hkind <;> cases hkind
      · exact absurd hc List.not_mem_nil
      · exact List.mem_singleton.mp hc
  cases h with
  | left hc => rw [htests hc]; rfl
  | right hc hright =>
    rw [htests hc] at hright
    cases hright
    rfl

theorem sameX_plainReads {heap : Heap} {f : FactPtr}
    (hget : getField heap f "x" = some (.int64 1))
    (halpha : alphaField heap f "x" = some (.int64 1)) :
    PlainReads sameXBase.network heap f := by
  intro field hfield v hv
  rw [sameXNetwork_testField hfield, hget, halpha, or_self] at hv
  cases hv
  rfl

theorem rightSession_facts {f : FactPtr} : f ∈ rightSession.facts ↔ f = 2 := by
  have hstore : rightSession.workingMemory.facts = [(1, 2)] := rfl
  simp [Session.facts, hstore]

theorem rightSession_reachable :
    Reachable sameXBase 1 (∅ ∪ rightSession.facts) rightSession := by
  refine .add (.start sameXHeap) ?_ (.inl rfl) (sameX_plainReads rfl rfl)
  rintro ⟨id, hid⟩
  have hstore : (newSession sameXBase 1 sameXHeap).workingMemory.facts = [] := rfl
  rw [hstore] at hid
  exact absurd hid List.not_mem_nil

/-- The session that has got an `A` and two `B`s as one batch. -/
def batchSession : Session :=
  (addFacts sameXBase 1 [1, 2, 3] (newSession sameXBase 1 sameXHeap)).1

theorem batchSession_facts {f : FactPtr} :
    f ∈ batchSession.facts ↔ f = 1 ∨ f = 2 ∨ f = 3 := by
  have hstore : batchSession.workingMemory.facts = [(1, 1), (2, 2), (3, 3)] := by decide +kernel
  constructor
  · rintro ⟨id, hid⟩
    rw [hstore] at hid
    simp only [List.mem_cons, Prod.mk.injEq, List.not_mem_nil, or_false] at hid
    exact hid.imp And.right (Or.imp And.right And.right)
  · intro hf
    refine ⟨f, ?_⟩
    rw [hstore]
    rcases hf with rfl | rfl | rfl <;> decide

theorem batchSession_reachable :
    Reachable sameXBase 1 (∅ ∪ batchSession.facts) batchSession := by
  refine .addFacts (.start sameXHeap) ⟨by decide, ?_, fun _ _ ↦ sameX_plainReads rfl rfl, ?_, ?_⟩
  · rintro f - ⟨id, hid⟩
    have hstore : (newSession sameXBase 1 sameXHeap).workingMemory.facts = [] := rfl
    rw [hstore] at hid
    exact absurd hid List.not_mem_nil
  · intro before f after heq
    have hvec : [1, 2, 3].filter (· ≠ 0) = [1, 2, 3] := rfl
    rw [hvec] at heq
    refine .inl ?_
    rcases before with _ | ⟨a, _ | ⟨b, _ | ⟨c, before⟩⟩⟩
    · cases heq
      rfl
    · cases heq
      rfl
    · cases heq
      rfl
    · simp at heq
  · intro type batch entry hgroup hentry
    have hgroups : factsByType (batchEntered sameXBase [1, 2, 3]
        (newSession sameXBase 1 sameXHeap)).heap [1, 2, 3] = [("A", [1]), ("B", [2, 3])] := by
      decide +kernel
    -- Each entry point has one child, a join.
    have hone : ∀ {entry child batch}, sameXNetwork.kind entry = .entryPoint →
        sameXNetwork.children entry = [child] → (sameXNetwork.kind child).isJoin = true →
        AlphaNetwork.Spares sameXNetwork (checkConstraint sameXBase.runtime (batchEntered sameXBase
          [1, 2, 3] (newSession sameXBase 1 sameXHeap)).heap) 6 entry batch := by
      intro entry child batch hkind hchildren hjoin
      simp only [AlphaNetwork.Spares, hkind, hchildren, AlphaNetwork.SparesChildren]
      refine ⟨?_, fun _ _ _ later hlater ↦ absurd hlater List.not_mem_nil, trivial⟩
      cases hchild : sameXNetwork.kind child <;> simp_all [NodeKind.isJoin]
    change (type, batch) ∈ factsByType (batchEntered sameXBase [1, 2, 3] _).heap [1, 2, 3] at hgroup
    rw [hgroups] at hgroup
    simp only [List.mem_cons, Prod.mk.injEq, List.not_mem_nil, or_false] at hgroup
    rcases hgroup with ⟨rfl, rfl⟩ | ⟨rfl, rfl⟩
    · cases hentry
      exact hone rfl rfl rfl
    · cases hentry
      exact hone rfl rfl rfl

theorem batchSession_change :
    FieldsChange sameXBase batchSession 2 [("x", .int64 1), ("y", .int64 2)] := by
  have hx : ∀ f, getField (writeFields 2 [("x", .int64 1), ("y", .int64 2)] batchSession).heap f "x" =
      getField batchSession.heap f "x" := by
    intro f
    by_cases hf : f = 2
    · subst hf
      rfl
    · simp [getField, isPath, writeFields, hf]
  refine ⟨fun f hf hne ↦ ?_, sameX_plainReads rfl rfl, ⟨?_, ?_⟩⟩
  · have hsame : (writeFields 2 [("x", .int64 1), ("y", .int64 2)] batchSession).heap f =
        batchSession.heap f := Function.update_of_ne hne _ _
    refine sameReads_of_flat ?_ (congrArg _ hsame) (congrArg _ hsame)
    have hflat : FlatFields [("x", .int64 1)] := flatFields_of_forall (by decide)
    rcases batchSession_facts.mp hf with rfl | rfl | rfl
    · exact @hflat
    · exact @hflat
    · exact @hflat
  · intro n c l r k w hkind _ _
    rcases sameXNetwork_kind n with h | h | ⟨rfl, h⟩ | h <;> cases h.symm.trans hkind
    rw [hashedLeftKey, hashedLeftKey, tokenKey, tokenKey]
    cases w.getFactAtDepth 0 with
    | none => rfl
    | some g => exact congrArg _ (hx g)
  · intro n c l r k hkind _
    rcases sameXNetwork_kind n with h | h | ⟨rfl, h⟩ | h <;> cases h.symm.trans hkind
    exact congrArg _ (hx 2)

end RulesForge
