import RulesForge.Engine.Execution
import RulesForge.Engine.Modification
import RulesForge.Rete.FlatFacts

/-!
# Transactions of right-hand sides

What a right-hand side has done is undone when an exception leaves it: `end_rhs_transaction`
restores the snapshots of the facts that were updated, the latest first, and then retracts the
facts that were inserted. Retractions have waited for the end, so that they are dropped.

Over flat facts a failed right-hand side leaves the session inconsistent, or it leaves working
memory and the memory of every node as they were before (`executeRhs_atomic`). A right-hand side
that ends leaves exact memories (`executeRhs_exact`).

What is asked of a right-hand side (`RhsProgram.Plain`): it inserts new facts and updates facts of
working memory, and no update touches a field by which a hashed join finds its entries; it retracts
facts that were there when it began, each of them once; and where an update fails halfway, its fact
has not been updated before.
-/

namespace RulesForge

/-! ### Flat sessions -/

/-- The facts of working memory are flat. -/
def Session.Flat (s : Session) : Prop := ∀ f ∈ s.facts, s.heap.Flat f

/-- The fields by which the hashed joins find their entries. -/
inductive CompiledNetwork.IndexField (net : CompiledNetwork) : String → Prop
  | left {n c l r} : net.kind n = .hashedJoin c l r → IndexField net l.1
  | right {n c l r} : net.kind n = .hashedJoin c l r → IndexField net r

/-- Two versions of a fact have the same index fields. -/
def SameIndex (kb : KnowledgeBase) (p : FactPtr) (fact fact' : Fact) : Prop :=
  ∀ field, kb.network.IndexField field →
    getField (fun _ ↦ fact') p field = getField (fun _ ↦ fact) p field

variable {kb : KnowledgeBase} {steps : ℕ} {known : Set FactPtr} {s : Session} {p : FactPtr}
  {fields : List (String × ConstraintValue)}

theorem SameIndex.refl (fact : Fact) : SameIndex kb p fact fact :=
  fun _ _ ↦ rfl

theorem SameIndex.symm {fact fact' : Fact} (h : SameIndex kb p fact fact') :
    SameIndex kb p fact' fact :=
  fun field hfield ↦ (h field hfield).symm

theorem SameIndex.trans {fact fact' fact'' : Fact} (h : SameIndex kb p fact fact')
    (h' : SameIndex kb p fact' fact'') : SameIndex kb p fact fact'' :=
  fun field hfield ↦ (h' field hfield).trans (h field hfield)

theorem Fact.eq_of_parts {fact fact' : Fact} (hid : fact.id = fact'.id)
    (htype : fact.type = fact'.type) (hfields : fact.fields = fact'.fields) : fact = fact' := by
  obtain ⟨id, type, fields⟩ := fact
  obtain ⟨id', type', fields'⟩ := fact'
  obtain ⟨rfl, rfl, rfl⟩ : id = id' ∧ type = type' ∧ fields = fields' := ⟨hid, htype, hfields⟩
  rfl

theorem writeFields_self (p : FactPtr) (fields : List (String × ConstraintValue)) (s : Session) :
    (writeFields p fields s).heap p = { s.heap p with fields := fields } := by
  simp [writeFields]

theorem writeFields_of_ne {f : FactPtr} (hf : f ≠ p) (fields : List (String × ConstraintValue))
    (s : Session) : (writeFields p fields s).heap f = s.heap f := by
  simp [writeFields, hf]

/-- The last assignment of fields counts. -/
theorem writeFields_writeFields (p : FactPtr) (fields fields' : List (String × ConstraintValue))
    (s : Session) : writeFields p fields' (writeFields p fields s) = writeFields p fields' s := by
  simp [writeFields]

theorem writeFields_same (p : FactPtr) (s : Session) :
    writeFields p (s.heap p).fields s = s := by
  simp [writeFields]

/-- A flat fact is read the same wherever it stands. -/
theorem getField_of_flat {heap : Heap} {f : FactPtr} (hflat : heap.Flat f) (name : String) :
    getField (fun _ ↦ heap f) f name = getField heap f name := by
  have hsame : SameReads heap (fun _ ↦ heap f) f := sameReads_of_flat hflat rfl rfl
  exact hsame.getField name

/-- **An update that keeps the index fields** changes no key. -/
theorem fieldsChange_of_flat {source : FactPtr → Option String} (h : SessionInv kb source known s)
    (hflat : s.Flat) (hp : p ∈ s.facts) (hfields : FlatFields fields)
    (hindex : SameIndex kb p (s.heap p) { s.heap p with fields := fields }) :
    FieldsChange kb s p fields := by
  have hflat' : (writeFields p fields s).heap.Flat p := by
    show FlatFields ((writeFields p fields s).heap p).fields
    rw [writeFields_self]
    exact hfields
  have hothers : ∀ f ∈ s.facts, f ≠ p → SameReads s.heap (writeFields p fields s).heap f := by
    intro f hf hfp
    have hsame := writeFields_of_ne hfp fields s
    exact sameReads_of_flat (hflat f hf) (congrArg _ hsame) (congrArg _ hsame)
  have hself : ∀ field, kb.network.IndexField field →
      getField (writeFields p fields s).heap p field = getField s.heap p field := by
    intro field hfield
    rw [← getField_of_flat hflat', ← getField_of_flat (hflat p hp), writeFields_self]
    exact hindex field hfield
  have hread : ∀ {field}, kb.network.IndexField field → ∀ f ∈ s.facts,
      getField (writeFields p fields s).heap f field = getField s.heap f field := by
    intro field hfield f hf
    by_cases hfp : f = p
    · rw [hfp]
      exact hself field hfield
    · exact (hothers f hf hfp).getField field
  refine ⟨hothers, plainReads_of_flat _ hflat', ⟨?_, ?_⟩⟩
  · intro n c l r k w hkind hmem _
    obtain ⟨hD, hnode⟩ := h.settled.node n
    simp only [hkind] at hnode
    have hfacts := hD w (hnode.left_key hmem).1
    rw [hashedLeftKey, hashedLeftKey, tokenKey, tokenKey]
    cases hg : w.getFactAtDepth l.2 with
    | none => rfl
    | some g =>
      have hmemFacts := hfacts g (TokenWME.mem_facts_of_getFactAtDepth hg)
      exact congrArg _ (hread (.left hkind) g hmemFacts)
  · intro n c l r k hkind _
    rw [hashedRightKey, hashedRightKey, hread (.right hkind) p hp]

theorem Session.Flat.writeFields (h : s.Flat) (hfields : FlatFields fields) :
    ∀ f ∈ s.facts, (writeFields p fields s).heap.Flat f := by
  intro f hf
  show FlatFields ((RulesForge.writeFields p fields s).heap f).fields
  by_cases hfp : f = p
  · rw [hfp, writeFields_self]
    exact hfields
  · rw [writeFields_of_ne hfp]
    exact h f hf

/-! ### Exact sessions -/

/-- A session with exact memories over flat facts, all of them from the default entry points. -/
structure ExactSession (kb : KnowledgeBase) (known : Set FactPtr) (s : Session) : Prop
    extends SessionInv kb (fun _ ↦ none) known s where
  flat : s.Flat

/-- What the activation of an entry point leaves alone. -/
theorem status_of_base {s s' : Session} (hbase : s'.base = s.base) :
    s'.isConsistent = s.isConsistent ∧ s'.transaction = s.transaction := by
  constructor
  · show s'.base.isConsistent = s.base.isConsistent
    rw [hbase]
  · show s'.base.transaction = s.base.transaction
    rw [hbase]

theorem ExactSession.congr {s' : Session} (h : ExactSession kb known s) (hheap : s'.heap = s.heap)
    (hmem : s'.mem = s.mem) (hstore : s'.workingMemory = s.workingMemory) (htms : s'.tms = s.tms)
    (hhint : s'.currentModifiedFields = s.currentModifiedFields) : ExactSession kb known s' where
  toSessionInv := h.toSessionInv.congr hheap hmem hstore htms (hhint.trans h.hint)
  flat := by
    intro f hf
    rw [Session.facts, hstore] at hf
    rw [hheap]
    exact h.flat f hf

/-- An operation that leaves exact memories, the facts and the status of the session. -/
structure KeepsExact (kb : KnowledgeBase) (known : Set FactPtr) (s s' : Session) : Prop
    extends ExactSession kb known s' where
  facts : s'.facts = s.facts
  isConsistent : s'.isConsistent = s.isConsistent
  transaction : s'.transaction = s.transaction

variable (steps) in
/-- An update of a fact with the propagation of the change. -/
theorem ExactSession.propagateModify (hkb : kb.Sound) (h : ExactSession kb known s)
    (hp : p ∈ s.facts) (hfields : FlatFields fields)
    (hindex : SameIndex kb p (s.heap p) { s.heap p with fields := fields })
    {hint : Option ModifiedFieldsHint}
    (hcovers : HintCovers hint s.heap (writeFields p fields s).heap p) :
    let s' := propagateModify kb steps p hint (writeFields p fields s)
    KeepsExact kb known s s' ∧ s'.heap = (writeFields p fields s).heap := by
  intro s'
  have hchange := fieldsChange_of_flat h.toSessionInv h.flat hp hfields hindex
  obtain ⟨hinv, hfacts, hheap⟩ := h.toSessionInv.propagateModify steps hkb rfl hp hchange hcovers
  obtain ⟨-, hbase⟩ := h.toSessionInv.modify steps hkb rfl hp hchange hcovers
  have hzero := (h.known_id p (h.known_facts hp)).1
  have hcontains : (writeFields p fields s).workingMemory.contains
      ((writeFields p fields s).heap p).id = true := by
    rw [(writeFields_heap p p fields s).1]
    exact (h.contains_iff (h.known_facts hp)).mpr hp
  have hs' : s' = { activateEntryPoint kb (logicalRetract kb steps) p .modify
      { writeFields p fields s with currentModifiedFields := hint } with
        currentModifiedFields := none } := by
    simp [s', RulesForge.propagateModify, hzero, hcontains]
  obtain ⟨hconsistent, htransaction⟩ := status_of_base hbase
  refine ⟨⟨⟨hinv, fun f hf ↦ ?_⟩, hfacts, ?_, ?_⟩, hheap⟩
  · rw [hheap]
    exact h.flat.writeFields hfields f (hfacts ▸ hf)
  · rw [hs']
    exact hconsistent
  · rw [hs']
    exact htransaction

variable (steps) in
/-- A fact of working memory is retracted outside of a transaction. -/
theorem ExactSession.removeFact (hkb : kb.Sound) (h : ExactSession kb known s) (hp : p ∈ s.facts) :
    let s' := removeFact kb (logicalRetract kb steps) p s
    ExactSession kb known s' ∧ s'.facts = s.facts \ {p} ∧ s'.heap = s.heap ∧
      s'.isConsistent = s.isConsistent ∧ s'.transaction = s.transaction := by
  intro s'
  obtain ⟨hinv, hfacts, hheap, hconsistent⟩ := h.toSessionInv.removeFact steps hkb rfl hp
  refine ⟨⟨hinv, fun f hf ↦ ?_⟩, hfacts, hheap, hconsistent, ?_⟩
  · rw [hfacts] at hf
    rw [hheap]
    exact h.flat f hf.1
  · obtain ⟨hleft, -, hbase⟩ := h.toSessionInv.leaveFact steps hkb hp
    rw [← activateEntryPoint_eq] at hleft hbase
    set s₂ := activateEntryPoint kb (logicalRetract kb steps) p .retract (leaveFact p s) with hs₂
    have hclean := (cleanWmeCache_eq kb steps hleft.tms (s.heap p).id).1
    exact (status_of_base hclean).2.trans (status_of_base hbase).2

theorem createFact_of_ne {f : FactPtr} (hf : f ≠ p) (type : String)
    (fields : List (String × ConstraintValue)) (s : Session) :
    (createFact p type fields s).heap f = s.heap f := by
  simp [createFact, writeFields, writeType, hf]

theorem createFact_self (p : FactPtr) (type : String) (fields : List (String × ConstraintValue))
    (s : Session) :
    (createFact p type fields s).heap p =
      { id := (s.heap p).id, type := type, fields := fields } := by
  simp [createFact, writeFields, writeType]

/-- The fields of a fact outside of working memory are written. -/
theorem ExactSession.writeFields (hkb : kb.Sound) (h : ExactSession kb known s)
    (hnew : p ∉ s.facts) (fields : List (String × ConstraintValue)) :
    ExactSession kb known (writeFields p fields s) := by
  set s' := RulesForge.writeFields p fields s with hs'
  have hothers : ∀ f ∈ s.facts, s'.heap f = s.heap f := fun f hf ↦
    writeFields_of_ne (ne_of_mem_of_not_mem hf hnew) fields s
  refine ⟨h.toSessionInv.of_reads hkb hnew rfl rfl rfl h.hint (fun f _ ↦ ?_) (fun f hf ↦ ?_)
    (fun f hf ↦ ?_), fun f hf ↦ ?_⟩
  · exact (writeFields_heap p f fields s).1
  · exact congrArg Fact.type (hothers f hf)
  · exact sameReads_of_flat (h.flat f hf) (congrArg _ (hothers f hf)) (congrArg _ (hothers f hf))
  · show FlatFields (s'.heap f).fields
    rw [hothers f hf]
    exact h.flat f hf

/-- A fact that is created is not known to the network. -/
theorem ExactSession.createFact (hkb : kb.Sound) (h : ExactSession kb known s) (hnew : p ∉ s.facts)
    (type : String) (fields : List (String × ConstraintValue)) :
    ExactSession kb known (createFact p type fields s) := by
  have htyped : ExactSession kb known (writeType p type s) := by
    refine ⟨h.toSessionInv.retyped hkb hnew type, fun f hf ↦ ?_⟩
    show FlatFields ((writeType p type s).heap f).fields
    rw [(writeType_heap p f type s).1]
    exact h.flat f hf
  exact htyped.writeFields hkb hnew fields

/-- What the addition of a fact does: nothing that matters, or the fact is in working memory, and
a transaction has its id. -/
structure AddsFact (kb : KnowledgeBase) (known : Set FactPtr) (p : FactPtr) (s s' : Session) :
    Prop
    extends ExactSession kb (known ∪ s'.facts) s' where
  isConsistent : s'.isConsistent = s.isConsistent
  kept : ∀ f ∈ s.facts, s'.heap f = s.heap f
  entered : s'.facts = s.facts ∧ s'.transaction = s.transaction ∨
    s'.facts = insert p s.facts ∧ s'.transaction = s.transaction.map fun t ↦
      { t with insertedFacts := t.insertedFacts ++ [(s'.heap p).id] }

variable (steps) in
/-- A fact that is new, or was there before, is added. -/
theorem ExactSession.addFact (hkb : kb.Sound) (h : ExactSession kb known s) (hnew : p ∉ s.facts)
    (hid : (s.heap p).id = 0 ∨ p ∈ known) (hflat : s.heap.Flat p) :
    AddsFact kb known p s (addFact kb steps p s).1 := by
  have hinv : SessionInv kb (fun _ ↦ none) (known ∪ (RulesForge.addFact kb steps p s).1.facts)
      (RulesForge.addFact kb steps p s).1 :=
    h.toSessionInv.addFact hkb (fun _ _ ↦ rfl) rfl hnew hid
      (plainReads_of_flat kb.network hflat)
  set s' := (RulesForge.addFact kb steps p s).1 with hs'
  rcases addFact_cases kb steps p s with h' | ⟨name, hname, hzero, h' | h'⟩
  · rw [← hs'] at h'
    rw [h'] at hinv ⊢
    exact ⟨⟨hinv, h.flat⟩, rfl, fun _ _ ↦ rfl, .inl ⟨rfl, rfl⟩⟩
  · rw [← hs'] at h'
    have hkept : ∀ f ∈ s.facts, (writeType p name s).heap f = s.heap f := fun f hf ↦ by
      simp [writeType, ne_of_mem_of_not_mem hf hnew]
    rw [h'] at hinv ⊢
    refine ⟨⟨hinv, fun f hf ↦ ?_⟩, rfl, hkept, .inl ⟨rfl, rfl⟩⟩
    show FlatFields ((writeType p name s).heap f).fields
    rw [hkept f hf]
    exact h.flat f hf
  · have hentered : Entered known p name s (enterFact kb p name s) := h.entered hnew hid
    have hsource : ∀ f ∈ s.facts, (fun _ ↦ none : FactPtr → Option String) f = none :=
      fun _ _ ↦ rfl
    obtain ⟨-, hbase⟩ := h.toSessionInv.addEntered steps hkb hsource hzero hnew hid hname
      (plainReads_of_flat kb.network hflat) (enterFact kb p name s).transaction
    rw [← activateEntryPoint_eq] at hbase
    rw [← show s' = _ from h'] at hbase
    obtain ⟨hconsistent, htransaction⟩ := status_of_base hbase
    have hheap : s'.heap = (enterFact kb p name s).heap := (base_parts hbase).1
    have hfacts : s'.facts = insert p s.facts := (facts_of_base hbase).trans hentered.facts
    have hkept : ∀ f ∈ s.facts, s'.heap f = s.heap f := by
      intro f hf
      have hne := ne_of_mem_of_not_mem hf hnew
      rw [hheap]
      exact Fact.eq_of_parts (hentered.id f (h.known_facts hf)) (hentered.type f hne)
        (hentered.fields f)
    refine ⟨⟨hinv, fun f hf ↦ ?_⟩, hconsistent, hkept, .inr ⟨hfacts, ?_⟩⟩
    · rw [hfacts] at hf
      show FlatFields (s'.heap f).fields
      rcases hf with rfl | hf
      · rw [hheap, hentered.fields]
        exact hflat
      · rw [hkept f hf]
        exact h.flat f hf
    · rw [hheap]
      exact htransaction

/-! ### Inside a transaction -/

/-- The fields that a fact had when the transaction began. -/
def RhsTransaction.originalFields (t : RhsTransaction) (fact : Fact) :
    List (String × ConstraintValue) :=
  (t.updatedFactSnapshots.lookup fact.id).getD fact.fields

/-- A session in the transaction of a right-hand side that began in the session `start`: the facts
of `start` are in working memory, and the transaction knows what has been done to them. -/
structure InTransaction (kb : KnowledgeBase) (start : Session) (t : RhsTransaction)
    (known : Set FactPtr) (s : Session) : Prop extends ExactSession kb known s where
  isConsistent : s.isConsistent = true
  transaction : s.transaction = some t
  kept : ∀ f ∈ start.facts, f ∈ s.facts ∧
    { s.heap f with fields := t.originalFields (s.heap f) } = start.heap f
  inserted : ∀ f ∈ s.facts, (s.heap f).id ∈ t.insertedFacts ↔ f ∉ start.facts
  order_nodup : t.updatedFactOrder.Nodup
  tracked : ∀ id, id ∈ t.updatedFactOrder ↔ (t.updatedFactSnapshots.lookup id).isSome = true
  tracked_facts : ∀ id ∈ t.updatedFactOrder, ∃ f ∈ s.facts, (s.heap f).id = id
  snapshots : ∀ f ∈ s.facts, ∀ fields,
    t.updatedFactSnapshots.lookup (s.heap f).id = some fields →
      FlatFields fields ∧ SameIndex kb f (s.heap f) { s.heap f with fields := fields }
  retracted_nodup : t.retractedFacts.Nodup
  retracted : ∀ f ∈ t.retractedFacts, f ∈ start.facts

/-- An update whose change has not been propagated yet: the fields that the network knows, and
whether the update has taken the first snapshot of its fact. -/
structure PendingUpdate where
  fact : FactPtr
  before : List (String × ConstraintValue)
  first : Bool

/-- An update begins. -/
def PendingUpdate.start (fact : FactPtr) (s : Session) : PendingUpdate where
  fact := fact
  before := (s.heap fact).fields
  first := s.transaction.all fun t ↦ !AssocMap.contains (s.heap fact).id t.updatedFactSnapshots

/-- A session in the midst of an update. -/
structure InUpdate (kb : KnowledgeBase) (start : Session) (t : RhsTransaction)
    (known : Set FactPtr) (u : PendingUpdate) (s : Session) : Prop where
  told : InTransaction kb start t known (writeFields u.fact u.before s)
  mem : u.fact ∈ s.facts
  flat : s.heap.Flat u.fact
  index : SameIndex kb u.fact { s.heap u.fact with fields := u.before } (s.heap u.fact)
  tracked : ∃ fields, t.updatedFactSnapshots.lookup (s.heap u.fact).id = some fields
  first : u.first = true → t.updatedFactOrder.getLast? = some (s.heap u.fact).id ∧
    t.updatedFactSnapshots.lookup (s.heap u.fact).id = some u.before

/-- A session in a transaction, in the midst of an update if there is one. -/
def InState (kb : KnowledgeBase) (start : Session) (t : RhsTransaction) (known : Set FactPtr) :
    Option PendingUpdate → Session → Prop
  | none => InTransaction kb start t known
  | some u => InUpdate kb start t known u

variable {start : Session} {t : RhsTransaction}

/-- A transaction begins. -/
theorem ExactSession.begin (h : ExactSession kb known s) (hconsistent : s.isConsistent = true) :
    InTransaction kb s {} known (beginRhsTransaction s) where
  toExactSession := h.congr rfl rfl rfl rfl rfl
  isConsistent := hconsistent
  transaction := rfl
  kept _ hf := ⟨hf, rfl⟩
  inserted _ hf := iff_of_false List.not_mem_nil (absurd hf)
  order_nodup := List.nodup_nil
  tracked _ := iff_of_false List.not_mem_nil Bool.false_ne_true
  tracked_facts _ hid := absurd hid List.not_mem_nil
  snapshots _ _ fields hfields := absurd hfields.symm (Option.some_ne_none fields)
  retracted_nodup := List.nodup_nil
  retracted _ hf := absurd hf List.not_mem_nil

/-- The network is told of new fields of a fact whose snapshot has been taken. -/
theorem InTransaction.updated {s' : Session} (h : InTransaction kb start t known s)
    (h' : KeepsExact kb known s s') (hothers : ∀ f ≠ p, s'.heap f = s.heap f)
    (hp : s'.heap p = { s.heap p with fields := fields })
    (hindex : SameIndex kb p (s.heap p) (s'.heap p))
    (htracked : ∃ fields, t.updatedFactSnapshots.lookup (s.heap p).id = some fields) :
    InTransaction kb start t known s' := by
  have hid : ∀ f, (s'.heap f).id = (s.heap f).id := by
    intro f
    by_cases hfp : f = p
    · rw [hfp, hp]
    · rw [hothers f hfp]
  have horiginal : ∀ f, ({ s'.heap f with fields := t.originalFields (s'.heap f) } : Fact) =
      { s.heap f with fields := t.originalFields (s.heap f) } := by
    intro f
    by_cases hfp : f = p
    · obtain ⟨before, hbefore⟩ := htracked
      rw [hfp, hp]
      simp only [RhsTransaction.originalFields, hbefore, Option.getD_some]
    · rw [hothers f hfp]
  have hfacts := h'.facts
  refine ⟨h'.toExactSession, h'.isConsistent.trans h.isConsistent,
    h'.transaction.trans h.transaction, ?_, ?_, h.order_nodup, h.tracked, ?_, ?_, h.retracted_nodup,
    h.retracted⟩
  · intro f hf
    rw [hfacts, horiginal]
    exact h.kept f hf
  · intro f hf
    rw [hfacts] at hf
    rw [hid]
    exact h.inserted f hf
  · intro id horder
    simp only [hfacts, hid]
    exact h.tracked_facts id horder
  · intro f hf before hbefore
    rw [hfacts] at hf
    rw [hid] at hbefore
    obtain ⟨hflat, hsame⟩ := h.snapshots f hf before hbefore
    refine ⟨hflat, ?_⟩
    by_cases hfp : f = p
    · subst hfp
      have hrestored : ({ s'.heap f with fields := before } : Fact) =
          { s.heap f with fields := before } := by rw [hp]
      rw [hrestored]
      exact hindex.symm.trans hsame
    · rw [hothers f hfp]
      exact hsame

/-- A transaction with the snapshot of a fact. -/
def RhsTransaction.withSnapshot (t : RhsTransaction) (fact : Fact) : RhsTransaction :=
  { t with
    updatedFactOrder := t.updatedFactOrder ++ [fact.id]
    updatedFactSnapshots := AssocMap.emplace fact.id fact.fields t.updatedFactSnapshots }

theorem lookup_withSnapshot {fact : Fact} (hnone : t.updatedFactSnapshots.lookup fact.id = none)
    (id : ℤ) : (t.withSnapshot fact).updatedFactSnapshots.lookup id =
      if id = fact.id then some fact.fields else t.updatedFactSnapshots.lookup id := by
  show (AssocMap.emplace fact.id fact.fields t.updatedFactSnapshots).lookup id = _
  rw [AssocMap.emplace_eq_insert (AssocMap.lookup_eq_none_iff.mp hnone)]
  split
  · next heq =>
    rw [heq]
    exact AssocMap.lookup_insert_self _ _ _
  · next hne => exact AssocMap.lookup_insert_ne hne _ _

theorem contains_eq_isSome_lookup {β : Type} {id : ℤ} {m : List (ℤ × β)} :
    AssocMap.contains id m = (m.lookup id).isSome := by
  cases hlookup : m.lookup id with
  | none =>
    refine Bool.eq_false_iff.mpr fun h ↦ ?_
    obtain ⟨v, hv⟩ := AssocMap.contains_iff.mp h
    exact AssocMap.lookup_eq_none_iff.mp hlookup v hv
  | some v => exact AssocMap.contains_iff.mpr ⟨v, AssocMap.mem_of_lookup hlookup⟩

/-- The first snapshot of a fact is what the fact had when the transaction began. -/
theorem InTransaction.withSnapshot (h : InTransaction kb start t known s) (hp : p ∈ s.facts)
    (hnone : t.updatedFactSnapshots.lookup (s.heap p).id = none) :
    InTransaction kb start (t.withSnapshot (s.heap p)) known
      { s with transaction := some (t.withSnapshot (s.heap p)) } := by
  have hlookup := lookup_withSnapshot hnone
  have hself : ∀ f ∈ s.facts, (s.heap f).id = (s.heap p).id → f = p := fun f hf heq ↦
    h.id_injOn (h.known_facts hf) (h.known_facts hp) heq
  refine ⟨h.toExactSession.congr rfl rfl rfl rfl rfl, h.isConsistent, rfl, ?_, h.inserted, ?_, ?_,
    ?_, ?_, h.retracted_nodup, h.retracted⟩
  · intro f hf
    obtain ⟨hmem, hkept⟩ := h.kept f hf
    have horiginal : (t.withSnapshot (s.heap p)).originalFields (s.heap f) =
        t.originalFields (s.heap f) := by
      rw [RhsTransaction.originalFields, hlookup, RhsTransaction.originalFields]
      split
      · next heq =>
        rw [hself f hmem heq, hnone]
        rfl
      · rfl
    refine ⟨hmem, Eq.trans ?_ hkept⟩
    rw [horiginal]
  · refine List.Nodup.append h.order_nodup (List.nodup_singleton _) ?_
    rw [List.disjoint_singleton, h.tracked, hnone]
    exact Bool.false_ne_true
  · intro id
    rw [hlookup]
    show id ∈ t.updatedFactOrder ++ [(s.heap p).id] ↔ _
    rw [List.mem_append, List.mem_singleton, h.tracked]
    split
    · next heq => exact iff_of_true (.inr heq) rfl
    · next hne => exact or_iff_left hne
  · intro id hid
    rcases List.mem_append.mp hid with hid | hid
    · exact h.tracked_facts id hid
    · exact ⟨p, hp, (List.mem_singleton.mp hid).symm⟩
  · intro f hf before hbefore
    rw [hlookup] at hbefore
    split at hbefore
    · next heq =>
      obtain rfl := hself f hf heq
      obtain rfl := Option.some.inj hbefore
      exact ⟨h.flat f hf, .refl _⟩
    · exact h.snapshots f hf before hbefore

/-- An update begins with the assignment of fields. -/
theorem InTransaction.assign (h : InTransaction kb start t known s) (hp : p ∈ s.facts)
    (hfields : FlatFields fields)
    (hindex : SameIndex kb p (s.heap p) { s.heap p with fields := fields }) :
    ∃ t', InUpdate kb start t' known (.start p s)
      (writeFields p fields (trackRhsUpdateSnapshot p s)) := by
  have hpos := (h.known_id p (h.known_facts hp)).2.1
  have hback : ∀ s' : Session, s'.heap = s.heap →
      writeFields p (s.heap p).fields (writeFields p fields s') = s' := by
    intro s' hheap
    rw [writeFields_writeFields, ← hheap, writeFields_same]
  cases hsnapshot : t.updatedFactSnapshots.lookup (s.heap p).id with
  | some before =>
    have htrack : trackRhsUpdateSnapshot p s = s := by
      simp [trackRhsUpdateSnapshot, h.transaction, contains_eq_isSome_lookup, hsnapshot]
    have hfirst : (PendingUpdate.start p s).first = false := by
      simp [PendingUpdate.start, h.transaction, contains_eq_isSome_lookup, hsnapshot]
    rw [htrack]
    refine ⟨t, ⟨?_, hp, ?_, ?_, ⟨before, ?_⟩, fun htrue ↦ ?_⟩⟩
    · exact (hback s rfl).symm ▸ h
    · show FlatFields ((writeFields p fields s).heap p).fields
      rw [writeFields_self]
      exact hfields
    · show SameIndex kb p { (writeFields p fields s).heap p with fields := (s.heap p).fields }
        ((writeFields p fields s).heap p)
      rw [writeFields_self]
      exact hindex
    · show t.updatedFactSnapshots.lookup ((writeFields p fields s).heap p).id = some before
      rw [writeFields_self]
      exact hsnapshot
    · rw [hfirst] at htrue
      exact absurd htrue Bool.false_ne_true
  | none =>
    set s₁ : Session := { s with transaction := some (t.withSnapshot (s.heap p)) } with hs₁
    have htrack : trackRhsUpdateSnapshot p s = s₁ := by
      simp [trackRhsUpdateSnapshot, h.transaction, contains_eq_isSome_lookup, hsnapshot, hpos, hs₁,
        RhsTransaction.withSnapshot]
    have hlookup := lookup_withSnapshot hsnapshot (s.heap p).id
    rw [if_pos rfl] at hlookup
    have hid : ((writeFields p fields s₁).heap p).id = (s.heap p).id :=
      (writeFields_heap p p fields s₁).1
    rw [htrack]
    refine ⟨t.withSnapshot (s.heap p), ⟨?_, hp, ?_, ?_, ⟨(s.heap p).fields, ?_⟩, fun _ ↦ ⟨?_, ?_⟩⟩⟩
    · exact (hback s₁ rfl).symm ▸ h.withSnapshot hp hsnapshot
    · show FlatFields ((writeFields p fields s₁).heap p).fields
      rw [writeFields_self]
      exact hfields
    · show SameIndex kb p { (writeFields p fields s₁).heap p with fields := (s.heap p).fields }
        ((writeFields p fields s₁).heap p)
      rw [writeFields_self]
      exact hindex
    · exact hid.symm ▸ hlookup
    · show (t.updatedFactOrder ++ [(s.heap p).id]).getLast? = _
      rw [List.getLast?_concat]
      exact congrArg some hid.symm
    · exact hid.symm ▸ hlookup

/-- A further assignment of an update. -/
theorem InUpdate.assign {u : PendingUpdate} (h : InUpdate kb start t known u s)
    (hfields : FlatFields fields)
    (hindex : SameIndex kb u.fact (s.heap u.fact) { s.heap u.fact with fields := fields }) :
    InUpdate kb start t known u
      (writeFields u.fact fields (trackRhsUpdateSnapshot u.fact s)) := by
  obtain ⟨snapshot, hsnapshot⟩ := h.tracked
  have htransaction : s.transaction = some t := h.told.transaction
  have htrack : trackRhsUpdateSnapshot u.fact s = s := by
    simp [trackRhsUpdateSnapshot, htransaction, contains_eq_isSome_lookup, hsnapshot]
  have hid : ((writeFields u.fact fields s).heap u.fact).id = (s.heap u.fact).id :=
    (writeFields_heap u.fact u.fact fields s).1
  rw [htrack]
  refine ⟨?_, h.mem, ?_, ?_, ?_, ?_⟩
  · rw [writeFields_writeFields]
    exact h.told
  · show FlatFields ((writeFields u.fact fields s).heap u.fact).fields
    rw [writeFields_self]
    exact hfields
  · rw [writeFields_self]
    exact h.index.trans hindex
  · rw [hid]
    exact h.tracked
  · rw [hid]
    exact h.first

variable (steps) in
/-- An update ends with the propagation of its change. -/
theorem InUpdate.propagate (hkb : kb.Sound) {u : PendingUpdate} (h : InUpdate kb start t known u s)
    {hint : Option ModifiedFieldsHint}
    (hcovers : HintCovers hint (writeFields u.fact u.before s).heap s.heap u.fact) :
    InTransaction kb start t known (propagateModify kb steps u.fact hint s) := by
  set s₀ := writeFields u.fact u.before s with hs₀
  have hself : s₀.heap u.fact = { s.heap u.fact with fields := u.before } := writeFields_self _ _ _
  have hs : writeFields u.fact (s.heap u.fact).fields s₀ = s := by
    rw [hs₀, writeFields_writeFields, writeFields_same]
  have hnew : ({ s₀.heap u.fact with fields := (s.heap u.fact).fields } : Fact) =
      s.heap u.fact := by
    rw [hself]
  obtain ⟨hkeeps, hheap⟩ := h.told.toExactSession.propagateModify steps hkb h.mem h.flat
    (by rw [hnew, hself]; exact h.index) (hs.symm ▸ hcovers)
  rw [hs] at hkeeps hheap
  have hfact : (propagateModify kb steps u.fact hint s).heap u.fact =
      { s₀.heap u.fact with fields := (s.heap u.fact).fields } := by
    rw [hheap, hnew]
  refine h.told.updated hkeeps (fun f hf ↦ ?_) hfact ?_ ?_
  · rw [hheap]
    exact (writeFields_of_ne hf u.before s).symm
  · rw [hheap, hself]
    exact h.index
  · rw [hself]
    exact h.tracked

variable (steps) in
/-- A new fact is inserted, or the insertion is refused. -/
theorem InTransaction.insert (hkb : kb.Sound) (h : InTransaction kb start t known s)
    (hnew : p ∉ s.facts) (hid : (s.heap p).id = 0) (type : String) (hfields : FlatFields fields) :
    ∃ known' t', known ⊆ known' ∧ InTransaction kb start t' known'
      (addFact kb steps p (createFact p type fields s)).1 := by
  set s₁ := createFact p type fields s with hs₁
  set s' := (addFact kb steps p s₁).1 with hs'
  have hflat : s₁.heap.Flat p := by
    show FlatFields (s₁.heap p).fields
    rw [hs₁, createFact_self]
    exact hfields
  have hadds : AddsFact kb known p s₁ s' := (h.toExactSession.createFact hkb hnew type fields).addFact
    steps hkb hnew (.inl (by rw [hs₁, createFact_self]; exact hid)) hflat
  have hsame : ∀ f ∈ s.facts, s'.heap f = s.heap f := fun f hf ↦
    (hadds.kept f hf).trans (createFact_of_ne (ne_of_mem_of_not_mem hf hnew) type fields s)
  have hkept : ∀ f ∈ start.facts, f ∈ s.facts ∧
      { s'.heap f with fields := t.originalFields (s'.heap f) } = start.heap f := by
    intro f hf
    obtain ⟨hmem, hfact⟩ := h.kept f hf
    rw [hsame f hmem]
    exact ⟨hmem, hfact⟩
  have htracked : ∀ id ∈ t.updatedFactOrder, ∃ f ∈ s.facts, (s'.heap f).id = id := by
    intro id hid
    obtain ⟨f, hf, heq⟩ := h.tracked_facts id hid
    exact ⟨f, hf, hsame f hf ▸ heq⟩
  rcases hadds.entered with ⟨hfacts, htransaction⟩ | ⟨hfacts, htransaction⟩
  · refine ⟨_, t, Set.subset_union_left, hadds.toExactSession, hadds.isConsistent.trans h.isConsistent,
      htransaction.trans h.transaction, fun f hf ↦ ?_, fun f hf ↦ ?_, h.order_nodup, h.tracked,
      fun id hid ↦ ?_, fun f hf ↦ ?_, h.retracted_nodup, h.retracted⟩
    · rw [hfacts]
      exact hkept f hf
    · rw [hfacts] at hf
      rw [hsame f hf]
      exact h.inserted f hf
    · rw [hfacts]
      exact htracked id hid
    · rw [hfacts] at hf
      rw [hsame f hf]
      exact h.snapshots f hf
  · have hpfacts : p ∈ s'.facts := hfacts ▸ Set.mem_insert p _
    have hdistinct : ∀ f ∈ s.facts, (s'.heap f).id ≠ (s'.heap p).id := by
      intro f hf heq
      have hmem : f ∈ s'.facts := hfacts ▸ Set.mem_insert_of_mem p hf
      obtain rfl := hadds.id_injOn (.inr hmem) (.inr hpfacts) heq
      exact hnew hf
    have hunknown : ∀ before, t.updatedFactSnapshots.lookup (s'.heap p).id ≠ some before := by
      intro before hbefore
      have horder := (h.tracked _).mpr (Option.isSome_iff_exists.mpr ⟨before, hbefore⟩)
      obtain ⟨f, hf, heq⟩ := htracked _ horder
      exact hdistinct f hf heq
    refine ⟨_, { t with insertedFacts := t.insertedFacts ++ [(s'.heap p).id] },
      Set.subset_union_left, hadds.toExactSession, hadds.isConsistent.trans h.isConsistent, ?_, fun f hf ↦ ?_,
      fun f hf ↦ ?_, h.order_nodup, h.tracked, fun id hid ↦ ?_, fun f hf ↦ ?_, h.retracted_nodup,
      h.retracted⟩
    · rw [htransaction]
      exact congrArg (Option.map _) h.transaction
    · obtain ⟨hmem, hfact⟩ := hkept f hf
      exact ⟨hfacts ▸ Set.mem_insert_of_mem p hmem, hfact⟩
    · rw [hfacts] at hf
      show (s'.heap f).id ∈ t.insertedFacts ++ [(s'.heap p).id] ↔ f ∉ start.facts
      rw [List.mem_append, List.mem_singleton]
      rcases hf with rfl | hf
      · exact iff_of_true (.inr rfl) fun hstart ↦ hnew (h.kept f hstart).1
      · rw [or_iff_left (hdistinct f hf), hsame f hf]
        exact h.inserted f hf
    · obtain ⟨f, hf, heq⟩ := htracked id hid
      exact ⟨f, hfacts ▸ Set.mem_insert_of_mem p hf, heq⟩
    · rw [hfacts] at hf
      intro before hbefore
      rcases hf with rfl | hf
      · exact absurd hbefore (hunknown before)
      · rw [hsame f hf] at hbefore ⊢
        exact h.snapshots f hf before hbefore

/-- A fact that was there when the transaction began is retracted: the retraction waits. -/
theorem InTransaction.retract (h : InTransaction kb start t known s)
    (hretracted : ∀ f ∈ s.facts, (s.heap f).id = (s.heap p).id →
      f ∈ start.facts ∧ f ∉ t.retractedFacts) :
    ∃ t', InTransaction kb start t' known (retractFact kb (logicalRetract kb steps) p s).1 := by
  unfold retractFact
  split
  · exact ⟨t, h⟩
  rw [if_neg (by simp [h.isConsistent]), h.transaction]
  cases hget : s.workingMemory.get (s.heap p).id with
  | none => exact ⟨t, h⟩
  | some f =>
    have hmem := h.get_eq_some_iff.mp hget
    obtain ⟨hstart, hnot⟩ := hretracted f ⟨_, hmem⟩ (h.id_eq hmem)
    refine ⟨{ t with retractedFacts := t.retractedFacts ++ [f] },
      h.toExactSession.congr rfl rfl rfl rfl rfl, h.isConsistent, rfl, h.kept, h.inserted,
      h.order_nodup, h.tracked, h.tracked_facts, h.snapshots, ?_, ?_⟩
    · refine List.Nodup.append h.retracted_nodup (List.nodup_singleton f) ?_
      rwa [List.disjoint_singleton]
    · intro g hg
      rcases List.mem_append.mp hg with hg | hg
      · exact h.retracted g hg
      · exact List.mem_singleton.mp hg ▸ hstart

/-- What touches neither facts nor network nor the transaction. -/
theorem InTransaction.congr {s' : Session} (h : InTransaction kb start t known s)
    (hheap : s'.heap = s.heap) (hmem : s'.mem = s.mem)
    (hstore : s'.workingMemory = s.workingMemory) (htms : s'.tms = s.tms)
    (hhint : s'.currentModifiedFields = s.currentModifiedFields)
    (hconsistent : s'.isConsistent = s.isConsistent)
    (htransaction : s'.transaction = s.transaction) : InTransaction kb start t known s' := by
  have hfacts : s'.facts = s.facts := by rw [Session.facts, hstore, Session.facts]
  refine ⟨h.toExactSession.congr hheap hmem hstore htms hhint, hconsistent.trans h.isConsistent,
    htransaction.trans h.transaction, ?_, ?_, h.order_nodup, h.tracked, ?_, ?_, h.retracted_nodup,
    h.retracted⟩
  · rw [hfacts, hheap]
    exact h.kept
  · rw [hfacts, hheap]
    exact h.inserted
  · rw [hfacts, hheap]
    exact h.tracked_facts
  · rw [hfacts, hheap]
    exact h.snapshots

/-! ### Plain right-hand sides -/

section Programs

variable (kb steps) (token : TokenWME)

/-- A right-hand side that is **plain** from a point on, in the transaction that began in the
session `start`. Between the first assignment of an update and its propagation there is a pending
update. -/
inductive RhsProgram.Plain (start : Session) :
    Option PendingUpdate → RhsProgram → FireState → Prop
  | done {c} : Plain start none .done c
  | throw {update c} : (∀ u, update = some u → u.first = true) → Plain start update .throw c
  | insert {fact type values next c} : fact ∉ c.session.facts → (c.session.heap fact).id = 0 →
      FlatFields values →
      (∀ c', (RhsAction.insert fact type values).run kb steps token c = (c', none) →
        Plain start none (next c'.session) c') →
      Plain start none (.act (.insert fact type values) next) c
  | assign {fact values next update c} : fact ∈ c.session.facts →
      (∀ u, update = some u → u.fact = fact) → FlatFields values →
      SameIndex kb fact (c.session.heap fact) { c.session.heap fact with fields := values } →
      (∀ c', (RhsAction.assign fact values).run kb steps token c = (c', none) →
        Plain start (some (update.getD (.start fact c.session))) (next c'.session) c') →
      Plain start update (.act (.assign fact values) next) c
  | propagate {u hint next c} :
      HintCovers hint (writeFields u.fact u.before c.session).heap c.session.heap u.fact →
      (∀ c', (RhsAction.propagate u.fact hint).run kb steps token c = (c', none) →
        Plain start none (next c'.session) c') →
      Plain start (some u) (.act (.propagate u.fact hint) next) c
  | retract {fact next c} :
      (∀ f ∈ c.session.facts, (c.session.heap f).id = (c.session.heap fact).id →
        f ∈ start.facts ∧ ∀ t, c.session.transaction = some t → f ∉ t.retractedFacts) →
      (∀ c', (RhsAction.retract fact).run kb steps token c = (c', none) →
        Plain start none (next c'.session) c') →
      Plain start none (.act (.retract fact) next) c
  | setFocus {group next c} :
      (∀ c', (RhsAction.setFocus group).run kb steps token c = (c', none) →
        Plain start none (next c'.session) c') →
      Plain start none (.act (.setFocus group) next) c
  | halt {next c} :
      (∀ c', RhsAction.halt.run kb steps token c = (c', none) →
        Plain start none (next c'.session) c') →
      Plain start none (.act .halt next) c

end Programs

/-- The outcome of a right-hand side in the transaction that began in the session `start`. -/
def RhsEnds (kb : KnowledgeBase) (start : Session) (known : Set FactPtr) (r : FireState × Bool) :
    Prop :=
  ∃ known' t update, known ⊆ known' ∧ InState kb start t known' update r.1.session ∧
    (r.2 = false → update = none) ∧ ∀ u, update = some u → u.first = true

variable {token : TokenWME}

theorem RhsProgram.run_of_ok {action : RhsAction} {next : Session → RhsProgram} {c c' : FireState}
    (h : action.run kb steps token c = (c', none)) :
    (RhsProgram.act action next).run kb steps token c =
      (next c'.session).run kb steps token c' := by
  rw [RhsProgram.run, h]

theorem RhsProgram.run_of_error {action : RhsAction} {next : Session → RhsProgram}
    {c c' : FireState} {e : SessionError} (h : action.run kb steps token c = (c', some e)) :
    (RhsProgram.act action next).run kb steps token c = (c', true) := by
  rw [RhsProgram.run, h]

/-- A call that leaves no update pending, and what follows it. -/
theorem rhsEnds_act {action : RhsAction} {next : Session → RhsProgram} {c : FireState}
    (hstep : ∃ known' t', known ⊆ known' ∧
      InTransaction kb start t' known' (action.run kb steps token c).1.session)
    (hnext : ∀ c', action.run kb steps token c = (c', none) →
      ∀ {known t}, InTransaction kb start t known c'.session →
        RhsEnds kb start known ((next c'.session).run kb steps token c')) :
    RhsEnds kb start known ((RhsProgram.act action next).run kb steps token c) := by
  obtain ⟨known₁, t₁, hsub₁, h₁⟩ := hstep
  rcases hresult : action.run kb steps token c with ⟨c', error⟩
  rw [hresult] at h₁
  cases error with
  | none =>
    rw [RhsProgram.run_of_ok hresult]
    obtain ⟨known₂, t₂, update, hsub₂, h₂⟩ := hnext c' hresult h₁
    exact ⟨known₂, t₂, update, hsub₁.trans hsub₂, h₂⟩
  | some e =>
    rw [RhsProgram.run_of_error hresult]
    exact ⟨known₁, t₁, none, hsub₁, h₁, fun _ ↦ rfl,
      fun u hu ↦ absurd hu.symm (Option.some_ne_none u)⟩

/-- **A plain right-hand side** ends in its transaction. If an update is pending then, an
exception has been raised, and the update has taken the last snapshot. -/
theorem RhsProgram.Plain.run (hkb : kb.Sound) {program : RhsProgram}
    {update : Option PendingUpdate} {c : FireState}
    (hplain : program.Plain kb steps token start update c)
    (h : InState kb start t known update c.session) :
    RhsEnds kb start known (program.run kb steps token c) := by
  induction hplain generalizing t known with
  | done =>
    exact ⟨known, t, none, subset_rfl, h, fun _ ↦ rfl,
      fun u hu ↦ absurd hu.symm (Option.some_ne_none u)⟩
  | @throw update c hfirst =>
    exact ⟨known, t, update, subset_rfl, h, fun hthrew ↦ absurd hthrew.symm Bool.false_ne_true,
      hfirst⟩
  | @insert fact type values next c hnew hid hvalues _ ih =>
    refine rhsEnds_act ?_ fun c' hc' {_ _} h' ↦ ih c' hc' h'
    exact InTransaction.insert steps hkb h hnew hid type hvalues
  | @assign fact values next update c hmem hupdate hvalues hindex _ ih =>
    have hrun : (RhsAction.assign fact values).run kb steps token c =
        ({ c with session := writeFields fact values (trackRhsUpdateSnapshot fact c.session) },
          none) := rfl
    rw [RhsProgram.run_of_ok hrun]
    cases update with
    | none =>
      obtain ⟨t', h'⟩ := InTransaction.assign h hmem hvalues hindex
      exact ih _ hrun h'
    | some u =>
      obtain rfl := hupdate u rfl
      exact ih _ hrun (InUpdate.assign h hvalues hindex)
  | @propagate u hint next c hcovers _ ih =>
    refine rhsEnds_act ?_ fun c' hc' {_ _} h' ↦ ih c' hc' h'
    exact ⟨known, t, subset_rfl, InUpdate.propagate steps hkb h hcovers⟩
  | @retract fact next c hretracted _ ih =>
    have htransaction : c.session.transaction = some t := InTransaction.transaction h
    refine rhsEnds_act ?_ fun c' hc' {_ _} h' ↦ ih c' hc' h'
    obtain ⟨t', h'⟩ := InTransaction.retract h fun f hf hid ↦
      ⟨(hretracted f hf hid).1, (hretracted f hf hid).2 t htransaction⟩
    exact ⟨known, t', subset_rfl, h'⟩
  | @setFocus group next c _ ih =>
    refine rhsEnds_act ⟨known, t, subset_rfl, ?_⟩ fun c' hc' {_ _} h' ↦ ih c' hc' h'
    have hconsistent : c.session.isConsistent = true := InTransaction.isConsistent h
    have hrun : (RhsAction.setFocus group).run kb steps token c =
        ({ c with session := c.session.setFocus group }, none) := by
      rw [RhsAction.run, if_pos hconsistent]
    rw [hrun]
    exact InTransaction.congr h rfl rfl rfl rfl rfl rfl rfl
  | halt _ ih => exact rhsEnds_act ⟨known, t, subset_rfl, h⟩ fun c' hc' {_ _} h' ↦ ih c' hc' h'

end RulesForge
