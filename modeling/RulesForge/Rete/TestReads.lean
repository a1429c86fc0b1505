import RulesForge.Rete.Settled

/-!
# What tests read

The alpha and join tests look at a fact through its field lookup alone. Two heaps in which a
fact has the same reads therefore test it alike (`checkConstraint_congr`,
`checkCondition_congr`), provided that the evaluator of arithmetic expressions reads no more
than that (`LocalExpressions`), and that what stands on the left of a comparison is plain, so
that the ids of other facts do not matter.
-/

namespace RulesForge

/-! ### Reads -/

/-- A fact has the same id and the same fields in two heaps. -/
structure SameReads (heap heap' : Heap) (f : FactPtr) : Prop where
  id : (heap' f).id = (heap f).id
  getField : ∀ name, getField heap' f name = getField heap f name
  alphaField : ∀ name, alphaField heap' f name = alphaField heap f name

theorem SameReads.refl (heap : Heap) (f : FactPtr) : SameReads heap heap f :=
  ⟨rfl, fun _ ↦ rfl, fun _ ↦ rfl⟩

section Fields

variable {heap heap' : Heap}

theorem constraintValueEquals_index_congr (factId factId' : FactPtr → ℤ) (v : ConstraintValue)
    (i : ℤ) : constraintValueEquals factId v (.int64 i) =
      constraintValueEquals factId' v (.int64 i) := by
  cases v <;> rfl

theorem constraintValueEquals_key_congr (factId factId' : FactPtr → ℤ) (v : ConstraintValue)
    (k : String) : constraintValueEquals factId v (.string k) =
      constraintValueEquals factId' v (.string k) := by
  cases v <;> rfl

theorem applyIndex_valueMap_congr (entries : List (ConstraintValue × ConstraintValue))
    (idx : IndexAccess) (nullSafe : Bool) :
    applyIndex heap' (.valueMap entries) idx nullSafe =
      applyIndex heap (.valueMap entries) idx nullSafe := by
  unfold applyIndex
  cases idx.isInteger with
  | true =>
    simp only [if_true]
    simp only [constraintValueEquals_index_congr (fun p ↦ (heap' p).id) fun p ↦ (heap p).id]
  | false =>
    simp only [Bool.false_eq_true, if_false]
    simp only [constraintValueEquals_key_congr (fun p ↦ (heap' p).id) fun p ↦ (heap p).id]

variable (hfields : ∀ g, (heap' g).fields = (heap g).fields)
include hfields

theorem applyIndex_congr (value : ConstraintValue) (idx : IndexAccess) (nullSafe : Bool) :
    applyIndex heap' value idx nullSafe = applyIndex heap value idx nullSafe := by
  cases value with
  | valueMap entries => exact applyIndex_valueMap_congr entries idx nullSafe
  | factList facts =>
    unfold applyIndex
    simp only [hfields]
  | _ => rfl

theorem applyIndices_congr (nullSafe : Bool) (indices : List IndexAccess)
    (value : Option ConstraintValue) :
    applyIndices heap' nullSafe value indices = applyIndices heap nullSafe value indices := by
  induction indices generalizing value with
  | nil => cases value <;> rfl
  | cons idx indices ih =>
    cases value with
    | none => rfl
    | some v => simp only [applyIndices, applyIndex_congr hfields, ih]

theorem getFieldFrom_congr (segments : List PathSegment) (f : FactPtr)
    (current : Option ConstraintValue) :
    getFieldFrom heap' f current segments = getFieldFrom heap f current segments := by
  induction segments generalizing f current with
  | nil => rfl
  | cons seg segments ih =>
    have hindices : (fun v ↦ applyIndices heap' seg.nullSafe v seg.indices) =
        fun v ↦ applyIndices heap seg.nullSafe v seg.indices :=
      funext fun v ↦ applyIndices_congr hfields seg.nullSafe seg.indices v
    simp only [getFieldFrom, hfields, hindices, ih]

/-- Reads of a fact follow the fields of all facts, and its own id. -/
theorem sameReads_of_fields {f : FactPtr} (hid : (heap' f).id = (heap f).id) :
    SameReads heap heap' f where
  id := hid
  getField name := by simp only [getField, hid, hfields, getFieldFrom_congr hfields]
  alphaField name := by simp only [alphaField, hid, hfields, getFieldFrom_congr hfields]

end Fields

/-! ### The fields that tests read -/

namespace CompiledNetwork

variable (net : CompiledNetwork)

/-- The leaf constraints tested in a network. -/
inductive Tests : ParsedConstraint → Prop
  | alpha {n c} : net.kind n = .alpha c → Tests c
  | join {n condition c} : (net.kind n).joinCondition = some condition → c ∈ condition.joins →
      Tests c

/-- The fields that stand on either side of a comparison. -/
inductive TestField : String → Prop
  | left {c} : net.Tests c → TestField c.leftField
  | right {c binding field} : net.Tests c → c.rightBoundField = some (binding, field) →
      TestField field

theorem hashKey_mem {bindings : Bindings} {joins : List ParsedConstraint}
    {key : (String × ℕ) × String} (h : BetaNetworkBuilder.hashKey bindings joins = some key) :
    ∃ c ∈ joins, ∃ binding, c.op = .eq ∧ c.rightBoundField = some (binding, key.1.1) ∧
      bindings.lookup binding = some key.1.2 ∧ c.leftField = key.2 := by
  induction joins with
  | nil => simp [BetaNetworkBuilder.hashKey] at h
  | cons c joins ih =>
    unfold BetaNetworkBuilder.hashKey at h
    split at h
    · next binding field hop hright =>
      split at h
      · next idx hidx =>
        cases h
        exact ⟨c, List.mem_cons_self, binding, hop, hright, hidx, rfl⟩
      · obtain ⟨c', hc', hrest⟩ := ih h
        exact ⟨c', List.mem_cons_of_mem _ hc', hrest⟩
    · obtain ⟨c', hc', hrest⟩ := ih h
      exact ⟨c', List.mem_cons_of_mem _ hc', hrest⟩

/-- The hashed joins are indexed as the builder indexes them. -/
def KeysFromJoins : Prop :=
  ∀ {n c l r}, net.kind n = .hashedJoin c l r →
    BetaNetworkBuilder.hashKey c.bindings c.joins = some (l, r)

theorem KeyField.testField (hkeys : net.KeysFromJoins) {field : String}
    (h : net.KeyField field) : net.TestField field := by
  cases h with
  | hashedLeft hkind =>
    obtain ⟨c, hc, binding, -, hright, -, -⟩ := hashKey_mem (hkeys hkind)
    exact .right (.join (by rw [hkind]; rfl) hc) hright
  | hashedRight hkind =>
    obtain ⟨c, hc, binding, -, -, -, rfl⟩ := hashKey_mem (hkeys hkind)
    exact .left (.join (by rw [hkind]; rfl) hc)
  | conditionLeft hkind hkey =>
    obtain ⟨c, hc, binding, -, hright, -, -⟩ := hashKey_mem hkey
    exact .right (.join (by rw [hkind]; rfl) hc) hright
  | conditionRight hkind hkey =>
    obtain ⟨c, hc, binding, -, -, -, hleft⟩ := hashKey_mem hkey
    rw [← hleft]
    exact .left (.join (by rw [hkind]; rfl) hc)

end CompiledNetwork

/-- The values that tests read from a fact are plain. -/
def PlainReads (net : CompiledNetwork) (heap : Heap) (f : FactPtr) : Prop :=
  ∀ field, net.TestField field → ∀ v,
    getField heap f field = some v ∨ alphaField heap f field = some v → v.isPlain = true

/-- The evaluator reads the heap through the fields of the tested fact and of the facts of the
token. -/
structure LocalExpression (evaluate : Heap → FactPtr →
    Option (TokenWME × Bindings × ScalarFields) → Option ConstraintValue) : Prop where
  fact : ∀ {heap heap' f}, SameReads heap heap' f → evaluate heap' f none = evaluate heap f none
  token : ∀ {heap heap' f w w'} bindings fields, SameReads heap heap' f →
    TokenWME.facts w' = TokenWME.facts w → (∀ g ∈ w.facts, SameReads heap heap' g) →
      evaluate heap' f (some (w', bindings, fields)) = evaluate heap f (some (w, bindings, fields))

def LocalExpressions (kb : KnowledgeBase) : Prop :=
  ∀ c, kb.network.Tests c → ∀ expression, c.rightArithExpr = some expression →
    LocalExpression fun heap ↦ kb.runtime.evaluateRuntimeExpression heap expression

/-! ### Equal reads, equal tests -/

section Congr

variable {kb : KnowledgeBase} (hlocal : LocalExpressions kb) {heap heap' : Heap}
  {c : ParsedConstraint} {f : FactPtr}
include hlocal

theorem checkConstraint_congr (hc : kb.network.Tests c) (hreads : SameReads heap heap' f)
    (hplain : PlainReads kb.network heap f) :
    checkConstraint kb.runtime heap' c f = checkConstraint kb.runtime heap c f := by
  have hright : alphaRightValue kb.runtime heap' c f = alphaRightValue kb.runtime heap c f := by
    unfold alphaRightValue
    cases hexpr : c.rightArithExpr with
    | none => rfl
    | some expression => exact (hlocal c hc expression hexpr).fact hreads
  unfold checkConstraint
  rw [hreads.alphaField, hright]
  cases hleft : alphaField heap f c.leftField with
  | none => rfl
  | some v =>
    have hv := hplain c.leftField (.left hc) v (.inr hleft)
    cases alphaRightValue kb.runtime heap c f with
    | none => rfl
    | some rhs => simp only [evaluateCompare_congr (factIds heap') (factIds heap) c.op hv]

omit hlocal in
theorem boundFact_mem {bindings : Bindings} {token : TokenWME} {binding : String} {g : FactPtr}
    (h : boundFact bindings token f binding = some g) : g ∈ token.facts ∨ g = f := by
  unfold boundFact at h
  cases hlookup : bindings.lookup binding with
  | none => simp [hlookup] at h
  | some idx =>
    simp only [hlookup] at h
    cases hget : token.getFactAtDepth idx with
    | none =>
      simp only [hget] at h
      split at h
      · exact .inr (by simpa using h.symm)
      · simp at h
    | some p =>
      simp only [hget, Option.some.injEq] at h
      exact .inl (h ▸ TokenWME.mem_facts_of_getFactAtDepth hget)

omit hlocal in
theorem getFactAtDepth_of_facts {w w' : TokenWME} (hfacts : w'.facts = w.facts) (d : ℕ) :
    w'.getFactAtDepth d = w.getFactAtDepth d := by
  rw [TokenWME.getFactAtDepth, hfacts, TokenWME.getFactAtDepth]

omit hlocal in
theorem boundFact_of_facts {w w' : TokenWME} (hfacts : w'.facts = w.facts) (bindings : Bindings)
    (binding : String) : boundFact bindings w' f binding = boundFact bindings w f binding := by
  have hdepth : w'.depth = w.depth := by rw [← w'.facts_length, hfacts, w.facts_length]
  simp only [boundFact, getFactAtDepth_of_facts hfacts, hdepth]

variable {bindings : Bindings} {fields : ScalarFields} {w w' : TokenWME}

theorem checkJoin_congr (hc : kb.network.Tests c) (hfacts : w'.facts = w.facts)
    (hreads : SameReads heap heap' f) (hw : ∀ g ∈ w.facts, SameReads heap heap' g)
    (hplain : PlainReads kb.network heap f)
    (hwplain : ∀ g ∈ w.facts, PlainReads kb.network heap g) :
    checkJoin kb.runtime heap' bindings fields w' f c =
      checkJoin kb.runtime heap bindings fields w f c := by
  have hbound : ∀ {binding g}, boundFact bindings w f binding = some g →
      SameReads heap heap' g ∧ PlainReads kb.network heap g := by
    intro binding g hg
    rcases boundFact_mem hg with hg | rfl
    · exact ⟨hw g hg, hwplain g hg⟩
    · exact ⟨hreads, hplain⟩
  have hboundField : ∀ binding field,
      (boundFact bindings w' f binding).bind (getField heap' · field) =
        (boundFact bindings w f binding).bind (getField heap · field) := by
    intro binding field
    rw [boundFact_of_facts hfacts]
    cases hg : boundFact bindings w f binding with
    | none => rfl
    | some g => exact (hbound hg).1.getField field
  have hleft : joinLeftValue heap' bindings w' f c = joinLeftValue heap bindings w f c := by
    unfold joinLeftValue
    cases c.leftBinding with
    | none => exact hreads.getField _
    | some binding =>
      simp only [boundFact_of_facts hfacts]
      cases hg : boundFact bindings w f binding with
      | none => rfl
      | some g => simp only [(hbound hg).1.getField]
  have hleftPlain : ∀ v, joinLeftValue heap bindings w f c = some v → v.isPlain = true := by
    intro v hv
    unfold joinLeftValue at hv
    cases hb : c.leftBinding with
    | none =>
      simp only [hb] at hv
      exact hplain _ (.left hc) v (.inl hv)
    | some binding =>
      simp only [hb] at hv
      cases hg : boundFact bindings w f binding with
      | none => simp [hg] at hv
      | some g =>
        simp only [hg] at hv
        exact (hbound hg).2 _ (.left hc) v (.inl hv)
  unfold checkJoin
  cases htemporal : c.temporalConstraint with
  | some tc =>
    simp only
    unfold checkTemporal
    cases bindings.lookup tc.rhsBindingAndField.1 with
    | none => rfl
    | some idx =>
      simp only [getFactAtDepth_of_facts hfacts]
      cases hg : w.getFactAtDepth idx with
      | none => rfl
      | some g =>
        simp only [hreads.getField, (hw g (TokenWME.mem_facts_of_getFactAtDepth hg)).getField]
  | none =>
    simp only [hleft]
    cases hv : joinLeftValue heap bindings w f c with
    | none =>
      -- without a value at the left no comparison passes
      cases c.rightBoundField with
      | some bound => rfl
      | none =>
        cases c.rightArithExpr with
        | some expression => rfl
        | none =>
          cases c.rightLiteral with
          | some literal => rfl
          | none => simp only [boundFact_of_facts hfacts]
    | some v =>
      have hcompare := evaluateCompare_congr (factIds heap') (factIds heap) c.op (hleftPlain v hv)
      cases hright : c.rightBoundField with
      | some bound =>
        simp only [hboundField]
        cases (boundFact bindings w f bound.1).bind (getField heap · bound.2) with
        | none => rfl
        | some rhs => exact hcompare rhs
      | none =>
        cases hexpr : c.rightArithExpr with
        | some expression =>
          simp only [(hlocal c hc expression hexpr).token bindings fields hreads hfacts hw]
          cases kb.runtime.evaluateRuntimeExpression heap expression f
              (some (w, bindings, fields)) with
          | none => rfl
          | some rhs => exact hcompare rhs
        | none =>
          cases c.rightLiteral with
          | some literal => exact hcompare literal
          | none => simp only [boundFact_of_facts hfacts]

theorem checkCondition_congr {n : ℕ} {condition : JoinCondition}
    (hn : (kb.network.kind n).joinCondition = some condition) (hfacts : w'.facts = w.facts)
    {s s' : Session} (hreads : SameReads s.heap s'.heap f)
    (hw : ∀ g ∈ w.facts, SameReads s.heap s'.heap g) (hplain : PlainReads kb.network s.heap f)
    (hwplain : ∀ g ∈ w.facts, PlainReads kb.network s.heap g) :
    checkCondition kb condition s' w' f = checkCondition kb condition s w f := by
  unfold checkCondition checkAllJoinConditions
  rw [Bool.eq_iff_iff, List.all_eq_true, List.all_eq_true]
  refine forall₂_congr fun c hc ↦ ?_
  rw [checkJoin_congr hlocal (.join hn hc) hfacts hreads hw hplain hwplain]

/-- Facts with the same reads are tested as before. -/
theorem sameTests_of_reads {base base' : Session} {facts : Set FactPtr} {p : FactPtr}
    (hid : ∀ f ∈ facts, (base'.heap f).id = (base.heap f).id)
    (htype : ∀ f ∈ facts, (base'.heap f).type = (base.heap f).type)
    (hreads : ∀ f ∈ facts, f ≠ p → SameReads base.heap base'.heap f)
    (hplain : ∀ f ∈ facts, f ≠ p → PlainReads kb.network base.heap f) :
    SameTests kb base base' facts p where
  id := hid
  type := htype
  alpha hkind f hf hfp :=
    checkConstraint_congr hlocal (.alpha hkind) (hreads f hf hfp) (hplain f hf hfp)
  join hn _ f hw hf hfp :=
    checkCondition_congr hlocal hn rfl (hreads f hf hfp)
      (fun g hg ↦ hreads g (hw g hg).1 (hw g hg).2) (hplain f hf hfp)
      fun g hg ↦ hplain g (hw g hg).1 (hw g hg).2
  key _ f hf hfp := (hreads f hf hfp).getField _

end Congr

end RulesForge
