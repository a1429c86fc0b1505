import RulesForge.Rete.TestReads

/-!
# What join conditions read

Join conditions that compare fields look at the tested fact and at the token through a few
field lookups: the **readings** of the fact and of the token. Where these do not change, neither
does the outcome of the conditions (`checkCondition_congr_readings`).

On integers and texts an equality test holds for equal values only, so a token and a fact that
pass the conditions have equal keys (`exists_key_of_checkCondition`). This is what makes it
enough to look a token up under its key.
-/

namespace RulesForge

/-! ### Integers and texts -/

/-- Whether a value is a signed integer or a text. -/
def ConstraintValue.isIntOrText : ConstraintValue → Bool
  | .int64 _ | .string _ => true
  | _ => false

namespace ConstraintValue

variable {a b : ConstraintValue}

theorem isPlain_of_isIntOrText (h : a.isIntOrText = true) : a.isPlain = true := by
  cases a <;> first | rfl | cases h

theorem canonical_of_isIntOrText (h : a.isIntOrText = true) : a.canonical = a := by
  cases a <;> first | rfl | cases h

theorem evaluateCompare_eq_iff_of_isIntOrText (factId : FactPtr → ℤ) (ha : a.isIntOrText = true)
    (hb : b.isIntOrText = true) : evaluateCompare factId .eq a b = true ↔ a = b := by
  cases a <;> cases ha <;> cases b <;> cases hb <;>
    simp [evaluateCompare, comparisonNumeric, compareNumeric, evaluateOrderedCompare, scalarText,
      evaluateTextCompare, constraintValueEquals, compareValues, index]

end ConstraintValue

/-! ### Readings -/

namespace JoinCondition

variable (c : JoinCondition) (heap : Heap)

/-- Every condition compares a field of the fact with a field of a bound fact. -/
def ComparesFields : Prop :=
  ∀ join ∈ c.joins, join.temporalConstraint = none ∧ join.leftBinding = none ∧
    ∃ binding field idx, join.rightBoundField = some (binding, field) ∧
      c.bindings.lookup binding = some idx

/-- Every bound fact in a condition is at one of the first `d` positions. -/
def BoundBefore (d : ℕ) : Prop :=
  ∀ join ∈ c.joins, ∀ binding field idx, join.rightBoundField = some (binding, field) →
    c.bindings.lookup binding = some idx → idx < d

/-- What the conditions read of the fact on the right. -/
def factReading (f : FactPtr) : List (Option ConstraintValue) :=
  c.joins.map fun join ↦ getField heap f join.leftField

/-- What one condition reads through the token. -/
def boundReading (w : TokenWME) (join : ParsedConstraint) : Option ConstraintValue :=
  join.rightBoundField.bind fun bound ↦
    (c.bindings.lookup bound.1).bind fun idx ↦ tokenKey heap (bound.2, idx) w

/-- What the conditions read through the token. -/
def tokenReading (w : TokenWME) : List (Option ConstraintValue) :=
  c.joins.map (c.boundReading heap w)

end JoinCondition

/-- The values read are integers and texts; any of them may be missing. -/
def IntsOrTexts (reading : List (Option ConstraintValue)) : Prop :=
  ∀ v, some v ∈ reading → v.isIntOrText = true

instance (reading : List (Option ConstraintValue)) : Decidable (IntsOrTexts reading) :=
  decidable_of_iff (∀ v ∈ reading, ∀ a ∈ v, a.isIntOrText = true)
    ⟨fun h v hv ↦ h (some v) hv v rfl, fun h _ hv a ha ↦ h a (ha ▸ hv)⟩

section Readings

variable {kb : KnowledgeBase} {c : JoinCondition} {s s' : Session} {w : TokenWME} {f : FactPtr}
  {d : ℕ} {join : ParsedConstraint}

/-- A bound fact at a position that the token has is the fact there. -/
theorem boundFact_eq_getFactAtDepth {bindings : Bindings} {binding : String} {idx : ℕ}
    (hlookup : bindings.lookup binding = some idx) (hidx : idx < w.depth) :
    boundFact bindings w f binding = w.getFactAtDepth idx := by
  simp only [boundFact, hlookup]
  cases w.getFactAtDepth idx with
  | none => exact if_neg (Nat.not_le.mpr hidx)
  | some p => rfl

/-- The outcome of one condition from the two readings. -/
theorem checkJoin_eq_compare (hc : c.ComparesFields) (hjoin : join ∈ c.joins)
    (hbound : c.BoundBefore d) (hw : d ≤ w.depth) :
    checkJoin kb.runtime s.heap c.bindings c.scalarFields w f join =
      match getField s.heap f join.leftField, c.boundReading s.heap w join with
      | some lhs, some rhs => evaluateCompare (factIds s.heap) join.op lhs rhs
      | _, _ => false := by
  obtain ⟨htemporal, hleft, binding, field, idx, hright, hlookup⟩ := hc join hjoin
  have hidx : idx < w.depth := (hbound join hjoin binding field idx hright hlookup).trans_le hw
  have hreading : c.boundReading s.heap w join =
      (boundFact c.bindings w f binding).bind (getField s.heap · field) := by
    rw [boundFact_eq_getFactAtDepth hlookup hidx]
    simp [JoinCondition.boundReading, hright, hlookup, tokenKey]
  have hcheck := Eq.refl (checkJoin kb.runtime s.heap c.bindings c.scalarFields w f join)
  conv_rhs at hcheck => simp only [checkJoin, htemporal, hright, joinLeftValue, hleft]
  rw [hreading]
  exact hcheck

/-- The conditions see the heap through the readings. -/
theorem checkCondition_congr_readings (hc : c.ComparesFields) (hbound : c.BoundBefore d)
    (hw : d ≤ w.depth) (htoken : c.tokenReading s'.heap w = c.tokenReading s.heap w)
    (hfact : c.factReading s'.heap f = c.factReading s.heap f)
    (hvalues : IntsOrTexts (c.factReading s.heap f)) :
    checkCondition kb c s' w f = checkCondition kb c s w f := by
  unfold checkCondition checkAllJoinConditions
  rw [Bool.eq_iff_iff, List.all_eq_true, List.all_eq_true]
  refine forall₂_congr fun join hjoin ↦ ?_
  rw [checkJoin_eq_compare hc hjoin hbound hw, checkJoin_eq_compare hc hjoin hbound hw,
    List.map_inj_left.mp htoken join hjoin, List.map_inj_left.mp hfact join hjoin]
  cases hlhs : getField s.heap f join.leftField with
  | none => rfl
  | some lhs =>
    cases c.boundReading s.heap w join with
    | none => rfl
    | some rhs =>
      have hmem : some lhs ∈ c.factReading s.heap f := List.mem_map.mpr ⟨join, hjoin, hlhs⟩
      have hplain := ConstraintValue.isPlain_of_isIntOrText (hvalues lhs hmem)
      show evaluateCompare (factIds s'.heap) join.op lhs rhs = true ↔
        evaluateCompare (factIds s.heap) join.op lhs rhs = true
      rw [evaluateCompare_congr _ (factIds s.heap) join.op hplain]

/-! ### Keys -/

variable {l : String × ℕ} {r : String}

/-- The keys of a token and of a fact are among their readings. -/
theorem tokenKey_mem_tokenReading (hkey : BetaNetworkBuilder.hashKey c.bindings c.joins = some (l, r))
    (heap : Heap) (w : TokenWME) : tokenKey heap l w ∈ c.tokenReading heap w := by
  obtain ⟨join, hjoin, binding, -, hright, hlookup, -⟩ := CompiledNetwork.hashKey_mem hkey
  refine List.mem_map.mpr ⟨join, hjoin, ?_⟩
  simp [JoinCondition.boundReading, hright, hlookup]

theorem getField_mem_factReading (hkey : BetaNetworkBuilder.hashKey c.bindings c.joins = some (l, r))
    (heap : Heap) (f : FactPtr) : getField heap f r ∈ c.factReading heap f := by
  obtain ⟨join, hjoin, -, -, -, -, hleft⟩ := CompiledNetwork.hashKey_mem hkey
  exact List.mem_map.mpr ⟨join, hjoin, by rw [hleft]⟩

/-- A token and a fact that pass the conditions have the same key, provided that the key is
that of an earlier fact. -/
theorem exists_key_of_checkCondition (hc : c.ComparesFields)
    (hkey : BetaNetworkBuilder.hashKey c.bindings c.joins = some (l, r)) (hl : l.2 < w.depth)
    (htoken : IntsOrTexts (c.tokenReading s.heap w)) (hfact : IntsOrTexts (c.factReading s.heap f))
    (hcheck : checkCondition kb c s w f = true) :
    ∃ v, tokenKey s.heap l w = some v ∧ getField s.heap f r = some v := by
  obtain ⟨join, hjoin, binding, hop, hright, hlookup, hleft⟩ := CompiledNetwork.hashKey_mem hkey
  obtain ⟨htemporal, hleftBinding, -⟩ := hc join hjoin
  have hjoined := List.all_eq_true.mp hcheck join hjoin
  have hbound : (boundFact c.bindings w f binding).bind (getField s.heap · l.1) =
      tokenKey s.heap l w := by
    rw [boundFact_eq_getFactAtDepth hlookup hl, tokenKey]
  simp only [checkJoin, htemporal, hright, joinLeftValue, hleftBinding, hbound, hleft] at hjoined
  cases hlhs : getField s.heap f r with
  | none => simp [hlhs] at hjoined
  | some lhs =>
    cases hrhs : tokenKey s.heap l w with
    | none => simp [hlhs, hrhs] at hjoined
    | some rhs =>
      simp only [hlhs, hrhs, hop] at hjoined
      have hlhs' := hfact lhs (hlhs ▸ getField_mem_factReading hkey s.heap f)
      have hrhs' := htoken rhs (hrhs ▸ tokenKey_mem_tokenReading hkey s.heap w)
      exact ⟨rhs, rfl, congrArg some
        ((ConstraintValue.evaluateCompare_eq_iff_of_isIntOrText _ hlhs' hrhs').mp hjoined)⟩

end Readings

end RulesForge
