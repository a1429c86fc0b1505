import RulesForge.Core.ValueOrder
import RulesForge.Rete.Memory

/-!
# Hashes of values

`ConstraintValueHasher` (`src/core/rfl_rete_defs.cpp`), for the indexes of joins. Values that
`ConstraintValueEquals` does not tell apart have the same hash: what the hash reads of a fact is
what the comparison reads, and scalars that compare equal are the same up to the item names of
enumerators, which no hash reads.
-/

namespace RulesForge

/-- The hashes of the standard library and of byte arrays: a double is hashed up to the sign of
zero. -/
structure StandardHashes where
  string : String → ℕ
  int64 : ℤ → ℕ
  double : Double → ℕ
  bool : Bool → ℕ
  uint64 : ℕ → ℕ
  bytes : List UInt8 → ℕ
  pointer : FactPtr → ℕ

namespace StandardHashes

variable (std : StandardHashes) (factId : FactPtr → ℤ)

/-- The hash of a fact in a list. -/
def fact (p : FactPtr) : ℕ :=
  if p = 0 then 0 else if factId p ≠ 0 then std.int64 (factId p) else std.pointer p

def enumNumeric : EnumNumericValue → ℕ
  | .signed i => std.int64 i
  | .unsigned n => std.uint64 n

/-- The hash of a value that is no collection. -/
def scalar : ConstraintValue → ℕ
  | .string s => std.string s
  | .int64 i => std.int64 i
  | .double d => std.double d
  | .factList facts => facts.foldl (fun h p ↦ hashCombine h (std.fact factId p)) 0
  | .uuid bytes => std.bytes bytes
  | .bool b => std.bool b
  | .uint64 n => std.uint64 n
  | .bytes bytes => std.bytes bytes
  | .enum e => hashCombine (std.string e.typeName) (std.enumNumeric e.value)
  | .duration milliseconds => std.int64 milliseconds
  | .dateTime t => std.string ((scalarText (.dateTime t)).getD "")
  | .date d => std.string ((scalarText (.date d)).getD "")
  | .time t => std.string ((scalarText (.time t)).getD "")
  | .decimal d => std.string ((scalarText (.decimal d)).getD "")
  | .bigInt digits => std.string ((scalarText (.bigInt digits)).getD "")
  | .money m => std.string ((scalarText (.money m)).getD "")
  | .nil | .typedList _ | .valueSet _ | .valueMap _ => 0

mutual

/-- `ConstraintValueHasher`. -/
def hashValue : SharedValue → ℕ
  | .scalar v _ => std.scalar factId v
  | .null _ => 0
  | .typedList values => (hashValues values).foldl hashCombine 0
  | .valueSet values => (hashValues values).foldl (fun h v ↦ h ^^^ v) 0
  | .valueMap entries => (hashEntries entries).foldl (fun h e ↦ h ^^^ (e.1 ^^^ e.2)) 0

def hashValues : List SharedValue → List ℕ
  | [] => []
  | v :: vs => hashValue v :: hashValues vs

def hashEntries : List (SharedValue × SharedValue) → List (ℕ × ℕ)
  | [] => []
  | (k, v) :: entries => (hashValue k, hashValue v) :: hashEntries entries

end

/-! ### Equal values have equal hashes -/

section Equal

variable {std factId} {a b : SharedValue} {v w : ConstraintValue}

theorem fact_eq {p q : FactPtr} (h : compareFactKeys factId p q = .eq) :
    std.fact factId p = std.fact factId q := by
  rw [compareFactKeys, Ordering.then_eq_eq, compare_eq_iff_eq, compare_eq_iff_eq] at h
  obtain ⟨hid, haddress⟩ := h
  unfold factKey at hid haddress
  unfold fact
  by_cases hp : p = 0
  · by_cases hq : q = 0
    · rw [if_pos hp, if_pos hq]
    · rw [if_pos hp, if_neg hq] at hid haddress
      by_cases hq' : factId q ≠ 0
      · rw [if_pos hq'] at hid
        exact absurd hid.symm hq'
      · rw [if_neg hq'] at haddress
        exact absurd haddress.symm hq
  · by_cases hq : q = 0
    · rw [if_neg hp, if_pos hq] at hid haddress
      by_cases hp' : factId p ≠ 0
      · rw [if_pos hp'] at hid
        exact absurd hid hp'
      · rw [if_neg hp'] at haddress
        exact absurd haddress hp
    · rw [if_neg hp, if_neg hq] at hid haddress ⊢
      by_cases hp' : factId p ≠ 0
      · by_cases hq' : factId q ≠ 0
        · rw [if_pos hp', if_pos hq'] at hid ⊢
          rw [show factId p = factId q from hid]
        · rw [if_pos hp', if_neg hq'] at hid
          exact absurd hid hp'
      · by_cases hq' : factId q ≠ 0
        · rw [if_neg hp', if_pos hq'] at hid
          exact absurd hid.symm hq'
        · rw [if_neg hp', if_neg hq'] at haddress ⊢
          rw [show p = q from haddress]

theorem foldl_fact_eq {facts facts' : List FactPtr} {h : ℕ}
    (heq : List.compareLex (compareFactKeys factId) facts facts' = .eq) :
    facts.foldl (fun h p ↦ hashCombine h (std.fact factId p)) h =
      facts'.foldl (fun h p ↦ hashCombine h (std.fact factId p)) h := by
  induction facts generalizing facts' h with
  | nil =>
    cases facts' with
    | nil => rfl
    | cons q facts' => cases heq
  | cons p facts ih =>
    cases facts' with
    | nil => cases heq
    | cons q facts' =>
      rw [List.compareLex_cons_cons, Ordering.then_eq_eq] at heq
      rw [List.foldl_cons, List.foldl_cons, fact_eq heq.1]
      exact ih heq.2

/-- No hash reads the item name of an enumerator. -/
theorem scalar_canonical (v : ConstraintValue) :
    std.scalar factId v.canonical = std.scalar factId v := by
  cases v <;> rfl

theorem scalar_eq (hscalar : v.isCollection = false) (hv : v ≠ .double .nan)
    (hw : w ≠ .double .nan) (heq : compareValues factId v w = .eq) :
    std.scalar factId v = std.scalar factId w := by
  have hindex := compareValues_eq_index factId heq
  have hplain : ∀ {u : ConstraintValue}, u.index ≠ 3 → u.index ≠ 5 → u.index ≠ 6 →
      u.index ≠ 7 → u ≠ .double .nan → u.isPlain = true := by
    intro u h3 h5 h6 h7 hnan
    cases u with
    | factList => exact absurd rfl h3
    | typedList => exact absurd rfl h5
    | valueSet => exact absurd rfl h6
    | valueMap => exact absurd rfl h7
    | double d => exact decide_eq_true fun hd ↦ hnan (by rw [hd])
    | _ => rfl
  obtain ⟨h5, h6, h7⟩ := index_of_scalar hscalar
  by_cases h3 : v.index = 3
  · -- two lists of facts
    cases v with
    | factList facts =>
      cases w with
      | factList facts' => exact foldl_fact_eq heq
      | _ => cases hindex
    | _ => cases h3
  · have hpv := hplain h3 h5 h6 h7 hv
    rw [hindex] at h3 h5 h6 h7
    have hcanonical := (compareValues_eq_iff_of_scalar factId hscalar hpv
      (hplain h3 h5 h6 h7 hw)).mp heq
    rw [← scalar_canonical v, hcanonical, scalar_canonical]

open SharedValue

/-- Values of which the contents compare equal have equal hashes. -/
theorem hashValue_of_contents (h : a.index = b.index → compareContents factId a b = .eq →
    std.hashValue factId a = std.hashValue factId b) (heq : compareShared factId a b = .eq) :
    std.hashValue factId a = std.hashValue factId b := by
  rw [compareShared, Ordering.then_eq_eq, compare_eq_iff_eq] at heq
  exact h heq.1 heq.2

mutual

theorem hashValue_eq : ∀ (a b : SharedValue), a.isNaNFree = true → b.isNaNFree = true →
    compareShared factId a b = .eq → std.hashValue factId a = std.hashValue factId b
  | .scalar v hv, b, ha, hb => hashValue_of_contents fun hindex heq ↦ by
    cases b with
    | scalar w hw => exact scalar_eq hv (ne_nan ha) (ne_nan hb) heq
    | _ => exact absurd hindex (scalar_index_ne hv fun _ _ ↦ by nofun)
  | .null kind, b, _, _ => hashValue_of_contents fun hindex heq ↦ by
    cases b with
    | scalar w hw => exact absurd hindex.symm (scalar_index_ne hw fun _ _ ↦ by nofun)
    | null => rfl
    | _ => cases heq
  | .typedList as, b, ha, hb => hashValue_of_contents fun hindex heq ↦ by
    cases b with
    | scalar w hw => exact absurd hindex.symm (scalar_index_ne hw fun _ _ ↦ by nofun)
    | valueSet => cases hindex
    | valueMap => cases hindex
    | null => cases heq
    | typedList bs =>
      rw [hashValue, hashValue, hashValues_eq as bs ha hb heq]
  | .valueSet as, b, ha, hb => hashValue_of_contents fun hindex heq ↦ by
    cases b with
    | scalar w hw => exact absurd hindex.symm (scalar_index_ne hw fun _ _ ↦ by nofun)
    | typedList => cases hindex
    | valueMap => cases hindex
    | null => cases heq
    | valueSet bs =>
      rw [hashValue, hashValue, hashValues_eq as bs ha hb heq]
  | .valueMap as, b, ha, hb => hashValue_of_contents fun hindex heq ↦ by
    cases b with
    | scalar w hw => exact absurd hindex.symm (scalar_index_ne hw fun _ _ ↦ by nofun)
    | typedList => cases hindex
    | valueSet => cases hindex
    | null => cases heq
    | valueMap bs =>
      rw [hashValue, hashValue, hashEntries_eq as bs ha hb heq]

theorem hashValues_eq : ∀ (as bs : List SharedValue), areNaNFree as = true →
    areNaNFree bs = true → compareShareds factId as bs = .eq →
      std.hashValues factId as = std.hashValues factId bs
  | [], [], _, _, _ => rfl
  | [], _ :: _, _, _, h => by cases h
  | _ :: _, [], _, _, h => by cases h
  | a :: as, b :: bs, ha, hb, h => by
    rw [areNaNFree, Bool.and_eq_true] at ha hb
    obtain ⟨hfirst, hrest⟩ := Ordering.then_eq_eq.mp h
    rw [hashValues, hashValues, hashValue_eq a b ha.1 hb.1 hfirst,
      hashValues_eq as bs ha.2 hb.2 hrest]

theorem hashEntries_eq : ∀ (as bs : List (SharedValue × SharedValue)),
    entriesNaNFree as = true → entriesNaNFree bs = true →
      compareSharedEntries factId as bs = .eq →
      std.hashEntries factId as = std.hashEntries factId bs
  | [], [], _, _, _ => rfl
  | [], _ :: _, _, _, h => by cases h
  | _ :: _, [], _, _, h => by cases h
  | (k, v) :: as, (k', v') :: bs, ha, hb, h => by
    rw [entriesNaNFree, Bool.and_eq_true, Bool.and_eq_true] at ha hb
    obtain ⟨hfirst, hrest⟩ := Ordering.then_eq_eq.mp h
    obtain ⟨hkey, hvalue⟩ := Ordering.then_eq_eq.mp hfirst
    rw [hashEntries, hashEntries, hashValue_eq k k' ha.1.1 hb.1.1 hkey,
      hashValue_eq v v' ha.1.2 hb.1.2 hvalue, hashEntries_eq as bs ha.2 hb.2 hrest]

end

end Equal

end StandardHashes

/-! ### The laws of keys -/

/-- A value without a not-a-number. -/
abbrev KeyValue := { v : SharedValue // v.isNaNFree = true }

/-- **The laws of keys**: `ConstraintValueCompare` is a strict weak order, `ConstraintValueEquals`
is what it does not tell apart, an equivalence, and equal keys have equal hashes. -/
theorem keyValue_laws (std : StandardHashes) (factId : FactPtr → ℤ) :
    IsStrictWeak (fun a b : KeyValue ↦ constraintValueCompare factId a.1 b.1) ∧
    (∀ a b : KeyValue, sharedValueEquals factId a.1 b.1 = true ↔
      Incomparable (fun a b : KeyValue ↦ constraintValueCompare factId a.1 b.1) a b) ∧
    Equivalence (fun a b : KeyValue ↦ sharedValueEquals factId a.1 b.1 = true) ∧
    ∀ a b : KeyValue, sharedValueEquals factId a.1 b.1 = true →
      std.hashValue factId a.1 = std.hashValue factId b.1 := by
  have hweak := isStrictWeak_constraintValueCompare factId
  have hequals : ∀ a b : KeyValue, sharedValueEquals factId a.1 b.1 = true ↔
      Incomparable (fun a b : KeyValue ↦ constraintValueCompare factId a.1 b.1) a b := by
    intro a b
    rw [sharedValueEquals, Bool.and_eq_true, Bool.not_eq_true', Bool.not_eq_true', Incomparable]
  refine ⟨hweak, hequals, ?_, fun a b heq ↦ ?_⟩
  · simp only [hequals]
    exact ⟨fun a ↦ ⟨hweak.irrefl a, hweak.irrefl a⟩, fun h ↦ ⟨h.2, h.1⟩,
      fun hab hbc ↦ hweak.incomparable_trans _ _ _ hab hbc⟩
  · exact std.hashValue_eq a.1 b.1 a.2 b.2 ((sharedValueEquals_iff a.2 b.2).mp heq)

end RulesForge
