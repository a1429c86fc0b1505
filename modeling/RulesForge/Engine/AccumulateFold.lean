import Mathlib.Algebra.BigOperators.Group.List.Basic
import Mathlib.Data.List.Perm.Subperm
import RulesForge.Engine.Accumulate

/-!
# The fold of an accumulate function

What the item of an accumulate node holds is compared with a fold over the facts that it stands for:
`AccumulateFunction.FoldsTo` is the result of a function over the matching facts and the numbers they
hold, and `ItemExact` says that an item is up to date with them. A fact that comes adds what it
holds now (`ItemExact.forward`) and a fact that goes takes away **what it holds now**
(`ItemExact.backward`), which is what it had added only if that has not changed.
-/

/-! ### Doubles that are integers -/

namespace Double

theorem lt_ofInt {i j : ℤ} (hi : i.natAbs ≤ 2 ^ 53) (hj : j.natAbs ≤ 2 ^ 53) :
    (ofInt i).lt (ofInt j) = decide (i < j) := by
  rw [ofInt_lt_ofInt, roundToInt_of_natAbs_le hi, roundToInt_of_natAbs_le hj]

end Double

namespace RulesForge

/-- The sums of numbers, some or all of them, are exact as doubles. -/
def SumsBounded (numbers : List ℤ) : Prop :=
  ∀ l : List ℤ, l.Subperm numbers → l.sum.natAbs ≤ 2 ^ 53

namespace SumsBounded

variable {numbers numbers' : List ℤ}

theorem sum (h : SumsBounded numbers) : numbers.sum.natAbs ≤ 2 ^ 53 := h numbers (.refl _)

theorem mem (h : SumsBounded numbers) {i : ℤ} (hi : i ∈ numbers) : i.natAbs ≤ 2 ^ 53 := by
  simpa using h [i] (List.singleton_subperm_iff.mpr hi)

end SumsBounded

/-- The result of a function over the facts that match and the numbers that they hold. A collection
is given up to its order, which the hash maps of the node leave open. -/
def AccumulateFunction.FoldsTo (function : AccumulateFunction) (facts : List FactPtr)
    (numbers : List ℤ) (result : ConstraintValue) : Prop :=
  match function with
  | count => result = .int64 facts.length
  | sum => result = .int64 numbers.sum
  | min => result = .int64 (numbers.min?.getD 0)
  | max => result = .int64 (numbers.max?.getD 0)
  | collect | collectList | collectSet => ∃ l, result = .factList l ∧ l.Perm facts

/-! ### Extremes -/

/-- The extreme of two integers. -/
def ParsedAccumulate.pickInt (info : ParsedAccumulate) (x y : ℤ) : ℤ :=
  if info.function = .min then min x y else max x y

section Extremes

variable {info : ParsedAccumulate}

theorem pickExtreme_ofInt {i j : ℤ} (hi : i.natAbs ≤ 2 ^ 53) (hj : j.natAbs ≤ 2 ^ 53) :
    info.pickExtreme (.ofInt i) (.ofInt j) = .ofInt (info.pickInt i j) := by
  unfold ParsedAccumulate.pickExtreme ParsedAccumulate.pickInt
  rw [Double.lt_ofInt hi hj, Double.lt_ofInt hj hi]
  simp only [decide_eq_true_eq]
  split
  · rw [← apply_ite Double.ofInt]
    congr 1
    split <;> omega
  · rw [← apply_ite Double.ofInt]
    congr 1
    split <;> omega

theorem pickInt_cases (info : ParsedAccumulate) (i j : ℤ) : info.pickInt i j = i ∨ info.pickInt i j = j := by
  unfold ParsedAccumulate.pickInt
  split <;> omega

theorem foldl_pickExtreme {numbers : List ℤ} {i : ℤ} (hi : i.natAbs ≤ 2 ^ 53)
    (h : ∀ j ∈ numbers, j.natAbs ≤ 2 ^ 53) :
    (numbers.map Double.ofInt).foldl info.pickExtreme (.ofInt i) =
      .ofInt (numbers.foldl info.pickInt i) := by
  induction numbers generalizing i with
  | nil => rfl
  | cons j numbers ih =>
    have hj := h j List.mem_cons_self
    rw [List.map_cons, List.foldl_cons, List.foldl_cons, pickExtreme_ofInt hi hj]
    refine ih ?_ fun k hk ↦ h k (List.mem_cons_of_mem j hk)
    rcases pickInt_cases info i j with heq | heq <;> rwa [heq]

/-- The extreme of integers, zero where there are none. -/
def ParsedAccumulate.extremeInt (info : ParsedAccumulate) : List ℤ → ℤ
  | [] => 0
  | i :: numbers => numbers.foldl info.pickInt i

theorem extremeOf_ofInt {numbers : List ℤ} (h : ∀ j ∈ numbers, j.natAbs ≤ 2 ^ 53) :
    info.extremeOf (numbers.map Double.ofInt) = .ofInt (info.extremeInt numbers) := by
  cases numbers with
  | nil => rfl
  | cons i numbers =>
    exact foldl_pickExtreme (h i List.mem_cons_self) fun j hj ↦ h j (List.mem_cons_of_mem i hj)

theorem extremeInt_min (h : info.function = .min) (numbers : List ℤ) :
    info.extremeInt numbers = numbers.min?.getD 0 := by
  have hpick : info.pickInt = min := by
    funext i j
    rw [ParsedAccumulate.pickInt, if_pos h]
  cases numbers with
  | nil => rfl
  | cons i numbers =>
    rw [ParsedAccumulate.extremeInt, hpick]
    rfl

theorem extremeInt_max (h : info.function = .max) (numbers : List ℤ) :
    info.extremeInt numbers = numbers.max?.getD 0 := by
  have hpick : info.pickInt = max := by
    funext i j
    rw [ParsedAccumulate.pickInt, if_neg (by rw [h]; decide)]
  cases numbers with
  | nil => rfl
  | cons i numbers =>
    rw [ParsedAccumulate.extremeInt, hpick]
    rfl

theorem foldl_pickInt_mem (i : ℤ) (numbers : List ℤ) :
    numbers.foldl info.pickInt i ∈ i :: numbers := by
  induction numbers generalizing i with
  | nil => exact List.mem_cons_self
  | cons j numbers ih =>
    rw [List.foldl_cons]
    rcases List.mem_cons.mp (ih (info.pickInt i j)) with heq | hmem
    · rw [heq]
      rcases pickInt_cases info i j with h | h <;> rw [h] <;> simp
    · exact List.mem_cons_of_mem _ (List.mem_cons_of_mem _ hmem)

theorem extremeInt_natAbs_le (info : ParsedAccumulate) {numbers : List ℤ} {b : ℕ} (h : ∀ i ∈ numbers, i.natAbs ≤ b) :
    (info.extremeInt numbers).natAbs ≤ b := by
  cases numbers with
  | nil => exact Nat.zero_le b
  | cons i numbers => exact h _ (foldl_pickInt_mem i numbers)

theorem extremeInt_perm {numbers numbers' : List ℤ}
    (hfunction : info.function = .min ∨ info.function = .max) (h : numbers.Perm numbers') :
    info.extremeInt numbers = info.extremeInt numbers' := by
  rcases hfunction with hmin | hmax
  · have hsame : numbers.min? = numbers'.min? := by
      ext i
      rw [List.min?_eq_some_iff, List.min?_eq_some_iff, h.mem_iff]
      simp only [h.mem_iff]
    rw [extremeInt_min hmin, extremeInt_min hmin, hsame]
  · have hsame : numbers.max? = numbers'.max? := by
      ext i
      rw [List.max?_eq_some_iff, List.max?_eq_some_iff, h.mem_iff]
      simp only [h.mem_iff]
    rw [extremeInt_max hmax, extremeInt_max hmax, hsame]

end Extremes

/-! ### Items -/

/-- The functions by the kernel they have. -/
theorem AccumulateFunction.kernel_cases (function : AccumulateFunction) :
    function = .count ∨ function = .sum ∨ (function = .min ∨ function = .max) ∨
      (function = .collect ∨ function = .collectList) ∨ function = .collectSet := by
  cases function <;> simp

namespace ParsedAccumulate

variable {info : ParsedAccumulate} {env : RuntimeEnv} {heap : Heap} {bindings : Bindings}
  {item : LeftMemoryItem} {f : FactPtr}

/-- What the kernel of a count does. -/
theorem applyCount (hfunction : info.function = .count) (forward : Bool) :
    info.applyAccumulate env heap bindings forward f item =
      ({ item with aggregateCount := item.aggregateCount + if forward then 1 else -1 }, true) := by
  simp [applyAccumulate, usesCollectAccumulate, applyNumericAccumulate, hfunction]

/-- What the kernel of a sum does with a number. -/
theorem applySum (hfunction : info.function = .sum) (forward : Bool) {i : ℤ}
    (hvalue : info.getAccumulateValue env heap bindings item.wme f = some (.int64 i)) :
    info.applyAccumulate env heap bindings forward f item =
      ({ item with numericSum :=
          item.numericSum.add (if forward then .ofInt i else (Double.ofInt i).neg) }, true) := by
  simp [applyAccumulate, usesCollectAccumulate, applyNumericAccumulate, numericValue, hfunction,
    hvalue]

/-- What the kernel of a minimum or a maximum does with a number. -/
theorem applyExtreme (hfunction : info.function = .min ∨ info.function = .max) (forward : Bool)
    {i : ℤ} (hvalue : info.getAccumulateValue env heap bindings item.wme f = some (.int64 i)) :
    let values := if forward then item.numericValues ++ [.ofInt i]
      else item.numericValues.erase (.ofInt i)
    info.applyAccumulate env heap bindings forward f item =
      ({ item with numericValues := values, numericExtreme := info.extremeOf values }, true) := by
  rcases hfunction with hfunction | hfunction <;>
    simp [applyAccumulate, usesCollectAccumulate, applyNumericAccumulate, numericValue, hfunction,
      hvalue]

/-- What the kernel of a list does. -/
theorem applyList (hfunction : info.function = .collect ∨ info.function = .collectList)
    (forward : Bool) :
    info.applyAccumulate env heap bindings forward f item =
      if forward then
        ({ item with contributingFactsList := item.contributingFactsList ++ [f] }, true)
      else
        ({ item with contributingFactsList := item.contributingFactsList.erase f },
          decide (f ∈ item.contributingFactsList)) := by
  rcases hfunction with hfunction | hfunction <;>
    simp [applyAccumulate, usesCollectAccumulate, applyCollectAccumulate, hfunction]

/-- What the kernel of a set does. -/
theorem applySet (hfunction : info.function = .collectSet) (forward : Bool) :
    info.applyAccumulate env heap bindings forward f item =
      if forward then
        ({ item with contributingFactsSet := item.contributingFactsSet.insert f },
          decide (f ∉ item.contributingFactsSet))
      else
        ({ item with contributingFactsSet := item.contributingFactsSet.erase f },
          decide (f ∈ item.contributingFactsSet)) := by
  simp [applyAccumulate, usesCollectAccumulate, applyCollectAccumulate, hfunction]

/-- What a function takes from a fact is a number. Counting and collecting take nothing. -/
def Takes (info : ParsedAccumulate) (value : Option ConstraintValue) (i : ℤ) : Prop :=
  info.function.isNumeric = true → value = some (.int64 i)

theorem Takes.sum {value : Option ConstraintValue} {i : ℤ} (h : info.Takes value i)
    (hfunction : info.function = .sum) : value = some (.int64 i) :=
  h (by rw [hfunction]; rfl)

theorem Takes.extreme {value : Option ConstraintValue} {i : ℤ} (h : info.Takes value i)
    (hfunction : info.function = .min ∨ info.function = .max) : value = some (.int64 i) := by
  refine h ?_
  rcases hfunction with hfunction | hfunction <;> rw [hfunction] <;> rfl

end ParsedAccumulate

/-- **An item is up to date** with facts and the numbers they hold. -/
def ItemExact (info : ParsedAccumulate) (number : FactPtr → ℤ) (facts : List FactPtr)
    (item : LeftMemoryItem) : Prop :=
  match info.function with
  | .count => item.aggregateCount = facts.length
  | .sum => item.numericSum = .ofInt (facts.map number).sum ∧ item.sumIsDouble = false
  | .min | .max =>
    item.numericValues.Perm (facts.map fun f ↦ .ofInt (number f)) ∧
      item.numericExtreme = info.extremeOf item.numericValues ∧ item.sumIsDouble = false
  | .collect | .collectList => item.contributingFactsList.Perm facts
  | .collectSet => item.contributingFactsSet.Perm facts

namespace ItemExact

variable {info : ParsedAccumulate} {number number' : FactPtr → ℤ} {facts facts' : List FactPtr}
  {item : LeftMemoryItem}

theorem count_iff (hfunction : info.function = .count) :
    ItemExact info number facts item ↔ item.aggregateCount = facts.length := by
  simp only [ItemExact, hfunction]

theorem sum_iff (hfunction : info.function = .sum) :
    ItemExact info number facts item ↔
      item.numericSum = .ofInt (facts.map number).sum ∧ item.sumIsDouble = false := by
  simp only [ItemExact, hfunction]

theorem extreme_iff (hfunction : info.function = .min ∨ info.function = .max) :
    ItemExact info number facts item ↔
      item.numericValues.Perm (facts.map fun f ↦ .ofInt (number f)) ∧
        item.numericExtreme = info.extremeOf item.numericValues ∧ item.sumIsDouble = false := by
  rcases hfunction with hfunction | hfunction <;> simp only [ItemExact, hfunction]

theorem list_iff (hfunction : info.function = .collect ∨ info.function = .collectList) :
    ItemExact info number facts item ↔ item.contributingFactsList.Perm facts := by
  rcases hfunction with hfunction | hfunction <;> simp only [ItemExact, hfunction]

theorem set_iff (hfunction : info.function = .collectSet) :
    ItemExact info number facts item ↔ item.contributingFactsSet.Perm facts := by
  simp only [ItemExact, hfunction]

theorem perm (h : ItemExact info number facts item) (hperm : facts.Perm facts') :
    ItemExact info number facts' item := by
  rcases info.function.kernel_cases with hf | hf | hf | hf | hf
  · rw [count_iff hf] at h ⊢
    rw [h, hperm.length_eq]
  · rw [sum_iff hf] at h ⊢
    exact ⟨by rw [h.1, (hperm.map number).sum_eq], h.2⟩
  · rw [extreme_iff hf] at h ⊢
    exact ⟨h.1.trans (hperm.map _), h.2⟩
  · rw [list_iff hf] at h ⊢
    exact h.trans hperm
  · rw [set_iff hf] at h ⊢
    exact h.trans hperm

/-- Only the numbers that a function takes matter. -/
theorem congr (h : ItemExact info number facts item)
    (hnumber : info.function.isNumeric = true → ∀ f ∈ facts, number' f = number f) :
    ItemExact info number' facts item := by
  rcases info.function.kernel_cases with hf | hf | hf | hf | hf
  · rwa [count_iff hf] at h ⊢
  · have hsame := hnumber (by rw [hf]; rfl)
    rw [sum_iff hf] at h ⊢
    rwa [List.map_congr_left hsame]
  · have hsame := hnumber (by rcases hf with hf | hf <;> rw [hf] <;> rfl)
    rw [extreme_iff hf] at h ⊢
    rwa [List.map_congr_left fun f hf ↦ congrArg Double.ofInt (hsame f hf)]
  · rwa [list_iff hf] at h ⊢
  · rwa [set_iff hf] at h ⊢

/-- An item without facts. -/
theorem empty {w : TokenWME} {resultFact : FactPtr} :
    ItemExact info number [] { wme := w, resultFact := resultFact } := by
  rcases info.function.kernel_cases with hf | hf | hf | hf | hf
  · exact (count_iff hf).mpr rfl
  · exact (sum_iff hf).mpr ⟨rfl, rfl⟩
  · exact (extreme_iff hf).mpr ⟨.nil, rfl, rfl⟩
  · exact (list_iff hf).mpr .nil
  · exact (set_iff hf).mpr .nil

variable {env : RuntimeEnv} {heap : Heap} {bindings : Bindings} {f : FactPtr}

/-- **A fact comes.** -/
theorem forward (h : ItemExact info number facts item) (hnew : f ∉ facts)
    (htakes : info.Takes (info.getAccumulateValue env heap bindings item.wme f) (number f))
    (hbound : info.function.isNumeric = true → SumsBounded ((f :: facts).map number)) :
    let r := info.applyAccumulate env heap bindings true f item
    ItemExact info number (f :: facts) r.1 ∧ r.2 = true := by
  dsimp only
  rcases info.function.kernel_cases with hf | hf | hf | hf | hf
  · rw [count_iff hf] at h ⊢
    rw [ParsedAccumulate.applyCount hf]
    refine ⟨?_, rfl⟩
    show item.aggregateCount + 1 = ((f :: facts).length : ℤ)
    rw [h, List.length_cons, Nat.cast_succ]
  · rw [sum_iff hf] at h ⊢
    rw [ParsedAccumulate.applySum hf true (htakes.sum hf)]
    replace hbound := hbound (by rw [hf]; rfl)
    have hsum : (facts.map number).sum.natAbs ≤ 2 ^ 53 :=
      hbound _ (List.sublist_cons_self _ _).subperm
    have htotal : ((facts.map number).sum + number f).natAbs ≤ 2 ^ 53 := by
      simpa [add_comm] using hbound.sum
    refine ⟨⟨?_, h.2⟩, rfl⟩
    show item.numericSum.add (.ofInt (number f)) = .ofInt ((f :: facts).map number).sum
    rw [h.1, Double.add_ofInt hsum (hbound.mem List.mem_cons_self) htotal, List.map_cons,
      List.sum_cons, add_comm]
  · rw [extreme_iff hf] at h ⊢
    rw [ParsedAccumulate.applyExtreme hf true (htakes.extreme hf)]
    refine ⟨⟨?_, rfl, h.2.2⟩, rfl⟩
    show (item.numericValues ++ [Double.ofInt (number f)]).Perm _
    exact (List.perm_append_singleton _ _).trans (h.1.cons _)
  · rw [list_iff hf] at h ⊢
    rw [ParsedAccumulate.applyList hf]
    refine ⟨?_, rfl⟩
    show (item.contributingFactsList ++ [f]).Perm (f :: facts)
    exact (List.perm_append_singleton _ _).trans (h.cons _)
  · rw [set_iff hf] at h ⊢
    rw [ParsedAccumulate.applySet hf]
    have hnot : f ∉ item.contributingFactsSet := fun hmem ↦ hnew (h.mem_iff.mp hmem)
    refine ⟨?_, decide_eq_true hnot⟩
    show (item.contributingFactsSet.insert f).Perm (f :: facts)
    rw [List.insert_of_not_mem hnot]
    exact h.cons f

/-- **A fact goes**, holding the number that it had when it came. -/
theorem backward (h : ItemExact info number (f :: facts) item)
    (htakes : info.Takes (info.getAccumulateValue env heap bindings item.wme f) (number f))
    (hbound : info.function.isNumeric = true → SumsBounded ((f :: facts).map number)) :
    let r := info.applyAccumulate env heap bindings false f item
    ItemExact info number facts r.1 ∧ r.2 = true := by
  dsimp only
  rcases info.function.kernel_cases with hf | hf | hf | hf | hf
  · rw [count_iff hf] at h ⊢
    rw [ParsedAccumulate.applyCount hf]
    refine ⟨?_, rfl⟩
    show item.aggregateCount + -1 = (facts.length : ℤ)
    rw [h, List.length_cons]
    omega
  · rw [sum_iff hf] at h ⊢
    rw [ParsedAccumulate.applySum hf false (htakes.sum hf)]
    replace hbound := hbound (by rw [hf]; rfl)
    have hnumber : (number f).natAbs ≤ 2 ^ 53 := hbound.mem List.mem_cons_self
    have hrest : (((f :: facts).map number).sum + -number f).natAbs ≤ 2 ^ 53 := by
      have hsum : (facts.map number).sum.natAbs ≤ 2 ^ 53 :=
        hbound _ (List.sublist_cons_self _ _).subperm
      rw [List.map_cons, List.sum_cons]
      omega
    refine ⟨⟨?_, h.2⟩, rfl⟩
    show item.numericSum.add (Double.ofInt (number f)).neg = .ofInt (facts.map number).sum
    rw [h.1, Double.neg_ofInt hnumber,
      Double.add_ofInt hbound.sum (by rwa [Int.natAbs_neg]) hrest, List.map_cons, List.sum_cons]
    congr 1
    omega
  · rw [extreme_iff hf] at h ⊢
    rw [ParsedAccumulate.applyExtreme hf false (htakes.extreme hf)]
    refine ⟨⟨?_, rfl, h.2.2⟩, rfl⟩
    show (item.numericValues.erase (Double.ofInt (number f))).Perm _
    simpa using h.1.erase (.ofInt (number f))
  · rw [list_iff hf] at h ⊢
    rw [ParsedAccumulate.applyList hf]
    refine ⟨?_, decide_eq_true (h.mem_iff.mpr List.mem_cons_self)⟩
    show (item.contributingFactsList.erase f).Perm facts
    simpa using h.erase f
  · rw [set_iff hf] at h ⊢
    rw [ParsedAccumulate.applySet hf]
    refine ⟨?_, decide_eq_true (h.mem_iff.mpr List.mem_cons_self)⟩
    show (item.contributingFactsSet.erase f).Perm facts
    simpa using h.erase f

/-! ### What is published -/

/-- Doubles that are a rearrangement of integers are integers. -/
theorem exists_ofInt {values : List Double} {numbers : List ℤ}
    (hperm : values.Perm (numbers.map Double.ofInt)) (hbound : ∀ i ∈ numbers, i.natAbs ≤ 2 ^ 53) :
    ∃ numbers' : List ℤ, numbers'.Perm numbers ∧ values = numbers'.map Double.ofInt := by
  refine ⟨values.map Double.toInt, ?_, ?_⟩
  · have hround : (numbers.map Double.ofInt).map Double.toInt = numbers := by
      rw [List.map_map]
      conv_rhs => rw [← List.map_id numbers]
      exact List.map_congr_left fun i hi ↦ Double.toInt_ofInt (hbound i hi)
    calc (values.map Double.toInt).Perm ((numbers.map Double.ofInt).map Double.toInt) :=
        hperm.map _
      _ = numbers := hround
  · rw [List.map_map]
    conv_lhs => rw [← List.map_id values]
    refine List.map_congr_left fun d hd ↦ ?_
    obtain ⟨i, hi, rfl⟩ := List.mem_map.mp (hperm.mem_iff.mp hd)
    show Double.ofInt i = .ofInt (Double.ofInt i).toInt
    rw [Double.toInt_ofInt (hbound i hi)]

/-- **What an item that is up to date publishes** is the fold of its function. -/
theorem published (h : ItemExact info number facts item)
    (hbound : info.function.isNumeric = true → SumsBounded (facts.map number)) :
    ∃ result, (info.resultFields item).lookup "result" = some result ∧
      info.function.FoldsTo facts (facts.map number) result := by
  rcases info.function.kernel_cases with hf | hf | hf | hf | hf
  · rw [count_iff hf] at h
    refine ⟨.int64 facts.length, ?_, by rw [hf]; rfl⟩
    simp [ParsedAccumulate.resultFields, ParsedAccumulate.usesCollectAccumulate,
      ParsedAccumulate.numericAccumulateResult, hf, h]
  · have hsums := hbound (by rw [hf]; rfl)
    rw [sum_iff hf] at h
    refine ⟨.int64 (facts.map number).sum, ?_, by rw [hf]; rfl⟩
    simp [ParsedAccumulate.resultFields, ParsedAccumulate.usesCollectAccumulate,
      ParsedAccumulate.numericAccumulateResult, hf, h.1, h.2, Double.toInt_ofInt hsums.sum]
  · have hsums := hbound (by rcases hf with hf | hf <;> rw [hf] <;> rfl)
    rw [extreme_iff hf] at h
    obtain ⟨hvalues, hextreme, hdouble⟩ := h
    have hvalues' : item.numericValues.Perm ((facts.map number).map Double.ofInt) := by
      rwa [List.map_map]
    obtain ⟨numbers', hperm, heq⟩ := exists_ofInt hvalues' fun i hi ↦ hsums.mem hi
    have hint : item.numericExtreme = .ofInt (info.extremeInt (facts.map number)) := by
      rw [hextreme, heq, extremeOf_ofInt fun i hi ↦ hsums.mem (hperm.mem_iff.mp hi),
        extremeInt_perm hf hperm]
    have hsmall := extremeInt_natAbs_le info fun i hi ↦ hsums.mem hi
    refine ⟨.int64 (info.extremeInt (facts.map number)), ?_, ?_⟩
    · rcases hf with hf | hf <;>
        simp [ParsedAccumulate.resultFields, ParsedAccumulate.usesCollectAccumulate,
          ParsedAccumulate.numericAccumulateResult, hf, hdouble, hint, Double.toInt_ofInt hsmall]
    · rcases hf with hf | hf <;> rw [hf]
      · rw [extremeInt_min hf]
        rfl
      · rw [extremeInt_max hf]
        rfl
  · rw [list_iff hf] at h
    refine ⟨.factList item.contributingFactsList, ?_, ?_⟩
    · rcases hf with hf | hf <;>
        simp [ParsedAccumulate.resultFields, ParsedAccumulate.usesCollectAccumulate, hf]
    · rcases hf with hf | hf <;> rw [hf] <;> exact ⟨_, rfl, h⟩
  · rw [set_iff hf] at h
    refine ⟨.factList item.contributingFactsSet, ?_, ?_⟩
    · simp [ParsedAccumulate.resultFields, ParsedAccumulate.usesCollectAccumulate, hf]
    · rw [hf]
      exact ⟨_, rfl, h⟩

end ItemExact

end RulesForge
