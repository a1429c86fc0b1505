import RulesForge.Core.ValueEquality
import RulesForge.Library.ThreeWay

/-!
# Laws of values as keys

`ConstraintValueCompare`, `ConstraintValueEquals` and `ConstraintValueHasher`
(`src/core/rfl_rete_defs.cpp`) order and hash the keys of sets, maps and indexes. Here the pointers
to collections may be null, as they may in the source, and the comparison is the strict one of the
source, which compares elements in both directions.

Without a not-a-number it is a strict weak order, and values that it does not tell apart have the
same hash.
-/

namespace RulesForge

/-! ### Values -/

/-- The alternatives that are pointers to collections. -/
inductive CollectionKind where
  | typedList | valueSet | valueMap
  deriving DecidableEq

/-- The position of the alternative in the variant. -/
def CollectionKind.index : CollectionKind → ℕ
  | typedList => 5
  | valueSet => 6
  | valueMap => 7

/-- A value whose pointers to collections may be null. -/
inductive SharedValue where
  | scalar (v : ConstraintValue) (h : v.isCollection = false)
  | null (kind : CollectionKind)
  | typedList (values : List SharedValue)
  | valueSet (values : List SharedValue)
  | valueMap (entries : List (SharedValue × SharedValue))

namespace SharedValue

def index : SharedValue → ℕ
  | scalar v _ => v.index
  | null kind => kind.index
  | typedList _ => 5
  | valueSet _ => 6
  | valueMap _ => 7

mutual

/-- A value without a not-a-number. -/
def isNaNFree : SharedValue → Bool
  | scalar v _ => match v with
    | .double d => decide (d ≠ .nan)
    | _ => true
  | null _ => true
  | typedList values => areNaNFree values
  | valueSet values => areNaNFree values
  | valueMap entries => entriesNaNFree entries

def areNaNFree : List SharedValue → Bool
  | [] => true
  | v :: vs => isNaNFree v && areNaNFree vs

def entriesNaNFree : List (SharedValue × SharedValue) → Bool
  | [] => true
  | (k, v) :: entries => isNaNFree k && isNaNFree v && entriesNaNFree entries

end

end SharedValue

/-! ### The strict comparison -/

mutual

/-- `ConstraintValueCompare`. -/
def constraintValueCompare (factId : FactPtr → ℤ) (a b : SharedValue) : Bool :=
  if a.index ≠ b.index then decide (a.index < b.index)
  else
    match a, b with
    | .scalar v _, .scalar w _ => compareValues factId v w == .lt
    | .null _, .null _ => false
    | .null _, _ => true
    | _, .null _ => false
    | .typedList as, .typedList bs => lexicographicalCompare factId as bs
    | .valueSet as, .valueSet bs => lexicographicalCompare factId as bs
    | .valueMap as, .valueMap bs => entriesCompare factId as bs
    | _, _ => false
termination_by sizeOf a + sizeOf b

/-- `std::lexicographical_compare`. -/
def lexicographicalCompare (factId : FactPtr → ℤ) (as bs : List SharedValue) : Bool :=
  match as, bs with
  | a :: as, b :: bs =>
    if constraintValueCompare factId a b then true
    else if constraintValueCompare factId b a then false
    else lexicographicalCompare factId as bs
  | [], _ :: _ => true
  | _, [] => false
termination_by sizeOf as + sizeOf bs

/-- The loop over the entries of two maps. -/
def entriesCompare (factId : FactPtr → ℤ) (as bs : List (SharedValue × SharedValue)) : Bool :=
  match as, bs with
  | (k, v) :: as, (k', v') :: bs =>
    if constraintValueCompare factId k k' then true
    else if constraintValueCompare factId k' k then false
    else if constraintValueCompare factId v v' then true
    else if constraintValueCompare factId v' v then false
    else entriesCompare factId as bs
  | [], _ :: _ => true
  | _, [] => false
termination_by sizeOf as + sizeOf bs

end

/-- `ConstraintValueEquals`. -/
def sharedValueEquals (factId : FactPtr → ℤ) (a b : SharedValue) : Bool :=
  !constraintValueCompare factId a b && !constraintValueCompare factId b a

/-! ### Both directions in one -/

mutual

/-- The comparison of two values of one alternative. -/
def compareContents (factId : FactPtr → ℤ) : SharedValue → SharedValue → Ordering
  | .scalar v _, .scalar w _ => compareValues factId v w
  | .null _, .null _ => .eq
  | .null _, _ => .lt
  | _, .null _ => .gt
  | .typedList as, .typedList bs => compareShareds factId as bs
  | .valueSet as, .valueSet bs => compareShareds factId as bs
  | .valueMap as, .valueMap bs => compareSharedEntries factId as bs
  | _, _ => .eq

def compareShareds (factId : FactPtr → ℤ) : List SharedValue → List SharedValue → Ordering
  | [], [] => .eq
  | [], _ :: _ => .lt
  | _ :: _, [] => .gt
  | a :: as, b :: bs =>
    ((compare a.index b.index).then (compareContents factId a b)).then (compareShareds factId as bs)

def compareSharedEntries (factId : FactPtr → ℤ) :
    List (SharedValue × SharedValue) → List (SharedValue × SharedValue) → Ordering
  | [], [] => .eq
  | [], _ :: _ => .lt
  | _ :: _, [] => .gt
  | (k, v) :: as, (k', v') :: bs =>
    (((compare k.index k'.index).then (compareContents factId k k')).then
      ((compare v.index v'.index).then (compareContents factId v v'))).then
      (compareSharedEntries factId as bs)

end

/-- The strict comparison in both directions. -/
def compareShared (factId : FactPtr → ℤ) (a b : SharedValue) : Ordering :=
  (compare a.index b.index).then (compareContents factId a b)

/-! ### Scalars -/

section Scalars

variable (factId : FactPtr → ℤ)

theorem Double.isLE_cmp_iff (x y : Double) : (x.cmp y).isLE = true ↔ y.lt x = false := by
  unfold Double.cmp
  by_cases hxy : x.lt y = true
  · rw [if_pos hxy, Double.lt_asymm hxy]
    decide
  · rw [if_neg hxy]
    cases y.lt x <;> decide

theorem Double.not_lt_trans {x y z : Double} (hy : y ≠ .nan) (hyx : y.lt x = false)
    (hzy : z.lt y = false) : z.lt x = false := by
  cases y with
  | nan => exact absurd rfl hy
  | inf b => cases x <;> cases z <;> cases b <;> simp_all [Double.lt]
  | finite y =>
    cases x with
    | nan => cases z <;> rfl
    | inf a =>
      cases z with
      | nan => rfl
      | inf c => cases a <;> cases c <;> simp_all [Double.lt]
      | finite z => cases a <;> simp_all [Double.lt]
    | finite x =>
      cases z with
      | nan => rfl
      | inf c => cases c <;> simp_all [Double.lt]
      | finite z =>
        simp only [Double.lt, decide_eq_false_iff_not] at *
        grind

/-- Doubles are compared transitively as long as they are numbers. -/
theorem Double.transCmp : Std.TransCmp fun x y : { d : Double // d ≠ .nan } ↦ x.1.cmp y.1 where
  eq_swap {x y} := (Double.cmp_swap y.1 x.1).symm
  isLE_trans {x y z} hxy hyz := by
    rw [Double.isLE_cmp_iff] at hxy hyz ⊢
    exact Double.not_lt_trans y.2 hxy hyz

theorem EnumNumericValue.transCmp : Std.TransCmp EnumNumericValue.cmp where
  eq_swap {a b} := by
    cases a with
    | signed i =>
      cases b with
      | signed j => exact @Std.OrientedCmp.eq_swap _ compare _ _ _
      | unsigned n => rfl
    | unsigned m =>
      cases b with
      | signed j => rfl
      | unsigned n => exact @Std.OrientedCmp.eq_swap _ compare _ _ _
  isLE_trans {a b c} hab hbc := by
    cases a with
    | signed i =>
      cases c with
      | signed k =>
        cases b with
        | signed j => exact @Std.TransCmp.isLE_trans _ compare _ _ _ _ hab hbc
        | unsigned n => contradiction
      | unsigned p => rfl
    | unsigned m =>
      cases b with
      | signed j => contradiction
      | unsigned n =>
        cases c with
        | signed k => contradiction
        | unsigned p => exact @Std.TransCmp.isLE_trans _ compare _ _ _ _ hab hbc

theorem EnumValue.transCmp : Std.TransCmp EnumValue.cmp := by
  have htype := transCmp_map (compare : String → String → Ordering) EnumValue.typeName
  have := EnumNumericValue.transCmp
  have hvalue := transCmp_map EnumNumericValue.cmp EnumValue.value
  show Std.TransCmp (compareLex (fun a b : EnumValue ↦ compare a.typeName b.typeName)
    fun a b ↦ a.value.cmp b.value)
  infer_instance

theorem MoneyValue.transCmp : Std.TransCmp MoneyValue.cmp := by
  have hamount := transCmp_map (List.compareLex (compare : ℤ → ℤ → Ordering))
    fun m : MoneyValue ↦ m.amount.members
  have hcurrency := transCmp_map (compare : String → String → Ordering) MoneyValue.currency
  show Std.TransCmp (compareLex
    (fun a b : MoneyValue ↦ List.compareLex compare a.amount.members b.amount.members)
    fun a b ↦ compare a.currency b.currency)
  infer_instance

theorem transCmp_compareFactKeys : Std.TransCmp (compareFactKeys factId) := by
  have hid := transCmp_map (compare : ℤ → ℤ → Ordering) fun p ↦ (factKey factId p).1
  have haddress := transCmp_map (compare : ℕ → ℕ → Ordering) fun p ↦ (factKey factId p).2
  show Std.TransCmp (compareLex (fun p q ↦ compare (factKey factId p).1 (factKey factId q).1)
    fun p q ↦ compare (factKey factId p).2 (factKey factId q).2)
  infer_instance

/-- **The scalars of one alternative** are compared by their contents. -/
theorem exists_contents {v : ConstraintValue} (hscalar : v.isCollection = false) :
    ∃ (α : Type) (f : α → ConstraintValue) (cmp : α → α → Ordering), Std.TransCmp cmp ∧
      (∀ x y, compareValues factId (f x) (f y) = cmp x y) ∧
      ∀ w : ConstraintValue, w.index = v.index → w ≠ .double .nan → ∃ x, w = f x := by
  have hmembers : ∀ {α : Type} (f : α → List ℤ),
      Std.TransCmp fun x y ↦ List.compareLex compare (f x) (f y) := fun f ↦
    transCmp_map (List.compareLex compare) f
  cases v with
  | string =>
    refine ⟨String, .string, compare, inferInstance, fun _ _ ↦ rfl, fun w hw _ ↦ ?_⟩
    cases w <;> first | exact ⟨_, rfl⟩ | cases hw
  | int64 =>
    refine ⟨ℤ, .int64, compare, inferInstance, fun _ _ ↦ rfl, fun w hw _ ↦ ?_⟩
    cases w <;> first | exact ⟨_, rfl⟩ | cases hw
  | double =>
    refine ⟨_, fun d ↦ .double d.1, _, Double.transCmp, fun _ _ ↦ rfl, fun w hw hnan ↦ ?_⟩
    cases w with
    | double d => exact ⟨⟨d, fun heq ↦ hnan (by rw [heq])⟩, rfl⟩
    | _ => cases hw
  | factList =>
    have hkeys := transCmp_compareFactKeys factId
    refine ⟨_, .factList, List.compareLex (compareFactKeys factId), inferInstance, fun _ _ ↦ rfl,
      fun w hw _ ↦ ?_⟩
    cases w <;> first | exact ⟨_, rfl⟩ | cases hw
  | nil =>
    refine ⟨Unit, fun _ ↦ .nil, compare, inferInstance, fun _ _ ↦ rfl, fun w hw _ ↦ ?_⟩
    cases w <;> first | exact ⟨(), rfl⟩ | cases hw
  | typedList => cases hscalar
  | valueSet => cases hscalar
  | valueMap => cases hscalar
  | uuid =>
    refine ⟨_, .uuid, List.compareLex compare, inferInstance, fun _ _ ↦ rfl, fun w hw _ ↦ ?_⟩
    cases w <;> first | exact ⟨_, rfl⟩ | cases hw
  | bool =>
    refine ⟨Bool, .bool, compare, inferInstance, fun _ _ ↦ rfl, fun w hw _ ↦ ?_⟩
    cases w <;> first | exact ⟨_, rfl⟩ | cases hw
  | uint64 =>
    refine ⟨ℕ, .uint64, compare, inferInstance, fun _ _ ↦ rfl, fun w hw _ ↦ ?_⟩
    cases w <;> first | exact ⟨_, rfl⟩ | cases hw
  | bytes =>
    refine ⟨_, .bytes, List.compareLex compare, inferInstance, fun _ _ ↦ rfl, fun w hw _ ↦ ?_⟩
    cases w <;> first | exact ⟨_, rfl⟩ | cases hw
  | enum =>
    refine ⟨_, .enum, EnumValue.cmp, EnumValue.transCmp, fun _ _ ↦ rfl, fun w hw _ ↦ ?_⟩
    cases w <;> first | exact ⟨_, rfl⟩ | cases hw
  | dateTime =>
    refine ⟨_, .dateTime, _, hmembers DateTimeValue.members, fun _ _ ↦ rfl, fun w hw _ ↦ ?_⟩
    cases w <;> first | exact ⟨_, rfl⟩ | cases hw
  | date =>
    refine ⟨_, .date, _, hmembers DateValue.members, fun _ _ ↦ rfl, fun w hw _ ↦ ?_⟩
    cases w <;> first | exact ⟨_, rfl⟩ | cases hw
  | time =>
    refine ⟨_, .time, _, hmembers TimeValue.members, fun _ _ ↦ rfl, fun w hw _ ↦ ?_⟩
    cases w <;> first | exact ⟨_, rfl⟩ | cases hw
  | duration =>
    refine ⟨ℤ, .duration, compare, inferInstance, fun _ _ ↦ rfl, fun w hw _ ↦ ?_⟩
    cases w <;> first | exact ⟨_, rfl⟩ | cases hw
  | decimal =>
    refine ⟨_, .decimal, _, hmembers DecimalValue.members, fun _ _ ↦ rfl, fun w hw _ ↦ ?_⟩
    cases w <;> first | exact ⟨_, rfl⟩ | cases hw
  | bigInt =>
    refine ⟨String, .bigInt, compare, inferInstance, fun _ _ ↦ rfl, fun w hw _ ↦ ?_⟩
    cases w <;> first | exact ⟨_, rfl⟩ | cases hw
  | money =>
    refine ⟨_, .money, MoneyValue.cmp, MoneyValue.transCmp, fun _ _ ↦ rfl, fun w hw _ ↦ ?_⟩
    cases w <;> first | exact ⟨_, rfl⟩ | cases hw

variable {factId} {u v w : ConstraintValue}

theorem compareValues_swap_of_scalar (hscalar : v.isCollection = false) (hv : v ≠ .double .nan)
    (hw : w ≠ .double .nan) (hindex : v.index = w.index) :
    (compareValues factId v w).swap = compareValues factId w v := by
  obtain ⟨α, f, cmp, htrans, hcmp, hall⟩ := exists_contents factId hscalar
  obtain ⟨x, rfl⟩ := hall v rfl hv
  obtain ⟨y, rfl⟩ := hall w hindex.symm hw
  rw [hcmp, hcmp]
  exact (@Std.OrientedCmp.eq_swap _ cmp _ y x).symm

theorem noCycle_of_scalar (hscalar : u.isCollection = false) (hu : u ≠ .double .nan)
    (hv : v ≠ .double .nan) (hw : w ≠ .double .nan) (huv : u.index = v.index)
    (hvw : v.index = w.index) :
    NoCycle (compareValues factId u v) (compareValues factId v w) (compareValues factId w u) := by
  obtain ⟨α, f, cmp, htrans, hcmp, hall⟩ := exists_contents factId hscalar
  obtain ⟨x, rfl⟩ := hall u rfl hu
  obtain ⟨y, rfl⟩ := hall v huv.symm hv
  obtain ⟨z, rfl⟩ := hall w (huv.trans hvw).symm hw
  rw [hcmp, hcmp, hcmp]
  exact noCycle_of_transCmp x y z

theorem index_of_scalar (hscalar : v.isCollection = false) :
    v.index ≠ 5 ∧ v.index ≠ 6 ∧ v.index ≠ 7 := by
  have hne : ∀ {m n : ℕ}, Nat.beq m n = false → m ≠ n := @Nat.ne_of_beq_eq_false
  cases v <;> first | exact ⟨hne rfl, hne rfl, hne rfl⟩ | cases hscalar

end Scalars

/-! ### The laws, by recursion -/

section Laws

open SharedValue

variable {factId : FactPtr → ℤ} {a b c : SharedValue}

theorem SharedValue.ne_nan {v : ConstraintValue} {h : v.isCollection = false}
    (hfree : (scalar v h).isNaNFree = true) : v ≠ .double .nan := by
  rintro rfl
  exact absurd hfree (by simp [isNaNFree])

/-- Values of one alternative: scalars, or collections of one kind. -/
theorem SharedValue.scalar_index_ne {v : ConstraintValue} (h : v.isCollection = false)
    (hb : ∀ w h', b ≠ scalar w h') : (scalar v h).index ≠ b.index := by
  obtain ⟨h5, h6, h7⟩ := index_of_scalar h
  cases b with
  | scalar w h' => exact absurd rfl (hb w h')
  | null kind =>
    cases kind with
    | typedList => exact h5
    | valueSet => exact h6
    | valueMap => exact h7
  | typedList => exact h5
  | valueSet => exact h6
  | valueMap => exact h7

theorem compareShared_swap_of (h : a.index = b.index →
    (compareContents factId a b).swap = compareContents factId b a) :
    (compareShared factId a b).swap = compareShared factId b a := by
  unfold compareShared
  rw [Ordering.swap_then, ← @Std.OrientedCmp.eq_swap _ compare _ b.index a.index]
  cases hindex : compare b.index a.index with
  | eq =>
    show (compareContents factId a b).swap = compareContents factId b a
    exact h (compare_eq_iff_eq.mp hindex).symm
  | lt => rfl
  | gt => rfl

theorem noCycle_of_contents (h : a.index = b.index → b.index = c.index →
    NoCycle (compareContents factId a b) (compareContents factId b c)
      (compareContents factId c a)) :
    NoCycle (compareShared factId a b) (compareShared factId b c) (compareShared factId c a) := by
  refine (noCycle_of_transCmp a.index b.index c.index).andThen fun hab hbc _ ↦ ?_
  exact h (compare_eq_iff_eq.mp hab) (compare_eq_iff_eq.mp hbc)

mutual

theorem compareContents_swap : ∀ (a b : SharedValue), a.isNaNFree = true → b.isNaNFree = true →
    a.index = b.index → (compareContents factId a b).swap = compareContents factId b a
  | scalar v hv, b, ha, hb, hindex => by
    cases b with
    | scalar w hw => exact compareValues_swap_of_scalar hv (ne_nan ha) (ne_nan hb) hindex
    | _ => exact absurd hindex (scalar_index_ne hv fun _ _ ↦ by nofun)
  | null kind, b, _, _, hindex => by
    cases b with
    | scalar w hw => exact absurd hindex.symm (scalar_index_ne hw fun _ _ ↦ by nofun)
    | _ => rfl
  | typedList as, b, ha, hb, hindex => by
    cases b with
    | scalar w hw => exact absurd hindex.symm (index_of_scalar hw).1
    | null => rfl
    | typedList bs => exact compareShareds_swap as bs ha hb
    | valueSet => cases hindex
    | valueMap => cases hindex
  | valueSet as, b, ha, hb, hindex => by
    cases b with
    | scalar w hw => exact absurd hindex.symm (index_of_scalar hw).2.1
    | null => rfl
    | valueSet bs => exact compareShareds_swap as bs ha hb
    | typedList => cases hindex
    | valueMap => cases hindex
  | valueMap as, b, ha, hb, hindex => by
    cases b with
    | scalar w hw => exact absurd hindex.symm (index_of_scalar hw).2.2
    | null => rfl
    | valueMap bs => exact compareSharedEntries_swap as bs ha hb
    | typedList => cases hindex
    | valueSet => cases hindex

theorem compareShareds_swap : ∀ (as bs : List SharedValue), areNaNFree as = true →
    areNaNFree bs = true → (compareShareds factId as bs).swap = compareShareds factId bs as
  | [], [], _, _ => rfl
  | [], _ :: _, _, _ => rfl
  | _ :: _, [], _, _ => rfl
  | a :: as, b :: bs, ha, hb => by
    rw [areNaNFree, Bool.and_eq_true] at ha hb
    have hfirst := compareShared_swap_of (compareContents_swap a b ha.1 hb.1)
    show ((compareShared factId a b).then _).swap = (compareShared factId b a).then _
    rw [Ordering.swap_then, hfirst, compareShareds_swap as bs ha.2 hb.2]

theorem compareSharedEntries_swap : ∀ (as bs : List (SharedValue × SharedValue)),
    entriesNaNFree as = true → entriesNaNFree bs = true →
      (compareSharedEntries factId as bs).swap = compareSharedEntries factId bs as
  | [], [], _, _ => rfl
  | [], _ :: _, _, _ => rfl
  | _ :: _, [], _, _ => rfl
  | (k, v) :: as, (k', v') :: bs, ha, hb => by
    rw [entriesNaNFree, Bool.and_eq_true, Bool.and_eq_true] at ha hb
    have hkey := compareShared_swap_of (compareContents_swap k k' ha.1.1 hb.1.1)
    have hvalue := compareShared_swap_of (compareContents_swap v v' ha.1.2 hb.1.2)
    show (((compareShared factId k k').then (compareShared factId v v')).then _).swap =
      ((compareShared factId k' k).then (compareShared factId v' v)).then _
    rw [Ordering.swap_then, Ordering.swap_then, hkey, hvalue,
      compareSharedEntries_swap as bs ha.2 hb.2]

end

mutual

theorem compareContents_noCycle : ∀ (a b c : SharedValue), a.isNaNFree = true →
    b.isNaNFree = true → c.isNaNFree = true → a.index = b.index → b.index = c.index →
    NoCycle (compareContents factId a b) (compareContents factId b c) (compareContents factId c a)
  | scalar u hu, b, c, ha, hb, hc, hab, hbc => by
    cases b with
    | scalar v hv =>
      cases c with
      | scalar w hw => exact noCycle_of_scalar hu (ne_nan ha) (ne_nan hb) (ne_nan hc) hab hbc
      | _ => exact absurd hbc (scalar_index_ne hv fun _ _ ↦ by nofun)
    | _ => exact absurd hab (scalar_index_ne hu fun _ _ ↦ by nofun)
  | null kind, b, c, _, _, _, hab, hbc => by
    cases b with
    | scalar w hw => exact absurd hab.symm (scalar_index_ne hw fun _ _ ↦ by nofun)
    | null =>
      cases c with
      | scalar w hw => exact absurd hbc.symm (scalar_index_ne hw fun _ _ ↦ by nofun)
      | null => exact noCycle_eq
      | _ => exact fun _ _ h ↦ absurd h Bool.false_ne_true
    | _ =>
      -- a null pointer comes before the collection
      cases c with
      | scalar w hw => exact absurd hbc.symm (scalar_index_ne hw fun _ _ ↦ by nofun)
      | null => exact fun _ h _ ↦ absurd h Bool.false_ne_true
      | _ => exact fun _ _ h ↦ absurd h Bool.false_ne_true
  | typedList as, b, c, ha, hb, hc, hab, hbc => by
    cases b with
    | scalar w hw => exact absurd hab.symm (index_of_scalar hw).1
    | valueSet => cases hab
    | valueMap => cases hab
    | null =>
      cases c with
      | scalar w hw => exact absurd (hab.trans hbc).symm (index_of_scalar hw).1
      | _ => nofun
    | typedList bs =>
      cases c with
      | scalar w hw => exact absurd hbc.symm (index_of_scalar hw).1
      | valueSet => cases hbc
      | valueMap => cases hbc
      | null => exact fun _ h _ ↦ absurd h Bool.false_ne_true
      | typedList cs => exact compareShareds_noCycle as bs cs ha hb hc
  | valueSet as, b, c, ha, hb, hc, hab, hbc => by
    cases b with
    | scalar w hw => exact absurd hab.symm (index_of_scalar hw).2.1
    | typedList => cases hab
    | valueMap => cases hab
    | null =>
      cases c with
      | scalar w hw => exact absurd (hab.trans hbc).symm (index_of_scalar hw).2.1
      | _ => nofun
    | valueSet bs =>
      cases c with
      | scalar w hw => exact absurd hbc.symm (index_of_scalar hw).2.1
      | typedList => cases hbc
      | valueMap => cases hbc
      | null => exact fun _ h _ ↦ absurd h Bool.false_ne_true
      | valueSet cs => exact compareShareds_noCycle as bs cs ha hb hc
  | valueMap as, b, c, ha, hb, hc, hab, hbc => by
    cases b with
    | scalar w hw => exact absurd hab.symm (index_of_scalar hw).2.2
    | typedList => cases hab
    | valueSet => cases hab
    | null =>
      cases c with
      | scalar w hw => exact absurd (hab.trans hbc).symm (index_of_scalar hw).2.2
      | _ => nofun
    | valueMap bs =>
      cases c with
      | scalar w hw => exact absurd hbc.symm (index_of_scalar hw).2.2
      | typedList => cases hbc
      | valueSet => cases hbc
      | null => exact fun _ h _ ↦ absurd h Bool.false_ne_true
      | valueMap cs => exact compareSharedEntries_noCycle as bs cs ha hb hc

theorem compareShareds_noCycle : ∀ (as bs cs : List SharedValue), areNaNFree as = true →
    areNaNFree bs = true → areNaNFree cs = true →
      NoCycle (compareShareds factId as bs) (compareShareds factId bs cs)
        (compareShareds factId cs as)
  | [], [], [], _, _, _ => noCycle_eq
  | [], _ :: _, [], _, _, _ => fun _ h _ ↦ absurd h Bool.false_ne_true
  | [], [], _ :: _, _, _, _ => fun _ _ h ↦ absurd h Bool.false_ne_true
  | [], _ :: _, _ :: _, _, _, _ => fun _ _ h ↦ absurd h Bool.false_ne_true
  | _ :: _, [], _, _, _, _ => fun h _ _ ↦ absurd h Bool.false_ne_true
  | _ :: _, _ :: _, [], _, _, _ => fun _ h _ ↦ absurd h Bool.false_ne_true
  | a :: as, b :: bs, c :: cs, ha, hb, hc => by
    rw [areNaNFree, Bool.and_eq_true] at ha hb hc
    exact (noCycle_of_contents (compareContents_noCycle a b c ha.1 hb.1 hc.1)).andThen
      fun _ _ _ ↦ compareShareds_noCycle as bs cs ha.2 hb.2 hc.2

theorem compareSharedEntries_noCycle : ∀ (as bs cs : List (SharedValue × SharedValue)),
    entriesNaNFree as = true → entriesNaNFree bs = true → entriesNaNFree cs = true →
      NoCycle (compareSharedEntries factId as bs) (compareSharedEntries factId bs cs)
        (compareSharedEntries factId cs as)
  | [], [], [], _, _, _ => noCycle_eq
  | [], _ :: _, [], _, _, _ => fun _ h _ ↦ absurd h Bool.false_ne_true
  | [], [], _ :: _, _, _, _ => fun _ _ h ↦ absurd h Bool.false_ne_true
  | [], _ :: _, _ :: _, _, _, _ => fun _ _ h ↦ absurd h Bool.false_ne_true
  | _ :: _, [], _, _, _, _ => fun h _ _ ↦ absurd h Bool.false_ne_true
  | _ :: _, _ :: _, [], _, _, _ => fun _ h _ ↦ absurd h Bool.false_ne_true
  | (k, v) :: as, (k', v') :: bs, (k'', v'') :: cs, ha, hb, hc => by
    rw [entriesNaNFree, Bool.and_eq_true, Bool.and_eq_true] at ha hb hc
    have hkey := noCycle_of_contents (compareContents_noCycle k k' k'' ha.1.1 hb.1.1 hc.1.1)
    have hvalue := noCycle_of_contents (compareContents_noCycle v v' v'' ha.1.2 hb.1.2 hc.1.2)
    exact (hkey.andThen fun _ _ _ ↦ hvalue).andThen
      fun _ _ _ ↦ compareSharedEntries_noCycle as bs cs ha.2 hb.2 hc.2

end

theorem compareShared_swap (ha : a.isNaNFree = true) (hb : b.isNaNFree = true) :
    (compareShared factId a b).swap = compareShared factId b a :=
  compareShared_swap_of (compareContents_swap a b ha hb)

/-- A strict comparison in one direction, and then in the other. -/
theorem ite_eq_then (o p : Ordering) :
    (if o == .lt then true else if o.swap == .lt then false else p == .lt) =
      (o.then p == .lt) := by
  cases o <;> rfl

/-- What the strict comparison says of two values of different alternatives. -/
theorem constraintValueCompare_of_index_ne (h : a.index ≠ b.index) :
    constraintValueCompare factId a b = (compareShared factId a b == .lt) := by
  have hcode : constraintValueCompare factId a b = decide (a.index < b.index) := by
    rw [constraintValueCompare.eq_def, if_pos h]
  rw [hcode, compareShared]
  rcases lt_or_gt_of_ne h with hlt | hgt
  · rw [Nat.compare_eq_lt.mpr hlt, decide_eq_true hlt]
    rfl
  · rw [Nat.compare_eq_gt.mpr hgt, decide_eq_false hgt.not_gt]
    rfl

theorem compareShared_of_index_eq (h : a.index = b.index) :
    compareShared factId a b = compareContents factId a b := by
  rw [compareShared, Nat.compare_eq_eq.mpr h]
  rfl

/-- The two comparisons agree on two values, either way around. -/
def Agree (factId : FactPtr → ℤ) (a b : SharedValue) : Prop :=
  constraintValueCompare factId a b = (compareShared factId a b == .lt) ∧
    constraintValueCompare factId b a = (compareShared factId b a == .lt)

theorem agree_of_contents (h : a.index = b.index →
    constraintValueCompare factId a b = (compareContents factId a b == .lt) ∧
      constraintValueCompare factId b a = (compareContents factId b a == .lt)) :
    Agree factId a b := by
  by_cases hindex : a.index = b.index
  · rw [Agree, compareShared_of_index_eq hindex, compareShared_of_index_eq hindex.symm]
    exact h hindex
  · exact ⟨constraintValueCompare_of_index_ne hindex,
      constraintValueCompare_of_index_ne (Ne.symm hindex)⟩

mutual

/-- **The strict comparison** is one direction of the comparison in both. -/
theorem agree_of_isNaNFree : ∀ (a b : SharedValue), a.isNaNFree = true → b.isNaNFree = true →
    Agree factId a b
  | scalar v hv, b, _, _ => agree_of_contents fun hindex ↦ by
    cases b with
    | scalar w hw =>
      rw [constraintValueCompare, constraintValueCompare, if_neg (not_not_intro hindex),
        if_neg (not_not_intro hindex.symm)]
      exact ⟨rfl, rfl⟩
    | _ => exact absurd hindex (scalar_index_ne hv fun _ _ ↦ by nofun)
  | null kind, b, _, _ => agree_of_contents fun hindex ↦ by
    cases b with
    | scalar w hw => exact absurd hindex.symm (scalar_index_ne hw fun _ _ ↦ by nofun)
    | _ =>
      rw [constraintValueCompare.eq_def, constraintValueCompare.eq_def,
        if_neg (not_not_intro hindex), if_neg (not_not_intro hindex.symm)]
      exact ⟨rfl, rfl⟩
  | typedList as, b, ha, hb => agree_of_contents fun hindex ↦ by
    cases b with
    | scalar w hw => exact absurd hindex.symm (index_of_scalar hw).1
    | valueSet => cases hindex
    | valueMap => cases hindex
    | null kind =>
      rw [constraintValueCompare.eq_def, constraintValueCompare.eq_def,
        if_neg (not_not_intro hindex), if_neg (not_not_intro hindex.symm)]
      exact ⟨rfl, rfl⟩
    | typedList bs =>
      rw [constraintValueCompare, constraintValueCompare, if_neg (not_not_intro hindex),
        if_neg (not_not_intro hindex.symm)]
      exact lexicographicalCompare_eq as bs ha hb
  | valueSet as, b, ha, hb => agree_of_contents fun hindex ↦ by
    cases b with
    | scalar w hw => exact absurd hindex.symm (index_of_scalar hw).2.1
    | typedList => cases hindex
    | valueMap => cases hindex
    | null kind =>
      rw [constraintValueCompare.eq_def, constraintValueCompare.eq_def,
        if_neg (not_not_intro hindex), if_neg (not_not_intro hindex.symm)]
      exact ⟨rfl, rfl⟩
    | valueSet bs =>
      rw [constraintValueCompare, constraintValueCompare, if_neg (not_not_intro hindex),
        if_neg (not_not_intro hindex.symm)]
      exact lexicographicalCompare_eq as bs ha hb
  | valueMap as, b, ha, hb => agree_of_contents fun hindex ↦ by
    cases b with
    | scalar w hw => exact absurd hindex.symm (index_of_scalar hw).2.2
    | typedList => cases hindex
    | valueSet => cases hindex
    | null kind =>
      rw [constraintValueCompare.eq_def, constraintValueCompare.eq_def,
        if_neg (not_not_intro hindex), if_neg (not_not_intro hindex.symm)]
      exact ⟨rfl, rfl⟩
    | valueMap bs =>
      rw [constraintValueCompare, constraintValueCompare, if_neg (not_not_intro hindex),
        if_neg (not_not_intro hindex.symm)]
      exact entriesCompare_eq as bs ha hb

theorem lexicographicalCompare_eq : ∀ (as bs : List SharedValue), areNaNFree as = true →
    areNaNFree bs = true →
    lexicographicalCompare factId as bs = (compareShareds factId as bs == .lt) ∧
      lexicographicalCompare factId bs as = (compareShareds factId bs as == .lt)
  | [], [], _, _ => by
    rw [lexicographicalCompare]
    exact ⟨rfl, rfl⟩
  | [], _ :: _, _, _ => by
    rw [lexicographicalCompare, lexicographicalCompare]
    exact ⟨rfl, rfl⟩
  | _ :: _, [], _, _ => by
    rw [lexicographicalCompare, lexicographicalCompare]
    exact ⟨rfl, rfl⟩
  | a :: as, b :: bs, ha, hb => by
    rw [areNaNFree, Bool.and_eq_true] at ha hb
    obtain ⟨hab, hba⟩ := agree_of_isNaNFree a b ha.1 hb.1
    obtain ⟨hrest, hrest'⟩ := lexicographicalCompare_eq as bs ha.2 hb.2
    have hswap := @compareShared_swap factId a b ha.1 hb.1
    have hswap' := @compareShared_swap factId b a hb.1 ha.1
    constructor
    · rw [lexicographicalCompare, hab, hba, hrest, ← hswap]
      exact ite_eq_then _ _
    · rw [lexicographicalCompare, hab, hba, hrest', ← hswap']
      exact ite_eq_then _ _

theorem entriesCompare_eq : ∀ (as bs : List (SharedValue × SharedValue)),
    entriesNaNFree as = true → entriesNaNFree bs = true →
    entriesCompare factId as bs = (compareSharedEntries factId as bs == .lt) ∧
      entriesCompare factId bs as = (compareSharedEntries factId bs as == .lt)
  | [], [], _, _ => by
    rw [entriesCompare]
    exact ⟨rfl, rfl⟩
  | [], _ :: _, _, _ => by
    rw [entriesCompare, entriesCompare]
    exact ⟨rfl, rfl⟩
  | _ :: _, [], _, _ => by
    rw [entriesCompare, entriesCompare]
    exact ⟨rfl, rfl⟩
  | (k, v) :: as, (k', v') :: bs, ha, hb => by
    rw [entriesNaNFree, Bool.and_eq_true, Bool.and_eq_true] at ha hb
    obtain ⟨hk, hk'⟩ := agree_of_isNaNFree k k' ha.1.1 hb.1.1
    obtain ⟨hv, hv'⟩ := agree_of_isNaNFree v v' ha.1.2 hb.1.2
    obtain ⟨hrest, hrest'⟩ := entriesCompare_eq as bs ha.2 hb.2
    -- the value is compared as the rest behind the key
    constructor
    · rw [entriesCompare, hk, hk', hv, hv', hrest,
        ← @compareShared_swap factId k k' ha.1.1 hb.1.1,
        ← @compareShared_swap factId v v' ha.1.2 hb.1.2, ite_eq_then, ite_eq_then,
        ← Ordering.then_assoc]
      rfl
    · rw [entriesCompare, hk, hk', hv, hv', hrest',
        ← @compareShared_swap factId k' k hb.1.1 ha.1.1,
        ← @compareShared_swap factId v' v hb.1.2 ha.1.2, ite_eq_then, ite_eq_then,
        ← Ordering.then_assoc]
      rfl

end

theorem isThreeWay_compareShared (factId : FactPtr → ℤ) :
    IsThreeWay fun a b : { v : SharedValue // v.isNaNFree = true } ↦
      compareShared factId a.1 b.1 where
  swap a b := compareShared_swap a.2 b.2
  noCycle a b c := noCycle_of_contents (compareContents_noCycle a.1 b.1 c.1 a.2 b.2 c.2)

/-- **The comparison of values** is a strict weak order on those without a not-a-number. -/
theorem isStrictWeak_constraintValueCompare (factId : FactPtr → ℤ) :
    IsStrictWeak fun a b : { v : SharedValue // v.isNaNFree = true } ↦
      constraintValueCompare factId a.1 b.1 :=
  (isThreeWay_compareShared factId).isStrictWeak fun a b ↦
    (agree_of_isNaNFree a.1 b.1 a.2 b.2).1

theorem sharedValueEquals_iff (ha : a.isNaNFree = true) (hb : b.isNaNFree = true) :
    sharedValueEquals factId a b = true ↔ compareShared factId a b = .eq := by
  obtain ⟨hab, hba⟩ := @agree_of_isNaNFree factId a b ha hb
  rw [sharedValueEquals, hab, hba, ← @compareShared_swap factId a b ha hb]
  cases compareShared factId a b <;> decide

end Laws

end RulesForge
