import RulesForge.Rete.TestReads

/-!
# Flat facts

A fact is **flat** when no field of it holds a list of facts or a not-a-number. What is read of a
flat fact is decided by its own id and its own fields: a path never leaves the fact, and every
value that is read is plain again.
-/

namespace RulesForge

/-- Every field holds a plain value. -/
def FlatFields (fields : List (String × ConstraintValue)) : Prop :=
  ∀ {name v}, fields.lookup name = some v → v.isPlain = true

def Heap.Flat (heap : Heap) (f : FactPtr) : Prop := FlatFields (heap f).fields

theorem flatFields_of_forall {fields : List (String × ConstraintValue)}
    (h : ∀ entry ∈ fields, entry.2.isPlain = true) : FlatFields fields :=
  fun {name v} hlookup ↦ h (name, v) (AssocMap.mem_of_lookup hlookup)

namespace ConstraintValue

theorem arePlain_iff {values : List ConstraintValue} :
    arePlain values = true ↔ ∀ v ∈ values, v.isPlain = true := by
  induction values with
  | nil => exact iff_of_true rfl fun v hv ↦ absurd hv List.not_mem_nil
  | cons v values ih => rw [arePlain, Bool.and_eq_true, ih, List.forall_mem_cons]

theorem entriesPlain_iff {entries : List (ConstraintValue × ConstraintValue)} :
    entriesPlain entries = true ↔
      ∀ entry ∈ entries, entry.1.isPlain = true ∧ entry.2.isPlain = true := by
  induction entries with
  | nil => exact iff_of_true rfl fun v hv ↦ absurd hv List.not_mem_nil
  | cons entry entries ih =>
    obtain ⟨k, v⟩ := entry
    rw [entriesPlain, Bool.and_eq_true, Bool.and_eq_true, ih, List.forall_mem_cons]

end ConstraintValue

section Paths

variable {heap heap' : Heap} {f : FactPtr} {v w : ConstraintValue}

theorem isPlain_of_nilIfNullSafe {nullSafe : Bool} (h : nilIfNullSafe nullSafe = some v) :
    v.isPlain = true := by
  cases nullSafe <;> cases h
  rfl

/-- An index into a plain value does not look into the heap. -/
theorem applyIndex_of_isPlain (hv : v.isPlain = true) (idx : IndexAccess) (nullSafe : Bool) :
    applyIndex heap' v idx nullSafe = applyIndex heap v idx nullSafe := by
  cases v with
  | factList facts => cases hv
  | valueMap entries => exact applyIndex_valueMap_congr entries idx nullSafe
  | _ => rfl

theorem isPlain_of_applyIndex (hv : v.isPlain = true) {idx : IndexAccess} {nullSafe : Bool}
    (h : applyIndex heap v idx nullSafe = some w) : w.isPlain = true := by
  unfold applyIndex at h
  split at h
  · cases h
  cases v with
  | factList facts => cases hv
  | typedList values =>
    simp only at h
    split at h
    · split at h
      · rename_i u hu
        cases h
        obtain ⟨i, -, hi⟩ := Option.bind_eq_some_iff.mp hu
        exact ConstraintValue.arePlain_iff.mp hv w (List.mem_of_getElem? hi)
      · exact isPlain_of_nilIfNullSafe h
    · exact isPlain_of_nilIfNullSafe h
  | valueMap entries =>
    simp only at h
    split at h
    · rename_i entry hentry
      cases h
      exact (ConstraintValue.entriesPlain_iff.mp hv entry (List.mem_of_find?_eq_some hentry)).2
    · exact isPlain_of_nilIfNullSafe h
  | string s =>
    simp only at h
    split at h
    · split at h
      · cases h
        rfl
      · exact isPlain_of_nilIfNullSafe h
    · exact isPlain_of_nilIfNullSafe h
  | _ => exact isPlain_of_nilIfNullSafe h

theorem applyIndices_of_isPlain (nullSafe : Bool) (indices : List IndexAccess)
    {value : Option ConstraintValue} (hvalue : ∀ u, value = some u → u.isPlain = true) :
    applyIndices heap' nullSafe value indices = applyIndices heap nullSafe value indices ∧
      (∀ u, applyIndices heap nullSafe value indices = .ok (some u) → u.isPlain = true) ∧
      ∀ u, applyIndices heap nullSafe value indices = .error (some u) → u.isPlain = true := by
  induction indices generalizing value with
  | nil =>
    cases value with
    | none => exact ⟨rfl, fun u hu ↦ (by cases hu), fun u hu ↦ (by cases hu)⟩
    | some u =>
      refine ⟨rfl, fun w hw ↦ ?_, fun w hw ↦ (by cases hw)⟩
      cases hw
      exact hvalue u rfl
  | cons idx indices ih =>
    cases value with
    | none =>
      refine ⟨rfl, fun u hu ↦ (by cases hu), fun u hu ↦ ?_⟩
      exact isPlain_of_nilIfNullSafe (Except.error.inj hu)
    | some u =>
      have hu := hvalue u rfl
      rw [applyIndices, applyIndices, applyIndex_of_isPlain hu]
      cases hindex : applyIndex heap u idx nullSafe with
      | none => exact ⟨rfl, fun w hw ↦ (by cases hw), fun w hw ↦ (by cases hw)⟩
      | some w =>
        refine ih fun w' hw' ↦ ?_
        cases hw'
        exact isPlain_of_applyIndex hu hindex

/-- The pseudo fields `size` and `isEmpty` are numbers, or nil. -/
theorem isPlain_of_size {size : Option ℕ} {nullSafe : Bool}
    (h : (match size with
      | some n => some (.int64 n)
      | none => nilIfNullSafe nullSafe) = some v) : v.isPlain = true := by
  cases size with
  | none => exact isPlain_of_nilIfNullSafe h
  | some n =>
    cases h
    rfl

/-- A segment that names a field starts from the field. -/
theorem getFieldFrom_named {seg : PathSegment} {segments : List PathSegment}
    {current : Option ConstraintValue} (hname : seg.name ≠ "")
    (hsize : ∀ u, current = some u → seg.name = "size" → False)
    (hempty : ∀ u, current = some u → seg.name = "isEmpty" → False) :
    getFieldFrom heap f current (seg :: segments) =
      match (heap f).fields.lookup seg.name with
      | none => nilIfNullSafe seg.nullSafe
      | some value => getFieldFrom heap f (some value) ({ seg with name := "" } :: segments) := by
  cases hlookup : (heap f).fields.lookup seg.name <;>
    simp [getFieldFrom, hname, hlookup, Except.bind]

/-- A segment without a name goes on from the value that has been reached. -/
theorem getFieldFrom_unnamed {seg : PathSegment} (hname : seg.name = "")
    {current : Option ConstraintValue} (hcurrent : ∀ u, current = some u → u.isPlain = true)
    (segments : List PathSegment) :
    getFieldFrom heap' f current (seg :: segments) = getFieldFrom heap f current (seg :: segments) ∧
      ∀ u, getFieldFrom heap f current (seg :: segments) = some u → u.isPlain = true := by
  obtain ⟨hsame, hok, herror⟩ :=
    @applyIndices_of_isPlain heap heap' seg.nullSafe seg.indices _ hcurrent
  cases hresult : applyIndices heap seg.nullSafe current seg.indices with
  | error result =>
    rw [hresult] at hsame
    have hread : ∀ {h : Heap}, applyIndices h seg.nullSafe current seg.indices = .error result →
        getFieldFrom h f current (seg :: segments) = result := by
      intro h hr
      cases current <;> simp [getFieldFrom, hname, Except.bind, hr]
    refine ⟨(hread hsame).trans (hread hresult).symm, fun u hu ↦ herror u ?_⟩
    rw [hresult, ← hu, hread hresult]
  | ok value =>
    rw [hresult] at hsame
    cases segments with
    | nil =>
      have hread : ∀ {h : Heap}, applyIndices h seg.nullSafe current seg.indices = .ok value →
          getFieldFrom h f current [seg] = value := by
        intro h hr
        cases current <;> simp [getFieldFrom, hname, Except.bind, hr]
      refine ⟨(hread hsame).trans (hread hresult).symm, fun u hu ↦ hok u ?_⟩
      rw [hresult, ← hu, hread hresult]
    | cons next segments =>
      -- a path goes on only into a list of facts
      have hread : ∃ nullSafe, ∀ {h : Heap},
          applyIndices h seg.nullSafe current seg.indices = .ok value →
            getFieldFrom h f current (seg :: next :: segments) = nilIfNullSafe nullSafe := by
        cases value with
        | none =>
          refine ⟨seg.nullSafe, fun hr ↦ ?_⟩
          cases current <;> simp [getFieldFrom, hname, Except.bind, hr]
        | some value =>
          have hplain := hok value hresult
          cases value with
          | factList facts => cases hplain
          | nil =>
            refine ⟨seg.nullSafe || next.nullSafe, fun hr ↦ ?_⟩
            cases current <;> simp [getFieldFrom, hname, Except.bind, hr]
          | _ =>
            refine ⟨false, fun hr ↦ ?_⟩
            cases current <;> simp [getFieldFrom, hname, Except.bind, hr, nilIfNullSafe]
      obtain ⟨nullSafe, hread⟩ := hread
      refine ⟨(hread hsame).trans (hread hresult).symm, fun u hu ↦ ?_⟩
      exact isPlain_of_nilIfNullSafe ((hread hresult).symm.trans hu)

/-- A path into a flat fact is followed as before while the fields of the fact are the same, and
it ends at a plain value. -/
theorem getFieldFrom_of_flat (hflat : heap.Flat f) (hfields : (heap' f).fields = (heap f).fields)
    (segments : List PathSegment) {current : Option ConstraintValue}
    (hcurrent : ∀ u, current = some u → u.isPlain = true) :
    getFieldFrom heap' f current segments = getFieldFrom heap f current segments ∧
      ∀ u, getFieldFrom heap f current segments = some u → u.isPlain = true := by
  cases segments with
  | nil => exact ⟨rfl, fun u hu ↦ (by cases hu)⟩
  | cons seg segments =>
    by_cases hname : seg.name = ""
    · exact getFieldFrom_unnamed hname hcurrent segments
    by_cases hpseudo : current.isSome ∧ (seg.name = "size" ∨ seg.name = "isEmpty")
    · obtain ⟨hsome, hpseudo⟩ := hpseudo
      obtain ⟨u, rfl⟩ := Option.isSome_iff_exists.mp hsome
      rcases hpseudo with hsize | hempty
      · simp only [getFieldFrom, hsize]
        exact ⟨trivial, fun u hu ↦ isPlain_of_size hu⟩
      · simp only [getFieldFrom, hempty]
        exact ⟨trivial, fun u hu ↦ isPlain_of_size hu⟩
    · have hnot : ∀ u, current = some u → ¬ (seg.name = "size" ∨ seg.name = "isEmpty") :=
        fun u hu h ↦ hpseudo ⟨hu ▸ rfl, h⟩
      have hsize := fun u hu h ↦ hnot u hu (.inl h)
      have hempty := fun u hu h ↦ hnot u hu (.inr h)
      rw [getFieldFrom_named hname hsize hempty, getFieldFrom_named hname hsize hempty, hfields]
      cases hlookup : (heap f).fields.lookup seg.name with
      | none => exact ⟨rfl, fun u hu ↦ isPlain_of_nilIfNullSafe hu⟩
      | some value =>
        refine getFieldFrom_unnamed rfl (fun u hu ↦ ?_) segments
        cases hu
        exact hflat hlookup

/-- A path read from the fact itself. -/
theorem getPath_of_flat (hflat : heap.Flat f) (hfields : (heap' f).fields = (heap f).fields)
    (segments : List PathSegment) :
    getFieldFrom heap' f none segments = getFieldFrom heap f none segments ∧
      ∀ u, getFieldFrom heap f none segments = some u → u.isPlain = true :=
  getFieldFrom_of_flat hflat hfields segments fun u hu ↦ absurd hu.symm (Option.some_ne_none u)

/-- **What is read of a flat fact** is decided by its id and its fields. -/
theorem sameReads_of_flat (hflat : heap.Flat f) (hid : (heap' f).id = (heap f).id)
    (hfields : (heap' f).fields = (heap f).fields) : SameReads heap heap' f where
  id := hid
  getField name := by
    simp only [getField, hid, hfields,
      (getPath_of_flat hflat hfields _).1]
  alphaField name := by
    simp only [alphaField, hid, hfields,
      (getPath_of_flat hflat hfields _).1]

theorem isPlain_of_getField (hflat : heap.Flat f) {name : String}
    (h : getField heap f name = some v) : v.isPlain = true := by
  unfold getField at h
  split at h
  · cases h
    rfl
  split at h
  · exact (getPath_of_flat hflat rfl _).2 v h
  · exact hflat h

theorem isPlain_of_alphaField (hflat : heap.Flat f) {name : String}
    (h : alphaField heap f name = some v) : v.isPlain = true := by
  unfold alphaField at h
  split at h
  · exact (getPath_of_flat hflat rfl _).2 v h
  split at h
  · cases h
    rfl
  · exact hflat h

theorem plainReads_of_flat (net : CompiledNetwork) (hflat : heap.Flat f) :
    PlainReads net heap f := by
  rintro field - v (hv | hv)
  · exact isPlain_of_getField hflat hv
  · exact isPlain_of_alphaField hflat hv

end Paths

end RulesForge
