import Mathlib.Data.Nat.Basic

/-!
# Blocks with exits

Blocks of statements over a state, with the four ways a block ends: normally, by a `break`, by a
`continue` or by an error. An iteration over a list and a bounded loop pass the first three on to
nobody: they **catch** the exits of their body.

`whileLoop_run` reads a bounded loop back: some number of whole entries, at most the bound, and
then the one thing that ended it.
-/

universe u v w

/-- How a block ends. -/
inductive Exit (ε : Type u) where
  | normal
  | breaking
  | continuing
  | threw (error : ε)

/-- A block: the state it leaves and how it ends. -/
abbrev Block (σ : Type u) (ε : Type v) := σ → σ × Exit ε

namespace Block

variable {σ : Type u} {ε : Type v} {α : Type w}

def skip : Block σ ε := fun s ↦ (s, .normal)

def throwing (error : ε) : Block σ ε := fun s ↦ (s, .threw error)

/-- One block after another, which is run only if the first one ends normally. -/
def andThen (first second : Block σ ε) : Block σ ε := fun s ↦
  match first s with
  | (s', .normal) => second s'
  | ended => ended

/-- An iteration over a list. -/
def forEach (body : α → Block σ ε) : List α → Block σ ε
  | [], s => (s, .normal)
  | a :: rest, s =>
    match body a s with
    | (s', .normal) => forEach body rest s'
    | (s', .continuing) => forEach body rest s'
    | (s', .breaking) => (s', .normal)
    | (s', .threw error) => (s', .threw error)

/-- A loop that enters its body at most so many times and throws when it had to enter it once
more. -/
def whileLoop (condition : σ → Except ε Bool) (exceeded : ε) (body : Block σ ε) : ℕ → Block σ ε
  | 0, s =>
    match condition s with
    | .error error => (s, .threw error)
    | .ok false => (s, .normal)
    | .ok true => (s, .threw exceeded)
  | n + 1, s =>
    match condition s with
    | .error error => (s, .threw error)
    | .ok false => (s, .normal)
    | .ok true =>
      match body s with
      | (s', .normal) => whileLoop condition exceeded body n s'
      | (s', .continuing) => whileLoop condition exceeded body n s'
      | (s', .breaking) => (s', .normal)
      | (s', .threw error) => (s', .threw error)

/-- Neither a `break` nor a `continue` leaves a block that is run from the state. -/
def Catches (block : Block σ ε) (s : σ) : Prop :=
  (block s).2 ≠ .breaking ∧ (block s).2 ≠ .continuing

/-! ### What is caught -/

theorem catches_skip (s : σ) : Catches (skip : Block σ ε) s := by
  unfold Catches skip
  exact ⟨nofun, nofun⟩

theorem catches_forEach (body : α → Block σ ε) (items : List α) (s : σ) :
    Catches (forEach body items) s := by
  induction items generalizing s with
  | nil => exact ⟨nofun, nofun⟩
  | cons a rest ih =>
    unfold Catches forEach
    match hbody : body a s with
    | (s', .normal) => exact ih s'
    | (s', .continuing) => exact ih s'
    | (s', .breaking) => exact ⟨nofun, nofun⟩
    | (s', .threw error) => exact ⟨nofun, nofun⟩

theorem Catches.andThen {first second : Block σ ε} (hfirst : ∀ s, Catches first s)
    (hsecond : ∀ s, Catches second s) (s : σ) : Catches (first.andThen second) s := by
  have h := hfirst s
  unfold Catches Block.andThen at *
  match hrun : first s with
  | (s', .normal) => simpa only [hrun] using hsecond s'
  | (s', .continuing) => exact absurd (by rw [hrun]) h.2
  | (s', .breaking) => exact absurd (by rw [hrun]) h.1
  | (s', .threw error) => exact ⟨nofun, nofun⟩

/-! ### What a block keeps -/

/-- The states before and after the block are related, however it ends. -/
def Keeps (r : σ → σ → Prop) (block : Block σ ε) : Prop :=
  ∀ s, r s (block s).1

section Keeps

variable {r : σ → σ → Prop} {first second : Block σ ε}

theorem keeps_skip (hrefl : ∀ s, r s s) : Keeps r (skip : Block σ ε) := hrefl

theorem Keeps.andThen (htrans : ∀ {s t u}, r s t → r t u → r s u) (hfirst : Keeps r first)
    (hsecond : Keeps r second) : Keeps r (first.andThen second) := by
  intro s
  have h := hfirst s
  unfold Block.andThen
  match hrun : first s with
  | (s', .normal) => exact htrans (by rwa [hrun] at h) (hsecond s')
  | (s', .breaking) => rwa [hrun] at h
  | (s', .continuing) => rwa [hrun] at h
  | (s', .threw error) => rwa [hrun] at h

theorem keeps_forEach (hrefl : ∀ s, r s s) (htrans : ∀ {s t u}, r s t → r t u → r s u)
    {body : α → Block σ ε} (hbody : ∀ a, Keeps r (body a)) (items : List α) :
    Keeps r (forEach body items) := by
  intro s
  induction items generalizing s with
  | nil => exact hrefl s
  | cons a rest ih =>
    have h := hbody a s
    unfold forEach
    match hrun : body a s with
    | (s', .normal) => exact htrans (by rwa [hrun] at h) (ih s')
    | (s', .continuing) => exact htrans (by rwa [hrun] at h) (ih s')
    | (s', .breaking) => rwa [hrun] at h
    | (s', .threw error) => rwa [hrun] at h

end Keeps

/-! ### Bounded loops -/

section While

variable {condition : σ → Except ε Bool} {exceeded : ε} {body : Block σ ε}

/-- A number of whole entries in a row: the condition holds, and the body ends normally or by a
`continue`. -/
inductive Entries (condition : σ → Except ε Bool) (body : Block σ ε) : ℕ → σ → σ → Prop
  | none (s : σ) : Entries condition body 0 s s
  | enter {n : ℕ} {s s' t : σ} (hcondition : condition s = .ok true)
      (hbody : body s = (s', .normal) ∨ body s = (s', .continuing))
      (hrest : Entries condition body n s' t) : Entries condition body (n + 1) s t

/-- The one thing that ends a loop in a state, after a number of whole entries. -/
inductive Stops (condition : σ → Except ε Bool) (exceeded : ε) (body : Block σ ε) (bound : ℕ) :
    ℕ → σ → σ × Exit ε → Prop
  | condition {n : ℕ} {s : σ} (h : condition s = .ok false) :
      Stops condition exceeded body bound n s (s, .normal)
  | breaks {n : ℕ} {s s' : σ} (h : condition s = .ok true) (hn : n < bound)
      (hbody : body s = (s', .breaking)) :
      Stops condition exceeded body bound n s (s', .normal)
  | unreadable {n : ℕ} {s : σ} {error : ε} (h : condition s = .error error) :
      Stops condition exceeded body bound n s (s, .threw error)
  | throws {n : ℕ} {s s' : σ} {error : ε} (h : condition s = .ok true) (hn : n < bound)
      (hbody : body s = (s', .threw error)) :
      Stops condition exceeded body bound n s (s', .threw error)
  | exceeds {s : σ} (h : condition s = .ok true) :
      Stops condition exceeded body bound bound s (s, .threw exceeded)

theorem Stops.succ {bound n : ℕ} {s : σ} {r : σ × Exit ε}
    (h : Stops condition exceeded body bound n s r) :
    Stops condition exceeded body (bound + 1) (n + 1) s r := by
  cases h with
  | condition h => exact .condition h
  | breaks h hn hbody => exact .breaks h (by omega) hbody
  | unreadable h => exact .unreadable h
  | throws h hn hbody => exact .throws h (by omega) hbody
  | exceeds h => exact .exceeds h

theorem Stops.pred {bound n : ℕ} {s : σ} {r : σ × Exit ε}
    (h : Stops condition exceeded body (bound + 1) (n + 1) s r) :
    Stops condition exceeded body bound n s r := by
  cases h with
  | condition h => exact .condition h
  | breaks h hn hbody => exact .breaks h (by omega) hbody
  | unreadable h => exact .unreadable h
  | throws h hn hbody => exact .throws h (by omega) hbody
  | exceeds h => exact .exceeds h

/-- **The run of a bounded loop**: whole entries, at most the bound, and then what stops it. -/
theorem whileLoop_run (bound : ℕ) (s : σ) :
    ∃ n t, n ≤ bound ∧ Entries condition body n s t ∧
      Stops condition exceeded body bound n t (whileLoop condition exceeded body bound s) := by
  induction bound generalizing s with
  | zero =>
    refine ⟨0, s, le_rfl, .none s, ?_⟩
    unfold whileLoop
    match h : condition s with
    | .error error => exact .unreadable h
    | .ok false => exact .condition h
    | .ok true => exact .exceeds h
  | succ bound ih =>
    unfold whileLoop
    match h : condition s with
    | .error error => exact ⟨0, s, by omega, .none s, .unreadable h⟩
    | .ok false => exact ⟨0, s, by omega, .none s, .condition h⟩
    | .ok true =>
      -- the entry that was made counts, whichever way it passed on
      match hbody : body s with
      | (s', .normal) =>
        obtain ⟨n, t, hn, hentries, hstops⟩ := ih s'
        exact ⟨n + 1, t, by omega, .enter h (.inl hbody) hentries, hstops.succ⟩
      | (s', .continuing) =>
        obtain ⟨n, t, hn, hentries, hstops⟩ := ih s'
        exact ⟨n + 1, t, by omega, .enter h (.inr hbody) hentries, hstops.succ⟩
      | (s', .breaking) => exact ⟨0, s, by omega, .none s, .breaks h (by omega) hbody⟩
      | (s', .threw error) => exact ⟨0, s, by omega, .none s, .throws h (by omega) hbody⟩

/-- **What stops a bounded loop is what it returns.** -/
theorem whileLoop_eq_of_stops {bound n : ℕ} {s t : σ} {r : σ × Exit ε} (hn : n ≤ bound)
    (hentries : Entries condition body n s t)
    (hstops : Stops condition exceeded body bound n t r) :
    whileLoop condition exceeded body bound s = r := by
  induction hentries generalizing bound with
  | none s =>
    cases bound with
    | zero =>
      unfold whileLoop
      cases hstops with
      | condition h => simp only [h]
      | breaks h hlt hbody => exact absurd hlt (by omega)
      | unreadable h => simp only [h]
      | throws h hlt hbody => exact absurd hlt (by omega)
      | exceeds h => simp only [h]
    | succ bound =>
      unfold whileLoop
      cases hstops with
      | condition h => simp only [h]
      | breaks h hlt hbody => simp only [h, hbody]
      | unreadable h => simp only [h]
      | throws h hlt hbody => simp only [h, hbody]
  | @enter n s s' t hcondition hbody hrest ih =>
    obtain ⟨bound, rfl⟩ : ∃ m, bound = m + 1 := ⟨bound - 1, by omega⟩
    have hrun := ih (by omega) hstops.pred
    unfold whileLoop
    rcases hbody with hbody | hbody <;> simpa only [hcondition, hbody] using hrun

/-- **A bounded loop, exactly**: at most the bound of whole entries, and then what stops it. -/
theorem whileLoop_eq_iff {bound : ℕ} {s : σ} {r : σ × Exit ε} :
    whileLoop condition exceeded body bound s = r ↔
      ∃ n t, n ≤ bound ∧ Entries condition body n s t ∧
        Stops condition exceeded body bound n t r := by
  constructor
  · rintro rfl
    exact whileLoop_run bound s
  · rintro ⟨n, t, hn, hentries, hstops⟩
    exact whileLoop_eq_of_stops hn hentries hstops

theorem keeps_whileLoop {r : σ → σ → Prop} (hrefl : ∀ s, r s s)
    (htrans : ∀ {s t u}, r s t → r t u → r s u) (hbody : Keeps r body) (bound : ℕ) :
    Keeps r (whileLoop condition exceeded body bound) := by
  have hone : ∀ {s s' : σ} {e : Exit ε}, body s = (s', e) → r s s' := by
    intro s s' e h
    have := hbody s
    rwa [h] at this
  intro s
  obtain ⟨n, t, -, hentries, hstops⟩ := @whileLoop_run _ _ condition exceeded body bound s
  have hst : r s t := by
    clear hstops
    induction hentries with
    | none s => exact hrefl s
    | enter hcondition hbody hrest ih =>
      rcases hbody with hbody | hbody <;> exact htrans (hone hbody) ih
  generalize whileLoop condition exceeded body bound s = result at hstops ⊢
  cases hstops with
  | breaks h hn hbody => exact htrans hst (hone hbody)
  | throws h hn hbody => exact htrans hst (hone hbody)
  | _ => exact hst

theorem catches_whileLoop (bound : ℕ) (s : σ) :
    Catches (whileLoop condition exceeded body bound) s := by
  obtain ⟨n, t, -, -, hstops⟩ := @whileLoop_run _ _ condition exceeded body bound s
  unfold Catches
  generalize whileLoop condition exceeded body bound s = r at hstops ⊢
  cases hstops <;> exact ⟨nofun, nofun⟩

end While

end Block
