import Mathlib.Tactic.Basic

/-!
# Programs with checks

A program acts on a state, decides on it, may fail, and **submits** objects to a check that is
either enforced or not. Where nothing that is submitted would be rejected, enforcing the check
makes no difference (`run_of_accepts`), and a run that does not fail has submitted nothing that
would be rejected (`accepts_of_run`).
-/

/-- A program over states `σ` that submits objects `κ` to a check and fails with errors `ε`. -/
inductive CheckedProgram (σ κ ε : Type) where
  | done
  | act (f : σ → σ) (next : CheckedProgram σ κ ε)
  | branch (next : σ → CheckedProgram σ κ ε)
  | submit (object : σ → κ) (next : CheckedProgram σ κ ε)
  | fail (e : ε)

namespace CheckedProgram

variable {σ κ ε : Type}

/-- One program after another. -/
def andThen : CheckedProgram σ κ ε → CheckedProgram σ κ ε → CheckedProgram σ κ ε
  | done, q => q
  | act f next, q => act f (next.andThen q)
  | branch next, q => branch fun s ↦ (next s).andThen q
  | submit object next, q => submit object (next.andThen q)
  | fail e, _ => fail e

/-- Programs one after another. -/
def all (programs : List (CheckedProgram σ κ ε)) : CheckedProgram σ κ ε :=
  programs.foldr andThen done

/-- The state a program leaves and its error, if it fails. What `passes` rejects makes the
program fail with `rejected`. -/
def run (passes : κ → Bool) (rejected : ε) : CheckedProgram σ κ ε → σ → σ × Option ε
  | done, s => (s, none)
  | act f next, s => next.run passes rejected (f s)
  | branch next, s => (next s).run passes rejected s
  | submit object next, s =>
    if passes (object s) then next.run passes rejected s else (s, some rejected)
  | fail e, s => (s, some e)

/-- Nothing that the program submits, with no check enforced, would be rejected. -/
def accepts (passes : κ → Bool) : CheckedProgram σ κ ε → σ → Bool
  | done, _ => true
  | act f next, s => next.accepts passes (f s)
  | branch next, s => (next s).accepts passes s
  | submit object next, s => passes (object s) && next.accepts passes s
  | fail _, _ => true

variable {passes : κ → Bool} {rejected : ε}

theorem run_of_accepts (p : CheckedProgram σ κ ε) {s : σ} (h : p.accepts passes s = true) :
    p.run passes rejected s = p.run (fun _ ↦ true) rejected s := by
  induction p generalizing s with
  | done => rfl
  | act f next ih => exact ih h
  | branch next ih => exact ih s h
  | submit object next ih =>
    obtain ⟨hpass, hnext⟩ := Bool.and_eq_true_iff.mp h
    simp only [run, hpass]
    exact ih hnext
  | fail e => rfl

theorem accepts_of_run (p : CheckedProgram σ κ ε) {s : σ}
    (h : (p.run passes rejected s).2 = none) : p.accepts passes s = true := by
  induction p generalizing s with
  | done => rfl
  | act f next ih => exact ih h
  | branch next ih => exact ih s h
  | submit object next ih =>
    cases hpass : passes (object s) with
    | true =>
      simp only [run, hpass, if_true] at h
      simp only [accepts, hpass, Bool.true_and]
      exact ih h
    | false => simp [run, hpass] at h
  | fail e => rfl

theorem accepts_true (p : CheckedProgram σ κ ε) (s : σ) : p.accepts (fun _ ↦ true) s = true := by
  induction p generalizing s with
  | done => rfl
  | act f next ih => exact ih (f s)
  | branch next ih => exact ih s s
  | submit object next ih => exact ih s
  | fail e => rfl

end CheckedProgram
