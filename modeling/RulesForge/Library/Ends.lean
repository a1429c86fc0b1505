import Mathlib.Tactic.Basic

/-!
# How a fallible computation ends

`EStateM` computations keep their state when they fail. `x.Ends s ok err` says that the
computation `x`, started in the state `s`, returns a value and a state that satisfy `ok` or
fails with an error and a state that satisfy `err`. There is one rule for each way of building
a computation, so that a property of a program is proved along its text.
-/

namespace EStateM

variable {ε σ α β : Type}

/-- The two ways in which a computation can end. -/
def Ends (x : EStateM ε σ α) (s : σ) (ok : α → σ → Prop) (err : ε → σ → Prop) : Prop :=
  match x s with
  | .ok a s' => ok a s'
  | .error e s' => err e s'

/-- The state a computation leaves, whichever way it ends. -/
def Result.state : Result ε σ α → σ
  | .ok _ s => s
  | .error _ s => s

/-- A computation that ends well is at its final state. -/
def Result.isOk : Result ε σ α → Bool
  | .ok _ _ => true
  | .error _ _ => false

theorem Result.eq_ok_state {r : Result ε σ Unit} (h : r.isOk = true) : r = .ok () r.state := by
  cases r with
  | ok a s => rfl
  | error e s => cases h

namespace Ends

variable {x : EStateM ε σ α} {f : α → EStateM ε σ β} {s : σ} {ok ok' : α → σ → Prop}
  {err err' : ε → σ → Prop} {ok₂ : β → σ → Prop}

theorem of_ok {a : α} {s' : σ} (h : x.Ends s ok err) (hx : x s = .ok a s') : ok a s' := by
  unfold Ends at h
  rwa [hx] at h

theorem of_error {e : ε} {s' : σ} (h : x.Ends s ok err) (hx : x s = .error e s') : err e s' := by
  unfold Ends at h
  rwa [hx] at h

theorem state {P : σ → Prop} (h : x.Ends s (fun _ ↦ P) fun _ ↦ P) : P (x s).state := by
  unfold Ends at h
  cases hx : x s with
  | ok a s' => rwa [hx] at h
  | error e s' => rwa [hx] at h

theorem mono (h : x.Ends s ok err) (hok : ∀ a s', ok a s' → ok' a s')
    (herr : ∀ e s', err e s' → err' e s') : x.Ends s ok' err' := by
  unfold Ends at h ⊢
  cases hx : x s with
  | ok a s' =>
    rw [hx] at h
    exact hok a s' h
  | error e s' =>
    rw [hx] at h
    exact herr e s' h

theorem trivial : x.Ends s (fun _ _ ↦ True) fun _ _ ↦ True := by
  unfold Ends
  cases x s <;> exact True.intro

/-- What a computation does is one way in which it can end. -/
theorem self : x.Ends s (fun a s' ↦ x s = .ok a s') fun e s' ↦ x s = .error e s' := by
  unfold Ends
  cases x s <;> rfl

theorem pure {a : α} (h : ok a s) : (pure a : EStateM ε σ α).Ends s ok err := h

theorem throw {e : ε} (h : err e s) : (throw e : EStateM ε σ α).Ends s ok err := h

theorem get {ok : σ → σ → Prop} (h : ok s s) : (get : EStateM ε σ σ).Ends s ok err := h

theorem modify {g : σ → σ} {ok : Unit → σ → Prop} (h : ok () (g s)) :
    (modify g : EStateM ε σ Unit).Ends s ok err := h

theorem bind (h : x.Ends s (fun a s' ↦ (f a).Ends s' ok₂ err) err) :
    (x >>= f).Ends s ok₂ err := by
  unfold Ends at h ⊢
  change (match EStateM.bind x f s with | .ok a s' => ok₂ a s' | .error e s' => err e s')
  unfold EStateM.bind
  cases hx : x s with
  | ok a s' =>
    rw [hx] at h
    exact h
  | error e s' =>
    rw [hx] at h
    exact h

theorem tryCatch {handle : ε → EStateM ε σ α}
    (h : x.Ends s ok fun e s' ↦ (handle e).Ends s' ok err) :
    (tryCatch x handle : EStateM ε σ α).Ends s ok err := by
  unfold Ends at h ⊢
  change (match EStateM.tryCatch x handle s with | .ok a s' => ok a s' | .error e s' => err e s')
  unfold EStateM.tryCatch
  cases hx : x s with
  | ok a s' =>
    rw [hx] at h
    exact h
  | error e s' =>
    rw [hx] at h
    exact h

/-- A loop keeps what each of its rounds keeps. -/
theorem forM {γ : Type} {body : γ → EStateM ε σ PUnit} {P : List γ → σ → Prop} {l : List γ}
    (hP : P l s) (hstep : ∀ {a rest s}, P (a :: rest) s →
      (body a).Ends s (fun _ ↦ P rest) err) : (l.forM body).Ends s (fun _ ↦ P []) err := by
  induction l generalizing s with
  | nil => exact hP
  | cons a rest ih => exact bind ((hstep hP).mono (fun _ s' h ↦ ih h) fun _ _ h ↦ h)

end Ends

end EStateM
