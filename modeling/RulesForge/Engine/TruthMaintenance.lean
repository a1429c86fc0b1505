import Mathlib.Data.Int.Order.Basic
import RulesForge.Library.SupportMap

/-!
# Truth maintenance

`src/engine/tms.cpp`: which tokens and which activations support which logically inserted facts.
Supports are kept in both directions; the operations that withdraw one return the ids of the facts
that lost their last support, which the session then retracts.
-/

namespace RulesForge

/-- `justifications_` with `token_to_justified_facts_`, and `fact_to_activations_` with
`activation_to_facts_`. -/
structure SupportMaps (τ : Type) where
  tokens : SupportMap ℤ τ := {}
  activations : SupportMap ℤ ℕ := {}

namespace SupportMaps

variable {τ : Type} [DecidableEq τ] (m : SupportMaps τ)

/-- `add_justification`. -/
def addJustification (wme : τ) (id : ℤ) : SupportMaps τ :=
  { m with tokens := m.tokens.add wme id }

/-- `add_logical_dependency`. -/
def addLogicalDependency (hash : ℕ) (id : ℤ) : SupportMaps τ :=
  { m with activations := m.activations.add hash id }

/-- One round of the loop in `remove_justifications_by_token`. A fact without tokens is looked up
among those with activations by `operator[]`. -/
def withdrawToken (wme : τ) (state : SupportMaps τ × List ℤ) (id : ℤ) : SupportMaps τ × List ℤ :=
  let (m, collected) := state
  if (m.tokens.supporters.lookup id).isSome then
    let m := { m with tokens := m.tokens.withdraw wme id }
    if m.tokens.supportersOf id = [] then
      let m := { m with activations := m.activations.touch id }
      if m.activations.supportersOf id = [] then (m, collected ++ [id]) else (m, collected)
    else (m, collected)
  else (m, collected)

/-- `remove_justifications_by_token`, up to the retractions. -/
def removeJustificationsByToken (wme : τ) : SupportMaps τ × List ℤ :=
  match m.tokens.supported.lookup wme with
  | none => (m, [])
  | some ids => ids.foldl (withdrawToken wme) ({ m with tokens := m.tokens.forget wme }, [])

/-- One round of the loop in `on_activation_retracted`, which looks up both maps by
`operator[]`. -/
def withdrawActivation (hash : ℕ) (state : SupportMaps τ × List ℤ) (id : ℤ) :
    SupportMaps τ × List ℤ :=
  let (m, collected) := state
  let m := { m with activations := m.activations.withdraw hash id }
  if m.activations.supportersOf id = [] then
    let m := { m with tokens := m.tokens.touch id }
    if m.tokens.supportersOf id = [] then (m, collected ++ [id]) else (m, collected)
  else (m, collected)

/-- `on_activation_retracted`, up to the retractions. -/
def onActivationRetracted (hash : ℕ) : SupportMaps τ × List ℤ :=
  match m.activations.supported.lookup hash with
  | none => (m, [])
  | some ids =>
    ids.foldl (withdrawActivation hash) ({ m with activations := m.activations.forget hash }, [])

/-- `on_fact_retracted`. -/
def onFactRetracted (id : ℤ) : SupportMaps τ where
  tokens := m.tokens.dropElement id
  activations := m.activations.dropElement id

end SupportMaps

end RulesForge
