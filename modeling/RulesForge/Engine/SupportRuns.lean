import Mathlib.Order.Nat
import RulesForge.Engine.TruthMaintenance

/-!
# Runs of truth maintenance

The maps of `src/engine/tms.cpp` while facts come and go. A retraction clears what the maps say of
the fact and then tells the network, which ends tokens one after another; each of them may take the
last support from other facts, which are retracted before the network goes on
(`retract_fact`, `src/engine/stateful_session.cpp`).

The network is left open: it is whatever ends finitely many tokens at each event, and the tokens it
ends may depend on the retractions in between (`Reaction`). The fact leaves working memory before
the network is told, so the cascade ends.

In the transaction of a rule's actions a retraction waits for the commit; a rollback retracts what
was added and adds again what is no longer there (`end_rhs_transaction`). `retract_facts` takes
facts out of working memory without telling the maps.
-/

namespace RulesForge

/-! ### What the operations keep -/

namespace SupportMaps

section Invariant

variable {τ : Type} [DecidableEq τ] (m : SupportMaps τ)

/-- One of the maps has the fact. -/
def Mentions (id : ℤ) : Prop := m.tokens.Mentions id ∨ m.activations.Mentions id

/-- Each two maps say the same. -/
structure Consistent : Prop where
  tokens : m.tokens.Inverse
  activations : m.activations.Inverse

end Invariant

variable {τ : Type} [DecidableEq τ] {m m' : SupportMaps τ} {wme : τ} {hash : ℕ} {id : ℤ}
  {ids collected : List ℤ}

/-- The second maps are consistent, and mention no more than the first. -/
structure Keeps (m m' : SupportMaps τ) : Prop where
  consistent : m'.Consistent
  mentions : ∀ id, m'.Mentions id → m.Mentions id

/-- What holds while a token is withdrawn from the facts that are left. -/
structure WithdrawingToken (m m' : SupportMaps τ) (wme : τ) (ids : List ℤ) : Prop where
  tokens : SupportMap.Withdrawing m'.tokens wme ids
  activations : m'.activations.Inverse
  mentions : ∀ id, m'.Mentions id → m.Mentions id

theorem WithdrawingToken.round (h : WithdrawingToken m m' wme (id :: ids)) (hid : m.Mentions id) :
    WithdrawingToken m (withdrawToken wme (m', collected) id).1 wme ids := by
  have hmentions : ∀ {supporters : List τ} {id' : ℤ},
      SupportMap.Mentions ⟨AssocMap.insert id supporters m'.tokens.supporters,
        m'.tokens.supported⟩ id' → m.Mentions id' := by
    intro supporters id' hmem
    rcases SupportMap.mentions_of_lookup_insert hmem with rfl | hmem
    · exact hid
    · exact h.mentions id' (.inl hmem)
  have hwithdrawn : WithdrawingToken m { m' with tokens := m'.tokens.withdraw wme id } wme ids :=
    ⟨h.tokens.withdraw, h.activations, fun id' hmem ↦ hmem.elim hmentions fun hmem ↦
      h.mentions id' (.inr hmem)⟩
  unfold withdrawToken
  dsimp only
  by_cases hsome : (m'.tokens.supporters.lookup id).isSome = true
  · rw [if_pos hsome]
    by_cases hempty : (m'.tokens.withdraw wme id).supportersOf id = []
    · rw [if_pos hempty]
      have htouched : WithdrawingToken m
          ⟨m'.tokens.withdraw wme id, m'.activations.touch id⟩ wme ids := by
        refine ⟨hwithdrawn.tokens, h.activations.touch, fun id' hmem ↦ ?_⟩
        rcases hmem with hmem | hmem
        · exact hmentions hmem
        · rcases SupportMap.mentions_of_lookup_insert hmem with rfl | hmem
          · exact hid
          · exact h.mentions id' (.inr hmem)
      split
      · exact htouched
      · exact htouched
    · rw [if_neg hempty]
      exact hwithdrawn
  · rw [if_neg hsome]
    -- a fact that the map does not have has no supporters
    refine ⟨h.tokens.skip fun hmem ↦ hsome ?_, h.activations, h.mentions⟩
    rw [SupportMap.supportersOf] at hmem
    cases hlookup : m'.tokens.supporters.lookup id with
    | none =>
      rw [hlookup] at hmem
      exact absurd hmem List.not_mem_nil
    | some => rfl

theorem keeps_withdrawTokens (hids : ∀ id ∈ ids, m.Mentions id)
    (h : WithdrawingToken m m' wme ids) :
    Keeps m (ids.foldl (withdrawToken wme) (m', collected)).1 := by
  induction ids generalizing m' collected with
  | nil => exact ⟨⟨h.tokens.inverse, h.activations⟩, h.mentions⟩
  | cons id ids ih =>
    have hround := @WithdrawingToken.round _ _ _ _ _ _ _ collected h (hids id List.mem_cons_self)
    exact ih (fun id' hid' ↦ hids id' (List.mem_cons_of_mem id hid')) hround

/-- **The end of a token** keeps the maps consistent. -/
theorem Consistent.removeJustificationsByToken (h : m.Consistent) (wme : τ) :
    Keeps m (m.removeJustificationsByToken wme).1 := by
  unfold SupportMaps.removeJustificationsByToken
  cases hids : m.tokens.supported.lookup wme with
  | none => exact ⟨h, fun _ hmentions ↦ hmentions⟩
  | some ids =>
    have hlist : m.tokens.supportedBy wme = ids := by
      rw [SupportMap.supportedBy, hids]
      rfl
    have hforget := @SupportMap.Inverse.forget _ _ _ _ m.tokens wme h.tokens
    rw [hlist] at hforget
    refine keeps_withdrawTokens (fun id hid ↦ .inl (.inr ⟨wme, hlist ▸ hid⟩))
      ⟨hforget, h.activations, fun id hmentions ↦ ?_⟩
    exact hmentions.imp_left SupportMap.mentions_forget

/-- What holds while an activation is withdrawn from the facts that are left. -/
structure WithdrawingActivation (m m' : SupportMaps τ) (hash : ℕ) (ids : List ℤ) : Prop where
  tokens : m'.tokens.Inverse
  activations : SupportMap.Withdrawing m'.activations hash ids
  mentions : ∀ id, m'.Mentions id → m.Mentions id

theorem WithdrawingActivation.round (h : WithdrawingActivation m m' hash (id :: ids))
    (hid : m.Mentions id) :
    WithdrawingActivation m (withdrawActivation hash (m', collected) id).1 hash ids := by
  have hwithdrawn : WithdrawingActivation m
      { m' with activations := m'.activations.withdraw hash id } hash ids := by
    refine ⟨h.tokens, h.activations.withdraw, fun id' hmem ↦ ?_⟩
    rcases hmem with hmem | hmem
    · exact h.mentions id' (.inl hmem)
    · rcases SupportMap.mentions_of_lookup_insert hmem with rfl | hmem
      · exact hid
      · exact h.mentions id' (.inr hmem)
  unfold withdrawActivation
  dsimp only
  by_cases hempty : (m'.activations.withdraw hash id).supportersOf id = []
  · rw [if_pos hempty]
    have htouched : WithdrawingActivation m
        ⟨m'.tokens.touch id, m'.activations.withdraw hash id⟩ hash ids := by
      refine ⟨h.tokens.touch, hwithdrawn.activations, fun id' hmem ↦ ?_⟩
      rcases hmem with hmem | hmem
      · rcases SupportMap.mentions_of_lookup_insert hmem with rfl | hmem
        · exact hid
        · exact h.mentions id' (.inl hmem)
      · exact hwithdrawn.mentions id' (.inr hmem)
    split
    · exact htouched
    · exact htouched
  · rw [if_neg hempty]
    exact hwithdrawn

theorem keeps_withdrawActivations (hids : ∀ id ∈ ids, m.Mentions id)
    (h : WithdrawingActivation m m' hash ids) :
    Keeps m (ids.foldl (withdrawActivation hash) (m', collected)).1 := by
  induction ids generalizing m' collected with
  | nil => exact ⟨⟨h.tokens, h.activations.inverse⟩, h.mentions⟩
  | cons id ids ih =>
    have hround := @WithdrawingActivation.round _ _ _ _ _ _ _ collected h
      (hids id List.mem_cons_self)
    exact ih (fun id' hid' ↦ hids id' (List.mem_cons_of_mem id hid')) hround

/-- **The end of an activation** keeps the maps consistent. -/
theorem Consistent.onActivationRetracted (h : m.Consistent) (hash : ℕ) :
    Keeps m (m.onActivationRetracted hash).1 := by
  unfold SupportMaps.onActivationRetracted
  cases hids : m.activations.supported.lookup hash with
  | none => exact ⟨h, fun _ hmentions ↦ hmentions⟩
  | some ids =>
    have hlist : m.activations.supportedBy hash = ids := by
      rw [SupportMap.supportedBy, hids]
      rfl
    have hforget := @SupportMap.Inverse.forget _ _ _ _ m.activations hash h.activations
    rw [hlist] at hforget
    refine keeps_withdrawActivations (fun id hid ↦ .inr (.inr ⟨hash, hlist ▸ hid⟩))
      ⟨h.tokens, hforget, fun id hmentions ↦ ?_⟩
    exact hmentions.imp_right SupportMap.mentions_forget

/-- **The retraction of a fact** keeps the maps consistent, and they do not mention it. -/
theorem Consistent.onFactRetracted (h : m.Consistent) (id : ℤ) :
    (m.onFactRetracted id).Consistent ∧
      ∀ id', (m.onFactRetracted id).Mentions id' → id' ≠ id ∧ m.Mentions id' := by
  refine ⟨⟨h.tokens.dropElement, h.activations.dropElement⟩, ?_⟩
  rintro id' (hmem | hmem)
  · obtain ⟨hne, hmem⟩ := SupportMap.mentions_dropElement h.tokens hmem
    exact ⟨hne, .inl hmem⟩
  · obtain ⟨hne, hmem⟩ := SupportMap.mentions_dropElement h.activations hmem
    exact ⟨hne, .inr hmem⟩

end SupportMaps

/-! ### Cascades -/

/-- What a network does at an event: it ends tokens, one after another, and goes on from what the
retractions in between have made of it. -/
inductive Reaction (τ ν : Type) where
  | done (network : ν)
  | ended (network : ν) (wme : τ) (resume : ν → Reaction τ ν)

/-- What the network is told. -/
inductive NetworkEvent where
  | asserted (id : ℤ)
  | modified (id : ℤ)
  | retracted (id : ℤ)
  | retractedBatch (ids : List ℤ)

/-- Working memory, the maps and the transaction of a rule's actions, with the facts it has added
and those it has yet to retract. `gone` are the facts that have been retracted and not added
again. -/
structure SupportState (τ ν : Type) where
  present : List ℤ := []
  gone : List ℤ := []
  supports : SupportMaps τ := {}
  inTransaction : Bool := false
  inserted : List ℤ := []
  deferred : List ℤ := []
  network : ν

section Cascades

variable {τ ν : Type} [DecidableEq τ] (react : ν → NetworkEvent → Reaction τ ν)

/-- The facts that have lost their support are retracted if they are there. -/
def retractCollected (retract : ℤ → SupportState τ ν → Option (SupportState τ ν)) (ids : List ℤ)
    (s : SupportState τ ν) : Option (SupportState τ ν) :=
  (ids.filter (· ∈ s.present)).foldlM (fun s id ↦ retract id s) s

/-- `logical_retract`. -/
def logicalRetractToken (retract : ℤ → SupportState τ ν → Option (SupportState τ ν)) (wme : τ)
    (s : SupportState τ ν) : Option (SupportState τ ν) :=
  let (supports, ids) := s.supports.removeJustificationsByToken wme
  retractCollected retract ids { s with supports := supports }

def runReaction (retract : ℤ → SupportState τ ν → Option (SupportState τ ν)) :
    Reaction τ ν → SupportState τ ν → Option (SupportState τ ν)
  | .done network, s => some { s with network := network }
  | .ended network wme resume, s =>
    match logicalRetractToken retract wme { s with network := network } with
    | none => none
    | some s => runReaction retract (resume s.network) s

/-- `add_fact`. -/
def addSupported (retract : ℤ → SupportState τ ν → Option (SupportState τ ν)) (id : ℤ)
    (s : SupportState τ ν) : Option (SupportState τ ν) :=
  runReaction retract (react s.network (.asserted id))
    { s with
      present := s.present.insert id
      gone := s.gone.filter (· ≠ id)
      inserted := if s.inTransaction then s.inserted ++ [id] else s.inserted }

/-- A fact that is not there is added again. -/
def restoreSupported (retract : ℤ → SupportState τ ν → Option (SupportState τ ν)) (id : ℤ)
    (s : SupportState τ ν) : Option (SupportState τ ν) :=
  if id ∈ s.present then some s else addSupported react retract id s

/-- The retraction of a fact outside of a transaction. -/
def removeSupported (retract : ℤ → SupportState τ ν → Option (SupportState τ ν)) (id : ℤ)
    (s : SupportState τ ν) : Option (SupportState τ ν) :=
  runReaction retract (react s.network (.retracted id))
    { s with
      present := s.present.filter (· ≠ id)
      gone := id :: s.gone
      supports := s.supports.onFactRetracted id }

/-- `retract_fact`, which gives nothing if the retractions in it have not ended within a depth. -/
def retractSupported : ℕ → ℤ → SupportState τ ν → Option (SupportState τ ν)
  | 0, _, _ => none
  | depth + 1, id, s =>
    if id ∉ s.present then some s
    else if s.inTransaction then some { s with deferred := s.deferred ++ [id] }
    else removeSupported react (retractSupported depth) id s

/-- One fact of `retract_facts` leaves working memory. -/
def takeOut (s : SupportState τ ν) (id : ℤ) : SupportState τ ν :=
  if id ∈ s.present then
    { s with
      present := s.present.filter (· ≠ id)
      gone := id :: s.gone
      deferred := if s.inTransaction then s.deferred ++ [id] else s.deferred }
  else s

/-- The operations of truth maintenance, and those of the session on facts. -/
inductive SupportOp (τ : Type) where
  | addFact (id : ℤ)
  | propagateModify (id : ℤ)
  | addJustification (wme : τ) (id : ℤ)
  | addLogicalDependency (hash : ℕ) (id : ℤ)
  | removeJustificationsByToken (wme : τ)
  | onActivationRetracted (hash : ℕ)
  | retractFact (id : ℤ)
  | retractFacts (ids : List ℤ)
  | beginRhsTransaction
  | endRhsTransaction (commit : Bool)

/-- An operation, with the retractions it causes, up to a depth. -/
def SupportOp.run (depth : ℕ) (s : SupportState τ ν) : SupportOp τ → Option (SupportState τ ν)
  | addFact id => addSupported react (retractSupported react depth) id s
  | propagateModify id =>
    if id ∈ s.present then
      runReaction (retractSupported react depth) (react s.network (.modified id)) s
    else some s
  | addJustification wme id => some { s with supports := s.supports.addJustification wme id }
  | addLogicalDependency hash id =>
    some { s with supports := s.supports.addLogicalDependency hash id }
  | removeJustificationsByToken wme => logicalRetractToken (retractSupported react depth) wme s
  | onActivationRetracted hash =>
    let (supports, ids) := s.supports.onActivationRetracted hash
    retractCollected (retractSupported react depth) ids { s with supports := supports }
  | retractFact id => retractSupported react depth id s
  | retractFacts ids =>
    runReaction (retractSupported react depth) (react s.network (.retractedBatch ids))
      (ids.foldl takeOut s)
  | beginRhsTransaction => some { s with inTransaction := true, inserted := [], deferred := [] }
  | endRhsTransaction commit =>
    if s.inTransaction then
      let ended := { s with inTransaction := false, inserted := [], deferred := [] }
      if commit then
        s.deferred.foldlM (fun s id ↦ removeSupported react (retractSupported react depth) id s)
          ended
      else
        -- what the transaction has added goes, the last first, and then the others come back
        (s.inserted.reverse.foldlM (fun s id ↦ retractSupported react depth id s) ended).bind
          (s.deferred.reverse.foldlM fun s id ↦
            restoreSupported react (retractSupported react depth) id s)
    else some s

end Cascades

/-! ### Cascades end -/

section Ends

variable {τ ν : Type} [DecidableEq τ] {react : ν → NetworkEvent → Reaction τ ν} {n : ℕ}
  {retract : ℤ → SupportState τ ν → Option (SupportState τ ν)} {s s' : SupportState τ ν}

/-- An operation ends where at most so many facts are present, and adds none. -/
def EndsBelow (n : ℕ) (f : SupportState τ ν → Option (SupportState τ ν)) : Prop :=
  ∀ s, s.present.length ≤ n → ∃ s', f s = some s' ∧ s'.present.length ≤ s.present.length

omit [DecidableEq τ] in
theorem endsBelow_foldlM {step : SupportState τ ν → ℤ → Option (SupportState τ ν)}
    (h : ∀ id, EndsBelow n fun s ↦ step s id) (ids : List ℤ) :
    EndsBelow n fun s ↦ ids.foldlM step s := by
  induction ids with
  | nil => exact fun s _ ↦ ⟨s, rfl, le_rfl⟩
  | cons id ids ih =>
    intro s hs
    obtain ⟨s₁, hstep, hle⟩ := h id s hs
    obtain ⟨s₂, hrest, hle'⟩ := ih s₁ (hle.trans hs)
    refine ⟨s₂, ?_, hle'.trans hle⟩
    have hfirst : step s id = some s₁ := hstep
    show List.foldlM step s (id :: ids) = some s₂
    rw [List.foldlM_cons, hfirst]
    exact hrest

theorem endsBelow_logicalRetractToken (h : ∀ id, EndsBelow n (retract id)) (wme : τ) :
    EndsBelow n (logicalRetractToken retract wme) := by
  intro s hs
  exact endsBelow_foldlM (fun id ↦ h id) _ { s with
    supports := (s.supports.removeJustificationsByToken wme).1 } hs

/-- A reaction ends if the retractions in it do. -/
theorem endsBelow_runReaction (h : ∀ id, EndsBelow n (retract id)) (reaction : Reaction τ ν) :
    EndsBelow n (runReaction retract reaction) := by
  induction reaction with
  | done network => exact fun s _ ↦ ⟨_, rfl, le_rfl⟩
  | ended network wme resume ih =>
    intro s hs
    obtain ⟨s₁, htoken, hle⟩ :=
      endsBelow_logicalRetractToken h wme { s with network := network } hs
    obtain ⟨s₂, hrest, hle'⟩ := ih s₁.network s₁ (hle.trans hs)
    refine ⟨s₂, ?_, hle'.trans hle⟩
    rw [runReaction, htoken]
    exact hrest

theorem endsBelow_removeSupported (h : ∀ id, EndsBelow n (retract id)) (id : ℤ) :
    EndsBelow n (removeSupported react retract id) := by
  intro s hs
  have hle : (s.present.filter (· ≠ id)).length ≤ s.present.length := List.length_filter_le _ _
  obtain ⟨s', hrun, hle'⟩ := endsBelow_runReaction h (react s.network (.retracted id))
    { s with
      present := s.present.filter (· ≠ id)
      gone := id :: s.gone
      supports := s.supports.onFactRetracted id } (hle.trans hs)
  exact ⟨s', hrun, hle'.trans hle⟩

/-- **A retraction ends** within one more step than there are facts: each one that causes others
takes a fact out of working memory. -/
theorem endsBelow_retractSupported (n : ℕ) (id : ℤ) :
    EndsBelow n (retractSupported react (n + 1) id) := by
  induction n generalizing id with
  | zero =>
    intro s hs
    have hnil : s.present = [] := List.length_eq_zero_iff.mp (Nat.le_zero.mp hs)
    refine ⟨s, ?_, le_rfl⟩
    rw [retractSupported, if_pos (by rw [hnil]; exact List.not_mem_nil)]
  | succ n ih =>
    intro s hs
    rw [retractSupported]
    by_cases hmem : id ∉ s.present
    · exact ⟨s, if_pos hmem, le_rfl⟩
    · rw [if_neg hmem]
      by_cases htransaction : s.inTransaction = true
      · exact ⟨_, if_pos htransaction, le_rfl⟩
      · rw [if_neg htransaction]
        -- the fact itself is not there any more
        have hlt : (s.present.filter (· ≠ id)).length < s.present.length :=
          List.length_filter_lt_length_iff_exists.mpr
            ⟨id, not_not.mp hmem, by simp⟩
        obtain ⟨s', hrun, hle⟩ := endsBelow_runReaction ih (react s.network (.retracted id))
          { s with
            present := s.present.filter (· ≠ id)
            gone := id :: s.gone
            supports := s.supports.onFactRetracted id }
          (Nat.le_of_lt_succ (hlt.trans_le hs))
        exact ⟨s', hrun, hle.trans hlt.le⟩

omit [DecidableEq τ] in
theorem length_takeOut (s : SupportState τ ν) (ids : List ℤ) :
    (ids.foldl takeOut s).present.length ≤ s.present.length := by
  induction ids generalizing s with
  | nil => exact le_rfl
  | cons id ids ih =>
    refine (ih (takeOut s id)).trans ?_
    unfold takeOut
    split
    · exact List.length_filter_le _ _
    · exact le_rfl

theorem exists_addSupported (h : ∀ id, EndsBelow n (retract id)) (id : ℤ)
    (hs : s.present.length + 1 ≤ n) :
    ∃ s', addSupported react retract id s = some s' ∧ s'.present.length ≤ s.present.length + 1 := by
  have hlength : (s.present.insert id).length ≤ s.present.length + 1 := by
    by_cases hmem : id ∈ s.present
    · rw [List.insert_of_mem hmem]
      exact Nat.le_succ _
    · rw [List.insert_of_not_mem hmem]
      exact le_rfl
  obtain ⟨s', hrun, hle⟩ := endsBelow_runReaction h (react s.network (.asserted id))
    { s with
      present := s.present.insert id
      gone := s.gone.filter (· ≠ id)
      inserted := if s.inTransaction then s.inserted ++ [id] else s.inserted }
    (hlength.trans hs)
  exact ⟨s', hrun, hle.trans hlength⟩

/-- The facts that come back may each cause retractions again. -/
theorem exists_foldlM_restoreSupported (h : ∀ id, EndsBelow n (retract id)) (ids : List ℤ)
    (hs : s.present.length + ids.length ≤ n) :
    ∃ s', ids.foldlM (fun s id ↦ restoreSupported react retract id s) s = some s' := by
  induction ids generalizing s with
  | nil => exact ⟨s, rfl⟩
  | cons id ids ih =>
    rw [List.length_cons] at hs
    have hfirst : ∃ s₁, restoreSupported react retract id s = some s₁ ∧
        s₁.present.length ≤ s.present.length + 1 := by
      unfold restoreSupported
      by_cases hmem : id ∈ s.present
      · exact ⟨s, if_pos hmem, Nat.le_succ _⟩
      · rw [if_neg hmem]
        exact exists_addSupported h id (by omega)
    obtain ⟨s₁, hstep, hle⟩ := hfirst
    obtain ⟨s₂, hrest⟩ := ih (s := s₁) (by omega)
    refine ⟨s₂, ?_⟩
    rw [List.foldlM_cons, hstep]
    exact hrest

/-- **Every operation ends.** -/
theorem SupportOp.exists_run (react : ν → NetworkEvent → Reaction τ ν) (op : SupportOp τ)
    (s : SupportState τ ν) : ∃ depth s', op.run react depth s = some s' := by
  have hretract : ∀ id, EndsBelow (s.present.length + s.deferred.length + 1)
      (retractSupported react (s.present.length + s.deferred.length + 2) id) :=
    endsBelow_retractSupported (s.present.length + s.deferred.length + 1)
  have hpresent : s.present.length ≤ s.present.length + s.deferred.length + 1 := by omega
  refine ⟨s.present.length + s.deferred.length + 2, ?_⟩
  cases op with
  | addFact id =>
    obtain ⟨s', hrun, -⟩ := @exists_addSupported _ _ _ react _ _ s hretract id (by omega)
    exact ⟨s', hrun⟩
  | propagateModify id =>
    by_cases hmem : id ∈ s.present
    · obtain ⟨s', hrun, -⟩ :=
        endsBelow_runReaction hretract (react s.network (.modified id)) s hpresent
      exact ⟨s', (if_pos hmem).trans hrun⟩
    · exact ⟨s, if_neg hmem⟩
  | addJustification wme id => exact ⟨_, rfl⟩
  | addLogicalDependency hash id => exact ⟨_, rfl⟩
  | removeJustificationsByToken wme =>
    obtain ⟨s', hrun, -⟩ := endsBelow_logicalRetractToken hretract wme s hpresent
    exact ⟨s', hrun⟩
  | onActivationRetracted hash =>
    obtain ⟨s', hrun, -⟩ := endsBelow_foldlM (fun id ↦ hretract id) _ { s with
      supports := (s.supports.onActivationRetracted hash).1 } hpresent
    exact ⟨s', hrun⟩
  | retractFact id =>
    obtain ⟨s', hrun, -⟩ := hretract id s hpresent
    exact ⟨s', hrun⟩
  | retractFacts ids =>
    obtain ⟨s', hrun, -⟩ := endsBelow_runReaction hretract (react s.network (.retractedBatch ids))
      (ids.foldl takeOut s) ((length_takeOut s ids).trans hpresent)
    exact ⟨s', hrun⟩
  | beginRhsTransaction => exact ⟨_, rfl⟩
  | endRhsTransaction commit =>
    by_cases htransaction : s.inTransaction = true
    · cases commit with
      | true =>
        obtain ⟨s', hrun, -⟩ := endsBelow_foldlM
          (fun id ↦ @endsBelow_removeSupported _ _ _ react _ _ hretract id) s.deferred
          { s with inTransaction := false, inserted := [], deferred := [] } hpresent
        exact ⟨s', (if_pos htransaction).trans hrun⟩
      | false =>
        obtain ⟨s₁, hremoved, hle⟩ := endsBelow_foldlM (fun id ↦ hretract id) s.inserted.reverse
          { s with inTransaction := false, inserted := [], deferred := [] } hpresent
        have hlength : s₁.present.length + s.deferred.reverse.length ≤
            s.present.length + s.deferred.length + 1 := by
          rw [List.length_reverse]
          have hle' : s₁.present.length ≤ s.present.length := hle
          omega
        obtain ⟨s₂, hrestored⟩ :=
          @exists_foldlM_restoreSupported _ _ _ react _ _ s₁ hretract s.deferred.reverse hlength
        refine ⟨s₂, (if_pos htransaction).trans ?_⟩
        exact (congrArg (Option.bind · _) hremoved).trans hrestored
    · exact ⟨s, if_neg htransaction⟩

end Ends

/-! ### Runs -/

section Runs

variable {τ ν : Type} [DecidableEq τ] {react : ν → NetworkEvent → Reaction τ ν}
  {retract : ℤ → SupportState τ ν → Option (SupportState τ ν)} {s s' : SupportState τ ν}

/-- **The invariant.** Each two maps say the same, and they have no fact that was retracted. -/
structure SupportInv (s : SupportState τ ν) : Prop where
  consistent : s.supports.Consistent
  gone : ∀ id, s.supports.Mentions id → id ∉ s.gone

/-- What an operation makes of a state with the invariant has it too. -/
def KeepsInv (f : SupportState τ ν → Option (SupportState τ ν)) : Prop :=
  ∀ s s', SupportInv s → f s = some s' → SupportInv s'

theorem SupportInv.of_keeps {supports : SupportMaps τ} (h : SupportInv s)
    (hkeeps : SupportMaps.Keeps s.supports supports) :
    SupportInv { s with supports := supports } where
  consistent := hkeeps.consistent
  gone id hmentions := h.gone id (hkeeps.mentions id hmentions)

/-- A fact that is not in the maps is taken out of working memory. -/
theorem SupportInv.takeOut {id : ℤ} (h : SupportInv s)
    (hid : id ∈ s.present → ¬s.supports.Mentions id) : SupportInv (takeOut s id) := by
  unfold RulesForge.takeOut
  by_cases hmem : id ∈ s.present
  · rw [if_pos hmem]
    refine ⟨h.consistent, fun id' hmentions hgone ↦ ?_⟩
    rcases List.mem_cons.mp hgone with rfl | hgone
    · exact hid hmem hmentions
    · exact h.gone id' hmentions hgone
  · rw [if_neg hmem]
    exact h

theorem SupportInv.takeOut_all {ids : List ℤ} (h : SupportInv s)
    (hids : ∀ id ∈ ids, id ∈ s.present → ¬s.supports.Mentions id) :
    SupportInv (ids.foldl RulesForge.takeOut s) := by
  induction ids generalizing s with
  | nil => exact h
  | cons id ids ih =>
    refine ih (h.takeOut (hids id List.mem_cons_self)) fun id' hid' hmem ↦ ?_
    -- the maps are as before, and no fact has come to be there
    unfold RulesForge.takeOut at hmem ⊢
    by_cases hpresent : id ∈ s.present
    · rw [if_pos hpresent] at hmem ⊢
      exact hids id' (List.mem_cons_of_mem id hid') (List.mem_filter.mp hmem).1
    · rw [if_neg hpresent] at hmem ⊢
      exact hids id' (List.mem_cons_of_mem id hid') hmem

theorem keepsInv_foldlM {step : SupportState τ ν → ℤ → Option (SupportState τ ν)}
    (h : ∀ id, KeepsInv fun s ↦ step s id) (ids : List ℤ) :
    KeepsInv fun s ↦ ids.foldlM step s := by
  induction ids with
  | nil =>
    intro s s' hinv hrun
    cases hrun
    exact hinv
  | cons id ids ih =>
    intro s s' hinv hrun
    have hrun : (step s id).bind (fun s ↦ ids.foldlM step s) = some s' := hrun
    obtain ⟨s₁, hstep, hrest⟩ := Option.bind_eq_some_iff.mp hrun
    exact ih s₁ s' (h id s s₁ hinv hstep) hrest

theorem keepsInv_logicalRetractToken (h : ∀ id, KeepsInv (retract id)) (wme : τ) :
    KeepsInv (logicalRetractToken retract wme) := by
  intro s s' hinv hrun
  exact keepsInv_foldlM (fun id ↦ h id) _ _ _
    (hinv.of_keeps (hinv.consistent.removeJustificationsByToken wme)) hrun

theorem keepsInv_runReaction (h : ∀ id, KeepsInv (retract id)) (reaction : Reaction τ ν) :
    KeepsInv (runReaction retract reaction) := by
  induction reaction with
  | done network =>
    intro s s' hinv hrun
    cases hrun
    exact ⟨hinv.consistent, hinv.gone⟩
  | ended network wme resume ih =>
    intro s s' hinv hrun
    rw [runReaction] at hrun
    cases htoken : logicalRetractToken retract wme { s with network := network } with
    | none =>
      rw [htoken] at hrun
      contradiction
    | some s₁ =>
      rw [htoken] at hrun
      have hinv₁ : SupportInv s₁ := keepsInv_logicalRetractToken h wme
        { s with network := network } s₁ ⟨hinv.consistent, hinv.gone⟩ htoken
      exact ih s₁.network s₁ s' hinv₁ hrun

theorem keepsInv_removeSupported (h : ∀ id, KeepsInv (retract id)) (id : ℤ) :
    KeepsInv (removeSupported react retract id) := by
  intro s s' hinv hrun
  obtain ⟨hconsistent, hmentions⟩ := hinv.consistent.onFactRetracted id
  refine keepsInv_runReaction h _ _ s' ⟨hconsistent, fun id' hmem hgone ↦ ?_⟩ hrun
  -- the maps do not have the fact that goes
  obtain ⟨hne, hmem⟩ := hmentions id' hmem
  exact hinv.gone id' hmem ((List.mem_cons.mp hgone).resolve_left hne)

/-- **A retraction keeps the invariant**, with all those it causes. -/
theorem keepsInv_retractSupported (depth : ℕ) (id : ℤ) :
    KeepsInv (retractSupported react depth id : SupportState τ ν → _) := by
  induction depth generalizing id with
  | zero =>
    intro s s' _ hrun
    contradiction
  | succ depth ih =>
    intro s s' hinv hrun
    rw [retractSupported] at hrun
    by_cases hmem : id ∉ s.present
    · rw [if_pos hmem] at hrun
      cases hrun
      exact hinv
    · rw [if_neg hmem] at hrun
      by_cases htransaction : s.inTransaction = true
      · rw [if_pos htransaction] at hrun
        cases hrun
        exact ⟨hinv.consistent, hinv.gone⟩
      · rw [if_neg htransaction] at hrun
        exact keepsInv_removeSupported ih id s s' hinv hrun

theorem keepsInv_addSupported (h : ∀ id, KeepsInv (retract id)) (id : ℤ) :
    KeepsInv (addSupported react retract id) := by
  intro s s' hinv hrun
  have hadded : SupportInv { s with
      present := s.present.insert id
      gone := s.gone.filter (· ≠ id)
      inserted := if s.inTransaction then s.inserted ++ [id] else s.inserted } :=
    ⟨hinv.consistent, fun id' hmem hgone ↦ hinv.gone id' hmem (List.mem_filter.mp hgone).1⟩
  exact keepsInv_runReaction h _ _ s' hadded hrun

theorem keepsInv_restoreSupported (h : ∀ id, KeepsInv (retract id)) (id : ℤ) :
    KeepsInv (restoreSupported react retract id) := by
  intro s s' hinv hrun
  unfold restoreSupported at hrun
  by_cases hmem : id ∈ s.present
  · rw [if_pos hmem] at hrun
    cases hrun
    exact hinv
  · rw [if_neg hmem] at hrun
    exact keepsInv_addSupported h id s s' hinv hrun

/-- Support is recorded for facts that have not been retracted, and `retract_facts` is given no
fact of working memory that the maps have. -/
def SupportOp.KeepsSupports (s : SupportState τ ν) : SupportOp τ → Prop
  | addJustification _ id => id ∉ s.gone
  | addLogicalDependency _ id => id ∉ s.gone
  | retractFacts ids => ∀ id ∈ ids, id ∈ s.present → ¬s.supports.Mentions id
  | _ => True

/-- **Every operation keeps the invariant** where it meets the condition. -/
theorem SupportInv.run {depth : ℕ} {op : SupportOp τ} (h : SupportInv s)
    (hop : op.KeepsSupports s) (hrun : op.run react depth s = some s') : SupportInv s' := by
  have hretract : ∀ id, KeepsInv (retractSupported react depth id : SupportState τ ν → _) :=
    keepsInv_retractSupported depth
  cases op with
  | addFact id => exact keepsInv_addSupported hretract id s s' h hrun
  | propagateModify id =>
    by_cases hmem : id ∈ s.present
    · exact keepsInv_runReaction hretract _ s s' h ((if_pos hmem).symm.trans hrun)
    · cases (if_neg hmem).symm.trans hrun
      exact h
  | addJustification wme id =>
    cases hrun
    refine ⟨⟨h.consistent.tokens.add, h.consistent.activations⟩, ?_⟩
    rintro id' (hmem | hmem)
    · rcases SupportMap.mentions_add hmem with rfl | hmem
      · exact hop
      · exact h.gone id' (.inl hmem)
    · exact h.gone id' (.inr hmem)
  | addLogicalDependency hash id =>
    cases hrun
    refine ⟨⟨h.consistent.tokens, h.consistent.activations.add⟩, ?_⟩
    rintro id' (hmem | hmem)
    · exact h.gone id' (.inl hmem)
    · rcases SupportMap.mentions_add hmem with rfl | hmem
      · exact hop
      · exact h.gone id' (.inr hmem)
  | removeJustificationsByToken wme =>
    exact keepsInv_logicalRetractToken hretract wme s s' h hrun
  | onActivationRetracted hash =>
    exact keepsInv_foldlM (fun id ↦ hretract id) _ _ _
      (h.of_keeps (h.consistent.onActivationRetracted hash)) hrun
  | retractFact id => exact hretract id s s' h hrun
  | retractFacts ids => exact keepsInv_runReaction hretract _ _ s' (h.takeOut_all hop) hrun
  | beginRhsTransaction =>
    cases hrun
    exact ⟨h.consistent, h.gone⟩
  | endRhsTransaction commit =>
    by_cases htransaction : s.inTransaction = true
    · have hrun := (if_pos htransaction).symm.trans hrun
      have hended : SupportInv { s with inTransaction := false, inserted := [], deferred := [] } :=
        ⟨h.consistent, h.gone⟩
      cases commit with
      | true =>
        exact keepsInv_foldlM (fun id ↦ keepsInv_removeSupported hretract id) s.deferred _ s'
          hended hrun
      | false =>
        obtain ⟨s₁, hremoved, hrestored⟩ := Option.bind_eq_some_iff.mp hrun
        have hinv₁ : SupportInv s₁ := keepsInv_foldlM (fun id ↦ hretract id) s.inserted.reverse _
          s₁ hended hremoved
        exact keepsInv_foldlM (fun id ↦ keepsInv_restoreSupported hretract id) _ s₁ s' hinv₁
          hrestored
    · cases (if_neg htransaction).symm.trans hrun
      exact h

/-- A run from an empty session, each operation meeting the condition. -/
inductive SupportRun (react : ν → NetworkEvent → Reaction τ ν) : SupportState τ ν → Prop where
  | start (network : ν) : SupportRun react { network := network }
  | step {s s' : SupportState τ ν} {op : SupportOp τ} (depth : ℕ) (run : SupportRun react s)
      (keeps : op.KeepsSupports s) (step : op.run react depth s = some s') : SupportRun react s'

theorem SupportRun.supportInv (h : SupportRun react s) : SupportInv s := by
  induction h with
  | start network =>
    have hmentions : ∀ id, ¬(({} : SupportMaps τ).Mentions id) := by
      rintro id ((hmem | ⟨_, hmem⟩) | (hmem | ⟨_, hmem⟩)) <;> contradiction
    refine ⟨⟨fun _ _ ↦ ?_, fun _ _ ↦ ?_⟩, fun id hmem ↦ absurd hmem (hmentions id)⟩ <;>
      exact iff_of_false List.not_mem_nil List.not_mem_nil
  | step depth _ keeps hrun ih => exact ih.run keeps hrun

/-- **The maps stay inverse and cascades end.** Every operation ends in every state, whatever the
network does, and the invariant holds in every state of a run that meets the condition. -/
theorem cascades_keep_supports :
    (∀ (op : SupportOp τ) (s : SupportState τ ν), ∃ depth s', op.run react depth s = some s') ∧
      ∀ s, SupportRun react s → SupportInv s :=
  ⟨fun op s ↦ op.exists_run react s, fun _ hrun ↦ hrun.supportInv⟩

end Runs

/-- Token 7 rests on fact 1 and token 9 on fact 2, so that two facts may support each other. -/
def endTwoTokens (network : Unit) : NetworkEvent → Reaction ℕ Unit
  | .retracted 1 => .ended network 7 fun network ↦ .done network
  | .retracted 2 => .ended network 9 fun network ↦ .done network
  | _ => .done network

/-- A cycle of two facts goes as a whole. -/
theorem cascades_keep_supports_cycle :
    ∃ s, [SupportOp.addFact 1, .addFact 2, .addJustification 7 2, .addJustification 9 1,
        .retractFact 1].foldlM (SupportOp.run endTwoTokens 3) { network := () } = some s ∧
      s.present = [] ∧ s.gone = [2, 1] ∧ SupportInv s := by
  refine ⟨_, rfl, rfl, rfl, (@cascades_keep_supports _ _ _ endTwoTokens).2 _ ?_⟩
  have hadded : SupportRun endTwoTokens { present := [2, 1], network := () } :=
    @SupportRun.step _ _ _ _ _ _ (.addFact 2) 3
      (@SupportRun.step _ _ _ _ _ _ (.addFact 1) 3 (.start ()) trivial rfl) trivial rfl
  exact @SupportRun.step _ _ _ _ _ _ (.retractFact 1) 3
    (@SupportRun.step _ _ _ _ _ _ (.addJustification 9 1) 3
      (@SupportRun.step _ _ _ _ _ _ (.addJustification 7 2) 3 hadded List.not_mem_nil rfl)
      List.not_mem_nil rfl) trivial rfl

/-- A fact that `retract_facts` takes out stays in the maps. -/
theorem batch_leaves_support :
    ∃ s, [SupportOp.addFact 1, .addJustification 7 1, .retractFacts [1]].foldlM
        (SupportOp.run endTwoTokens 3) { network := () } = some s ∧
      1 ∉ s.present ∧ 1 ∈ s.gone ∧ s.supports.Mentions 1 :=
  ⟨_, rfl, List.not_mem_nil, List.mem_cons_self, .inl (.inl rfl)⟩

end RulesForge
