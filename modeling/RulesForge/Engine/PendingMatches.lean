import RulesForge.Engine.MatchEvents

/-!
# Pending matches

A match of a condition group is a token in the memory of the group's terminal node. As long as
no rule fires, every match ought to have its activation pending, with the token and the bindings
of its own group.

An activation is known to the agenda by a hash of the token and the rule alone. Two terminal
nodes that hold tokens with one hash share one place on the agenda: the later one takes it over,
and the first to end clears it. Where no activation is added while another match with its hash is
held, as the log of the session tells, every match has its activation (`pending_of_match`);
`sharedActivation_lost` is a rule with two groups over one fact, of which the end of the one match
loses the activation of the other.
-/

namespace RulesForge

/-! ### The agenda without firing -/

/-- An activation waits on the agenda, or for its time to come. -/
def Agenda.Pending (agenda : Agenda) (a : Activation) : Prop :=
  (a.hashValue, a) ∈ agenda.agendaMap ∨ ∃ time, (time, a) ∈ agenda.delayedActivations

/-- An agenda on which nothing is blocked. -/
structure Agenda.Open (agenda : Agenda) : Prop where
  unique : AssocMap.Unique agenda.agendaMap
  noLoop : agenda.noLoopBlocked = []
  lockOnActive : agenda.lockOnActiveBlocked = []

namespace Agenda

variable {agenda : Agenda} {a b : Activation}

theorem joinGroup_parts (agenda : Agenda) (a : Activation) :
    (agenda.joinGroup a).agendaMap = agenda.agendaMap ∧
      (agenda.joinGroup a).delayedActivations = agenda.delayedActivations ∧
      (agenda.joinGroup a).noLoopBlocked = agenda.noLoopBlocked ∧
      (agenda.joinGroup a).lockOnActiveBlocked = agenda.lockOnActiveBlocked := by
  unfold joinGroup
  split <;> exact ⟨rfl, rfl, rfl, rfl⟩

theorem leaveGroup_parts (agenda : Agenda) (rule : ParsedRule) (hash : ℕ) :
    (agenda.leaveGroup rule hash).delayedActivations = agenda.delayedActivations ∧
      (agenda.leaveGroup rule hash).noLoopBlocked = agenda.noLoopBlocked ∧
      (agenda.leaveGroup rule hash).lockOnActiveBlocked = agenda.lockOnActiveBlocked := by
  unfold leaveGroup
  split
  · exact ⟨rfl, rfl, rfl⟩
  · unfold eraseFromGroup
    split <;> exact ⟨rfl, rfl, rfl⟩

theorem Open.add (h : agenda.Open) (a : Activation) : (agenda.add a).Open := by
  unfold Agenda.add
  obtain ⟨hmap, -, hnoLoop, hlock⟩ := joinGroup_parts { agenda with
    agendaMap := AssocMap.insert a.hashValue a agenda.agendaMap
    agendaQueue := queuePush (a.rule.salience, a.hashValue) agenda.agendaQueue } a
  refine ⟨?_, hnoLoop.trans h.noLoop, hlock.trans h.lockOnActive⟩
  rw [hmap]
  exact h.unique.insert _ _

theorem Open.addWithDuration (h : agenda.Open) (now : ℤ) (a : Activation) :
    (agenda.addWithDuration now a).Open := by
  unfold Agenda.addWithDuration
  split
  · exact ⟨h.unique, h.noLoop, h.lockOnActive⟩
  · exact h.add a

theorem Open.addBatch (h : agenda.Open) (activations : List Activation) :
    (agenda.addBatch activations).Open :=
  List.foldlRecOn activations _ h fun _ h a _ ↦ h.add a

/-- An activation that was added is pending. -/
theorem pending_add (agenda : Agenda) (a : Activation) : (agenda.add a).Pending a := by
  refine .inl ?_
  rw [Agenda.add, (joinGroup_parts _ a).1]
  exact AssocMap.mem_insert.mpr (.inr ⟨rfl, rfl⟩)

theorem pending_addWithDuration (agenda : Agenda) (now : ℤ) (a : Activation) :
    (agenda.addWithDuration now a).Pending a := by
  unfold Agenda.addWithDuration
  split
  · exact .inr ⟨_, List.mem_append_right _ (List.mem_singleton_self _)⟩
  · exact agenda.pending_add a

/-- Another activation that is added leaves those with other hashes. -/
theorem Pending.add (h : agenda.Pending b) (hhash : b.hashValue ≠ a.hashValue) :
    (agenda.add a).Pending b := by
  unfold Agenda.add Agenda.Pending
  rw [(joinGroup_parts _ a).1, (joinGroup_parts _ a).2.1]
  exact h.imp (fun hmem ↦ AssocMap.mem_insert.mpr (.inl ⟨hhash, hmem⟩)) id

theorem Pending.addWithDuration (h : agenda.Pending b) (hhash : b.hashValue ≠ a.hashValue)
    (now : ℤ) : (agenda.addWithDuration now a).Pending b := by
  unfold Agenda.addWithDuration
  split
  · exact h.imp id fun ⟨time, htime⟩ ↦ ⟨time, List.mem_append_left _ htime⟩
  · exact h.add hhash

theorem Pending.addBatch (h : agenda.Pending b) {activations : List Activation}
    (hhash : ∀ a ∈ activations, b.hashValue ≠ a.hashValue) :
    (agenda.addBatch activations).Pending b :=
  List.foldlRecOn activations _ (motive := fun agenda : Agenda ↦ agenda.Pending b) h
    fun _ h a ha ↦ h.add (hhash a ha)

/-- An activation of a batch is pending, unless another one of the batch has its hash. -/
theorem pending_addBatch (agenda : Agenda) {activations : List Activation} (hb : b ∈ activations)
    (halone : ∀ a ∈ activations, a.hashValue = b.hashValue → a = b) :
    (agenda.addBatch activations).Pending b := by
  induction activations generalizing agenda with
  | nil => exact absurd hb List.not_mem_nil
  | cons a activations ih =>
    by_cases hlater : b ∈ activations
    · exact ih (agenda.add a) hlater fun a' ha' ↦ halone a' (List.mem_cons_of_mem _ ha')
    · obtain rfl := (List.mem_cons.mp hb).resolve_right hlater
      refine (agenda.pending_add b).addBatch fun a ha heq ↦ hlater ?_
      rwa [← halone a (List.mem_cons_of_mem _ ha) heq.symm]

theorem Open.remove (h : agenda.Open) (hash : ℕ) : (agenda.remove hash).Open := by
  unfold Agenda.remove
  split
  · exact h
  · next a _ =>
    obtain ⟨-, hnoLoop, hlock⟩ := agenda.leaveGroup_parts a.rule hash
    exact ⟨h.unique.erase hash, hnoLoop.trans h.noLoop, hlock.trans h.lockOnActive⟩

theorem Pending.remove (h : agenda.Pending b) {hash : ℕ} (hhash : b.hashValue ≠ hash) :
    (agenda.remove hash).Pending b := by
  unfold Agenda.remove
  split
  · exact h
  · next a _ =>
    unfold Agenda.Pending
    dsimp only
    rw [(agenda.leaveGroup_parts a.rule hash).1]
    exact h.imp (fun hmem ↦ AssocMap.mem_erase.mpr ⟨hhash, hmem⟩) id

/-- Removing never reaches the activations that wait for their time. -/
theorem foldl_remove_delayed (agenda : Agenda) (entries : List (ℕ × Activation)) :
    (entries.foldl (fun agenda entry ↦ agenda.remove entry.1) agenda).delayedActivations =
      agenda.delayedActivations := by
  induction entries generalizing agenda with
  | nil => rfl
  | cons entry entries ih =>
    refine (ih _).trans ?_
    dsimp only [Agenda.remove]
    split
    · rfl
    · exact (agenda.leaveGroup_parts _ entry.1).1

theorem Open.foldl_remove (h : agenda.Open) (entries : List (ℕ × Activation)) :
    (entries.foldl (fun agenda entry ↦ agenda.remove entry.1) agenda).Open := by
  induction entries generalizing agenda with
  | nil => exact h
  | cons entry entries ih => exact ih (h.remove entry.1)

theorem Pending.foldl_remove (h : agenda.Pending b) (entries : List (ℕ × Activation))
    (hhash : ∀ entry ∈ entries, b.hashValue ≠ entry.1) :
    (entries.foldl (fun agenda entry ↦ agenda.remove entry.1) agenda).Pending b := by
  induction entries generalizing agenda with
  | nil => exact h
  | cons entry entries ih =>
    obtain ⟨hentry, hentries⟩ := List.forall_mem_cons.mp hhash
    exact ih (h.remove hentry) hentries

/-- An activation whose token does not hold the fact stays. -/
theorem Pending.removeActivationsWithFactId (h : agenda.Pending b) (hopen : agenda.Open)
    {factId : FactPtr → ℤ} {id : ℤ} (hfacts : ∀ p ∈ b.token.facts, factId p ≠ id) :
    (agenda.removeActivationsWithFactId factId id).Pending b := by
  by_cases hmap : (b.hashValue, b) ∈ agenda.agendaMap
  · refine Pending.foldl_remove h _ fun entry hentry hhash ↦ ?_
    obtain ⟨hmem, hany⟩ := List.mem_filter.mp hentry
    have heq : entry.2 = b := by
      have hlookup := hopen.unique.lookup_eq_some_iff.mpr hmap
      rw [hhash, hopen.unique.lookup_eq_some_iff.mpr hmem] at hlookup
      exact Option.some_inj.mp hlookup
    obtain ⟨p, hp, hid⟩ := List.any_eq_true.mp hany
    rw [heq] at hp
    exact hfacts p hp (of_decide_eq_true hid).2
  · obtain ⟨time, htime⟩ := h.resolve_left hmap
    exact .inr ⟨time, (agenda.foldl_remove_delayed _).symm ▸ htime⟩

end Agenda

/-! ### The invariant -/

/-- A terminal node of a rule holds a token. -/
structure Held (kb : KnowledgeBase) (s : Session) (n rule : ℕ) (bindings : Bindings)
    (w : TokenWME) : Prop where
  kind : kb.network.kind n = .terminal rule bindings
  mem : w ∈ (s.mem n).terminal

/-- The matches that are held in some memories: terminal node, rule and token. -/
def heldMatches (kb : KnowledgeBase) (mem : ℕ → NodeMemory) : List (ℕ × ℕ × TokenWME) :=
  (List.range kb.network.nodes.length).flatMap fun n ↦
    match kb.network.kind n with
    | .terminal rule _ => (mem n).terminal.map fun w ↦ (n, rule, w)
    | _ => []

theorem mem_heldMatches {kb : KnowledgeBase} {s : Session} {n rule : ℕ} {bindings : Bindings}
    {w : TokenWME} (h : Held kb s n rule bindings w) : (n, rule, w) ∈ heldMatches kb s.mem := by
  refine List.mem_flatMap.mpr ⟨n, ?_, ?_⟩
  · refine List.mem_range.mpr (Nat.lt_of_not_le fun hle ↦ ?_)
    -- beyond the last node there is no terminal node
    have hkind := h.kind
    rw [CompiledNetwork.kind, CompiledNetwork.node, List.getElem?_eq_none hle] at hkind
    cases hkind
  · rw [h.kind]
    exact List.mem_map_of_mem h.mem

/-- What may happen in a state: an activation is added where one match at most is held with its hash
(its own), and a fact enters working memory when no terminal node holds a token with it. -/
def NoClash (kb : KnowledgeBase) (m : SessionData) : AgendaEvent → Prop
  | .added a _ => ∀ x ∈ heldMatches kb m.mem, ∀ y ∈ heldMatches kb m.mem,
      activationHash kb.hashes x.2.1 x.2.2 = a.hashValue →
      activationHash kb.hashes y.2.1 y.2.2 = a.hashValue → x = y
  | .entered fact => ∀ x ∈ heldMatches kb m.mem, fact ∉ x.2.2.facts
  | _ => True

instance (kb : KnowledgeBase) (m : SessionData) (e : AgendaEvent) : Decidable (NoClash kb m e) :=
  match e with
  | .added a _ => inferInstanceAs (Decidable (∀ x ∈ heldMatches kb m.mem,
      ∀ y ∈ heldMatches kb m.mem, activationHash kb.hashes x.2.1 x.2.2 = a.hashValue →
        activationHash kb.hashes y.2.1 y.2.2 = a.hashValue → x = y))
  | .entered fact => inferInstanceAs (Decidable (∀ x ∈ heldMatches kb m.mem, fact ∉ x.2.2.facts))
  | .ended _ | .left _ | .ticked _ | .popped | .fired _ | .skipped _ | .thrown => isTrue True.intro

/-- An activation that is added clashes with no match but its own. -/
theorem NoClash.eq_of_added {kb : KnowledgeBase} {s : Session} {a : Activation} {batched : Bool}
    (h : NoClash kb s.toSessionData (.added a batched)) {n rule n' rule' : ℕ}
    {bindings bindings' : Bindings} {w w' : TokenWME} (hw : Held kb s n rule bindings w)
    (hw' : Held kb s n' rule' bindings' w') (hhash : activationHash kb.hashes rule w = a.hashValue)
    (hhash' : activationHash kb.hashes rule' w' = a.hashValue) : n = n' ∧ w = w' := by
  have heq := h _ (mem_heldMatches hw) _ (mem_heldMatches hw') hhash hhash'
  simp only [Prod.mk.injEq] at heq
  exact ⟨heq.1, heq.2.2⟩

/-- The matches that are held have different hashes, and their activations are pending. -/
structure PendingInv (kb : KnowledgeBase) (s : Session) : Prop where
  nodup : ∀ n, (s.mem n).terminal.Nodup
  distinct : ∀ {n rule bindings w n' rule' bindings' w'}, Held kb s n rule bindings w →
    Held kb s n' rule' bindings' w' →
    activationHash kb.hashes rule w = activationHash kb.hashes rule' w' → n = n' ∧ w = w'
  ids : ∀ {id f}, (id, f) ∈ s.workingMemory.facts → (s.heap f).id = id ∧ id ≠ 0
  agenda : s.agenda.Open
  pending : ∀ {n rule bindings w}, Held kb s n rule bindings w → (∀ p ∈ w.facts, p ∈ s.facts) →
    s.agenda.Pending (activationOf kb rule (some bindings) w)

namespace PendingInv

variable {kb : KnowledgeBase} {s s' : Session}

theorem quiet (h : PendingInv kb s) (hquiet : Quiet s s') : PendingInv kb s' := by
  have hheld : ∀ {n rule bindings w}, Held kb s' n rule bindings w →
      Held kb s n rule bindings w := fun hw ↦ ⟨hw.kind, hquiet.terminal _ ▸ hw.mem⟩
  have hfacts : s'.facts = s.facts := by rw [Session.facts, hquiet.store, Session.facts]
  refine ⟨fun n ↦ ?_, fun hw hw' ↦ h.distinct (hheld hw) (hheld hw'), fun hf ↦ ?_, ?_, ?_⟩
  · rw [hquiet.terminal]
    exact h.nodup n
  · rw [hquiet.store] at hf
    obtain ⟨hid, hne⟩ := h.ids hf
    exact ⟨(hquiet.id _ (hid ▸ hne)).trans hid, hne⟩
  · rw [hquiet.agenda]
    exact h.agenda
  · intro n rule bindings w hw hall
    rw [hquiet.agenda]
    exact h.pending (hheld hw) (hfacts ▸ hall)

theorem agenda_applyAutoFocus (kb : KnowledgeBase) (rule : ℕ) (s : Session) :
    (applyAutoFocus kb rule s).agenda.agendaMap = s.agenda.agendaMap ∧
      (applyAutoFocus kb rule s).agenda.delayedActivations = s.agenda.delayedActivations ∧
      (applyAutoFocus kb rule s).agenda.noLoopBlocked = s.agenda.noLoopBlocked ∧
      (applyAutoFocus kb rule s).agenda.lockOnActiveBlocked = s.agenda.lockOnActiveBlocked := by
  unfold applyAutoFocus
  dsimp only
  split <;> exact ⟨rfl, rfl, rfl, rfl⟩

/-- Where nothing is blocked an activation is added. -/
theorem isBlocked_of_open (hopen : s.agenda.Open) (a : Activation) : s.isBlocked kb a = false := by
  simp [Session.isBlocked, Agenda.isNoloopBlocked, Agenda.isLockOnActiveBlocked, hopen.noLoop,
    hopen.lockOnActive]

theorem addActivation_of_open (hopen : s.agenda.Open) (a : Activation) :
    (s.addActivation kb a).agenda = s.agenda.addWithDuration s.now a := by
  simp [Session.addActivation, isBlocked_of_open hopen]

/-- Some matches begin at a terminal node, in a state `s'` that holds what `s` did and some new
tokens, whose activations are added. -/
theorem brings (h : PendingInv kb s) {n rule : ℕ} {bindings : Bindings} {l : List TokenWME}
    (hkind : kb.network.kind n = .terminal rule bindings) (hbase : s'.base = s.base)
    (hmem : ∀ m, (s'.mem m).terminal =
      if m = n then (s.mem n).terminal ++ l else (s.mem m).terminal)
    (hnodup : ((s.mem n).terminal ++ l).Nodup) (hopen : s'.agenda.Open)
    (hclash : ∀ w ∈ l, ∃ batched,
      NoClash kb s'.toSessionData (.added (activationOf kb rule (some bindings) w) batched))
    (hkept : ∀ b, (∀ w ∈ l, b.hashValue ≠ activationHash kb.hashes rule w) → s.agenda.Pending b →
      s'.agenda.Pending b)
    (hnew : ∀ w ∈ l, (∀ w' ∈ l,
      activationHash kb.hashes rule w' = activationHash kb.hashes rule w → w' = w) →
      s'.agenda.Pending (activationOf kb rule (some bindings) w)) : PendingInv kb s' := by
  obtain ⟨hheap, hstore, -, -⟩ := base_parts hbase
  have hnewHeld : ∀ {w}, w ∈ l → Held kb s' n rule bindings w := fun hw ↦
    ⟨hkind, by rw [hmem, if_pos rfl]; exact List.mem_append_right _ hw⟩
  -- A token that is held afterwards is a new one, or was held before.
  have hheld : ∀ {m rule' bindings' w'}, Held kb s' m rule' bindings' w' →
      Held kb s m rule' bindings' w' ∨ m = n ∧ rule' = rule ∧ bindings' = bindings ∧ w' ∈ l := by
    rintro m rule' bindings' w' ⟨hkind', hw'⟩
    rw [hmem] at hw'
    split at hw'
    · next hm =>
      subst hm
      rcases List.mem_append.mp hw' with hw' | hw'
      · exact .inl ⟨hkind', hw'⟩
      · rw [hkind] at hkind'
        cases hkind'
        exact .inr ⟨rfl, rfl, rfl, hw'⟩
    · exact .inl ⟨hkind', hw'⟩
  -- A l token clashes with no other one that is held.
  have halone : ∀ {w m rule' bindings' w'}, w ∈ l → Held kb s' m rule' bindings' w' →
      activationHash kb.hashes rule' w' = activationHash kb.hashes rule w → m = n ∧ w' = w := by
    intro w m rule' bindings' w' hw hw' hhash
    obtain ⟨batched, hfree⟩ := hclash w hw
    exact hfree.eq_of_added hw' (hnewHeld hw) hhash rfl
  refine ⟨fun m ↦ ?_, ?_, fun hf ↦ ?_, hopen, ?_⟩
  · rw [hmem]
    split
    · exact hnodup
    · exact h.nodup m
  · intro m rule₁ bindings₁ w₁ m' rule₂ bindings₂ w₂ hw₁ hw₂ heq
    rcases hheld hw₁ with hold₁ | ⟨rfl, rfl, -, hnew₁⟩
    · rcases hheld hw₂ with hold₂ | ⟨rfl, rfl, -, hnew₂⟩
      · exact h.distinct hold₁ hold₂ heq
      · exact halone hnew₂ hw₁ heq
    · obtain ⟨hm, hw⟩ := halone hnew₁ hw₂ heq.symm
      exact ⟨hm.symm, hw.symm⟩
  · rw [hstore] at hf
    rw [hheap]
    exact h.ids hf
  · intro m rule' bindings' w' hw' hall
    rw [facts_of_base hbase] at hall
    rcases hheld hw' with hold | ⟨rfl, rfl, rfl, hw⟩
    · refine hkept _ (fun w hw heq ↦ ?_) (h.pending hold hall)
      -- A held token with the hash of a l one would be the l one.
      obtain ⟨rfl, rfl⟩ := halone hw hw' heq
      exact (List.disjoint_of_nodup_append hnodup) hold.mem hw
    · exact hnew w' hw fun w'' hw'' heq ↦ (halone hw (hnewHeld hw'') heq).2

/-- One match begins. -/
theorem begins (h : PendingInv kb s) {n rule : ℕ} {bindings : Bindings} {w : TokenWME}
    (henabled : (MatchEvent.begins n rule bindings w).Enabled kb s)
    (hclash : ∀ entry ∈ (MatchEvent.begins n rule bindings w).entries kb s,
      NoClash kb entry.1 entry.2) :
    PendingInv kb ((MatchEvent.begins n rule bindings w).apply kb s) := by
  obtain ⟨hkind, hfresh⟩ := henabled
  set a := activationOf kb rule (some bindings) w with ha
  set s' := (MatchEvent.begins n rule bindings w).apply kb s with hs'
  have hbase : s'.base = s.base := by
    simp only [hs', MatchEvent.apply, applyAutoFocus_base, addActivation_base]
    rfl
  have hmem : s'.mem = (updateTerminal n (· ++ [w]) s).mem := by
    simp only [hs', MatchEvent.apply, applyAutoFocus_mem, addActivation_mem]
  obtain ⟨hmap, hdelayed, hnoLoop, hlock⟩ := agenda_applyAutoFocus kb rule
    ((updateTerminal n (· ++ [w]) s).addActivation kb a)
  have hadd : ((updateTerminal n (· ++ [w]) s).addActivation kb a).agenda =
      s.agenda.addWithDuration s.now a :=
    addActivation_of_open (s := updateTerminal n (· ++ [w]) s) h.agenda a
  rw [hadd] at hmap hdelayed hnoLoop hlock
  have hopen := h.agenda.addWithDuration s.now a
  have hpending : ∀ {b}, (s.agenda.addWithDuration s.now a).Pending b → s'.agenda.Pending b := by
    intro b hb
    unfold Agenda.Pending
    rw [show s'.agenda.agendaMap = _ from hmap,
      show s'.agenda.delayedActivations = _ from hdelayed]
    exact hb
  refine h.brings (l := [w]) hkind hbase (fun m ↦ ?_) ?_ ⟨?_, ?_, ?_⟩ (fun w' hw' ↦ ?_)
    (fun b hb hold ↦ ?_) fun w' hw' _ ↦ ?_
  · rw [hmem]
    by_cases hm : m = n
    · subst hm
      simp [updateTerminal]
    · simp [updateTerminal, hm]
  · exact (h.nodup n).append (List.nodup_singleton w) (List.disjoint_singleton.mpr hfresh)
  · rw [show s'.agenda.agendaMap = _ from hmap]
    exact hopen.unique
  · exact hnoLoop.trans hopen.noLoop
  · exact hlock.trans hopen.lockOnActive
  · cases List.mem_singleton.mp hw'
    have hentry : ((updateTerminal n (· ++ [w]) s).toSessionData, AgendaEvent.added a false) ∈
        (MatchEvent.begins n rule bindings w).entries kb s := by
      simp only [MatchEvent.entries]
      rw [isBlocked_of_open (s := updateTerminal n (· ++ [w]) s) h.agenda]
      exact List.mem_singleton_self _
    have hfree : NoClash kb (updateTerminal n (· ++ [w]) s).toSessionData (.added a false) :=
      hclash _ hentry
    refine ⟨false, ?_⟩
    unfold NoClash at hfree ⊢
    dsimp only at hfree ⊢
    rw [show s'.toSessionData.mem = _ from hmem]
    exact hfree
  · exact hpending (Agenda.Pending.addWithDuration (a := a) hold (hb w (List.mem_singleton_self w))
      s.now)
  · cases List.mem_singleton.mp hw'
    exact hpending (s.agenda.pending_addWithDuration s.now a)

variable (kb) in
/-- The new tokens of a batch, each once and with its activation. -/
theorem batchMatches_spec (n rule : ℕ) (bindings : Bindings) (wmes : List TokenWME) (s : Session)
    (hnodup : (s.mem n).terminal.Nodup) :
    ∃ new : List TokenWME, ((s.mem n).terminal ++ new).Nodup ∧
      (batchMatches kb n rule bindings wmes s).2 = new.map (activationOf kb rule (some bindings)) ∧
      ∀ m, ((batchMatches kb n rule bindings wmes s).1.mem m).terminal =
        if m = n then (s.mem n).terminal ++ new else (s.mem m).terminal := by
  refine List.foldlRecOn wmes _
    (motive := fun x : Session × List Activation ↦ ∃ new : List TokenWME,
      ((s.mem n).terminal ++ new).Nodup ∧
        x.2 = new.map (activationOf kb rule (some bindings)) ∧
        ∀ m, (x.1.mem m).terminal =
          if m = n then (s.mem n).terminal ++ new else (s.mem m).terminal)
    ⟨[], by simpa using hnodup, rfl, fun m ↦ by split <;> simp_all⟩ ?_
  rintro ⟨s', added⟩ ⟨new, hnew, hadded, hmem⟩ w -
  dsimp only at hadded hmem ⊢
  split
  · exact ⟨new, hnew, hadded, hmem⟩
  · next hw =>
    rw [hmem, if_pos rfl] at hw
    refine ⟨new ++ [w], ?_, ?_, fun m ↦ ?_⟩
    · rw [← List.append_assoc]
      exact hnew.append (List.nodup_singleton w) (List.disjoint_singleton.mpr hw)
    · rw [hadded, List.map_append, List.map_singleton]
    · by_cases hm : m = n
      · subst hm
        simp [updateTerminal, hmem]
      · simp [updateTerminal, hm, hmem]

/-- The matches of a batch begin. -/
theorem batch (h : PendingInv kb s) {n rule : ℕ} {bindings : Bindings} {wmes : List TokenWME}
    (hkind : kb.network.kind n = .terminal rule bindings)
    (hclash : ∀ entry ∈ (MatchEvent.batch n rule bindings wmes).entries kb s,
      NoClash kb entry.1 entry.2) :
    PendingInv kb ((MatchEvent.batch n rule bindings wmes).apply kb s) := by
  obtain ⟨hbase, hagenda, -⟩ := batchMatches_silent kb n rule bindings wmes s
  obtain ⟨new, hnodup, hadded, hmem⟩ :=
    batchMatches_spec kb n rule bindings wmes s (h.nodup n)
  show PendingInv kb (terminalLeftBatch kb n rule bindings wmes s)
  rw [terminalLeftBatch_eq]
  set s₁ := (batchMatches kb n rule bindings wmes s).1 with hs₁
  split
  · next hnone =>
    rw [hadded, List.map_eq_nil_iff] at hnone
    subst hnone
    refine h.brings (l := []) hkind hbase hmem hnodup (hagenda ▸ h.agenda) ?_ ?_ ?_
    · exact fun w hw ↦ absurd hw List.not_mem_nil
    · exact fun b _ hb ↦ hagenda ▸ hb
    · exact fun w hw ↦ absurd hw List.not_mem_nil
  · set s₂ := applyAutoFocus kb rule s₁ with hs₂
    obtain ⟨hmap, hdelayed, hnoLoop, hlock⟩ := agenda_applyAutoFocus kb rule s₁
    have hopen : s₂.agenda.Open := by
      refine ⟨?_, ?_, ?_⟩
      · rw [hmap, hagenda]
        exact h.agenda.unique
      · rw [hnoLoop, hagenda]
        exact h.agenda.noLoop
      · rw [hlock, hagenda]
        exact h.agenda.lockOnActive
    set added := new.map (activationOf kb rule (some bindings)) with hadds
    have haccepted : (added.filter fun a ↦ !s₂.isBlocked kb a) = added :=
      List.filter_eq_self.mpr fun a _ ↦ by rw [isBlocked_of_open hopen]; rfl
    have hend : (s₂.addActivationsBatch kb (batchMatches kb n rule bindings wmes s).2).agenda =
        s₂.agenda.addBatch added := by
      unfold Session.addActivationsBatch
      dsimp only
      rw [hadded, haccepted]
    have hend_mem : (s₂.addActivationsBatch kb (batchMatches kb n rule bindings wmes s).2).mem =
        s₁.mem := applyAutoFocus_mem _
    have hpending : ∀ {b}, s.agenda.Pending b → s₂.agenda.Pending b := by
      intro b hb
      unfold Agenda.Pending
      rw [hmap, hdelayed, hagenda]
      exact hb
    refine h.brings (l := new) hkind ?_ (fun m ↦ ?_) hnodup ?_ (fun w hw ↦ ⟨true, ?_⟩)
      (fun b hb hold ↦ ?_) fun w hw hone ↦ ?_
    · show s₂.base = s.base
      exact (applyAutoFocus_base _).trans hbase
    · rw [hend_mem]
      exact hmem m
    · rw [hend]
      exact hopen.addBatch added
    · have hentry : (s₂.toSessionData, AgendaEvent.added (activationOf kb rule (some bindings) w) true)
          ∈ (MatchEvent.batch n rule bindings wmes).entries kb s := by
        simp only [MatchEvent.entries]
        rw [hadded, haccepted]
        exact List.mem_map_of_mem (List.mem_map_of_mem hw)
      have hfree := hclash _ hentry
      unfold NoClash at hfree ⊢
      dsimp only at hfree ⊢
      rw [hend_mem]
      rw [show s₂.mem = s₁.mem from applyAutoFocus_mem _] at hfree
      exact hfree
    · rw [hend]
      refine (hpending hold).addBatch fun a ha ↦ ?_
      obtain ⟨w, hw, rfl⟩ := List.mem_map.mp ha
      exact hb w hw
    · rw [hend]
      refine s₂.agenda.pending_addBatch (List.mem_map_of_mem hw) fun a ha heq ↦ ?_
      obtain ⟨w', hw', rfl⟩ := List.mem_map.mp ha
      rw [hone w' hw' heq]

theorem ends (h : PendingInv kb s) {n rule : ℕ} {bindings : Bindings} {w : TokenWME}
    (henabled : (MatchEvent.ends n rule bindings w).Enabled kb s) :
    PendingInv kb ((MatchEvent.ends n rule bindings w).apply kb s) := by
  set s' := (MatchEvent.ends n rule bindings w).apply kb s with hs'
  have hmem : ∀ m, (s'.mem m).terminal =
      if m = n then (s.mem n).terminal.erase w else (s.mem m).terminal := by
    intro m
    by_cases hm : m = n
    · subst hm
      simp [hs', MatchEvent.apply, updateTerminal, Session.removeActivation]
    · simp [hs', MatchEvent.apply, updateTerminal, Session.removeActivation, hm]
  have hheld : ∀ {m rule' bindings' w'}, Held kb s' m rule' bindings' w' →
      Held kb s m rule' bindings' w' ∧ ¬ (m = n ∧ w' = w) := by
    rintro m rule' bindings' w' ⟨hkind', hw'⟩
    rw [hmem] at hw'
    split at hw'
    · next hm =>
      subst hm
      obtain ⟨hne, hw'⟩ := (h.nodup m).mem_erase_iff.mp hw'
      exact ⟨⟨hkind', hw'⟩, fun heq ↦ hne heq.2⟩
    · next hm => exact ⟨⟨hkind', hw'⟩, fun heq ↦ hm heq.1⟩
  refine ⟨fun m ↦ ?_, fun hw₁ hw₂ ↦ h.distinct (hheld hw₁).1 (hheld hw₂).1, h.ids,
    h.agenda.remove _, ?_⟩
  · rw [hmem]
    split
    · exact (h.nodup n).erase w
    · exact h.nodup m
  · intro m rule' bindings' w' hw' hall
    obtain ⟨hold, hne⟩ := hheld hw'
    refine (h.pending hold hall).remove fun heq ↦ hne ?_
    exact h.distinct hold ⟨henabled.1, henabled.2⟩ heq

theorem enters (h : PendingInv kb s) {fact : FactPtr}
    (henabled : (MatchEvent.enters fact).Enabled kb s)
    (hclash : NoClash kb s.toSessionData (.entered fact)) :
    PendingInv kb ((MatchEvent.enters fact).apply kb s) := by
  refine ⟨h.nodup, fun hw₁ hw₂ ↦ h.distinct ⟨hw₁.kind, hw₁.mem⟩ ⟨hw₂.kind, hw₂.mem⟩, ?_, h.agenda,
    ?_⟩
  · intro id f hf
    rcases AssocMap.mem_insert.mp hf with ⟨-, hf⟩ | ⟨rfl, rfl⟩
    · exact h.ids hf
    · exact ⟨rfl, henabled⟩
  · intro n rule bindings w hw hall
    have hold : Held kb s n rule bindings w := ⟨hw.kind, hw.mem⟩
    refine h.pending hold fun p hp ↦ ?_
    obtain ⟨id, hid⟩ := hall p hp
    rcases AssocMap.mem_insert.mp hid with ⟨-, hid⟩ | ⟨-, rfl⟩
    · exact ⟨id, hid⟩
    · exact absurd hp (hclash _ (mem_heldMatches hold))

theorem leaves (h : PendingInv kb s) (fact : FactPtr) :
    PendingInv kb ((MatchEvent.leaves fact).apply kb s) := by
  refine ⟨h.nodup, fun hw₁ hw₂ ↦ h.distinct ⟨hw₁.kind, hw₁.mem⟩ ⟨hw₂.kind, hw₂.mem⟩,
    fun hf ↦ h.ids (AssocMap.mem_erase.mp hf).2, h.agenda.foldl_remove _, ?_⟩
  intro n rule bindings w hw hall
  have hpending := h.pending ⟨hw.kind, hw.mem⟩ fun p hp ↦
    (hall p hp).imp fun id hid ↦ (AssocMap.mem_erase.mp hid).2
  refine hpending.removeActivationsWithFactId h.agenda fun p hp ↦ ?_
  -- The facts of the token are still there, so none of them has the id of the one that left.
  obtain ⟨id, hid⟩ := hall p hp
  obtain ⟨hne, hid⟩ := AssocMap.mem_erase.mp hid
  exact fun heq ↦ hne ((h.ids hid).1.symm.trans heq)

theorem focuses (h : PendingInv kb s) (group : String) :
    PendingInv kb ((MatchEvent.focuses group).apply kb s) :=
  ⟨h.nodup, fun hw₁ hw₂ ↦ h.distinct ⟨hw₁.kind, hw₁.mem⟩ ⟨hw₂.kind, hw₂.mem⟩, h.ids,
    ⟨h.agenda.unique, h.agenda.noLoop, h.agenda.lockOnActive⟩,
    fun hw hall ↦ h.pending ⟨hw.kind, hw.mem⟩ hall⟩

theorem clears (h : PendingInv kb s) : PendingInv kb (MatchEvent.clears.apply kb s) := by
  have hnone : ∀ {id f}, (id, f) ∉ (clearWorkingMemory s).workingMemory.facts := List.not_mem_nil
  refine ⟨h.nodup, fun hw₁ hw₂ ↦ h.distinct ⟨hw₁.kind, hw₁.mem⟩ ⟨hw₂.kind, hw₂.mem⟩,
    fun hf ↦ absurd hf hnone, h.agenda, fun hw hall ↦ ?_⟩
  refine h.pending ⟨hw.kind, hw.mem⟩ fun p hp ↦ ?_
  obtain ⟨id, hid⟩ := hall p hp
  exact absurd hid hnone

/-- **Every step keeps the invariant** where no entry of the log is a clash. -/
theorem step (h : PendingInv kb s) (hstep : MatchStep kb s s')
    (hclash : ∀ entry ∈ s'.log, NoClash kb entry.1 entry.2) : PendingInv kb s' := by
  cases hstep with
  | quiet hquiet => exact h.quiet hquiet
  | event e henabled =>
    have hentries : ∀ entry ∈ e.entries kb s, NoClash kb entry.1 entry.2 := by
      intro entry hentry
      refine hclash entry ?_
      rw [e.apply_log]
      exact List.mem_append_right _ hentry
    cases e with
    | begins n rule bindings w => exact h.begins henabled hentries
    | batch n rule bindings wmes => exact h.batch henabled hentries
    | ends n rule bindings w => exact h.ends henabled
    | enters fact => exact h.enters henabled (hentries _ (List.mem_singleton_self _))
    | leaves fact => exact h.leaves fact
    | focuses group => exact h.focuses group
    | clears => exact h.clears

theorem start (kb : KnowledgeBase) (heap : Heap) : PendingInv kb (startSession kb heap) := by
  obtain ⟨hbase, hmem⟩ := startSession_parts kb heap
  have hstore := (base_parts hbase).2.1
  have hnone : ∀ {n rule bindings w}, ¬ Held kb (startSession kb heap) n rule bindings w := by
    rintro n rule bindings w ⟨-, hw⟩
    rw [hmem] at hw
    exact absurd hw List.not_mem_nil
  have hopen : (startSession kb heap).agenda.Open := by
    have hfold : ∀ (l : List (ParsedRule × ℕ)) (s : Session), s.agenda.Open →
        (l.foldl (fun s entry ↦
          if entry.1.enabled && entry.1.hasNoConditions then
            s.addActivation kb (activationOf kb entry.2 none .root)
          else s) s).agenda.Open := by
      intro l
      induction l with
      | nil => exact fun s h ↦ h
      | cons entry l ih =>
        intro s h
        refine ih _ ?_
        dsimp only
        split
        · rw [addActivation_of_open h]
          exact h.addWithDuration _ _
        · exact h
    exact hfold _ _ ⟨List.nodup_nil, rfl, rfl⟩
  refine ⟨fun n ↦ ?_, fun hw ↦ absurd hw hnone, fun hf ↦ ?_, hopen, fun hw ↦ absurd hw hnone⟩
  · rw [hmem]
    exact List.nodup_nil
  · rw [hstore] at hf
    exact absurd hf List.not_mem_nil

end PendingInv

/-! ### Runs -/

/-- **Every match has its activation pending**, with the token and the bindings of its own group,
after every sequence of operations without firing in which no activation is added while another
match with its hash is held, and no fact enters working memory while a terminal node holds a token
with it. -/
theorem pending_of_match (kb : KnowledgeBase) (steps : ℕ) (heap : Heap) (ops : List SessionOp)
    (hclash : ∀ entry ∈ (runSession kb steps ops (newSession kb steps heap)).log,
      NoClash kb entry.1 entry.2) :
    let s := runSession kb steps ops (newSession kb steps heap)
    ∀ {n rule bindings w}, kb.network.kind n = .terminal rule bindings →
      w ∈ (s.mem n).terminal → (∀ p ∈ w.facts, p ∈ s.facts) →
      s.agenda.Pending (activationOf kb rule (some bindings) w) := by
  intro s n rule bindings w hkind hw hfacts
  have hinv : PendingInv kb s := run_invariant MatchStep.log
    (G := fun log ↦ ∀ entry ∈ log, NoClash kb entry.1 entry.2)
    (fun hlog entry hentry ↦ hlog entry (List.mem_append_left _ hentry))
    (fun hstep hlog h ↦ h.step hstep hlog) (runSession_steps kb steps heap ops) hclash
    (PendingInv.start kb heap)
  exact hinv.pending ⟨hkind, hw⟩ hfacts

/-- A pattern `not T()`. -/
def notPattern (type : String) : ParsedPattern :=
  { type := .not, nestedPatterns := [{ factType := type }] }

/-- A knowledge base of one rule, without schema and without expressions. Tokens are numbered
and rules lie far above them. -/
def oneRuleBase (rule : ParsedRule) : KnowledgeBase where
  rules := [rule]
  network := (compileNetwork [rule]).toOption.getD {}
  runtime := noExpressions
  hashes := ⟨fun p ↦ p, fun | .root => 0 | .mk a _ _ => a, fun rule ↦ 2 ^ 32 * (rule + 1)⟩
  validate := fun _ ↦ true
  nestingLimit := 1

def emptyHeap : Heap := fun _ ↦ { type := "A" }

/-- The rule `(A(), not C()) or (B(), not C())`. -/
def anyBase : KnowledgeBase :=
  oneRuleBase { name := "any", conditionGroups :=
    [[{ factType := "A" }, notPattern "C"], [{ factType := "B" }, notPattern "C"]] }

/-- An `A` at address `1`, a `C` at address `4` and a `B` at every other address. -/
def anyHeap : Heap := fun p ↦ { type := if p = 1 then "A" else if p = 4 then "C" else "B" }

/-- An `A` and two `B` come, the `A` changes, a `C` ends all matches and goes, and a `B` goes. -/
def anyOps : List SessionOp :=
  [.add 1, .addFacts [2, 3], .modify 1 [("x", .int64 5)] none, .add 4, .retract 4, .retract 3]

/-- Both groups have their activations at the end. -/
theorem pending_of_match_any :
    let s := runSession anyBase 1 anyOps (newSession anyBase 1 anyHeap)
    s.agenda.Pending (activationOf anyBase 0 (some []) (.mk 4 .root 1)) ∧
      s.agenda.Pending (activationOf anyBase 0 (some []) (.mk 2 .root 2)) := by
  intro s
  have hclash : ∀ entry ∈ s.log, NoClash anyBase entry.1 entry.2 := by decide +kernel
  have hstore : s.workingMemory.facts = [(1, 1), (2, 2)] := by decide +kernel
  have hfacts : ∀ {id : ℤ} {p : FactPtr}, (id, p) ∈ [((1 : ℤ), (1 : FactPtr)), (2, 2)] →
      ∀ q ∈ [p], q ∈ s.facts := by
    intro id p hp q hq
    cases List.mem_singleton.mp hq
    exact ⟨id, hstore ▸ hp⟩
  have hpending := @pending_of_match anyBase 1 anyHeap anyOps hclash
  exact ⟨hpending (n := 4) rfl (by decide +kernel) (hfacts List.mem_cons_self),
    hpending (n := 8) rfl (by decide +kernel) (hfacts (List.mem_cons_of_mem _ List.mem_cons_self))⟩

/-- The rule `(A(), not B()) or (A(), not C())`. -/
def eitherBase : KnowledgeBase :=
  oneRuleBase { name := "either", conditionGroups :=
    [[{ factType := "A" }, notPattern "B"], [{ factType := "A" }, notPattern "C"]] }

/-- An `A` at address `1` and a `C` at every other address. -/
def eitherHeap : Heap := fun p ↦ { type := if p = 1 then "A" else "C" }

/-- **A shared activation is lost**: after an `A` and a `C` have been added the first group still
matches the `A`, and nothing is pending. -/
theorem sharedActivation_lost :
    let s := runSession eitherBase 1 [.add 1, .add 2] (newSession eitherBase 1 eitherHeap)
    eitherBase.network.kind 4 = .terminal 0 [] ∧ .mk 1 .root 1 ∈ (s.mem 4).terminal ∧
      (∀ p ∈ (TokenWME.mk 1 .root 1).facts, p ∈ s.facts) ∧ ∀ a, ¬ s.agenda.Pending a := by
  intro s
  have hmap : s.agenda.agendaMap.length = 0 := by decide +kernel
  have hdelayed : s.agenda.delayedActivations.length = 0 := by decide +kernel
  have hstore : s.workingMemory.facts = [(1, 1), (2, 2)] := by decide +kernel
  refine ⟨rfl, by decide +kernel, fun p hp ↦ ?_, ?_⟩
  · cases List.mem_singleton.mp hp
    exact ⟨1, by rw [hstore]; exact List.mem_cons_self⟩
  · rintro a (ha | ⟨time, ha⟩)
    · rw [List.eq_nil_of_length_eq_zero hmap] at ha
      exact absurd ha List.not_mem_nil
    · rw [List.eq_nil_of_length_eq_zero hdelayed] at ha
      exact absurd ha List.not_mem_nil

end RulesForge
