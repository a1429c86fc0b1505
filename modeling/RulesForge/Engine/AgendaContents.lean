import RulesForge.Engine.AgendaInvariant

/-!
# What an agenda holds

Which activations are in the map and in the sets of the activation groups after an operation of
the agenda, as statements about membership. `Popped` is all that is known of a batch: its
activations come from the map, and those of the map that are not in the batch stay.
-/

namespace RulesForge

namespace Agenda

variable {agenda : Agenda}

/-! ### Activation groups -/

/-- A hash is in the set of an activation group. -/
def InGroup (agenda : Agenda) (group : String) (hash : ℕ) : Prop :=
  ∃ members, agenda.activationGroupMap.lookup group = some members ∧ hash ∈ members

theorem inGroup_congr {agenda' : Agenda}
    (h : agenda'.activationGroupMap = agenda.activationGroupMap) {group : String} {hash : ℕ} :
    agenda'.InGroup group hash ↔ agenda.InGroup group hash := by
  unfold InGroup
  rw [h]

/-- Joining a group adds one hash to one group. -/
theorem inGroup_joinGroup_iff {a : Activation} {group : String} {hash : ℕ} :
    (agenda.joinGroup a).InGroup group hash ↔
      agenda.InGroup group hash ∨ a.rule.activationGroup = some group ∧ hash = a.hashValue := by
  unfold joinGroup
  split
  · next hnone => simp [hnone]
  · next own hown =>
    by_cases hgroup : group = own
    · subst hgroup
      simp only [InGroup, AssocMap.lookup_insert_self, Option.some.injEq, hown, true_and]
      cases hlookup : agenda.activationGroupMap.lookup group with
      | none => simp
      | some members => simp [or_comm]
    · simp [InGroup, AssocMap.lookup_insert_ne hgroup, hown, Ne.symm hgroup]

/-- Leaving a group takes one hash from one group. -/
theorem inGroup_eraseFromGroup_iff {own group : String} {hash hash' : ℕ} :
    (agenda.eraseFromGroup own hash').InGroup group hash ↔
      agenda.InGroup group hash ∧ ¬ (group = own ∧ hash = hash') := by
  unfold eraseFromGroup
  split
  · next hnone =>
    refine ⟨fun h ↦ ⟨h, ?_⟩, fun h ↦ h.1⟩
    rintro ⟨rfl, -⟩
    obtain ⟨members, hmembers, -⟩ := h
    rw [hnone] at hmembers
    cases hmembers
  · next members hmembers =>
    by_cases hgroup : group = own
    · subst hgroup
      simp only [InGroup, true_and]
      split
      · next hempty =>
        simp only [AssocMap.lookup_erase_self, hmembers, Option.some.injEq]
        have hall := List.filter_eq_nil_iff.mp hempty
        simp only [ne_eq, decide_not, Bool.not_eq_true', decide_eq_false_iff_not, not_not] at hall
        simpa using hall hash
      · simp [hmembers]
    · have hlookup : (if members.filter (· ≠ hash') = [] then
          AssocMap.erase own agenda.activationGroupMap
          else AssocMap.insert own (members.filter (· ≠ hash')) agenda.activationGroupMap).lookup
            group = agenda.activationGroupMap.lookup group := by
        split
        · exact AssocMap.lookup_erase_ne hgroup _
        · exact AssocMap.lookup_insert_ne hgroup _ _
      simp only [InGroup, hlookup, hgroup, false_and, not_false_eq_true, and_true]

theorem InGroup.of_leaveGroup {rule : ParsedRule} {group : String} {hash hash' : ℕ}
    (h : (agenda.leaveGroup rule hash').InGroup group hash) : agenda.InGroup group hash := by
  unfold leaveGroup at h
  split at h
  · exact h
  · exact (inGroup_eraseFromGroup_iff.mp h).1

/-! ### Removing -/

/-- A removal takes out the entry of one hash. -/
theorem mem_remove_iff {hash hash' : ℕ} {a : Activation} :
    (hash, a) ∈ (agenda.remove hash').agendaMap ↔
      hash ≠ hash' ∧ (hash, a) ∈ agenda.agendaMap := by
  unfold remove
  split
  · next hnone =>
    refine ⟨fun h ↦ ⟨?_, h⟩, fun h ↦ h.2⟩
    rintro rfl
    exact AssocMap.lookup_eq_none_iff.mp hnone a h
  · exact AssocMap.mem_erase

theorem remove_delayed (hash : ℕ) :
    (agenda.remove hash).delayedActivations = agenda.delayedActivations := by
  unfold remove
  split
  · rfl
  · exact (agenda.sameEntries_leaveGroup _ hash).delayed

theorem InGroup.of_remove {group : String} {hash hash' : ℕ}
    (h : (agenda.remove hash').InGroup group hash) : agenda.InGroup group hash := by
  unfold remove at h
  split at h
  · exact h
  · next a _ =>
    obtain ⟨members, hmembers, hmem⟩ := h
    exact InGroup.of_leaveGroup ⟨members, hmembers, hmem⟩

theorem unique_remove (hunique : AssocMap.Unique agenda.agendaMap) (hash : ℕ) :
    AssocMap.Unique (agenda.remove hash).agendaMap := by
  unfold remove
  split
  · exact hunique
  · exact hunique.erase hash

/-- Some hashes leave the map. -/
structure Loses (agenda : Agenda) (lost : ℕ → Prop) (agenda' : Agenda) : Prop where
  unique : AssocMap.Unique agenda.agendaMap → AssocMap.Unique agenda'.agendaMap
  map : ∀ {hash b}, (hash, b) ∈ agenda'.agendaMap ↔ ¬ lost hash ∧ (hash, b) ∈ agenda.agendaMap
  delayed : agenda'.delayedActivations = agenda.delayedActivations
  groups : ∀ {group hash}, agenda'.InGroup group hash → agenda.InGroup group hash

theorem loses_remove (agenda : Agenda) (hash : ℕ) :
    agenda.Loses (· = hash) (agenda.remove hash) :=
  ⟨(unique_remove · hash), mem_remove_iff, remove_delayed hash, InGroup.of_remove⟩

/-- So do removals of a list of hashes. -/
theorem loses_foldl_remove {α : Type} (f : α → ℕ) (l : List α) (agenda : Agenda) :
    agenda.Loses (fun hash ↦ ∃ x ∈ l, hash = f x)
      (l.foldl (fun agenda x ↦ agenda.remove (f x)) agenda) := by
  induction l generalizing agenda with
  | nil => exact ⟨id, by simp, rfl, id⟩
  | cons x l ih =>
    have hfirst := agenda.loses_remove (f x)
    have hrest := ih (agenda.remove (f x))
    refine ⟨hrest.unique ∘ hfirst.unique, fun {hash b} ↦ ?_, hrest.delayed.trans hfirst.delayed,
      fun h ↦ hfirst.groups (hrest.groups h)⟩
    rw [List.foldl_cons, hrest.map, hfirst.map, List.exists_mem_cons_iff, not_or, ← and_assoc,
      and_comm (b := ¬ hash = f x)]

/-- The activations whose tokens hold the fact of an id leave. -/
theorem loses_removeActivationsWithFactId (agenda : Agenda) (factId : FactPtr → ℤ) (id : ℤ) :
    agenda.Loses
      (fun hash ↦ ∃ b, (hash, b) ∈ agenda.agendaMap ∧
        (b.token.facts.any fun p ↦ p ≠ 0 ∧ factId p = id) = true)
      (agenda.removeActivationsWithFactId factId id) := by
  obtain ⟨hunique, hmap, hdelayed, hgroups⟩ := agenda.loses_foldl_remove Prod.fst
    (agenda.agendaMap.filter fun entry ↦
      entry.2.token.facts.any fun p ↦ p ≠ 0 ∧ factId p = id)
  refine ⟨hunique, hmap.trans (and_congr_left fun _ ↦ not_congr ?_), hdelayed, hgroups⟩
  simp only [List.mem_filter, Prod.exists]
  constructor
  · rintro ⟨hash', b, ⟨hmem, htouches⟩, rfl⟩
    exact ⟨b, hmem, htouches⟩
  · rintro ⟨b, hmem, htouches⟩
    exact ⟨_, b, ⟨hmem, htouches⟩, rfl⟩

/-- Cancelling a group takes its other members out of the map. -/
theorem loses_cancelActivationGroup (agenda : Agenda) (group : String) (exceptHash : ℕ) :
    agenda.Loses (fun hash ↦ hash ≠ exceptHash ∧ agenda.InGroup group hash)
      (agenda.cancelActivationGroup group exceptHash) := by
  unfold cancelActivationGroup
  split
  · next hnone => exact ⟨id, by simp [InGroup, hnone], rfl, id⟩
  · next members hmembers =>
    obtain ⟨hunique, hmap, hdelayed, hgroups⟩ :=
      agenda.loses_foldl_remove id (members.filter (· ≠ exceptHash))
    have hsame := sameEntries_eraseFromGroup
      ((members.filter (· ≠ exceptHash)).foldl remove agenda) group exceptHash
    refine ⟨fun h ↦ ?_, fun {hash b} ↦ ?_, hsame.delayed.trans hdelayed,
      fun h ↦ hgroups (inGroup_eraseFromGroup_iff.mp h).1⟩
    · rw [hsame.map]
      exact hunique h
    · rw [hsame.map]
      refine hmap.trans (and_congr_left fun _ ↦ not_congr ?_)
      simp [InGroup, hmembers, and_comm]

/-! ### Adding -/

/-- One agenda holds what another one does, and some activations that were put there. An
activation takes the place of one with its hash. -/
structure Gains (agenda : Agenda) (added : List Activation) (agenda' : Agenda) : Prop where
  unique : AssocMap.Unique agenda.agendaMap → AssocMap.Unique agenda'.agendaMap
  map : ∀ {hash b}, (hash, b) ∈ agenda'.agendaMap →
    (hash, b) ∈ agenda.agendaMap ∨ b ∈ added ∧ hash = b.hashValue
  kept : ∀ {hash b}, (hash, b) ∈ agenda.agendaMap →
    (hash, b) ∈ agenda'.agendaMap ∨ ∃ a ∈ added, (hash, a) ∈ agenda'.agendaMap
  gained : ∀ {b}, b ∈ added → ∃ a ∈ added, (b.hashValue, a) ∈ agenda'.agendaMap
  delayed : agenda'.delayedActivations = agenda.delayedActivations
  groups : ∀ {group hash}, agenda'.InGroup group hash → agenda.InGroup group hash ∨
    ∃ a ∈ added, a.rule.activationGroup = some group ∧ hash = a.hashValue

namespace Gains

variable {agenda' agenda'' : Agenda} {added added' : List Activation}

theorem refl (agenda : Agenda) : agenda.Gains [] agenda :=
  ⟨id, .inl, .inl, fun h ↦ absurd h List.not_mem_nil, rfl, .inl⟩

/-- What is put there in two steps is put there. -/
theorem trans (h : agenda.Gains added agenda') (h' : agenda'.Gains added' agenda'') :
    agenda.Gains (added ++ added') agenda'' := by
  have hlast : ∀ {hash b}, b ∈ added → (hash, b) ∈ agenda'.agendaMap →
      ∃ a ∈ added ++ added', (hash, a) ∈ agenda''.agendaMap := by
    intro hash b hb hmem
    rcases h'.kept hmem with hmem | ⟨a, ha, hmem⟩
    · exact ⟨b, List.mem_append_left _ hb, hmem⟩
    · exact ⟨a, List.mem_append_right _ ha, hmem⟩
  refine ⟨h'.unique ∘ h.unique, fun hmem ↦ ?_, fun hmem ↦ ?_, fun hb ↦ ?_,
    h'.delayed.trans h.delayed, fun hgroup ↦ ?_⟩
  · rcases h'.map hmem with hmem | ⟨hb, hhash⟩
    · exact (h.map hmem).imp_right fun hb ↦ ⟨List.mem_append_left _ hb.1, hb.2⟩
    · exact .inr ⟨List.mem_append_right _ hb, hhash⟩
  · rcases h.kept hmem with hmem | ⟨a, ha, hmem⟩
    · refine (h'.kept hmem).imp_right fun ⟨a, ha, hmem⟩ ↦ ?_
      exact ⟨a, List.mem_append_right _ ha, hmem⟩
    · exact .inr (hlast ha hmem)
  · rcases List.mem_append.mp hb with hb | hb
    · obtain ⟨a, ha, hmem⟩ := h.gained hb
      exact hlast ha hmem
    · obtain ⟨a, ha, hmem⟩ := h'.gained hb
      exact ⟨a, List.mem_append_right _ ha, hmem⟩
  · rcases h'.groups hgroup with hgroup | ⟨a, ha, hgroup⟩
    · refine (h.groups hgroup).imp_right fun ⟨a, ha, hgroup⟩ ↦ ?_
      exact ⟨a, List.mem_append_left _ ha, hgroup⟩
    · exact .inr ⟨a, List.mem_append_right _ ha, hgroup⟩

/-- What adding and putting back have in common. -/
theorem enter (agenda : Agenda) (a : Activation) (queue : List (ℤ × ℕ)) :
    agenda.Gains [a] (joinGroup { agenda with
      agendaMap := AssocMap.insert a.hashValue a agenda.agendaMap
      agendaQueue := queue } a) := by
  have hsame := sameEntries_joinGroup { agenda with
    agendaMap := AssocMap.insert a.hashValue a agenda.agendaMap
    agendaQueue := queue } a
  have hself : (a.hashValue, a) ∈ AssocMap.insert a.hashValue a agenda.agendaMap :=
    AssocMap.mem_insert.mpr (.inr ⟨rfl, rfl⟩)
  refine ⟨fun hunique ↦ ?_, fun hmem ↦ ?_, fun {hash b} hmem ↦ ?_, fun hb ↦ ?_, hsame.delayed,
    fun hgroup ↦ ?_⟩
  · rw [hsame.map]
    exact hunique.insert _ _
  · rw [hsame.map] at hmem
    rcases AssocMap.mem_insert.mp hmem with ⟨-, hmem⟩ | ⟨rfl, rfl⟩
    · exact .inl hmem
    · exact .inr ⟨List.mem_singleton_self _, rfl⟩
  · rw [hsame.map]
    by_cases hhash : hash = a.hashValue
    · exact .inr ⟨a, List.mem_singleton_self a, hhash ▸ hself⟩
    · exact .inl (AssocMap.mem_insert.mpr (.inl ⟨hhash, hmem⟩))
  · cases List.mem_singleton.mp hb
    rw [hsame.map]
    exact ⟨_, List.mem_singleton_self _, hself⟩
  · refine (inGroup_joinGroup_iff.mp hgroup).imp_right fun ⟨hown, hhash⟩ ↦ ?_
    exact ⟨a, List.mem_singleton_self a, hown, hhash⟩

theorem add (agenda : Agenda) (a : Activation) : agenda.Gains [a] (agenda.add a) :=
  enter agenda a _

theorem addBatch (agenda : Agenda) (activations : List Activation) :
    agenda.Gains activations (agenda.addBatch activations) := by
  induction activations generalizing agenda with
  | nil => exact refl agenda
  | cons a activations ih => exact (add agenda a).trans (ih (agenda.add a))

/-- The rest of a batch that is put back is on the agenda again. -/
theorem requeueBatch (agenda : Agenda) (batch : List PoppedActivationItem) :
    agenda.Gains (batch.map PoppedActivationItem.activation)
      (agenda.requeueBatchActivations batch 0) := by
  unfold requeueBatchActivations
  rw [List.drop_zero]
  induction batch generalizing agenda with
  | nil => exact refl agenda
  | cons item batch ih => exact (enter agenda item.activation _).trans (ih (agenda.requeue item))

end Gains

/-! ### Popping -/

/-- A batch was popped. -/
structure Popped (agenda : Agenda) (batch : List PoppedActivationItem) (agenda' : Agenda) :
    Prop where
  unique : AssocMap.Unique agenda'.agendaMap
  map : ∀ {hash b}, (hash, b) ∈ agenda'.agendaMap → (hash, b) ∈ agenda.agendaMap
  kept : ∀ {hash b}, (hash, b) ∈ agenda.agendaMap →
    (hash, b) ∈ agenda'.agendaMap ∨ ∃ item ∈ batch, item.activation = b
  batch : ∀ item ∈ batch, ∃ hash, (hash, item.activation) ∈ agenda.agendaMap
  delayed : agenda'.delayedActivations = agenda.delayedActivations
  groups : ∀ {group hash}, agenda'.InGroup group hash → agenda.InGroup group hash

theorem popped_nil (hunique : AssocMap.Unique agenda.agendaMap) (queue deferred : List (ℤ × ℕ))
    (staleSkipped : ℕ) :
    agenda.Popped []
      ((pushBack { agenda with agendaQueue := queue } deferred).compactIfNeeded staleSkipped) := by
  unfold compactIfNeeded
  split
  · exact ⟨hunique, id, .inl, fun _ h ↦ absurd h List.not_mem_nil, rfl, id⟩
  · exact ⟨hunique, id, .inl, fun _ h ↦ absurd h List.not_mem_nil, rfl, id⟩

/-- One pass over a queue pops its activations from the map. -/
theorem popped_popNextBatchFrom (hunique : AssocMap.Unique agenda.agendaMap)
    (queue : List (ℤ × ℕ)) (room : ℕ) (deferred : List (ℤ × ℕ)) (staleSkipped : ℕ) :
    agenda.Popped (popNextBatchFrom queue room agenda deferred staleSkipped).1
      (popNextBatchFrom queue room agenda deferred staleSkipped).2 := by
  induction queue generalizing agenda room deferred staleSkipped with
  | nil => cases room <;> exact popped_nil hunique _ deferred staleSkipped
  | cons entry queue ih =>
    obtain ⟨salience, hash⟩ := entry
    cases room with
    | zero => exact popped_nil hunique _ deferred staleSkipped
    | succ room =>
      unfold popNextBatchFrom
      split
      · exact ih hunique _ _ _
      · next candidate hlookup =>
        split
        · have hcandidate := hunique.lookup_eq_some_iff.mp hlookup
          have hsame := agenda.sameEntries_leaveGroup candidate.rule hash
          set taken : Agenda := { agenda.leaveGroup candidate.rule hash with
            agendaMap := AssocMap.erase hash agenda.agendaMap }
          have hrest : taken.Popped (popNextBatchFrom queue room taken deferred staleSkipped).1
              (popNextBatchFrom queue room taken deferred staleSkipped).2 :=
            ih (hunique.erase hash) room deferred staleSkipped
          obtain ⟨hunique', hmap, hkept, hbatch, hdelayed, hgroups⟩ := hrest
          have herased : ∀ {hash' b}, (hash', b) ∈ AssocMap.erase hash agenda.agendaMap →
              (hash', b) ∈ agenda.agendaMap := fun h ↦ (AssocMap.mem_erase.mp h).2
          refine ⟨hunique', fun h ↦ herased (hmap h), fun {hash' b} h ↦ ?_, ?_,
            hdelayed.trans hsame.delayed, fun h ↦ ?_⟩
          · by_cases hhash : hash' = hash
            · subst hhash
              exact .inr ⟨_, List.mem_cons_self, hunique.eq_of_mem hcandidate h⟩
            · refine (hkept (AssocMap.mem_erase.mpr ⟨hhash, h⟩)).imp_right ?_
              rintro ⟨item, hitem, heq⟩
              exact ⟨item, List.mem_cons_of_mem _ hitem, heq⟩
          · refine List.forall_mem_cons.mpr ⟨⟨hash, hcandidate⟩, fun item hitem ↦ ?_⟩
            exact (hbatch item hitem).imp fun _ ↦ herased
          · obtain ⟨members, hmembers, hmem⟩ := hgroups h
            exact InGroup.of_leaveGroup ⟨members, hmembers, hmem⟩
        · exact ih hunique _ _ _

/-- **A batch is popped**: what it holds has left the map. -/
theorem popped (hunique : AssocMap.Unique agenda.agendaMap) (maxItems : ℕ) :
    agenda.Popped (agenda.popNextBatchActivations maxItems).1
      (agenda.popNextBatchActivations maxItems).2 := by
  unfold popNextBatchActivations
  split
  · exact ⟨hunique, id, .inl, fun _ h ↦ absurd h List.not_mem_nil, rfl, id⟩
  · exact popped_popNextBatchFrom hunique _ _ _ _

end Agenda

end RulesForge
