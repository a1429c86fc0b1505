import RulesForge.Engine.EngineRuns
import RulesForge.Engine.PendingMatches

/-!
# Activation groups

Of an activation group one activation is meant to fire: when it does, the others that are pending
at that moment are cancelled, and none of them fires unless it is added again. The events of a run
tell whether this was so (`Exclusive`).

The cancelled ones are those that the set of the group names and the map holds. An activation that
was popped with the batch has left both, and the end of a call clears the sets while the map
stays. Where each firing that the log records found the pending members of its group in the map and
in the set, the group is exclusive, over any number of calls (`exclusive_of_covered`);
`sameBatch_bothFire` is a call that fires two members of one batch.
-/

namespace RulesForge

/-! ### The property -/

/-- Whether an activation is barred from firing, after an event: another one of its group has
fired, and it was not added since. -/
def AgendaEvent.bar (b : Activation) (barred : Bool) : AgendaEvent → Bool
  | .fired a => barred || (decide (a.hashValue ≠ b.hashValue) && a.rule.activationGroup.isSome &&
      decide (a.rule.activationGroup = b.rule.activationGroup))
  | .added a _ => barred && decide (a.hashValue ≠ b.hashValue)
  | _ => barred

/-- Whether an activation is barred from firing, after some events. -/
def barred (trace : List AgendaEvent) (b : Activation) : Bool :=
  trace.foldl (AgendaEvent.bar b) false

/-- No activation fires while it is barred. -/
def Exclusive (trace : List AgendaEvent) : Prop :=
  ∀ before b after, trace = before ++ .fired b :: after → barred before b = false

theorem barred_append_fired (past : List AgendaEvent) (a b : Activation) :
    barred (past ++ [.fired a]) b = (barred past b ||
      (decide (a.hashValue ≠ b.hashValue) && a.rule.activationGroup.isSome &&
        decide (a.rule.activationGroup = b.rule.activationGroup))) := by
  simp [barred, AgendaEvent.bar]

/-- Without a firing nothing becomes barred, and what is added is not. -/
theorem barred_append_unfired {past events : List AgendaEvent} {b : Activation}
    (hunfired : ∀ a, .fired a ∉ events)
    (h : barred past b = false ∨ ∃ batched, .added b batched ∈ events) :
    barred (past ++ events) b = false := by
  unfold barred at h ⊢
  rw [List.foldl_append]
  generalize past.foldl (AgendaEvent.bar b) false = start at h ⊢
  induction events generalizing start with
  | nil => exact h.resolve_right fun ⟨_, h⟩ ↦ absurd h List.not_mem_nil
  | cons e events ih =>
    have hrest : ∀ a, .fired a ∉ events := fun a ha ↦ hunfired a (List.mem_cons_of_mem _ ha)
    refine ih hrest (AgendaEvent.bar b start e) ?_
    rcases h with rfl | ⟨batched, h⟩
    · cases e with
      | fired a => exact absurd List.mem_cons_self (hunfired a)
      | _ => exact .inl rfl
    · rcases List.mem_cons.mp h with rfl | h
      · exact .inl (by simp [AgendaEvent.bar])
      · exact .inr ⟨batched, h⟩

theorem Exclusive.append_unfired {past events : List AgendaEvent} (h : Exclusive past)
    (hunfired : ∀ a, .fired a ∉ events) : Exclusive (past ++ events) := by
  intro before b after heq
  rcases List.append_eq_append_iff.mp heq with ⟨rest, rfl, hrest⟩ | ⟨rest, hpast, hrest⟩
  · have hfired : .fired b ∈ events := hrest ▸ List.mem_append_right _ List.mem_cons_self
    exact absurd hfired (hunfired b)
  · cases rest with
    | nil =>
      have hfired : .fired b ∈ events := by
        rw [List.nil_append] at hrest
        exact hrest ▸ List.mem_cons_self
      exact absurd hfired (hunfired b)
    | cons e rest =>
      obtain ⟨rfl, -⟩ := List.cons_eq_cons.mp hrest
      exact h before b rest hpast

theorem Exclusive.append_fired {past : List AgendaEvent} {a : Activation} (h : Exclusive past)
    (hfree : barred past a = false) : Exclusive (past ++ [.fired a]) := by
  intro before b after heq
  rcases List.eq_nil_or_concat after with rfl | ⟨rest, e, rfl⟩
  · obtain ⟨rfl, hlast⟩ := List.append_inj' heq rfl
    cases hlast
    exact hfree
  · rw [List.concat_eq_append, ← List.cons_append, ← List.append_assoc] at heq
    exact h before b rest (List.append_inj' heq rfl).1

/-! ### The invariant -/

/-- An activation waits on the agenda, for its time to come, or in the batch. -/
def Waits (agenda : Agenda) (batch : List PoppedActivationItem) (b : Activation) : Prop :=
  (∃ hash, (hash, b) ∈ agenda.agendaMap) ∨ (∃ time, (time, b) ∈ agenda.delayedActivations) ∨
    ∃ item ∈ batch, item.activation = b

/-- Another activation of the same group. -/
def Rival (a b : Activation) : Prop :=
  b.rule.activationGroup = a.rule.activationGroup ∧ b.hashValue ≠ a.hashValue

/-- The firing of an activation reaches every rival that waits: it is in the map and in the set of
the group, and neither delayed nor in the batch. -/
def GroupCovered (a : Activation) (agenda : Agenda) (batch : List PoppedActivationItem) : Prop :=
  ∀ group ∈ a.rule.activationGroup,
    (∀ entry ∈ agenda.agendaMap, Rival a entry.2 → agenda.InGroup group entry.1) ∧
      (∀ d ∈ agenda.delayedActivations, ¬ Rival a d.2) ∧ ∀ item ∈ batch, ¬ Rival a item.activation

instance (a b : Activation) : Decidable (Rival a b) :=
  inferInstanceAs (Decidable (_ ∧ _))

instance (agenda : Agenda) (group : String) (hash : ℕ) : Decidable (agenda.InGroup group hash) :=
  decidable_of_iff (hash ∈ (agenda.activationGroupMap.lookup group).getD []) (by
    unfold Agenda.InGroup
    cases agenda.activationGroupMap.lookup group <;> simp)

instance (a : Activation) (agenda : Agenda) (batch : List PoppedActivationItem) :
    Decidable (GroupCovered a agenda batch) :=
  inferInstanceAs (Decidable (∀ group ∈ a.rule.activationGroup, _ ∧ _ ∧ _))

/-- A firing that the log records found its rivals so. -/
def FiringCovered : SessionData × AgendaEvent → Prop
  | (m, .fired a) => GroupCovered a m.agenda m.batch
  | _ => True

instance (entry : SessionData × AgendaEvent) : Decidable (FiringCovered entry) :=
  match entry with
  | (m, .fired a) => inferInstanceAs (Decidable (GroupCovered a m.agenda m.batch))
  | (_, .added _ _) | (_, .ended _) | (_, .left _) | (_, .entered _) | (_, .ticked _) | (_, .popped)
  | (_, .skipped _) | (_, .thrown) => isTrue True.intro

/-- What waits after a step waited before, or was added. -/
theorem AgendaStep.waits {Ok : Activation → Agenda → List PoppedActivationItem → Prop} {agenda agenda' : Agenda}
    {batch batch' : List PoppedActivationItem} {events : List AgendaEvent}
    (h : AgendaStep Ok agenda batch events agenda' batch') (hkeyed : agenda.Keyed)
    {b : Activation} (hb : Waits agenda' batch' b) :
    Waits agenda batch b ∨ ∃ batched, .added b batched ∈ events := by
  cases h with
  | same _ hmap hdelayed _ =>
    unfold Waits at hb
    rw [hmap, hdelayed] at hb
    exact .inl hb
  | adds batched hgains =>
    rcases hb with ⟨hash, hb⟩ | hb | hb
    · rcases hgains.map hb with hb | ⟨hb, -⟩
      · exact .inl (.inl ⟨hash, hb⟩)
      · exact .inr ⟨batched, List.mem_map_of_mem hb⟩
    · rw [hgains.delayed] at hb
      exact .inl (.inr (.inl hb))
    · exact .inl (.inr (.inr hb))
  | delays time hmap hdelayed _ =>
    rcases hb with hb | ⟨time', hb⟩ | hb
    · rw [hmap] at hb
      exact .inl (.inl hb)
    · rw [hdelayed] at hb
      rcases List.mem_append.mp hb with hb | hb
      · exact .inl (.inr (.inl ⟨time', hb⟩))
      · cases List.mem_singleton.mp hb
        exact .inr ⟨false, List.mem_cons_self⟩
    · exact .inl (.inr (.inr hb))
  | ends hloses =>
    refine .inl (hb.imp ?_ (Or.imp_left ?_))
    · exact fun ⟨hash, hb⟩ ↦ ⟨hash, (hloses.map.mp hb).2⟩
    · exact fun hb ↦ hloses.delayed ▸ hb
  | leaves hloses =>
    refine .inl (hb.imp ?_ (Or.imp_left ?_))
    · exact fun ⟨hash, hb⟩ ↦ ⟨hash, (hloses.map.mp hb).2⟩
    · exact fun hb ↦ hloses.delayed ▸ hb
  | pops hpopped =>
    have hpopped := hpopped hkeyed.unique
    rcases hb with ⟨hash, hb⟩ | hb | ⟨item, hitem, rfl⟩
    · exact .inl (.inl ⟨hash, hpopped.map hb⟩)
    · rw [hpopped.delayed] at hb
      exact .inl (.inr (.inl hb))
    · exact .inl (.inl (hpopped.batch item hitem))
  | requeues hgains =>
    rcases hb with ⟨hash, hb⟩ | hb | ⟨item, hitem, -⟩
    · rcases hgains.map hb with hb | ⟨hb, -⟩
      · exact .inl (.inl ⟨hash, hb⟩)
      · exact .inl (.inr (.inr (List.mem_map.mp hb)))
    · rw [hgains.delayed] at hb
      exact .inl (.inr (.inl hb))
    · exact absurd hitem List.not_mem_nil
  | skips =>
    refine .inl (hb.imp_right (Or.imp_right ?_))
    exact fun ⟨item, hitem, heq⟩ ↦ ⟨item, List.mem_cons_of_mem _ hitem, heq⟩
  | fires _ hloses =>
    refine .inl (hb.imp ?_ (Or.imp ?_ ?_))
    · exact fun ⟨hash, hb⟩ ↦ ⟨hash, (hloses.map.mp hb).2⟩
    · exact fun hb ↦ hloses.delayed ▸ hb
    · exact fun ⟨item, hitem, heq⟩ ↦ ⟨item, List.mem_cons_of_mem _ hitem, heq⟩
  | throws =>
    refine .inl (hb.imp_right (Or.imp_right ?_))
    exact fun ⟨item, hitem, _⟩ ↦ absurd hitem List.not_mem_nil
  | flushes now ready hready hgains =>
    rcases hb with ⟨hash, hb⟩ | ⟨time, hb⟩ | hb
    · rcases hgains.map hb with hb | ⟨hb, -⟩
      · exact .inl (.inl ⟨hash, hb⟩)
      · obtain ⟨time, -, hb⟩ := (hready b).mp hb
        exact .inl (.inr (.inl ⟨time, hb⟩))
    · rw [hgains.delayed] at hb
      exact .inl (.inr (.inl ⟨time, (List.mem_filter.mp hb).1⟩))
    · exact .inl (.inr (.inr hb))

/-- What waits is not barred, and no barred activation has fired. -/
structure GroupInv (past : List AgendaEvent) (agenda : Agenda)
    (batch : List PoppedActivationItem) : Prop where
  keyed : agenda.Keyed
  free : ∀ {b}, Waits agenda batch b → barred past b = false
  exclusive : Exclusive past

namespace GroupInv

variable {past events : List AgendaEvent} {agenda agenda' : Agenda}
  {batch batch' : List PoppedActivationItem}

/-- A step without a firing. -/
theorem unfired (h : GroupInv past agenda batch)
    (hstep : AgendaStep GroupCovered agenda batch events agenda' batch')
    (hunfired : ∀ a, .fired a ∉ events) : GroupInv (past ++ events) agenda' batch' := by
  refine ⟨h.keyed.step hstep, fun hb ↦ ?_, h.exclusive.append_unfired hunfired⟩
  exact barred_append_unfired hunfired ((hstep.waits h.keyed hb).imp_left h.free)

/-- A firing. -/
theorem fires {item : PoppedActivationItem} (h : GroupInv past agenda (item :: batch))
    (hcovered : GroupCovered item.activation agenda (item :: batch))
    (hloses : agenda.Loses (fun hash ↦ hash ≠ item.activation.hashValue ∧
      ∃ group, item.activation.rule.activationGroup = some group ∧ agenda.InGroup group hash)
      agenda') :
    GroupInv (past ++ [.fired item.activation]) agenda' batch := by
  have hstep : AgendaStep GroupCovered agenda (item :: batch) [.fired item.activation] agenda'
      batch := .fires hcovered hloses
  have hitem : Waits agenda (item :: batch) item.activation :=
    .inr (.inr ⟨item, List.mem_cons_self, rfl⟩)
  refine ⟨h.keyed.step hstep, fun {b} hb ↦ ?_, h.exclusive.append_fired (h.free hitem)⟩
  have hold : Waits agenda (item :: batch) b := by
    refine (hstep.waits h.keyed hb).resolve_right ?_
    rintro ⟨batched, hadded⟩
    cases List.mem_singleton.mp hadded
  rw [barred_append_fired, h.free hold, Bool.false_or, Bool.and_eq_false_iff, Bool.and_eq_false_iff]
  by_contra hbar
  simp only [decide_eq_false_iff_not, not_or, not_not, Bool.not_eq_false] at hbar
  obtain ⟨⟨hhash, hsome⟩, hsame⟩ := hbar
  obtain ⟨group, hgroup⟩ := Option.isSome_iff_exists.mp hsome
  have hrival : Rival item.activation b := ⟨hsame.symm, Ne.symm hhash⟩
  -- A rival that still waits has escaped the cancellation.
  obtain ⟨hmap, hdelayed, hbatch⟩ := hcovered group hgroup
  rcases hb with ⟨hash, hb⟩ | ⟨time, hb⟩ | ⟨other, hother, rfl⟩
  · obtain ⟨hkept, hb⟩ := hloses.map.mp hb
    refine hkept ⟨?_, group, hgroup, hmap _ hb hrival⟩
    rw [h.keyed.key hb]
    exact hrival.2
  · rw [hloses.delayed] at hb
    exact hdelayed _ hb hrival
  · exact hbatch other (List.mem_cons_of_mem _ hother) hrival

theorem step (h : GroupInv past agenda batch)
    (hstep : AgendaStep GroupCovered agenda batch events agenda' batch') :
    GroupInv (past ++ events) agenda' batch' := by
  cases hstep with
  | fires hcovered hloses => exact h.fires hcovered hloses
  | same hneutral hmap hdelayed hgroups =>
    exact h.unfired (.same hneutral hmap hdelayed hgroups) fun a ha ↦ hneutral _ ha
  | adds batched hgains => exact h.unfired (.adds batched hgains) (by simp)
  | delays time hmap hdelayed hgroups =>
    exact h.unfired (.delays time hmap hdelayed hgroups) (by simp)
  | ends hloses => exact h.unfired (.ends hloses) (by simp)
  | leaves hloses => exact h.unfired (.leaves hloses) (by simp)
  | pops hpopped => exact h.unfired (.pops hpopped) (by simp)
  | requeues hgains => exact h.unfired (.requeues hgains) (by simp)
  | skips => exact h.unfired .skips (by simp)
  | throws => exact h.unfired .throws (by simp)
  | flushes now ready hready hgains =>
    exact h.unfired (.flushes now ready hready hgains) (by simp)

theorem start : GroupInv [] {} [] := by
  refine ⟨.empty, fun _ ↦ rfl, fun before b after heq ↦ ?_⟩
  simp at heq

end GroupInv

/-! ### Runs -/

/-- A step of a session keeps the invariant, where the log says that its firing is covered. -/
theorem FireStep.groupInv {kb : KnowledgeBase} {s s' : Session} (hstep : FireStep kb s s')
    (hcovered : ∀ entry ∈ s'.log, FiringCovered entry) (h : GroupInv s.events s.agenda s.batch) :
    GroupInv s'.events s'.agenda s'.batch := by
  obtain ⟨entries, hlogs, hagenda⟩ := hstep.agendaStep GroupCovered
    fun m a hfired ↦ hcovered (m, .fired a) hfired
  rw [hlogs.events]
  exact h.step hagenda

/-- **Activation groups are exclusive** after every sequence of operations and of calls of
`fire_all_rules` each of whose firings found the rivals that waited in the map and in the set of the
group. -/
theorem exclusive_of_covered (kb : KnowledgeBase) (steps : ℕ) (heap : Heap) (ops : List EngineOp)
    {s : Session} (h : runEngine kb steps ops (newSession kb steps heap) = some s)
    (hcovered : ∀ entry ∈ s.log, FiringCovered entry) : Exclusive s.events := by
  have hinv : GroupInv s.events s.agenda s.batch := (runEngine_run kb steps heap ops h).2.invariant
    (G := fun log ↦ ∀ entry ∈ log, FiringCovered entry)
    (P := fun s ↦ GroupInv s.events s.agenda s.batch)
    (fun hlog entry hentry ↦ hlog entry (List.mem_append_left _ hentry))
    (fun hstep hlog hs ↦ hstep.groupInv hlog hs) hcovered .start
  exact hinv.exclusive

/-- A knowledge base of some rules, as `oneRuleBase` is of one. -/
def rulesBase (rules : List ParsedRule) : KnowledgeBase :=
  { oneRuleBase { name := "" } with
    rules := rules
    network := (compileNetwork rules).toOption.getD {} }

/-- Right-hand sides that do nothing. -/
def idleEnv : FireEnv where
  rhs := fun _ _ ↦ none
  beforeRuleFired := fun _ _ ↦ false
  afterRuleFired := fun _ _ ↦ false
  clock := fun _ ↦ 0

/-- The rules `A()` and `B()`, in one activation group. -/
def groupBase : KnowledgeBase :=
  rulesBase [
    { name := "first", activationGroup := some "G", conditionGroups := [[{ factType := "A" }]] },
    { name := "second", activationGroup := some "G", conditionGroups := [[{ factType := "B" }]] }]

/-- A `B` at address `2`, and an `A` at every other address. -/
def groupHeap : Heap := fun p ↦ { type := if p = 2 then "B" else "A" }

/-- The session after some operations. -/
def groupSession (ops : List EngineOp) : Option Session :=
  runEngine groupBase 1 ops (newSession groupBase 1 groupHeap)

/-- An `A` and a `B`, of which one fires; an `A` that comes later. -/
def limitedOps : List EngineOp :=
  [.session (.add 1), .session (.add 2), .fire idleEnv 1 2, .session (.add 3), .fire idleEnv (-1) 2]

/-- With a limit of one the batch holds one activation, and its firing cancels the other; the one that
is added later fires. -/
theorem exclusive_of_covered_limitOne : ∃ s, groupSession limitedOps = some s ∧ Exclusive s.events := by
  have hcovered : ∀ s ∈ groupSession limitedOps, ∀ entry ∈ s.log, FiringCovered entry := by
    decide +kernel
  obtain ⟨s, hs⟩ := Option.isSome_iff_exists.mp
    (show (groupSession limitedOps).isSome = true by decide +kernel)
  exact ⟨s, hs, exclusive_of_covered groupBase 1 groupHeap limitedOps hs (hcovered s hs)⟩

/-- Whether the event at a place is no firing of a barred activation. -/
def exclusiveAt (events : List AgendaEvent) (k : ℕ) : Bool :=
  match events[k]? with
  | some (.fired b) => !barred (events.take k) b
  | _ => true

theorem Exclusive.exclusiveAt {events : List AgendaEvent} (h : Exclusive events) (k : ℕ) :
    exclusiveAt events k = true := by
  unfold RulesForge.exclusiveAt
  split
  · next b hb =>
    obtain ⟨hk, hb⟩ := List.getElem?_eq_some_iff.mp hb
    have hsplit : events = events.take k ++ .fired b :: events.drop (k + 1) := by
      rw [← hb, ← List.drop_eq_getElem_cons hk, List.take_append_drop]
    rw [h _ b _ hsplit]
    rfl
  · rfl

/-- An `A`, a `B` and a call without a limit. -/
def batchedOps : List EngineOp :=
  [.session (.add 1), .session (.add 2), .fire idleEnv (-1) 2]

/-- **Two activations of one group fire** when they are popped in one batch: the one bars the other. -/
theorem sameBatch_bothFire : ∃ s, groupSession batchedOps = some s ∧ ¬ Exclusive s.events := by
  have hbarred : ∀ s ∈ groupSession batchedOps, exclusiveAt s.events 7 = false := by decide +kernel
  obtain ⟨s, hs⟩ := Option.isSome_iff_exists.mp
    (show (groupSession batchedOps).isSome = true by decide +kernel)
  refine ⟨s, hs, fun h ↦ ?_⟩
  have hlast := h.exclusiveAt 7
  rw [hbarred s hs] at hlast
  cases hlast

end RulesForge
