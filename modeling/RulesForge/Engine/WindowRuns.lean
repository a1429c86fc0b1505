import RulesForge.Engine.AccumulateExact
import RulesForge.Library.History
import RulesForge.Rete.Window

/-!
# Windows and what is below them

A child of a window keeps the facts it is told of, its own result facts apart: `remember`, which is
what `AccumulateNode::right_activate` does to its right memory
(`AccumulateNode.rightActivate_remember`). The window sends an assertion only while the fact is in
its list, and a retraction for every fact that leaves it, but a modification in any case.

So the two agree after every run that modifies only facts the window keeps, and that asserts no
fact twice (`agrees_runWindow`). A modification of a fact that has left the window brings it back
below it, where nothing retracts it any more (`agrees_modify_iff`).
-/

namespace RulesForge

/-! ### The child -/

/-- What a child keeps after a message. `results` are its own result facts. -/
def remember (results : FactPtr → Bool) (held : List FactPtr) (message : Message) :
    List FactPtr :=
  if results message.1 then held
  else
    match message.2 with
    | .retract => held.filter (· ≠ message.1)
    | _ => held.insert message.1

section Remember

variable {results : FactPtr → Bool} {held evicted : List FactPtr} {f g : FactPtr}

theorem mem_remember_of_ne_retract {type : PropagationType} (htype : type ≠ .retract)
    (hf : results f = false) : g ∈ remember results held (f, type) ↔ g = f ∨ g ∈ held := by
  unfold remember
  rw [if_neg (by simp [hf])]
  cases type with
  | retract => exact absurd rfl htype
  | assert => exact List.mem_insert_iff
  | modify => exact List.mem_insert_iff

theorem mem_remember_retract (hf : results f = false) :
    g ∈ remember results held (f, .retract) ↔ g ∈ held ∧ g ≠ f := by
  unfold remember
  rw [if_neg (by simp [hf])]
  show g ∈ held.filter (fun x ↦ decide (x ≠ f)) ↔ _
  rw [List.mem_filter, decide_eq_true_iff]

/-- The facts that leave the window leave its child. -/
theorem mem_foldl_remember_retract (hevicted : ∀ f ∈ evicted, results f = false) :
    g ∈ (evicted.map (·, .retract)).foldl (remember results) held ↔ g ∈ held ∧ g ∉ evicted := by
  induction evicted generalizing held with
  | nil => simp
  | cons f evicted ih =>
    obtain ⟨hf, hrest⟩ := List.forall_mem_cons.mp hevicted
    rw [List.map_cons, List.foldl_cons, ih hrest, mem_remember_retract hf, and_assoc,
      List.mem_cons, not_or]

end Remember

/-! ### The right memory of an accumulate node -/

section Accumulate

open EStateM (Ends)

variable {kb : KnowledgeBase} {steps : ℕ} {node : AccumulateNode} {a a' : AccumulateSession}
  {right : List (ℤ × FactPtr)} {held : List FactPtr} {f : FactPtr}

theorem updateAndPropagateResult_right (h : a.mem.right = right) (item : LeftMemoryItem) :
    (node.updateAndPropagateResult kb steps item).Ends a (fun _ a' ↦ a'.mem.right = right)
      fun _ _ ↦ True := by
  -- Neither the session nor the children touch the memory of the node.
  have hwme : ∀ {a : AccumulateSession}, a.mem.right = right →
      (AccumulateNode.resultWme item).Ends a (fun _ a' ↦ a'.mem.right = right) fun _ _ ↦ True := by
    intro a h
    refine (resultWme_ends item).mono ?_ fun _ _ h ↦ h
    rintro w a' ⟨hmem, -⟩
    rw [hmem, h]
  have hchildren : ∀ {a : AccumulateSession} (w : TokenWME) (type : PropagationType),
      a.mem.right = right → (node.activateChildren kb steps w type).Ends a
        (fun _ a' ↦ a'.mem.right = right) fun _ _ ↦ True := by
    intro a w type h
    refine .modify ?_
    rw [(AccumulateNode.foldl_activateChild kb steps w type node.children a).1, h]
  unfold AccumulateNode.updateAndPropagateResult
  refine .bind (.get ?_)
  dsimp only
  split
  · refine .bind (callSession_ends fun _ ↦ .bind (callSession_ends fun _ ↦ ?_))
    refine .bind ((hwme ?_).mono (fun w a' h' ↦ hchildren w .assert h') fun _ _ h ↦ h)
    exact h
  · refine .bind ((hwme h).mono (fun w a' h' ↦ ?_) fun _ _ h ↦ h)
    refine .bind ((hchildren w .retract h').mono (fun _ a' h' ↦ ?_) fun _ _ h ↦ h)
    refine .bind (callSession_ends fun _ ↦ hchildren w .assert ?_)
    exact h'

theorem updateItem_right (h : a.mem.right = right) (forward : Bool) (w : TokenWME) :
    (node.updateItem kb steps forward f w).Ends a (fun _ a' ↦ a'.mem.right = right)
      fun _ _ ↦ True := by
  unfold AccumulateNode.updateItem
  refine .bind (.get ?_)
  dsimp only
  split
  · exact .pure h
  · split
    · refine .bind (.modify ?_)
      split
      · refine updateAndPropagateResult_right ?_ _
        exact h
      · exact .pure h
    · exact .pure h

theorem rebuildItem_right (h : a.mem.right = right) (w : TokenWME) :
    (node.rebuildItem kb steps w).Ends a (fun _ a' ↦ a'.mem.right = right) fun _ _ ↦ True := by
  unfold AccumulateNode.rebuildItem
  refine .bind (.get ?_)
  dsimp only
  split
  · exact .pure h
  · refine .bind (.modify (updateAndPropagateResult_right ?_ _))
    exact h

/-- The result facts of an accumulate node. -/
def AccumulateSession.isResult (a : AccumulateSession) (f : FactPtr) : Bool :=
  a.mem.left.any fun entry ↦ entry.2.resultFact = f

/-- **The right memory of an accumulate node** follows the messages of the window before it, a
fact standing under its id. -/
theorem AccumulateNode.rightActivate_remember {type : PropagationType}
    (hids : ∀ g ∈ held, (a.session.heap g).id = (a.session.heap f).id → g = f)
    (hright : RightExact (fun g ↦ (a.session.heap g).id) {g | g ∈ held} a.mem.right)
    (hok : (node.rightActivate kb steps f type) a = .ok () a') :
    RightExact (fun g ↦ (a.session.heap g).id) {g | g ∈ remember a.isResult held (f, type)}
      a'.mem.right := by
  set ids : FactPtr → ℤ := fun g ↦ (a.session.heap g).id with hidsdef
  have hinserted : type ≠ .retract → a.isResult f = false →
      RightExact ids {g | g ∈ remember a.isResult held (f, type)}
        (AssocMap.insert (ids f) f a.mem.right) := by
    intro htype hf
    have hset : {g | g ∈ remember a.isResult held (f, type)} = insert f {g | g ∈ held} :=
      Set.ext fun g ↦ mem_remember_of_ne_retract htype hf
    rw [hset]
    exact hright.insert hids
  suffices h : (node.rightActivate kb steps f type).Ends a (fun _ a' ↦
      RightExact ids {g | g ∈ remember a.isResult held (f, type)} a'.mem.right)
      fun _ _ ↦ True from h.of_ok hok
  unfold AccumulateNode.rightActivate
  refine .bind (.get ?_)
  dsimp only
  split
  · next hskip =>
    have hsame : remember a.isResult held (f, type) = held := if_pos hskip
    rw [hsame]
    exact .pure hright
  · next hskip =>
    have hf : a.isResult f = false := Bool.eq_false_iff.mpr hskip
    cases type with
    | modify =>
      have h := hinserted (by decide) hf
      refine .bind (.modify ?_)
      refine (Ends.forM (P := fun _ a' ↦ a'.mem.right = AssocMap.insert (ids f) f a.mem.right) rfl
        fun h ↦ rebuildItem_right h _).mono ?_ fun _ _ h ↦ h
      rintro - a' hsame
      rwa [hsame]
    | assert =>
      have h := hinserted (by decide) hf
      refine .bind (.modify ?_)
      refine (Ends.forM (P := fun _ a' ↦ a'.mem.right = AssocMap.insert (ids f) f a.mem.right) rfl
        fun h ↦ updateItem_right h true _).mono ?_ fun _ _ h ↦ h
      rintro - a' hsame
      rwa [hsame]
    | retract =>
      have hset : {g | g ∈ remember a.isResult held (f, .retract)} = {g | g ∈ held} \ {f} :=
        Set.ext fun g ↦ mem_remember_retract hf
      rw [hset]
      dsimp only
      split
      · refine .bind ((Ends.forM (P := fun _ a' ↦ a'.mem.right = a.mem.right) rfl
          fun h ↦ updateItem_right h false _).mono ?_ fun _ _ h ↦ h)
        rintro - a' hsame
        refine .modify ?_
        show RightExact ids _ (AssocMap.erase (ids f) a'.mem.right)
        rw [hsame]
        exact hright.erase hids
      · next hnone =>
        -- a fact without an entry is not among those that the node holds
        have hnot : f ∉ {g | g ∈ held} := fun hin ↦
          hnone (AssocMap.contains_iff.mpr ⟨f, hright.mem.mpr ⟨hin, rfl⟩⟩)
        rw [Set.sdiff_singleton_eq_self hnot]
        exact .pure hright

end Accumulate

/-! ### Runs -/

/-- What reaches a window: an activation of its own, or a watermark of the session. -/
inductive WindowEvent where
  | activate (fact : FactPtr) (type : PropagationType)
  | advance

/-- An event with what the window reads then, and the result facts its child has then. -/
structure WindowStep where
  readings : WindowReadings
  results : FactPtr → Bool := fun _ ↦ false
  event : WindowEvent

/-- The list of a window, and the facts its child holds. -/
structure WindowAndChild where
  facts : List FactPtr := []
  held : List FactPtr := []

namespace WindowNode

variable (node : WindowNode)

def step (s : WindowAndChild) (t : WindowStep) : WindowAndChild :=
  let (facts, messages) :=
    match t.event with
    | .activate fact type => node.rightActivate t.readings fact type s.facts
    | .advance => node.evaluateExpiration t.readings s.facts
  { facts := facts, held := messages.foldl (remember t.results) s.held }

def run (steps : List WindowStep) : WindowAndChild :=
  steps.foldl node.step {}

end WindowNode

/-- The child holds the facts of the list and no others. -/
def WindowAndChild.Agrees (s : WindowAndChild) : Prop :=
  ∀ f, f ∈ s.held ↔ f ∈ s.facts

/-- A fact is asserted only where the window does not hold it, and modified only where the window
holds it and is not about to let it go. The child skips none of the facts as its own results. -/
structure WindowStep.Admissible (node : WindowNode) (t : WindowStep) (facts : List FactPtr) :
    Prop where
  assert : ∀ f, t.event = .activate f .assert → f ∉ facts
  modify : ∀ f, t.event = .activate f .modify → f ∈ node.remaining t.readings facts
  results : ∀ f, f ∈ facts ∨ (∃ type, t.event = .activate f type) → t.results f = false

section Runs

variable {node : WindowNode} {t : WindowStep} {s : WindowAndChild} {f g : FactPtr}

/-- An expiration leaves a child that holds the list with what is left of it. -/
theorem agrees_expire {results : FactPtr → Bool} {facts held : List FactPtr} (r : WindowReadings)
    (hnodup : facts.Nodup) (hresults : ∀ f ∈ facts, results f = false)
    (hheld : ∀ f, f ∈ held ↔ f ∈ facts) :
    g ∈ (node.evaluateExpiration r facts).2.foldl (remember results) held ↔
      g ∈ node.remaining r facts := by
  obtain ⟨evicted, hfacts, hmessages⟩ := node.evaluateExpiration_spec r facts
  have hevicted : ∀ f ∈ evicted, results f = false := fun f hf ↦
    hresults f (hfacts ▸ List.mem_append_left _ hf)
  rw [hmessages, mem_foldl_remember_retract hevicted, hheld, ← WindowNode.mem_remaining_iff hnodup hfacts]

/-- An insertion: the new fact reaches the child just where the expiration leaves it. -/
theorem agrees_assert {results : FactPtr → Bool} {facts held : List FactPtr} (r : WindowReadings)
    (hnodup : facts.Nodup) (hf : f ∉ facts) (hresult : results f = false)
    (hresults : ∀ f ∈ facts, results f = false) (hheld : ∀ f, f ∈ held ↔ f ∈ facts) :
    g ∈ (node.rightActivate r f .assert facts).2.foldl (remember results) held ↔
      g ∈ node.remaining r (node.insertFact r f facts) := by
  set inserted := node.insertFact r f facts with hinserted
  have hperm : inserted.Perm (f :: facts) := node.insertFact_perm r facts f
  have hnodup' : inserted.Nodup := hperm.nodup_iff.mpr (List.nodup_cons.mpr ⟨hf, hnodup⟩)
  have hmem : ∀ g, g ∈ inserted ↔ g = f ∨ g ∈ facts := fun g ↦
    hperm.mem_iff.trans List.mem_cons
  obtain ⟨evicted, hfacts, hsent⟩ := node.rightActivate_assert_spec r facts f
  have hremaining := fun g ↦ WindowNode.mem_remaining_iff (g := g) hnodup' hfacts
  have hevicted : ∀ e ∈ evicted, results e = false := by
    intro e he
    have hin : e ∈ inserted := by
      rw [hinserted, hfacts]
      exact List.mem_append_left _ he
    rcases (hmem e).mp hin with rfl | he
    · exact hresult
    · exact hresults e he
  rw [hsent]
  by_cases hin : f ∈ node.remaining r inserted
  · rw [if_pos hin, List.foldl_append]
    show g ∈ remember results _ (f, .assert) ↔ _
    rw [mem_remember_of_ne_retract (by decide) hresult, mem_foldl_remember_retract hevicted, hheld,
      hremaining, hmem]
    -- the new fact is not among those that left
    have hnot := ((hremaining f).mp hin).2
    constructor
    · rintro (rfl | ⟨hg, hev⟩)
      · exact ⟨.inl rfl, hnot⟩
      · exact ⟨.inr hg, hev⟩
    · rintro ⟨rfl | hg, hev⟩
      · exact .inl rfl
      · exact .inr ⟨hg, hev⟩
  · rw [if_neg hin, mem_foldl_remember_retract hevicted, hheld, hremaining, hmem]
    have hleft : f ∈ evicted := by
      by_contra hev
      exact hin ((hremaining f).mpr ⟨(hmem f).mpr (.inl rfl), hev⟩)
    refine ⟨fun h ↦ ⟨.inr h.1, h.2⟩, ?_⟩
    rintro ⟨rfl | hg, hev⟩
    · exact absurd hleft hev
    · exact ⟨hg, hev⟩

/-- **A modification** agrees just where it is of a fact that the window keeps: any other fact
is brought back below the window. -/
theorem agrees_modify_iff {results : FactPtr → Bool} (r : WindowReadings) (hnodup : s.facts.Nodup)
    (hresult : results f = false) (hresults : ∀ f ∈ s.facts, results f = false)
    (hagrees : s.Agrees) :
    (node.step s ⟨r, results, .activate f .modify⟩).Agrees ↔ f ∈ node.remaining r s.facts := by
  have hstep : ∀ g, g ∈ (node.step s ⟨r, results, .activate f .modify⟩).held ↔
      g = f ∨ g ∈ node.remaining r s.facts := by
    intro g
    show g ∈ ((node.evaluateExpiration r s.facts).2 ++ [(f, PropagationType.modify)]).foldl
      (remember results) s.held ↔ _
    rw [List.foldl_append]
    show g ∈ remember results _ (f, .modify) ↔ _
    rw [mem_remember_of_ne_retract (by decide) hresult, agrees_expire r hnodup hresults hagrees]
  have hfacts : (node.step s ⟨r, results, .activate f .modify⟩).facts =
      node.remaining r s.facts := node.evaluateExpiration_fst r s.facts
  constructor
  · intro h
    have hf := (h f).mp ((hstep f).mpr (.inl rfl))
    rwa [hfacts] at hf
  · intro hf g
    rw [hstep, hfacts]
    exact or_iff_right_of_imp fun heq ↦ heq ▸ hf

/-- One step keeps the agreement, and the list without repetitions. -/
theorem agrees_step (hnodup : s.facts.Nodup) (hagrees : s.Agrees)
    (ht : t.Admissible node s.facts) :
    (node.step s t).facts.Nodup ∧ (node.step s t).Agrees := by
  obtain ⟨r, results, event⟩ := t
  have hresults : ∀ f ∈ s.facts, results f = false := fun f hf ↦ ht.results f (.inl hf)
  cases event with
  | advance =>
    have hfacts : (node.step s ⟨r, results, .advance⟩).facts = node.remaining r s.facts :=
      node.evaluateExpiration_fst r s.facts
    unfold WindowAndChild.Agrees
    rw [hfacts]
    exact ⟨hnodup.sublist (node.remaining_sublist r _), fun g ↦ agrees_expire r hnodup hresults hagrees⟩
  | activate f type =>
    have hresult : results f = false := ht.results f (.inr ⟨type, rfl⟩)
    cases type with
    | assert =>
      have hf := ht.assert f rfl
      have hperm := node.insertFact_perm r s.facts f
      have hfacts : (node.step s ⟨r, results, .activate f .assert⟩).facts =
          node.remaining r (node.insertFact r f s.facts) := node.evaluateExpiration_fst r _
      unfold WindowAndChild.Agrees
      rw [hfacts]
      exact ⟨(hperm.nodup_iff.mpr (List.nodup_cons.mpr ⟨hf, hnodup⟩)).sublist
          (node.remaining_sublist r _), fun g ↦ agrees_assert r hnodup hf hresult hresults hagrees⟩
    | modify =>
      have hfacts : (node.step s ⟨r, results, .activate f .modify⟩).facts =
          node.remaining r s.facts := node.evaluateExpiration_fst r s.facts
      refine ⟨?_, (agrees_modify_iff r hnodup hresult hresults hagrees).mpr (ht.modify f rfl)⟩
      rw [hfacts]
      exact hnodup.sublist (node.remaining_sublist r _)
    | retract =>
      have hstep : node.step s ⟨r, results, .activate f .retract⟩ =
          { facts := (node.rightActivate r f .retract s.facts).1,
            held := (node.rightActivate r f .retract s.facts).2.foldl (remember results) s.held } :=
        rfl
      have hretract : node.rightActivate r f .retract s.facts =
          if f ∈ s.facts then (s.facts.erase f, [(f, .retract)]) else (s.facts, []) := rfl
      by_cases hf : f ∈ s.facts
      · rw [hstep, hretract, if_pos hf]
        refine ⟨hnodup.erase f, fun g ↦ ?_⟩
        show g ∈ remember results s.held (f, .retract) ↔ g ∈ s.facts.erase f
        rw [mem_remember_retract hresult, hnodup.mem_erase_iff, hagrees g, and_comm]
      · rw [hstep, hretract, if_neg hf]
        exact ⟨hnodup, hagrees⟩

/-- Every step of a run is admissible in the state it is taken in. -/
def AdmissibleRun (node : WindowNode) (steps : List WindowStep) : Prop :=
  History.Keeps (fun before t ↦ t.Admissible node (node.run before).facts) steps

theorem agrees_run_nodup {steps : List WindowStep} (h : AdmissibleRun node steps) :
    (node.run steps).facts.Nodup ∧ (node.run steps).Agrees := by
  induction steps using List.reverseRecOn with
  | nil => exact ⟨List.nodup_nil, fun f ↦ Iff.rfl⟩
  | append_singleton steps t ih =>
    obtain ⟨hinit, hlast⟩ := History.keeps_concat.mp h
    obtain ⟨hnodup, hagrees⟩ := ih hinit
    have hrun : node.run (steps ++ [t]) = node.step (node.run steps) t := List.foldl_concat ..
    rw [hrun]
    exact agrees_step hnodup hagrees hlast

/-- **Windows and their children agree** after every part of a run whose steps are admissible. What
the child holds is what an accumulate node has in its right memory when it gets the messages of the
window. -/
theorem agrees_runWindow (node : WindowNode) (before after : List WindowStep)
    (h : AdmissibleRun node (before ++ after)) :
    (node.run before).Agrees ∧
      ∀ (kb : KnowledgeBase) (steps : ℕ) (child : AccumulateNode) (held : List FactPtr) (f : FactPtr)
        (type : PropagationType) (a a' : AccumulateSession),
        (∀ g ∈ held, (a.session.heap g).id = (a.session.heap f).id → g = f) →
        RightExact (fun g ↦ (a.session.heap g).id) {g | g ∈ held} a.mem.right →
        (child.rightActivate kb steps f type) a = .ok () a' →
        RightExact (fun g ↦ (a.session.heap g).id) {g | g ∈ remember a.isResult held (f, type)}
          a'.mem.right :=
  ⟨(agrees_run_nodup (History.Keeps.append_left h)).2, fun _ _ _ _ _ _ _ _ hids hright hok ↦
    AccumulateNode.rightActivate_remember hids hright hok⟩

end Runs

def eventReadings : WindowReadings := { heap := fun _ ↦ { type := "Event" } }

def activateEvent (f : FactPtr) (type : PropagationType) : WindowStep :=
  { readings := eventReadings, event := .activate f type }

/-- Three facts are asserted, of which a window of two lets the first one go; then the second one is
modified and the third one retracted. -/
def slidingRun : List WindowStep :=
  [activateEvent 1 .assert, activateEvent 2 .assert, activateEvent 3 .assert,
    activateEvent 2 .modify, activateEvent 3 .retract]

/-- The window and its child hold the second fact alone. -/
theorem agrees_runWindow_sliding :
    (WindowNode.run ⟨⟨.length, 2⟩⟩ slidingRun).Agrees ∧
      (WindowNode.run ⟨⟨.length, 2⟩⟩ slidingRun).facts = [2] := by
  have hassert : ∀ f facts, f ∉ facts →
      WindowStep.Admissible ⟨⟨.length, 2⟩⟩ (activateEvent f .assert) facts := by
    refine fun f facts hf ↦ ⟨?_, nofun, fun _ _ ↦ rfl⟩
    rintro g ⟨⟩
    exact hf
  have hadmissible : AdmissibleRun ⟨⟨.length, 2⟩⟩ ((((([] ++ [activateEvent 1 .assert]) ++
      [activateEvent 2 .assert]) ++ [activateEvent 3 .assert]) ++ [activateEvent 2 .modify]) ++
      [activateEvent 3 .retract]) := by
    refine History.keeps_concat.mpr ⟨History.keeps_concat.mpr ⟨History.keeps_concat.mpr
      ⟨History.keeps_concat.mpr ⟨History.keeps_concat.mpr ⟨History.keeps_nil, ?_⟩, ?_⟩, ?_⟩, ?_⟩,
      ?_⟩
    · exact hassert 1 _ (by decide)
    · exact hassert 2 _ (by decide)
    · exact hassert 3 _ (by decide)
    · refine ⟨nofun, ?_, fun _ _ ↦ rfl⟩
      rintro f ⟨⟩
      decide
    · exact ⟨nofun, nofun, fun _ _ ↦ rfl⟩
  exact ⟨(agrees_runWindow ⟨⟨.length, 2⟩⟩ slidingRun [] hadmissible).1, by decide⟩

/-- Two facts are asserted, of which a window of one lets the first one go; it is then modified. The
window holds the second fact only, its child both. -/
theorem modifiedFirst_disagrees : ¬(WindowNode.run ⟨⟨.length, 1⟩⟩
    [activateEvent 1 .assert, activateEvent 2 .assert, activateEvent 1 .modify]).Agrees := by
  intro h
  have hlisted := (h 1).mp (by decide)
  revert hlisted
  decide

end RulesForge
