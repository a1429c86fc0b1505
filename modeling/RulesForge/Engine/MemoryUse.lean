import RulesForge.Engine.MatchEvents
import RulesForge.Engine.StatefulEngine

/-!
# The use of working memory

A session touches working memory through few operations: a fact gets an id, a fact enters or
leaves, an id is reserved, and what facts hold is written. Whatever a session makes of them, the
facts in working memory have distinct ids below the counter, and the counter never goes back
(`MemoryRun.inv`). The operations of `StatefulSession` are made of these
(`statefulEngine_usesWorkingMemory`).
-/

namespace RulesForge

/-! ### Operations of working memory -/

/-- The facts and working memory. -/
abbrev MemoryState := Heap × WorkingMemory

/-- `assign_id`. -/
def WorkingMemory.assignId (fact : FactPtr) (m : MemoryState) : MemoryState :=
  let (heap, nextId) := RulesForge.assignId fact (m.1, m.2.nextId)
  (heap, { m.2 with nextId := nextId })

/-- `insert`. -/
def WorkingMemory.insert (fact : FactPtr) (m : MemoryState) : MemoryState :=
  let (heap, wm) := WorkingMemory.assignId fact m
  (heap, { wm with facts := AssocMap.insert (heap fact).id fact wm.facts })

/-- `reserve_next_id`. -/
def WorkingMemory.reserveNextId (wm : WorkingMemory) : WorkingMemory :=
  { wm with nextId := wm.nextId + 1 }

/-- One use of working memory. Facts are created and their fields and types are written, but the
facts in working memory keep their ids. -/
inductive MemoryStep : MemoryState → MemoryState → Prop
  | assignId (fact : FactPtr) (m : MemoryState) : MemoryStep m (WorkingMemory.assignId fact m)
  | insert (fact : FactPtr) (m : MemoryState) : MemoryStep m (WorkingMemory.insert fact m)
  | remove (id : ℤ) (m : MemoryState) : MemoryStep m (m.1, m.2.remove id)
  | reserveNextId (m : MemoryState) : MemoryStep m (m.1, m.2.reserveNextId)
  | write {m : MemoryState} {heap : Heap} :
      (∀ entry ∈ m.2.facts, (heap entry.2).id = (m.1 entry.2).id) → MemoryStep m (heap, m.2)

/-- A sequence of uses. -/
abbrev MemoryRun : MemoryState → MemoryState → Prop := Relation.ReflTransGen MemoryStep

/-- The facts in working memory are entered under their ids, which are below the counter. -/
structure MemoryInv (m : MemoryState) : Prop where
  unique : AssocMap.Unique m.2.facts
  id_eq : ∀ entry ∈ m.2.facts, (m.1 entry.2).id = entry.1
  id_ne : ∀ entry ∈ m.2.facts, entry.1 ≠ 0
  id_lt : ∀ entry ∈ m.2.facts, entry.1 < m.2.nextId
  nextId_pos : 0 < m.2.nextId

theorem MemoryInv.empty (heap : Heap) : MemoryInv (heap, {}) :=
  ⟨AssocMap.unique_nil, by simp, by simp, by simp, one_pos⟩

theorem MemoryInv.assignId {m : MemoryState} (h : MemoryInv m) (fact : FactPtr) :
    MemoryInv (WorkingMemory.assignId fact m) ∧
      m.2.nextId ≤ (WorkingMemory.assignId fact m).2.nextId := by
  have hassigned := assignId_assigned fact (m.1, m.2.nextId)
  refine ⟨⟨h.unique, fun entry hentry ↦ ?_, h.id_ne, fun entry hentry ↦ ?_, ?_⟩, hassigned.le⟩
  · have hid := h.id_eq entry hentry
    exact (hassigned.id (hid ▸ h.id_ne entry hentry)).trans hid
  · exact (h.id_lt entry hentry).trans_le hassigned.le
  · exact h.nextId_pos.trans_le hassigned.le

/-- **One use** keeps the invariant, and the counter does not go back. -/
theorem MemoryStep.inv {m m' : MemoryState} (h : MemoryStep m m') (hinv : MemoryInv m) :
    MemoryInv m' ∧ m.2.nextId ≤ m'.2.nextId := by
  cases h with
  | assignId fact => exact hinv.assignId fact
  | insert fact =>
    obtain ⟨hassigned, hle⟩ := hinv.assignId fact
    obtain ⟨hne, hlt, -⟩ := assignId_self fact (m.1, m.2.nextId) hinv.nextId_pos
    refine ⟨⟨hassigned.unique.insert _ _, ?_, ?_, ?_, hassigned.nextId_pos⟩, hle⟩
    all_goals
      rintro ⟨id, p⟩ hentry
      rcases AssocMap.mem_insert.mp hentry with ⟨-, hold⟩ | ⟨rfl, rfl⟩
    · exact hassigned.id_eq (id, p) hold
    · rfl
    · exact hassigned.id_ne (id, p) hold
    · exact hne
    · exact hassigned.id_lt (id, p) hold
    · exact hlt
  | remove id =>
    have hsub : ∀ entry ∈ (m.2.remove id).facts, entry ∈ m.2.facts :=
      fun entry hentry ↦ (List.mem_filter.mp hentry).1
    exact ⟨⟨hinv.unique.erase id, fun entry hentry ↦ hinv.id_eq entry (hsub entry hentry),
      fun entry hentry ↦ hinv.id_ne entry (hsub entry hentry),
      fun entry hentry ↦ hinv.id_lt entry (hsub entry hentry), hinv.nextId_pos⟩, le_rfl⟩
  | reserveNextId =>
    have hlt : m.2.nextId < m.2.nextId + 1 := lt_add_one _
    exact ⟨⟨hinv.unique, hinv.id_eq, hinv.id_ne, fun entry hentry ↦ (hinv.id_lt entry hentry).trans hlt,
      hinv.nextId_pos.trans hlt⟩, hlt.le⟩
  | write hids =>
    exact ⟨⟨hinv.unique, fun entry hentry ↦ (hids entry hentry).trans (hinv.id_eq entry hentry),
      hinv.id_ne, hinv.id_lt, hinv.nextId_pos⟩, le_rfl⟩

/-- **Any use** keeps the invariant, and the counter does not go back. -/
theorem MemoryRun.inv {m m' : MemoryState} (h : MemoryRun m m') (hinv : MemoryInv m) :
    MemoryInv m' ∧ m.2.nextId ≤ m'.2.nextId := by
  induction h with
  | refl => exact ⟨hinv, le_rfl⟩
  | tail _ hstep ih =>
    obtain ⟨hinv', hle⟩ := hstep.inv ih.1
    exact ⟨hinv', ih.2.trans hle⟩

/-! ### Rule sessions -/

section Engines

variable {σ : Type}

/-- A rule session that touches its working memory through its operations only, as long as they
succeed. -/
structure UsesWorkingMemory (engine : RuleEngine σ) (memory : σ → MemoryState) : Prop where
  nextFactId : ∀ s, engine.nextFactId s = (memory s).2.nextId
  factsSnapshot : ∀ s, engine.factsSnapshot s = (memory s).2.facts.map fun entry ↦
    (memory s).1 entry.2
  createSession : ∀ {w s}, engine.createSession w = .ok () s →
    ∃ heap, MemoryRun (heap, {}) (memory s)
  insertEventInto : ∀ {stream fact time p s s'}, MemoryInv (memory s) →
    engine.insertEventInto stream fact time s = .ok p s' → MemoryRun (memory s) (memory s')
  advanceEventTime : ∀ {time expired s s'}, MemoryInv (memory s) →
    engine.advanceEventTime time s = .ok expired s' → MemoryRun (memory s) (memory s')
  retractFrom : ∀ {stream fact s s'}, MemoryInv (memory s) →
    engine.retractFrom stream fact s = .ok () s' → MemoryRun (memory s) (memory s')
  fireAllRulesFailFast : ∀ {maxRules fired s s'}, MemoryInv (memory s) →
    engine.fireAllRulesFailFast maxRules s = .ok fired s' → MemoryRun (memory s) (memory s')

end Engines

/-! ### Sessions -/

/-- The facts and the working memory of a session. -/
def Session.memory (s : Session) : MemoryState := (s.heap, s.workingMemory)

/-- The second session comes from the first by uses of working memory, whatever else changes. -/
def Session.UsesMemory (s s' : Session) : Prop := MemoryRun s.memory s'.memory

namespace Session.UsesMemory

variable {kb : KnowledgeBase} {s s' s'' : Session} {retract : TokenWME → Session → Session}

theorem refl (s : Session) : UsesMemory s s := Relation.ReflTransGen.refl

theorem trans (h : UsesMemory s s') (h' : UsesMemory s' s'') : UsesMemory s s'' :=
  Relation.ReflTransGen.trans h h'

theorem of_eq (hheap : s'.heap = s.heap) (hmemory : s'.workingMemory = s.workingMemory) :
    UsesMemory s s' := by
  unfold UsesMemory Session.memory
  rw [hheap, hmemory]

theorem of_base (h : s'.base = s.base) : UsesMemory s s' :=
  of_eq (base_parts h).1 (base_parts h).2.1

theorem step (h : MemoryStep s.memory s'.memory) : UsesMemory s s' :=
  Relation.ReflTransGen.single h

theorem foldl {α : Type} {f : Session → α → Session} (hf : ∀ s x, UsesMemory s (f s x))
    (l : List α) (s : Session) : UsesMemory s (l.foldl f s) := by
  induction l generalizing s with
  | nil => exact refl s
  | cons x l ih => exact (hf s x).trans (ih (f s x))

theorem terminalLeft (hretract : ∀ w s, UsesMemory s (retract w s)) (n rule : ℕ)
    (bindings : Bindings) (w : TokenWME) (type : PropagationType) (s : Session) :
    UsesMemory s (terminalLeft kb retract n rule bindings w type s) := by
  cases type with
  | assert =>
    simp only [RulesForge.terminalLeft]
    split
    · exact refl s
    · refine of_base ?_
      simp only [applyAutoFocus_base, addActivation_base]
      rfl
  | retract =>
    simp only [RulesForge.terminalLeft, terminalRetract]
    split
    · exact hretract w ((updateTerminal n (·.erase w) s).removeActivation _)
    · exact hretract w s
  | modify => exact refl s

theorem carries (hretract : ∀ w s, UsesMemory s (retract w s)) : Carries kb retract UsesMemory where
  refl := refl
  trans := trans
  silent h := of_base h.base
  terminal w type s _ := terminalLeft hretract _ _ _ w type s

theorem rightActivate (hretract : ∀ w s, UsesMemory s (retract w s)) (levels n : ℕ)
    (fact : FactPtr) (type : PropagationType) (s : Session) :
    UsesMemory s (rightActivate kb retract levels n fact type s) :=
  (carries hretract).rightActivate (fun _ _ _ ↦ of_base rfl) levels n fact type s

theorem activateEntryPoint (hretract : ∀ w s, UsesMemory s (retract w s)) (fact : FactPtr)
    (type : PropagationType) (s : Session) :
    UsesMemory s (activateEntryPoint kb retract fact type s) := by
  unfold RulesForge.activateEntryPoint
  split
  · exact refl s
  · exact rightActivate hretract _ _ fact type s

variable (kb) in
theorem leaves (p : FactPtr) (s : Session) :
    UsesMemory s ((MatchEvent.leaves p).apply kb s) :=
  step (.remove (s.heap p).id s.memory)

theorem removeFact (hretract : ∀ w s, UsesMemory s (retract w s)) (p : FactPtr) (s : Session) :
    UsesMemory s (removeFact kb retract p s) :=
  trans (leaves kb p s) (trans (activateEntryPoint hretract p .retract _)
    (foldl (fun s w ↦ hretract w s) _ _))

theorem retractFact (hretract : ∀ w s, UsesMemory s (retract w s)) (fact : FactPtr)
    (s : Session) : UsesMemory s (retractFact kb retract fact s).1 := by
  unfold RulesForge.retractFact
  split
  · exact refl s
  · split
    · exact refl s
    · split
      · exact refl s
      · exact of_eq rfl rfl
      · exact removeFact hretract _ s

/-- A match that ends may take the facts it justified with it. -/
theorem logicalRetract (steps : ℕ) (w : TokenWME) (s : Session) :
    UsesMemory s (logicalRetract kb steps w s) := by
  induction steps generalizing w s with
  | zero => exact refl s
  | succ steps ih =>
    exact foldl (fun s fact ↦ retractFact ih fact s) _
      { s with tms := (s.tms.removeJustificationsByToken w).1 }

theorem writeType (fact : FactPtr) (name : String) (s : Session) :
    UsesMemory s (writeType fact name s) :=
  step (.write fun entry _ ↦ (writeType_heap fact entry.2 name s).2.1)

theorem assignNestedIds (depth : ℕ) (fact : FactPtr) (m : MemoryState) :
    let state := assignNestedIds depth fact (m.1, m.2.nextId)
    MemoryRun m (state.1, { m.2 with nextId := state.2 }) := by
  induction depth generalizing fact m with
  | zero => exact .refl
  | succ depth ih =>
    have hfold : ∀ (l : List FactPtr) (m : MemoryState),
        let state := l.foldl (fun state p ↦ RulesForge.assignNestedIds depth p state)
          (m.1, m.2.nextId)
        MemoryRun m (state.1, { m.2 with nextId := state.2 }) := by
      intro l
      induction l with
      | nil => exact fun m ↦ .refl
      | cons p l ihl => exact fun m ↦ Relation.ReflTransGen.trans (ih p m) (ihl _)
    exact .head (.assignId fact m) (hfold _ (WorkingMemory.assignId fact m))

theorem assignIds (fact : FactPtr) (s : Session) : UsesMemory s (assignIds kb fact s) :=
  .head (.assignId fact s.memory) (assignNestedIds kb.nestingLimit fact
    (WorkingMemory.assignId fact s.memory))

/-- A fact gets its name and its ids, and enters working memory. -/
theorem enterFact (fact : FactPtr) (name : String) (s : Session)
    (hpos : 0 < s.workingMemory.nextId) : UsesMemory s (enterFact kb fact name s) := by
  have hassign : UsesMemory s (RulesForge.assignIds kb fact (RulesForge.writeType fact name s)) :=
    (writeType fact name s).trans (assignIds fact _)
  obtain ⟨-, hne, hlt, -⟩ := assignIds_spec kb fact (RulesForge.writeType fact name s) hpos
  set s₁ := RulesForge.assignIds kb fact (RulesForge.writeType fact name s)
  -- the fact has its id by now, so that `insert` assigns none
  have hsame : WorkingMemory.assignId fact s₁.memory = s₁.memory := by
    simp [WorkingMemory.assignId, RulesForge.assignId, memory, hne, not_le.mpr hlt]
  have hinsert : WorkingMemory.insert fact s₁.memory = (insertWorkingMemory fact s₁).memory := by
    unfold WorkingMemory.insert
    rw [hsame]
    rfl
  exact hassign.trans (step (hinsert ▸ .insert fact s₁.memory))

theorem insertThrough {enter : FactPtr → Session → Session}
    (henter : ∀ fact s, ∃ t, enter fact s = { insertWorkingMemory fact s with transaction := t })
    (steps : ℕ) (stream : String) (fact : FactPtr) (s : Session)
    (hpos : 0 < s.workingMemory.nextId) :
    UsesMemory s (insertThrough kb enter steps stream fact s).1 := by
  rcases insertThrough_cases kb henter steps stream fact s with
    ⟨hs', -⟩ | ⟨name, -, -, ⟨hs', -⟩ | ⟨entry, t, -, hs'⟩⟩
  · rw [hs']
    exact refl s
  · rw [hs']
    exact writeType fact name s
  · rw [hs']
    exact (enterFact fact name s hpos).trans (rightActivate (logicalRetract steps) _ entry
      fact .assert { RulesForge.enterFact kb fact name s with transaction := t })

theorem placeFact {p : FactPtr} {s : Session} (hp : p ∉ s.facts) (fact : Fact) :
    UsesMemory s (placeFact p fact s) := by
  refine step (.write fun entry hentry ↦ ?_)
  have hne : entry.2 ≠ p := by
    rintro rfl
    exact hp ⟨entry.1, hentry⟩
  exact congrArg Fact.id (Function.update_of_ne hne _ _)

theorem addFact (steps : ℕ) (fact : FactPtr) (s : Session) (hpos : 0 < s.workingMemory.nextId) :
    UsesMemory s (addFact kb steps fact s).1 := by
  rcases addFact_cases kb steps fact s with hs' | ⟨name, -, -, hs' | hs'⟩
  · rw [hs']
    exact refl s
  · rw [hs']
    exact writeType fact name s
  · rw [hs']
    exact (enterFact fact name s hpos).trans
      (activateEntryPoint (logicalRetract steps) fact .assert _)

theorem retractFrom (steps : ℕ) (stream : String) (fact : FactPtr) (s : Session) :
    UsesMemory s (retractFrom kb steps stream fact s).1 := by
  unfold RulesForge.retractFrom
  split
  · exact refl s
  · split
    · exact refl s
    · split
      · exact refl s
      · next p _ =>
        split
        · exact refl s
        · exact (leaves kb p s).trans
            (rightActivate (logicalRetract steps) _ _ p .retract _)

/-- A new session starts with an empty working memory. -/
theorem newSession (kb : KnowledgeBase) (steps : ℕ) (heap : Heap) :
    MemoryRun (heap, {}) (newSession kb steps heap).memory := by
  have hstart : UsesMemory { heap := heap } (startSession kb heap) :=
    of_base (startSession_parts kb heap).1
  exact hstart.trans (foldl (fun s n ↦
    (carries (logicalRetract steps)).leftActivate _ n .root .assert s) _ _)

end Session.UsesMemory

/-- **`StatefulSession` uses working memory through its operations**, where a new fact gets an
address that no fact of working memory has and the actions of rules use it so. -/
theorem statefulEngine_usesWorkingMemory (kb : KnowledgeBase) (steps : ℕ)
    (allocate : Session → FactPtr) (fire : ℤ → EStateM Failure TracedSession ℤ)
    (hallocate : ∀ s, allocate s ∉ s.facts)
    (hfire : ∀ {maxRules fired w w'}, MemoryInv w.session.memory →
      fire maxRules w = .ok fired w' → w.session.UsesMemory w'.session) :
    UsesWorkingMemory (statefulEngine kb steps allocate fire) fun w ↦ w.session.memory where
  nextFactId _ := rfl
  factsSnapshot _ := rfl
  createSession h := by
    cases h
    exact ⟨_, Session.UsesMemory.newSession kb steps _⟩
  insertEventInto := by
    intro stream fact time p w w' hinv h
    have hplace := Session.UsesMemory.placeFact (hallocate w.session) fact
    have hinsert : (placeFact (allocate w.session) fact w.session).UsesMemory
        (insertEventInto kb steps stream (allocate w.session)
          (placeFact (allocate w.session) fact w.session)).1 :=
      .insertThrough (fun _ _ ↦ ⟨_, rfl⟩) steps stream _ _ hinv.nextId_pos
    unfold statefulEngine at h
    dsimp only at h
    split at h
    · cases h
      exact hplace.trans hinsert
    · cases h
  advanceEventTime := by
    intro time expired w w' _ h
    unfold statefulEngine TracedSession.advanceEventTime at h
    dsimp only at h
    split at h
    · cases h
    · split at h
      · cases h
      · cases h
        exact .refl
  retractFrom := by
    intro stream fact w w' _ h
    unfold statefulEngine at h
    dsimp only at h
    split at h
    · cases h
      exact Session.UsesMemory.retractFrom steps stream fact w.session
    · cases h
  fireAllRulesFailFast := hfire

end RulesForge
