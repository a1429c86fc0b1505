import RulesForge.Engine.Session

/-!
# Execution of rules

The right-hand sides of rules with their transactions, and the cycle that fires activations:
`src/engine/rhs_executor.cpp` and, in `src/engine/stateful_session.cpp`,
`begin_rhs_transaction`, `end_rhs_transaction`, `fire_activation` and `fire_all_rules_impl`.

A right-hand side is the sequence of session calls it makes, each of which may depend on the
session it finds: conditions, loops and expressions are resolved in the continuation, and an
expression that fails is a `throw`. An exception that leaves a right-hand side or a listener is
not caught by the cycle (no code raises the one exception type that `fire_activation` catches).
-/

namespace RulesForge

/-! ### Right-hand sides -/

/-- The calls a right-hand side makes. The fact of an insertion is one that it has created, with
the type and the fields that are given. An update assigns fields, after a snapshot of the fact,
and then propagates the change. -/
inductive RhsAction where
  | insert (fact : FactPtr) (type : String) (fields : List (String × ConstraintValue))
  | insertLogical (fact : FactPtr) (type : String) (fields : List (String × ConstraintValue))
  | assign (fact : FactPtr) (fields : List (String × ConstraintValue))
  | propagate (fact : FactPtr) (hint : Option ModifiedFieldsHint)
  | retract (fact : FactPtr)
  | setFocus (group : String)
  | halt

/-- What a right-hand side does from a point on. -/
inductive RhsProgram where
  | done
  | throw
  | act (action : RhsAction) (next : Session → RhsProgram)

/-- A session with the flag of `rfl.halt()`. -/
structure FireState where
  session : Session
  haltRequested : Bool := false

variable (kb : KnowledgeBase) (steps : ℕ)

/-- `track_rhs_update_snapshot`: the first snapshot of a fact wins. -/
def trackRhsUpdateSnapshot (fact : FactPtr) (s : Session) : Session :=
  let id := (s.heap fact).id
  match s.transaction with
  | none => s
  | some t =>
    if id ≤ 0 ∨ AssocMap.contains id t.updatedFactSnapshots then s
    else
      { s with
        transaction := some { t with
          updatedFactOrder := t.updatedFactOrder ++ [id]
          updatedFactSnapshots :=
            AssocMap.emplace id (s.heap fact).fields t.updatedFactSnapshots } }

/-- `logical_insert` of a token's rule. -/
def logicalInsert (token : TokenWME) (fact : FactPtr) (s : Session) :
    Session × Option SessionError :=
  if !s.isConsistent then (s, some .sessionInconsistent)
  else
    let (s, error) :=
      if s.workingMemory.contains (s.heap fact).id then (s, none) else addFact kb steps fact s
    match error with
    | some e => (s, some e)
    | none => ({ s with tms := s.tms.addJustification token (s.heap fact).id }, none)

/-- A created fact with its type and its fields. -/
def createFact (fact : FactPtr) (type : String) (fields : List (String × ConstraintValue))
    (s : Session) : Session :=
  writeFields fact fields (writeType fact type s)

/-- One call of a right-hand side, and the exception it raises. -/
def RhsAction.run (token : TokenWME) (action : RhsAction) (s : FireState) :
    FireState × Option SessionError :=
  match action with
  | .insert fact type fields =>
    let (session, error) := addFact kb steps fact (createFact fact type fields s.session)
    ({ s with session := session }, error)
  | .insertLogical fact type fields =>
    let (session, error) := logicalInsert kb steps token fact (createFact fact type fields s.session)
    ({ s with session := session }, error)
  | .assign fact fields =>
    ({ s with session := writeFields fact fields (trackRhsUpdateSnapshot fact s.session) }, none)
  | .propagate fact hint =>
    ({ s with session := propagateModify kb steps fact hint s.session }, none)
  | .retract fact =>
    let (session, error) := retractFact kb (logicalRetract kb steps) fact s.session
    ({ s with session := session }, error)
  | .setFocus group =>
    if s.session.isConsistent then ({ s with session := s.session.setFocus group }, none)
    else (s, some .sessionInconsistent)
  | .halt => ({ s with haltRequested := true }, none)

/-- The calls in turn, up to the first exception; whether there was one. -/
def RhsProgram.run (token : TokenWME) : RhsProgram → FireState → FireState × Bool
  | .done, s => (s, false)
  | .throw, s => (s, true)
  | .act action next, s =>
    match action.run kb steps token s with
    | (s, some _) => (s, true)
    | (s, none) => (next s.session).run token s

/-! ### Transactions -/

def beginRhsTransaction (s : Session) : Session :=
  { s with transaction := some {} }

/-- The deferred retractions of a commit. -/
def commitRetractions (facts : List FactPtr) (s : Session) : Session :=
  facts.foldl (fun s fact ↦
    if fact = 0 then s else removeFact kb (logicalRetract kb steps) fact s) s

/-- The snapshots are restored, the latest first. A fact that fails the schema check is left,
and the roll-back counts as failed. -/
def restoreSnapshots (t : RhsTransaction) (s : Session) : Session × Bool :=
  t.updatedFactOrder.reverse.foldl (fun (s, ok) id ↦
    match t.updatedFactSnapshots.lookup id, s.workingMemory.get id with
    | some fields, some fact =>
      if kb.validate (s.heap fact) then
        (propagateModify kb steps fact none (writeFields fact fields s), ok)
      else (s, false)
    | _, _ => (s, ok)) (s, true)

/-- The facts that were inserted are retracted, the latest first. -/
def undoInsertions (ids : List ℤ) (s : Session) : Session × Bool :=
  ids.reverse.foldl (fun (s, ok) id ↦
    match s.workingMemory.get id with
    | none => (s, ok)
    | some fact =>
      let (s, error) := retractFact kb (logicalRetract kb steps) fact s
      (s, ok && error.isNone)) (s, true)

/-- The facts that were retracted and are no longer in working memory are added again. -/
def undoRetractions (facts : List FactPtr) (s : Session) : Session × Bool :=
  facts.reverse.foldl (fun (s, ok) fact ↦
    if fact = 0 ∨ s.workingMemory.contains (s.heap fact).id then (s, ok)
    else
      let (s, error) := addFact kb steps fact s
      (s, ok && error.isNone)) (s, true)

/-- `WorkingMemory::clear`. -/
def clearWorkingMemory (s : Session) : Session :=
  { s with workingMemory := {} }

/-- `end_rhs_transaction`. -/
def endRhsTransaction (commit : Bool) (s : FireState) : FireState :=
  match s.session.transaction with
  | none => s
  | some t =>
    let session := { s.session with transaction := none }
    if commit then
      let session := commitRetractions kb steps t.retractedFacts { session with isConsistent := true }
      { s with session := session }
    else
      let (session, restored) := restoreSnapshots kb steps t session
      let (session, withdrawn) := undoInsertions kb steps t.insertedFacts session
      let (session, returned) := undoRetractions kb steps t.retractedFacts session
      if restored && withdrawn && returned then
        { s with session := { session with isConsistent := true } }
      else
        { session := clearWorkingMemory { session with isConsistent := false }
          haltRequested := true }

/-- `RhsExecutor::execute`: a transaction that is committed, or rolled back by an exception. -/
def executeRhs (token : TokenWME) (program : RhsProgram) (s : FireState) : FireState × Bool :=
  let (s, threw) := program.run kb steps token { s with session := beginRhsTransaction s.session }
  (endRhsTransaction kb steps (!threw) s, threw)

/-! ### Firing -/

/-- What the rules and the listeners of a session do, and the clock: a right-hand side without
actions is none, and `clock` is the time at the start of a round. -/
structure FireEnv where
  rhs : Activation → Session → Option RhsProgram
  beforeRuleFired : Activation → Session → Bool
  afterRuleFired : Activation → Session → Bool
  clock : ℕ → ℤ

variable (env : FireEnv)

/-- The bookkeeping on the agenda before a right-hand side is executed; the activation is the next
one of the batch. -/
def enterFiring (a : Activation) (s : Session) : Session :=
  let agenda :=
    if a.rule.noLoop then s.agenda.blockNoloop (s.noloopKey kb a.ruleId a.token) else s.agenda
  let agenda :=
    match a.rule.activationGroup with
    | none => agenda
    | some group => agenda.cancelActivationGroup group a.hashValue
  { s.note (.fired a) with agenda := agenda, batch := s.batch.tail }

/-- `fire_activation`, and whether an exception leaves it. -/
def fireActivation (a : Activation) (s : FireState) : FireState × Bool :=
  if env.beforeRuleFired a s.session then (s, true)
  else
    let s := { s with session := enterFiring kb a s.session }
    let (s, threw) :=
      match env.rhs a s.session with
      | none => (s, false)
      | some program => executeRhs kb steps a.token program s
    (s, threw || env.afterRuleFired a s.session)

/-- `contains_nested_fact`. -/
def containsNestedFact (heap : Heap) (needle : FactPtr) : ℕ → FactPtr → Bool
  | 0, current => decide (current = needle)
  | depth + 1, current =>
    decide (current = needle) ||
      (nestedFacts (heap current)).any (containsNestedFact heap needle depth)

/-- `contains_fact_pointer`: the fact is in working memory, or nested in a fact that is. -/
def containsFactPointer (s : Session) (fact : FactPtr) : Bool :=
  decide (0 < (s.heap fact).id ∧ s.workingMemory.get (s.heap fact).id = some fact) ||
    s.workingMemory.facts.any fun entry ↦
      containsNestedFact s.heap fact kb.nestingLimit entry.2

/-- The check before a popped activation is fired: its facts with an id are still there. -/
def activationValid (s : Session) (a : Activation) : Bool :=
  a.token.facts.all fun p ↦
    decide (p = 0 ∨ (s.heap p).id ≤ 0) || containsFactPointer kb s p

/-- Whether the limit on the number of rules is reached. -/
def limitReached (maxRules : ℤ) (fired : ℕ) : Bool :=
  decide (0 ≤ maxRules ∧ maxRules ≤ fired)

/-- How a batch, or a call, has ended. -/
inductive FireEnd where
  | finished
  | stopped
  | threw
  deriving DecidableEq, Repr

/-- The session after a batch or a call, the number of activations fired, and the end. -/
structure FireResult where
  state : FireState
  fired : ℕ
  outcome : FireEnd

/-- What is left of the batch is put back on the agenda. -/
def requeueBatch (batch : List PoppedActivationItem) (s : Session) : Session :=
  { s with agenda := s.agenda.requeueBatchActivations batch 0, batch := [] }

/-- The next activation of the batch is passed over. -/
def skipActivation (a : Activation) (s : Session) : Session :=
  { s.note (.skipped a) with batch := s.batch.tail }

/-- An exception leaves the loop, and the vector of the batch is gone. -/
def abandonBatch (s : Session) : Session :=
  { s.note .thrown with batch := [] }

/-- The loop over a popped batch, which the session holds too. -/
def fireBatch (maxRules : ℤ) : List PoppedActivationItem → ℕ → FireState → FireResult
  | [], fired, s => ⟨s, fired, .finished⟩
  | item :: batch, fired, s =>
    if s.haltRequested || limitReached maxRules fired then
      ⟨{ s with session := requeueBatch (item :: batch) s.session }, fired, .stopped⟩
    else if !activationValid kb s.session item.activation then
      fireBatch maxRules batch fired
        { s with session := skipActivation item.activation s.session }
    else
      match fireActivation kb steps env item.activation s with
      | (s', true) => ⟨{ s' with session := abandonBatch s'.session }, fired + 1, .threw⟩
      | (s', false) => fireBatch maxRules batch (fired + 1) s'

def agendaBatchSize : ℕ := 64

/-- The number of activations that the next batch may take. -/
def batchBudget (maxRules : ℤ) (fired : ℕ) : ℕ :=
  if 0 ≤ maxRules then min (maxRules - fired).toNat agendaBatchSize else agendaBatchSize

/-- What `fire_all_rules` clears at its end: the blocks, the activation groups and the focus. -/
def clearCycle (s : Session) : Session :=
  { s with agenda := { s.agenda.clearNoloop.clearLockOnActive.clearActivationGroups with
      focusStack := [] } }

/-- The delayed activations whose time has come go to the agenda. -/
def flushDelayed (now : ℤ) (s : Session) : Session :=
  let s := s.readClock now
  { s with agenda := s.agenda.flushReadyDelayed now }

/-- The next batch is popped. -/
def popBatch (maxItems : ℕ) (s : Session) : Session :=
  let (batch, agenda) := s.agenda.popNextBatchActivations maxItems
  { s.note .popped with agenda := agenda, batch := batch }

/-- The rounds of `fire_all_rules_impl`, with a bound on their number; none when it does not
suffice. -/
def fireRounds (maxRules : ℤ) : ℕ → ℕ → FireState → Option FireResult
  | 0, _, _ => none
  | rounds + 1, fired, s =>
    let s := { s with session := flushDelayed (env.clock rounds) s.session }
    if s.haltRequested || limitReached maxRules fired then
      some ⟨{ s with session := clearCycle s.session }, fired, .stopped⟩
    else
      let s := { s with session := popBatch (batchBudget maxRules fired) s.session }
      if s.session.batch.isEmpty then
        some ⟨{ s with session := clearCycle s.session }, fired, .finished⟩
      else
        let r := fireBatch kb steps env maxRules s.session.batch fired s
        match r.outcome with
        | .threw => some r
        | _ =>
          if r.state.haltRequested || limitReached maxRules r.fired then
            some ⟨{ r.state with session := clearCycle r.state.session }, r.fired, .stopped⟩
          else fireRounds maxRules rounds r.fired r.state

/-- `fire_all_rules`. A session that is inconsistent fires nothing. -/
def fireAllRules (maxRules : ℤ) (rounds : ℕ) (s : Session) : Option FireResult :=
  if !s.isConsistent then some ⟨{ session := s }, 0, .finished⟩
  else
    fireRounds kb steps env maxRules rounds 0
      { session := { s with agenda := s.agenda.seedLockOnActiveForFocus } }

/-! ### The two loops -/

section Loops

variable {kb steps env} {maxRules : ℤ} {Q : FireResult → Prop}

/-- **The rule of the loop over a batch**: what a skipped and a fired activation keep leads to what
holds at every end of the loop. -/
theorem fireBatch_rule {I : List PoppedActivationItem → ℕ → FireState → Prop}
    (hnil : ∀ {fired s}, I [] fired s → Q ⟨s, fired, .finished⟩)
    (hstop : ∀ {item batch fired s}, I (item :: batch) fired s →
      Q ⟨{ s with session := requeueBatch (item :: batch) s.session }, fired, .stopped⟩)
    (hskip : ∀ {item batch fired s}, I (item :: batch) fired s →
      activationValid kb s.session item.activation = false →
        I batch fired { s with session := skipActivation item.activation s.session })
    (hfire : ∀ {item batch fired s}, I (item :: batch) fired s →
      limitReached maxRules fired = false → activationValid kb s.session item.activation = true →
        let r := fireActivation kb steps env item.activation s
        (r.2 = true →
          Q ⟨{ r.1 with session := abandonBatch r.1.session }, fired + 1, .threw⟩) ∧
          (r.2 = false → I batch (fired + 1) r.1))
    {batch : List PoppedActivationItem} {fired : ℕ} {s : FireState} (h : I batch fired s) :
    Q (fireBatch kb steps env maxRules batch fired s) := by
  induction batch generalizing fired s with
  | nil => exact hnil h
  | cons item batch ih =>
    unfold fireBatch
    split
    · exact hstop h
    · next hgoes =>
      rw [Bool.or_eq_true, not_or, Bool.not_eq_true, Bool.not_eq_true] at hgoes
      split
      · next hvalid => exact ih (hskip h (by simpa using hvalid))
      · next hvalid =>
        have hfired := hfire h hgoes.2 (by simpa using hvalid)
        split
        · next s' hrun =>
          rw [hrun] at hfired
          exact hfired.1 rfl
        · next s' hrun =>
          rw [hrun] at hfired
          exact ih (hfired.2 rfl)

/-- A round of a call. -/
theorem fireRounds_succ (rounds fired : ℕ) (s : FireState) :
    fireRounds kb steps env maxRules (rounds + 1) fired s =
      let c : FireState := { s with session := flushDelayed (env.clock rounds) s.session }
      let p : FireState := { c with session := popBatch (batchBudget maxRules fired) c.session }
      let r := fireBatch kb steps env maxRules p.session.batch fired p
      if c.haltRequested || limitReached maxRules fired then
        some ⟨{ c with session := clearCycle c.session }, fired, .stopped⟩
      else if p.session.batch.isEmpty then
        some ⟨{ p with session := clearCycle p.session }, fired, .finished⟩
      else if r.outcome = .threw then some r
      else if r.state.haltRequested || limitReached maxRules r.fired then
        some ⟨{ r.state with session := clearCycle r.state.session }, r.fired, .stopped⟩
      else fireRounds kb steps env maxRules rounds r.fired r.state := by
  rw [fireRounds]
  dsimp only
  generalize fireBatch kb steps env maxRules _ fired _ = r
  obtain ⟨state, fired', outcome⟩ := r
  cases outcome <;> rfl

/-- **The rule of the rounds of a call.** -/
theorem fireRounds_rule {I : ℕ → FireState → Prop}
    (hflush : ∀ {fired s now}, I fired s →
      I fired { s with session := flushDelayed now s.session })
    (hstop : ∀ {fired s}, I fired s →
      Q ⟨{ s with session := clearCycle s.session }, fired, .stopped⟩)
    (hround : ∀ {fired s}, I fired s →
      let p : FireState := { s with session := popBatch (batchBudget maxRules fired) s.session }
      let r := fireBatch kb steps env maxRules p.session.batch fired p
      (p.session.batch = [] → Q ⟨{ p with session := clearCycle p.session }, fired, .finished⟩) ∧
        (r.outcome = .threw → Q r) ∧ (r.outcome ≠ .threw → I r.fired r.state))
    {rounds fired : ℕ} {s : FireState} {r : FireResult} (h : I fired s)
    (hresult : fireRounds kb steps env maxRules rounds fired s = some r) : Q r := by
  induction rounds generalizing fired s with
  | zero => cases hresult
  | succ rounds ih =>
    rw [fireRounds_succ] at hresult
    have hflushed : I fired { s with session := flushDelayed (env.clock rounds) s.session } :=
      hflush h
    obtain ⟨hempty, hthrew, hgoes⟩ := hround hflushed
    dsimp only at hresult hempty hthrew hgoes
    split at hresult
    · cases hresult
      exact hstop hflushed
    · split at hresult
      · next hbatch =>
        cases hresult
        exact hempty (List.isEmpty_iff.mp hbatch)
      · split at hresult
        · next hthrown =>
          cases hresult
          exact hthrew hthrown
        · next hdone =>
          split at hresult
          · cases hresult
            exact hstop (hgoes hdone)
          · exact ih (hgoes hdone) hresult

end Loops

end RulesForge
