import RulesForge.Engine.RhsExecutor
import RulesForge.Library.LoopExits

/-!
# Control flow on the right-hand side

The two request flags of `RhsExecutor` stand for the exits of structured blocks. The reading of an
action tree as a block, `RhsContext.runAction`, knows no flags: a `break` and a `continue` end
every block up to the innermost loop, which catches them. The executor **is** that reading
(`executeAction_eq`), for every tree; the plan builder sees to it that outside of loops there is
nothing to catch (`catches_runActions`).

`controlFlow` puts together what holds of every action that an execution comes to.
-/

namespace RulesForge

/-! ### Action trees as blocks -/

/-- What a right-hand side works on: the session and the loop variables. -/
structure RhsFrame where
  state : FireState
  tempBindings : String → Option FactPtr

/-- The executor with no request pending. -/
def RhsFrame.executor (f : RhsFrame) : RhsExecutor :=
  { state := f.state, tempBindings := f.tempBindings }

def RhsExecutor.frame (x : RhsExecutor) : RhsFrame := ⟨x.state, x.tempBindings⟩

/-- An action that has no actions in it. -/
def atomicBlock (run : RhsExecutor → RhsExecutor × Option RhsError) : Block RhsFrame RhsError :=
  fun f ↦
    match run f.executor with
    | (y, none) => (y.frame, .normal)
    | (y, some error) => (y.frame, .threw error)

/-- A block in which a loop variable denotes an item. -/
def scopedBlock (iterVar : String) (body : Block RhsFrame RhsError) (item : FactPtr) :
    Block RhsFrame RhsError := fun f ↦
  match body { f with tempBindings := Function.update f.tempBindings iterVar (some item) } with
  | (g, exit) =>
    ({ g with tempBindings := Function.update g.tempBindings iterVar (f.tempBindings iterVar) },
      exit)

namespace RhsContext

variable (ctx : RhsContext)

/-- The condition of a loop; one that has no value is an error. -/
def loopCondition (condition : List Char) (f : RhsFrame) : Except RhsError Bool :=
  match f.executor.evaluateCondition ctx condition with
  | none => .error (RhsExecutor.unsupported "while condition" condition)
  | some b => .ok b

def limitError : RhsError := .message "RHS while loop hit max iterations"

mutual

/-- An action as a block. -/
def runAction : CompiledAction → Block RhsFrame RhsError
  | .update targetVar assignments => atomicBlock (·.executeUpdate ctx targetVar assignments)
  | .insert targetType assignments => atomicBlock (·.executeInsert ctx targetType assignments)
  | .insertLogical targetType assignments =>
    atomicBlock (·.executeInsertLogical ctx targetType assignments)
  | .retract targetVar => atomicBlock (·.executeRetract ctx targetVar)
  | .halt => atomicBlock (·.call ctx .halt)
  | .setFocus focusGroup => atomicBlock (·.call ctx (.setFocus focusGroup))
  | .«if» condition thenActions elseActions =>
    match condition with
    | none => .throwing (.message "RHS if action is missing a condition")
    | some condition => fun f ↦
      match f.executor.evaluateCondition ctx condition with
      | none => (f, .threw (RhsExecutor.unsupported "if condition" condition))
      | some true => runActions thenActions f
      | some false => runActions elseActions f
  | .switch switchExpr switchCases =>
    match switchExpr with
    | none => .throwing (.message "RHS switch action is missing an expression")
    | some switchExpr => fun f ↦
      match f.executor.evaluateValue ctx switchExpr with
      | none => (f, .threw (RhsExecutor.unsupported "switch expression" switchExpr))
      | some value => runCases value .skip switchCases f
  | .«for» iterVar iterSourceList iterSourceVar iterSourceField bodyActions => fun f ↦
    match f.executor.collectForItems ctx iterSourceList iterSourceVar iterSourceField with
    | (y, .error error) => (y.frame, .threw error)
    | (y, .ok items) =>
      Block.forEach (scopedBlock iterVar fun g ↦ runActions bodyActions g) items y.frame
  | .«while» condition maxIterations bodyActions =>
    match condition with
    | none => .throwing (.message "RHS while action is missing a condition")
    | some condition =>
      if maxIterations ≤ 0 then
        .throwing (.message "RHS while loop requires positive max iterations")
      else
        Block.whileLoop (ctx.loopCondition condition) limitError
          (fun g ↦ runActions bodyActions g) maxIterations.toNat
  | .«break» => fun f ↦ (f, .breaking)
  | .«continue» => fun f ↦ (f, .continuing)

def runActions : List CompiledAction → Block RhsFrame RhsError
  | [] => .skip
  | action :: actions => (runAction action).andThen (runActions actions)

/-- The first case with an equal value, else the fallback, which is the last default. -/
def runCases (value : ConstraintValue) (fallback : Block RhsFrame RhsError) :
    List (SwitchCase CompiledAction) → Block RhsFrame RhsError
  | [] => fallback
  | ⟨caseValue, actions, isDefault⟩ :: cases => fun f ↦
    if isDefault then runCases value (fun g ↦ runActions actions g) cases f
    else
      match caseValue with
      | none => runCases value fallback cases f
      | some expression =>
        match f.executor.evaluateValue ctx expression with
        | none => (f, .threw (RhsExecutor.unsupported "switch case expression" expression))
        | some evaluated =>
          if valuesEqualForSwitch value evaluated then runActions actions f
          else runCases value fallback cases f

end

end RhsContext

/-! ### The flags are the exits -/

/-- The executor after a block: an exit is a request, or an exception. -/
def encodeExit : RhsFrame × Exit RhsError → RhsExecutor × Option RhsError
  | (f, .normal) => (f.executor, none)
  | (f, .breaking) => ({ f.executor with breakRequested := true }, none)
  | (f, .continuing) => ({ f.executor with continueRequested := true }, none)
  | (f, .threw error) => (f.executor, some error)

namespace RhsExecutor

/-- No request is pending. -/
def Unrequested (x : RhsExecutor) : Prop :=
  x.breakRequested = false ∧ x.continueRequested = false

theorem Unrequested.executor_frame {x : RhsExecutor} (h : x.Unrequested) :
    x.frame.executor = x := by
  obtain ⟨state, tempBindings, breakRequested, continueRequested⟩ := x
  obtain ⟨rfl, rfl⟩ : breakRequested = false ∧ continueRequested = false := h
  rfl

theorem unrequested_executor (f : RhsFrame) : f.executor.Unrequested := ⟨rfl, rfl⟩

variable {ctx : RhsContext}

/-- The requests and the loop variables of two executors are the same. -/
structure SameScope (x y : RhsExecutor) : Prop where
  breakRequested : y.breakRequested = x.breakRequested
  continueRequested : y.continueRequested = x.continueRequested
  tempBindings : y.tempBindings = x.tempBindings

theorem SameScope.refl (x : RhsExecutor) : SameScope x x := ⟨rfl, rfl, rfl⟩

theorem SameScope.trans {x y z : RhsExecutor} (h : SameScope x y) (h' : SameScope y z) :
    SameScope x z :=
  ⟨h'.breakRequested.trans h.breakRequested, h'.continueRequested.trans h.continueRequested,
    h'.tempBindings.trans h.tempBindings⟩

theorem SameScope.unrequested {x y : RhsExecutor} (h : SameScope x y) (hx : x.Unrequested) :
    y.Unrequested :=
  ⟨h.breakRequested.trans hx.1, h.continueRequested.trans hx.2⟩

theorem call_sameScope (action : RhsAction) (x : RhsExecutor) :
    SameScope x (x.call ctx action).1 := ⟨rfl, rfl, rfl⟩

theorem sameScope_of_call_eq {action : RhsAction} {x y : RhsExecutor} {error : Option RhsError}
    (h : x.call ctx action = (y, error)) : SameScope x y := by
  have hcall := @call_sameScope ctx action x
  rwa [h] at hcall

theorem assignFields_sameScope (fact : FactPtr) (assignments : List FieldAssignment)
    (changed : Bool) (hint : ModifiedFieldsHint) (x : RhsExecutor) :
    SameScope x (assignFields ctx fact assignments changed hint x).1 := by
  induction assignments generalizing changed hint x with
  | nil =>
    unfold assignFields
    split
    · exact call_sameScope _ x
    · exact .refl x
  | cons assign assignments ih =>
    unfold assignFields
    cases x.evaluateAssignment ctx assign.value with
    | error error => exact .refl x
    | ok evaluated =>
      dsimp only
      split
      · exact ih changed hint x
      · -- the write is a call, and the rest goes on from where it has led
        split
        next y error hcall => exact sameScope_of_call_eq hcall
        next y hcall =>
          exact (sameScope_of_call_eq hcall).trans (ih true (hint.add assign.fieldName) y)

theorem executeUpdate_sameScope (targetVar : String) (assignments : List FieldAssignment)
    (x : RhsExecutor) : SameScope x (x.executeUpdate ctx targetVar assignments).1 := by
  unfold executeUpdate
  cases x.getBoundFact ctx targetVar with
  | none => exact .refl x
  | some fact => exact assignFields_sameScope fact assignments false ⟨[], false⟩ x

theorem executeCreate_sameScope (targetType : String) (assignments : List FieldAssignment)
    (action : FactPtr → String → List (String × ConstraintValue) → RhsAction) (x : RhsExecutor) :
    SameScope x (x.executeCreate ctx targetType assignments action).1 := by
  unfold executeCreate
  cases ctx.kb.canonicalizeTypeName targetType with
  | none => exact .refl x
  | some type =>
    dsimp only
    cases x.createdFields ctx type assignments [] with
    | error error => exact .refl x
    | ok fields => exact call_sameScope _ x

theorem executeRetract_sameScope (targetVar : String) (x : RhsExecutor) :
    SameScope x (x.executeRetract ctx targetVar).1 := by
  unfold executeRetract
  cases x.getBoundFact ctx targetVar with
  | none => exact .refl x
  | some fact => exact call_sameScope _ x

theorem createIterators_sameScope (values : List ConstraintValue) (x : RhsExecutor) :
    SameScope x (createIterators ctx values x).1 := by
  induction values generalizing x with
  | nil => exact .refl x
  | cons value values ih =>
    unfold createIterators
    cases ctx.kb.canonicalizeTypeName "Iterator" with
    | none => exact .refl x
    | some type =>
      dsimp only
      set y := x.withSession
        (createFact (ctx.allocate x.state.session) type [("value", value)] x.state.session)
      -- the created fact is in the heap of the session alone
      have hcreated : SameScope x y := ⟨rfl, rfl, rfl⟩
      have hrest := hcreated.trans (ih y)
      split
      next z items h => rwa [h] at hrest
      next => exact hrest

/-- Collecting the items of a `for` loop may create facts, and does nothing else. -/
theorem collectForItems_sameScope (iterSourceList : List String)
    (iterSourceVar iterSourceField : String) (x : RhsExecutor) :
    SameScope x (x.collectForItems ctx iterSourceList iterSourceVar iterSourceField).1 := by
  unfold collectForItems
  split
  · exact .refl x
  · split
    · split
      · exact .refl x
      · exact .refl x
      · exact createIterators_sameScope _ x
      · exact createIterators_sameScope _ x
      · exact .refl x
    · dsimp only
      split
      · exact .refl x
      · exact .refl x
      · exact createIterators_sameScope _ x
      · exact .refl x

/-! ### The executor is the reading -/

theorem unlessRequested_of_unrequested {x : RhsExecutor} (h : x.Unrequested)
    (run : RhsExecutor × Option RhsError) : x.unlessRequested run = run := by
  unfold unlessRequested
  rw [h.1, h.2]
  rfl

@[simp] theorem unlessRequested_executor (f : RhsFrame) (run : RhsExecutor × Option RhsError) :
    f.executor.unlessRequested run = run :=
  unlessRequested_of_unrequested (unrequested_executor f) run

/-- While a request is pending, no action is executed. -/
theorem executeActions_of_requested {x : RhsExecutor}
    (h : x.breakRequested = true ∨ x.continueRequested = true) (actions : List CompiledAction) :
    x.executeActions ctx actions = (x, none) := by
  cases actions with
  | nil => rfl
  | cons action actions =>
    unfold executeActions
    rcases h with h | h <;> simp [h]

theorem encode_atomicBlock {run : RhsExecutor → RhsExecutor × Option RhsError}
    (hrun : ∀ x, SameScope x (run x).1) (f : RhsFrame) :
    run f.executor = encodeExit (atomicBlock run f) := by
  have h := (hrun f.executor).unrequested (unrequested_executor f)
  unfold atomicBlock
  match hr : run f.executor with
  | (y, none) =>
    have hy : y.frame.executor = y := Unrequested.executor_frame (by rwa [hr] at h)
    show (y, none) = (y.frame.executor, none)
    rw [hy]
  | (y, some error) =>
    have hy : y.frame.executor = y := Unrequested.executor_frame (by rwa [hr] at h)
    show (y, some error) = (y.frame.executor, some error)
    rw [hy]

/-- A body of a loop is executed as a block. -/
def Encodes (body : RhsExecutor → RhsExecutor × Option RhsError) (block : Block RhsFrame RhsError) :
    Prop :=
  ∀ f : RhsFrame, body f.executor = encodeExit (block f)

variable {block : Block RhsFrame RhsError}

theorem scopedBlock_eq {iterVar : String} {item : FactPtr}
    {f g : RhsFrame} {exit : Exit RhsError}
    (h : block { f with tempBindings := Function.update f.tempBindings iterVar (some item) } =
      (g, exit)) :
    scopedBlock iterVar block item f =
      ({ g with tempBindings := Function.update g.tempBindings iterVar (f.tempBindings iterVar) },
        exit) := by
  unfold scopedBlock
  rw [h]

theorem Encodes.forLoop {body : RhsExecutor → RhsExecutor × Option RhsError}
    (h : Encodes body block) (iterVar : String)
    (items : List FactPtr) :
    Encodes (forLoop iterVar body items) (Block.forEach (scopedBlock iterVar block) items) := by
  induction items with
  | nil => exact fun f ↦ rfl
  | cons item items ih =>
    intro f
    have hbody := h
      { f with tempBindings := Function.update f.tempBindings iterVar (some item) }
    unfold RhsExecutor.forLoop Block.forEach
    rcases hrun : block
        { f with tempBindings := Function.update f.tempBindings iterVar (some item) } with
      ⟨g, exit⟩
    cases exit with
    | normal =>
      rw [scopedBlock_eq hrun]
      simp only [hrun, RhsFrame.executor] at hbody ⊢
      simp only [hbody]
      exact ih
        { g with tempBindings := Function.update g.tempBindings iterVar (f.tempBindings iterVar) }
    | continuing =>
      rw [scopedBlock_eq hrun]
      simp only [hrun, RhsFrame.executor] at hbody ⊢
      simp only [hbody]
      -- the request is taken back before the next iteration
      exact ih
        { g with tempBindings := Function.update g.tempBindings iterVar (f.tempBindings iterVar) }
    | breaking =>
      rw [scopedBlock_eq hrun]
      simp only [hrun, RhsFrame.executor] at hbody ⊢
      simp only [hbody]
      rfl
    | threw error =>
      rw [scopedBlock_eq hrun]
      simp only [hrun, RhsFrame.executor] at hbody ⊢
      simp only [hbody]
      rfl

/-- The condition of a loop as a block reads it. -/
theorem Encodes.whileLoop {body : RhsExecutor → RhsExecutor × Option RhsError}
    (h : Encodes body block) (condition : List Char)
    (maxIterations : ℤ) (n : ℕ) (iterations : ℤ) (hn : iterations + n = maxIterations) :
    Encodes
      (RhsExecutor.whileLoop (fun y ↦ y.evaluateCondition ctx condition)
        (unsupported "while condition" condition) maxIterations body iterations)
      (Block.whileLoop (ctx.loopCondition condition) RhsContext.limitError block n) := by
  induction n generalizing iterations with
  | zero =>
    intro f
    have hlimit : maxIterations ≤ iterations := by omega
    unfold RhsExecutor.whileLoop Block.whileLoop RhsContext.loopCondition
    cases f.executor.evaluateCondition ctx condition with
    | none => rfl
    | some b =>
      cases b with
      | false => rfl
      | true => exact if_pos hlimit
  | succ n ih =>
    intro f
    have hlimit : ¬ maxIterations ≤ iterations := by omega
    have hbody := h f
    unfold RhsExecutor.whileLoop Block.whileLoop RhsContext.loopCondition
    cases f.executor.evaluateCondition ctx condition with
    | none => rfl
    | some b =>
      cases b with
      | false => rfl
      | true =>
        simp only [if_neg hlimit, hbody]
        rcases hrun : block f with ⟨g, exit⟩
        cases exit with
        | normal => exact ih (iterations + 1) (by omega) g
        | continuing => exact ih (iterations + 1) (by omega) g
        | breaking => rfl
        | threw error => rfl

mutual

/-- **An action is executed as its block**, when no request is pending. -/
theorem executeAction_eq : ∀ (action : CompiledAction) (f : RhsFrame),
    f.executor.executeAction ctx action = encodeExit (ctx.runAction action f)
  | .update targetVar assignments, f => by
    unfold executeAction RhsContext.runAction
    rw [unlessRequested_executor]
    exact encode_atomicBlock (executeUpdate_sameScope targetVar assignments) f
  | .insert targetType assignments, f => by
    unfold executeAction RhsContext.runAction
    rw [unlessRequested_executor]
    exact encode_atomicBlock (executeCreate_sameScope targetType assignments .insert) f
  | .insertLogical targetType assignments, f => by
    unfold executeAction RhsContext.runAction
    rw [unlessRequested_executor]
    exact encode_atomicBlock (executeCreate_sameScope targetType assignments .insertLogical) f
  | .retract targetVar, f => by
    unfold executeAction RhsContext.runAction
    rw [unlessRequested_executor]
    exact encode_atomicBlock (executeRetract_sameScope targetVar) f
  | .halt, f => by
    unfold executeAction RhsContext.runAction
    rw [unlessRequested_executor]
    exact encode_atomicBlock (call_sameScope .halt) f
  | .setFocus focusGroup, f => by
    unfold executeAction RhsContext.runAction
    rw [unlessRequested_executor]
    exact encode_atomicBlock (call_sameScope (.setFocus focusGroup)) f
  | .«if» none thenActions elseActions, f => by
    unfold executeAction RhsContext.runAction
    rw [unlessRequested_executor]
    rfl
  | .«if» (some condition) thenActions elseActions, f => by
    unfold executeAction RhsContext.runAction
    rw [unlessRequested_executor]
    dsimp only
    match f.executor.evaluateCondition ctx condition with
    | none => rfl
    | some true => exact executeActions_eq thenActions f
    | some false => exact executeActions_eq elseActions f
  | .switch none switchCases, f => by
    unfold executeAction RhsContext.runAction
    rw [unlessRequested_executor]
    rfl
  | .switch (some switchExpr) switchCases, f => by
    unfold executeAction RhsContext.runAction
    rw [unlessRequested_executor]
    dsimp only
    match f.executor.evaluateValue ctx switchExpr with
    | none => rfl
    | some value => exact executeCases_eq value .skip switchCases f
  | .«for» iterVar iterSourceList iterSourceVar iterSourceField bodyActions, f => by
    unfold executeAction RhsContext.runAction
    rw [unlessRequested_executor]
    have hscope := @collectForItems_sameScope ctx iterSourceList iterSourceVar iterSourceField
      f.executor
    match hitems : f.executor.collectForItems ctx iterSourceList iterSourceVar iterSourceField with
    | (y, .error error) =>
      rw [hitems] at hscope
      have hy := (hscope.unrequested (unrequested_executor f)).executor_frame
      show (y, some error) = (y.frame.executor, some error)
      rw [hy]
    | (y, .ok items) =>
      rw [hitems] at hscope
      have hy := (hscope.unrequested (unrequested_executor f)).executor_frame
      have hbody : Encodes (fun z ↦ z.executeActions ctx bodyActions)
          (fun g ↦ ctx.runActions bodyActions g) := executeActions_eq bodyActions
      have hloop := hbody.forLoop iterVar items y.frame
      rw [hy] at hloop
      exact hloop
  | .«while» none maxIterations bodyActions, f => by
    unfold executeAction RhsContext.runAction
    rw [unlessRequested_executor]
    rfl
  | .«while» (some condition) maxIterations bodyActions, f => by
    unfold executeAction RhsContext.runAction
    rw [unlessRequested_executor]
    dsimp only
    by_cases hmax : maxIterations ≤ 0
    · rw [if_pos hmax, if_pos hmax]
      rfl
    · rw [if_neg hmax, if_neg hmax]
      have hbody : Encodes (fun z ↦ z.executeActions ctx bodyActions)
          (fun g ↦ ctx.runActions bodyActions g) := executeActions_eq bodyActions
      exact hbody.whileLoop condition maxIterations maxIterations.toNat 0 (by omega) f
  | .«break», f => rfl
  | .«continue», f => rfl

theorem executeActions_eq : ∀ (actions : List CompiledAction) (f : RhsFrame),
    f.executor.executeActions ctx actions = encodeExit (ctx.runActions actions f)
  | [], f => by
    unfold executeActions RhsContext.runActions
    rfl
  | action :: actions, f => by
    have haction := executeAction_eq action f
    unfold executeActions RhsContext.runActions Block.andThen
    have hunrequested : ¬ (f.executor.breakRequested || f.executor.continueRequested) := nofun
    rw [if_neg hunrequested, haction]
    match ctx.runAction action f with
    | (g, .normal) => exact executeActions_eq actions g
    -- a request that is pending skips the rest of the list, as an exit does
    | (g, .breaking) => exact executeActions_of_requested (.inl rfl) actions
    | (g, .continuing) => exact executeActions_of_requested (.inr rfl) actions
    | (g, .threw error) => rfl

theorem executeCases_eq (value : ConstraintValue) : ∀ (fallback : Block RhsFrame RhsError)
    (cases : List (SwitchCase CompiledAction)) (f : RhsFrame),
    f.executor.executeCases ctx value (encodeExit (fallback f)) cases =
      encodeExit (ctx.runCases value fallback cases f)
  | fallback, [], f => by
    unfold executeCases RhsContext.runCases
    rfl
  | fallback, ⟨caseValue, actions, isDefault⟩ :: cases, f => by
    unfold executeCases RhsContext.runCases
    cases isDefault with
    | true =>
      show f.executor.executeCases ctx value (f.executor.executeActions ctx actions) cases = _
      rw [executeActions_eq actions f]
      exact executeCases_eq value (fun g ↦ ctx.runActions actions g) cases f
    | false =>
      match caseValue with
      | none => exact executeCases_eq value fallback cases f
      | some expression =>
        dsimp only
        match f.executor.evaluateValue ctx expression with
        | none => rfl
        | some evaluated =>
          show (if valuesEqualForSwitch value evaluated then f.executor.executeActions ctx actions
            else f.executor.executeCases ctx value (encodeExit (fallback f)) cases) = _
          by_cases hequal : valuesEqualForSwitch value evaluated = true
          · rw [if_pos hequal]
            simpa [hequal] using executeActions_eq actions f
          · rw [if_neg hequal]
            simpa [hequal] using executeCases_eq value fallback cases f

end

end RhsExecutor

/-! ### Nothing to catch outside of loops -/

section Catches

variable (ctx : RhsContext)

theorem catches_atomicBlock (run : RhsExecutor → RhsExecutor × Option RhsError) (f : RhsFrame) :
    (atomicBlock run).Catches f := by
  unfold Block.Catches atomicBlock
  match run f.executor with
  | (y, none) => exact ⟨nofun, nofun⟩
  | (y, some error) => exact ⟨nofun, nofun⟩

/-- A loop catches, whatever is in it. -/
theorem catches_for (iterVar : String) (iterSourceList : List String)
    (iterSourceVar iterSourceField : String) (bodyActions : List CompiledAction) (f : RhsFrame) :
    (ctx.runAction
      (.«for» iterVar iterSourceList iterSourceVar iterSourceField bodyActions)).Catches f := by
  unfold Block.Catches RhsContext.runAction
  match f.executor.collectForItems ctx iterSourceList iterSourceVar iterSourceField with
  | (y, .error error) => exact ⟨nofun, nofun⟩
  | (y, .ok items) => exact Block.catches_forEach _ items y.frame

theorem catches_while (condition : Option (List Char)) (maxIterations : ℤ)
    (bodyActions : List CompiledAction) (f : RhsFrame) :
    (ctx.runAction (.«while» condition maxIterations bodyActions)).Catches f := by
  unfold RhsContext.runAction
  cases condition with
  | none => exact ⟨nofun, nofun⟩
  | some condition =>
    dsimp only
    split
    · exact ⟨nofun, nofun⟩
    · exact Block.catches_whileLoop _ f

mutual

/-- **Outside of loops an accepted action ends normally or by an error.** -/
theorem catches_runAction : ∀ {action : CompiledAction}, lowerAction false action = none →
    ∀ f, (ctx.runAction action).Catches f
  | .update _ _, _ => by unfold RhsContext.runAction; exact catches_atomicBlock _
  | .insert _ _, _ => by unfold RhsContext.runAction; exact catches_atomicBlock _
  | .insertLogical _ _, _ => by unfold RhsContext.runAction; exact catches_atomicBlock _
  | .retract _, _ => by unfold RhsContext.runAction; exact catches_atomicBlock _
  | .halt, _ => by unfold RhsContext.runAction; exact catches_atomicBlock _
  | .setFocus _, _ => by unfold RhsContext.runAction; exact catches_atomicBlock _
  | .«if» none _ _, _ => fun f ↦ by
    unfold RhsContext.runAction
    exact ⟨nofun, nofun⟩
  | .«if» (some condition) thenActions elseActions, h => fun f ↦ by
    obtain ⟨hthen, helse⟩ : appendActions false thenActions = none ∧
        appendActions false elseActions = none := Option.or_eq_none_iff.mp h
    unfold Block.Catches RhsContext.runAction
    dsimp only
    match f.executor.evaluateCondition ctx condition with
    | none => exact ⟨nofun, nofun⟩
    | some true => exact catches_runActions hthen f
    | some false => exact catches_runActions helse f
  | .switch none _, _ => fun f ↦ by
    unfold RhsContext.runAction
    exact ⟨nofun, nofun⟩
  | .switch (some switchExpr) switchCases, h => fun f ↦ by
    have hcases : appendCases false false none switchCases = none := h
    unfold Block.Catches RhsContext.runAction
    dsimp only
    match f.executor.evaluateValue ctx switchExpr with
    | none => exact ⟨nofun, nofun⟩
    | some value =>
      exact catches_runCases value hcases (fun _ ↦ Block.catches_skip) f
  | .«for» iterVar iterSourceList iterSourceVar iterSourceField bodyActions, _ =>
    catches_for ctx iterVar iterSourceList iterSourceVar iterSourceField bodyActions
  | .«while» condition maxIterations bodyActions, _ =>
    catches_while ctx condition maxIterations bodyActions
  | .«break», h => nomatch h
  | .«continue», h => nomatch h

theorem catches_runActions : ∀ {actions : List CompiledAction},
    appendActions false actions = none → ∀ f, (ctx.runActions actions).Catches f
  | [], _ => Block.catches_skip
  | action :: actions, h => by
    obtain ⟨haction, hactions⟩ : lowerAction false action = none ∧
        appendActions false actions = none := Option.or_eq_none_iff.mp h
    exact Block.Catches.andThen (catches_runAction haction) (catches_runActions hactions)

theorem catches_runCases (value : ConstraintValue) : ∀ {cases : List (SwitchCase CompiledAction)}
    {emitted : Bool} {default : Option (Option String)} {fallback : Block RhsFrame RhsError},
    appendCases false emitted default cases = none →
    (default.join = none → ∀ f, fallback.Catches f) →
    ∀ f, (ctx.runCases value fallback cases).Catches f
  | [], emitted, default, fallback, h, hfallback => by
    refine hfallback ?_
    match default, h with
    | none, _ => rfl
    | some none, _ => rfl
  | ⟨caseValue, actions, true⟩ :: cases, emitted, default, fallback, h, hfallback => fun f ↦ by
    have hcases : appendCases false emitted (some (appendActions false actions)) cases = none := h
    unfold Block.Catches RhsContext.runCases
    -- the actions of the default are the fallback from here on
    exact catches_runCases value hcases (fun hjoin ↦ catches_runActions hjoin) f
  | ⟨none, actions, false⟩ :: cases, emitted, default, fallback, h, hfallback => nomatch h
  | ⟨some expression, actions, false⟩ :: cases, emitted, default, fallback, h, hfallback =>
    fun f ↦ by
    obtain ⟨hactions, hcases⟩ : appendActions false actions = none ∧
        appendCases false true default cases = none := Option.or_eq_none_iff.mp h
    unfold Block.Catches RhsContext.runCases
    dsimp only
    match f.executor.evaluateValue ctx expression with
    | none => exact ⟨nofun, nofun⟩
    | some evaluated =>
      by_cases hequal : valuesEqualForSwitch value evaluated = true
      · simpa [hequal, Block.Catches] using catches_runActions hactions f
      · simpa [hequal, Block.Catches] using catches_runCases value hcases hfallback f

end

end Catches

/-! ### The loop variables -/

section Bindings

variable (ctx : RhsContext)

/-- The loop variables denote the same facts. -/
def SameBindings (f g : RhsFrame) : Prop := g.tempBindings = f.tempBindings

theorem SameBindings.refl (f : RhsFrame) : SameBindings f f := rfl

theorem SameBindings.trans {f g h : RhsFrame} (hfg : SameBindings f g) (hgh : SameBindings g h) :
    SameBindings f h := Eq.trans hgh hfg

theorem keeps_atomicBlock {run : RhsExecutor → RhsExecutor × Option RhsError}
    (hrun : ∀ x, RhsExecutor.SameScope x (run x).1) :
    Block.Keeps SameBindings (atomicBlock run) := by
  intro f
  have h := (hrun f.executor).tempBindings
  unfold atomicBlock
  match hr : run f.executor with
  | (y, none) => rwa [hr] at h
  | (y, some error) => rwa [hr] at h

/-- **The binding that a loop variable shadows is put back.** -/
theorem keeps_scopedBlock {iterVar : String} {body : Block RhsFrame RhsError}
    (hbody : Block.Keeps SameBindings body) (item : FactPtr) :
    Block.Keeps SameBindings (scopedBlock iterVar body item) := by
  intro f
  have h := hbody
    { f with tempBindings := Function.update f.tempBindings iterVar (some item) }
  unfold SameBindings at h
  show Function.update _ iterVar (f.tempBindings iterVar) = f.tempBindings
  rw [h]
  show Function.update (Function.update f.tempBindings iterVar (some item)) iterVar
    (f.tempBindings iterVar) = f.tempBindings
  rw [Function.update_idem, Function.update_eq_self]

mutual

theorem keeps_runAction : ∀ action : CompiledAction,
    Block.Keeps SameBindings (ctx.runAction action)
  | .update targetVar assignments => by
    unfold RhsContext.runAction
    exact keeps_atomicBlock (RhsExecutor.executeUpdate_sameScope targetVar assignments)
  | .insert targetType assignments => by
    unfold RhsContext.runAction
    exact keeps_atomicBlock (RhsExecutor.executeCreate_sameScope targetType assignments .insert)
  | .insertLogical targetType assignments => by
    unfold RhsContext.runAction
    exact keeps_atomicBlock
      (RhsExecutor.executeCreate_sameScope targetType assignments .insertLogical)
  | .retract targetVar => by
    unfold RhsContext.runAction
    exact keeps_atomicBlock (RhsExecutor.executeRetract_sameScope targetVar)
  | .halt => by
    unfold RhsContext.runAction
    exact keeps_atomicBlock (RhsExecutor.call_sameScope .halt)
  | .setFocus focusGroup => by
    unfold RhsContext.runAction
    exact keeps_atomicBlock (RhsExecutor.call_sameScope (.setFocus focusGroup))
  | .«if» none _ _ => fun f ↦ by
    unfold RhsContext.runAction
    exact .refl f
  | .«if» (some condition) thenActions elseActions => fun f ↦ by
    unfold RhsContext.runAction
    dsimp only
    match f.executor.evaluateCondition ctx condition with
    | none => exact .refl f
    | some true => exact keeps_runActions thenActions f
    | some false => exact keeps_runActions elseActions f
  | .switch none _ => fun f ↦ by
    unfold RhsContext.runAction
    exact .refl f
  | .switch (some switchExpr) switchCases => fun f ↦ by
    unfold RhsContext.runAction
    dsimp only
    match f.executor.evaluateValue ctx switchExpr with
    | none => exact .refl f
    | some value => exact keeps_runCases value (Block.keeps_skip .refl) switchCases f
  | .«for» iterVar iterSourceList iterSourceVar iterSourceField bodyActions => fun f ↦ by
    have hscope := (@RhsExecutor.collectForItems_sameScope ctx iterSourceList iterSourceVar
      iterSourceField f.executor).tempBindings
    unfold RhsContext.runAction
    match hitems : f.executor.collectForItems ctx iterSourceList iterSourceVar iterSourceField with
    | (y, .error error) => rwa [hitems] at hscope
    | (y, .ok items) =>
      rw [hitems] at hscope
      have hbody : ∀ item, Block.Keeps SameBindings
          (scopedBlock iterVar (fun g ↦ ctx.runActions bodyActions g) item) :=
        keeps_scopedBlock (keeps_runActions bodyActions)
      have hloop := Block.keeps_forEach .refl .trans hbody items y.frame
      have hcollected : SameBindings f y.frame := hscope
      exact hcollected.trans hloop
  | .«while» none _ _ => fun f ↦ by
    unfold RhsContext.runAction
    exact .refl f
  | .«while» (some condition) maxIterations bodyActions => fun f ↦ by
    unfold RhsContext.runAction
    dsimp only
    split
    · exact .refl f
    · exact Block.keeps_whileLoop .refl .trans (keeps_runActions bodyActions) _ f
  | .«break» => fun f ↦ by
    unfold RhsContext.runAction
    exact .refl f
  | .«continue» => fun f ↦ by
    unfold RhsContext.runAction
    exact .refl f

theorem keeps_runActions : ∀ actions : List CompiledAction,
    Block.Keeps SameBindings (ctx.runActions actions)
  | [] => by
    unfold RhsContext.runActions
    exact Block.keeps_skip .refl
  | action :: actions => by
    unfold RhsContext.runActions
    exact .andThen .trans (keeps_runAction action) (keeps_runActions actions)

theorem keeps_runCases (value : ConstraintValue) : ∀ {fallback : Block RhsFrame RhsError},
    Block.Keeps SameBindings fallback → ∀ cases : List (SwitchCase CompiledAction),
    Block.Keeps SameBindings (ctx.runCases value fallback cases)
  | fallback, hfallback, [] => by
    unfold RhsContext.runCases
    exact hfallback
  | fallback, hfallback, ⟨caseValue, actions, true⟩ :: cases => fun f ↦ by
    unfold RhsContext.runCases
    exact keeps_runCases value (keeps_runActions actions) cases f
  | fallback, hfallback, ⟨none, actions, false⟩ :: cases => fun f ↦ by
    unfold RhsContext.runCases
    exact keeps_runCases value hfallback cases f
  | fallback, hfallback, ⟨some expression, actions, false⟩ :: cases => fun f ↦ by
    unfold RhsContext.runCases
    dsimp only
    match f.executor.evaluateValue ctx expression with
    | none => exact .refl f
    | some evaluated =>
      by_cases hequal : valuesEqualForSwitch value evaluated = true
      · simpa [hequal] using keeps_runActions actions f
      · simpa [hequal] using keeps_runCases value hfallback cases f

end

end Bindings

/-! ### What an execution comes to -/

section Visits

variable (ctx : RhsContext)

/-- The actions that a `switch` selects by its cases, else by the last default. -/
def selectCase (x : RhsExecutor) (value : ConstraintValue) :
    Option (List CompiledAction) → List (SwitchCase CompiledAction) → Option (List CompiledAction)
  | fallback, [] => fallback
  | fallback, ⟨caseValue, actions, isDefault⟩ :: cases =>
    if isDefault then selectCase x value (some actions) cases
    else
      match caseValue with
      | none => selectCase x value fallback cases
      | some expression =>
        match x.evaluateValue ctx expression with
        | none => none
        | some evaluated =>
          if valuesEqualForSwitch value evaluated then some actions
          else selectCase x value fallback cases

/-- An iteration of a `for` loop starts in a state. -/
inductive ForEnters (iterVar : String) (bodyActions : List CompiledAction) :
    List FactPtr → RhsExecutor → RhsExecutor → Prop
  | here {item items x} : ForEnters iterVar bodyActions (item :: items) x
      { x with tempBindings := Function.update x.tempBindings iterVar (some item) }
  | later {item items} {x y z : RhsExecutor}
      (hbody : RhsExecutor.executeActions ctx
        { x with tempBindings := Function.update x.tempBindings iterVar (some item) }
        bodyActions = (y, none))
      (hbreak : y.breakRequested = false)
      (hrest : ForEnters iterVar bodyActions items
        { y with
          tempBindings := Function.update y.tempBindings iterVar (x.tempBindings iterVar)
          continueRequested := false } z) :
      ForEnters iterVar bodyActions (item :: items) x z

/-- An iteration of a `while` loop starts in a state, from a number of iterations on. -/
inductive WhileEnters (condition : List Char) (maxIterations : ℤ)
    (bodyActions : List CompiledAction) : ℤ → RhsExecutor → RhsExecutor → Prop
  | here {iterations x} (hcondition : x.evaluateCondition ctx condition = some true)
      (hlimit : iterations < maxIterations) :
      WhileEnters condition maxIterations bodyActions iterations x x
  | later {iterations} {x y z : RhsExecutor}
      (hcondition : x.evaluateCondition ctx condition = some true)
      (hlimit : iterations < maxIterations)
      (hbody : x.executeActions ctx bodyActions = (y, none)) (hbreak : y.breakRequested = false)
      (hrest : WhileEnters condition maxIterations bodyActions (iterations + 1)
        { y with continueRequested := false } z) :
      WhileEnters condition maxIterations bodyActions iterations x z

/-- An execution comes to an action, within so many loops. -/
inductive Visits : List CompiledAction → RhsExecutor → ℕ → CompiledAction → RhsExecutor → Prop
  | here {action actions x} : Visits (action :: actions) x 0 action x
  | later {action actions} {x y : RhsExecutor} {depth visited z} (hx : x.Unrequested)
      (hrun : x.executeAction ctx action = (y, none))
      (hvisit : Visits actions y depth visited z) :
      Visits (action :: actions) x depth visited z
  | thenBranch {condition thenActions elseActions actions} {x : RhsExecutor} {depth visited z}
      (hx : x.Unrequested) (hcondition : x.evaluateCondition ctx condition = some true)
      (hvisit : Visits thenActions x depth visited z) :
      Visits (.«if» (some condition) thenActions elseActions :: actions) x depth visited z
  | elseBranch {condition thenActions elseActions actions} {x : RhsExecutor} {depth visited z}
      (hx : x.Unrequested) (hcondition : x.evaluateCondition ctx condition = some false)
      (hvisit : Visits elseActions x depth visited z) :
      Visits (.«if» (some condition) thenActions elseActions :: actions) x depth visited z
  | switchCase {switchExpr switchCases actions value selected} {x : RhsExecutor}
      {depth visited z} (hx : x.Unrequested)
      (hvalue : x.evaluateValue ctx switchExpr = some value)
      (hselect : selectCase ctx x value none switchCases = some selected)
      (hvisit : Visits selected x depth visited z) :
      Visits (.switch (some switchExpr) switchCases :: actions) x depth visited z
  | forBody {iterVar iterSourceList iterSourceVar iterSourceField bodyActions actions items}
      {x y w : RhsExecutor} {depth visited z} (hx : x.Unrequested)
      (hitems : x.collectForItems ctx iterSourceList iterSourceVar iterSourceField =
        (y, .ok items))
      (henter : ForEnters ctx iterVar bodyActions items y w)
      (hvisit : Visits bodyActions w depth visited z) :
      Visits (.«for» iterVar iterSourceList iterSourceVar iterSourceField bodyActions :: actions)
        x (depth + 1) visited z
  | whileBody {condition maxIterations bodyActions actions} {x w : RhsExecutor}
      {depth visited z} (hx : x.Unrequested)
      (henter : WhileEnters ctx condition maxIterations bodyActions 0 x w)
      (hvisit : Visits bodyActions w depth visited z) :
      Visits (.«while» (some condition) maxIterations bodyActions :: actions) x (depth + 1)
        visited z

end Visits

section Controlled

variable {ctx : RhsContext}

/-- The actions that a `switch` selects have been lowered. -/
theorem appendActions_selectCase {inLoop : Bool} {x : RhsExecutor} {value : ConstraintValue}
    {selected : List CompiledAction} : ∀ {cases : List (SwitchCase CompiledAction)}
    {emitted : Bool} {default : Option (Option String)} {fallback : Option (List CompiledAction)},
    appendCases inLoop emitted default cases = none →
    (default.join = none → ∀ actions, fallback = some actions →
      appendActions inLoop actions = none) →
    selectCase ctx x value fallback cases = some selected → appendActions inLoop selected = none
  | [], emitted, default, fallback, h, hfallback, hselect => by
    refine hfallback ?_ selected hselect
    match default, h with
    | none, _ => rfl
    | some none, _ => rfl
  | ⟨caseValue, actions, true⟩ :: cases, emitted, default, fallback, h, hfallback, hselect => by
    have hcases : appendCases inLoop emitted (some (appendActions inLoop actions)) cases = none := h
    refine appendActions_selectCase hcases ?_ hselect
    rintro hjoin _ ⟨⟩
    exact hjoin
  | ⟨none, actions, false⟩ :: cases, emitted, default, fallback, h, hfallback, hselect => nomatch h
  | ⟨some expression, actions, false⟩ :: cases, emitted, default, fallback, h, hfallback,
      hselect => by
    obtain ⟨hactions, hcases⟩ : appendActions inLoop actions = none ∧
        appendCases inLoop true default cases = none := Option.or_eq_none_iff.mp h
    unfold selectCase at hselect
    dsimp only at hselect
    cases hvalue : x.evaluateValue ctx expression with
    | none =>
      rw [hvalue] at hselect
      exact nomatch hselect
    | some evaluated =>
      simp only [hvalue, Bool.false_eq_true, if_false] at hselect
      split at hselect
      · cases hselect
        exact hactions
      · exact appendActions_selectCase hcases hfallback hselect

variable {action : CompiledAction}

/-- **What is visited has been lowered**, in a loop if a loop is around it. -/
theorem Visits.lowered {inLoop : Bool} {actions : List CompiledAction} {x z : RhsExecutor}
    {depth : ℕ} (h : Visits ctx actions x depth action z)
    (haccepted : appendActions inLoop actions = none) :
    lowerAction (inLoop || decide (0 < depth)) action = none := by
  induction h generalizing inLoop with
  | here =>
    have h := (Option.or_eq_none_iff.mp haccepted).1
    simpa using h
  | later hx hrun hvisit ih => exact ih (Option.or_eq_none_iff.mp haccepted).2
  | thenBranch hx hcondition hvisit ih =>
    have h := (Option.or_eq_none_iff.mp haccepted).1
    exact ih (Option.or_eq_none_iff.mp h).1
  | elseBranch hx hcondition hvisit ih =>
    have h := (Option.or_eq_none_iff.mp haccepted).1
    exact ih (Option.or_eq_none_iff.mp h).2
  | switchCase hx hvalue hselect hvisit ih =>
    have h : appendCases inLoop false none _ = none := (Option.or_eq_none_iff.mp haccepted).1
    exact ih (appendActions_selectCase h (by rintro _ _ ⟨⟩) hselect)
  | forBody hx hitems henter hvisit ih =>
    have h : appendActions true _ = none := (Option.or_eq_none_iff.mp haccepted).1
    simpa using ih h
  | @whileBody condition maxIterations bodyActions _ _ _ _ _ _ hx henter hvisit ih =>
    have h : lowerAction inLoop (.«while» (some condition) maxIterations bodyActions) = none :=
      (Option.or_eq_none_iff.mp haccepted).1
    unfold lowerAction at h
    simp only [reduceCtorEq, if_false] at h
    split at h
    · exact nomatch h
    · simpa using ih h

theorem encodeExit_unrequested {r : RhsFrame × Exit RhsError} (hbreak : r.2 ≠ .breaking)
    (hcontinue : r.2 ≠ .continuing) : (encodeExit r).1.Unrequested := by
  match r with
  | (f, .normal) => exact ⟨rfl, rfl⟩
  | (f, .breaking) => exact absurd rfl hbreak
  | (f, .continuing) => exact absurd rfl hcontinue
  | (f, .threw error) => exact ⟨rfl, rfl⟩

theorem RhsExecutor.Unrequested.executeAction_eq {x : RhsExecutor} (hx : x.Unrequested)
    (action : CompiledAction) :
    x.executeAction ctx action = encodeExit (ctx.runAction action x.frame) := by
  have h := @RhsExecutor.executeAction_eq ctx action x.frame
  rwa [hx.executor_frame] at h

/-- Outside of loops no request is left pending, also by an exception. -/
theorem executeAction_unrequested
    (haccepted : lowerAction false action = none) {x : RhsExecutor} (hx : x.Unrequested) :
    (x.executeAction ctx action).1.Unrequested := by
  have h := catches_runAction ctx haccepted x.frame
  rw [hx.executeAction_eq]
  exact encodeExit_unrequested h.1 h.2

theorem executeActions_unrequested {actions : List CompiledAction}
    (haccepted : appendActions false actions = none) {x : RhsExecutor} (hx : x.Unrequested) :
    (x.executeActions ctx actions).1.Unrequested := by
  have h := catches_runActions ctx haccepted x.frame
  have hrun := @RhsExecutor.executeActions_eq ctx actions x.frame
  rw [hx.executor_frame] at hrun
  rw [hrun]
  exact encodeExit_unrequested h.1 h.2

/-- **No request is pending where no loop is being executed.** -/
theorem Visits.unrequested {actions : List CompiledAction} {x z : RhsExecutor} {depth : ℕ}
    (h : Visits ctx actions x depth action z) (hdepth : depth = 0)
    (haccepted : appendActions false actions = none) (hx : x.Unrequested) : z.Unrequested := by
  induction h with
  | here => exact hx
  | @later action _ x y _ _ _ _ hrun hvisit ih =>
    obtain ⟨haction, hactions⟩ := Option.or_eq_none_iff.mp haccepted
    have hy : (x.executeAction ctx action).1.Unrequested := executeAction_unrequested haction hx
    rw [hrun] at hy
    exact ih hdepth hactions hy
  | thenBranch _ hcondition hvisit ih =>
    have h := (Option.or_eq_none_iff.mp haccepted).1
    exact ih hdepth (Option.or_eq_none_iff.mp h).1 hx
  | elseBranch _ hcondition hvisit ih =>
    have h := (Option.or_eq_none_iff.mp haccepted).1
    exact ih hdepth (Option.or_eq_none_iff.mp h).2 hx
  | switchCase _ hvalue hselect hvisit ih =>
    have h : appendCases false false none _ = none := (Option.or_eq_none_iff.mp haccepted).1
    exact ih hdepth (appendActions_selectCase h (by rintro _ _ ⟨⟩) hselect) hx
  | forBody => omega
  | whileBody => omega

/-- A loop action. -/
def CompiledAction.IsLoop : CompiledAction → Bool
  | .«for» _ _ _ _ _ => true
  | .«while» _ _ _ => true
  | _ => false

theorem catches_loop (hloop : action.IsLoop = true) (f : RhsFrame) :
    (ctx.runAction action).Catches f := by
  match action, hloop with
  | .«for» iterVar iterSourceList iterSourceVar iterSourceField bodyActions, _ =>
    exact catches_for ctx iterVar iterSourceList iterSourceVar iterSourceField bodyActions f
  | .«while» condition maxIterations bodyActions, _ =>
    exact catches_while ctx condition maxIterations bodyActions f

/-- What the control flow of an action is, when it is executed with no request pending. -/
structure Controlled (ctx : RhsContext) (action : CompiledAction) (z : RhsExecutor) : Prop where
  /-- A `break` or a `continue` ends the blocks up to the innermost loop, and no more. -/
  block : z.executeAction ctx action = encodeExit (ctx.runAction action z.frame)
  bindings : (z.executeAction ctx action).1.tempBindings = z.tempBindings
  /-- After a loop no request is pending, so that the next action is not skipped. -/
  afterLoop : action.IsLoop = true → (z.executeAction ctx action).1.Unrequested
  /-- A `while` loop makes at most so many entries, and then one thing stops it. -/
  entries : ∀ condition maxIterations bodyActions,
    action = .«while» condition maxIterations bodyActions →
    ∃ text, condition = some text ∧ 0 < maxIterations ∧
      ∀ result, ctx.runAction action z.frame = result ↔
        ∃ n f, n ≤ maxIterations.toNat ∧
          Block.Entries (ctx.loopCondition text) (ctx.runActions bodyActions) n z.frame f ∧
          Block.Stops (ctx.loopCondition text) RhsContext.limitError (ctx.runActions bodyActions)
            maxIterations.toNat n f result

theorem controlled_of_lowered {inLoop : Bool}
    (haccepted : lowerAction inLoop action = none) {z : RhsExecutor} (hz : z.Unrequested) :
    Controlled ctx action z where
  block := hz.executeAction_eq action
  bindings := by
    have h := keeps_runAction ctx action z.frame
    rw [hz.executeAction_eq]
    match hrun : ctx.runAction action z.frame with
    | (f, .normal) => rwa [hrun] at h
    | (f, .breaking) => rwa [hrun] at h
    | (f, .continuing) => rwa [hrun] at h
    | (f, .threw error) => rwa [hrun] at h
  afterLoop := by
    intro hloop
    have h : (ctx.runAction action).Catches z.frame := catches_loop hloop z.frame
    rw [hz.executeAction_eq]
    exact encodeExit_unrequested h.1 h.2
  entries := by
    rintro condition maxIterations bodyActions rfl
    unfold lowerAction at haccepted
    cases condition with
    | none => exact nomatch haccepted
    | some text =>
      simp only [reduceCtorEq, if_false] at haccepted
      have hmax : ¬ maxIterations ≤ 0 := by
        intro hmax
        rw [if_pos hmax] at haccepted
        exact nomatch haccepted
      refine ⟨text, rfl, by omega, fun result ↦ ?_⟩
      unfold RhsContext.runAction
      dsimp only
      rw [if_neg hmax]
      exact Block.whileLoop_eq_iff

/-- **Control flow.** Of an accepted action tree, executed with no request pending: no request is
left pending; at every action that the execution comes to outside of loops none is pending, before
and after it; and every action that is executed is controlled. -/
theorem controlFlow {actions rootActions : List CompiledAction}
    (hbuild : buildPlan actions false = .ok rootActions) {x : RhsExecutor} (hx : x.Unrequested) :
    (x.executeActions ctx rootActions).1.Unrequested ∧
      ∀ depth action z, Visits ctx rootActions x depth action z →
        (depth = 0 → z.Unrequested ∧ (z.executeAction ctx action).1.Unrequested) ∧
        (z.Unrequested → Controlled ctx action z) := by
  obtain ⟨rfl, haccepted⟩ : rootActions = actions ∧ appendActions false actions = none := by
    unfold buildPlan at hbuild
    split at hbuild
    · cases hbuild
    · cases hbuild
      exact ⟨rfl, ‹_›⟩
  refine ⟨executeActions_unrequested haccepted hx, fun depth action z hvisit ↦ ⟨?_, ?_⟩⟩
  · rintro rfl
    have hz := hvisit.unrequested rfl haccepted hx
    exact ⟨hz, executeAction_unrequested (by simpa using hvisit.lowered haccepted) hz⟩
  · exact controlled_of_lowered (hvisit.lowered haccepted)

end Controlled

/-- A loop with the limit 2 that a `break` leaves in its first iteration, and a `halt` after it. -/
def breakingPlan : List CompiledAction :=
  [.«while» (some "true".toList) 2
      [.«if» (some "true".toList) [.«break»] [.«continue»]],
    .halt]

/-- A right-hand side of a rule without patterns. -/
def bareContext : RhsContext where
  kb :=
    { rules := []
      network := {}
      runtime := noExpressions
      hashes := ⟨fun p ↦ p, fun _ ↦ 0, fun rule ↦ rule⟩
      validate := fun _ ↦ true
      nestingLimit := 0 }
  steps := 0
  token := .root
  bindings := []
  library := bareLibrary
  allocate := fun _ ↦ 1

theorem controlFlow_breakingPlan :
    let x : RhsExecutor := { state := { session := { heap := fun _ ↦ {} } } }
    (x.executeActions bareContext breakingPlan).1.Unrequested ∧
      ∀ depth action z, Visits bareContext breakingPlan x depth action z →
        (depth = 0 → z.Unrequested ∧ (z.executeAction bareContext action).1.Unrequested) ∧
        (z.Unrequested → Controlled bareContext action z) := by
  have hbuild : buildPlan breakingPlan false = .ok breakingPlan := rfl
  exact controlFlow hbuild ⟨rfl, rfl⟩

end RulesForge
