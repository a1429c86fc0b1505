import RulesForge.Library.AssocMap
import RulesForge.Rete.Network

/-!
# The agenda

`include/engine/agenda.hpp`: the activations waiting to fire, in a map from their hash and a
priority queue of salience and hash. An entry of the queue whose hash is not in the map is
stale and skipped when it comes up. Rules may belong to an agenda group, which fires while
it has the focus, and to an activation group, of which one activation fires.

The queue is kept as the list of its entries in descending order, so that popping it is
walking down the list. Time stamps are milliseconds of the steady clock.
-/

namespace RulesForge

/-- A match of a rule; `ruleId` is the rule's position, standing for its address. The bindings
are those of the terminal node, if there is one. -/
structure Activation where
  ruleId : ℕ
  rule : ParsedRule
  token : TokenWME
  hashValue : ℕ
  bindings : Option Bindings

/-- The order of the priority queue: by salience, then by hash. -/
def queueBefore (a b : ℤ × ℕ) : Bool :=
  decide (b.1 < a.1) || (decide (a.1 = b.1) && decide (b.2 ≤ a.2))

/-- `priority_queue::push`. -/
def queuePush (entry : ℤ × ℕ) : List (ℤ × ℕ) → List (ℤ × ℕ)
  | [] => [entry]
  | e :: queue => if queueBefore entry e then entry :: e :: queue else e :: queuePush entry queue

structure Agenda where
  focusStack : List String := []
  agendaMap : List (ℕ × Activation) := []
  agendaQueue : List (ℤ × ℕ) := []
  noLoopBlocked : List ℕ := []
  lockOnActiveBlocked : List ℕ := []
  activationGroupMap : List (String × List ℕ) := []
  delayedActivations : List (ℤ × Activation) := []

namespace Agenda

variable (agenda : Agenda)

/-- An activation joins the set of its activation group. -/
def joinGroup (activation : Activation) : Agenda :=
  match activation.rule.activationGroup with
  | none => agenda
  | some group =>
    let members := (agenda.activationGroupMap.lookup group).getD []
    { agenda with
      activationGroupMap :=
        AssocMap.insert group (members.insert activation.hashValue) agenda.activationGroupMap }

/-- A hash leaves the set of a group; an empty set is dropped. -/
def eraseFromGroup (group : String) (hash : ℕ) : Agenda :=
  match agenda.activationGroupMap.lookup group with
  | none => agenda
  | some members =>
    let members := members.filter (· ≠ hash)
    { agenda with
      activationGroupMap :=
        if members = [] then AssocMap.erase group agenda.activationGroupMap
        else AssocMap.insert group members agenda.activationGroupMap }

/-- The hash of an activation leaves the set of the activation group of its rule. -/
def leaveGroup (rule : ParsedRule) (hash : ℕ) : Agenda :=
  match rule.activationGroup with
  | none => agenda
  | some group => agenda.eraseFromGroup group hash

def add (activation : Activation) : Agenda :=
  joinGroup { agenda with
    agendaMap := AssocMap.insert activation.hashValue activation agenda.agendaMap
    agendaQueue := queuePush (activation.rule.salience, activation.hashValue) agenda.agendaQueue }
    activation

/-- Rules with a duration wait until it has passed. -/
def addWithDuration (now : ℤ) (activation : Activation) : Agenda :=
  if 0 < activation.rule.duration then
    { agenda with
      delayedActivations :=
        agenda.delayedActivations ++ [(now + activation.rule.duration, activation)] }
  else agenda.add activation

def addBatch (activations : List Activation) : Agenda :=
  activations.foldl add agenda

def remove (hash : ℕ) : Agenda :=
  match agenda.agendaMap.lookup hash with
  | none => agenda
  | some activation =>
    { agenda.leaveGroup activation.rule hash with
      agendaMap := AssocMap.erase hash agenda.agendaMap }

def getFocus : String :=
  agenda.focusStack.head?.getD "MAIN"

def setFocus (group : String) : Agenda :=
  { agenda with focusStack := group :: agenda.focusStack }

/-- A rule without an agenda group belongs to the main focus. -/
def inFocus (activation : Activation) : Bool :=
  match activation.rule.agendaGroup with
  | some group => group = agenda.getFocus
  | none => agenda.getFocus = "MAIN"

def isNoloopBlocked (key : ℕ) : Bool := agenda.noLoopBlocked.contains key

def isLockOnActiveBlocked (rule : ℕ) : Bool := agenda.lockOnActiveBlocked.contains rule

/-- `pop_focus`; the name that was on top is not needed by any caller. -/
def popFocus : Agenda :=
  { agenda with focusStack := agenda.focusStack.tail }

/-- `compact_if_needed`: after many stale entries a queue much longer than the map is built
anew. -/
def compactIfNeeded (staleSkipped : ℕ) : Agenda :=
  if staleSkipped ≤ 64 ∨ agenda.agendaQueue.length ≤ agenda.agendaMap.length * 2 then agenda
  else
    { agenda with
      agendaQueue := agenda.agendaMap.foldl (fun queue entry ↦
        queuePush (entry.2.rule.salience, entry.1) queue) [] }

/-- The entries that were passed over are pushed back. -/
def pushBack (deferred : List (ℤ × ℕ)) : Agenda :=
  { agenda with
    agendaQueue :=
      deferred.foldl (fun queue entry ↦ queuePush entry queue) agenda.agendaQueue }

/-- The loop of `pop_next`, with the entries passed over and the number of stale ones. -/
def popNextFrom : List (ℤ × ℕ) → List (ℤ × ℕ) → ℕ → Option Activation × Agenda
  | [], deferred, staleSkipped =>
    (none, (pushBack { agenda with agendaQueue := [] } deferred).compactIfNeeded staleSkipped)
  | (salience, hash) :: queue, deferred, staleSkipped =>
    match agenda.agendaMap.lookup hash with
    | none => popNextFrom queue deferred (staleSkipped + 1)
    | some candidate =>
      if agenda.inFocus candidate then
        let agenda := { agenda with
          agendaMap := AssocMap.erase hash agenda.agendaMap
          agendaQueue := queue }
        (some candidate, (agenda.pushBack deferred).compactIfNeeded staleSkipped)
      else popNextFrom queue (deferred ++ [(salience, hash)]) staleSkipped

/-- `pop_next`. The activation stays in the set of its activation group. -/
def popNext : Option Activation × Agenda :=
  agenda.popNextFrom agenda.agendaQueue [] 0

end Agenda

/-- An activation taken off the agenda, with the salience it had in the queue. -/
structure PoppedActivationItem where
  salience : ℤ
  activation : Activation

/-- What becomes of activations and facts: an activation is put on the agenda, by itself or with a
batch of tokens; the match with a hash ends; a fact leaves working memory, and with it the matches
of some tokens; a fact enters; the clock is read; a batch is popped; an activation is executed, or
skipped because a fact of its token is not there; an exception leaves the loop over the batch. -/
inductive AgendaEvent where
  | added (a : Activation) (batched : Bool)
  | ended (hash : ℕ)
  | left (touches : TokenWME → Bool)
  | entered (fact : FactPtr)
  | ticked (now : ℤ)
  | popped
  | fired (a : Activation)
  | skipped (a : Activation)
  | thrown

namespace Agenda

variable (agenda : Agenda)

/-- The loop of `pop_next_batch_activations`, with the number of activations still to take. -/
def popNextBatchFrom : List (ℤ × ℕ) → ℕ → Agenda → List (ℤ × ℕ) → ℕ →
    List PoppedActivationItem × Agenda
  | queue, 0, agenda, deferred, staleSkipped =>
    ([], (pushBack { agenda with agendaQueue := queue } deferred).compactIfNeeded staleSkipped)
  | [], _ + 1, agenda, deferred, staleSkipped =>
    ([], (pushBack { agenda with agendaQueue := [] } deferred).compactIfNeeded staleSkipped)
  | (salience, hash) :: queue, room + 1, agenda, deferred, staleSkipped =>
    match agenda.agendaMap.lookup hash with
    | none => popNextBatchFrom queue (room + 1) agenda deferred (staleSkipped + 1)
    | some candidate =>
      if agenda.inFocus candidate then
        let agenda := { agenda.leaveGroup candidate.rule hash with
          agendaMap := AssocMap.erase hash agenda.agendaMap }
        let (items, agenda) := popNextBatchFrom queue room agenda deferred staleSkipped
        (⟨salience, candidate⟩ :: items, agenda)
      else popNextBatchFrom queue (room + 1) agenda (deferred ++ [(salience, hash)]) staleSkipped

/-- `pop_next_batch_activations`. -/
def popNextBatchActivations (maxItems : ℕ) : List PoppedActivationItem × Agenda :=
  if maxItems = 0 then ([], agenda)
  else popNextBatchFrom agenda.agendaQueue maxItems agenda [] 0

/-- One activation is put back. -/
def requeue (item : PoppedActivationItem) : Agenda :=
  joinGroup { agenda with
    agendaMap := AssocMap.insert item.activation.hashValue item.activation agenda.agendaMap
    agendaQueue := queuePush (item.salience, item.activation.hashValue) agenda.agendaQueue }
    item.activation

/-- `requeue_batch_activations`. -/
def requeueBatchActivations (batch : List PoppedActivationItem) (startIndex : ℕ) : Agenda :=
  (batch.drop startIndex).foldl requeue agenda

/-- `cancel_activation_group`. -/
def cancelActivationGroup (group : String) (exceptHash : ℕ) : Agenda :=
  match agenda.activationGroupMap.lookup group with
  | none => agenda
  | some members =>
    ((members.filter (· ≠ exceptHash)).foldl remove agenda).eraseFromGroup group exceptHash

def clearActivationGroups : Agenda := { agenda with activationGroupMap := [] }

def clearNoloop : Agenda := { agenda with noLoopBlocked := [] }

def blockNoloop (key : ℕ) : Agenda :=
  { agenda with noLoopBlocked := agenda.noLoopBlocked.insert key }

def clearLockOnActive : Agenda := { agenda with lockOnActiveBlocked := [] }

/-- `seed_lock_on_active_for_focus`: the rules with an activation in the focused group. -/
def seedLockOnActiveForFocus : Agenda :=
  { agenda with
    lockOnActiveBlocked := agenda.agendaMap.foldl (fun blocked entry ↦
      if entry.2.rule.lockOnActive ∧
          entry.2.rule.agendaGroup.getD "MAIN" = agenda.getFocus then
        blocked.insert entry.2.ruleId
      else blocked) [] }

/-- `flush_ready_delayed`: the activations whose time has come are added, the earliest first. -/
def flushReadyDelayed (now : ℤ) : Agenda :=
  let ready := (agenda.delayedActivations.filter fun d ↦ d.1 ≤ now).insertionSort
    fun a b ↦ a.1 ≤ b.1
  addBatch
    { agenda with delayedActivations := agenda.delayedActivations.filter fun d ↦ ¬ d.1 ≤ now }
    (ready.map Prod.snd)

/-- `remove_activations_with_fact_id`, given the ids of the facts. -/
def removeActivationsWithFactId (factId : FactPtr → ℤ) (id : ℤ) : Agenda :=
  let toRemove := agenda.agendaMap.filter fun entry ↦
    entry.2.token.facts.any fun p ↦ p ≠ 0 ∧ factId p = id
  toRemove.foldl (fun agenda entry ↦ agenda.remove entry.1) agenda

end Agenda

end RulesForge
