import RulesForge.Engine.Agenda
import RulesForge.Engine.TruthMaintenance

/-!
# The memories of a session

What a session holds while the network propagates: the memory of every node
(`include/rete/network_memory.hpp`), the pool and the cache of tokens, working memory, the
agenda and the justifications (`include/engine/stateful_session.hpp`).

A bucketed map from values to vectors is the list of its key and element pairs, a bucket
being the elements whose key equals the one looked up; unordered sets and maps are lists.
Nothing below depends on the order of such a list. Taking an element out of a vector by
swapping it with the last is `List.erase`.
-/

namespace RulesForge

/-! ### Node memories -/

structure HashedJoinMem where
  left : List (ConstraintValue × TokenWME) := []
  right : List (ConstraintValue × FactPtr) := []

structure CrossProductJoinMem where
  left : List TokenWME := []
  right : List (ℤ × FactPtr) := []

/-- The memory of a NOT or EXISTS node: the ids of the facts matched to each token, and the
indexes with the keys under which tokens and facts were entered. -/
structure BetaConditionMem where
  left : List (TokenWME × List ℤ) := []
  right : List (ℤ × FactPtr) := []
  leftIndex : List (ConstraintValue × TokenWME) := []
  rightIndex : List (ConstraintValue × FactPtr) := []
  leftKeys : List (TokenWME × ConstraintValue) := []
  rightKeys : List (ℤ × ConstraintValue) := []
  leftUnindexed : List TokenWME := []
  rightUnindexed : List FactPtr := []

/-- The memory of one node; a node uses the parts of its kind. `leftToChildren` is that of
both kinds of join, `results` that of the terminal node of a query. -/
structure NodeMemory where
  passingFacts : List ℤ := []
  hashedJoin : HashedJoinMem := {}
  crossProductJoin : CrossProductJoinMem := {}
  leftToChildren : TokenWME → List TokenWME := fun _ ↦ []
  betaCondition : BetaConditionMem := {}
  terminal : List TokenWME := []
  eval : List TokenWME := []
  results : List TokenWME := []

/-! ### Buckets -/

section Buckets

variable {α : Type} (factId : FactPtr → ℤ)

/-- The elements of the bucket of a key. -/
def bucket (key : ConstraintValue) (m : List (ConstraintValue × α)) : List α :=
  (m.filter fun entry ↦ constraintValueEquals factId entry.1 key).map Prod.snd

/-- Removing an element from the bucket of a key. -/
def bucketErase [DecidableEq α] (key : ConstraintValue) (a : α)
    (m : List (ConstraintValue × α)) : List (ConstraintValue × α) :=
  m.eraseP fun entry ↦ constraintValueEquals factId entry.1 key && decide (entry.2 = a)

end Buckets

/-! ### Hashes -/

/-- The hashes of pointers and the addresses of rules, which the platform decides. -/
structure HashEnv where
  factHash : FactPtr → ℕ
  tokenPointerHash : TokenWME → ℕ
  ruleAddress : ℕ → ℕ

/-- The combination step of the engine's hashes, in 64 bits. -/
def hashCombine (h v : ℕ) : ℕ :=
  h ^^^ ((v + 0x9e3779b9 + (h <<< 6) + (h >>> 2)) % 2 ^ 64)

/-- The hash stored in a token. -/
def TokenWME.hash (henv : HashEnv) : TokenWME → ℕ
  | root => 0
  | mk _ parent fact => hashCombine (parent.hash henv) (henv.factHash fact)

/-- The hash of an activation. -/
def activationHash (henv : HashEnv) (rule : ℕ) (w : TokenWME) : ℕ :=
  henv.tokenPointerHash w ^^^ henv.ruleAddress rule

/-! ### The session -/

structure WorkingMemory where
  facts : List (ℤ × FactPtr) := []
  nextId : ℤ := 1

/-- The rules with their network, the names of the declared types, and what the model leaves open
about the platform. `validate` is the schema check of a strict session, true where there is none;
`nestingLimit` bounds the nesting of fact lists that the assignment of ids follows. -/
structure KnowledgeBase where
  rules : List ParsedRule
  network : CompiledNetwork
  runtime : RuntimeEnv
  hashes : HashEnv
  declaredTypes : List String := []
  validate : Fact → Bool
  nestingLimit : ℕ

/-- `SchemaValidator::short_type_name`. -/
def shortTypeName (typeName : String) : String :=
  .ofList (typeName.toList.reverse.takeWhile (· ≠ '.')).reverse

namespace KnowledgeBase

variable (kb : KnowledgeBase)

/-- `SchemaValidator::canonicalize_type_name`; a short name of several declared types throws. -/
def canonicalizeTypeName (typeName : String) : Option String :=
  if typeName ∈ kb.declaredTypes ∨ '.' ∈ typeName.toList then some typeName
  else
    match kb.declaredTypes.filter (shortTypeName · = typeName) with
    | [] => some typeName
    | [name] => some name
    | _ => none

/-- A canonical name is its own. -/
theorem canonicalizeTypeName_idem {typeName name : String}
    (h : kb.canonicalizeTypeName typeName = some name) :
    kb.canonicalizeTypeName name = some name := by
  have hname := h
  unfold canonicalizeTypeName at h
  split_ifs at h with hdeclared
  · cases h
    exact hname
  · split at h
    · cases h
      exact hname
    · next heq =>
      cases h
      have hmem : name ∈ kb.declaredTypes.filter (shortTypeName · = typeName) := by simp [heq]
      simp [canonicalizeTypeName, (List.mem_filter.mp hmem).1]
    · cases h

end KnowledgeBase

/-- What a right-hand side has done so far, kept to undo it. -/
structure RhsTransaction where
  insertedFacts : List ℤ := []
  retractedFacts : List FactPtr := []
  updatedFactOrder : List ℤ := []
  updatedFactSnapshots : List (ℤ × List (String × ConstraintValue)) := []

/-- The state of a session. `batch` is what is left of the activations that the cycle has popped,
a local vector of `fire_all_rules_impl`. -/
structure SessionData where
  heap : Heap
  mem : ℕ → NodeMemory := fun _ ↦ {}
  nextToken : ℕ := 1
  wmeCache : List TokenWME := []
  workingMemory : WorkingMemory := {}
  agenda : Agenda := {}
  tms : SupportMaps TokenWME := {}
  now : ℤ := 0
  currentModifiedFields : Option ModifiedFieldsHint := none
  isConsistent : Bool := true
  transaction : Option RhsTransaction := none
  batch : List PoppedActivationItem := []

/-- A session with its **log**, which the source does not keep and no operation reads: every event
of an activation, with the state that it found. Statements about runs are about logs. -/
structure Session extends SessionData where
  log : List (SessionData × AgendaEvent) := []

namespace Session

variable (kb : KnowledgeBase) (s : Session)

/-- An event goes to the log. -/
def note (event : AgendaEvent) : Session :=
  { s with log := s.log ++ [(s.toSessionData, event)] }

/-- Changing the memory of one node. -/
def updateMem (n : ℕ) (f : NodeMemory → NodeMemory) : Session :=
  { s with mem := Function.update s.mem n (f (s.mem n)) }

/-- `token_pool_.create_token`. -/
def createWmeUncached (parent : TokenWME) (fact : FactPtr) : TokenWME × Session :=
  (.mk s.nextToken parent fact, { s with nextToken := s.nextToken + 1 })

/-- `get_or_create_wme`: the cached token with this parent and fact, or a new one. The bucket
of the cache that is searched holds every cached token with this parent and fact. -/
def getOrCreateWme (parent : TokenWME) (fact : FactPtr) : TokenWME × Session :=
  let isCached : TokenWME → Bool
    | .root => false
    | .mk _ parent' fact' => decide (parent' = parent) && decide (fact' = fact)
  match s.wmeCache.find? isCached with
  | some w => (w, s)
  | none =>
    let (w, s) := s.createWmeUncached parent fact
    (w, { s with wmeCache := s.wmeCache ++ [w] })

/-- `invalidate_wme_cache`: the whole bucket of a hash is dropped. -/
def invalidateWmeCache (hash : ℕ) : Session :=
  { s with wmeCache := s.wmeCache.filter fun w ↦ w.hash kb.hashes ≠ hash }

/-- `compute_noloop_key_from_token`: the rule and the ids along the chain, last fact first. -/
def noloopKey (rule : ℕ) (w : TokenWME) : ℕ :=
  w.facts.reverse.foldl (fun h p ↦
    if p = 0 then h else hashCombine h ((s.heap p).id % 2 ^ 64).toNat) (kb.hashes.ruleAddress rule)

/-- Whether no-loop or lock-on-active keeps an activation off the agenda. -/
def isBlocked (activation : Activation) : Bool :=
  (activation.rule.noLoop &&
      s.agenda.isNoloopBlocked (s.noloopKey kb activation.ruleId activation.token)) ||
    (activation.rule.lockOnActive && s.agenda.isLockOnActiveBlocked activation.ruleId)

/-- `add_activation`. -/
def addActivation (activation : Activation) : Session :=
  if s.isBlocked kb activation then s
  else
    { s.note (.added activation false) with
      agenda := s.agenda.addWithDuration s.now activation }

/-- `add_activations_batch`. Durations play no part here. -/
def addActivationsBatch (activations : List Activation) : Session :=
  let accepted := activations.filter fun a ↦ !s.isBlocked kb a
  { s with
    agenda := s.agenda.addBatch accepted
    log := s.log ++ accepted.map fun a ↦ (s.toSessionData, .added a true) }

def removeActivation (hash : ℕ) : Session :=
  { s.note (.ended hash) with agenda := s.agenda.remove hash }

def setFocus (group : String) : Session :=
  { s with agenda := s.agenda.setFocus group }

/-- The time of the clock is taken. -/
def readClock (now : ℤ) : Session :=
  { s.note (.ticked now) with now := now }

/-! ### What the operations leave alone -/

@[simp] theorem note_toSessionData (event : AgendaEvent) :
    (s.note event).toSessionData = s.toSessionData := rfl

@[simp] theorem updateMem_heap (n : ℕ) (f : NodeMemory → NodeMemory) :
    (s.updateMem n f).heap = s.heap := rfl

@[simp] theorem updateMem_tms (n : ℕ) (f : NodeMemory → NodeMemory) :
    (s.updateMem n f).tms = s.tms := rfl

@[simp] theorem updateMem_workingMemory (n : ℕ) (f : NodeMemory → NodeMemory) :
    (s.updateMem n f).workingMemory = s.workingMemory := rfl

@[simp] theorem updateMem_mem_self (n : ℕ) (f : NodeMemory → NodeMemory) :
    (s.updateMem n f).mem n = f (s.mem n) := by
  simp [updateMem]

@[simp] theorem updateMem_mem_ne {n m : ℕ} (h : m ≠ n) (f : NodeMemory → NodeMemory) :
    (s.updateMem n f).mem m = s.mem m := by
  simp [updateMem, h]

end Session

end RulesForge
