import RulesForge.Engine.BatchSessions

/-!
# Alpha nodes under a change hint

When a right-hand side has changed some fields of a fact, `propagate_modify` hands their names to
the session, and an alpha node whose field is not among them leaves the fact as it was. The hint
belongs to the session, not to the fact: whatever else is modified before the propagation returns
is modified **under the same hint**. An accumulate node updates its result fact in this way, and
an alpha node on the type of the result then skips a test whose outcome has changed.

A run is described as the alpha nodes see it. Between two activations of alpha nodes anything may
happen in the beta network (`inside`): changes that alpha nodes do not see, and further mutations
of facts or insertions of batches, with their own propagations. A mutation is `Covered` where the
hint of its moment covers it and it leaves the facts under way alone, and a batch is where no node
takes out of the shared vector what a later one accepts (`BatchCovered`).
-/

namespace RulesForge

open Forest

/-! ### The alpha part of a network -/

/-- The alpha nodes of a network, below its entry points. Which beta nodes hang below them is
left open, but for whether a node has a single child of any kind. -/
structure AlphaNetwork where
  constraint : ℕ → Option ParsedConstraint
  children : ℕ → List ℕ
  sole : ℕ → Bool
  entry : Option String → String → Option ℕ
  forest : IsForest fun q n ↦ n ∈ children q
  children_nodup : ∀ q, (children q).Nodup
  children_alpha : ∀ {q n}, n ∈ children q → ∃ c, constraint n = some c

namespace AlphaNetwork

variable (net : AlphaNetwork)

/-- The alpha nodes below a node, itself included. -/
def Below (n m : ℕ) : Prop := Desc (fun q n ↦ n ∈ net.children q) n m

/-- The alpha nodes that a fact entering through an entry point meets first. -/
def entryChildren (through : Option String) (type : String) : List ℕ :=
  (net.entry through type).elim [] net.children

/-- The constraints from a node down to another one hold. -/
inductive Through (T : ParsedConstraint → Prop) (n : ℕ) : ℕ → Prop
  | here {c} : net.constraint n = some c → T c → Through T n n
  | next {q m c} : Through T n q → m ∈ net.children q → net.constraint m = some c → T c →
      Through T n m

/-- A fact is of the entry type of a node, and it satisfies the node's constraint and all
constraints above. -/
def Satisfies (env : RuntimeEnv) (heap : Heap) (source : FactPtr → Option String) (f : FactPtr)
    (m : ℕ) : Prop :=
  ∃ n ∈ net.entryChildren (source f) (heap f).type,
    net.Through (fun c ↦ checkConstraint env heap c f = true) n m

/-- The alpha nodes hold exactly the facts of working memory that satisfy them. -/
def Exact (env : RuntimeEnv) (source : FactPtr → Option String) (s : Session) : Prop :=
  ∀ n c, net.constraint n = some c → ∀ id,
    id ∈ (s.mem n).passingFacts ↔
      ∃ f ∈ s.facts, net.Satisfies env s.heap source f n ∧ id = (s.heap f).id

variable {net} {T T' : ParsedConstraint → Prop} {n k m : ℕ} {c : ParsedConstraint}

theorem Through.below_node (h : net.Through T n m) : net.Below n m := by
  induction h with
  | here _ _ => exact .refl
  | next _ hedge _ _ ih => exact ih.tail hedge

theorem Through.head (hc : net.constraint n = some c) (hT : T c) (hk : k ∈ net.children n)
    (h : net.Through T k m) : net.Through T n m := by
  induction h with
  | here hk' hT' => exact .next (.here hc hT) hk hk' hT'
  | next _ hedge hm hT' ih => exact .next ih hedge hm hT'

theorem Through.first (hc : net.constraint n = some c) (h : net.Through T n m) : T c := by
  induction h with
  | here hc' hT =>
    obtain rfl : c = _ := Option.some.inj (hc.symm.trans hc')
    exact hT
  | next _ _ _ _ ih => exact ih

theorem Through.of_imp (h : net.Through T n m)
    (himp : ∀ {n c}, net.constraint n = some c → T c → T' c) : net.Through T' n m := by
  induction h with
  | here hc hT => exact .here hc (himp hc hT)
  | next _ hedge hm hT ih => exact .next ih hedge hm (himp hm hT)

theorem not_below_parent (hk : k ∈ net.children n) : ¬ net.Below k n := by
  intro hbelow
  have hle := net.forest.le_of_desc hbelow
  have hlt := net.forest.parent_lt hk
  omega

/-- The path from a node to one below a child leads through the child. -/
theorem through_child (hc : net.constraint n = some c) (hk : k ∈ net.children n)
    (hm : net.Below k m) : net.Through T n m ↔ T c ∧ net.Through T k m := by
  refine ⟨fun h ↦ ⟨h.first hc, ?_⟩, fun h ↦ h.2.head hc h.1 hk⟩
  induction h with
  | here _ _ => exact absurd hm (not_below_parent hk)
  | next hq hedge hm' hT ih =>
    rcases Relation.ReflTransGen.cases_tail hm with rfl | ⟨q', hkq', hq'⟩
    · exact .here hm' hT
    · obtain rfl := net.forest.parent_unique hedge hq'
      exact .next (ih hkq') hedge hm' hT

/-- Different children have nothing below them in common. -/
theorem children_disjoint (n : ℕ) :
    (net.children n).Pairwise fun k k' ↦ ∀ m, net.Below k m → ¬ net.Below k' m := by
  refine (net.children_nodup n).imp_of_mem fun hk hk' hne m hm ↦ ?_
  exact net.forest.disjoint_siblings hk hk' hne hm

theorem entryChildren_disjoint (through : Option String) (type : String) :
    (net.entryChildren through type).Pairwise fun k k' ↦ ∀ m, net.Below k m → ¬ net.Below k' m := by
  unfold entryChildren
  cases net.entry through type with
  | none => exact .nil
  | some e => exact children_disjoint e

end AlphaNetwork

/-! ### Mutations -/

/-- The operations that change a fact and propagate the change. A fact is added or retracted
through the default entry point or a named one; `update` is `update_fact`, and `modify` is a
right-hand side that has assigned fields and calls `propagate_modify` with a hint. -/
inductive Mutation where
  | add (p : FactPtr) (through : Option String)
  | retract (p : FactPtr) (through : Option String)
  | update (p : FactPtr) (fields : List (String × ConstraintValue))
  | modify (p : FactPtr) (fields : List (String × ConstraintValue))
      (hint : Option ModifiedFieldsHint)

namespace Mutation

def fact : Mutation → FactPtr
  | add p _ | retract p _ | update p _ | modify p _ _ => p

def through : Mutation → Option String
  | add _ through | retract _ through => through
  | update _ _ | modify _ _ _ => none

def type : Mutation → PropagationType
  | add _ _ => .assert
  | retract _ _ => .retract
  | update _ _ | modify _ _ _ => .modify

variable (kb : KnowledgeBase)

/-- The operation does not return or throw before it propagates. The fact that is retracted is
the one working memory has under the id of the argument; inside a transaction only `retract_from`
retracts. -/
def Enabled (net : AlphaNetwork) (s : Session) : Mutation → Prop
  | add p through => p ≠ 0 ∧ s.isConsistent = true ∧
      ∃ name, kb.canonicalizeTypeName (s.heap p).type = some name ∧
        kb.validate { s.heap p with type := name } = true ∧
        (through ≠ none → ∃ n, net.entry through name = some n)
  | retract p through => s.isConsistent = true ∧
      (∃ fact, s.workingMemory.get (s.heap fact).id = some p) ∧
      (through = none → s.transaction = none)
  | update p _ => p ≠ 0 ∧ s.workingMemory.contains (s.heap p).id = true ∧ s.isConsistent = true
  | modify p _ _ => p ≠ 0 ∧ s.workingMemory.contains (s.heap p).id = true

/-- The session when the propagation starts. -/
def start (s : Session) : Mutation → Session
  | add p _ =>
    let name := (kb.canonicalizeTypeName (s.heap p).type).getD (s.heap p).type
    insertWorkingMemory p (assignIds kb p (writeType p name s))
  | retract p _ => leaveFact p s
  | update p fields => writeFields p fields s
  | modify p fields hint => { writeFields p fields s with currentModifiedFields := hint }

/-- The session after the propagation. -/
def finish (s : Session) : Mutation → Session
  | modify _ _ _ => { s with currentModifiedFields := none }
  | _ => s

end Mutation

namespace AlphaNetwork

/-! ### Runs -/

/-- A change that no alpha node sees: one of tokens, beta memories, the agenda or justifications,
or one of facts that no alpha node holds. -/
structure Unseen (s s' : Session) : Prop where
  passing : ∀ n, (s'.mem n).passingFacts = (s.mem n).passingFacts
  hint : s'.currentModifiedFields = s.currentModifiedFields
  store : s'.workingMemory.facts = s.workingMemory.facts

/-- What the session is doing: something inside the beta network or between two operations, an
operation, the activation of an alpha node, or that of nodes in turn. A batch goes through the
network group by group, and the activation of a node, or of nodes in turn, takes the vector of its
caller and leaves it another one. -/
inductive Activity where
  | inside
  | mutation (op : Mutation)
  | activate (n : ℕ) (p : FactPtr) (type : PropagationType)
  | children (ns : List ℕ) (p : FactPtr) (type : PropagationType)
  | groups (groups : List (String × List FactPtr))
  | activateBatch (n : ℕ) (facts left : List FactPtr)
  | childrenBatch (ns : List ℕ) (facts left : List FactPtr)

/-- What is asked of the operations and of the unseen changes of a run, given the facts whose
propagation has not returned. -/
structure Guard where
  mutation : Set FactPtr → Mutation → Session → Prop
  batch : Set FactPtr → List FactPtr → Session → Prop
  unseen : Set FactPtr → Session → Session → Prop

/-- Nothing is asked. -/
def Guard.any : Guard where
  mutation _ _ _ := True
  batch _ _ _ := True
  unseen _ _ _ := True

/-- `add_facts` does not return or throw before it propagates. -/
def BatchEnabled (kb : KnowledgeBase) (facts : List FactPtr) (s : Session) : Prop :=
  (∀ f ∈ facts, f ≠ 0) ∧ s.isConsistent = true ∧ (checkFacts kb facts s).2 = none

/-- The ids of a batch enter the passing set of a node. -/
def passBatch (n : ℕ) (facts : List FactPtr) (s : Session) : Session :=
  updatePassing n (fun passing ↦ facts.foldl (fun passing f ↦
    passing.insert (s.heap f).id) passing) s

/-- The runs of a network, given the facts whose propagation has not returned. Beta nodes below an
entry point or an alpha node are activated before, between or after the alpha nodes below it, and
what they do is `inside`: it includes operations, which start propagations of their own. -/
inductive Runs (net : AlphaNetwork) (kb : KnowledgeBase) (ok : Guard) :
    Set FactPtr → Activity → Session → Session → Prop
  | done {F s} : Runs net kb ok F .inside s s
  | unseen {F s s' s''} : Unseen s s' → ok.unseen F s s' → Runs net kb ok F .inside s' s'' →
      Runs net kb ok F .inside s s''
  | nested {F op s s' s''} : Runs net kb ok F (.mutation op) s s' →
      Runs net kb ok F .inside s' s'' → Runs net kb ok F .inside s s''
  | mutation {F op s s' s''} : op.Enabled kb net s → ok.mutation F op s →
      Runs net kb ok (insert op.fact F)
        (.children (net.entryChildren op.through ((op.start kb s).heap op.fact).type) op.fact
          op.type) (op.start kb s) s' →
      Runs net kb ok F .inside (op.finish s') s'' → Runs net kb ok F (.mutation op) s s''
  | stop {F n c p type passing s} : net.constraint n = some c →
      alphaStep kb c (s.mem n).passingFacts p type s = (passing, none) →
      Runs net kb ok F (.activate n p type) s (updatePassing n (fun _ ↦ passing) s)
  | pass {F n c p type passing type' s s'} : net.constraint n = some c →
      alphaStep kb c (s.mem n).passingFacts p type s = (passing, some type') →
      Runs net kb ok F (.children (net.children n) p type')
        (updatePassing n (fun _ ↦ passing) s) s' →
      Runs net kb ok F (.activate n p type) s s'
  | nil {F p type s s'} : Runs net kb ok F .inside s s' → Runs net kb ok F (.children [] p type) s s'
  | cons {F n ns p type s s₁ s₂ s'} : Runs net kb ok F .inside s s₁ →
      Runs net kb ok F (.activate n p type) s₁ s₂ →
      Runs net kb ok F (.children ns p type) s₂ s' →
      Runs net kb ok F (.children (n :: ns) p type) s s'
  | addFacts {F facts s s' s''} : BatchEnabled kb facts s → ok.batch F facts s →
      Runs net kb ok (F ∪ {f | f ∈ facts})
        (.groups (factsByType (batchEntered kb facts s).heap facts)) (batchEntered kb facts s) s' →
      Runs net kb ok F .inside s' s'' → Runs net kb ok F .inside s s''
  | noGroups {F s s'} : Runs net kb ok F .inside s s' → Runs net kb ok F (.groups []) s s'
  | group {F type facts left groups s s₁ s'} :
      Runs net kb ok F (.childrenBatch (net.entryChildren none type) facts left) s s₁ →
      Runs net kb ok F (.groups groups) s₁ s' →
      Runs net kb ok F (.groups ((type, facts) :: groups)) s s'
  | stopBatch {F n c facts s} : net.constraint n = some c →
      facts.filter (checkConstraint kb.runtime s.heap c) = [] →
      Runs net kb ok F (.activateBatch n facts facts) s s
  | passBatch {F n c facts left s s'} : net.constraint n = some c →
      facts.filter (checkConstraint kb.runtime s.heap c) ≠ [] →
      Runs net kb ok F
        (.childrenBatch (net.children n) (facts.filter (checkConstraint kb.runtime s.heap c)) left)
        (passBatch n (facts.filter (checkConstraint kb.runtime s.heap c)) s) s' →
      Runs net kb ok F (.activateBatch n facts (if net.sole n then left else facts)) s s'
  | nilBatch {F facts s s'} : Runs net kb ok F .inside s s' →
      Runs net kb ok F (.childrenBatch [] facts facts) s s'
  | consBatch {F n ns facts mid left s s₁ s₂ s'} : Runs net kb ok F .inside s s₁ →
      Runs net kb ok F (.activateBatch n facts mid) s₁ s₂ →
      Runs net kb ok F (.childrenBatch ns mid left) s₂ s' →
      Runs net kb ok F (.childrenBatch (n :: ns) facts left) s s'

/-! ### The condition -/

section Condition

variable (net : AlphaNetwork) (kb : KnowledgeBase)

/-- Some facts have the same ids, types and outcomes of alpha tests as before. -/
structure Keeps (facts : Set FactPtr) (s s' : Session) : Prop where
  id : ∀ f ∈ facts, (s'.heap f).id = (s.heap f).id
  type : ∀ f ∈ facts, (s'.heap f).type = (s.heap f).type
  tests : ∀ {n c}, net.constraint n = some c → ∀ f ∈ facts,
    checkConstraint kb.runtime s'.heap c f = checkConstraint kb.runtime s.heap c f

/-- An operation that the alpha nodes follow: its fact is not itself under way and goes through the
entry point it came from, other facts are not changed with it, its id is its own, and, where it is
modified, the hint in force misses no test whose outcome changes. -/
structure Covered (source : FactPtr → Option String) (F : Set FactPtr) (op : Mutation)
    (s : Session) : Prop where
  idle : op.fact ∉ F
  through : op.through = source op.fact
  present : op.type ≠ .assert → op.fact ∈ s.facts
  others : Keeps net kb ((F ∪ s.facts) \ {op.fact}) s (op.start kb s)
  own : op.fact ∈ s.facts → ((op.start kb s).heap op.fact).id = (s.heap op.fact).id ∧
    ((op.start kb s).heap op.fact).type = (s.heap op.fact).type
  distinct : ∀ f ∈ F ∪ s.facts,
    ((op.start kb s).heap f).id = ((op.start kb s).heap op.fact).id → f = op.fact
  hint : op.type = .modify → ∀ {n c}, net.constraint n = some c →
    alphaConstraintAffected c (op.start kb s).currentModifiedFields = false →
      checkConstraint kb.runtime (op.start kb s).heap c op.fact =
        checkConstraint kb.runtime s.heap c op.fact

/-- Nodes get a vector of facts in turn, and what one of them takes out of it no later one accepts;
`left` is what remains at the end. A node with a single child lets it work on the vector itself. -/
inductive Spared (T : ParsedConstraint → FactPtr → Bool) :
    List ℕ → List FactPtr → List FactPtr → Prop
  | nil {facts} : Spared T [] facts facts
  | refuse {n ns c facts left} : net.constraint n = some c → facts.filter (T c) = [] →
      Spared T ns facts left → Spared T (n :: ns) facts left
  | pass {n ns c facts inner left} : net.constraint n = some c → facts.filter (T c) ≠ [] →
      Spared T (net.children n) (facts.filter (T c)) inner →
      (∀ f ∈ facts, f ∉ (if net.sole n then inner else facts) → ∀ m ∈ ns, ∀ c',
        net.constraint m = some c' → T c' f = false) →
      Spared T ns (if net.sole n then inner else facts) left → Spared T (n :: ns) facts left

/-- A batch that the alpha nodes follow: its facts are not under way and belong to the default entry
point, other facts are not changed with them, ids are their own, and no pattern takes out of a
vector what a later one accepts. The counter of ids is positive, as it is from the start. -/
structure BatchCovered (source : FactPtr → Option String) (F : Set FactPtr) (facts : List FactPtr)
    (s : Session) : Prop where
  idle : ∀ f ∈ facts, f ∉ F
  through : ∀ f ∈ facts, source f = none
  counter : 0 < s.workingMemory.nextId
  others : Keeps net kb (F ∪ s.facts) s (batchEntered kb facts s)
  distinct : ∀ f ∈ F ∪ s.facts ∪ {f | f ∈ facts}, ∀ g ∈ facts,
    ((batchEntered kb facts s).heap f).id = ((batchEntered kb facts s).heap g).id → f = g
  spared : ∀ group ∈ factsByType (batchEntered kb facts s).heap facts, ∃ left,
    Spared net (checkConstraint kb.runtime (batchEntered kb facts s).heap)
      (net.entryChildren none group.1) group.2 left

/-- Operations are covered, and unseen changes leave the facts in use alone. -/
def Guard.covered (source : FactPtr → Option String) : Guard where
  mutation := Covered net kb source
  batch := BatchCovered net kb source
  unseen F s s' := Keeps net kb (F ∪ s.facts) s s'

end Condition

variable {net : AlphaNetwork} {kb : KnowledgeBase} {source : FactPtr → Option String}
  {F P : Set FactPtr} {s s' s'' : Session}

/-! ### Facts that are kept -/

theorem Keeps.refl (facts : Set FactPtr) (s : Session) : Keeps net kb facts s s :=
  ⟨fun _ _ ↦ rfl, fun _ _ ↦ rfl, fun _ _ _ ↦ rfl⟩

theorem Keeps.trans (h : Keeps net kb F s s') (h' : Keeps net kb F s' s'') :
    Keeps net kb F s s'' where
  id f hf := (h'.id f hf).trans (h.id f hf)
  type f hf := (h'.type f hf).trans (h.type f hf)
  tests hc f hf := (h'.tests hc f hf).trans (h.tests hc f hf)

theorem Keeps.mono (h : Keeps net kb F s s') (hsub : P ⊆ F) : Keeps net kb P s s' where
  id f hf := h.id f (hsub hf)
  type f hf := h.type f (hsub hf)
  tests hc f hf := h.tests hc f (hsub hf)

theorem Keeps.through_iff (h : Keeps net kb F s s') {f : FactPtr} (hf : f ∈ F) {n m : ℕ} :
    net.Through (fun c ↦ checkConstraint kb.runtime s'.heap c f = true) n m ↔
      net.Through (fun c ↦ checkConstraint kb.runtime s.heap c f = true) n m := by
  refine ⟨fun ht ↦ ?_, fun ht ↦ ?_⟩
  · exact ht.of_imp fun hc hT ↦ by rwa [← h.tests hc f hf]
  · exact ht.of_imp fun hc hT ↦ by rwa [h.tests hc f hf]

theorem Keeps.satisfies_iff (h : Keeps net kb F s s') {f : FactPtr} (hf : f ∈ F) {n : ℕ} :
    net.Satisfies kb.runtime s'.heap source f n ↔ net.Satisfies kb.runtime s.heap source f n := by
  unfold Satisfies
  rw [h.type f hf]
  exact exists_congr fun k ↦ and_congr_right fun _ ↦ h.through_iff hf

/-! ### The invariant -/

/-- The alpha nodes are exact for the facts of working memory that are not under way, and hold no
id that is neither in working memory nor under way. -/
structure AlphaInv (net : AlphaNetwork) (kb : KnowledgeBase) (source : FactPtr → Option String)
    (F : Set FactPtr) (s : Session) : Prop where
  keys : ∀ {id f}, (id, f) ∈ s.workingMemory.facts → id = (s.heap f).id
  distinct : ∀ f ∈ F ∪ s.facts, ∀ g ∈ F ∪ s.facts, (s.heap f).id = (s.heap g).id → f = g
  exact : ∀ f ∈ s.facts, f ∉ F → ∀ {n c}, net.constraint n = some c →
    ((s.heap f).id ∈ (s.mem n).passingFacts ↔ net.Satisfies kb.runtime s.heap source f n)
  supported : ∀ {n c}, net.constraint n = some c → ∀ id ∈ (s.mem n).passingFacts,
    ∃ f ∈ F ∪ s.facts, id = (s.heap f).id

/-- What a part of a run leaves alone: the facts under way, their place in working memory and, for
some of them, in the alpha nodes. The hint stays or is dropped. -/
structure Frame (net : AlphaNetwork) (kb : KnowledgeBase) (F P : Set FactPtr) (s s' : Session) :
    Prop where
  keeps : Keeps net kb F s s'
  facts : ∀ f ∈ F, f ∈ s'.facts ↔ f ∈ s.facts
  passing : ∀ f ∈ P, ∀ n,
    (s.heap f).id ∈ (s'.mem n).passingFacts ↔ (s.heap f).id ∈ (s.mem n).passingFacts
  hint : s'.currentModifiedFields = s.currentModifiedFields ∨ s'.currentModifiedFields = none

theorem Frame.refl (F P : Set FactPtr) (s : Session) : Frame net kb F P s s :=
  ⟨.refl F s, fun _ _ ↦ Iff.rfl, fun _ _ _ ↦ Iff.rfl, .inl rfl⟩

theorem Frame.trans (hP : P ⊆ F) (h : Frame net kb F P s s') (h' : Frame net kb F P s' s'') :
    Frame net kb F P s s'' where
  keeps := h.keeps.trans h'.keeps
  facts f hf := (h'.facts f hf).trans (h.facts f hf)
  passing f hf n := by
    have hid := h.keeps.id f (hP hf)
    rw [← h.passing f hf n, ← hid]
    exact h'.passing f hf n
  hint := by
    rcases h'.hint with hhint | hhint
    · rw [hhint]
      exact h.hint
    · exact .inr hhint

theorem Frame.mono (h : Frame net kb F F s s') (hP : P ⊆ F) : Frame net kb F P s s' where
  keeps := h.keeps
  facts := h.facts
  passing f hf := h.passing f (hP hf)
  hint := h.hint

/-- Working memory with the same entries and facts with the same ids. -/
theorem AlphaInv.of_keeps (h : AlphaInv net kb source F s) (hunseen : Unseen s s')
    (hkeeps : Keeps net kb (F ∪ s.facts) s s') : AlphaInv net kb source F s' := by
  have hfacts : s'.facts = s.facts := by
    unfold Session.facts
    rw [hunseen.store]
  refine ⟨?_, ?_, ?_, ?_⟩
  · intro id f hmem
    rw [hunseen.store] at hmem
    rw [hkeeps.id f (.inr ⟨id, hmem⟩)]
    exact h.keys hmem
  · intro f hf g hg hid
    rw [hfacts] at hf hg
    rw [hkeeps.id f hf, hkeeps.id g hg] at hid
    exact h.distinct f hf g hg hid
  · intro f hf hF n c hc
    rw [hfacts] at hf
    rw [hunseen.passing, hkeeps.id f (.inr hf), hkeeps.satisfies_iff (.inr hf)]
    exact h.exact f hf hF hc
  · intro n c hc id hid
    rw [hunseen.passing] at hid
    obtain ⟨f, hf, rfl⟩ := h.supported hc id hid
    exact ⟨f, hfacts ▸ hf, (hkeeps.id f hf).symm⟩

/-- A change that the alpha nodes do not see. -/
theorem Frame.of_unseen (hunseen : Unseen s s') (hkeeps : Keeps net kb (F ∪ s.facts) s s') :
    Frame net kb F F s s' where
  keeps := hkeeps.mono Set.subset_union_left
  facts f _ := by
    unfold Session.facts
    rw [hunseen.store]
  passing f _ n := by rw [hunseen.passing]
  hint := .inl hunseen.hint

/-! ### The propagation of one fact -/

/-- A fact has still to be told to some nodes: they, and the nodes below them, hold it as its
`old` tests had it. -/
structure Pending (net : AlphaNetwork) (kb : KnowledgeBase) (p : FactPtr) (type : PropagationType)
    (before after : Prop) (old : ParsedConstraint → Prop) (ns : List ℕ) (s : Session) : Prop where
  announces : Announces before after type
  hint : type = .modify → ∀ {n c}, net.constraint n = some c →
    alphaConstraintAffected c s.currentModifiedFields = false →
      (checkConstraint kb.runtime s.heap c p = true ↔ old c)
  disjoint : ns.Pairwise fun n n' ↦ ∀ m, net.Below n m → ¬ net.Below n' m
  held : ∀ n ∈ ns, ∀ m, net.Below n m →
    ((s.heap p).id ∈ (s.mem m).passingFacts ↔ before ∧ net.Through old n m)

/-- A fact has been told to some nodes: they, and the nodes below them, hold it as its tests have
it now. -/
structure Told (net : AlphaNetwork) (kb : KnowledgeBase) (source : FactPtr → Option String)
    (F : Set FactPtr) (p : FactPtr) (after : Prop) (ns : List ℕ) (s s' : Session) : Prop where
  inv : AlphaInv net kb source F s'
  frame : Frame net kb F (F \ {p}) s s'
  held : ∀ n ∈ ns, ∀ m, net.Below n m →
    ((s.heap p).id ∈ (s'.mem m).passingFacts ↔
      after ∧ net.Through (fun c ↦ checkConstraint kb.runtime s.heap c p = true) n m)
  elsewhere : ∀ m, (∀ n ∈ ns, ¬ net.Below n m) →
    ((s.heap p).id ∈ (s'.mem m).passingFacts ↔ (s.heap p).id ∈ (s.mem m).passingFacts)

section Fact

variable {p : FactPtr} {type : PropagationType} {before after : Prop}
  {old : ParsedConstraint → Prop} {n : ℕ} {ns : List ℕ} {c : ParsedConstraint}

theorem through_self {T : ParsedConstraint → Prop} (hc : net.constraint n = some c) :
    net.Through T n n ↔ T c :=
  ⟨fun h ↦ h.first hc, fun h ↦ .here hc h⟩

variable {passing : List ℤ}

/-- Writing facts under way into, or out of, one alpha node. -/
theorem AlphaInv.updatePassing {B : Set FactPtr} (h : AlphaInv net kb source F s) (hB : B ⊆ F)
    (hpassing : ∀ id, (∀ p ∈ B, id ≠ (s.heap p).id) →
      (id ∈ passing ↔ id ∈ (s.mem n).passingFacts)) :
    let s' := updatePassing n (fun _ ↦ passing) s
    AlphaInv net kb source F s' ∧ Frame net kb F (F \ B) s s' := by
  intro s'
  have hmem : ∀ id, (∀ p ∈ B, id ≠ (s.heap p).id) → ∀ m,
      (id ∈ (s'.mem m).passingFacts ↔ id ∈ (s.mem m).passingFacts) := by
    intro id hne m
    by_cases hm : m = n
    · subst hm
      rw [show (s'.mem m).passingFacts = passing by simp [s', RulesForge.updatePassing]]
      exact hpassing id hne
    · rw [show s'.mem m = s.mem m by simp [s', RulesForge.updatePassing, hm]]
  have hne : ∀ f ∈ F ∪ s.facts, f ∉ B → ∀ p ∈ B, (s.heap f).id ≠ (s.heap p).id :=
    fun f hf hfB p hp hid ↦ hfB (h.distinct f hf p (.inl (hB hp)) hid ▸ hp)
  refine ⟨⟨h.keys, h.distinct, ?_, ?_⟩, ⟨fun _ _ ↦ rfl, fun _ _ ↦ rfl, fun _ _ _ ↦ rfl⟩,
    fun _ _ ↦ Iff.rfl, ?_, .inl rfl⟩
  · intro f hf hF m c hc
    exact (hmem _ (hne f (.inr hf) fun hfB ↦ hF (hB hfB)) m).trans (h.exact f hf hF hc)
  · intro m c hc id hid
    by_cases hidB : ∃ p ∈ B, id = (s.heap p).id
    · obtain ⟨p, hp, hidp⟩ := hidB
      exact ⟨p, .inl (hB hp), hidp⟩
    · push Not at hidB
      exact h.supported hc id ((hmem id hidB m).mp hid)
  · rintro f ⟨hf, hfB⟩ m
    exact hmem _ (hne f (.inl hf) hfB) m

/-- Writing one fact under way. -/
theorem AlphaInv.updatePassing_one (h : AlphaInv net kb source F s) (hp : p ∈ F)
    (hpassing : ∀ id, id ≠ (s.heap p).id → (id ∈ passing ↔ id ∈ (s.mem n).passingFacts)) :
    let s' := RulesForge.updatePassing n (fun _ ↦ passing) s
    AlphaInv net kb source F s' ∧ Frame net kb F (F \ {p}) s s' :=
  h.updatePassing (Set.singleton_subset_iff.mpr hp) fun id hne ↦ hpassing id (hne p rfl)

/-- What has to be told does not change while something else happens. -/
theorem Pending.of_frame (h : Pending net kb p type before after old ns s) (hp : p ∈ F)
    (hframe : Frame net kb F (F \ {p}) s s')
    (hheld : ∀ n ∈ ns, ∀ m, net.Below n m →
      ((s.heap p).id ∈ (s'.mem m).passingFacts ↔ (s.heap p).id ∈ (s.mem m).passingFacts)) :
    Pending net kb p type before after old ns s' where
  announces := h.announces
  hint htype {n c} hc haffected := by
    rw [hframe.keeps.tests hc p hp]
    rcases hframe.hint with hhint | hhint
    · rw [hhint] at haffected
      exact h.hint htype hc haffected
    · rw [hhint] at haffected
      exact absurd haffected (by simp [alphaConstraintAffected])
  disjoint := h.disjoint
  held n hn m hm := by
    rw [hframe.keeps.id p hp, hheld n hn m hm]
    exact h.held n hn m hm

/-- An alpha node that tells its children nothing. -/
theorem Pending.stop (h : Pending net kb p type before after old [n] s) (hp : p ∈ F)
    (hinv : AlphaInv net kb source F s) (hc : net.constraint n = some c)
    (hstep : alphaStep kb c (s.mem n).passingFacts p type s = (passing, none)) :
    Told net kb source F p after [n] s (updatePassing n (fun _ ↦ passing) s) := by
  have hwas := h.held n List.mem_cons_self n .refl
  rw [through_self hc] at hwas
  obtain ⟨hother, hown, hbefore, hafter⟩ := by
    simpa only [hstep, AnnouncesNext] using alphaStep_announces h.announces (h.hint · hc) hwas
  obtain ⟨hinv', hframe⟩ := hinv.updatePassing_one hp hother
  refine ⟨hinv', hframe, ?_, ?_⟩
  · intro n' hn' m hm
    obtain rfl := List.mem_singleton.mp hn'
    by_cases hmn : m = n'
    · subst hmn
      rw [through_self hc]
      simpa [RulesForge.updatePassing] using hown
    · rw [show (updatePassing n' (fun _ ↦ passing) s).mem m = s.mem m by
        simp [RulesForge.updatePassing, hmn], h.held n' List.mem_cons_self m hm]
      exact iff_of_false (fun hx ↦ hbefore ⟨hx.1, hx.2.first hc⟩)
        fun hx ↦ hafter ⟨hx.1, hx.2.first hc⟩
  · intro m hm
    have hmn : m ≠ n := fun hmn ↦ hm n List.mem_cons_self (hmn ▸ .refl)
    rw [show (updatePassing n (fun _ ↦ passing) s).mem m = s.mem m by
      simp [RulesForge.updatePassing, hmn]]

/-- An alpha node that tells its children. -/
theorem Pending.children (h : Pending net kb p type before after old [n] s) (hp : p ∈ F)
    (hinv : AlphaInv net kb source F s) (hc : net.constraint n = some c)
    {type' : PropagationType}
    (hstep : alphaStep kb c (s.mem n).passingFacts p type s = (passing, some type')) :
    let new c := checkConstraint kb.runtime s.heap c p = true
    let s₁ := updatePassing n (fun _ ↦ passing) s
    (AlphaInv net kb source F s₁ ∧ Frame net kb F (F \ {p}) s s₁) ∧
      ((s.heap p).id ∈ passing ↔ after ∧ new c) ∧
      Pending net kb p type' (before ∧ old c) (after ∧ new c) old (net.children n) s₁ := by
  intro new s₁
  have hwas := h.held n List.mem_cons_self n .refl
  rw [through_self hc] at hwas
  obtain ⟨hother, hown, hannounces, hmodify, -⟩ := by
    simpa only [hstep, AnnouncesNext] using alphaStep_announces h.announces (h.hint · hc) hwas
  refine ⟨hinv.updatePassing_one hp hother, hown, hannounces, fun ht ↦ h.hint (hmodify ht),
    children_disjoint n, ?_⟩
  intro k hk m hm
  have hmn : m ≠ n := by
    rintro rfl
    exact not_below_parent hk hm
  rw [show s₁.mem m = s.mem m by simp [s₁, RulesForge.updatePassing, hmn], and_assoc,
    ← through_child hc hk hm]
  exact h.held n List.mem_cons_self m (.head hk hm)

/-- The node and its children together. -/
theorem Told.of_children (hc : net.constraint n = some c)
    (hframe : Frame net kb F (F \ {p}) s (updatePassing n (fun _ ↦ passing) s))
    (hown : (s.heap p).id ∈ passing ↔ after ∧ checkConstraint kb.runtime s.heap c p = true)
    (h : Told net kb source F p (after ∧ checkConstraint kb.runtime s.heap c p = true)
      (net.children n) (updatePassing n (fun _ ↦ passing) s) s') :
    Told net kb source F p after [n] s s' := by
  have hsub : F \ {p} ⊆ F := Set.sdiff_subset
  refine ⟨h.inv, hframe.trans hsub h.frame, ?_, ?_⟩
  · intro n' hn' m hm
    obtain rfl := List.mem_singleton.mp hn'
    rcases desc_iff.mp hm with rfl | ⟨k, hk, hkm⟩
    · refine (h.elsewhere m fun k hk ↦ not_below_parent hk).trans ?_
      rw [through_self hc, ← hown]
      simp [RulesForge.updatePassing]
    · rw [through_child hc hk hkm, ← and_assoc]
      exact h.held k hk m hkm
  · intro m hm
    have hmn : m ≠ n := fun hmn ↦ hm n List.mem_cons_self (hmn ▸ .refl)
    have hbelow : ∀ k ∈ net.children n, ¬ net.Below k m :=
      fun k hk hkm ↦ hm n List.mem_cons_self (.head hk hkm)
    refine (h.elsewhere m hbelow).trans ?_
    rw [show (updatePassing n (fun _ ↦ passing) s).mem m = s.mem m by
      simp [RulesForge.updatePassing, hmn]]
    rfl

/-- No node is left. -/
theorem Told.nil (hp : p ∈ F) (h : AlphaInv net kb source F s' ∧ Frame net kb F F s s') :
    Told net kb source F p after [] s s' where
  inv := h.1
  frame := h.2.mono Set.sdiff_subset
  held _ hn := by cases hn
  elsewhere m _ := h.2.passing p hp m

/-- The first node and the others. -/
theorem Told.cons {s₁ s₂ : Session} (hp : p ∈ F)
    (hdisjoint : ∀ n' ∈ ns, ∀ m, net.Below n m → ¬ net.Below n' m)
    (hinside : Frame net kb F F s s₁) (hfirst : Told net kb source F p after [n] s₁ s₂)
    (hrest : Told net kb source F p after ns s₂ s') :
    Told net kb source F p after (n :: ns) s s' := by
  have hsub : F \ {p} ⊆ F := Set.sdiff_subset
  have hframe : Frame net kb F (F \ {p}) s s₂ := (hinside.mono hsub).trans hsub hfirst.frame
  have hid₁ := hinside.keeps.id p hp
  have hid₂ := hframe.keeps.id p hp
  refine ⟨hrest.inv, hframe.trans hsub hrest.frame, ?_, ?_⟩
  · intro n' hn' m hm
    rcases List.mem_cons.mp hn' with rfl | hn'
    · have helse := hrest.elsewhere m fun n'' hn'' ↦ hdisjoint n'' hn'' m hm
      rw [hid₂] at helse
      have hheld := hfirst.held n' List.mem_cons_self m hm
      rw [hid₁] at hheld
      rw [helse, hheld, hinside.keeps.through_iff hp]
    · have hheld := hrest.held n' hn' m hm
      rw [hid₂] at hheld
      rw [hheld, hframe.keeps.through_iff hp]
  · intro m hm
    have hlast := hrest.elsewhere m fun n' hn' ↦ hm n' (List.mem_cons_of_mem _ hn')
    rw [hid₂] at hlast
    have hnode := hfirst.elsewhere m fun n' hn' ↦ by
      obtain rfl := List.mem_singleton.mp hn'
      exact hm n' List.mem_cons_self
    rw [hid₁] at hnode
    exact hlast.trans (hnode.trans (hinside.passing p hp m))

end Fact

/-! ### Operations -/

section Operation

variable {op : Mutation}

/-- The facts of working memory when an operation starts to propagate. -/
theorem Covered.facts (h : Covered net kb source F op s) (hinv : AlphaInv net kb source F s) :
    (∀ {id f}, (id, f) ∈ (op.start kb s).workingMemory.facts →
      id = ((op.start kb s).heap f).id) ∧
    (∀ f, f ≠ op.fact → (f ∈ (op.start kb s).facts ↔ f ∈ s.facts)) ∧
    (op.fact ∈ (op.start kb s).facts ↔ op.type ≠ .retract) := by
  have hid : ∀ {id f}, (id, f) ∈ s.workingMemory.facts → id = ((op.start kb s).heap f).id := by
    intro id f hmem
    have hf : f ∈ s.facts := ⟨id, hmem⟩
    rw [hinv.keys hmem]
    by_cases hfp : f = op.fact
    · rw [hfp]
      exact (h.own (hfp ▸ hf)).1.symm
    · exact (h.others.id f ⟨.inr hf, hfp⟩).symm
  cases op with
  | add p through =>
    have hstore : ∀ {id f}, (id, f) ∈ ((Mutation.add p through).start kb s).workingMemory.facts ↔
        id ≠ (((Mutation.add p through).start kb s).heap p).id ∧
            (id, f) ∈ s.workingMemory.facts ∨
          id = (((Mutation.add p through).start kb s).heap p).id ∧ f = p := by
      intro id f
      exact AssocMap.mem_insert
    refine ⟨fun hmem ↦ ?_, fun f hfp ↦ ⟨?_, ?_⟩, iff_of_true ⟨_, hstore.mpr (.inr ⟨rfl, rfl⟩)⟩
      fun h ↦ by cases h⟩
    · rcases hstore.mp hmem with ⟨-, hmem⟩ | ⟨rfl, rfl⟩
      · exact hid hmem
      · rfl
    · rintro ⟨id, hmem⟩
      rcases hstore.mp hmem with ⟨-, hmem⟩ | ⟨-, rfl⟩
      · exact ⟨id, hmem⟩
      · exact absurd rfl hfp
    · rintro ⟨id, hmem⟩
      refine ⟨id, hstore.mpr (.inl ⟨fun heq ↦ hfp ?_, hmem⟩)⟩
      exact h.distinct f (.inr ⟨id, hmem⟩) ((hid hmem).symm.trans heq)
  | retract p through =>
    have hstore : ∀ {id f}, (id, f) ∈ ((Mutation.retract p through).start kb s).workingMemory.facts ↔
        id ≠ (s.heap p).id ∧ (id, f) ∈ s.workingMemory.facts := by
      intro id f
      exact AssocMap.mem_erase
    refine ⟨fun hmem ↦ hid (hstore.mp hmem).2, fun f hfp ↦ ⟨?_, ?_⟩, iff_of_false ?_ fun h ↦ h rfl⟩
    · rintro ⟨id, hmem⟩
      exact ⟨id, (hstore.mp hmem).2⟩
    · rintro ⟨id, hmem⟩
      refine ⟨id, hstore.mpr ⟨fun heq ↦ hfp ?_, hmem⟩⟩
      exact h.distinct f (.inr ⟨id, hmem⟩) ((hid hmem).symm.trans heq)
    · rintro ⟨id, hmem⟩
      exact (hstore.mp hmem).1 (hid (hstore.mp hmem).2)
  | update p fields =>
    exact ⟨hid, fun _ _ ↦ Iff.rfl, iff_of_true (h.present fun h ↦ by cases h) fun h ↦ by cases h⟩
  | modify p fields hint =>
    exact ⟨hid, fun _ _ ↦ Iff.rfl, iff_of_true (h.present fun h ↦ by cases h) fun h ↦ by cases h⟩

theorem start_mem (op : Mutation) (s : Session) : (op.start kb s).mem = s.mem := by
  cases op <;> rfl

/-- The hint when an operation starts is the one of its caller, its own, or none. -/
theorem finish_hint (op : Mutation) {s₂ : Session}
    (h : s₂.currentModifiedFields = (op.start kb s).currentModifiedFields ∨
      s₂.currentModifiedFields = none) :
    (op.finish s₂).currentModifiedFields = s.currentModifiedFields ∨
      (op.finish s₂).currentModifiedFields = none := by
  cases op with
  | modify _ _ _ => exact .inr rfl
  | add _ _ => exact h
  | retract _ _ => exact h
  | update _ _ => exact h

theorem entryChildren_alpha {through : Option String} {type : String} {n m : ℕ}
    (hn : n ∈ net.entryChildren through type) (hm : net.Below n m) :
    ∃ c, net.constraint m = some c := by
  rcases Relation.ReflTransGen.cases_tail hm with rfl | ⟨q, -, hq⟩
  · unfold entryChildren at hn
    cases hentry : net.entry through type with
    | none => simp [hentry] at hn
    | some e =>
      rw [hentry] at hn
      exact net.children_alpha hn
  · exact net.children_alpha hq

/-- Below a node that a fact meets first, it satisfies what it passes from there on. -/
theorem satisfies_iff_through {env : RuntimeEnv} {heap : Heap} {f : FactPtr} {n m : ℕ}
    (hn : n ∈ net.entryChildren (source f) (heap f).type) (hm : net.Below n m) :
    net.Satisfies env heap source f m ↔
      net.Through (fun c ↦ checkConstraint env heap c f = true) n m := by
  refine ⟨fun ⟨n', hn', h⟩ ↦ ?_, fun h ↦ ⟨n, hn, h⟩⟩
  by_cases hne : n' = n
  · exact hne ▸ h
  · unfold entryChildren at hn hn'
    cases hentry : net.entry (source f) (heap f).type with
    | none => simp [hentry] at hn
    | some e =>
      rw [hentry] at hn hn'
      exact absurd hm (net.forest.disjoint_siblings hn' hn hne h.below_node)

/-- Before an operation, the alpha nodes hold its fact where it was in working memory and
satisfied them. -/
theorem Covered.held (h : Covered net kb source F op s) (hinv : AlphaInv net kb source F s) {m : ℕ}
    {c : ParsedConstraint} (hc : net.constraint m = some c) :
    ((op.start kb s).heap op.fact).id ∈ (s.mem m).passingFacts ↔
      op.fact ∈ s.facts ∧ net.Satisfies kb.runtime s.heap source op.fact m := by
  by_cases hp : op.fact ∈ s.facts
  · rw [(h.own hp).1, and_iff_right hp]
    exact hinv.exact op.fact hp h.idle hc
  · refine iff_of_false (fun hmem ↦ ?_) fun hx ↦ hp hx.1
    obtain ⟨f, hf, hid⟩ := hinv.supported hc _ hmem
    have hne : f ≠ op.fact := by
      rintro rfl
      exact hf.elim h.idle hp
    rw [← h.others.id f ⟨hf, hne⟩] at hid
    exact hne (h.distinct f hf hid.symm)

/-- Where an operation starts, its fact has still to be told to the alpha nodes of its type. -/
theorem Covered.pending (h : Covered net kb source F op s) (hinv : AlphaInv net kb source F s) :
    AlphaInv net kb source (insert op.fact F) (op.start kb s) ∧
    Pending net kb op.fact op.type (op.fact ∈ s.facts) (op.fact ∈ (op.start kb s).facts)
      (fun c ↦ checkConstraint kb.runtime s.heap c op.fact = true)
      (net.entryChildren op.through ((op.start kb s).heap op.fact).type) (op.start kb s) := by
  obtain ⟨hkeys, hothers, hown⟩ := h.facts hinv
  have hmem : ∀ f ∈ insert op.fact F ∪ (op.start kb s).facts, f ≠ op.fact → f ∈ F ∪ s.facts := by
    rintro f ((rfl | hf) | hf) hne
    · exact absurd rfl hne
    · exact .inl hf
    · exact .inr ((hothers f hne).mp hf)
  refine ⟨⟨hkeys, ?_, ?_, ?_⟩, ⟨?_, ?_, entryChildren_disjoint _ _, ?_⟩⟩
  · intro f hf g hg hid
    by_cases hfp : f = op.fact
    · by_cases hgp : g = op.fact
      · rw [hfp, hgp]
      · rw [hfp] at hid ⊢
        exact (h.distinct g (hmem g hg hgp) hid.symm).symm
    · by_cases hgp : g = op.fact
      · rw [hgp] at hid ⊢
        exact h.distinct f (hmem f hf hfp) hid
      · have hf' := hmem f hf hfp
        have hg' := hmem g hg hgp
        rw [h.others.id f ⟨hf', hfp⟩, h.others.id g ⟨hg', hgp⟩] at hid
        exact hinv.distinct f hf' g hg' hid
  · intro f hf hF n c hc
    have hfp : f ≠ op.fact := fun hfp ↦ hF (.inl hfp)
    have hf' : f ∈ s.facts := (hothers f hfp).mp hf
    rw [start_mem, h.others.id f ⟨.inr hf', hfp⟩, h.others.satisfies_iff ⟨.inr hf', hfp⟩]
    exact hinv.exact f hf' (fun hF' ↦ hF (.inr hF')) hc
  · intro n c hc id hid
    rw [start_mem] at hid
    obtain ⟨f, hf, rfl⟩ := hinv.supported hc id hid
    by_cases hfp : f = op.fact
    · subst hfp
      have hp : op.fact ∈ s.facts := hf.resolve_left h.idle
      exact ⟨op.fact, .inl (.inl rfl), (h.own hp).1.symm⟩
    · refine ⟨f, ?_, (h.others.id f ⟨hf, hfp⟩).symm⟩
      exact hf.imp .inr (hothers f hfp).mpr
  · cases htype : op.type with
    | assert => exact hown.mpr (by simp [htype])
    | modify => exact ⟨h.present (by simp [htype]), hown.mpr (by simp [htype])⟩
    | retract => exact fun hp ↦ hown.mp hp htype
  · intro htype n c hc haffected
    rw [h.hint htype hc haffected]
  · intro n hn m hm
    obtain ⟨c, hc⟩ := entryChildren_alpha hn hm
    rw [start_mem, h.held hinv hc]
    refine and_congr_right fun hp ↦ ?_
    rw [h.through, (h.own hp).2] at hn
    exact satisfies_iff_through hn hm

/-- An operation whose fact has been told to the alpha nodes leaves them exact. -/
theorem Covered.told (h : Covered net kb source F op s) (hinv : AlphaInv net kb source F s)
    (htold : Told net kb source (insert op.fact F) op.fact (op.fact ∈ (op.start kb s).facts)
      (net.entryChildren op.through ((op.start kb s).heap op.fact).type) (op.start kb s) s') :
    AlphaInv net kb source F s' ∧ Keeps net kb F s s' ∧ (∀ f ∈ F, f ∈ s'.facts ↔ f ∈ s.facts) ∧
      ∀ f ∈ F, ∀ n,
        (s.heap f).id ∈ (s'.mem n).passingFacts ↔ (s.heap f).id ∈ (s.mem n).passingFacts := by
  obtain ⟨-, hothers, -⟩ := h.facts hinv
  have hpF : op.fact ∈ insert op.fact F := .inl rfl
  have hkeeps := htold.frame.keeps
  have hne : ∀ f ∈ F, f ≠ op.fact := fun f hf hfp ↦ h.idle (hfp ▸ hf)
  have hothers' : Keeps net kb F s (op.start kb s) :=
    h.others.mono fun f hf ↦ ⟨.inl hf, hne f hf⟩
  have hstatus : ∀ {n c}, net.constraint n = some c →
      (((op.start kb s).heap op.fact).id ∈ (s'.mem n).passingFacts ↔
        op.fact ∈ (op.start kb s).facts ∧
          net.Satisfies kb.runtime (op.start kb s).heap source op.fact n) := by
    intro n c hc
    by_cases hbelow : ∃ k ∈ net.entryChildren op.through ((op.start kb s).heap op.fact).type,
        net.Below k n
    · obtain ⟨k, hk, hkn⟩ := hbelow
      rw [htold.held k hk n hkn]
      rw [h.through] at hk
      rw [satisfies_iff_through hk hkn]
    · -- Outside the tree of its type the fact was not held, and it does not satisfy anything.
      push Not at hbelow
      rw [htold.elsewhere n hbelow, start_mem, h.held hinv hc]
      refine iff_of_false ?_ ?_
      · rintro ⟨hp, k, hk, hkn⟩
        rw [← h.through, ← (h.own hp).2] at hk
        exact hbelow k hk hkn.below_node
      · rintro ⟨-, k, hk, hkn⟩
        rw [← h.through] at hk
        exact hbelow k hk hkn.below_node
  refine ⟨⟨htold.inv.keys, ?_, ?_, ?_⟩, hothers'.trans (hkeeps.mono fun f hf ↦ .inr hf), ?_, ?_⟩
  · exact fun f hf g hg ↦ htold.inv.distinct f (hf.imp .inr id) g (hg.imp .inr id)
  · intro f hf hF n c hc
    by_cases hfp : f = op.fact
    · subst hfp
      rw [hkeeps.id _ hpF, hstatus hc, hkeeps.satisfies_iff hpF,
        and_iff_right ((htold.frame.facts _ hpF).mp hf)]
    · exact htold.inv.exact f hf (fun hF' ↦ hF'.elim hfp hF) hc
  · intro n c hc id hid
    obtain ⟨f, hf, rfl⟩ := htold.inv.supported hc id hid
    by_cases hfp : f = op.fact
    · subst hfp
      rw [hkeeps.id _ hpF, hstatus hc] at hid
      exact ⟨op.fact, .inr ((htold.frame.facts _ hpF).mpr hid.1), rfl⟩
    · exact ⟨f, hf.imp (fun hF ↦ hF.resolve_left hfp) fun hf ↦ hf, rfl⟩
  · intro f hf
    exact (htold.frame.facts f (.inr hf)).trans (hothers f (hne f hf))
  · intro f hf n
    rw [← hothers'.id f hf, htold.frame.passing f ⟨.inr hf, hne f hf⟩ n, start_mem]

end Operation

end AlphaNetwork

end RulesForge
