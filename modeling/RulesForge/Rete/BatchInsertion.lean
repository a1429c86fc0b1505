import Mathlib.Data.Multiset.Bind
import RulesForge.Rete.Network

/-!
# Batches in the alpha network

`add_facts` sends the facts of one type through the alpha network as one vector, by
`EntryPointNode::right_activate_batch` and `AlphaNode::right_activate_batch`
(`src/rete/rete_node.cpp`). An alpha node with a single child does not copy the vector: it removes
the facts that fail its test **in place**, and the vector is that of its caller, which hands it on
to the next child. So a fact that one pattern refuses is missing from the batch of the next.

What the nodes get from a batch is always among what they get from the facts one by one
(`received_le`), and it is all of that exactly when no child accepts a fact that an earlier child
has removed (`received_eq_iff`). The nodes below the alpha network are left open: what they get is
listed.
-/

namespace RulesForge

namespace AlphaNetwork

variable (net : CompiledNetwork) (passes : ParsedConstraint → FactPtr → Bool)

/-- `right_activate` with a fact that is asserted: the alpha nodes that take it into their memory,
and the nodes below that get it, in turn. -/
def assertOne : ℕ → ℕ → FactPtr → List (ℕ × FactPtr)
  | 0, _, _ => []
  | levels + 1, n, fact =>
    let below := (net.children n).flatMap fun child ↦ assertOne levels child fact
    match net.kind n with
    | .entryPoint => below
    | .alpha c => if passes c fact then (n, fact) :: below else []
    | _ => [(n, fact)]

/-- The children get one vector in turn, each as the one before has left it. -/
def batchChildren (batch : ℕ → List FactPtr → List FactPtr × List (ℕ × FactPtr)) :
    List ℕ → List FactPtr → List FactPtr × List (ℕ × FactPtr)
  | [], facts => (facts, [])
  | child :: children, facts =>
    let (left, received) := batch child facts
    let (rest, others) := batchChildren batch children left
    (rest, received ++ others)

/-- `right_activate_batch` with facts that are asserted: the vector that the caller has afterwards,
and what the nodes have got. -/
def assertBatch : ℕ → ℕ → List FactPtr → List FactPtr × List (ℕ × FactPtr)
  | 0, _, facts => (facts, [])
  | levels + 1, n, facts =>
    match net.kind n with
    | .entryPoint => batchChildren (assertBatch levels) (net.children n) facts
    | .alpha c =>
      let survivors := facts.filter (passes c)
      if survivors.isEmpty then (facts, [])
      else
        let (left, received) := batchChildren (assertBatch levels) (net.children n) survivors
        let received := survivors.map (n, ·) ++ received
        -- a single child gets the vector itself, several children get a copy
        if (net.children n).length = 1 then (left, received) else (facts, received)
    | _ => (facts, facts.map (n, ·))

/-- What the nodes get from a batch. -/
def received (levels n : ℕ) (facts : List FactPtr) : Multiset (ℕ × FactPtr) :=
  (assertBatch net passes levels n facts).2

/-- What the nodes get from the facts one by one. -/
def receivedSingly (levels n : ℕ) (facts : List FactPtr) : Multiset (ℕ × FactPtr) :=
  (facts : Multiset FactPtr).bind fun fact ↦ (assertOne net passes levels n fact : Multiset _)

/-- The vector after a batch. -/
def remaining (levels n : ℕ) (facts : List FactPtr) : List FactPtr :=
  (assertBatch net passes levels n facts).1

/-- A node **refuses** a fact when nothing below it takes it. -/
def Refuses (levels n : ℕ) (fact : FactPtr) : Prop :=
  assertOne net passes levels n fact = []

/-- No child gets less than it would accept: what an earlier child removes, a later one refuses. -/
def SparesChildren (levels : ℕ) (spares : ℕ → List FactPtr → Prop) :
    List ℕ → List FactPtr → Prop
  | [], _ => True
  | child :: children, facts =>
    let left := remaining net passes levels child facts
    spares child facts ∧
      (∀ fact ∈ facts, fact ∉ left → ∀ later ∈ children, Refuses net passes levels later fact) ∧
      SparesChildren levels spares children left

/-- A batch **spares** its facts below a node when no child anywhere accepts a fact that an earlier
child has removed. -/
def Spares : ℕ → ℕ → List FactPtr → Prop
  | 0, _, _ => True
  | levels + 1, n, facts =>
    match net.kind n with
    | .entryPoint => SparesChildren net passes levels (Spares levels) (net.children n) facts
    | .alpha c =>
      let survivors := facts.filter (passes c)
      survivors ≠ [] → SparesChildren net passes levels (Spares levels) (net.children n) survivors
    | _ => True

variable {net passes} {levels n : ℕ} {facts : List FactPtr}

/-! ### What is removed -/

/-- Facts are removed by a test. -/
theorem batchChildren_filter {batch : ℕ → List FactPtr → List FactPtr × List (ℕ × FactPtr)}
    (hbatch : ∀ n facts, ∃ keep : FactPtr → Bool, (batch n facts).1 = facts.filter keep)
    (children : List ℕ) (facts : List FactPtr) :
    ∃ keep : FactPtr → Bool, (batchChildren batch children facts).1 = facts.filter keep := by
  induction children generalizing facts with
  | nil => exact ⟨fun _ ↦ true, (List.filter_true facts).symm⟩
  | cons child children ih =>
    obtain ⟨keep, hkeep⟩ := hbatch child facts
    obtain ⟨keep', hkeep'⟩ := ih (batch child facts).1
    refine ⟨fun fact ↦ keep' fact && keep fact, ?_⟩
    show (batchChildren batch children (batch child facts).1).1 = _
    rw [hkeep', hkeep, List.filter_filter]

theorem remaining_filter (levels n : ℕ) (facts : List FactPtr) :
    ∃ keep : FactPtr → Bool, remaining net passes levels n facts = facts.filter keep := by
  have hall : ∀ facts : List FactPtr, ∃ keep : FactPtr → Bool, facts = facts.filter keep :=
    fun facts ↦ ⟨fun _ ↦ true, (List.filter_true facts).symm⟩
  induction levels generalizing n facts with
  | zero => exact hall facts
  | succ levels ih =>
    rw [remaining, assertBatch]
    split
    · exact batchChildren_filter ih _ facts
    · next c _ =>
      dsimp only
      split
      · exact hall facts
      · split
        · obtain ⟨keep, hkeep⟩ := batchChildren_filter ih (net.children n) (facts.filter (passes c))
          refine ⟨fun fact ↦ keep fact && passes c fact, ?_⟩
          rw [← List.filter_filter]
          exact hkeep
        · exact hall facts
    · exact hall facts

/-! ### Batches against single facts -/

/-- What the children get from the facts one by one. -/
def receivedByChildren (net : CompiledNetwork) (passes : ParsedConstraint → FactPtr → Bool)
    (levels : ℕ) (children : List ℕ) (facts : List FactPtr) : Multiset (ℕ × FactPtr) :=
  (children : Multiset ℕ).bind fun child ↦ receivedSingly net passes levels child facts

theorem receivedByChildren_cons (child : ℕ) (children : List ℕ) (facts : List FactPtr) :
    receivedByChildren net passes levels (child :: children) facts =
      receivedSingly net passes levels child facts +
        receivedByChildren net passes levels children facts := by
  rw [receivedByChildren, ← Multiset.cons_coe, Multiset.cons_bind]
  rfl

theorem receivedSingly_filter_add (levels n : ℕ) (keep : FactPtr → Bool) (facts : List FactPtr) :
    receivedSingly net passes levels n (facts.filter keep) +
      receivedSingly net passes levels n (facts.filter fun fact ↦ !keep fact) =
      receivedSingly net passes levels n facts := by
  have hsplit := Multiset.filter_add_not (fun fact ↦ keep fact = true) (facts : Multiset FactPtr)
  simp only [Multiset.filter_coe] at hsplit
  rw [receivedSingly, receivedSingly, receivedSingly, ← Multiset.add_bind]
  refine congrArg (Multiset.bind · _) (Eq.trans ?_ hsplit)
  congr 2 <;> refine List.filter_congr fun fact _ ↦ ?_ <;> cases keep fact <;> rfl

theorem receivedByChildren_filter_add (children : List ℕ) (keep : FactPtr → Bool)
    (facts : List FactPtr) :
    receivedByChildren net passes levels children (facts.filter keep) +
      receivedByChildren net passes levels children (facts.filter fun fact ↦ !keep fact) =
      receivedByChildren net passes levels children facts := by
  rw [receivedByChildren, receivedByChildren, receivedByChildren, ← Multiset.bind_add]
  simp only [receivedSingly_filter_add]

/-- Nothing is got from facts that are refused. -/
theorem receivedByChildren_eq_zero_iff (children : List ℕ) (facts : List FactPtr) :
    receivedByChildren net passes levels children facts = 0 ↔
      ∀ fact ∈ facts, ∀ child ∈ children, Refuses net passes levels child fact := by
  rw [Multiset.eq_zero_iff_forall_notMem]
  constructor
  · intro h fact hfact child hchild
    refine List.eq_nil_iff_forall_not_mem.mpr fun x hx ↦ h x ?_
    exact Multiset.mem_bind.mpr ⟨child, hchild, Multiset.mem_bind.mpr ⟨fact, hfact, hx⟩⟩
  · intro h x hx
    obtain ⟨child, hchild, hx⟩ := Multiset.mem_bind.mp hx
    obtain ⟨fact, hfact, hx⟩ := Multiset.mem_bind.mp hx
    have hnone : assertOne net passes levels child fact = [] := h fact hfact child hchild
    rw [hnone] at hx
    exact absurd hx List.not_mem_nil

/-- **The children of a node**: they get no more than from the facts one by one, and no less if
and only if what is removed is refused by all that come later. -/
theorem batchChildren_spec
    (hle : ∀ n facts, received net passes levels n facts ≤ receivedSingly net passes levels n facts)
    (heq : ∀ n facts, received net passes levels n facts =
      receivedSingly net passes levels n facts ↔ Spares net passes levels n facts)
    (children : List ℕ) (facts : List FactPtr) :
    let r : Multiset (ℕ × FactPtr) :=
      (batchChildren (assertBatch net passes levels) children facts).2
    r ≤ receivedByChildren net passes levels children facts ∧
      (r = receivedByChildren net passes levels children facts ↔
        SparesChildren net passes levels (Spares net passes levels) children facts) := by
  induction children generalizing facts with
  | nil => exact ⟨le_rfl, iff_of_true rfl trivial⟩
  | cons child children ih =>
    intro r
    obtain ⟨keep, hkeep⟩ := @remaining_filter net passes levels child facts
    set left := remaining net passes levels child facts with hleft
    obtain ⟨hrest, hrestEq⟩ := ih left
    set rest : Multiset (ℕ × FactPtr) :=
      ↑(batchChildren (assertBatch net passes levels) children left).2 with hrestDef
    have hr : r = received net passes levels child facts + rest := (Multiset.coe_add _ _).symm
    have hsplit := @receivedByChildren_filter_add net passes levels children keep facts
    rw [← hkeep] at hsplit
    have hpart : receivedByChildren net passes levels children left ≤
        receivedByChildren net passes levels children facts := by
      rw [← hsplit]
      exact Multiset.le_add_right _ _
    rw [hr, receivedByChildren_cons]
    refine ⟨add_le_add (hle child facts) (hrest.trans hpart), ?_⟩
    rw [add_eq_add_iff_eq_and_eq (hle child facts) (hrest.trans hpart), heq]
    refine and_congr_right fun _ ↦ ?_
    -- what the later children miss is what they would get from the facts that were removed
    have hmissing : rest = receivedByChildren net passes levels children facts ↔
        receivedByChildren net passes levels children (facts.filter fun fact ↦ !keep fact) = 0 ∧
          rest = receivedByChildren net passes levels children left := by
      constructor
      · intro h
        have hle' : receivedByChildren net passes levels children facts ≤
            receivedByChildren net passes levels children left := h ▸ hrest
        have heq' := le_antisymm hle' hpart
        refine ⟨?_, h.trans heq'⟩
        rw [heq'] at hsplit
        exact add_eq_left.mp hsplit
      · rintro ⟨hzero, h⟩
        rw [hzero, add_zero] at hsplit
        exact h.trans hsplit
    rw [hmissing, hrestEq, receivedByChildren_eq_zero_iff]
    refine and_congr_left fun _ ↦ forall_congr' fun fact ↦ ?_
    rw [← hleft, hkeep, List.mem_filter, List.mem_filter, Bool.not_eq_true']
    constructor
    · exact fun h hfact hnot ↦ h ⟨hfact, Bool.eq_false_iff.mpr fun hkept ↦ hnot ⟨hfact, hkept⟩⟩
    · exact fun h hremoved ↦ h hremoved.1 fun hkept ↦
        absurd (hremoved.2.symm.trans hkept.2) Bool.false_ne_true

/-! ### The nodes from the facts one by one -/

theorem receivedSingly_children (children : List ℕ) (facts : List FactPtr) :
    ((facts : Multiset FactPtr).bind fun fact ↦
        (children.flatMap fun child ↦ assertOne net passes levels child fact : Multiset _)) =
      receivedByChildren net passes levels children facts := by
  simp only [receivedByChildren, receivedSingly, ← Multiset.coe_bind]
  exact Multiset.bind_bind _ _

theorem receivedSingly_entryPoint (hkind : net.kind n = .entryPoint) (facts : List FactPtr) :
    receivedSingly net passes (levels + 1) n facts =
      receivedByChildren net passes levels (net.children n) facts := by
  simp only [receivedSingly, assertOne, hkind]
  exact receivedSingly_children _ facts

theorem receivedSingly_alpha {c : ParsedConstraint} (hkind : net.kind n = .alpha c)
    (facts : List FactPtr) :
    receivedSingly net passes (levels + 1) n facts =
      (((facts.filter (passes c)).map (n, ·) : List (ℕ × FactPtr)) : Multiset (ℕ × FactPtr)) +
        receivedByChildren net passes levels (net.children n) (facts.filter (passes c)) := by
  have hsurvivors : (facts.filter (passes c) : Multiset FactPtr) =
      Multiset.filter (fun fact ↦ passes c fact = true) facts := by
    simp only [Multiset.filter_coe, Bool.decide_eq_true]
  rw [← receivedSingly_children, ← Multiset.map_coe, ← Multiset.bind_cons, hsurvivors,
    Multiset.bind_filter, receivedSingly]
  refine Multiset.bind_congr fun fact _ ↦ ?_
  simp only [assertOne, hkind]
  split <;> rfl

theorem receivedSingly_beta (hentry : net.kind n ≠ .entryPoint)
    (halpha : ∀ c, net.kind n ≠ .alpha c) (facts : List FactPtr) :
    receivedSingly net passes (levels + 1) n facts =
      ((facts.map (n, ·) : List (ℕ × FactPtr)) : Multiset (ℕ × FactPtr)) := by
  have hone : ∀ fact, assertOne net passes (levels + 1) n fact = [(n, fact)] := by
    intro fact
    rw [assertOne]
    split
    · next h => exact absurd h hentry
    · next c h => exact absurd h (halpha c)
    · rfl
  rw [receivedSingly, ← Multiset.map_coe, ← Multiset.bind_singleton]
  refine Multiset.bind_congr fun fact _ ↦ ?_
  rw [hone]
  rfl

/-! ### A batch -/

/-- What a batch is against its facts one by one, below a node. -/
theorem assertBatch_spec (levels n : ℕ) (facts : List FactPtr) :
    received net passes levels n facts ≤ receivedSingly net passes levels n facts ∧
      (received net passes levels n facts = receivedSingly net passes levels n facts ↔
        Spares net passes levels n facts) := by
  induction levels generalizing n facts with
  | zero =>
    have hnone : receivedSingly net passes 0 n facts = 0 := Multiset.bind_zero _
    rw [hnone]
    exact ⟨le_rfl, iff_of_true rfl trivial⟩
  | succ levels ih =>
    have hchildren := batchChildren_spec (fun n facts ↦ (ih n facts).1) fun n facts ↦ (ih n facts).2
    cases hkind : net.kind n with
    | entryPoint =>
      have hreceived : received net passes (levels + 1) n facts =
          ↑(batchChildren (assertBatch net passes levels) (net.children n) facts).2 := by
        simp only [received, assertBatch, hkind]
      rw [hreceived, receivedSingly_entryPoint hkind]
      simp only [Spares, hkind]
      exact hchildren (net.children n) facts
    | alpha c =>
      set survivors := facts.filter (passes c) with hsurvivors
      rw [receivedSingly_alpha hkind, ← hsurvivors]
      by_cases hempty : survivors = []
      · have hreceived : received net passes (levels + 1) n facts = 0 := by
          simp only [received, assertBatch, hkind, ← hsurvivors, hempty, List.isEmpty_nil, if_true]
          rfl
        have hnone : receivedByChildren net passes levels (net.children n) [] = 0 :=
          (receivedByChildren_eq_zero_iff _ _).mpr fun fact hfact ↦ absurd hfact List.not_mem_nil
        simp only [Spares, hkind, ← hsurvivors]
        rw [hreceived, hempty, hnone]
        exact ⟨le_rfl, iff_of_true rfl fun hne ↦ absurd rfl hne⟩
      · have hreceived : received net passes (levels + 1) n facts =
            ↑(survivors.map (n, ·)) +
              ↑(batchChildren (assertBatch net passes levels) (net.children n) survivors).2 := by
          simp only [received, assertBatch, hkind, ← hsurvivors, List.isEmpty_iff, hempty, if_false]
          split <;> rw [Multiset.coe_add]
        obtain ⟨hle, heq⟩ := hchildren (net.children n) survivors
        simp only [Spares, hkind, ← hsurvivors]
        rw [hreceived]
        refine ⟨add_le_add le_rfl hle, ?_⟩
        rw [add_right_inj, heq]
        exact ⟨fun h _ ↦ h, fun h ↦ h hempty⟩
    | crossProductJoin | hashedJoin | condition | tokenNode | terminal =>
      have hreceived : received net passes (levels + 1) n facts = ↑(facts.map (n, ·)) := by
        simp only [received, assertBatch, hkind]
      rw [hreceived, receivedSingly_beta (by simp [hkind]) (by simp [hkind])]
      simp only [Spares, hkind]
      exact ⟨le_rfl, trivial⟩

/-! ### Batches that lose nothing -/

theorem sparesChildren_of_remaining {spares : ℕ → List FactPtr → Prop}
    (hspares : ∀ n, spares n facts)
    (hremaining : ∀ n, remaining net passes levels n facts = facts) (children : List ℕ) :
    SparesChildren net passes levels spares children facts := by
  induction children with
  | nil => trivial
  | cons child children ih =>
    refine ⟨hspares child, fun fact hfact hnot ↦ ?_, ?_⟩
    · rw [hremaining] at hnot
      exact absurd hfact hnot
    · rw [hremaining]
      exact ih

/-- The facts of a batch agree on every test. -/
def Uniform (passes : ParsedConstraint → FactPtr → Bool) (facts : List FactPtr) : Prop :=
  ∀ c, ∀ fact ∈ facts, ∀ fact' ∈ facts, passes c fact = passes c fact'

/-- A test lets pass all facts that agree, or none of them. -/
theorem Uniform.filter_eq (h : Uniform passes facts) (c : ParsedConstraint) :
    facts.filter (passes c) = facts ∨ facts.filter (passes c) = [] := by
  by_cases hany : ∃ fact ∈ facts, passes c fact = true
  · obtain ⟨fact, hfact, hpass⟩ := hany
    refine .inl (List.filter_eq_self.mpr fun fact' hfact' ↦ ?_)
    exact (h c fact' hfact' fact hfact).trans hpass
  · refine .inr (List.filter_eq_nil_iff.mpr fun fact hfact hpass ↦ ?_)
    exact hany ⟨fact, hfact, hpass⟩

theorem batchChildren_of_remaining
    (hremaining : ∀ n, remaining net passes levels n facts = facts) (children : List ℕ) :
    (batchChildren (assertBatch net passes levels) children facts).1 = facts := by
  induction children with
  | nil => rfl
  | cons child children ih =>
    show (batchChildren (assertBatch net passes levels) children
      (remaining net passes levels child facts)).1 = facts
    rw [hremaining, ih]

/-- Facts that agree on every test stay together. -/
theorem Uniform.spares (h : Uniform passes facts) (levels n : ℕ) :
    remaining net passes levels n facts = facts ∧ Spares net passes levels n facts := by
  induction levels generalizing n with
  | zero => exact ⟨rfl, trivial⟩
  | succ levels ih =>
    have hchildren := sparesChildren_of_remaining (fun n ↦ (ih n).2) fun n ↦ (ih n).1
    have hremaining := batchChildren_of_remaining fun n ↦ (ih n).1
    cases hkind : net.kind n with
    | entryPoint =>
      simp only [remaining, assertBatch, Spares, hkind]
      exact ⟨hremaining _, hchildren _⟩
    | alpha c =>
      simp only [remaining, assertBatch, Spares, hkind]
      rcases h.filter_eq c with hall | hnone
      · rw [hall]
        refine ⟨?_, fun _ ↦ hchildren _⟩
        split
        · rfl
        · split
          · exact hremaining _
          · rfl
      · rw [hnone]
        exact ⟨rfl, fun hne ↦ absurd rfl hne⟩
    | crossProductJoin | hashedJoin | condition | tokenNode | terminal =>
      simp only [remaining, assertBatch, Spares, hkind]
      exact ⟨trivial, trivial⟩

/-- **A batch against its facts one by one**: below every node of every network, a batch gives the
nodes no more than the facts one by one give them, and it gives them the same exactly when no child
accepts a fact that an earlier child has removed from the shared vector. In particular a batch
loses nothing when its facts agree on every test, as a single fact does. -/
theorem batch_received_iff (net : CompiledNetwork) (passes : ParsedConstraint → FactPtr → Bool)
    (levels n : ℕ) (facts : List FactPtr) :
    received net passes levels n facts ≤ receivedSingly net passes levels n facts ∧
      (received net passes levels n facts = receivedSingly net passes levels n facts ↔
        Spares net passes levels n facts) ∧
      (Uniform passes facts →
        received net passes levels n facts = receivedSingly net passes levels n facts) := by
  obtain ⟨hle, heq⟩ := @assertBatch_spec net passes levels n facts
  exact ⟨hle, heq, fun h ↦ heq.mpr (h.spares levels n).2⟩

/-! ### Two patterns of one type -/

/-- The rules `A(x == 1)` and `A(x == 2)`. -/
def splitRules : List ParsedRule :=
  [1, 2].map fun v ↦
    { name := "A"
      conditionGroups :=
        [[{ factType := "A"
            constraintRoot := some (.leaf
              { leftField := "x", op := .eq, rightLiteral := some (.int64 v) }) }]] }

/-- The fact at address `v` has `x = v`. -/
def splitPasses (c : ParsedConstraint) (fact : FactPtr) : Bool :=
  optionEquals literalEquals c.rightLiteral (some (.int64 fact))

/-- The second pattern never gets its fact: the first one has removed it. -/
example : ((compileNetwork splitRules).toOption.map fun net ↦
    ((assertBatch net splitPasses 3 0 [1, 2]).2, [1, 2].flatMap (assertOne net splitPasses 3 0))) =
    some ([(1, 1), (2, 1)], [(1, 1), (2, 1), (4, 2), (5, 2)]) := by
  decide +kernel

end AlphaNetwork

end RulesForge
