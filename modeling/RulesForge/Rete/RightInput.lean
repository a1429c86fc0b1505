import RulesForge.Rete.QueryNetworkShape

/-!
# What a node reads from its right

`create_node_for_pattern` (`src/rete/beta_builder.cpp`) builds the alpha chain of a pattern: of the
pattern itself, of the source of an accumulate, or of the first nested pattern of a NOT or an
EXISTS. Of this pattern it looks at the **fact type, the entry point, the constraint tree and the
window** and at nothing else. They make the right side of the node, its `RightInput`. Without a fact
type there is none.
-/

namespace RulesForge

/-- The right side of a node: an entry point, a fact type, the installed tests and a window below
the alpha nodes. -/
structure RightInput where
  source : Option String
  factType : String
  tests : InstalledTests
  window : Option ParsedWindow

namespace ChainBuilder

variable (b : ChainBuilder)

/-- The right side that the node of a pattern gets. -/
def rightInput (pattern : FactPattern) : Option RightInput :=
  if pattern.factType = "" then none
  else
    some ⟨pattern.entryPoint, pattern.factType,
      installedTests b.inlineBindingToField pattern.constraintRoot, pattern.windowInfo⟩

/-- The join conditions of the node. -/
def joinsOf (pattern : FactPattern) : List ParsedConstraint :=
  (b.rightInput pattern).elim [] (·.tests.joins)

/-- The condition that the node tests. -/
def conditionOf (pattern : FactPattern) : JoinCondition :=
  ⟨b.joinsOf pattern, b.bindingToIdx, b.inlineBindingToField⟩

/-- The kind of node that an element with such a right side is built as. -/
def nodeKind (e : ConditionElement) (pattern : FactPattern) : QueryNodeKind :=
  match e.kind with
  | .accumulate source => .accumulate source e.factType b.bindingToIdx (b.joinsOf pattern)
  | .not _ => .rete (.condition .not (b.conditionOf pattern))
  | .exists _ => .rete (.condition .exists (b.conditionOf pattern))
  | _ =>
    .rete (BetaNetworkBuilder.standardKind (b.lastNode.isSome || b.isQueryBuild)
      (b.conditionOf pattern))

end ChainBuilder

/-! ### Above a node -/

namespace QueryNetwork

variable {net net' net'' : QueryNetwork}

/-- The node at which the facts of a type enter, if there is one. -/
def entry (net : QueryNetwork) (source : Option String) (factType : String) : Option ℕ :=
  match source.filter (· ≠ "") with
  | none => net.alphaEntryPoints.lookup factType
  | some name => (net.namedEntryPoints.lookup name).bind (·.lookup factType)

/-- A chain of alpha nodes with the given tests, from one node to another. -/
inductive AlphaChain (net : QueryNetwork) : ℕ → List ParsedConstraint → ℕ → Prop
  | nil {n} : AlphaChain net n [] n
  | cons {p n t c c' cs} : net.node n = ⟨.rete (.alpha c'), [p]⟩ → c' = c ∨ c'.equals c = true →
      AlphaChain net n cs t → AlphaChain net p (c :: cs) t

/-- The window node below an alpha tail, if the pattern has a window. -/
def WindowBelow (net : QueryNetwork) (tail : ℕ) (window : Option ParsedWindow) (n : ℕ) : Prop :=
  match window with
  | none => n = tail
  | some info => net.node n = ⟨.window info, [tail]⟩

/-- A node has a right side, and on its left the node before it. -/
def HasInput (net : QueryNetwork) (n : ℕ) (last : Option ℕ) : Option RightInput → Prop
  | none => ∀ p, p ∈ net.parents n ↔ last = some p
  | some input =>
    ∃ entry tail right, net.entry input.source input.factType = some entry ∧
      net.AlphaChain entry input.tests.alphas tail ∧ net.WindowBelow tail input.window right ∧
      ∀ p, p ∈ net.parents n ↔ p = right ∨ last = some p

theorem AlphaChain.mono (hext : Extends net net') {n t : ℕ} {cs : List ParsedConstraint}
    (h : net.AlphaChain n cs t) : net'.AlphaChain n cs t := by
  induction h with
  | nil => exact .nil
  | @cons p n t c c' cs hnode hshared _ ih =>
    refine .cons ((hext.node_eq n (lt_of_mem_parents (p := p) ?_)).trans hnode) hshared ih
    rw [QueryNetwork.parents, hnode]
    exact List.mem_singleton_self _

theorem WindowBelow.mono (hext : Extends net net') {n tail : ℕ} {window : Option ParsedWindow}
    (h : net.WindowBelow tail window n) : net'.WindowBelow tail window n := by
  cases window with
  | none => exact h
  | some info =>
    have hnode : net.node n = ⟨.window info, [tail]⟩ := h
    refine (hext.node_eq n (lt_of_mem_parents (p := tail) ?_)).trans hnode
    rw [QueryNetwork.parents, hnode]
    exact List.mem_singleton_self _

/-- The entry points of a network are those of another one. -/
structure SameEntries (net net' : QueryNetwork) : Prop where
  default : net'.alphaEntryPoints = net.alphaEntryPoints
  named : net'.namedEntryPoints = net.namedEntryPoints

theorem SameEntries.trans (h : SameEntries net net') (h' : SameEntries net' net'') :
    SameEntries net net'' :=
  ⟨h'.default.trans h.default, h'.named.trans h.named⟩

theorem SameEntries.entry_eq (h : SameEntries net net') (source : Option String)
    (factType : String) : net'.entry source factType = net.entry source factType := by
  simp only [entry, h.default, h.named]

/-- `entryPoint` gives the node under which the facts enter from then on. -/
theorem entry_entryPoint (net : QueryNetwork) (source : Option String) (factType : String) :
    (net.entryPoint source factType).2.entry source factType =
      some (net.entryPoint source factType).1 := by
  unfold entryPoint entry
  cases source.filter (· ≠ "") with
  | none =>
    cases hlookup : net.alphaEntryPoints.lookup factType with
    | some n => exact hlookup
    | none => exact SortedMap.lookup_insert_self ..
  | some name =>
    cases hlookup : ((net.namedEntryPoints.lookup name).getD []).lookup factType with
    | some n =>
      simp only [hlookup]
      cases hname : net.namedEntryPoints.lookup name with
      | none =>
        rw [hname] at hlookup
        cases hlookup
      | some types =>
        rw [hname] at hlookup
        exact hlookup
    | none =>
      simp only [hlookup]
      show (List.lookup name (SortedMap.insert name _ net.namedEntryPoints)).bind _ = _
      rw [SortedMap.lookup_insert_self]
      exact SortedMap.lookup_insert_self ..

theorem findOrCreateAlpha_node (hnet : net.Inv) (tail : ℕ) (c : ParsedConstraint) :
    SameEntries net (net.findOrCreateAlpha tail c).2 ∧
      ∃ c', (net.findOrCreateAlpha tail c).2.node (net.findOrCreateAlpha tail c).1 =
          ⟨.rete (.alpha c'), [tail]⟩ ∧ (c' = c ∨ c'.equals c = true) := by
  unfold findOrCreateAlpha
  split
  · next entry hfind =>
    have hmatch := List.find?_some hfind
    simp only [Bool.and_eq_true, decide_eq_true_eq] at hmatch
    have hnode := (hnet.alphas entry (List.mem_of_find?_eq_some hfind)).2
    rw [hmatch.1] at hnode
    exact ⟨⟨rfl, rfl⟩, entry.2.1, hnode, .inr hmatch.2⟩
  · exact ⟨⟨rfl, rfl⟩, c, createNode_self net (.rete (.alpha c)) [tail], .inl rfl⟩

theorem alphaChain_buildAlphaChain (cs : List ParsedConstraint) (hnet : net.Inv) {tail : ℕ}
    (htail : net.IsTail tail) :
    SameEntries net (net.buildAlphaChain tail cs).2 ∧
      (net.buildAlphaChain tail cs).2.AlphaChain tail cs (net.buildAlphaChain tail cs).1 := by
  induction cs generalizing net tail with
  | nil => exact ⟨⟨rfl, rfl⟩, .nil⟩
  | cons c cs ih =>
    have hstep := tailStep_findOrCreateAlpha hnet htail c
    obtain ⟨hsame, c', hnode, hshared⟩ := findOrCreateAlpha_node hnet tail c
    obtain ⟨hsame', hchain⟩ := ih hstep.inv hstep.isTail
    refine ⟨hsame.trans hsame', .cons (Eq.trans ?_ hnode) hshared hchain⟩
    exact (tailStep_buildAlphaChain cs hstep.inv hstep.isTail).ext.node_eq _ hstep.isTail.1

theorem windowBelow_attachWindow (net : QueryNetwork) (tail : ℕ) (window : Option ParsedWindow) :
    SameEntries net (net.attachWindow tail window).2 ∧
      (net.attachWindow tail window).2.WindowBelow tail window (net.attachWindow tail window).1 := by
  cases window with
  | none => exact ⟨⟨rfl, rfl⟩, rfl⟩
  | some info => exact ⟨⟨rfl, rfl⟩, createNode_self net (.window info) [tail]⟩

theorem sameEntries_findOrCreateBetaNode (net : QueryNetwork) (parents : List ℕ)
    (kind : QueryNodeKind) : SameEntries net (net.findOrCreateBetaNode parents kind).2 := by
  unfold findOrCreateBetaNode
  dsimp only
  split
  · exact ⟨rfl, rfl⟩
  · split <;> exact ⟨rfl, rfl⟩

end QueryNetwork

/-! ### The node that is built -/

open QueryNetwork

namespace ChainBuilder

variable {ctx : BuildContext} {base start : ℕ} {b : ChainBuilder} {pattern : FactPattern}

/-- The alpha tails of a pattern are its right side. -/
theorem alphaTails_rightInput (hb : b.network.Inv) (pattern : FactPattern) :
    (b.alphaTails (some pattern)).2.1 = b.joinsOf pattern ∧
      match b.rightInput pattern with
      | none => (b.alphaTails (some pattern)).1 = []
      | some input =>
        ∃ entry tail right, (b.alphaTails (some pattern)).1 = [right] ∧
          (b.alphaTails (some pattern)).2.2.entry input.source input.factType = some entry ∧
          (b.alphaTails (some pattern)).2.2.AlphaChain entry input.tests.alphas tail ∧
          (b.alphaTails (some pattern)).2.2.WindowBelow tail input.window right := by
  unfold alphaTails joinsOf rightInput
  by_cases htype : pattern.factType = ""
  · simp only [if_pos htype]
    exact ⟨rfl, trivial⟩
  · simp only [if_neg htype]
    have hentry := tailStep_entryPoint hb pattern.entryPoint pattern.factType
    have hlookup := entry_entryPoint b.network pattern.entryPoint pattern.factType
    obtain ⟨hsame, hchain⟩ := alphaChain_buildAlphaChain
      (installedTests b.inlineBindingToField pattern.constraintRoot).alphas hentry.inv hentry.isTail
    have hstep := tailStep_buildAlphaChain
      (installedTests b.inlineBindingToField pattern.constraintRoot).alphas hentry.inv hentry.isTail
    obtain ⟨hsame', hwindow⟩ := windowBelow_attachWindow _ _ pattern.windowInfo
    refine ⟨rfl, _, _, _, rfl, ?_,
      hchain.mono (tailStep_attachWindow hstep.inv hstep.isTail pattern.windowInfo).ext, hwindow⟩
    exact ((hsame.trans hsame').entry_eq _ _).trans hlookup

/-- A node whose parents are the alpha tails of a pattern and the node before it. -/
theorem hasInput_of_betaStep (hb : b.network.Inv) {kind : QueryNodeKind} {parents : List ℕ}
    {result : ℕ × QueryNetwork}
    (hparents : ∀ p, p ∈ parents ↔ p ∈ (b.alphaTails (some pattern)).1 ∨ b.lastNode = some p)
    (hstep : BetaStep (b.alphaTails (some pattern)).2.2 kind parents result)
    (hsame : SameEntries (b.alphaTails (some pattern)).2.2 result.2) :
    result.2.HasInput result.1 b.lastNode (b.rightInput pattern) := by
  obtain ⟨-, hinput⟩ := alphaTails_rightInput hb pattern
  cases hcase : b.rightInput pattern with
  | none =>
    rw [hcase] at hinput
    have hnone : (b.alphaTails (some pattern)).1 = [] := hinput
    intro p
    rw [hstep.parents, hparents, hnone]
    exact or_iff_right List.not_mem_nil
  | some input =>
    rw [hcase] at hinput
    obtain ⟨entry, tail, right, htail, hentry, hchain, hwindow⟩ := hinput
    refine ⟨entry, tail, right, (hsame.entry_eq _ _).trans hentry, hchain.mono hstep.ext,
      hwindow.mono hstep.ext, fun p ↦ ?_⟩
    rw [hstep.parents, hparents, htail, List.mem_singleton]

/-- **What is built**: a node of its kind below the node before it, with the right side of its
pattern. -/
theorem createNodeForPattern_rightInput (hb : b.Inv ctx base start) {e : ConditionElement}
    (hpattern : e.patternForAlpha = some pattern) {n : ℕ} {net : QueryNetwork}
    (h : b.createNodeForPattern ctx e = .ok (n, net)) :
    (net.kind n = b.nodeKind e pattern ∨ (net.kind n).equals (b.nodeKind e pattern) = true) ∧
      net.HasInput n b.lastNode (b.rightInput pattern) := by
  obtain ⟨hnet, hext, htails⟩ := alphaTails_spec hb.network (some pattern)
  have hjoins := (alphaTails_rightInput hb.network pattern).1
  have hmem : ∀ p, p ∈ (b.alphaTails (some pattern)).1 ++ b.lastNode.toList ↔
      p ∈ (b.alphaTails (some pattern)).1 ∨ b.lastNode = some p := by
    intro p
    rw [List.mem_append, Option.mem_toList]
  have hlt : ∀ p ∈ (b.alphaTails (some pattern)).1 ++ b.lastNode.toList,
      p < (b.alphaTails (some pattern)).2.2.nodes.length := by
    intro p hp
    rcases (hmem p).mp hp with hp | hp
    · exact (htails p hp).1
    · exact (lastNode_spec hb hp).1.trans_le hext.length_le
  -- the nodes that are looked for in the cache
  have hshared : ∀ kind, findOrCreateBetaNode (b.alphaTails (some pattern)).2.2
        ((b.alphaTails (some pattern)).1 ++ b.lastNode.toList) (.rete kind) = (n, net) →
      (net.kind n = .rete kind ∨ (net.kind n).equals (.rete kind) = true) ∧
        net.HasInput n b.lastNode (b.rightInput pattern) := by
    intro kind hresult
    have hstep := betaStep_findOrCreateBetaNode hnet
      (show QueryNodeKind.isShared (.rete kind) = true from rfl) hlt
    have hsame := sameEntries_findOrCreateBetaNode (b.alphaTails (some pattern)).2.2
      ((b.alphaTails (some pattern)).1 ++ b.lastNode.toList) (.rete kind)
    rw [hresult] at hstep hsame
    exact ⟨hstep.kind, hasInput_of_betaStep hb.network hmem hstep hsame⟩
  unfold createNodeForPattern at h
  simp only [hpattern, hjoins] at h
  unfold ConditionElement.patternForAlpha at hpattern
  unfold nodeKind
  cases hkind : e.kind with
  | standard entryPoint windowInfo =>
    rw [hkind] at h
    exact hshared _ (Except.ok.inj h)
  | not nested =>
    rw [hkind] at h
    exact hshared _ (Except.ok.inj h)
  | «exists» nested =>
    rw [hkind] at h
    exact hshared _ (Except.ok.inj h)
  | accumulate source =>
    simp only [hkind] at h
    split at h
    · have hresult := Except.ok.inj h
      have hstep := betaStep_createRootedNode
        (.accumulate source e.factType b.bindingToIdx (b.joinsOf pattern)) hb hnet hext htails
      have hsame : SameEntries (b.alphaTails (some pattern)).2.2
          (b.createRootedNode (b.alphaTails (some pattern)).2.2
            (.accumulate source e.factType b.bindingToIdx (b.joinsOf pattern))
            (b.lastNode.toList ++ (b.alphaTails (some pattern)).1)).2 := by
        unfold createRootedNode
        dsimp only
        split <;> exact ⟨rfl, rfl⟩
      rw [hresult] at hstep hsame
      refine ⟨hstep.kind, hasInput_of_betaStep hb.network (fun p ↦ ?_) hstep hsame⟩
      rw [List.mem_append, or_comm, Option.mem_toList]
    · cases h
  | _ =>
    rw [hkind] at hpattern
    cases hpattern

/-- The node of an accumulate pattern is the same whatever the constraints on its result are. -/
theorem createNodeForPattern_accumulate (b : ChainBuilder) (ctx : BuildContext)
    {e : ConditionElement} {source : AccumulateSource} (h : e.kind = .accumulate source)
    (root : Option ConstraintNode) :
    b.createNodeForPattern ctx { e with constraintRoot := root } =
      b.createNodeForPattern ctx e := by
  unfold createNodeForPattern ConditionElement.patternForAlpha
  simp only [h]

end ChainBuilder

end RulesForge
