import RulesForge.Rete.NetworkInvariant
import RulesForge.Rete.QueryNetwork

/-!
# The shape of the network of rules and queries

What the builder guarantees about the edges into a node: all of them are made when the node is
created, so the node of a pattern gets its tokens **from the node of the pattern before it and from
nowhere else** (`PlacedAt.fed`), whoever shares it. The only edge made later is that of a query's
input node, to the first node of the chain.
-/

namespace RulesForge

/-- The kinds of node that the beta cache holds. -/
def QueryNodeKind.isShared : QueryNodeKind → Bool
  | .rete _ | .eval .. => true
  | _ => false

namespace QueryNetwork

variable {net net' net'' : QueryNetwork} {n : ℕ} {kind : QueryNodeKind} {parents : List ℕ}

/-! ### Growth -/

/-- A network that has grown: what was there is as it was. -/
structure Extends (net net' : QueryNetwork) : Prop where
  length_le : net.nodes.length ≤ net'.nodes.length
  node_eq : ∀ n < net.nodes.length, net'.node n = net.node n
  roots : ∀ n < net.nodes.length, n ∈ net'.betaRootNodes → n ∈ net.betaRootNodes

namespace Extends

theorem refl (net : QueryNetwork) : Extends net net :=
  ⟨le_rfl, fun _ _ ↦ rfl, fun _ _ h ↦ h⟩

theorem trans (h : Extends net net') (h' : Extends net' net'') : Extends net net'' where
  length_le := h.length_le.trans h'.length_le
  node_eq n hn := (h'.node_eq n (hn.trans_le h.length_le)).trans (h.node_eq n hn)
  roots n hn hroot := h.roots n hn (h'.roots n (hn.trans_le h.length_le) hroot)

theorem kind_eq (h : Extends net net') (hn : n < net.nodes.length) : net'.kind n = net.kind n :=
  congrArg QueryNode.kind (h.node_eq n hn)

theorem parents_eq (h : Extends net net') (hn : n < net.nodes.length) :
    net'.parents n = net.parents n :=
  congrArg QueryNode.parents (h.node_eq n hn)

end Extends

/-- An entry point, alpha node or window: it is there, and hands on facts, not tokens. -/
def IsTail (net : QueryNetwork) (n : ℕ) : Prop :=
  n < net.nodes.length ∧ (net.kind n).isBetaNode = false

/-- What the builder relies on: edges go to nodes, roots have no left parent, and the caches and
entry points hold nodes of the kinds they are asked for. -/
structure Inv (net : QueryNetwork) : Prop where
  parents_lt : ∀ n, ∀ p ∈ net.parents n, p < net.nodes.length
  roots : ∀ n ∈ net.betaRootNodes,
    n < net.nodes.length ∧ ∀ p ∈ net.parents n, (net.kind p).isBetaNode = false
  alphas : ∀ entry ∈ net.alphaCache, net.IsTail entry.2.2 ∧
    net.node entry.2.2 = ⟨.rete (.alpha entry.2.1), [entry.1]⟩
  entries : ∀ factType n, net.alphaEntryPoints.lookup factType = some n → net.IsTail n
  named : ∀ name types, net.namedEntryPoints.lookup name = some types →
    ∀ factType n, types.lookup factType = some n → net.IsTail n
  betas : ∀ entry ∈ net.betaCache, entry.2.2 < net.nodes.length ∧
    net.kind entry.2.2 = entry.1 ∧ entry.1.isShared = true ∧
    ∀ p, p ∈ net.parents entry.2.2 ↔ p ∈ entry.2.1

theorem IsTail.mono (h : Extends net net') (hn : net.IsTail n) : net'.IsTail n :=
  ⟨hn.1.trans_le h.length_le, by rw [h.kind_eq hn.1]; exact hn.2⟩

theorem inv_empty : Inv ({} : QueryNetwork) where
  parents_lt n p hp := by simp [QueryNetwork.parents, node] at hp
  roots n hn := by simp at hn
  alphas entry hentry := by simp at hentry
  entries factType n h := by simp at h
  named name types h := by simp at h
  betas entry hentry := by simp at hentry

/-! ### Creating a node -/

theorem node_of_le (h : net.nodes.length ≤ n) : net.node n = { kind := .rete .entryPoint } := by
  simp [node, List.getElem?_eq_none h]

theorem lt_of_mem_parents {p : ℕ} (h : p ∈ net.parents n) : n < net.nodes.length := by
  by_contra hle
  rw [QueryNetwork.parents, node_of_le (not_lt.mp hle)] at h
  simp at h

theorem createNode_self (net : QueryNetwork) (kind : QueryNodeKind) (parents : List ℕ) :
    (net.createNode kind parents).2.node net.nodes.length = ⟨kind, parents⟩ := by
  simp [node, createNode]

theorem createNode_length (net : QueryNetwork) (kind : QueryNodeKind) (parents : List ℕ) :
    (net.createNode kind parents).2.nodes.length = net.nodes.length + 1 := by
  simp [createNode]

theorem extends_createNode (net : QueryNetwork) (kind : QueryNodeKind) (parents : List ℕ) :
    Extends net (net.createNode kind parents).2 where
  length_le := by rw [createNode_length]; omega
  node_eq n hn := by simp [node, createNode, List.getElem?_append_left hn]
  roots _ _ h := h

/-- A new node does not disturb what holds of the old ones. -/
theorem Inv.createNode (hnet : net.Inv) (kind : QueryNodeKind)
    (hparents : ∀ p ∈ parents, p < net.nodes.length) : (net.createNode kind parents).2.Inv := by
  have hext := extends_createNode net kind parents
  constructor
  · intro n p hp
    have hlength := createNode_length net kind parents
    rcases lt_trichotomy n net.nodes.length with hn | rfl | hn
    · rw [hext.parents_eq hn] at hp
      exact (hnet.parents_lt n p hp).trans_le hext.length_le
    · rw [QueryNetwork.parents, createNode_self] at hp
      exact (hparents p hp).trans_le hext.length_le
    · have := lt_of_mem_parents hp
      omega
  · intro n hn
    obtain ⟨hlt, hbeta⟩ := hnet.roots n hn
    refine ⟨hlt.trans_le hext.length_le, fun p hp ↦ ?_⟩
    rw [hext.parents_eq hlt] at hp
    rw [hext.kind_eq (hnet.parents_lt n p hp)]
    exact hbeta p hp
  · intro entry hentry
    obtain ⟨htail, hnode⟩ := hnet.alphas entry hentry
    exact ⟨htail.mono hext, (hext.node_eq _ htail.1).trans hnode⟩
  · exact fun factType n h ↦ (hnet.entries factType n h).mono hext
  · exact fun name types h factType n h' ↦ (hnet.named name types h factType n h').mono hext
  · intro entry hentry
    obtain ⟨hlt, hkind, hshared, hparents⟩ := hnet.betas entry hentry
    refine ⟨hlt.trans_le hext.length_le, ?_, hshared, ?_⟩
    · rw [hext.kind_eq hlt, hkind]
    · intro p
      rw [hext.parents_eq hlt]
      exact hparents p

/-- `addRoot` of a new node without a left parent. -/
theorem Inv.addRoot (hnet : net.Inv) (hn : n < net.nodes.length)
    (hbeta : ∀ p ∈ net.parents n, (net.kind p).isBetaNode = false) : (net.addRoot n).Inv where
  parents_lt := hnet.parents_lt
  roots m hm := by
    rcases List.mem_append.mp hm with hm | hm
    · exact hnet.roots m hm
    · rw [List.mem_singleton.mp hm]
      exact ⟨hn, hbeta⟩
  alphas := hnet.alphas
  entries := hnet.entries
  named := hnet.named
  betas := hnet.betas

theorem extends_addRoot (h : Extends net net') (hn : net.nodes.length ≤ n) :
    Extends net (net'.addRoot n) where
  length_le := h.length_le
  node_eq := h.node_eq
  roots m hm hroot := by
    rcases List.mem_append.mp hroot with hroot | hroot
    · exact h.roots m hm hroot
    · rw [List.mem_singleton.mp hroot] at hm
      omega

/-! ### Alpha tails -/

/-- A step of the builder towards the alpha tail of a pattern. -/
structure TailStep (net : QueryNetwork) (result : ℕ × QueryNetwork) : Prop where
  inv : result.2.Inv
  ext : Extends net result.2
  isTail : result.2.IsTail result.1

theorem TailStep.trans {r r' : ℕ × QueryNetwork} (h : TailStep net r) (h' : TailStep r.2 r') :
    TailStep net r' :=
  ⟨h'.inv, h.ext.trans h'.ext, h'.isTail⟩

theorem tailStep_createNode (hnet : net.Inv) (kind : QueryNodeKind) (parents : List ℕ)
    (hkind : kind.isBetaNode = false) (hparents : ∀ p ∈ parents, p < net.nodes.length) :
    TailStep net (net.createNode kind parents) where
  inv := hnet.createNode kind hparents
  ext := extends_createNode net kind parents
  isTail := by
    refine ⟨by rw [createNode_length]; exact Nat.lt_succ_self _, ?_⟩
    show ((net.createNode kind parents).2.node net.nodes.length).kind.isBetaNode = false
    rw [createNode_self]
    exact hkind

theorem tailStep_entryPoint (hnet : net.Inv) (source : Option String) (factType : String) :
    TailStep net (net.entryPoint source factType) := by
  have hnew := tailStep_createNode hnet (.rete .entryPoint) [] rfl (by simp)
  unfold entryPoint
  cases source.filter (· ≠ "") with
  | none =>
    cases hlookup : net.alphaEntryPoints.lookup factType with
    | some n => exact ⟨hnet, .refl net, hnet.entries _ _ hlookup⟩
    | none =>
      refine ⟨?_, ⟨hnew.ext.length_le, hnew.ext.node_eq, hnew.ext.roots⟩, hnew.isTail⟩
      refine ⟨hnew.inv.parents_lt, hnew.inv.roots, hnew.inv.alphas, ?_, hnew.inv.named,
        hnew.inv.betas⟩
      intro type n h
      change (SortedMap.insert factType net.nodes.length net.alphaEntryPoints).lookup type = _ at h
      rw [SortedMap.lookup_insert] at h
      split at h
      · cases h
        exact hnew.isTail
      · exact hnew.inv.entries type n h
  | some name =>
    cases hlookup : ((net.namedEntryPoints.lookup name).getD []).lookup factType with
    | some n =>
      simp only [hlookup]
      cases hname : net.namedEntryPoints.lookup name with
      | none => simp [hname] at hlookup
      | some types =>
        simp only [hname, Option.getD_some] at hlookup
        exact ⟨hnet, .refl net, hnet.named _ _ hname _ _ hlookup⟩
    | none =>
      simp only [hlookup]
      refine ⟨?_, ⟨hnew.ext.length_le, hnew.ext.node_eq, hnew.ext.roots⟩, hnew.isTail⟩
      refine ⟨hnew.inv.parents_lt, hnew.inv.roots, hnew.inv.alphas, hnew.inv.entries, ?_,
        hnew.inv.betas⟩
      intro other types h type n hn
      change (SortedMap.insert name _ net.namedEntryPoints).lookup other = _ at h
      rw [SortedMap.lookup_insert] at h
      split at h
      · cases h
        rw [SortedMap.lookup_insert] at hn
        split at hn
        · cases hn
          exact hnew.isTail
        · cases hname : net.namedEntryPoints.lookup name with
          | none => simp [hname] at hn
          | some types =>
            simp only [hname, Option.getD_some] at hn
            exact hnew.inv.named _ _ hname _ _ hn
      · exact hnew.inv.named other types h type n hn

theorem tailStep_findOrCreateAlpha (hnet : net.Inv) {tail : ℕ} (htail : net.IsTail tail)
    (c : ParsedConstraint) : TailStep net (net.findOrCreateAlpha tail c) := by
  unfold findOrCreateAlpha
  split
  · next entry hfind =>
    exact ⟨hnet, .refl net, (hnet.alphas _ (List.mem_of_find?_eq_some hfind)).1⟩
  · have hnew := tailStep_createNode hnet (.rete (.alpha c)) [tail] rfl (by simpa using htail.1)
    refine ⟨?_, ⟨hnew.ext.length_le, hnew.ext.node_eq, hnew.ext.roots⟩, hnew.isTail⟩
    refine ⟨hnew.inv.parents_lt, hnew.inv.roots, ?_, hnew.inv.entries, hnew.inv.named,
      hnew.inv.betas⟩
    intro entry hentry
    rcases List.mem_append.mp hentry with hentry | hentry
    · exact hnew.inv.alphas entry hentry
    · rw [List.mem_singleton.mp hentry]
      exact ⟨hnew.isTail, createNode_self net (.rete (.alpha c)) [tail]⟩

theorem tailStep_buildAlphaChain (cs : List ParsedConstraint) (hnet : net.Inv) {tail : ℕ}
    (htail : net.IsTail tail) : TailStep net (net.buildAlphaChain tail cs) := by
  induction cs generalizing net tail with
  | nil => exact ⟨hnet, .refl net, htail⟩
  | cons c cs ih =>
    have hstep := tailStep_findOrCreateAlpha hnet htail c
    exact hstep.trans (ih hstep.inv hstep.isTail)

theorem tailStep_attachWindow (hnet : net.Inv) {tail : ℕ} (htail : net.IsTail tail)
    (info : Option ParsedWindow) : TailStep net (net.attachWindow tail info) := by
  cases info with
  | none => exact ⟨hnet, .refl net, htail⟩
  | some info => exact tailStep_createNode hnet (.window info) [tail] rfl (by simpa using htail.1)

/-! ### Beta nodes -/

/-- What the builder gets back when it asks for a node: it is new, or it was built with the same key
and has the same parents. -/
structure BetaStep (net : QueryNetwork) (kind : QueryNodeKind) (parents : List ℕ)
    (result : ℕ × QueryNetwork) : Prop where
  inv : result.2.Inv
  ext : Extends net result.2
  lt : result.1 < result.2.nodes.length
  kind : result.2.kind result.1 = kind ∨ (result.2.kind result.1).equals kind = true
  parents : ∀ p, p ∈ result.2.parents result.1 ↔ p ∈ parents

theorem betaStep_createNode (hnet : net.Inv) (kind : QueryNodeKind)
    (hparents : ∀ p ∈ parents, p < net.nodes.length) :
    BetaStep net kind parents (net.createNode kind parents) where
  inv := hnet.createNode kind hparents
  ext := extends_createNode net kind parents
  lt := by rw [createNode_length]; exact Nat.lt_succ_self _
  kind := .inl (congrArg QueryNode.kind (createNode_self net kind parents))
  parents p := by
    show p ∈ ((net.createNode kind parents).2.node net.nodes.length).parents ↔ _
    rw [createNode_self]

/-- A new root has no left parent. -/
theorem BetaStep.addRoot (h : BetaStep net kind parents (n, net')) (hn : net.nodes.length ≤ n)
    (hbeta : ∀ p ∈ parents, (net'.kind p).isBetaNode = false) :
    BetaStep net kind parents (n, net'.addRoot n) where
  inv := h.inv.addRoot h.lt fun p hp ↦ hbeta p ((h.parents p).mp hp)
  ext := extends_addRoot h.ext hn
  lt := h.lt
  kind := h.kind
  parents := h.parents

theorem betaStep_findOrCreateBetaNode (hnet : net.Inv) (hshared : kind.isShared = true)
    (hparents : ∀ p ∈ parents, p < net.nodes.length) :
    BetaStep net kind parents (net.findOrCreateBetaNode parents kind) := by
  unfold findOrCreateBetaNode
  simp only
  split
  · next entry hfind =>
    have hmatch := List.find?_some hfind
    simp only [Bool.and_eq_true, decide_eq_true_eq] at hmatch
    obtain ⟨hlt, hkind, -, hsame⟩ := hnet.betas entry (List.mem_of_find?_eq_some hfind)
    refine ⟨hnet, .refl net, hlt, .inr (by rw [hkind]; exact hmatch.1), fun p ↦ ?_⟩
    rw [hsame, hmatch.2, List.mem_insertionSort]
  · have hnew := betaStep_createNode hnet kind hparents
    have hcached : BetaStep net kind parents (net.nodes.length,
        { (net.createNode kind parents).2 with
          betaCache := net.betaCache ++ [(kind, parents.insertionSort (· ≤ ·),
            net.nodes.length)] }) := by
      refine ⟨⟨hnew.inv.parents_lt, hnew.inv.roots, hnew.inv.alphas, hnew.inv.entries,
        hnew.inv.named, ?_⟩, ⟨hnew.ext.length_le, hnew.ext.node_eq, hnew.ext.roots⟩, hnew.lt,
        hnew.kind, hnew.parents⟩
      intro entry hentry
      rcases List.mem_append.mp hentry with hentry | hentry
      · exact hnew.inv.betas entry hentry
      · rw [List.mem_singleton.mp hentry]
        refine ⟨hnew.lt, congrArg QueryNode.kind (createNode_self net kind parents), hshared, ?_⟩
        intro p
        rw [List.mem_insertionSort]
        exact hnew.parents p
    by_cases hany : parents.any fun p ↦ (net.kind p).isBetaNode
    · rw [if_pos hany]
      exact hcached
    · rw [if_neg hany]
      refine hcached.addRoot le_rfl fun p hp ↦ ?_
      simp only [List.any_eq_true, not_exists, not_and, Bool.not_eq_true] at hany
      exact (congrArg _ (hnew.ext.kind_eq (hparents p hp))).trans (hany p hp)

end QueryNetwork

open QueryNetwork

/-! ### Nodes and patterns -/

/-- The names of the outputs of a query call; other patterns have none. -/
def ConditionElement.outputs (ctx : BuildContext) (e : ConditionElement) : List String :=
  match e.kind with
  | .queryCall call => ctx.outputBindings call
  | _ => []

/-- The number of facts that a pattern adds to a token. -/
def ConditionElement.width (ctx : BuildContext) (e : ConditionElement) : ℕ :=
  if e.addsFactToToken then 1 else (e.outputs ctx).length

def patternsWidth (ctx : BuildContext) (es : List ConditionElement) : ℕ :=
  (es.map (·.width ctx)).sum

def NodeKind.isCondition : NodeKind → Bool
  | condition _ _ => true
  | _ => false

/-- Nodes with equal keys are of the same sort. -/
theorem NodeKind.sort_of_equals {a b : NodeKind} (h : a.equals b = true) :
    a.isJoin = b.isJoin ∧ a.isCondition = b.isCondition := by
  cases a <;> cases b <;> first | exact ⟨rfl, rfl⟩ | simp [NodeKind.equals] at h

/-- The kind of node that a pattern is built as. -/
def ConditionElement.Fits (ctx : BuildContext) (e : ConditionElement) (kind : QueryNodeKind) :
    Prop :=
  match e.kind, kind with
  | .standard .., .rete k | .forall, .rete k => k.isJoin = true
  | .not _, .rete k | .exists _, .rete k => k.isCondition = true
  | .accumulate _, .accumulate .. | .unnest _, .unnest .. | .eval _, .eval .. => True
  | .queryCall call, .queryCall _ _ outputs => outputs = ctx.outputBindings call
  | _, _ => False

namespace ConditionElement

variable {ctx : BuildContext} {e : ConditionElement} {kind kind' : QueryNodeKind}

theorem Fits.isBetaNode (h : e.Fits ctx kind) : kind.isBetaNode = true := by
  unfold Fits at h
  split at h
  all_goals first | rfl | exact h.elim | skip
  all_goals
    rename_i k _
    cases k <;> first | rfl | simp [NodeKind.isJoin, NodeKind.isCondition] at h

theorem Fits.of_equals (h : e.Fits ctx kind') (hkind : kind = kind' ∨ kind.equals kind' = true) :
    e.Fits ctx kind := by
  rcases hkind with rfl | hkind
  · exact h
  unfold Fits at h ⊢
  cases kind <;> cases kind' <;> simp only [QueryNodeKind.equals, Bool.false_eq_true] at hkind
  case rete a b =>
    obtain ⟨hjoin, hcondition⟩ := NodeKind.sort_of_equals hkind
    cases hk : e.kind <;> simp_all
  case eval => cases hk : e.kind <;> simp_all

end ConditionElement

/-! ### The node of a pattern -/

/-- What is known of the node of the `i`-th pattern of a chain: its tokens come from the node before
it, it is a root only when it is the first, and its depth counts the facts of the patterns before
it. The nodes from `base` on are those built for this chain. -/
structure PlacedAt (ctx : BuildContext) (base start : ℕ) (net : QueryNetwork)
    (placed : List Placement) (i : ℕ) (P : Placement) : Prop where
  lt : P.node < net.nodes.length
  fits : P.element.Fits ctx (net.kind P.node)
  fed : ∀ p ∈ net.parents P.node, (net.kind p).isBetaNode = true →
    ∃ j Q, i = j + 1 ∧ placed[j]? = some Q ∧ Q.node = p
  linked : ∀ j Q, i = j + 1 → placed[j]? = some Q → Q.node ∈ net.parents P.node
  root : P.node ∈ net.betaRootNodes → i = 0
  fresh : ∀ source, P.element.kind = .unnest source →
    base ≤ P.node ∧ P.node ∉ net.betaRootNodes
  rightless : P.element.kind = .forall →
    ∀ p ∈ net.parents P.node, (net.kind p).isBetaNode = true
  depth : P.depth = start + patternsWidth ctx ((placed.map (·.element)).take i)

section Placed

variable {ctx : BuildContext} {base start : ℕ} {net net' : QueryNetwork}
  {placed : List Placement} {i : ℕ} {P : Placement}

theorem PlacedAt.mono (h : PlacedAt ctx base start net placed i P) (hnet : net.Inv)
    (hext : Extends net net') : PlacedAt ctx base start net' placed i P := by
  have hparents := hext.parents_eq h.lt
  have hkind {p : ℕ} (hp : p ∈ net'.parents P.node) : net'.kind p = net.kind p :=
    hext.kind_eq (hnet.parents_lt P.node p (hparents ▸ hp))
  refine ⟨h.lt.trans_le hext.length_le, ?_, ?_, ?_, ?_, ?_, ?_, h.depth⟩
  · rw [hext.kind_eq h.lt]
    exact h.fits
  · intro p hp hbeta
    rw [hkind hp] at hbeta
    exact h.fed p (hparents ▸ hp) hbeta
  · intro j Q hj hQ
    rw [hparents]
    exact h.linked j Q hj hQ
  · exact fun hroot ↦ h.root (hext.roots _ h.lt hroot)
  · intro source hsource
    obtain ⟨hbase, hroot⟩ := h.fresh source hsource
    exact ⟨hbase, fun h' ↦ hroot (hext.roots _ h.lt h')⟩
  · intro hforall p hp
    rw [hkind hp]
    exact h.rightless hforall p (hparents ▸ hp)

/-- The patterns that follow do not matter. -/
theorem PlacedAt.append (h : PlacedAt ctx base start net placed i P) (hi : i < placed.length)
    (rest : List Placement) : PlacedAt ctx base start net (placed ++ rest) i P := by
  refine ⟨h.lt, h.fits, ?_, ?_, h.root, h.fresh, h.rightless, ?_⟩
  · intro p hp hbeta
    obtain ⟨j, Q, hj, hQ, hnode⟩ := h.fed p hp hbeta
    exact ⟨j, Q, hj, by rw [List.getElem?_append_left (by omega)]; exact hQ, hnode⟩
  · intro j Q hj hQ
    rw [List.getElem?_append_left (by omega)] at hQ
    exact h.linked j Q hj hQ
  · rw [List.map_append, List.take_append_of_le_length (by simpa using hi.le)]
    exact h.depth

end Placed

/-- What holds between two patterns of `build`. -/
structure ChainBuilder.Inv (ctx : BuildContext) (base start : ℕ) (b : ChainBuilder) : Prop where
  network : b.network.Inv
  base_le : base ≤ b.network.nodes.length
  placed : ∀ i P, b.placed[i]? = some P → PlacedAt ctx base start b.network b.placed i P
  depth : b.patternDepth = start + patternsWidth ctx (b.placed.map (·.element))

namespace ChainBuilder

variable {ctx : BuildContext} {base start : ℕ} {b b' : ChainBuilder} {e : ConditionElement}

/-- The result of `create_node_for_pattern`. -/
structure NodeStep (ctx : BuildContext) (b : ChainBuilder) (e : ConditionElement)
    (result : ℕ × QueryNetwork) : Prop where
  inv : result.2.Inv
  ext : Extends b.network result.2
  lt : result.1 < result.2.nodes.length
  fits : e.Fits ctx (result.2.kind result.1)
  fed : ∀ p ∈ result.2.parents result.1, (result.2.kind p).isBetaNode = true →
    b.lastNode = some p
  linked : ∀ p, b.lastNode = some p → p ∈ result.2.parents result.1
  fresh : ∀ source, e.kind = .unnest source →
    b.network.nodes.length ≤ result.1 ∧ result.1 ∉ result.2.betaRootNodes
  rightless : e.kind = .forall →
    ∀ p ∈ result.2.parents result.1, (result.2.kind p).isBetaNode = true

theorem lastNode_spec (hb : b.Inv ctx base start) {l : ℕ} (hl : b.lastNode = some l) :
    l < b.network.nodes.length ∧ (b.network.kind l).isBetaNode = true := by
  obtain ⟨P, hP, rfl⟩ := Option.map_eq_some_iff.mp hl
  rw [List.getLast?_eq_getElem?] at hP
  have hplaced := hb.placed _ P hP
  exact ⟨hplaced.lt, hplaced.fits.isBetaNode⟩

theorem alphaTails_spec (hb : b.network.Inv) (pattern : Option FactPattern) :
    (b.alphaTails pattern).2.2.Inv ∧ Extends b.network (b.alphaTails pattern).2.2 ∧
      ∀ t ∈ (b.alphaTails pattern).1, (b.alphaTails pattern).2.2.IsTail t := by
  unfold alphaTails
  split
  · exact ⟨hb, .refl _, by simp⟩
  · next pattern =>
    split
    · exact ⟨hb, .refl _, by simp⟩
    · have hentry := tailStep_entryPoint hb pattern.entryPoint pattern.factType
      have hchain := hentry.trans (tailStep_buildAlphaChain
        (installedTests b.inlineBindingToField pattern.constraintRoot).alphas hentry.inv hentry.isTail)
      have htail := hchain.trans
        (tailStep_attachWindow hchain.inv hchain.isTail pattern.windowInfo)
      exact ⟨htail.inv, htail.ext, by simpa using htail.isTail⟩

theorem isJoin_standardKind (hasLast : Bool) (condition : JoinCondition) :
    (BetaNetworkBuilder.standardKind hasLast condition).isJoin = true := by
  unfold BetaNetworkBuilder.standardKind
  split <;> rfl

/-- A node below the alpha tails of its pattern and the last node of the chain. -/
theorem NodeStep.of_betaStep {mid : QueryNetwork} {tails parents : List ℕ} {kind : QueryNodeKind}
    {result : ℕ × QueryNetwork} (hb : b.Inv ctx base start) (hext : Extends b.network mid)
    (htails : ∀ t ∈ tails, mid.IsTail t)
    (hparents : ∀ p, p ∈ parents ↔ p ∈ tails ∨ b.lastNode = some p)
    (hstep : BetaStep mid kind parents result) (hfits : e.Fits ctx kind)
    (hfresh : ∀ source, e.kind = .unnest source →
      b.network.nodes.length ≤ result.1 ∧ result.1 ∉ result.2.betaRootNodes)
    (hforall : e.kind = .forall → tails = []) : NodeStep ctx b e result := by
  have hlast {p : ℕ} (hp : b.lastNode = some p) : (result.2.kind p).isBetaNode = true := by
    obtain ⟨hlt, hbeta⟩ := lastNode_spec hb hp
    rw [(hext.trans hstep.ext).kind_eq hlt]
    exact hbeta
  refine ⟨hstep.inv, hext.trans hstep.ext, hstep.lt, hfits.of_equals hstep.kind, ?_, ?_, hfresh, ?_⟩
  · intro p hp hbeta
    rcases (hparents p).mp ((hstep.parents p).mp hp) with htail | hlast
    · obtain ⟨hlt, hkind⟩ := htails p htail
      rw [hstep.ext.kind_eq hlt, hkind] at hbeta
      cases hbeta
    · exact hlast
  · exact fun p hp ↦ (hstep.parents p).mpr ((hparents p).mpr (.inr hp))
  · intro h p hp
    rcases (hparents p).mp ((hstep.parents p).mp hp) with htail | hp
    · simp [hforall h] at htail
    · exact hlast hp

/-- A node that is never shared: it is a root when the chain begins with it. -/
theorem betaStep_createRootedNode {net : QueryNetwork} (kind : QueryNodeKind) {tails : List ℕ}
    (hb : b.Inv ctx base start) (hnet : net.Inv) (hext : Extends b.network net)
    (htails : ∀ t ∈ tails, net.IsTail t) :
    BetaStep net kind (b.lastNode.toList ++ tails)
      (b.createRootedNode net kind (b.lastNode.toList ++ tails)) := by
  have hparents : ∀ p ∈ b.lastNode.toList ++ tails, p < net.nodes.length := by
    intro p hp
    rcases List.mem_append.mp hp with hp | hp
    · exact (lastNode_spec hb (Option.mem_toList.mp hp)).1.trans_le hext.length_le
    · exact (htails p hp).1
  have hnew := betaStep_createNode hnet kind hparents
  unfold createRootedNode
  cases hlast : b.lastNode with
  | some l =>
    rw [hlast] at hnew
    exact hnew
  | none =>
    rw [hlast] at hnew
    refine hnew.addRoot le_rfl fun p hp ↦ ?_
    obtain ⟨hlt, hkind⟩ := htails p (by simpa using hp)
    exact (congrArg _ (hnew.ext.kind_eq hlt)).trans hkind

theorem nodeStep_createNodeForPattern (hb : b.Inv ctx base start) {result : ℕ × QueryNetwork}
    (h : b.createNodeForPattern ctx e = .ok result) : NodeStep ctx b e result := by
  obtain ⟨hnet, hext, htails⟩ := alphaTails_spec hb.network e.patternForAlpha
  have hparents (p : ℕ) : p ∈ (b.alphaTails e.patternForAlpha).1 ++ b.lastNode.toList ↔
      p ∈ (b.alphaTails e.patternForAlpha).1 ∨ b.lastNode = some p := by
    simp
  have hlast (p : ℕ) (hp : p ∈ b.lastNode.toList) : p < b.network.nodes.length :=
    (lastNode_spec hb (Option.mem_toList.mp hp)).1
  have hlt (p : ℕ) (hp : p ∈ (b.alphaTails e.patternForAlpha).1 ++ b.lastNode.toList) :
      p < (b.alphaTails e.patternForAlpha).2.2.nodes.length := by
    rcases List.mem_append.mp hp with hp | hp
    · exact (htails p hp).1
    · exact (hlast p hp).trans_le hext.length_le
  have hnone : ∀ t ∈ ([] : List ℕ), b.network.IsTail t := by simp
  have hlast_iff (p : ℕ) : p ∈ b.lastNode.toList ↔ p ∈ ([] : List ℕ) ∨ b.lastNode = some p := by
    simp
  unfold createNodeForPattern at h
  cases hkind : e.kind with
  | eval expression =>
    simp only [hkind] at h
    cases h
    refine .of_betaStep hb (.refl _) hnone hlast_iff
      (betaStep_findOrCreateBetaNode hb.network rfl hlast) ?_ ?_ ?_
    · simp [ConditionElement.Fits, hkind]
    · simp [hkind]
    · simp
  | queryCall call =>
    simp only [hkind] at h
    cases h
    have hstep := betaStep_createRootedNode
      (.queryCall call b.bindingToIdx (ctx.outputBindings call)) hb hb.network (.refl _) hnone
    rw [List.append_nil] at hstep
    refine .of_betaStep hb (.refl _) hnone hlast_iff hstep ?_ ?_ ?_
    · simp [ConditionElement.Fits, hkind]
    · simp [hkind]
    · simp
  | unnest source =>
    simp only [hkind] at h
    cases h
    refine .of_betaStep hb (.refl _) hnone hlast_iff
      (betaStep_createNode hb.network _ hlast) ?_ ?_ ?_
    · simp [ConditionElement.Fits, hkind]
    · refine fun _ _ ↦ ⟨le_rfl, fun hroot ↦ ?_⟩
      exact absurd (hb.network.roots _ hroot).1 (lt_irrefl _)
    · simp
  | accumulate source =>
    simp only [hkind] at h
    split at h
    · cases h
      refine .of_betaStep hb hext htails (fun p ↦ ?_)
        (betaStep_createRootedNode _ hb hnet hext htails) ?_ ?_ ?_
      · rw [List.mem_append, Option.mem_toList, or_comm]
      · simp [ConditionElement.Fits, hkind]
      · simp [hkind]
      · simp [hkind]
    · cases h
  | not nested =>
    simp only [hkind] at h
    cases h
    refine .of_betaStep hb hext htails hparents
      (betaStep_findOrCreateBetaNode hnet rfl hlt) ?_ ?_ ?_
    · simp [ConditionElement.Fits, hkind, NodeKind.isCondition]
    · simp [hkind]
    · simp [hkind]
  | «exists» nested =>
    simp only [hkind] at h
    cases h
    refine .of_betaStep hb hext htails hparents
      (betaStep_findOrCreateBetaNode hnet rfl hlt) ?_ ?_ ?_
    · simp [ConditionElement.Fits, hkind, NodeKind.isCondition]
    · simp [hkind]
    · simp [hkind]
  | standard entryPoint windowInfo =>
    simp only [hkind] at h
    cases h
    refine .of_betaStep hb hext htails hparents
      (betaStep_findOrCreateBetaNode hnet rfl hlt) ?_ ?_ ?_
    · simp [ConditionElement.Fits, hkind, isJoin_standardKind]
    · simp [hkind]
    · simp [hkind]
  | «forall» =>
    simp only [hkind] at h
    cases h
    refine .of_betaStep hb hext htails hparents
      (betaStep_findOrCreateBetaNode hnet rfl hlt) ?_ ?_ ?_
    · simp [ConditionElement.Fits, hkind, isJoin_standardKind]
    · simp [hkind]
    · simp [ConditionElement.patternForAlpha, hkind, alphaTails]

/-! ### The loop -/

/-- Two builders that differ only in what is bound. -/
structure SameNodes (b b' : ChainBuilder) : Prop where
  network : b'.network = b.network
  placed : b'.placed = b.placed
  depth : b'.patternDepth = b.patternDepth

theorem SameNodes.inv (h : SameNodes b b') (hb : b.Inv ctx base start) : b'.Inv ctx base start := by
  obtain ⟨hnetwork, hplaced, hdepth⟩ := h
  constructor
  · rw [hnetwork]; exact hb.network
  · rw [hnetwork]; exact hb.base_le
  · rw [hnetwork, hplaced]; exact hb.placed
  · rw [hdepth, hplaced]; exact hb.depth

theorem SameNodes.trans {b'' : ChainBuilder} (h : SameNodes b b') (h' : SameNodes b' b'') :
    SameNodes b b'' :=
  ⟨h'.network.trans h.network, h'.placed.trans h.placed, h'.depth.trans h.depth⟩

theorem sameNodes_collectInlineBindings (b : ChainBuilder) (leaves : List ParsedConstraint) :
    SameNodes b (b.collectInlineBindings leaves) := by
  unfold collectInlineBindings
  induction leaves generalizing b with
  | nil => exact ⟨rfl, rfl, rfl⟩
  | cons c leaves ih =>
    rw [List.foldl_cons]
    cases c.fieldBinding with
    | none => exact ih b
    | some name =>
      refine SameNodes.trans ⟨?_, ?_, ?_⟩ (ih _) <;> rfl

theorem sameNodes_bindPattern (b : ChainBuilder) (e : ConditionElement) :
    SameNodes b (b.bindPattern e) := by
  unfold bindPattern
  refine SameNodes.trans ?_ (sameNodes_collectInlineBindings _ _)
  split
  · exact ⟨rfl, rfl, rfl⟩
  · exact ⟨rfl, rfl, rfl⟩

/-- The depth after a pattern. -/
theorem advance_spec (b : ChainBuilder) (ctx : BuildContext) (e : ConditionElement) :
    (b.advance ctx e).network = b.network ∧ (b.advance ctx e).placed = b.placed ∧
      (b.advance ctx e).patternDepth = b.patternDepth + e.width ctx := by
  have hproject (outputs : List String) (b : ChainBuilder) :
      (b.projectOutputs outputs).network = b.network ∧
        (b.projectOutputs outputs).placed = b.placed ∧
        (b.projectOutputs outputs).patternDepth = b.patternDepth + outputs.length := by
    unfold projectOutputs
    induction outputs generalizing b with
    | nil => exact ⟨rfl, rfl, rfl⟩
    | cons name outputs ih =>
      rw [List.foldl_cons]
      obtain ⟨hnetwork, hplaced, hdepth⟩ :=
        ih { b.bind name b.patternDepth with patternDepth := b.patternDepth + 1 }
      refine ⟨hnetwork, hplaced, hdepth.trans ?_⟩
      rw [List.length_cons]
      show b.patternDepth + 1 + outputs.length = _
      omega
  unfold advance
  split
  · next call hkind =>
    simpa [ConditionElement.width, ConditionElement.addsFactToToken, ConditionElement.outputs,
      hkind] using hproject _ b
  · next hkind =>
    have houtputs : e.outputs ctx = [] := by
      unfold ConditionElement.outputs
      split
      · next call h => exact absurd h (hkind call)
      · rfl
    simp only [ConditionElement.width, houtputs]
    split
    · exact ⟨rfl, rfl, rfl⟩
    · exact ⟨rfl, rfl, rfl⟩

/-- Placing the node of a pattern at the end of the chain. -/
theorem Inv.place {n : ℕ} {net : QueryNetwork} (hb : b.Inv ctx base start)
    (hstep : NodeStep ctx b e (n, net)) :
    ∀ i P, (b.placed ++ [⟨e, b.patternDepth, n⟩])[i]? = some P →
      PlacedAt ctx base start net (b.placed ++ [⟨e, b.patternDepth, n⟩]) i P := by
  intro i P hP
  by_cases hi : i < b.placed.length
  · rw [List.getElem?_append_left hi] at hP
    exact ((hb.placed i P hP).mono hb.network hstep.ext).append hi _
  · obtain ⟨rfl, rfl⟩ : i = b.placed.length ∧ P = ⟨e, b.patternDepth, n⟩ := by
      rw [List.getElem?_append_right (not_lt.mp hi)] at hP
      have hzero : i - b.placed.length = 0 := by
        by_contra hne
        rw [List.getElem?_eq_none (by simp; omega)] at hP
        cases hP
      rw [hzero] at hP
      cases hP
      exact ⟨by omega, rfl⟩
    have hprev {j : ℕ} {Q : Placement} (hj : b.placed.length = j + 1)
        (hQ : (b.placed ++ [(⟨e, b.patternDepth, n⟩ : Placement)])[j]? = some Q) :
        b.lastNode = some Q.node := by
      rw [List.getElem?_append_left (by omega)] at hQ
      rw [lastNode, List.getLast?_eq_getElem?, hj, Nat.add_sub_cancel, hQ]
      rfl
    refine ⟨hstep.lt, hstep.fits, ?_, ?_, ?_, ?_, hstep.rightless, ?_⟩
    · intro p hp hbeta
      obtain ⟨Q, hQ, rfl⟩ := Option.map_eq_some_iff.mp (hstep.fed p hp hbeta)
      rw [List.getLast?_eq_getElem?] at hQ
      have hlt : b.placed.length - 1 < b.placed.length := (List.getElem?_eq_some_iff.mp hQ).1
      exact ⟨b.placed.length - 1, Q, by omega, by
        rw [List.getElem?_append_left hlt]
        exact hQ, rfl⟩
    · exact fun j Q hj hQ ↦ hstep.linked _ (hprev hj hQ)
    · -- A root has no left parent, and the last node of the chain would be one.
      intro hroot
      by_contra hne
      obtain ⟨Q, hQ⟩ : ∃ Q, b.placed[b.placed.length - 1]? = some Q :=
        ⟨_, List.getElem?_eq_getElem (by omega)⟩
      have hlast : b.lastNode = some Q.node := by
        rw [lastNode, List.getLast?_eq_getElem?, hQ]
        rfl
      have hbeta := (hstep.inv.roots n hroot).2 Q.node (hstep.linked _ hlast)
      obtain ⟨hlt, hkind⟩ := lastNode_spec hb hlast
      change (net.kind Q.node).isBetaNode = false at hbeta
      rw [hstep.ext.kind_eq hlt, hkind] at hbeta
      cases hbeta
    · intro source hsource
      obtain ⟨hle, hroot⟩ := hstep.fresh source hsource
      exact ⟨hb.base_le.trans hle, hroot⟩
    · rw [List.map_append, List.take_append_of_le_length (by simp), List.take_of_length_le (by simp)]
      exact hb.depth

/-- One round of the loop keeps the invariant. -/
theorem Inv.addPattern (hb : b.Inv ctx base start) (h : b.addPattern ctx e = .ok b') :
    b'.Inv ctx base start ∧ Extends b.network b'.network ∧
      b'.placed.map (·.element) = b.placed.map (·.element) ++ [e] := by
  have hsame := sameNodes_bindPattern b e
  have hbound := hsame.inv hb
  unfold ChainBuilder.addPattern at h
  split at h
  · cases h
  simp only at h
  split at h
  · cases h
  · next n net hcreate =>
    cases h
    have hstep := nodeStep_createNodeForPattern hbound hcreate
    obtain ⟨hnetwork, hplaced, hdepth⟩ := advance_spec
      { b.bindPattern e with
        network := net
        placed := (b.bindPattern e).placed ++ [⟨e, (b.bindPattern e).patternDepth, n⟩] } ctx e
    have hext : Extends b.network net := hsame.network ▸ hstep.ext
    refine ⟨⟨?_, ?_, ?_, ?_⟩, ?_, ?_⟩
    · rw [hnetwork]
      exact hstep.inv
    · rw [hnetwork]
      exact hb.base_le.trans hext.length_le
    · rw [hnetwork, hplaced]
      exact hbound.place hstep
    · rw [hdepth, hplaced]
      simp only [List.map_append, patternsWidth, List.sum_append, List.map_cons, List.map_nil,
        List.sum_singleton]
      have := hbound.depth
      simp only [patternsWidth] at this
      omega
    · rw [hnetwork]
      exact hext
    · rw [hplaced, List.map_append, hsame.placed]
      rfl

end ChainBuilder

end RulesForge
