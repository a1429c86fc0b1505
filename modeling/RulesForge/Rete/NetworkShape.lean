import RulesForge.Rete.TestReads

/-!
# The shape of compiled networks

The builder only ever adds one node at a time, below nodes that are there, and shares what it
finds in its caches. `NodeAdded` is the effect of one such step on kinds and edges, and
`NodeAdded.wellFormed` shows that it keeps a network well formed when the parents fit the kind
of the new node. `Shape` collects what the builder relies on, and every function of the builder
keeps it.
-/

namespace RulesForge

open Forest

namespace CompiledNetwork

variable {net net' : CompiledNetwork}

/-! ### Edges of the node list -/

theorem children_of_le {n : ℕ} (h : net.nodes.length ≤ n) : net.children n = [] := by
  simp [children, node, List.getElem?_eq_none h]

theorem lt_of_mem_children {a b : ℕ} (h : b ∈ net.children a) : a < net.nodes.length := by
  by_contra hle
  rw [children_of_le (not_lt.mp hle)] at h
  exact absurd h List.not_mem_nil

theorem addChild_length (net : CompiledNetwork) (p c : ℕ) :
    (net.addChild p c).nodes.length = net.nodes.length := by
  simp [addChild]

theorem addChild_kind (net : CompiledNetwork) (p c m : ℕ) :
    (net.addChild p c).kind m = net.kind m := by
  simp only [kind, node, addChild, List.getElem?_modify]
  cases net.nodes[m]? with
  | none => simp
  | some node => by_cases hp : p = m <;> by_cases hc : c = m <;> simp [hp, hc]

theorem addChild_children (net : CompiledNetwork) {p : ℕ} (hp : p < net.nodes.length) (c m : ℕ) :
    (net.addChild p c).children m =
      if m = p then net.children m ++ [c] else net.children m := by
  simp only [children, node, addChild, List.getElem?_modify]
  by_cases hm : m = p
  · subst hm
    simp only [if_true, List.getElem?_eq_getElem hp]
    by_cases hc : c = m <;> simp [hc]
  · cases net.nodes[m]? with
    | none => simp [hm]
    | some node => by_cases hc : c = m <;> simp [hm, Ne.symm hm, hc]

theorem createNode_kind (net : CompiledNetwork) (k : NodeKind) (m : ℕ) :
    (net.createNode k).2.kind m = if m = net.nodes.length then k else net.kind m := by
  simp only [kind, node, createNode]
  rcases lt_trichotomy m net.nodes.length with hm | rfl | hm
  · simp [List.getElem?_append_left hm, hm.ne]
  · simp
  · have hlen : (net.nodes ++ [({ kind := k } : ReteNode)]).length ≤ m := by simp; omega
    rw [List.getElem?_eq_none hlen, List.getElem?_eq_none hm.le]
    simp [hm.ne']

theorem createNode_children (net : CompiledNetwork) (k : NodeKind) (m : ℕ) :
    (net.createNode k).2.children m = net.children m := by
  simp only [children, node, createNode]
  rcases lt_trichotomy m net.nodes.length with hm | rfl | hm
  · simp [List.getElem?_append_left hm]
  · simp
  · have hlen : (net.nodes ++ [({ kind := k } : ReteNode)]).length ≤ m := by simp; omega
    rw [List.getElem?_eq_none hlen, List.getElem?_eq_none hm.le]

/-! ### Adding a node -/

/-- The effect of one step of the builder on kinds and edges. -/
structure NodeAdded (net net' : CompiledNetwork) (k : NodeKind) (parents : List ℕ) : Prop where
  length : net'.nodes.length = net.nodes.length + 1
  kind : ∀ m, net'.kind m = if m = net.nodes.length then k else net.kind m
  children : ∀ m, net'.children m =
    if m ∈ parents then net.children m ++ [net.nodes.length] else net.children m
  parents_lt : ∀ p ∈ parents, p < net.nodes.length

/-- Creating a node and hanging it below its parents. -/
theorem nodeAdded_foldl (net : CompiledNetwork) (k : NodeKind) (parents : List ℕ)
    (hnodup : parents.Nodup) (hlt : ∀ p ∈ parents, p < net.nodes.length) :
    NodeAdded net
      (parents.foldl (fun net' p ↦ net'.addChild p net.nodes.length) (net.createNode k).2)
      k parents := by
  have hfold : ∀ (l : List ℕ) (net' : CompiledNetwork), l.Nodup →
      (∀ p ∈ l, p < net'.nodes.length) →
      let result := l.foldl (fun net' p ↦ net'.addChild p net.nodes.length) net'
      result.nodes.length = net'.nodes.length ∧ (∀ m, result.kind m = net'.kind m) ∧
        ∀ m, result.children m =
          if m ∈ l then net'.children m ++ [net.nodes.length] else net'.children m := by
    intro l
    induction l with
    | nil => exact fun net' _ _ ↦ ⟨rfl, fun _ ↦ rfl, by simp⟩
    | cons p l ih =>
      intro net' hnodup hlt
      obtain ⟨hnotin, hnodup⟩ := List.nodup_cons.mp hnodup
      have hp := hlt p List.mem_cons_self
      obtain ⟨hlength, hkind, hchildren⟩ := ih (net'.addChild p net.nodes.length) hnodup
        fun q hq ↦ by
          rw [addChild_length]
          exact hlt q (List.mem_cons_of_mem _ hq)
      refine ⟨hlength.trans (addChild_length _ _ _), fun m ↦ (hkind m).trans (addChild_kind _ _ _ m),
        fun m ↦ (hchildren m).trans ?_⟩
      rw [addChild_children _ hp]
      by_cases hm : m = p
      · subst hm
        simp [hnotin]
      · simp [hm]
  obtain ⟨hlength, hkind, hchildren⟩ := hfold parents (net.createNode k).2 hnodup fun p hp ↦ by
    have := hlt p hp
    simp only [createNode, List.length_append, List.length_singleton]
    omega
  refine ⟨hlength.trans (by simp [createNode]), fun m ↦ ?_, fun m ↦ ?_, hlt⟩
  · rw [hkind, createNode_kind]
  · rw [hchildren, createNode_children]

/-- Whether a node hands facts on. -/
def isSource (net : CompiledNetwork) (n : ℕ) : Prop :=
  net.kind n = .entryPoint ∨ ∃ c, net.kind n = .alpha c

theorem isSource.isBetaNode {n : ℕ} (h : net.isSource n) : (net.kind n).isBetaNode = false := by
  rcases h with h | ⟨c, h⟩ <;> rw [h] <;> rfl

/-- The parents that a node of a kind may have. -/
inductive ParentsFit (net : CompiledNetwork) : NodeKind → List ℕ → Prop
  | entryPoint : ParentsFit net .entryPoint []
  | alpha {p c} : net.isSource p → ParentsFit net (.alpha c) [p]
  | beta {k} {tail last : Option ℕ} : k.IsPatternNode → (∀ t ∈ tail, net.isSource t) →
      (∀ l ∈ last, (net.kind l).isBetaNode = true) →
        ParentsFit net k (tail.toList ++ last.toList)
  | terminal {rule bindings} {last : Option ℕ} :
      (∀ l ∈ last, (net.kind l).isBetaNode = true) →
      ParentsFit net (.terminal rule bindings) last.toList

namespace NodeAdded

variable {k : NodeKind} {parents : List ℕ} (h : NodeAdded net net' k parents)
include h

theorem kind_old {m : ℕ} (hm : m < net.nodes.length) : net'.kind m = net.kind m := by
  rw [h.kind, if_neg hm.ne]

theorem kind_new : net'.kind net.nodes.length = k := by
  rw [h.kind, if_pos rfl]

/-- A new node is a child of its parents, and the other edges are as before. -/
theorem mem_children {a b : ℕ} :
    b ∈ net'.children a ↔ b ∈ net.children a ∨ b = net.nodes.length ∧ a ∈ parents := by
  rw [h.children]
  by_cases ha : a ∈ parents <;> simp [ha]

theorem leftEdge_iff {a b : ℕ} :
    net'.LeftEdge a b ↔
      net.LeftEdge a b ∨ b = net.nodes.length ∧ a ∈ parents ∧ (net.kind a).isBetaNode = true := by
  rw [LeftEdge, h.mem_children, LeftEdge, or_and_right, and_assoc]
  refine or_congr (and_congr_right fun hb ↦ ?_) (and_congr_right fun _ ↦ and_congr_right fun ha ↦ ?_)
  · rw [h.kind_old (lt_of_mem_children hb)]
  · rw [h.kind_old (h.parents_lt a ha)]

theorem rightEdge_iff {a b : ℕ} :
    net'.RightEdge a b ↔
      net.RightEdge a b ∨ b = net.nodes.length ∧ a ∈ parents ∧ (net.kind a).isBetaNode = false := by
  rw [RightEdge, h.mem_children, RightEdge, or_and_right, and_assoc]
  refine or_congr (and_congr_right fun hb ↦ ?_) (and_congr_right fun _ ↦ and_congr_right fun ha ↦ ?_)
  · rw [h.kind_old (lt_of_mem_children hb)]
  · rw [h.kind_old (h.parents_lt a ha)]

end NodeAdded

namespace ParentsFit

variable {k : NodeKind} {parents : List ℕ} (h : ParentsFit net k parents)
include h

theorem nodup : parents.Nodup := by
  cases h with
  | entryPoint => exact List.nodup_nil
  | alpha _ => exact List.nodup_singleton _
  | @beta k tail last _ htail hlast =>
    cases tail with
    | none => cases last <;> simp
    | some t =>
      cases last with
      | none => exact List.nodup_singleton _
      | some l =>
        have hne : t ≠ l := by
          rintro rfl
          simpa [hlast t rfl] using (htail t rfl).isBetaNode
        simp [hne]
  | @terminal _ _ last _ => cases last <;> simp

/-- A node has at most one parent of each kind. -/
theorem parent_unique {p q : ℕ} (hp : p ∈ parents) (hq : q ∈ parents)
    (heq : (net.kind p).isBetaNode = (net.kind q).isBetaNode) : p = q := by
  cases h with
  | entryPoint => exact absurd hp List.not_mem_nil
  | alpha _ => rw [List.mem_singleton.mp hp, List.mem_singleton.mp hq]
  | @beta k tail last _ htail hlast =>
    have htail' : ∀ {t}, t ∈ tail.toList → (net.kind t).isBetaNode = false :=
      fun ht ↦ (htail _ (by simpa using ht)).isBetaNode
    have hlast' : ∀ {l}, l ∈ last.toList → (net.kind l).isBetaNode = true :=
      fun hl ↦ hlast _ (by simpa using hl)
    rcases List.mem_append.mp hp with hp' | hp' <;> rcases List.mem_append.mp hq with hq' | hq'
    · have hp : tail = some p := by simpa using hp'
      have hq : tail = some q := by simpa using hq'
      simpa [hp] using hq
    · rw [htail' hp', hlast' hq'] at heq
      exact Bool.noConfusion heq
    · rw [hlast' hp', htail' hq'] at heq
      exact Bool.noConfusion heq
    · have hp : last = some p := by simpa using hp'
      have hq : last = some q := by simpa using hq'
      simpa [hp] using hq
  | @terminal _ _ last _ =>
    have hp : last = some p := by simpa using hp
    have hq : last = some q := by simpa using hq
    simpa [hp] using hq

theorem left_child {p : ℕ} (hp : p ∈ parents) (hbeta : (net.kind p).isBetaNode = true) :
    k.isBetaNode = true ∨ ∃ rule bindings, k = .terminal rule bindings := by
  cases h with
  | entryPoint => exact absurd hp List.not_mem_nil
  | alpha hsource =>
    rw [List.mem_singleton.mp hp, hsource.isBetaNode] at hbeta
    exact Bool.noConfusion hbeta
  | beta hk _ _ => exact .inl hk.isBetaNode
  | terminal _ => exact .inr ⟨_, _, rfl⟩

theorem right_child {p : ℕ} (hp : p ∈ parents) (hbeta : (net.kind p).isBetaNode = false) :
    k.isBetaNode = true ∨ ∃ c, k = .alpha c := by
  cases h with
  | entryPoint => exact absurd hp List.not_mem_nil
  | alpha _ => exact .inr ⟨_, rfl⟩
  | beta hk _ _ => exact .inl hk.isBetaNode
  | terminal hlast =>
    rw [hlast p (by simpa using hp)] at hbeta
    exact Bool.noConfusion hbeta

theorem ne_tokenNode (node : TokenNode) : k ≠ .tokenNode node := by
  rintro rfl
  cases h with
  | beta hpattern => exact hpattern

end ParentsFit

/-- A node below parents that fit keeps the network well formed. -/
theorem NodeAdded.wellFormed {k : NodeKind} {parents : List ℕ}
    (h : NodeAdded net net' k parents) (hnet : net.WellFormed) (hfit : ParentsFit net k parents)
    (hroots : net'.betaRootNodes =
      if k.isBetaNode = true ∧ ∀ p ∈ parents, (net.kind p).isBetaNode = false
        then net.betaRootNodes ++ [net.nodes.length] else net.betaRootNodes)
    (hentries : ∀ {source type n}, net'.entry source type = some n →
      net.entry source type = some n ∨ n = net.nodes.length ∧ k = .entryPoint) :
    net'.WellFormed := by
  have hold : ∀ {a b}, b ∈ net.children a → a < net.nodes.length ∧ b < net.nodes.length :=
    fun hb ↦ ⟨lt_of_mem_children hb, hnet.children_lt hb⟩
  have hrootLt : ∀ {n}, n ∈ net.betaRootNodes → n < net.nodes.length := by
    intro n hn
    by_contra hle
    have hbeta := (hnet.mem_roots.mp hn).1
    rw [kind_of_le net (not_lt.mp hle)] at hbeta
    exact Bool.noConfusion hbeta
  refine
    { left_forest := ⟨fun {a b c} hac hbc ↦ ?_, fun {a c} hac ↦ ?_⟩
      right_forest := ⟨fun {a b c} hac hbc ↦ ?_, fun {a c} hac ↦ ?_⟩
      children_lt := fun {a b} hb ↦ ?_
      children_nodup := fun a ↦ ?_
      left_child := fun {a b} hab ↦ ?_
      right_child := fun {a b} hab ↦ ?_
      roots_nodup := ?_
      mem_roots := fun {n} ↦ ?_
      entry_lt := fun {source type n} hn ↦ ?_
      entry_kind := fun {source type n} hn ↦ ?_
      noTokenNode := fun n node ↦ ?_ }
  · rcases h.leftEdge_iff.mp hac with hac | ⟨rfl, ha, hka⟩ <;>
      rcases h.leftEdge_iff.mp hbc with hbc | ⟨hc, hb, hkb⟩
    · exact hnet.left_forest.parent_unique hac hbc
    · exact absurd (hold hac.1).2 (by omega)
    · exact absurd (hold hbc.1).2 (lt_irrefl _)
    · exact hfit.parent_unique ha hb (hka.trans hkb.symm)
  · rcases h.leftEdge_iff.mp hac with hac | ⟨rfl, ha, -⟩
    · exact hnet.left_forest.parent_lt hac
    · exact h.parents_lt a ha
  · rcases h.rightEdge_iff.mp hac with hac | ⟨rfl, ha, hka⟩ <;>
      rcases h.rightEdge_iff.mp hbc with hbc | ⟨hc, hb, hkb⟩
    · exact hnet.right_forest.parent_unique hac hbc
    · exact absurd (hold hac.1).2 (by omega)
    · exact absurd (hold hbc.1).2 (lt_irrefl _)
    · exact hfit.parent_unique ha hb (hka.trans hkb.symm)
  · rcases h.rightEdge_iff.mp hac with hac | ⟨rfl, ha, -⟩
    · exact hnet.right_forest.parent_lt hac
    · exact h.parents_lt a ha
  · rw [h.length]
    rcases h.mem_children.mp hb with hb | ⟨rfl, -⟩
    · have := (hold hb).2
      omega
    · omega
  · rw [h.children]
    split
    · refine List.nodup_append.mpr ⟨hnet.children_nodup a, List.nodup_singleton _, ?_⟩
      intro x hx y hy
      have := (hold hx).2
      rw [List.mem_singleton.mp hy]
      omega
    · exact hnet.children_nodup a
  · rcases h.leftEdge_iff.mp hab with hab | ⟨rfl, ha, hka⟩
    · rw [h.kind_old (hold hab.1).2]
      exact hnet.left_child hab
    · rw [h.kind_new]
      exact hfit.left_child ha hka
  · rcases h.rightEdge_iff.mp hab with hab | ⟨rfl, ha, hka⟩
    · rw [h.kind_old (hold hab.1).2]
      exact hnet.right_child hab
    · rw [h.kind_new]
      exact hfit.right_child ha hka
  · rw [hroots]
    split
    · refine List.nodup_append.mpr ⟨hnet.roots_nodup, List.nodup_singleton _, ?_⟩
      intro x hx y hy
      have := hrootLt hx
      rw [List.mem_singleton.mp hy]
      omega
    · exact hnet.roots_nodup
  · have hmem : n ∈ net'.betaRootNodes ↔ n ∈ net.betaRootNodes ∨ n = net.nodes.length ∧
        k.isBetaNode = true ∧ ∀ p ∈ parents, (net.kind p).isBetaNode = false := by
      rw [hroots]
      split
      · next hnew =>
        rw [List.mem_append, List.mem_singleton]
        exact or_congr_right (and_iff_left hnew).symm
      · next hnew => exact (or_iff_left fun hn ↦ hnew hn.2).symm
    rw [hmem]
    by_cases hn : n = net.nodes.length
    · subst hn
      have hnot : net.nodes.length ∉ net.betaRootNodes := fun hn ↦ absurd (hrootLt hn) (lt_irrefl _)
      have hedge : ∀ a, ¬ net.LeftEdge a net.nodes.length :=
        fun a ha ↦ absurd (hold ha.1).2 (lt_irrefl _)
      simp [hnot, h.kind_new, h.leftEdge_iff, hedge]
    · have hkind : net'.kind n = net.kind n := by rw [h.kind, if_neg hn]
      simp [hn, hkind, h.leftEdge_iff, hnet.mem_roots]
  · rw [h.length]
    rcases hentries hn with hn | ⟨rfl, -⟩
    · have := hnet.entry_lt hn
      omega
    · omega
  · rcases hentries hn with hn | ⟨rfl, rfl⟩
    · rw [h.kind_old (hnet.entry_lt hn)]
      exact hnet.entry_kind hn
    · exact h.kind_new
  · rw [h.kind]
    split
    · exact hfit.ne_tokenNode node
    · exact hnet.noTokenNode n node

/-! ### What the builder relies on -/

/-- The network is well formed, and the caches tell the truth. -/
structure Shape (net : CompiledNetwork) : Prop where
  wellFormed : net.WellFormed
  keysFromJoins : net.KeysFromJoins
  alphaCache : ∀ {p c n}, (p, c, n) ∈ net.alphaCache → net.RightEdge p n ∧ net.kind n = .alpha c
  betaCache : ∀ {k parents n}, (k, parents, n) ∈ net.betaCache →
    net.kind n = k ∧ k.isBetaNode = true ∧ ∀ p, p ∈ parents ↔ n ∈ net.children p

/-- A network extends another. -/
structure Grows (net net' : CompiledNetwork) : Prop where
  length : net.nodes.length ≤ net'.nodes.length
  kind : ∀ {m}, m < net.nodes.length → net'.kind m = net.kind m
  children : ∀ {a b}, b ∈ net.children a → b ∈ net'.children a
  roots : ∀ {n}, n ∈ net.betaRootNodes → n ∈ net'.betaRootNodes
  entries : ∀ {source type n}, net.entry source type = some n →
    net'.entry source type = some n

namespace Grows

theorem refl (net : CompiledNetwork) : Grows net net :=
  ⟨le_rfl, fun _ ↦ rfl, fun h ↦ h, fun h ↦ h, fun h ↦ h⟩

theorem trans {net'' : CompiledNetwork} (h : Grows net net') (h' : Grows net' net'') :
    Grows net net'' where
  length := h.length.trans h'.length
  kind hm := (h'.kind (hm.trans_le h.length)).trans (h.kind hm)
  children hb := h'.children (h.children hb)
  roots hn := h'.roots (h.roots hn)
  entries hn := h'.entries (h.entries hn)

theorem leftEdge (h : Grows net net') {a b : ℕ} (hab : net.LeftEdge a b) : net'.LeftEdge a b :=
  ⟨h.children hab.1, by rw [h.kind (lt_of_mem_children hab.1)]; exact hab.2⟩

theorem rightEdge (h : Grows net net') {a b : ℕ} (hab : net.RightEdge a b) :
    net'.RightEdge a b :=
  ⟨h.children hab.1, by rw [h.kind (lt_of_mem_children hab.1)]; exact hab.2⟩

end Grows

theorem lt_of_isBetaNode {n : ℕ} (h : (net.kind n).isBetaNode = true) : n < net.nodes.length := by
  by_contra hle
  rw [kind_of_le net (not_lt.mp hle)] at h
  exact Bool.noConfusion h

theorem NodeAdded.of_nodes {net'' : CompiledNetwork} {k : NodeKind} {parents : List ℕ}
    (h : NodeAdded net net' k parents) (hnodes : net''.nodes = net'.nodes) :
    NodeAdded net net'' k parents where
  length := by rw [hnodes, h.length]
  kind m := by
    rw [← h.kind, CompiledNetwork.kind, CompiledNetwork.node, hnodes]
    rfl
  children m := by
    rw [← h.children, CompiledNetwork.children, CompiledNetwork.node, hnodes]
    rfl
  parents_lt := h.parents_lt

/-- The caches after a node has been added. -/
structure CachesAdded (net net' : CompiledNetwork) (k : NodeKind) (parents : List ℕ) : Prop where
  roots : net'.betaRootNodes =
    if k.isBetaNode = true ∧ ∀ p ∈ parents, (net.kind p).isBetaNode = false
      then net.betaRootNodes ++ [net.nodes.length] else net.betaRootNodes
  entries : ∀ {source type n}, net'.entry source type = some n →
    net.entry source type = some n ∨ n = net.nodes.length ∧ k = .entryPoint
  alphaCache : ∀ {p c n}, (p, c, n) ∈ net'.alphaCache → (p, c, n) ∈ net.alphaCache ∨
    n = net.nodes.length ∧ k = .alpha c ∧ parents = [p]
  betaCache : ∀ {k' parents' n}, (k', parents', n) ∈ net'.betaCache →
    (k', parents', n) ∈ net.betaCache ∨
      n = net.nodes.length ∧ k = k' ∧ k.isBetaNode = true ∧ ∀ p, p ∈ parents' ↔ p ∈ parents

theorem NodeAdded.grows {k : NodeKind} {parents : List ℕ} (h : NodeAdded net net' k parents)
    (hcaches : CachesAdded net net' k parents)
    (hentries : ∀ {source type n}, net.entry source type = some n →
      net'.entry source type = some n) : Grows net net' where
  length := by
    rw [h.length]
    omega
  kind hm := h.kind_old hm
  children hb := h.mem_children.mpr (.inl hb)
  roots hn := by
    rw [hcaches.roots]
    split
    · exact List.mem_append_left _ hn
    · exact hn
  entries := hentries

theorem Shape.nodeAdded {k : NodeKind} {parents : List ℕ} (hshape : net.Shape)
    (h : NodeAdded net net' k parents) (hfit : ParentsFit net k parents)
    (hcaches : CachesAdded net net' k parents)
    (hkeys : ∀ {c l r}, k = .hashedJoin c l r →
      BetaNetworkBuilder.hashKey c.bindings c.joins = some (l, r)) : net'.Shape := by
  have hnet := hshape.wellFormed
  refine ⟨h.wellFormed hnet hfit hcaches.roots hcaches.entries, ?_, ?_, ?_⟩
  · intro n c l r hkind
    rw [h.kind] at hkind
    split at hkind
    · exact hkeys hkind
    · exact hshape.keysFromJoins hkind
  · intro p c n hmem
    rcases hcaches.alphaCache hmem with hmem | ⟨rfl, rfl, rfl⟩
    · obtain ⟨hedge, hkind⟩ := hshape.alphaCache hmem
      exact ⟨h.rightEdge_iff.mpr (.inl hedge), (h.kind_old (hnet.children_lt hedge.1)).trans hkind⟩
    · refine ⟨h.rightEdge_iff.mpr (.inr ⟨rfl, List.mem_singleton_self p, ?_⟩), h.kind_new⟩
      generalize hparents : [p] = parents at hfit
      cases hfit with
      | alpha hsource =>
        obtain rfl : p = _ := by simpa using hparents
        exact hsource.isBetaNode
      | beta hpattern => exact hpattern.elim
  · intro k' parents' n hmem
    rcases hcaches.betaCache hmem with hmem | ⟨rfl, rfl, hbeta, hparents⟩
    · obtain ⟨hkind, hbeta, hparents⟩ := hshape.betaCache hmem
      have hn : n < net.nodes.length := lt_of_isBetaNode (hkind ▸ hbeta)
      refine ⟨(h.kind_old hn).trans hkind, hbeta, fun p ↦ ?_⟩
      rw [hparents, h.mem_children]
      exact (or_iff_left fun hnew ↦ hn.ne hnew.1).symm
    · refine ⟨h.kind_new, hbeta, fun p ↦ ?_⟩
      rw [hparents, h.mem_children]
      refine ⟨fun hp ↦ .inr ⟨rfl, hp⟩, ?_⟩
      rintro (hp | ⟨-, hp⟩)
      · exact absurd (hnet.children_lt hp) (lt_irrefl _)
      · exact hp

/-! ### The functions of the builder -/

theorem shape_empty : Shape {} where
  wellFormed :=
    { left_forest := ⟨fun h ↦ absurd h.1 (by simp [children, node]),
        fun h ↦ absurd h.1 (by simp [children, node])⟩
      right_forest := ⟨fun h ↦ absurd h.1 (by simp [children, node]),
        fun h ↦ absurd h.1 (by simp [children, node])⟩
      children_lt := fun h ↦ absurd h (by simp [children, node])
      children_nodup := fun _ ↦ by simp [children, node]
      left_child := fun h ↦ absurd h.1 (by simp [children, node])
      right_child := fun h ↦ absurd h.1 (by simp [children, node])
      roots_nodup := List.nodup_nil
      mem_roots := by simp [kind, node, NodeKind.isBetaNode]
      entry_lt := fun {source _ _} h ↦ by cases source <;> cases h
      entry_kind := fun {source _ _} h ↦ by cases source <;> cases h
      noTokenNode := fun _ _ ↦ by simp [kind, node] }
  keysFromJoins := by
    intro n c l r h
    simp [kind, node] at h
  alphaCache := by simp
  betaCache := by simp

theorem entry_setEntry (net : CompiledNetwork) (source source' : Option String)
    (factType factType' : String) (n : ℕ) :
    (net.setEntry source factType n).entry source' factType' =
      if source' = source ∧ factType' = factType then some n else net.entry source' factType' := by
  cases source with
  | none =>
    cases source' with
    | none => simp [setEntry, entry, SortedMap.lookup_insert]
    | some name' => simp [setEntry, entry]
  | some name =>
    cases source' with
    | none => simp [setEntry, entry]
    | some name' =>
      simp only [setEntry, entry, SortedMap.lookup_insert, Option.some.injEq]
      by_cases hname : name' = name
      · subst hname
        cases hlookup : net.namedEntryPoints.lookup name' with
        | none => simp [SortedMap.lookup_insert]
        | some types => simp [SortedMap.lookup_insert]
      · simp [hname]

theorem entryPoint_spec (hshape : net.Shape) (source : Option String) (factType : String) :
    let result := net.entryPoint source factType
    result.2.Shape ∧ Grows net result.2 ∧ result.2.entry source factType = some result.1 := by
  unfold entryPoint
  cases hlookup : net.entry source factType with
  | some n => exact ⟨hshape, Grows.refl net, hlookup⟩
  | none =>
    dsimp only
    let created := (net.createNode .entryPoint).2
    let result := created.setEntry source factType net.nodes.length
    have hparts : result.nodes = created.nodes ∧ result.betaRootNodes = net.betaRootNodes ∧
        result.alphaCache = net.alphaCache ∧ result.betaCache = net.betaCache := by
      cases source <;> exact ⟨rfl, rfl, rfl, rfl⟩
    obtain ⟨hnodes, hroots, halpha, hbeta⟩ := hparts
    have hadded : NodeAdded net result .entryPoint [] :=
      (nodeAdded_foldl net .entryPoint [] List.nodup_nil (by simp)).of_nodes hnodes
    have hcaches : CachesAdded net result .entryPoint [] := by
      refine ⟨hroots, fun {source' type n} hn ↦ ?_, fun h ↦ .inl (halpha ▸ h),
        fun h ↦ .inl (hbeta ▸ h)⟩
      rw [entry_setEntry] at hn
      split at hn
      · exact .inr ⟨(Option.some.inj hn).symm, rfl⟩
      · exact .inl hn
    refine ⟨hshape.nodeAdded hadded .entryPoint hcaches (by simp),
      hadded.grows hcaches fun {source' type n} hn ↦ ?_, ?_⟩
    · rw [entry_setEntry, if_neg]
      · exact hn
      · rintro ⟨rfl, rfl⟩
        simp [hlookup] at hn
    · exact (entry_setEntry created source source factType factType _).trans (if_pos ⟨rfl, rfl⟩)

/-- Two constraints are the same for the alpha cache. -/
def SharedConstraint (c' c : ParsedConstraint) : Prop :=
  c' = c ∨ c'.equals c = true

theorem findOrCreateAlpha_spec (hshape : net.Shape) {parent : ℕ} (hparent : net.isSource parent)
    (hlt : parent < net.nodes.length) (c : ParsedConstraint) :
    let result := net.findOrCreateAlpha parent c
    result.2.Shape ∧ Grows net result.2 ∧ result.2.RightEdge parent result.1 ∧
      ∃ c', result.2.kind result.1 = .alpha c' ∧ SharedConstraint c' c := by
  unfold findOrCreateAlpha
  generalize hfind : List.find? _ net.alphaCache = found
  cases found with
  | some entry =>
    obtain ⟨p, c', n⟩ := entry
    have hmem := List.mem_of_find?_eq_some hfind
    have htest := List.find?_some hfind
    simp only [Bool.and_eq_true, decide_eq_true_eq] at htest
    obtain ⟨rfl, hequals⟩ := htest
    obtain ⟨hedge, hkind⟩ := hshape.alphaCache hmem
    exact ⟨hshape, Grows.refl net, hedge, c', hkind, .inr hequals⟩
  | none =>
    dsimp only
    let result : CompiledNetwork :=
      { (net.createNode (.alpha c)).2.addChild parent net.nodes.length with
        alphaCache := net.alphaCache ++ [(parent, c, net.nodes.length)] }
    have hadded : NodeAdded net result (.alpha c) [parent] :=
      (nodeAdded_foldl net (.alpha c) [parent] (List.nodup_singleton _)
        (by simpa using hlt)).of_nodes rfl
    have hcaches : CachesAdded net result (.alpha c) [parent] := by
      refine ⟨rfl, .inl, fun {p c' n} hmem ↦ ?_, .inl⟩
      rcases List.mem_append.mp hmem with hmem | hmem
      · exact .inl hmem
      · cases List.mem_singleton.mp hmem
        exact .inr ⟨rfl, rfl, rfl⟩
    refine ⟨hshape.nodeAdded hadded (.alpha hparent) hcaches (by simp),
      hadded.grows hcaches fun h ↦ h, ?_, c, hadded.kind_new, .inl rfl⟩
    exact hadded.rightEdge_iff.mpr (.inr ⟨rfl, List.mem_singleton_self _, hparent.isBetaNode⟩)

/-- A chain of alpha nodes with the given tests, from one node to another. -/
inductive AlphaChain (net : CompiledNetwork) : ℕ → List ParsedConstraint → ℕ → Prop
  | nil {n} : AlphaChain net n [] n
  | cons {p n t c c' cs} : net.RightEdge p n → net.kind n = .alpha c' → SharedConstraint c' c →
      AlphaChain net n cs t → AlphaChain net p (c :: cs) t

/-- A chain of alpha nodes tests the constraints in turn. -/
theorem buildAlphaChain_spec (cs : List ParsedConstraint) (hshape : net.Shape) {tail : ℕ}
    (htail : net.isSource tail) (hlt : tail < net.nodes.length) :
    let result := net.buildAlphaChain tail cs
    result.2.Shape ∧ Grows net result.2 ∧ result.2.AlphaChain tail cs result.1 ∧
      result.2.isSource result.1 ∧ result.1 < result.2.nodes.length := by
  induction cs generalizing net tail with
  | nil => exact ⟨hshape, Grows.refl net, .nil, htail, hlt⟩
  | cons c cs ih =>
    obtain ⟨hshape₁, hgrows₁, hedge, c', hkind, hshared⟩ := findOrCreateAlpha_spec hshape htail hlt c
    have hn := hshape₁.wellFormed.children_lt hedge.1
    obtain ⟨hshape₂, hgrows₂, hchain, hsource, hlt₂⟩ := ih hshape₁ (.inr ⟨c', hkind⟩) hn
    refine ⟨hshape₂, hgrows₁.trans hgrows₂, ?_, hsource, hlt₂⟩
    exact .cons (hgrows₂.rightEdge hedge) ((hgrows₂.kind hn).trans hkind) hshared hchain

/-- Two kinds are the same for the beta cache. -/
def SharedKind (k' k : NodeKind) : Prop :=
  k' = k ∨ k'.equals k = true

/-- A join or condition node is shared or made, below the two parents. -/
theorem findOrCreateBetaNode_spec (hshape : net.Shape) {tail last : Option ℕ}
    (htail : ∀ t ∈ tail, net.isSource t) (hlt : ∀ t ∈ tail, t < net.nodes.length)
    (hlast : ∀ l ∈ last, (net.kind l).isBetaNode = true) {k : NodeKind}
    (hpattern : k.IsPatternNode)
    (hkeys : ∀ {c l r}, k = .hashedJoin c l r →
      BetaNetworkBuilder.hashKey c.bindings c.joins = some (l, r)) :
    let result := net.findOrCreateBetaNode (tail.toList ++ last.toList) k
    result.2.Shape ∧ Grows net result.2 ∧ (∀ t, result.2.RightEdge t result.1 ↔ t ∈ tail) ∧
      (∀ l ∈ last, result.2.LeftEdge l result.1) ∧
      (last = none → result.1 ∈ result.2.betaRootNodes) ∧
      (result.2.kind result.1).isBetaNode = true ∧ SharedKind (result.2.kind result.1) k := by
  have hlastLt : ∀ p ∈ tail.toList ++ last.toList, p < net.nodes.length := by
    intro p hp
    rcases List.mem_append.mp hp with hp | hp
    · exact hlt p (by simpa using hp)
    · exact lt_of_isBetaNode (hlast p (by simpa using hp))
  have hfit : ParentsFit net k (tail.toList ++ last.toList) := .beta hpattern htail hlast
  have hk : k.isBetaNode = true := hpattern.isBetaNode
  have hright : ∀ t, (t ∈ tail.toList ++ last.toList ∧ (net.kind t).isBetaNode = false) ↔
      t ∈ tail := by
    intro t
    constructor
    · rintro ⟨ht, hbeta⟩
      rcases List.mem_append.mp ht with ht | ht
      · simpa using ht
      · exact Bool.noConfusion (hbeta.symm.trans (hlast t (by simpa using ht)))
    · exact fun ht ↦ ⟨List.mem_append_left _ (by simpa using ht), (htail t ht).isBetaNode⟩
  unfold findOrCreateBetaNode
  generalize hsorted : (tail.toList ++ last.toList).insertionSort (· ≤ ·) = sorted
  have hmemSorted : ∀ p, p ∈ sorted ↔ p ∈ tail.toList ++ last.toList := by
    intro p
    rw [← hsorted]
    exact List.mem_insertionSort _
  dsimp only
  generalize hfind : List.find? _ net.betaCache = found
  cases found with
  | some entry =>
    obtain ⟨k', parents', n⟩ := entry
    have hmem := List.mem_of_find?_eq_some hfind
    have htest := List.find?_some hfind
    simp only [Bool.and_eq_true, decide_eq_true_eq] at htest
    obtain ⟨hequals, rfl⟩ := htest
    obtain ⟨hkind, hbeta, hparents⟩ := hshape.betaCache hmem
    have hchild : ∀ p, n ∈ net.children p ↔ p ∈ tail.toList ++ last.toList :=
      fun p ↦ (hparents p).symm.trans (hmemSorted p)
    refine ⟨hshape, Grows.refl net, fun t ↦ ?_,
      fun l hl ↦ ⟨(hchild l).mpr ?_, hlast l hl⟩, fun hnone ↦ ?_, hkind ▸ hbeta,
      .inr (hkind ▸ hequals)⟩
    · rw [RightEdge, hchild]
      exact hright t
    · exact List.mem_append_right _ (by simpa using hl)
    · refine hshape.wellFormed.mem_roots.mpr ⟨hkind ▸ hbeta, fun a ha ↦ ?_⟩
      have hmem := (hchild a).mp ha.1
      rw [hnone] at hmem
      have htail := (htail a (by simpa using hmem)).isBetaNode
      exact Bool.noConfusion (htail.symm.trans ha.2)
  | none =>
    dsimp only
    set net' := (tail.toList ++ last.toList).foldl (fun net' p ↦ net'.addChild p net.nodes.length)
      (net.createNode k).2 with hnet'
    have hsame : ∀ (l : List ℕ) (net₀ : CompiledNetwork),
        (l.foldl (fun net' p ↦ net'.addChild p net.nodes.length) net₀).betaCache = net₀.betaCache ∧
        (l.foldl (fun net' p ↦ net'.addChild p net.nodes.length) net₀).alphaCache =
          net₀.alphaCache ∧
        (l.foldl (fun net' p ↦ net'.addChild p net.nodes.length) net₀).entry = net₀.entry ∧
        (l.foldl (fun net' p ↦ net'.addChild p net.nodes.length) net₀).betaRootNodes =
          net₀.betaRootNodes := by
      intro l
      induction l with
      | nil => exact fun _ ↦ ⟨rfl, rfl, rfl, rfl⟩
      | cons p l ih => exact fun net₀ ↦ ih (net₀.addChild p net.nodes.length)
    obtain ⟨hbetaCache, halphaCache, hentries, hroots⟩ :=
      hsame (tail.toList ++ last.toList) (net.createNode k).2
    rw [← hnet'] at hbetaCache halphaCache hentries hroots
    have hadded := nodeAdded_foldl net k (tail.toList ++ last.toList) hfit.nodup hlastLt
    rw [← hnet'] at hadded
    set hasBeta := (tail.toList ++ last.toList).any fun p ↦ (net.kind p).isBetaNode with hhasBeta
    set result : CompiledNetwork :=
      if hasBeta = true then { net' with betaCache := net'.betaCache ++ [(k, sorted, net.nodes.length)] }
      else { net' with
        betaCache := net'.betaCache ++ [(k, sorted, net.nodes.length)]
        betaRootNodes := net'.betaRootNodes ++ [net.nodes.length] } with hresult
    have hnodes : result.nodes = net'.nodes := by
      rw [hresult]
      split <;> rfl
    have hadded' := hadded.of_nodes hnodes
    have hcond : (k.isBetaNode = true ∧ ∀ p ∈ tail.toList ++ last.toList,
        (net.kind p).isBetaNode = false) ↔ ¬ hasBeta = true := by
      simp only [hhasBeta, hk, true_and, List.any_eq_true, not_exists, not_and, Bool.not_eq_true]
    have hcaches : CachesAdded net result k (tail.toList ++ last.toList) := by
      refine ⟨?_, ?_, ?_, ?_⟩
      · rw [hresult, if_congr hcond rfl rfl]
        by_cases hb : hasBeta = true
        · rw [if_pos hb, if_neg (not_not.mpr hb)]
          exact hroots
        · rw [if_neg hb, if_pos hb]
          simp only [hroots]
          rfl
      · intro source type n hn
        have heq : result.entry = net.entry := by
          rw [hresult]
          split <;> exact hentries
        exact .inl (heq ▸ hn)
      · intro p c n hmem
        have heq : result.alphaCache = net.alphaCache := by
          rw [hresult]
          split <;> exact halphaCache
        exact .inl (heq ▸ hmem)
      · intro k' parents' n hmem
        have heq : result.betaCache = net.betaCache ++ [(k, sorted, net.nodes.length)] := by
          rw [hresult]
          split <;> simp only [hbetaCache] <;> rfl
        rw [heq] at hmem
        rcases List.mem_append.mp hmem with hmem | hmem
        · exact .inl hmem
        · cases List.mem_singleton.mp hmem
          exact .inr ⟨rfl, rfl, hk, hmemSorted⟩
    have hshape' := hshape.nodeAdded hadded' hfit hcaches hkeys
    have hgrows : Grows net result := hadded'.grows hcaches fun {source type n} hn ↦ by
      have heq : result.entry = net.entry := by
        rw [hresult]
        split <;> exact hentries
      rwa [heq]
    refine ⟨hshape', hgrows, fun t ↦ ?_, fun l hl ↦ ?_, fun hnone ↦ ?_, ?_,
      .inl hadded'.kind_new⟩
    · have hnew : ¬ net.RightEdge t net.nodes.length :=
        fun hold ↦ absurd (hshape.wellFormed.children_lt hold.1) (lt_irrefl _)
      exact hadded'.rightEdge_iff.trans
        ((or_iff_right hnew).trans ((and_iff_right rfl).trans (hright t)))
    · exact hadded'.leftEdge_iff.mpr
        (.inr ⟨rfl, List.mem_append_right _ (by simpa using hl), hlast l hl⟩)
    · change net.nodes.length ∈ result.betaRootNodes
      rw [hcaches.roots, if_pos]
      · exact List.mem_append_right _ (List.mem_singleton_self _)
      · refine ⟨hk, fun p hp ↦ ?_⟩
        rw [hnone] at hp
        exact (htail p (by simpa using hp)).isBetaNode
    · change (result.kind net.nodes.length).isBetaNode = true
      rw [hadded'.kind_new]
      exact hk

/-- The node built for a pattern, with what is above it. -/
structure PatternNode (net : CompiledNetwork) (source : Option String) (factType : String)
    (alphas : List ParsedConstraint) (last : Option ℕ) (k : NodeKind) (n : ℕ) : Prop where
  right : ∃ entry tail, net.entry source factType = some entry ∧
    net.AlphaChain entry alphas tail ∧ net.RightEdge tail n
  left : ∀ l ∈ last, net.LeftEdge l n
  root : last = none → n ∈ net.betaRootNodes
  beta : (net.kind n).isBetaNode = true
  shared : SharedKind (net.kind n) k

theorem Grows.alphaChain {n t : ℕ} {cs : List ParsedConstraint} (h : Grows net net')
    (hnet : net.WellFormed) (hchain : net.AlphaChain n cs t) : net'.AlphaChain n cs t := by
  induction hchain with
  | nil => exact .nil
  | cons hedge hkind hshared _ ih =>
    exact .cons (h.rightEdge hedge) ((h.kind (hnet.children_lt hedge.1)).trans hkind) hshared ih

theorem Grows.patternNode {source : Option String} {factType : String}
    {alphas : List ParsedConstraint} {last : Option ℕ} {k : NodeKind} {n : ℕ}
    (h : Grows net net') (hnet : net.WellFormed)
    (hnode : PatternNode net source factType alphas last k n) :
    PatternNode net' source factType alphas last k n where
  right := by
    obtain ⟨entry, tail, hlookup, hchain, hedge⟩ := hnode.right
    exact ⟨entry, tail, h.entries hlookup, h.alphaChain hnet hchain, h.rightEdge hedge⟩
  left l hl := h.leftEdge (hnode.left l hl)
  root hnone := h.roots (hnode.root hnone)
  beta := by
    rw [h.kind (lt_of_isBetaNode hnode.beta)]
    exact hnode.beta
  shared := by
    rw [h.kind (lt_of_isBetaNode hnode.beta)]
    exact hnode.shared

end CompiledNetwork

/-! ### Condition groups -/

namespace BetaNetworkBuilder

open CompiledNetwork

/-- What holds of the builder between two patterns. -/
structure Valid (b : BetaNetworkBuilder) : Prop where
  shape : b.network.Shape
  last : ∀ l ∈ b.lastNode, (b.network.kind l).isBetaNode = true

theorem collectInlineBindings_eq (b : BetaNetworkBuilder) (leaves : List ParsedConstraint) :
    (b.collectInlineBindings leaves).network = b.network ∧
      (b.collectInlineBindings leaves).lastNode = b.lastNode ∧
      (b.collectInlineBindings leaves).patternDepth = b.patternDepth := by
  unfold collectInlineBindings
  induction leaves generalizing b with
  | nil => exact ⟨rfl, rfl, rfl⟩
  | cons c leaves ih =>
    cases hbinding : c.fieldBinding with
    | none =>
      simp only [List.foldl_cons, hbinding]
      exact ih b
    | some binding =>
      simp only [List.foldl_cons, hbinding]
      exact ih _

/-- The kinds of node a pattern may ask for. -/
structure BuildsBeta (kind : Bool → JoinCondition → NodeKind) : Prop where
  pattern : ∀ hasLast c, (kind hasLast c).IsPatternNode
  keys : ∀ {hasLast c c' l r}, kind hasLast c = .hashedJoin c' l r →
    hashKey c'.bindings c'.joins = some (l, r)

theorem buildsBeta_standardKind : BuildsBeta standardKind where
  pattern hasLast c := by
    unfold standardKind
    split <;> trivial
  keys {hasLast c c' l r} h := by
    unfold standardKind at h
    split at h
    · next left right hkey =>
      injection h with hc hl hr
      subst hc hl hr
      exact hkey
    · injection h

theorem buildsBeta_condition (kind : ConditionKind) : BuildsBeta fun _ c ↦ .condition kind c where
  pattern _ _ := trivial
  keys h := by injection h

/-- The condition a node is built from in the builder's state. -/
def joinConditionOf (b : BetaNetworkBuilder) (pattern : ParsedPattern) : JoinCondition :=
  ⟨(installedTests b.inlineBindingToField pattern.constraintRoot).joins, b.bindingToIdx,
    b.inlineBindingToField⟩

/-- **The nodes of a pattern**: entry point, alpha nodes and a node of its kind. -/
theorem createNodeForPattern_spec {b : BetaNetworkBuilder} (hb : b.Valid)
    (pattern : ParsedPattern) {kind : Bool → JoinCondition → NodeKind} (hkind : BuildsBeta kind) :
    let b' := b.createNodeForPattern pattern kind
    b'.Valid ∧ Grows b.network b'.network ∧ ∃ n, b'.lastNode = some n ∧
      PatternNode b'.network pattern.source pattern.factType
        (installedTests b.inlineBindingToField pattern.constraintRoot).alphas b.lastNode
        (kind b.lastNode.isSome (b.joinConditionOf pattern)) n := by
  obtain ⟨hshape₁, hgrows₁, hentry⟩ := entryPoint_spec hb.shape pattern.source pattern.factType
  have hnet₁ := hshape₁.wellFormed
  obtain ⟨hshape₂, hgrows₂, hchain, hsource, hlt⟩ := buildAlphaChain_spec
    (installedTests b.inlineBindingToField pattern.constraintRoot).alphas hshape₁
    (.inl (hnet₁.entry_kind hentry)) (hnet₁.entry_lt hentry)
  have hgrows := hgrows₁.trans hgrows₂
  obtain ⟨hshape₃, hgrows₃, hright, hleft, hroot, hbeta, hshared⟩ :=
    @findOrCreateBetaNode_spec _ hshape₂ (some _) b.lastNode
      (fun t ht ↦ Option.some_inj.mp ht ▸ hsource) (fun t ht ↦ Option.some_inj.mp ht ▸ hlt)
      (fun l hl ↦ (by
        rw [hgrows.kind (lt_of_isBetaNode (hb.last l hl))]
        exact hb.last l hl))
      _ (hkind.pattern b.lastNode.isSome (b.joinConditionOf pattern)) hkind.keys
  refine ⟨⟨hshape₃, fun l hl ↦ ?_⟩, hgrows.trans hgrows₃, _, rfl,
    ⟨_, _, hgrows₃.entries (hgrows₂.entries hentry),
      hgrows₃.alphaChain hshape₂.wellFormed hchain, (hright _).mpr rfl⟩, hleft, hroot, hbeta,
    hshared⟩
  obtain rfl := Option.some.inj hl
  exact hbeta

/-- The variables in scope when a standard pattern's node is built. -/
def bindPattern (b : BetaNetworkBuilder) (pattern : ParsedPattern) : BetaNetworkBuilder :=
  if pattern.binding = "" then b
  else { b with bindingToIdx := SortedMap.insert pattern.binding b.patternDepth b.bindingToIdx }

/-- The builder before the node of a pattern is created. -/
def enterPattern (b : BetaNetworkBuilder) (pattern : ParsedPattern) : BetaNetworkBuilder :=
  (b.bindPattern pattern).collectInlineBindings (pattern.constraintRoot.elim [] (·.leaves))

theorem enterPattern_eq (b : BetaNetworkBuilder) (pattern : ParsedPattern) :
    (b.enterPattern pattern).network = b.network ∧
      (b.enterPattern pattern).lastNode = b.lastNode ∧
      (b.enterPattern pattern).patternDepth = b.patternDepth := by
  obtain ⟨hnetwork, hlast, hdepth⟩ := collectInlineBindings_eq (b.bindPattern pattern)
    (pattern.constraintRoot.elim [] (·.leaves))
  unfold enterPattern
  rw [hnetwork, hlast, hdepth]
  unfold bindPattern
  split <;> exact ⟨rfl, rfl, rfl⟩

/-- What one round of `build` can do. -/
theorem addPattern_cases {b b' : BetaNetworkBuilder} {pattern : ParsedPattern}
    (h : b.addPattern pattern = .ok b') :
    pattern.type = .standard ∧
        b' = { (b.enterPattern pattern).createNodeForPattern pattern standardKind with
          patternDepth := b.patternDepth + 1 } ∨
      ∃ kind nested rest, pattern.nestedPatterns = nested :: rest ∧ pattern.binding = "" ∧
        pattern.type = (match kind with | .not => .not | .exists => .exists) ∧
        b' = (b.enterPattern pattern).createNodeForPattern nested fun _ c ↦ .condition kind c := by
  unfold addPattern at h
  cases htype : pattern.type with
  | standard =>
    simp only [htype, Except.ok.injEq] at h
    have hdepth : ((b.enterPattern pattern).createNodeForPattern pattern standardKind).patternDepth
        = b.patternDepth := (b.enterPattern_eq pattern).2.2
    refine .inl ⟨rfl, h.symm.trans ?_⟩
    exact congrArg (fun d ↦ { (b.enterPattern pattern).createNodeForPattern pattern standardKind with
      patternDepth := d + 1 }) hdepth
  | not =>
    simp only [htype] at h
    split at h
    · cases h
    · next hbinding =>
      have hbinding := not_not.mp hbinding
      split at h
      · next nested rest _ hnested =>
        refine .inr ⟨.not, nested, rest, hnested, hbinding, rfl, ?_⟩
        simp only [enterPattern, bindPattern, hbinding, if_true]
        exact (Except.ok.inj h).symm
      · next h' _ => exact absurd h' (by simp)
      · cases h
  | «exists» =>
    simp only [htype] at h
    split at h
    · cases h
    · next hbinding =>
      have hbinding := not_not.mp hbinding
      split at h
      · next h' _ => exact absurd h' (by simp)
      · next nested rest _ hnested =>
        refine .inr ⟨.exists, nested, rest, hnested, hbinding, rfl, ?_⟩
        simp only [enterPattern, bindPattern, hbinding, if_true]
        exact (Except.ok.inj h).symm
      · cases h
  | «forall» =>
    simp only [htype] at h
    split at h <;> cases h

theorem Valid.enterPattern {b : BetaNetworkBuilder} (hb : b.Valid) (pattern : ParsedPattern) :
    (b.enterPattern pattern).Valid := by
  obtain ⟨hnetwork, hlast, -⟩ := b.enterPattern_eq pattern
  refine ⟨?_, ?_⟩
  · rw [hnetwork]
    exact hb.shape
  · rw [hnetwork, hlast]
    exact hb.last

theorem Valid.addPattern {b b' : BetaNetworkBuilder} (hb : b.Valid) {pattern : ParsedPattern}
    (h : b.addPattern pattern = .ok b') :
    b'.Valid ∧ Grows b.network b'.network ∧ b'.lastNode.isSome = true := by
  have hnetwork := (b.enterPattern_eq pattern).1
  rcases addPattern_cases h with ⟨-, rfl⟩ | ⟨kind, nested, rest, -, -, -, rfl⟩
  · obtain ⟨hvalid, hgrows, n, hlast, -⟩ :=
      createNodeForPattern_spec (hb.enterPattern pattern) pattern buildsBeta_standardKind
    exact ⟨⟨hvalid.shape, hvalid.last⟩, hnetwork ▸ hgrows, Option.isSome_of_mem hlast⟩
  · obtain ⟨hvalid, hgrows, n, hlast, -⟩ :=
      createNodeForPattern_spec (hb.enterPattern pattern) nested (buildsBeta_condition kind)
    exact ⟨hvalid, hnetwork ▸ hgrows, Option.isSome_of_mem hlast⟩

theorem Valid.foldlM {patterns : List ParsedPattern} {b b' : BetaNetworkBuilder} (hb : b.Valid)
    (h : patterns.foldlM BetaNetworkBuilder.addPattern b = .ok b') :
    b'.Valid ∧ Grows b.network b'.network := by
  induction patterns generalizing b with
  | nil =>
    obtain rfl := Except.ok.inj h
    exact ⟨hb, Grows.refl _⟩
  | cons pattern patterns ih =>
    rw [List.foldlM_cons] at h
    cases hadd : b.addPattern pattern with
    | error e =>
      rw [hadd] at h
      cases h
    | ok b₁ =>
      rw [hadd] at h
      obtain ⟨hb₁, hgrows₁, -⟩ := hb.addPattern hadd
      obtain ⟨hb', hgrows⟩ := ih hb₁ h
      exact ⟨hb', hgrows₁.trans hgrows⟩

theorem valid_start {net : CompiledNetwork} (hshape : net.Shape) :
    Valid { network := net } :=
  ⟨hshape, by simp⟩

end BetaNetworkBuilder

/-! ### Compiled networks -/

open CompiledNetwork

/-- The terminal node that ends a condition group. -/
theorem terminal_spec {net : CompiledNetwork} (hshape : net.Shape) {last : Option ℕ}
    (hlast : ∀ l ∈ last, (net.kind l).isBetaNode = true) (rule : ℕ) (bindings : Bindings) :
    let created := net.createNode (.terminal rule bindings)
    let net' := last.elim created.2 (created.2.addChild · created.1)
    NodeAdded net net' (.terminal rule bindings) last.toList ∧ net'.Shape ∧ Grows net net' := by
  have hfit : ParentsFit net (.terminal rule bindings) last.toList := .terminal hlast
  have hadded : NodeAdded net (last.elim (net.createNode (.terminal rule bindings)).2
      ((net.createNode (.terminal rule bindings)).2.addChild · net.nodes.length))
      (.terminal rule bindings) last.toList := by
    have h := nodeAdded_foldl net (.terminal rule bindings) last.toList hfit.nodup fun p hp ↦
      lt_of_isBetaNode (hlast p (by simpa using hp))
    cases last <;> exact h
  have hcaches : CachesAdded net (last.elim (net.createNode (.terminal rule bindings)).2
      ((net.createNode (.terminal rule bindings)).2.addChild · net.nodes.length))
      (.terminal rule bindings) last.toList := by
    cases last <;> exact ⟨by simp [NodeKind.isBetaNode]; rfl, .inl, .inl, .inl⟩
  refine ⟨hadded, hshape.nodeAdded hadded hfit hcaches (by simp), hadded.grows hcaches ?_⟩
  intro source type n hn
  cases last <;> exact hn

variable {net net' : CompiledNetwork}

theorem compileGroup_cases {rule : ℕ} {group : List ParsedPattern}
    (h : compileGroup net rule group = .ok net') :
    ∃ b, BetaNetworkBuilder.build net group = .ok b ∧
      net' = b.lastNode.elim (b.network.createNode (.terminal rule b.bindingToIdx)).2
        ((b.network.createNode (.terminal rule b.bindingToIdx)).2.addChild ·
          b.network.nodes.length) := by
  unfold compileGroup at h
  cases hbuild : BetaNetworkBuilder.build net group with
  | error e =>
    rw [hbuild] at h
    cases h
  | ok b =>
    rw [hbuild] at h
    exact ⟨b, rfl, (Except.ok.inj h).symm⟩

theorem compileGroup_shape (hshape : net.Shape) {rule : ℕ}
    {group : List ParsedPattern} (h : compileGroup net rule group = .ok net') :
    net'.Shape ∧ Grows net net' := by
  obtain ⟨b, hbuild, rfl⟩ := compileGroup_cases h
  obtain ⟨hvalid, hgrows⟩ := (BetaNetworkBuilder.valid_start hshape).foldlM hbuild
  obtain ⟨-, hshape', hgrows'⟩ := terminal_spec hvalid.shape hvalid.last rule b.bindingToIdx
  exact ⟨hshape', hgrows.trans hgrows'⟩

/-- A property of networks kept by every step of a loop is kept by the loop. -/
theorem foldlM_shape {α : Type} {step : CompiledNetwork → α → Except String CompiledNetwork}
    (hstep : ∀ {net net' : CompiledNetwork} {a}, net.Shape → step net a = .ok net' →
      net'.Shape ∧ Grows net net')
    {l : List α} (hshape : net.Shape)
    (h : l.foldlM step net = .ok net') : net'.Shape ∧ Grows net net' := by
  induction l generalizing net with
  | nil =>
    obtain rfl := Except.ok.inj h
    exact ⟨hshape, Grows.refl _⟩
  | cons a l ih =>
    rw [List.foldlM_cons] at h
    cases hnext : step net a with
    | error e =>
      rw [hnext] at h
      cases h
    | ok net₁ =>
      rw [hnext] at h
      obtain ⟨hshape₁, hgrows₁⟩ := hstep hshape hnext
      obtain ⟨hshape', hgrows⟩ := ih hshape₁ h
      exact ⟨hshape', hgrows₁.trans hgrows⟩

/-- A rule is added to a network of the right shape. -/
theorem compileRule_shape (hshape : net.Shape)
    {rule : ℕ × ParsedRule} (h : compileRule net rule = .ok net') :
    net'.Shape ∧ Grows net net' := by
  unfold compileRule at h
  split at h
  · obtain rfl := Except.ok.inj h
    exact ⟨hshape, Grows.refl _⟩
  · exact foldlM_shape (fun hshape h ↦ compileGroup_shape hshape h) hshape h

/-- **Compiled networks have their shape**: they are well formed, and the keys of their hashed
joins come from their join constraints. -/
theorem compileNetwork_shape {rules : List ParsedRule} {net : CompiledNetwork}
    (h : compileNetwork rules = .ok net) : net.Shape :=
  (foldlM_shape (fun hshape h ↦ compileRule_shape hshape h) shape_empty h).1

end RulesForge
