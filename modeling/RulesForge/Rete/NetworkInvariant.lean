import RulesForge.Library.Forest
import RulesForge.Rete.ConditionActivation
import RulesForge.Rete.HashedJoinInvariant

/-!
# The invariant of the network under left activation

The beta part of a network is a forest: every join, condition and terminal node gets its
tokens from one node, its left parent, or is a root and gets the root token. The invariant
`SubtreeInv` says of a node and everything below it that each memory is right for the tokens
its left parent has delivered, and `leftActivate_spec` that a left activation keeps it, for
one token more or less, and touches nothing outside.

The setting is a `Scene`, the part of the session that no propagation changes, in which one
fact is the **changed** one. A `Phase` says how far the change has come: what facts each node
has on its right, and which nodes are still `pending`. A token that a pending join has made
with the changed fact is **stale**, and so are the tokens made from it further down.
-/

namespace RulesForge

open Forest

/-! ### Edges -/

/-- Whether a node is a join of either kind. -/
def NodeKind.isJoin : NodeKind → Bool
  | crossProductJoin _ | hashedJoin _ _ _ => true
  | _ => false

namespace CompiledNetwork

variable (net : CompiledNetwork)

/-- From a join or condition node to a node that gets its tokens. -/
def LeftEdge (a b : ℕ) : Prop :=
  b ∈ net.children a ∧ (net.kind a).isBetaNode = true

/-- From an entry point or alpha node to a node that gets its facts. -/
def RightEdge (a b : ℕ) : Prop :=
  b ∈ net.children a ∧ (net.kind a).isBetaNode = false

/-- The shape of a network compiled from standard patterns and NOT and EXISTS groups. -/
structure WellFormed : Prop where
  left_forest : IsForest net.LeftEdge
  right_forest : IsForest net.RightEdge
  children_lt : ∀ {a b}, b ∈ net.children a → b < net.nodes.length
  children_nodup : ∀ a, (net.children a).Nodup
  left_child : ∀ {a b}, net.LeftEdge a b →
    (net.kind b).isBetaNode = true ∨ ∃ rule bindings, net.kind b = .terminal rule bindings
  right_child : ∀ {a b}, net.RightEdge a b →
    (net.kind b).isBetaNode = true ∨ ∃ c, net.kind b = .alpha c
  roots_nodup : net.betaRootNodes.Nodup
  mem_roots : ∀ {n}, n ∈ net.betaRootNodes ↔
    (net.kind n).isBetaNode = true ∧ ∀ a, ¬ net.LeftEdge a n
  entry_lt : ∀ {source type n}, net.entry source type = some n → n < net.nodes.length
  entry_kind : ∀ {source type n}, net.entry source type = some n → net.kind n = .entryPoint
  noTokenNode : ∀ n node, net.kind n ≠ .tokenNode node

/-- The fields that index hashed joins and condition nodes. -/
inductive KeyField : String → Prop
  | hashedLeft {n c l r} : net.kind n = .hashedJoin c l r → KeyField l.1
  | hashedRight {n c l r} : net.kind n = .hashedJoin c l r → KeyField r
  | conditionLeft {n kind c key} : net.kind n = .condition kind c →
      BetaNetworkBuilder.hashKey c.bindings c.joins = some key → KeyField key.1.1
  | conditionRight {n kind c key} : net.kind n = .condition kind c →
      BetaNetworkBuilder.hashKey c.bindings c.joins = some key → KeyField key.2

theorem kind_of_le {n : ℕ} (h : net.nodes.length ≤ n) : net.kind n = .entryPoint := by
  simp [kind, node, List.getElem?_eq_none h]

variable {net}

theorem LeftEdge.of_mem {a b : ℕ} (ha : (net.kind a).isBetaNode = true)
    (h : b ∈ net.children a) : net.LeftEdge a b :=
  ⟨h, ha⟩

end CompiledNetwork

/-! ### Scenes and phases -/

/-- What stays during the propagation of a change of one fact. -/
structure Scene (kb : KnowledgeBase) where
  base : Session
  facts : Set FactPtr
  changed : FactPtr
  logicalRetract : TokenWME → Session → Session
  id_injOn : Set.InjOn (fun f ↦ (base.heap f).id) facts
  callback : ∀ w s, s.base = base → logicalRetract w s = s
  plain : ∀ f ∈ facts, ∀ field, kb.network.KeyField field → ∀ v,
    getField base.heap f field = some v → v.isPlain = true

variable {kb : KnowledgeBase} (S : Scene kb)

/-- How far a change has come. -/
structure Phase where
  right : ℕ → Set FactPtr
  right_subset : ∀ n, right n ⊆ S.facts
  pending : Set ℕ

/-- A token is made of facts of the scene. -/
def Scene.Ok (w : TokenWME) : Prop :=
  ∀ f ∈ w.facts, f ∈ S.facts

variable {S}

theorem Scene.Ok.mk {w : TokenWME} {f : FactPtr} (hw : S.Ok w) (hf : f ∈ S.facts) (a : ℕ) :
    S.Ok (.mk a w f) := by
  intro g hg
  rcases List.mem_append.mp hg with hg | hg
  · exact hw g hg
  · rwa [List.mem_singleton.mp hg]

theorem Scene.plain_tokenKey {key : String × ℕ} (hfield : kb.network.KeyField key.1)
    {w : TokenWME} (hw : S.Ok w) {k : ConstraintValue}
    (hk : tokenKey S.base.heap key w = some k) : k.isPlain = true := by
  obtain ⟨f, hf, hget⟩ := Option.bind_eq_some_iff.mp hk
  exact S.plain f (hw f (TokenWME.mem_facts_of_getFactAtDepth hf)) key.1 hfield k hget

theorem Scene.plain_conditionTokenKey {n : ℕ} {kind : ConditionKind} {c : JoinCondition}
    (hkind : kb.network.kind n = .condition kind c) {w : TokenWME} (hw : S.Ok w)
    {k : ConstraintValue} (hk : conditionTokenKey c S.base.heap w = some k) :
    k.isPlain = true := by
  obtain ⟨key, hkey, hget⟩ := Option.bind_eq_some_iff.mp hk
  exact S.plain_tokenKey (.conditionLeft hkind hkey) hw hget

theorem Scene.plain_conditionFactKey {n : ℕ} {kind : ConditionKind} {c : JoinCondition}
    (hkind : kb.network.kind n = .condition kind c) {f : FactPtr} (hf : f ∈ S.facts)
    {k : ConstraintValue} (hk : conditionFactKey c S.base.heap f = some k) :
    k.isPlain = true := by
  obtain ⟨key, hkey, hget⟩ := Option.bind_eq_some_iff.mp hk
  exact S.plain f hf _ (.conditionRight hkind hkey) k hget

/-- Tokens made with the changed fact by a pending join, and tokens made from them. -/
inductive Stale (net : CompiledNetwork) (p : FactPtr) (pending : Set ℕ) : ℕ → TokenWME → Prop
  | changed {q n a w} : net.LeftEdge q n → (net.kind q).isJoin = true → q ∈ pending →
      Stale net p pending n (.mk a w p)
  | join {q n a w f} : net.LeftEdge q n → (net.kind q).isJoin = true →
      Stale net p pending q w → Stale net p pending n (.mk a w f)
  | condition {q n w} : net.LeftEdge q n → (net.kind q).isJoin = false →
      Stale net p pending q w → Stale net p pending n w

theorem Stale.mono {net : CompiledNetwork} {p : FactPtr} {pending pending' : Set ℕ} {n : ℕ}
    {w : TokenWME} (h : Stale net p pending n w)
    (hsub : ∀ q, StrictDesc net.LeftEdge q n → q ∈ pending → q ∈ pending') :
    Stale net p pending' n w := by
  induction h with
  | changed hedge hjoin hq => exact .changed hedge hjoin (hsub _ (.single hedge) hq)
  | join hedge hjoin _ ih => exact .join hedge hjoin (ih fun q hq ↦ hsub q (hq.tail hedge))
  | condition hedge hjoin _ ih =>
    exact .condition hedge hjoin (ih fun q hq ↦ hsub q (hq.tail hedge))

/-! ### The invariant -/

/-- The memory of a node is right for the tokens `D` delivered to it and the facts `R` on its
right, where tokens are not stale and facts are not pending. -/
def NodeFits (kb : KnowledgeBase) (base : Session) (facts R : Set FactPtr)
    (stale : TokenWME → Prop) (pending : FactPtr → Prop) (n : ℕ) (D : Set TokenWME)
    (mem : NodeMemory) : Prop :=
  (∀ w ∈ D, ∀ f ∈ w.facts, f ∈ facts) ∧
    match kb.network.kind n with
    | .crossProductJoin c => CrossProductInv kb base c R stale pending D mem
    | .hashedJoin c l r => HashedInv kb base c l r R stale pending D mem
    | .condition _ c => ConditionInv kb base c R stale pending D mem.betaCondition
    | .terminal _ _ => TerminalInv D mem
    | _ => True

/-- The memory of a node is right for the tokens delivered to it, as far as the change has
come. -/
def NodeInv (P : Phase S) (n : ℕ) (D : Set TokenWME) (mem : NodeMemory) : Prop :=
  NodeFits kb S.base S.facts (P.right n) (Stale kb.network S.changed P.pending n)
    (fun f ↦ f = S.changed ∧ n ∈ P.pending) n D mem

/-- The tokens a node has delivered to its children. -/
def outSet (net : CompiledNetwork) (n : ℕ) (mem : NodeMemory) : Set TokenWME :=
  match net.kind n with
  | .crossProductJoin _ | .hashedJoin _ _ _ => childTokens mem.leftToChildren
  | .condition kind _ => passingTokens kind mem.betaCondition.left
  | _ => ∅

/-- The tokens delivered to a node by its left parent. -/
def leftTokens (net : CompiledNetwork) (n : ℕ) (mem : ℕ → NodeMemory) : Set TokenWME :=
  {w | ∃ q, net.LeftEdge q n ∧ w ∈ outSet net q (mem q)}

/-- A node with delivered tokens `D`, and everything below it. -/
def SubtreeInv (P : Phase S) (n : ℕ) (D : Set TokenWME) (mem : ℕ → NodeMemory) : Prop :=
  NodeInv P n D (mem n) ∧
    ∀ m, StrictDesc kb.network.LeftEdge n m → NodeInv P m (leftTokens kb.network m mem) (mem m)

/-- The children of a node with delivered tokens `D`. -/
def BelowInv (P : Phase S) (n : ℕ) (D : Set TokenWME) (mem : ℕ → NodeMemory) : Prop :=
  ∀ c, kb.network.LeftEdge n c → SubtreeInv P c D mem

variable (hnet : kb.network.WellFormed)
include hnet

theorem leftTokens_of_edge {q n : ℕ} (h : kb.network.LeftEdge q n) (mem : ℕ → NodeMemory) :
    leftTokens kb.network n mem = outSet kb.network q (mem q) := by
  ext w
  refine ⟨?_, fun hw ↦ ⟨q, h, hw⟩⟩
  rintro ⟨q', h', hw⟩
  rwa [hnet.left_forest.parent_unique h h']

variable {P : Phase S} {D : Set TokenWME}

theorem SubtreeInv.congr {n : ℕ} {mem mem' : ℕ → NodeMemory}
    (hinv : SubtreeInv P n D mem)
    (h : ∀ m, Desc kb.network.LeftEdge n m → mem' m = mem m) : SubtreeInv P n D mem' := by
  refine ⟨(h n .refl).symm ▸ hinv.1, fun m hm ↦ ?_⟩
  obtain ⟨q, hnq, hqm⟩ := Relation.TransGen.tail'_iff.mp hm
  rw [h m hm.to_reflTransGen, leftTokens_of_edge hnet hqm, h q hnq, ← leftTokens_of_edge hnet hqm]
  exact hinv.2 m hm

theorem subtreeInv_iff {n : ℕ} {mem : ℕ → NodeMemory} :
    SubtreeInv P n D mem ↔
      NodeInv P n D (mem n) ∧ BelowInv P n (outSet kb.network n (mem n)) mem := by
  refine and_congr_right fun _ ↦ ⟨fun h c hc ↦ ⟨?_, fun m hm ↦ ?_⟩, fun h m hm ↦ ?_⟩
  · rw [← leftTokens_of_edge hnet hc]
    exact h c (.single hc)
  · exact h m (.head hc hm)
  · obtain ⟨c, hc, hcm⟩ := strictDesc_iff.mp hm
    rcases Relation.reflTransGen_iff_eq_or_transGen.mp hcm with rfl | hcm
    · rw [leftTokens_of_edge hnet hc]
      exact (h m hc).1
    · exact (h c hc).2 m hcm

/-! ### Emission -/

/-- Activating the children of a node in turn. -/
theorem foldl_children {n : ℕ} (D' : Set TokenWME)
    {step : ℕ → Session → Session}
    (hstep : ∀ c, kb.network.LeftEdge n c → ∀ s : Session, s.base = S.base →
      SubtreeInv P c D s.mem → SubtreeInv P c D' (step c s).mem ∧
        Effect {m | Desc kb.network.LeftEdge c m} s (step c s))
    (l : List ℕ) (hnodup : l.Nodup) (hl : ∀ c ∈ l, kb.network.LeftEdge n c) {s : Session}
    (hbase : s.base = S.base) (hinv : ∀ c ∈ l, SubtreeInv P c D s.mem) :
    let s' := l.foldl (fun s c ↦ step c s) s
    (∀ c ∈ l, SubtreeInv P c D' s'.mem) ∧
      Effect {m | ∃ c ∈ l, Desc kb.network.LeftEdge c m} s s' := by
  induction l generalizing s with
  | nil => exact ⟨by simp, Effect.refl _ s⟩
  | cons c l ih =>
    obtain ⟨hnotin, hnodup⟩ := List.nodup_cons.mp hnodup
    have hc := hl c List.mem_cons_self
    obtain ⟨hself, heffect⟩ := hstep c hc s hbase (hinv c List.mem_cons_self)
    have hdisjoint : ∀ c' ∈ l, ∀ m, Desc kb.network.LeftEdge c' m →
        ¬ Desc kb.network.LeftEdge c m :=
      fun c' hc' m ↦ hnet.left_forest.not_desc_first hnotin hl hc'
    obtain ⟨hrest, heffect'⟩ := ih hnodup (fun c' hc' ↦ hl c' (List.mem_cons_of_mem _ hc'))
      (heffect.base.trans hbase) fun c' hc' ↦
        (hinv c' (List.mem_cons_of_mem _ hc')).congr hnet fun m hm ↦
          heffect.mem m (hdisjoint c' hc' m hm)
    refine ⟨fun c' hc' ↦ ?_, (heffect.mono ?_).trans (heffect'.mono ?_)⟩
    · rcases List.mem_cons.mp hc' with rfl | hc'
      · refine hself.congr hnet fun m hm ↦ heffect'.mem m ?_
        rintro ⟨c', hc', hm'⟩
        exact hdisjoint c' hc' m hm' hm
      · exact hrest c' hc'
    · exact fun m hm ↦ ⟨c, List.mem_cons_self, hm⟩
    · rintro m ⟨c', hc', hm⟩
      exact ⟨c', List.mem_cons_of_mem _ hc', hm⟩

/-- What a left activation does to the node and everything below it. -/
structure LeftSpec (P : Phase S) (levels n : ℕ) : Prop where
  assert : ∀ {D s w}, s.base = S.base → SubtreeInv P n D s.mem → w ∉ D → S.Ok w →
    SubtreeInv P n (insert w D) (leftActivate kb S.logicalRetract levels n w .assert s).mem ∧
      Effect {m | Desc kb.network.LeftEdge n m} s
        (leftActivate kb S.logicalRetract levels n w .assert s)
  retract : ∀ {D s w}, s.base = S.base → SubtreeInv P n D s.mem → S.Ok w →
    SubtreeInv P n (D \ {w}) (leftActivate kb S.logicalRetract levels n w .retract s).mem ∧
      Effect {m | Desc kb.network.LeftEdge n m} s
        (leftActivate kb S.logicalRetract levels n w .retract s)

theorem emitFrom_spec {levels n : ℕ} (hbeta : (kb.network.kind n).isBetaNode = true)
    (hchildren : ∀ c, kb.network.LeftEdge n c → LeftSpec P levels c) :
    EmitSpec S.base {m | StrictDesc kb.network.LeftEdge n m} S.Ok (BelowInv P n)
      (emitFrom kb S.logicalRetract levels n) := by
  have hedge : ∀ c ∈ kb.network.children n, kb.network.LeftEdge n c := fun c hc ↦ ⟨hc, hbeta⟩
  have hsub : {m | ∃ c ∈ kb.network.children n, Desc kb.network.LeftEdge c m} ⊆
      {m | StrictDesc kb.network.LeftEdge n m} := by
    rintro m ⟨c, hc, hm⟩
    exact strictDesc_iff.mpr ⟨c, hedge c hc, hm⟩
  refine ⟨?_, ?_, ?_⟩
  · intro D s x hbase hbelow hx hok
    obtain ⟨hinv, heffect⟩ := foldl_children hnet (insert x D)
      (fun c hc s hbase hinv ↦ (hchildren c hc).assert hbase hinv hx hok) (kb.network.children n)
      (hnet.children_nodup n) hedge hbase fun c hc ↦ hbelow c (hedge c hc)
    exact ⟨fun c hc ↦ hinv c hc.1, heffect.mono hsub⟩
  · intro D s x hbase hbelow hok
    obtain ⟨hinv, heffect⟩ := foldl_children hnet (D \ {x})
      (fun c hc s hbase hinv ↦ (hchildren c hc).retract hbase hinv hok) (kb.network.children n)
      (hnet.children_nodup n) hedge hbase fun c hc ↦ hbelow c (hedge c hc)
    exact ⟨fun c hc ↦ hinv c hc.1, heffect.mono hsub⟩
  · intro D mem mem' hmem hbelow c hc
    exact (hbelow c hc).congr hnet fun m hm ↦ hmem m (strictDesc_iff.mpr ⟨c, hc, hm⟩)

/-! ### Left activation -/

omit hnet in
theorem insert_strictDesc (n : ℕ) :
    insert n {m | StrictDesc kb.network.LeftEdge n m} ⊆ {m | Desc kb.network.LeftEdge n m} := by
  rintro m (rfl | hm)
  · exact .refl
  · exact hm.to_reflTransGen

omit hnet in
theorem ok_insert {w : TokenWME} (hD : ∀ w ∈ D, S.Ok w) (hw : S.Ok w) :
    ∀ w' ∈ insert w D, S.Ok w' := by
  rintro w' (rfl | hw')
  · exact hw
  · exact hD w' hw'

omit hnet in
theorem Phase.id_injOn (P : Phase S) (n : ℕ) :
    Set.InjOn (fun f ↦ (S.base.heap f).id) (P.right n) :=
  S.id_injOn.mono (P.right_subset n)

section LeftCases

variable {P : Phase S} {levels n : ℕ}
  (hchildren : ∀ c, kb.network.LeftEdge n c → LeftSpec P levels c)
include hchildren

omit hchildren in
/-- A node whose memory follows the tokens delivered to it, and whose children follow the node:
`node` is what its kind asks of the memory, `out` the tokens it has handed on. -/
theorem leftSpec_of_node {node : Set TokenWME → NodeMemory → Prop}
    {out : NodeMemory → Set TokenWME} {left : TokenWME → PropagationType → Session → Session}
    (hnode : ∀ D mem, NodeInv P n D mem ↔ (∀ w ∈ D, S.Ok w) ∧ node D mem)
    (hout : outSet kb.network n = out)
    (hresult : leftActivate kb S.logicalRetract (levels + 1) n = left)
    (hassert : ∀ {D s w}, s.base = S.base → node D (s.mem n) →
      BelowInv P n (out (s.mem n)) s.mem → w ∉ D → S.Ok w →
      let s' := left w .assert s
      node (insert w D) (s'.mem n) ∧ BelowInv P n (out (s'.mem n)) s'.mem ∧
        Effect (insert n {m | StrictDesc kb.network.LeftEdge n m}) s s')
    (hretract : ∀ {D s w}, s.base = S.base → node D (s.mem n) →
      BelowInv P n (out (s.mem n)) s.mem → S.Ok w →
      let s' := left w .retract s
      node (D \ {w}) (s'.mem n) ∧ BelowInv P n (out (s'.mem n)) s'.mem ∧
        Effect (insert n {m | StrictDesc kb.network.LeftEdge n m}) s s') :
    LeftSpec P (levels + 1) n := by
  constructor
  · intro D s w hbase hinv hw hok
    obtain ⟨hfits, hbelow⟩ := (subtreeInv_iff hnet).mp hinv
    obtain ⟨hD, hfits⟩ := (hnode _ _).mp hfits
    rw [hout] at hbelow
    obtain ⟨hfits', hbelow', heffect⟩ := hassert hbase hfits hbelow hw hok
    rw [hresult, subtreeInv_iff hnet, hnode, hout]
    exact ⟨⟨⟨ok_insert hD hok, hfits'⟩, hbelow'⟩, heffect.mono (insert_strictDesc n)⟩
  · intro D s w hbase hinv hok
    obtain ⟨hfits, hbelow⟩ := (subtreeInv_iff hnet).mp hinv
    obtain ⟨hD, hfits⟩ := (hnode _ _).mp hfits
    rw [hout] at hbelow
    obtain ⟨hfits', hbelow', heffect⟩ := hretract hbase hfits hbelow hok
    rw [hresult, subtreeInv_iff hnet, hnode, hout]
    exact ⟨⟨⟨fun w' hw' ↦ hD w' hw'.1, hfits'⟩, hbelow'⟩, heffect.mono (insert_strictDesc n)⟩

theorem leftSpec_crossProductJoin {c : JoinCondition}
    (hkind : kb.network.kind n = .crossProductJoin c) : LeftSpec P (levels + 1) n := by
  have hemit := emitFrom_spec hnet (by rw [hkind]; rfl) hchildren
  have hn : n ∉ {m | StrictDesc kb.network.LeftEdge n m} := hnet.left_forest.not_strictDesc_self n
  refine leftSpec_of_node hnet (fun D mem ↦ by simp only [NodeInv, NodeFits, hkind]; rfl)
    (by funext mem; simp only [outSet, hkind]; rfl)
    (by funext w type s; simp only [leftActivate, hkind]; rfl) ?_ ?_
  · intro D s w hbase hinv hbelow hw hok
    exact crossProductLeft_assert hemit hn hbase hinv hbelow hw
      fun f hf ↦ hok.mk (P.right_subset n hf)
  · intro D s w hbase hinv hbelow hok
    exact crossProductLeft_retract hemit hn hbase hinv hbelow (P.id_injOn n)
      fun f hf ↦ hok.mk (P.right_subset n hf)

theorem leftSpec_hashedJoin {c : JoinCondition} {l : String × ℕ} {r : String}
    (hkind : kb.network.kind n = .hashedJoin c l r) : LeftSpec P (levels + 1) n := by
  have hemit := emitFrom_spec hnet (by rw [hkind]; rfl) hchildren
  have hn : n ∉ {m | StrictDesc kb.network.LeftEdge n m} := hnet.left_forest.not_strictDesc_self n
  have hplain : ∀ {w}, S.Ok w → ∀ key, tokenKey S.base.heap l w = some key → key.isPlain = true :=
    fun hok key hkey ↦ S.plain_tokenKey (.hashedLeft hkind) hok hkey
  refine leftSpec_of_node hnet (fun D mem ↦ by simp only [NodeInv, NodeFits, hkind]; rfl)
    (by funext mem; simp only [outSet, hkind]; rfl)
    (by funext w type s; simp only [leftActivate, hkind]; rfl) ?_ ?_
  · intro D s w hbase hinv hbelow hw hok
    exact hashedLeft_assert hemit hn hbase hinv hbelow hw
      (fun f hf ↦ hok.mk (P.right_subset n hf)) (hplain hok)
  · intro D s w hbase hinv hbelow hok
    exact hashedLeft_retract hemit hn hbase hinv hbelow (P.id_injOn n)
      (fun f hf ↦ hok.mk (P.right_subset n hf)) (hplain hok)

theorem leftSpec_condition {kind : ConditionKind} {c : JoinCondition}
    (hkind : kb.network.kind n = .condition kind c) : LeftSpec P (levels + 1) n := by
  have hemit := emitFrom_spec hnet (by rw [hkind]; rfl) hchildren
  have hn : n ∉ {m | StrictDesc kb.network.LeftEdge n m} := hnet.left_forest.not_strictDesc_self n
  refine leftSpec_of_node hnet (fun D mem ↦ by simp only [NodeInv, NodeFits, hkind]; rfl)
    (by funext mem; simp only [outSet, hkind]; rfl)
    (by funext w type s; simp only [leftActivate, hkind]; rfl) ?_ ?_
  · intro D s w hbase hinv hbelow hw hok
    exact conditionLeft_assert hemit hn hbase hinv hbelow hok hw (P.id_injOn n)
      fun k hk ↦ S.plain_conditionTokenKey hkind hok hk
  · intro D s w hbase hinv hbelow hok
    exact conditionLeft_retract hemit hn hbase hinv hbelow hok

end LeftCases

omit hnet in
/-- A node that hands no tokens on has nothing below it. -/
theorem subtreeInv_of_not_beta {n : ℕ} {mem : ℕ → NodeMemory}
    (hbeta : (kb.network.kind n).isBetaNode = false) :
    SubtreeInv P n D mem ↔ NodeInv P n D (mem n) := by
  refine ⟨And.left, fun h ↦ ⟨h, fun m hm ↦ ?_⟩⟩
  obtain ⟨c, hc, -⟩ := strictDesc_iff.mp hm
  exact absurd hc.2 (by simp [hbeta])

omit hnet in
theorem leftSpec_terminal {levels n rule : ℕ} {bindings : Bindings}
    (hkind : kb.network.kind n = .terminal rule bindings) : LeftSpec P (levels + 1) n := by
  have hbeta : (kb.network.kind n).isBetaNode = false := by rw [hkind]; rfl
  have hsub : ({n} : Set ℕ) ⊆ {m | Desc kb.network.LeftEdge n m} := by
    rintro m rfl
    exact .refl
  have hresult : ∀ w type s, leftActivate kb S.logicalRetract (levels + 1) n w type s =
      terminalLeft kb S.logicalRetract n rule bindings w type s := by
    intro w type s
    simp only [leftActivate, hkind]
  constructor
  · intro D s w hbase hinv hw hok
    obtain ⟨hD, hnode⟩ := (subtreeInv_of_not_beta hbeta).mp hinv
    simp only [hkind] at hnode
    obtain ⟨hnode', heffect⟩ := terminalLeft_assert kb S.logicalRetract rule bindings hnode hw
    rw [hresult]
    refine ⟨(subtreeInv_of_not_beta hbeta).mpr ⟨ok_insert hD hok, ?_⟩, heffect.mono hsub⟩
    simpa only [hkind] using hnode'
  · intro D s w hbase hinv hok
    obtain ⟨hD, hnode⟩ := (subtreeInv_of_not_beta hbeta).mp hinv
    simp only [hkind] at hnode
    obtain ⟨hnode', heffect⟩ := terminalLeft_retract kb rule bindings (w := w)
      S.callback hbase hnode
    rw [hresult]
    refine ⟨(subtreeInv_of_not_beta hbeta).mpr ⟨fun w' hw' ↦ hD w' hw'.1, ?_⟩, heffect.mono hsub⟩
    simpa only [hkind] using hnode'

omit hnet in
theorem leftSpec_of_trivial {levels n : ℕ}
    (hkind : kb.network.kind n = .entryPoint ∨ ∃ c, kb.network.kind n = .alpha c) :
    LeftSpec P levels n := by
  have hbeta : (kb.network.kind n).isBetaNode = false := by
    rcases hkind with hkind | ⟨c, hkind⟩ <;> rw [hkind] <;> rfl
  have hnode : ∀ {D mem}, (∀ w ∈ D, S.Ok w) → NodeInv P n D mem := fun hD ↦ by
    rcases hkind with hkind | ⟨c, hkind⟩ <;> exact ⟨hD, by simp only [hkind]⟩
  have hresult : ∀ w type s, leftActivate kb S.logicalRetract levels n w type s = s := by
    intro w type s
    cases levels with
    | zero => rfl
    | succ levels =>
      rcases hkind with hkind | ⟨c, hkind⟩ <;> simp only [leftActivate, hkind]
  constructor
  · intro D s w hbase hinv hw hok
    rw [hresult]
    exact ⟨(subtreeInv_of_not_beta hbeta).mpr (hnode (ok_insert hinv.1.1 hok)), Effect.refl _ s⟩
  · intro D s w hbase hinv hok
    rw [hresult]
    exact ⟨(subtreeInv_of_not_beta hbeta).mpr (hnode fun w' hw' ↦ hinv.1.1 w' hw'.1),
      Effect.refl _ s⟩

/-- A left activation keeps the invariant, with one token more or less delivered. The number
of nodes bounds the levels it needs. -/
theorem leftActivate_spec (P : Phase S) (levels n : ℕ)
    (hlevels : kb.network.nodes.length ≤ levels + n) : LeftSpec P levels n := by
  induction levels generalizing n with
  | zero => exact leftSpec_of_trivial (.inl (kb.network.kind_of_le (by omega)))
  | succ levels ih =>
    have hchildren : ∀ c, kb.network.LeftEdge n c → LeftSpec P levels c := by
      intro c hc
      have := hnet.left_forest.parent_lt hc
      exact ih c (by omega)
    cases hkind : kb.network.kind n with
    | entryPoint => exact leftSpec_of_trivial (.inl hkind)
    | alpha c => exact leftSpec_of_trivial (.inr ⟨c, hkind⟩)
    | crossProductJoin c => exact leftSpec_crossProductJoin hnet hchildren hkind
    | hashedJoin c l r => exact leftSpec_hashedJoin hnet hchildren hkind
    | condition kind c => exact leftSpec_condition hnet hchildren hkind
    | tokenNode node => exact absurd hkind (hnet.noTokenNode n node)
    | terminal rule bindings => exact leftSpec_terminal hkind

end RulesForge
