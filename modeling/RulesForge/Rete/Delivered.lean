import RulesForge.Rete.TestReads

/-!
# What a settled network has delivered

The tuples of facts that ought to reach a node are `Delivered`: a relation over the facts on
the right of the nodes above it and the tests of those nodes, in which no memory occurs. In a
settled network the tokens delivered to a node are the delivered tuples, one token for each
(`Settled.exists_token_iff`, `Settled.token_unique`).

Two settled networks over the same facts and tests therefore hold the same memories, read as
sets of tuples (`Settled.reading_eq`).
-/

namespace RulesForge

open Forest

/-! ### Tuples -/

/-- A token of a tuple of facts. -/
def TokenWME.ofFacts (t : List FactPtr) : TokenWME :=
  t.foldl (fun w f ↦ .mk 0 w f) .root

theorem TokenWME.facts_ofFacts (t : List FactPtr) : (ofFacts t).facts = t := by
  induction t using List.reverseRecOn with
  | nil => rfl
  | append_singleton t f ih =>
    simp only [ofFacts, List.foldl_append, List.foldl_cons, List.foldl_nil, facts] at ih ⊢
    rw [ih]

variable (kb : KnowledgeBase) (base : Session)

/-- The test of a join or condition node, with the keys of its index. -/
def nodeTest (n : ℕ) (w : TokenWME) (f : FactPtr) : Prop :=
  match kb.network.kind n with
  | .crossProductJoin c => checkCondition kb c base w f = true
  | .hashedJoin c l r => KeysMatch base l r w f ∧ checkCondition kb c base w f = true
  | .condition _ c =>
    Compatible (currentLeftKey base c w) (currentRightKey base c f) ∧
      checkCondition kb c base w f = true
  | _ => False

/-- NOT passes a tuple without a match, EXISTS one with a match. -/
def ConditionKind.Holds (kind : ConditionKind) (hasMatch : Prop) : Prop :=
  match kind with
  | .not => ¬ hasMatch
  | .exists => hasMatch

/-- The tuples that ought to reach a node. -/
inductive Delivered (source : FactPtr → Option String) (facts : Set FactPtr) (roots : Set ℕ) :
    ℕ → List FactPtr → Prop
  | root {n} : n ∈ roots → Delivered source facts roots n []
  | join {q n t f} : kb.network.LeftEdge q n → (kb.network.kind q).isJoin = true →
      Delivered source facts roots q t → f ∈ rightFacts kb base.heap source facts q →
      nodeTest kb base q (.ofFacts t) f → Delivered source facts roots n (t ++ [f])
  | condition {q n t kind c} : kb.network.LeftEdge q n → kb.network.kind q = .condition kind c →
      Delivered source facts roots q t →
      kind.Holds (∃ f ∈ rightFacts kb base.heap source facts q, nodeTest kb base q (.ofFacts t) f) →
      Delivered source facts roots n t

variable {kb base} {source : FactPtr → Option String}

theorem Delivered.facts_subset {facts : Set FactPtr} {roots : Set ℕ} {n : ℕ} {t : List FactPtr}
    (h : Delivered kb base source facts roots n t) : ∀ f ∈ t, f ∈ facts := by
  induction h with
  | root _ => simp
  | join _ _ _ hf _ ih =>
    intro g hg
    rcases List.mem_append.mp hg with hg | hg
    · exact ih g hg
    · exact List.mem_singleton.mp hg ▸ hf.1
  | condition _ _ _ _ ih => exact ih

/-! ### Tests of tuples -/

theorem tokenKey_congr {heap heap' : Heap} {l : String × ℕ} {w w' : TokenWME}
    (hfacts : w'.facts = w.facts) (hw : ∀ g ∈ w.facts, SameReads heap heap' g) :
    tokenKey heap' l w' = tokenKey heap l w := by
  unfold tokenKey
  rw [getFactAtDepth_of_facts hfacts]
  cases hget : w.getFactAtDepth l.2 with
  | none => rfl
  | some g => exact (hw g (TokenWME.mem_facts_of_getFactAtDepth hget)).getField _

/-- The test of a node looks at the reads of the facts of the token and of the fact. -/
theorem nodeTest_congr (hlocal : LocalExpressions kb) {base' : Session} {n : ℕ} {w w' : TokenWME}
    {f : FactPtr} (hfacts : w'.facts = w.facts) (hreads : SameReads base.heap base'.heap f)
    (hw : ∀ g ∈ w.facts, SameReads base.heap base'.heap g)
    (hplain : PlainReads kb.network base.heap f)
    (hwplain : ∀ g ∈ w.facts, PlainReads kb.network base.heap g) :
    nodeTest kb base' n w' f ↔ nodeTest kb base n w f := by
  have hkey : ∀ l, tokenKey base'.heap l w' = tokenKey base.heap l w :=
    fun l ↦ tokenKey_congr hfacts hw
  have hcheck : ∀ c, (kb.network.kind n).joinCondition = some c →
      checkCondition kb c base' w' f = checkCondition kb c base w f :=
    fun c hc ↦ checkCondition_congr hlocal hc hfacts hreads hw hplain hwplain
  unfold nodeTest
  cases hkind : kb.network.kind n with
  | crossProductJoin c => simp only [hcheck c (by rw [hkind]; rfl)]
  | hashedJoin c l r =>
    simp only [hcheck c (by rw [hkind]; rfl), KeysMatch, hashedLeftKey, hashedRightKey, hkey,
      hreads.getField]
  | condition kind c =>
    have hleft : currentLeftKey base' c w' = currentLeftKey base c w := by
      simp only [currentLeftKey, conditionTokenKey, hkey]
    have hright : currentRightKey base' c f = currentRightKey base c f := by
      simp only [currentRightKey, conditionFactKey, hreads.getField]
    simp only [hcheck c (by rw [hkind]; rfl), hleft, hright]
  | _ => rfl

theorem nodeTest_ofFacts (hlocal : LocalExpressions kb) {n : ℕ} {w : TokenWME} {f : FactPtr}
    (hplain : PlainReads kb.network base.heap f)
    (hwplain : ∀ g ∈ w.facts, PlainReads kb.network base.heap g) :
    nodeTest kb base n (.ofFacts w.facts) f ↔ nodeTest kb base n w f :=
  nodeTest_congr hlocal (TokenWME.facts_ofFacts _) (SameReads.refl _ _)
    (fun _ _ ↦ SameReads.refl _ _) hplain hwplain

theorem exists_nodeTest_ofFacts (hlocal : LocalExpressions kb) {facts : Set FactPtr} {n : ℕ}
    {w : TokenWME} (hplain : ∀ f ∈ facts, PlainReads kb.network base.heap f)
    (hw : ∀ f ∈ w.facts, f ∈ facts) :
    (∃ f ∈ rightFacts kb base.heap source facts n, nodeTest kb base n (.ofFacts w.facts) f) ↔
      ∃ f ∈ rightFacts kb base.heap source facts n, nodeTest kb base n w f :=
  exists_congr fun f ↦ and_congr_right fun hf ↦
    nodeTest_ofFacts hlocal (hplain f hf.1) fun g hg ↦ hplain g (hw g hg)

/-! ### Exact memories -/

section Exact

variable {facts R : Set FactPtr} {n : ℕ} {D : Set TokenWME} {mem : NodeMemory}
  (h : NodeFits kb base facts R (fun _ ↦ False) (fun _ ↦ False) n D mem)
include h

/-- A join has delivered the pairs that pass its test, each by one token. -/
theorem NodeFits.mem_outSet_join (hjoin : (kb.network.kind n).isJoin = true) {w : TokenWME}
    {f : FactPtr} :
    (∃ a, .mk a w f ∈ outSet kb.network n mem) ↔ w ∈ D ∧ f ∈ R ∧ nodeTest kb base n w f := by
  have hnode := h.2
  cases hkind : kb.network.kind n with
  | crossProductJoin c =>
    simp only [hkind] at hnode
    simp only [outSet, nodeTest, hkind, hnode.children.mem_childTokens]
    constructor
    · intro hpair
      obtain ⟨hw, hf⟩ := hnode.matched hpair
      exact ⟨hw, hf, (hnode.exact hw hf id id).mp hpair⟩
    · rintro ⟨hw, hf, hcheck⟩
      exact (hnode.exact hw hf id id).mpr hcheck
  | hashedJoin c l r =>
    simp only [hkind] at hnode
    simp only [outSet, nodeTest, hkind, hnode.children.mem_childTokens]
    constructor
    · intro hpair
      obtain ⟨⟨k, hk⟩, ⟨k', hk'⟩, -⟩ := hnode.matched hpair
      have hw := (hnode.left_key hk).1
      have hf := (hnode.right_key hk').1
      exact ⟨hw, hf, (hnode.exact hw hf id id).mp hpair⟩
    · rintro ⟨hw, hf, hcheck⟩
      exact (hnode.exact hw hf id id).mpr hcheck
  | _ => simp [hkind, NodeKind.isJoin] at hjoin

theorem NodeFits.address_unique (hjoin : (kb.network.kind n).isJoin = true) {w : TokenWME}
    {f : FactPtr} {a b : ℕ} (ha : .mk a w f ∈ outSet kb.network n mem)
    (hb : .mk b w f ∈ outSet kb.network n mem) : a = b := by
  have hnode := h.2
  cases hkind : kb.network.kind n with
  | crossProductJoin c =>
    simp only [hkind] at hnode
    simp only [outSet, hkind, hnode.children.mem_childTokens] at ha hb
    exact hnode.children.unique ha hb
  | hashedJoin c l r =>
    simp only [hkind] at hnode
    simp only [outSet, hkind, hnode.children.mem_childTokens] at ha hb
    exact hnode.children.unique ha hb
  | _ => simp [hkind, NodeKind.isJoin] at hjoin

/-- The matches of a token in a condition node. -/
theorem NodeFits.mem_ids_iff {kind : ConditionKind} {c : JoinCondition}
    (hkind : kb.network.kind n = .condition kind c)
    {w : TokenWME} {ids : List ℤ} (hmem : (w, ids) ∈ mem.betaCondition.left) {i : ℤ} :
    i ∈ ids ↔ ∃ f ∈ R, nodeTest kb base n w f ∧ i = (base.heap f).id := by
  have hnode := h.2
  simp only [hkind] at hnode
  simp only [nodeTest, hkind]
  constructor
  · intro hi
    obtain ⟨f, hf, rfl⟩ := hnode.ids_mem hmem hi
    exact ⟨f, hf, (hnode.exact hmem hf id id).mp hi, rfl⟩
  · rintro ⟨f, hf, htest, rfl⟩
    exact (hnode.exact hmem hf id id).mpr htest

/-- A condition node has delivered the tokens on which it holds. -/
theorem NodeFits.mem_outSet_condition {kind : ConditionKind} {c : JoinCondition}
    (hkind : kb.network.kind n = .condition kind c) {w : TokenWME} :
    w ∈ outSet kb.network n mem ↔ w ∈ D ∧ kind.Holds (∃ f ∈ R, nodeTest kb base n w f) := by
  have hnode := h.2
  simp only [hkind] at hnode
  have hholds : ∀ {ids}, (w, ids) ∈ mem.betaCondition.left →
      (kind.passes ids.length = true ↔ kind.Holds (∃ f ∈ R, nodeTest kb base n w f)) := by
    intro ids hids
    have hiff : (∃ f ∈ R, nodeTest kb base n w f) ↔ ids ≠ [] := by
      constructor
      · rintro ⟨f, hf, htest⟩
        exact List.ne_nil_of_mem ((h.mem_ids_iff hkind hids).mpr ⟨f, hf, htest, rfl⟩)
      · intro hne
        obtain ⟨i, hi⟩ := List.exists_mem_of_ne_nil ids hne
        obtain ⟨f, hf, htest, -⟩ := (h.mem_ids_iff hkind hids).mp hi
        exact ⟨f, hf, htest⟩
    cases kind with
    | not => simp [ConditionKind.passes, ConditionKind.Holds, hiff]
    | «exists» => simp [ConditionKind.passes, ConditionKind.Holds, hiff, List.length_pos_iff]
  simp only [outSet, hkind]
  constructor
  · rintro ⟨ids, hids, hpasses⟩
    exact ⟨(hnode.mem_left w).mp ⟨ids, hids⟩, (hholds hids).mp hpasses⟩
  · rintro ⟨hw, hheld⟩
    obtain ⟨ids, hids⟩ := (hnode.mem_left w).mpr hw
    exact ⟨ids, hids, (hholds hids).mpr hheld⟩

end Exact

/-! ### The tokens of a settled network -/

section Tokens

variable {facts : Set FactPtr} {roots : Set ℕ} {mem : ℕ → NodeMemory}
  (hnet : kb.network.WellFormed) (hlocal : LocalExpressions kb)
  (hplain : ∀ f ∈ facts, PlainReads kb.network base.heap f)
  (h : Settled kb base source facts roots mem)
include hnet h

/-- Tokens delivered to a node with the same facts are the same. -/
theorem Settled.token_unique {n : ℕ} {w w' : TokenWME} (hw : w ∈ inSet kb.network roots n mem)
    (hw' : w' ∈ inSet kb.network roots n mem) (heq : w.facts = w'.facts) : w = w' := by
  induction n using Nat.strong_induction_on generalizing w w' with
  | _ n ih =>
    by_cases hparent : ∃ q, kb.network.LeftEdge q n
    · obtain ⟨q, hedge⟩ := hparent
      have hlt := hnet.left_forest.parent_lt hedge
      rw [inSet_of_edge h.roots_left hedge, leftTokens_of_edge hnet hedge] at hw hw'
      cases hjoin : (kb.network.kind q).isJoin with
      | true =>
        obtain ⟨a, v, f, rfl, hv, -⟩ := (h.node q).outSet_join hjoin hw
        obtain ⟨a', v', f', rfl, hv', -⟩ := (h.node q).outSet_join hjoin hw'
        obtain ⟨hfacts, hf⟩ := List.append_inj' heq rfl
        obtain rfl : f = f' := by simpa using hf
        obtain rfl := ih q hlt hv hv' hfacts
        rw [(h.node q).address_unique hjoin hw hw']
      | false =>
        exact ih q hlt ((h.node q).outSet_condition hjoin hw)
          ((h.node q).outSet_condition hjoin hw') heq
    · rcases hw with ⟨-, rfl⟩ | ⟨q, hedge, -⟩
      · rcases hw' with ⟨-, rfl⟩ | ⟨q, hedge, -⟩
        · rfl
        · exact absurd ⟨q, hedge⟩ hparent
      · exact absurd ⟨q, hedge⟩ hparent

include hlocal hplain

theorem Settled.delivered_of_mem {n : ℕ} {w : TokenWME}
    (hw : w ∈ inSet kb.network roots n mem) : Delivered kb base source facts roots n w.facts := by
  induction n using Nat.strong_induction_on generalizing w with
  | _ n ih =>
    rcases hw with ⟨hn, rfl⟩ | ⟨q, hedge, hx⟩
    · exact .root hn
    have hlt := hnet.left_forest.parent_lt hedge
    cases hjoin : (kb.network.kind q).isJoin with
    | true =>
      obtain ⟨a, v, f, rfl, hv, hf⟩ := (h.node q).outSet_join hjoin hx
      have hfacts := (h.node q).1 v hv
      obtain ⟨-, -, htest⟩ := ((h.node q).mem_outSet_join hjoin).mp ⟨a, hx⟩
      exact .join hedge hjoin (ih q hlt hv) hf
        ((nodeTest_ofFacts hlocal (hplain f hf.1) fun g hg ↦ hplain g (hfacts g hg)).mpr htest)
    | false =>
      have hv := (h.node q).outSet_condition hjoin hx
      have hfacts := (h.node q).1 w hv
      have hbeta := hedge.2
      cases hkind : kb.network.kind q with
      | condition kind c =>
        obtain ⟨-, hheld⟩ := ((h.node q).mem_outSet_condition hkind).mp hx
        refine .condition hedge hkind (ih q hlt hv) ?_
        rwa [exists_nodeTest_ofFacts hlocal hplain hfacts]
      | crossProductJoin c => simp [hkind, NodeKind.isJoin] at hjoin
      | hashedJoin c l r => simp [hkind, NodeKind.isJoin] at hjoin
      | tokenNode node => exact absurd hkind (hnet.noTokenNode q node)
      | _ => simp [hkind, NodeKind.isBetaNode] at hbeta

omit hnet in
theorem Settled.exists_of_delivered {n : ℕ} {t : List FactPtr}
    (ht : Delivered kb base source facts roots n t) :
    ∃ w ∈ inSet kb.network roots n mem, w.facts = t := by
  induction ht with
  | root hn => exact ⟨.root, .inl ⟨hn, rfl⟩, rfl⟩
  | join hedge hjoin _ hf htest ih =>
    obtain ⟨w, hw, rfl⟩ := ih
    have hfacts := (h.node _).1 w hw
    have htest' := (nodeTest_ofFacts hlocal (hplain _ hf.1)
      fun g hg ↦ hplain g (hfacts g hg)).mp htest
    obtain ⟨a, ha⟩ := ((h.node _).mem_outSet_join hjoin).mpr ⟨hw, hf, htest'⟩
    exact ⟨_, .inr ⟨_, hedge, ha⟩, rfl⟩
  | @condition q n t kind c hedge hkind _ hheld ih =>
    obtain ⟨w, hw, rfl⟩ := ih
    have hfacts := (h.node q).1 w hw
    rw [exists_nodeTest_ofFacts hlocal hplain hfacts] at hheld
    exact ⟨w, .inr ⟨q, hedge, ((h.node q).mem_outSet_condition hkind).mpr ⟨hw, hheld⟩⟩, rfl⟩

/-- The tokens delivered to a node are those of the delivered tuples. -/
theorem Settled.exists_token_iff {n : ℕ} {t : List FactPtr} :
    (∃ w ∈ inSet kb.network roots n mem, w.facts = t) ↔ Delivered kb base source facts roots n t := by
  refine ⟨?_, h.exists_of_delivered hlocal hplain⟩
  rintro ⟨w, hw, rfl⟩
  exact h.delivered_of_mem hnet hlocal hplain hw

end Tokens

/-! ### Memories as sets of tuples -/

/-- The tuples of a set of tokens. -/
def tuples (D : Set TokenWME) : Set (List FactPtr) :=
  {t | ∃ w ∈ D, w.facts = t}

/-- The matches in a condition node: tuples with the sets of ids matched to them. -/
def matchTuples (left : List (TokenWME × List ℤ)) : Set (List FactPtr × Set ℤ) :=
  {pair | ∃ w ids, (w, ids) ∈ left ∧ w.facts = pair.1 ∧ {i | i ∈ ids} = pair.2}

/-- The memory of a node, read as sets of tuples. -/
@[ext]
structure NodeReading where
  passing : Set ℤ := ∅
  left : Set (List FactPtr) := ∅
  right : Set FactPtr := ∅
  children : Set (List FactPtr) := ∅
  matched : Set (List FactPtr × Set ℤ) := ∅

def nodeReading (net : CompiledNetwork) (n : ℕ) (mem : NodeMemory) : NodeReading :=
  match net.kind n with
  | .entryPoint => {}
  | .alpha _ => { passing := {id | id ∈ mem.passingFacts} }
  | .crossProductJoin _ =>
    { left := tuples {w | w ∈ mem.crossProductJoin.left}
      right := {f | ∃ id, (id, f) ∈ mem.crossProductJoin.right}
      children := tuples (childTokens mem.leftToChildren) }
  | .hashedJoin _ _ _ =>
    { left := tuples {w | ∃ k, (k, w) ∈ mem.hashedJoin.left}
      right := {f | ∃ k, (k, f) ∈ mem.hashedJoin.right}
      children := tuples (childTokens mem.leftToChildren) }
  | .condition _ _ =>
    { matched := matchTuples mem.betaCondition.left
      right := {f | ∃ id, (id, f) ∈ mem.betaCondition.right} }
  | .terminal _ _ => { left := tuples {w | w ∈ mem.terminal} }
  | .tokenNode (.eval _) => { left := tuples {w | w ∈ mem.eval} }
  | .tokenNode (.queryTerminal _) => { left := tuples {w | w ∈ mem.results} }

/-- Part by part inclusion. -/
structure NodeReading.Sub (r r' : NodeReading) : Prop where
  passing : r.passing ⊆ r'.passing := by exact Set.Subset.rfl
  left : r.left ⊆ r'.left := by exact Set.Subset.rfl
  right : r.right ⊆ r'.right := by exact Set.Subset.rfl
  children : r.children ⊆ r'.children := by exact Set.Subset.rfl
  matched : r.matched ⊆ r'.matched := by exact Set.Subset.rfl

theorem NodeReading.Sub.antisymm {r r' : NodeReading} (h : r.Sub r') (h' : r'.Sub r) : r = r' :=
  NodeReading.ext (h.passing.antisymm h'.passing) (h.left.antisymm h'.left)
    (h.right.antisymm h'.right) (h.children.antisymm h'.children) (h.matched.antisymm h'.matched)

/-- The facts of a set read the same in two sessions. -/
structure SameFacts (base base' : Session) (facts : Set FactPtr) : Prop where
  type : ∀ f ∈ facts, (base'.heap f).type = (base.heap f).type
  reads : ∀ f ∈ facts, SameReads base.heap base'.heap f

section Readings

variable {base' : Session} {facts : Set FactPtr} {roots : Set ℕ} {mem mem' : ℕ → NodeMemory}
  (hnet : kb.network.WellFormed) (hlocal : LocalExpressions kb)
  (hplain : ∀ f ∈ facts, PlainReads kb.network base.heap f) (hsame : SameFacts base base' facts)

include hlocal hplain hsame

theorem SameFacts.rightFacts_eq (n : ℕ) :
    rightFacts kb base'.heap source facts n = rightFacts kb base.heap source facts n := by
  ext f
  refine and_congr_right fun hf ↦ ?_
  have hcheck : ∀ {n c}, kb.network.kind n = .alpha c →
      checkConstraint kb.runtime base'.heap c f = checkConstraint kb.runtime base.heap c f :=
    fun hkind ↦ checkConstraint_congr hlocal (.alpha hkind) (hsame.reads f hf) (hplain f hf)
  exact ⟨Passes.congr (hsame.type f hf).symm fun hkind ↦ (hcheck hkind).symm,
    Passes.congr (hsame.type f hf) hcheck⟩

theorem SameFacts.nodeTest_iff {n : ℕ} {t : List FactPtr} (ht : ∀ g ∈ t, g ∈ facts) {f : FactPtr}
    (hf : f ∈ facts) : nodeTest kb base' n (.ofFacts t) f ↔ nodeTest kb base n (.ofFacts t) f := by
  have hfacts : ∀ g ∈ (TokenWME.ofFacts t).facts, g ∈ facts := by
    rwa [TokenWME.facts_ofFacts]
  exact nodeTest_congr hlocal rfl (hsame.reads f hf) (fun g hg ↦ hsame.reads g (hfacts g hg))
    (hplain f hf) fun g hg ↦ hplain g (hfacts g hg)

theorem SameFacts.delivered {n : ℕ} {t : List FactPtr}
    (h : Delivered kb base source facts roots n t) :
    Delivered kb base' source facts roots n t := by
  induction h with
  | root hn => exact .root hn
  | @join q n t f hedge hjoin ht hf htest ih =>
    refine .join hedge hjoin ih ?_ ?_
    · rwa [hsame.rightFacts_eq hlocal hplain]
    · rwa [hsame.nodeTest_iff hlocal hplain ht.facts_subset hf.1]
  | @condition q n t kind c hedge hkind ht hheld ih =>
    refine .condition hedge hkind ih ?_
    rw [hsame.rightFacts_eq hlocal hplain]
    have hiff : (∃ f ∈ rightFacts kb base.heap source facts q, nodeTest kb base' q (.ofFacts t) f) ↔
        ∃ f ∈ rightFacts kb base.heap source facts q, nodeTest kb base q (.ofFacts t) f :=
      exists_congr fun f ↦ and_congr_right fun hf ↦
        hsame.nodeTest_iff hlocal hplain ht.facts_subset hf.1
    rwa [hiff]

omit hlocal hplain in
theorem SameFacts.symm : SameFacts base' base facts where
  type f hf := (hsame.type f hf).symm
  reads f hf :=
    ⟨(hsame.reads f hf).id.symm, fun name ↦ ((hsame.reads f hf).getField name).symm,
      fun name ↦ ((hsame.reads f hf).alphaField name).symm⟩

omit hlocal hsame in
theorem plainReads_of_sameFacts (hsame : SameFacts base base' facts) :
    ∀ f ∈ facts, PlainReads kb.network base'.heap f := by
  intro f hf field hfield v hv
  rw [(hsame.reads f hf).getField, (hsame.reads f hf).alphaField] at hv
  exact hplain f hf field hfield v hv

variable (h : Settled kb base source facts roots mem) (h' : Settled kb base' source facts roots mem')
include hnet h h'

/-- The tokens delivered to a node in one network have counterparts in the other. -/
theorem Settled.exists_counterpart {n : ℕ} {w : TokenWME}
    (hw : w ∈ inSet kb.network roots n mem) :
    ∃ w' ∈ inSet kb.network roots n mem', w'.facts = w.facts :=
  h'.exists_of_delivered hlocal (plainReads_of_sameFacts hplain hsame)
    (hsame.delivered hlocal hplain (h.delivered_of_mem hnet hlocal hplain hw))

omit hnet h' in
/-- The tests of counterparts agree. -/
theorem Settled.nodeTest_counterpart {n : ℕ} {w w' : TokenWME}
    (hw : w ∈ inSet kb.network roots n mem) (hfacts : w'.facts = w.facts) {f : FactPtr}
    (hf : f ∈ facts) : nodeTest kb base' n w' f ↔ nodeTest kb base n w f :=
  nodeTest_congr hlocal hfacts (hsame.reads f hf)
    (fun g hg ↦ hsame.reads g ((h.node n).1 w hw g hg)) (hplain f hf)
    fun g hg ↦ hplain g ((h.node n).1 w hw g hg)

/-- The children of a join in one network have counterparts in the other. -/
theorem Settled.outSet_sub {n : ℕ} (hjoin : (kb.network.kind n).isJoin = true) :
    tuples (outSet kb.network n (mem n)) ⊆ tuples (outSet kb.network n (mem' n)) := by
  rintro t ⟨x, hx, rfl⟩
  obtain ⟨a, w, f, rfl, hw, hf⟩ := (h.node n).outSet_join hjoin hx
  obtain ⟨-, -, htest⟩ := ((h.node n).mem_outSet_join hjoin).mp ⟨a, hx⟩
  obtain ⟨w', hw', hfacts⟩ := h.exists_counterpart hnet hlocal hplain hsame h' hw
  have htest' := (h.nodeTest_counterpart hlocal hplain hsame hw hfacts hf.1).mpr htest
  rw [← hsame.rightFacts_eq hlocal hplain] at hf
  obtain ⟨a', ha'⟩ := ((h'.node n).mem_outSet_join hjoin).mpr ⟨hw', hf, htest'⟩
  exact ⟨_, ha', by simp [TokenWME.facts, hfacts]⟩

theorem Settled.reading_sub (n : ℕ) :
    (nodeReading kb.network n (mem n)).Sub (nodeReading kb.network n (mem' n)) := by
  have hright : rightFacts kb base'.heap source facts n = rightFacts kb base.heap source facts n :=
    hsame.rightFacts_eq hlocal hplain n
  have hcounter : ∀ {w}, w ∈ inSet kb.network roots n mem →
      ∃ w' ∈ inSet kb.network roots n mem', w'.facts = w.facts :=
    fun hw ↦ h.exists_counterpart hnet hlocal hplain hsame h' hw
  have hnode := (h.node n).2
  have hnode' := (h'.node n).2
  unfold nodeReading
  cases hkind : kb.network.kind n with
  | entryPoint => exact {}
  | alpha c =>
    refine { passing := fun id hid ↦ ?_ }
    obtain ⟨f, hf, heq⟩ := (h.alpha hkind id).mp hid
    refine (h'.alpha hkind id).mpr ⟨f, hright ▸ hf, ?_⟩
    rw [heq, (hsame.reads f hf.1).id]
  | crossProductJoin c =>
    simp only [hkind] at hnode hnode'
    refine { left := ?_, right := ?_, children := ?_ }
    · rintro t ⟨w, hw, rfl⟩
      obtain ⟨w', hw', hfacts⟩ := hcounter ((hnode.mem_left w).mp hw)
      exact ⟨w', (hnode'.mem_left w').mpr hw', hfacts⟩
    · rintro f ⟨id, hid⟩
      have hf := ((hnode.mem_right id f).mp hid).1
      exact ⟨_, (hnode'.mem_right _ f).mpr ⟨hright ▸ hf, rfl⟩⟩
    · have hsub := h.outSet_sub hnet hlocal hplain hsame h' (n := n) (by rw [hkind]; rfl)
      simpa only [outSet, hkind] using hsub
  | hashedJoin c l r =>
    simp only [hkind] at hnode hnode'
    refine { left := ?_, right := ?_, children := ?_ }
    · rintro t ⟨w, ⟨k, hk⟩, rfl⟩
      obtain ⟨hw, -, hkey⟩ := hnode.left_key hk
      obtain ⟨w', hw', hfacts⟩ := hcounter hw
      have hkey' : hashedLeftKey base' l w' = hashedLeftKey base l w := by
        rw [hashedLeftKey, hashedLeftKey, tokenKey_congr hfacts fun g hg ↦
          hsame.reads g ((h.node n).1 w hw g hg)]
      obtain ⟨k', hk'⟩ := hnode'.left_complete hw' id (hkey'.trans hkey)
      exact ⟨w', ⟨k', hk'⟩, hfacts⟩
    · rintro f ⟨k, hk⟩
      obtain ⟨hf, -, hkey⟩ := hnode.right_key hk
      have hkey' : hashedRightKey base' r f = hashedRightKey base r f := by
        rw [hashedRightKey, hashedRightKey, (hsame.reads f hf.1).getField]
      exact hnode'.right_complete (hright ▸ hf) id (hkey'.trans hkey)
    · have hsub := h.outSet_sub hnet hlocal hplain hsame h' (n := n) (by rw [hkind]; rfl)
      simpa only [outSet, hkind] using hsub
  | condition kind c =>
    simp only [hkind] at hnode hnode'
    refine { right := ?_, matched := ?_ }
    · rintro f ⟨id, hid⟩
      have hf := ((hnode.mem_right id f).mp hid).1
      exact ⟨_, (hnode'.mem_right _ f).mpr ⟨hright ▸ hf, rfl⟩⟩
    · rintro ⟨t, ids'⟩ ⟨w, ids, hmem, rfl, rfl⟩
      have hw := (hnode.mem_left w).mp ⟨ids, hmem⟩
      obtain ⟨w', hw', hfacts⟩ := hcounter hw
      obtain ⟨ids', hmem'⟩ := (hnode'.mem_left w').mpr hw'
      refine ⟨w', ids', hmem', hfacts, ?_⟩
      ext i
      rw [Set.mem_ofPred_eq, Set.mem_ofPred_eq, (h.node n).mem_ids_iff hkind hmem,
        (h'.node n).mem_ids_iff hkind hmem', hright]
      refine exists_congr fun f ↦ and_congr_right fun hf ↦ ?_
      rw [h.nodeTest_counterpart hlocal hplain hsame hw hfacts hf.1, (hsame.reads f hf.1).id]
  | tokenNode node => exact absurd hkind (hnet.noTokenNode n node)
  | terminal rule bindings =>
    simp only [hkind] at hnode hnode'
    refine { left := ?_ }
    rintro t ⟨w, hw, rfl⟩
    obtain ⟨w', hw', hfacts⟩ := hcounter ((hnode.mem_terminal w).mp hw)
    exact ⟨w', (hnode'.mem_terminal w').mpr hw', hfacts⟩

/-- Settled networks over the same facts hold the same memories. -/
theorem Settled.reading_eq (n : ℕ) :
    nodeReading kb.network n (mem n) = nodeReading kb.network n (mem' n) :=
  (h.reading_sub hnet hlocal hplain hsame h' n).antisymm
    (h'.reading_sub hnet hlocal (plainReads_of_sameFacts hplain hsame) hsame.symm h n)

end Readings

end RulesForge
