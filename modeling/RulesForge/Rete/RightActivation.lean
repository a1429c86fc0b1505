import RulesForge.Rete.AlphaStep
import RulesForge.Rete.NetworkInvariant

/-!
# The invariant of the network under right activation

A change of one fact reaches the beta network through its entry point and the alpha nodes,
and right-activates the joins and conditions below them one after the other. At the start
every node is pending and has the facts of before on its right; a node that has been
activated, or that the fact does not reach before or after, has the facts of now. At the end
no node is pending: then no token is stale, and every memory is exact.
-/

namespace RulesForge

open Forest

variable {kb : KnowledgeBase} {S : Scene kb} {P P' : Phase S}

/-! ### Where delivered tokens come from -/

section Out

variable {base : Session} {facts R : Set FactPtr} {stale : TokenWME → Prop}
  {pending : FactPtr → Prop} {n : ℕ} {D : Set TokenWME} {mem : NodeMemory} {x : TokenWME}

theorem NodeFits.outSet_join (hinv : NodeFits kb base facts R stale pending n D mem)
    (hjoin : (kb.network.kind n).isJoin = true) (hx : x ∈ outSet kb.network n mem) :
    ∃ a w f, x = .mk a w f ∧ w ∈ D ∧ f ∈ R := by
  cases hkind : kb.network.kind n with
  | crossProductJoin c =>
    have hnode := hinv.2
    simp only [hkind] at hnode
    simp only [outSet, hkind] at hx
    obtain ⟨w, hw⟩ := hx
    obtain ⟨a, f, rfl⟩ := hnode.children.shape hw
    exact ⟨a, w, f, rfl, hnode.matched ⟨a, hw⟩⟩
  | hashedJoin c l r =>
    have hnode := hinv.2
    simp only [hkind] at hnode
    simp only [outSet, hkind] at hx
    obtain ⟨w, hw⟩ := hx
    obtain ⟨a, f, rfl⟩ := hnode.children.shape hw
    obtain ⟨⟨k, hk⟩, ⟨k', hk'⟩, -⟩ := hnode.matched ⟨a, hw⟩
    exact ⟨a, w, f, rfl, (hnode.left_key hk).1, (hnode.right_key hk').1⟩
  | _ => simp [hkind, NodeKind.isJoin] at hjoin

theorem NodeFits.outSet_condition (hinv : NodeFits kb base facts R stale pending n D mem)
    (hjoin : (kb.network.kind n).isJoin = false) (hx : x ∈ outSet kb.network n mem) : x ∈ D := by
  cases hkind : kb.network.kind n with
  | condition kind c =>
    have hnode := hinv.2
    simp only [hkind] at hnode
    simp only [outSet, hkind] at hx
    obtain ⟨ids, hids, -⟩ := hx
    exact (hnode.mem_left x).mp ⟨ids, hids⟩
  | crossProductJoin c => simp [hkind, NodeKind.isJoin] at hjoin
  | hashedJoin c l r => simp [hkind, NodeKind.isJoin] at hjoin
  | _ => simp [outSet, hkind] at hx

end Out

/-! ### Fewer pending nodes -/

/-- Stale tokens of one phase are stale in another. -/
def StaysStale (P P' : Phase S) (n : ℕ) (D : Set TokenWME) : Prop :=
  ∀ x ∈ D, Stale kb.network S.changed P.pending n x → Stale kb.network S.changed P'.pending n x

variable {D : Set TokenWME} {type : PropagationType} {s : Session}

theorem NodeInv.shrink {n : ℕ} {mem : NodeMemory} (hinv : NodeInv P n D mem)
    (hright : P'.right n = P.right n) (hstale : StaysStale P P' n D)
    (hpending : n ∈ P.pending → S.changed ∈ P.right n → n ∈ P'.pending) :
    NodeInv P' n D mem := by
  have hpend : ∀ f ∈ P.right n, f = S.changed ∧ n ∈ P.pending → f = S.changed ∧ n ∈ P'.pending := by
    rintro f hf ⟨rfl, hn⟩
    exact ⟨rfl, hpending hn hf⟩
  obtain ⟨hD, hnode⟩ := hinv
  refine ⟨hD, ?_⟩
  cases hkind : kb.network.kind n with
  | crossProductJoin c =>
    simp only [hkind, hright] at hnode ⊢
    exact hnode.shrink hstale hpend
  | hashedJoin c l r =>
    simp only [hkind, hright] at hnode ⊢
    exact hnode.shrink hstale hpend
  | condition kind c =>
    simp only [hkind, hright] at hnode ⊢
    exact hnode.shrink hstale hpend
  | terminal rule bindings => simpa only [hkind] using hnode
  | _ => simp only

variable (hnet : kb.network.WellFormed)
include hnet

/-- Staleness is handed down from a node to its children. -/
theorem StaysStale.child {q n : ℕ} {mem : NodeMemory}
    (hedge : kb.network.LeftEdge q n) (hinv : NodeInv P q D mem) (hstale : StaysStale P P' q D)
    (hq : (kb.network.kind q).isJoin = true → q ∈ P.pending →
      q ∈ P'.pending ∨ ∀ a w, .mk a w S.changed ∉ outSet kb.network q mem) :
    StaysStale P P' n (outSet kb.network q mem) := by
  intro x hx hxstale
  cases hxstale with
  | changed hedge' hjoin hpending =>
    obtain rfl := hnet.left_forest.parent_unique hedge hedge'
    rcases hq hjoin hpending with hq | hq
    · exact .changed hedge hjoin hq
    · exact absurd hx (hq _ _)
  | join hedge' hjoin hw =>
    obtain rfl := hnet.left_forest.parent_unique hedge hedge'
    obtain ⟨a, w, f, heq, hwD, -⟩ := hinv.outSet_join hjoin hx
    cases heq
    exact .join hedge hjoin (hstale _ hwD hw)
  | condition hedge' hjoin hw =>
    obtain rfl := hnet.left_forest.parent_unique hedge hedge'
    exact .condition hedge hjoin (hstale x (hinv.outSet_condition hjoin hx) hw)

theorem SubtreeInv.shrink {n : ℕ} {mem : ℕ → NodeMemory}
    (hinv : SubtreeInv P n D mem)
    (hright : ∀ m, Desc kb.network.LeftEdge n m → P'.right m = P.right m)
    (hpending : ∀ m, Desc kb.network.LeftEdge n m → m ∈ P.pending → m ∈ P'.pending)
    (hstale : StaysStale P P' n D) : SubtreeInv P' n D mem := by
  have hself : NodeInv P' n D (mem n) :=
    hinv.1.shrink (hright n .refl) hstale fun hn _ ↦ hpending n .refl hn
  refine ⟨hself, fun m hm ↦ ?_⟩
  have hbelow : StaysStale P P' m (leftTokens kb.network m mem) := by
    induction hm with
    | single hedge =>
      rw [leftTokens_of_edge hnet hedge]
      exact hstale.child hnet hedge hinv.1 fun _ hn ↦ .inl (hpending n .refl hn)
    | tail hq hedge ih =>
      rw [leftTokens_of_edge hnet hedge]
      exact ih.child hnet hedge (hinv.2 _ hq) fun _ hn ↦
        .inl (hpending _ hq.to_reflTransGen hn)
  exact (hinv.2 m hm).shrink (hright m hm.to_reflTransGen) hbelow
    fun hn _ ↦ hpending m hm.to_reflTransGen hn

/-! ### One beta node -/

/-- The phases before and after the right activation of one node. -/
structure Advances (P P' : Phase S) (n : ℕ) : Prop where
  pending : P'.pending = P.pending \ {n}
  right_other : ∀ m ≠ n, P'.right m = P.right m
  right_self : ∀ f ≠ S.changed, (f ∈ P'.right n ↔ f ∈ P.right n)

variable {n : ℕ}

omit hnet in
theorem Advances.mem_pending {m : ℕ} (h : Advances P P' n) (hm : m ≠ n) :
    m ∈ P'.pending ↔ m ∈ P.pending := by
  rw [h.pending]
  simp [hm]

omit hnet in
theorem Advances.stale_iff (h : Advances P P' n) {m : ℕ}
    (hm : ¬ StrictDesc kb.network.LeftEdge n m) (w : TokenWME) :
    Stale kb.network S.changed P'.pending m w ↔ Stale kb.network S.changed P.pending m w := by
  have hne : ∀ q, StrictDesc kb.network.LeftEdge q m → q ≠ n := by
    rintro q hq rfl
    exact hm hq
  exact ⟨fun hw ↦ hw.mono fun q hq ↦ (h.mem_pending (hne q hq)).mp,
    fun hw ↦ hw.mono fun q hq ↦ (h.mem_pending (hne q hq)).mpr⟩

/-- The nodes below may be seen in the new phase once no token made with the changed fact is
left. -/
theorem BelowInv.advance (h : Advances P P' n) {mem : ℕ → NodeMemory}
    (hD : (kb.network.kind n).isJoin = true → ∀ a w, .mk a w S.changed ∉ D)
    (hbelow : BelowInv P n D mem) : BelowInv P' n D mem := by
  intro c hc
  have hne : ∀ m, Desc kb.network.LeftEdge c m → m ≠ n := by
    rintro m hm rfl
    exact hnet.left_forest.not_strictDesc_self m (strictDesc_iff.mpr ⟨c, hc, hm⟩)
  refine (hbelow c hc).shrink hnet (fun m hm ↦ h.right_other m (hne m hm))
    (fun m hm ↦ (h.mem_pending (hne m hm)).mpr) ?_
  intro x hx hstale
  have hself := h.stale_iff (hnet.left_forest.not_strictDesc_self n)
  cases hstale with
  | changed hedge hjoin _ =>
    obtain rfl := hnet.left_forest.parent_unique hc hedge
    exact absurd hx (hD hjoin _ _)
  | join hedge hjoin hw =>
    obtain rfl := hnet.left_forest.parent_unique hc hedge
    exact .join hc hjoin ((hself _).mpr hw)
  | condition hedge hjoin hw =>
    obtain rfl := hnet.left_forest.parent_unique hc hedge
    exact .condition hc hjoin ((hself _).mpr hw)

/-- The right activation of a join or condition node. -/
theorem betaRightActivate_spec (h : Advances P P' n)
    (hbeta : (kb.network.kind n).isBetaNode = true)
    (hchange : Change S.changed (P.right n) (P'.right n) type)
    (hbase : s.base = S.base) (hinv : SubtreeInv P n D s.mem) :
    let s' := betaRightActivate kb S.logicalRetract n S.changed type s
    SubtreeInv P' n D s'.mem ∧ Effect {m | Desc kb.network.LeftEdge n m} s s' := by
  have hspec : ∀ P : Phase S, EmitSpec S.base {m | StrictDesc kb.network.LeftEdge n m} S.Ok
      (BelowInv P n) (emitFrom kb S.logicalRetract kb.network.nodes.length n) := fun P ↦
    emitFrom_spec hnet hbeta fun c _ ↦ leftActivate_spec hnet P _ c (by omega)
  have hn : n ∉ {m | StrictDesc kb.network.LeftEdge n m} := hnet.left_forest.not_strictDesc_self n
  have hchanged : S.changed ∈ S.facts := hchange.mem (P.right_subset n) (P'.right_subset n)
  have hid : Set.InjOn (fun f ↦ (S.base.heap f).id) (insert S.changed (P.right n)) :=
    S.id_injOn.mono (Set.insert_subset hchanged (P.right_subset n))
  have hstale : Stale kb.network S.changed P'.pending n = Stale kb.network S.changed P.pending n :=
    funext fun w ↦ propext (h.stale_iff hn w)
  have hpending : ∀ f ≠ S.changed, f = S.changed ∧ n ∈ P.pending → f = S.changed ∧ n ∈ P'.pending :=
    fun f hf hpend ↦ absurd hpend.1 hf
  obtain ⟨⟨hD, hnode⟩, hbelow⟩ := (subtreeInv_iff hnet).mp hinv
  have hok : ∀ w ∈ D, ∀ a, S.Ok (.mk a w S.changed) := fun w hw a ↦ Scene.Ok.mk (hD w hw) hchanged a
  cases hkind : kb.network.kind n with
  | crossProductJoin c =>
    simp only [hkind, outSet] at hnode hbelow
    obtain ⟨hnode', hbelow', heffect⟩ := crossProductRight_spec (hspec P) hn hbase hnode hbelow
      (hspec P') (fun hnone hbelow ↦ hbelow.advance hnet h fun _ ↦ hnone) hid hchange
      h.right_self hpending hok
    simp only [betaRightActivate, hkind]
    refine ⟨(subtreeInv_iff hnet).mpr ⟨⟨hD, ?_⟩, ?_⟩, heffect.mono (insert_strictDesc n)⟩
    · simpa only [hkind, hstale] using hnode'
    · simpa only [outSet, hkind] using hbelow'
  | hashedJoin c l r =>
    simp only [hkind, outSet] at hnode hbelow
    obtain ⟨hnode', hbelow', heffect⟩ := hashedRight_spec (hspec P) hn hbase hnode hbelow
      (hspec P') (fun hnone hbelow ↦ hbelow.advance hnet h fun _ ↦ hnone) hid hchange
      h.right_self hpending hok
      fun key hkey ↦ S.plain _ hchanged r (.hashedRight hkind) key hkey
    simp only [betaRightActivate, hkind]
    refine ⟨(subtreeInv_iff hnet).mpr ⟨⟨hD, ?_⟩, ?_⟩, heffect.mono (insert_strictDesc n)⟩
    · simpa only [hkind, hstale] using hnode'
    · simpa only [outSet, hkind] using hbelow'
  | condition kind c =>
    simp only [hkind, outSet] at hnode hbelow
    obtain ⟨hnode', hbelow', heffect⟩ := conditionRight_spec (hspec P) hn hbase hnode hbelow
      hD hid hchange h.right_self hpending
      fun k hk ↦ S.plain_conditionFactKey hkind hchanged hk
    simp only [betaRightActivate, hkind]
    refine ⟨(subtreeInv_iff hnet).mpr ⟨⟨hD, ?_⟩, ?_⟩, heffect.mono (insert_strictDesc n)⟩
    · simpa only [hkind, hstale] using hnode'
    · rw [outSet, hkind]
      exact hbelow'.advance hnet h fun hjoin ↦ by simp [hkind, NodeKind.isJoin] at hjoin
  | tokenNode node => exact absurd hkind (hnet.noTokenNode n node)
  | _ => simp [hkind, NodeKind.isBetaNode] at hbeta

/-! ### The whole network -/

omit hnet in
/-- The tokens delivered to a node: by its left parent, and the root token when the node is one
of the given roots. -/
def inSet (net : CompiledNetwork) (roots : Set ℕ) (n : ℕ) (mem : ℕ → NodeMemory) : Set TokenWME :=
  {w | n ∈ roots ∧ w = .root} ∪ leftTokens net n mem

omit hnet in
/-- Every alpha node holds the ids of the facts that pass it, and every beta node is right for
the tokens delivered to it. -/
structure GlobalInv (P : Phase S) (roots : Set ℕ) (mem : ℕ → NodeMemory) : Prop where
  roots_left : ∀ r ∈ roots, ∀ q, ¬ kb.network.LeftEdge q r
  alpha : ∀ {n c}, kb.network.kind n = .alpha c → ∀ id,
    id ∈ (mem n).passingFacts ↔ ∃ f ∈ P.right n, id = (S.base.heap f).id
  node : ∀ n, NodeInv P n (inSet kb.network roots n mem) (mem n)

variable {roots roots' : Set ℕ} {mem mem' : ℕ → NodeMemory}

omit hnet in
theorem inSet_of_edge (hroots : ∀ r ∈ roots, ∀ q, ¬ kb.network.LeftEdge q r) {q m : ℕ}
    (h : kb.network.LeftEdge q m) :
    inSet kb.network roots m mem = leftTokens kb.network m mem := by
  have hm : m ∉ roots := fun hm ↦ hroots m hm q h
  simp [inSet, hm]

omit hnet in
theorem leftTokens_congr {n : ℕ}
    (h : ∀ q, kb.network.LeftEdge q n → outSet kb.network q (mem' q) = outSet kb.network q (mem q)) :
    leftTokens kb.network n mem' = leftTokens kb.network n mem := by
  ext w
  refine exists_congr fun q ↦ and_congr_right fun hq ↦ ?_
  rw [h q hq]

omit hnet in
theorem GlobalInv.subtree (hinv : GlobalInv P roots mem) (n : ℕ) :
    SubtreeInv P n (inSet kb.network roots n mem) mem := by
  refine ⟨hinv.node n, fun m hm ↦ ?_⟩
  obtain ⟨q, -, hq⟩ := Relation.TransGen.tail'_iff.mp hm
  rw [← inSet_of_edge hinv.roots_left hq]
  exact hinv.node m

/-- A subtree is replaced by one that is right in another phase, where the other nodes are
right as well. -/
theorem GlobalInv.replace {s s' : Session} (hinv : GlobalInv P roots s.mem)
    (heffect : Effect {m | Desc kb.network.LeftEdge n m} s s')
    (hbeta : (kb.network.kind n).isBetaNode = true)
    (hroots : ∀ r ∈ roots', ∀ q, ¬ kb.network.LeftEdge q r)
    (hroots' : ∀ m ≠ n, (m ∈ roots' ↔ m ∈ roots))
    (hright : ∀ m ≠ n, P'.right m = P.right m)
    (hother : ∀ m, ¬ Desc kb.network.LeftEdge n m → ∀ {D mem}, NodeInv P m D mem → NodeInv P' m D mem)
    (hself : SubtreeInv P' n (inSet kb.network roots' n s.mem) s'.mem) :
    GlobalInv P' roots' s'.mem := by
  have hin : ∀ m, ¬ StrictDesc kb.network.LeftEdge n m →
      leftTokens kb.network m s'.mem = leftTokens kb.network m s.mem := by
    intro m hm
    refine leftTokens_congr fun q hq ↦ ?_
    rw [heffect.mem q fun hdesc ↦ hm (Relation.TransGen.tail'_iff.mpr ⟨q, hdesc, hq⟩)]
  refine ⟨hroots, ?_, ?_⟩
  · intro m c hc id
    have hne : m ≠ n := by
      rintro rfl
      simp [hc, NodeKind.isBetaNode] at hbeta
    have hnot : ¬ Desc kb.network.LeftEdge n m := by
      intro hm
      rcases Relation.ReflTransGen.cases_tail hm with rfl | ⟨q, -, hq⟩
      · exact hne rfl
      · rcases hnet.left_child hq with h | ⟨rule, bindings, h⟩
        · simp [hc, NodeKind.isBetaNode] at h
        · simp [hc] at h
    rw [heffect.mem m hnot, hright m hne]
    exact hinv.alpha hc id
  · intro m
    by_cases hm : Desc kb.network.LeftEdge n m
    · rcases Relation.reflTransGen_iff_eq_or_transGen.mp hm with rfl | hm
      · have hD : inSet kb.network roots' m s'.mem = inSet kb.network roots' m s.mem := by
          simp only [inSet, hin m (hnet.left_forest.not_strictDesc_self m)]
        rw [hD]
        exact hself.1
      · obtain ⟨q, -, hq⟩ := Relation.TransGen.tail'_iff.mp hm
        rw [inSet_of_edge hroots hq]
        exact hself.2 m hm
    · have hne : m ≠ n := by
        rintro rfl
        exact hm .refl
      have hD : inSet kb.network roots' m s'.mem = inSet kb.network roots m s.mem := by
        simp only [inSet, hin m fun h ↦ hm h.to_reflTransGen, hroots' m hne]
      rw [hD, heffect.mem m hm]
      exact hother m hm (hinv.node m)

/-! ### The course of a change -/

omit hnet in
/-- The facts each node has on its right before and after the change of one fact. -/
structure FactChange (S : Scene kb) where
  before : ℕ → Set FactPtr
  after : ℕ → Set FactPtr
  before_subset : ∀ n, before n ⊆ S.facts
  after_subset : ∀ n, after n ⊆ S.facts
  same : ∀ n, ∀ f ≠ S.changed, (f ∈ after n ↔ f ∈ before n)

namespace FactChange

omit hnet

variable (C : FactChange S)

/-- The phase in which the nodes of a set are pending. -/
def phase (pending : Set ℕ) : Phase S where
  right m := {f | (m ∈ pending → f ∈ C.before m) ∧ (m ∉ pending → f ∈ C.after m)}
  right_subset m f hf := by
    by_cases hm : m ∈ pending
    · exact C.before_subset m (hf.1 hm)
    · exact C.after_subset m (hf.2 hm)
  pending := pending

variable {C} {Q Q' : Set ℕ} {m : ℕ}

theorem right_of_mem (hm : m ∈ Q) : (C.phase Q).right m = C.before m := by
  ext f
  simp [phase, hm]

theorem right_of_not_mem (hm : m ∉ Q) : (C.phase Q).right m = C.after m := by
  ext f
  simp [phase, hm]

theorem right_congr (hm : m ∈ Q' ↔ m ∈ Q) : (C.phase Q').right m = (C.phase Q).right m := by
  ext f
  simp [phase, hm]

theorem advances (hn : n ∈ Q) : Advances (C.phase Q) (C.phase (Q \ {n})) n where
  pending := rfl
  right_other m hm := right_congr (by simp [hm])
  right_self f hf := by
    rw [right_of_not_mem (by simp), right_of_mem hn]
    exact C.same n f hf

/-- A node that the changed fact does not reach has the same facts all along. -/
theorem before_eq_after (hb : S.changed ∉ C.before m) (ha : S.changed ∉ C.after m) :
    C.before m = C.after m := by
  ext f
  by_cases hf : f = S.changed
  · subst hf
    exact iff_of_false hb ha
  · exact (C.same m f hf).symm

end FactChange

variable {C : FactChange S} {Q Q' : Set ℕ}

/-- Nodes that the changed fact does not reach need no activation. -/
theorem GlobalInv.skip (hinv : GlobalInv (C.phase Q) roots mem) (hsub : Q' ⊆ Q)
    (hskip : ∀ m ∈ Q \ Q', S.changed ∉ C.before m ∧ S.changed ∉ C.after m) :
    GlobalInv (C.phase Q') roots mem := by
  have hright : ∀ m, (C.phase Q').right m = (C.phase Q).right m := by
    intro m
    by_cases hm : m ∈ Q \ Q'
    · rw [FactChange.right_of_mem hm.1, FactChange.right_of_not_mem hm.2]
      exact (FactChange.before_eq_after (hskip m hm).1 (hskip m hm).2).symm
    · refine FactChange.right_congr ⟨fun h ↦ hsub h, fun h ↦ ?_⟩
      by_contra hnot
      exact hm ⟨h, hnot⟩
  have hstale : ∀ m, StaysStale (C.phase Q) (C.phase Q') m (inSet kb.network roots m mem) := by
    intro m
    induction m using Nat.strong_induction_on with
    | _ m ih =>
      by_cases hparent : ∃ q, kb.network.LeftEdge q m
      · obtain ⟨q, hq⟩ := hparent
        rw [inSet_of_edge hinv.roots_left hq, leftTokens_of_edge hnet hq]
        refine (ih q (hnet.left_forest.parent_lt hq)).child hnet hq (hinv.node q) ?_
        intro hjoin hpending
        change q ∈ Q at hpending
        by_cases hq' : q ∈ Q'
        · exact .inl hq'
        · refine .inr fun a w hmem ↦ ?_
          obtain ⟨_, _, f, heq, -, hf⟩ := (hinv.node q).outSet_join hjoin hmem
          cases heq
          rw [FactChange.right_of_mem hpending] at hf
          exact (hskip q ⟨hpending, hq'⟩).1 hf
      · intro x _ hx
        cases hx with
        | changed hedge => exact absurd ⟨_, hedge⟩ hparent
        | join hedge => exact absurd ⟨_, hedge⟩ hparent
        | condition hedge => exact absurd ⟨_, hedge⟩ hparent
  refine ⟨hinv.roots_left, ?_, fun m ↦ (hinv.node m).shrink (hright m) (hstale m) ?_⟩
  · intro m c hc id
    rw [hright m]
    exact hinv.alpha hc id
  · intro hm hp
    change m ∈ Q at hm
    by_contra hm'
    rw [FactChange.right_of_mem hm] at hp
    exact (hskip m ⟨hm, hm'⟩).1 hp

/-- The right activation of a join or condition node takes it off the pending ones. -/
theorem GlobalInv.betaRightActivate (hinv : GlobalInv (C.phase Q) roots s.mem)
    (hbase : s.base = S.base) (hbeta : (kb.network.kind n).isBetaNode = true) (hn : n ∈ Q)
    (hchange : Change S.changed (C.before n) (C.after n) type) :
    let s' := RulesForge.betaRightActivate kb S.logicalRetract n S.changed type s
    GlobalInv (C.phase (Q \ {n})) roots s'.mem ∧ s'.base = S.base := by
  have hadvances := FactChange.advances (C := C) hn
  obtain ⟨hself, heffect⟩ := betaRightActivate_spec hnet hadvances hbeta
    (by rwa [FactChange.right_of_mem hn, FactChange.right_of_not_mem (by simp)]) hbase
    (hinv.subtree n)
  refine ⟨hinv.replace hnet heffect hbeta hinv.roots_left (fun _ _ ↦ Iff.rfl)
    hadvances.right_other ?_ hself, heffect.base.trans hbase⟩
  intro m hm D mem hnode
  have hne : m ≠ n := by
    rintro rfl
    exact hm .refl
  refine hnode.shrink (hadvances.right_other m hne) (fun x _ hx ↦ ?_)
    fun h _ ↦ (hadvances.mem_pending hne).mpr h
  exact (hadvances.stale_iff (fun h ↦ hm h.to_reflTransGen) x).mpr hx

/-! ### Alpha nodes -/

omit hnet in
/-- How the changed fact passes through entry points and alpha nodes, before and after. -/
structure FactChange.AlphaSpec (C : FactChange S) : Prop where
  alpha_after : ∀ {q n c}, kb.network.RightEdge q n → kb.network.kind n = .alpha c →
    (S.changed ∈ C.after n ↔ S.changed ∈ C.after q ∧
      checkConstraint kb.runtime S.base.heap c S.changed = true)
  alpha_before : ∀ {q n c}, kb.network.RightEdge q n → kb.network.kind n = .alpha c →
    S.changed ∈ C.before n → S.changed ∈ C.before q
  unaffected : ∀ {q n c}, kb.network.RightEdge q n → kb.network.kind n = .alpha c →
    alphaConstraintAffected c S.base.currentModifiedFields = false →
      S.changed ∈ C.before q → S.changed ∈ C.after q →
        (S.changed ∈ C.before n ↔ S.changed ∈ C.after n)
  beta_before : ∀ {q n}, kb.network.RightEdge q n → (kb.network.kind n).isBetaNode = true →
    (S.changed ∈ C.before n ↔ S.changed ∈ C.before q)
  beta_after : ∀ {q n}, kb.network.RightEdge q n → (kb.network.kind n).isBetaNode = true →
    (S.changed ∈ C.after n ↔ S.changed ∈ C.after q)

/-- What the changed fact reaches lies below what it passes. -/
theorem FactChange.AlphaSpec.reaches (hC : C.AlphaSpec) {q m : ℕ}
    (hm : Desc kb.network.RightEdge q m) :
    (S.changed ∈ C.before m → S.changed ∈ C.before q) ∧
      (S.changed ∈ C.after m → S.changed ∈ C.after q) := by
  induction hm with
  | refl => exact ⟨fun h ↦ h, fun h ↦ h⟩
  | tail _ hedge ih =>
    rcases hnet.right_child hedge with hbeta | ⟨c, hc⟩
    · exact ⟨fun h ↦ ih.1 ((hC.beta_before hedge hbeta).mp h),
        fun h ↦ ih.2 ((hC.beta_after hedge hbeta).mp h)⟩
    · exact ⟨fun h ↦ ih.1 (hC.alpha_before hedge hc h),
        fun h ↦ ih.2 ((hC.alpha_after hedge hc).mp h).1⟩

omit hnet in
/-- An alpha node brings its passing set up to date, and tells its children what the change is
for them. -/
theorem alphaStep_spec (hC : C.AlphaSpec) {q n : ℕ} {c : ParsedConstraint}
    (hedge : kb.network.RightEdge q n) (hkind : kb.network.kind n = .alpha c)
    (hbase : s.base = S.base)
    (hchange : Change S.changed (C.before q) (C.after q) type) {passing : List ℤ}
    (hpassing : ∀ id, id ∈ passing ↔ ∃ f ∈ C.before n, id = (S.base.heap f).id) :
    let result := alphaStep kb c passing S.changed type s
    (∀ id, id ∈ result.1 ↔ ∃ f ∈ C.after n, id = (S.base.heap f).id) ∧
      match result.2 with
      | none => S.changed ∉ C.before n ∧ S.changed ∉ C.after n
      | some next => Change S.changed (C.before n) (C.after n) next ∧
          (next = .modify → type = .modify) := by
  have hheap : s.heap = S.base.heap := by
    rw [← hbase]
    rfl
  have hhint : s.currentModifiedFields = S.base.currentModifiedFields := by
    rw [← hbase]
    rfl
  have hchanged : S.changed ∈ S.facts := hchange.mem (C.before_subset q) (C.after_subset q)
  rw [← hheap] at hpassing ⊢
  refine alphaStep_change (C.same n) (hC.alpha_before hedge hkind) ?_ ?_ ?_ hchange hpassing
  · rw [hheap]
    exact hC.alpha_after hedge hkind
  · intro hmodify haffected
    rw [hhint] at haffected
    subst hmodify
    cases hchange with
    | modify hq hq' => exact (hC.unaffected hedge hkind haffected hq hq').symm
  · intro g hg hid
    rw [hheap] at hid
    exact S.id_injOn (C.before_subset n hg) hchanged hid

omit hnet in
theorem outSet_updatePassing (passing : List ℤ) (q : ℕ) :
    outSet kb.network q ((RulesForge.updatePassing n (fun _ ↦ passing) s).mem q) =
      outSet kb.network q (s.mem q) := by
  by_cases hq : q = n
  · subst hq
    simp [outSet, RulesForge.updatePassing]
  · simp [RulesForge.updatePassing, hq]

omit hnet in
/-- An alpha node whose passing set is up to date is no longer pending. -/
theorem GlobalInv.updatePassing (hinv : GlobalInv (C.phase Q) roots s.mem)
    {c : ParsedConstraint} (hkind : kb.network.kind n = .alpha c) {passing : List ℤ}
    (hpassing : ∀ id, id ∈ passing ↔ ∃ f ∈ C.after n, id = (S.base.heap f).id) :
    GlobalInv (C.phase (Q \ {n})) roots (RulesForge.updatePassing n (fun _ ↦ passing) s).mem := by
  have hin : ∀ m, inSet kb.network roots m (RulesForge.updatePassing n (fun _ ↦ passing) s).mem =
      inSet kb.network roots m s.mem := by
    intro m
    unfold inSet
    rw [leftTokens_congr fun q _ ↦ outSet_updatePassing passing q]
  have hother : ∀ m ≠ n, (RulesForge.updatePassing n (fun _ ↦ passing) s).mem m = s.mem m :=
    fun m hm ↦ s.updateMem_mem_ne hm _
  refine ⟨hinv.roots_left, ?_, fun m ↦ ?_⟩
  · intro m c' hc' id
    by_cases hm : m = n
    · subst hm
      simpa [RulesForge.updatePassing, FactChange.right_of_not_mem] using hpassing id
    · rw [hother m hm, FactChange.right_congr (Q := Q) (by simp [hm])]
      exact hinv.alpha hc' id
  · rw [hin]
    by_cases hm : m = n
    · subst hm
      exact ⟨(hinv.node m).1, by simp only [hkind]⟩
    · rw [hother m hm]
      refine (hinv.node m).shrink (FactChange.right_congr (by simp [hm])) ?_ fun h _ ↦ ⟨h, hm⟩
      intro x _ hx
      refine hx.mono fun q hq hpending ↦ ⟨hpending, ?_⟩
      rintro rfl
      obtain ⟨_, hedge, -⟩ := strictDesc_iff.mp hq
      simpa [hkind, NodeKind.isBetaNode] using hedge.2

/-! ### Through the alpha network -/

omit hnet in
/-- Nothing lies to the right below a join or condition node. -/
theorem rightDesc_of_beta {n : ℕ} (hbeta : (kb.network.kind n).isBetaNode = true) :
    {m | Desc kb.network.RightEdge n m} = {n} := by
  ext m
  rw [Set.mem_ofPred_eq, desc_iff]
  simp [CompiledNetwork.RightEdge, hbeta]

omit hnet in
/-- Below an entry point or alpha node are the node and what is below its children. -/
theorem rightDesc_iff {n m : ℕ} (hbeta : (kb.network.kind n).isBetaNode = false) :
    Desc kb.network.RightEdge n m ↔
      m = n ∨ ∃ c ∈ kb.network.children n, Desc kb.network.RightEdge c m := by
  rw [desc_iff]
  simp [CompiledNetwork.RightEdge, hbeta]

omit hnet in
theorem sdiff_rightDesc (Q : Set ℕ) {n : ℕ} (hbeta : (kb.network.kind n).isBetaNode = false) :
    Q \ {m | Desc kb.network.RightEdge n m} = (Q \ {n}) \
      {m | ∃ c ∈ kb.network.children n, Desc kb.network.RightEdge c m} := by
  ext m
  simp only [Set.mem_sdiff, Set.mem_ofPred_eq, Set.mem_singleton_iff, rightDesc_iff hbeta]
  grind

/-- The children of a node that has had its turn are still to come. -/
theorem rightDesc_children {Q : Set ℕ} {n : ℕ} (hbeta : (kb.network.kind n).isBetaNode = false)
    (hQ : ∀ m, Desc kb.network.RightEdge n m → m ∈ Q) :
    ∀ c ∈ kb.network.children n, ∀ m, Desc kb.network.RightEdge c m → m ∈ Q \ {n} := by
  intro c hc m hm
  refine ⟨hQ m ((rightDesc_iff hbeta).mpr (.inr ⟨c, hc, hm⟩)), ?_⟩
  rintro rfl
  exact hnet.right_forest.not_strictDesc_self m (strictDesc_iff.mpr ⟨c, ⟨hc, hbeta⟩, hm⟩)

/-- What a right activation does to a node and everything to the right below it. -/
def RightSpec (C : FactChange S) (roots : Set ℕ) (levels n : ℕ) : Prop :=
  ∀ (q : ℕ) (type : PropagationType) (Q : Set ℕ) (s : Session), kb.network.RightEdge q n →
    Change S.changed (C.before q) (C.after q) type →
    (∀ m, Desc kb.network.RightEdge n m → m ∈ Q) → s.base = S.base →
    GlobalInv (C.phase Q) roots s.mem →
    let s' := rightActivate kb S.logicalRetract levels n S.changed type s
    GlobalInv (C.phase (Q \ {m | Desc kb.network.RightEdge n m})) roots s'.mem ∧ s'.base = S.base

/-- Activating the children of an entry point or alpha node in turn. -/
theorem foldl_rightActivate {levels q : ℕ}
    (hspec : ∀ c, kb.network.RightEdge q c → RightSpec C roots levels c)
    (hchange : Change S.changed (C.before q) (C.after q) type) (l : List ℕ) (hnodup : l.Nodup)
    (hl : ∀ c ∈ l, kb.network.RightEdge q c)
    (hQ : ∀ c ∈ l, ∀ m, Desc kb.network.RightEdge c m → m ∈ Q)
    (hbase : s.base = S.base) (hinv : GlobalInv (C.phase Q) roots s.mem) :
    let s' := l.foldl (fun s c ↦ rightActivate kb S.logicalRetract levels c S.changed type s) s
    GlobalInv (C.phase (Q \ {m | ∃ c ∈ l, Desc kb.network.RightEdge c m})) roots s'.mem ∧
      s'.base = S.base := by
  induction l generalizing Q s with
  | nil => simpa using ⟨hinv, hbase⟩
  | cons c l ih =>
    obtain ⟨hnotin, hnodup⟩ := List.nodup_cons.mp hnodup
    have hc := hl c List.mem_cons_self
    obtain ⟨hinv₁, hbase₁⟩ := hspec c hc q type Q s hc hchange (hQ c List.mem_cons_self) hbase hinv
    have hQ' : ∀ c' ∈ l, ∀ m, Desc kb.network.RightEdge c' m →
        m ∈ Q \ {m | Desc kb.network.RightEdge c m} :=
      fun c' hc' m hm ↦ ⟨hQ c' (List.mem_cons_of_mem _ hc') m hm,
        hnet.right_forest.not_desc_first hnotin hl hc' hm⟩
    obtain ⟨hinv₂, hbase₂⟩ := ih hnodup (fun c' hc' ↦ hl c' (List.mem_cons_of_mem _ hc')) hQ'
      hbase₁ hinv₁
    rw [List.foldl_cons, sdiff_desc_cons]
    exact ⟨hinv₂, hbase₂⟩

/-- A right activation keeps the invariant and leaves no node below pending. -/
theorem rightActivate_spec (hC : C.AlphaSpec) (levels n : ℕ)
    (hlevels : kb.network.nodes.length ≤ levels + n) : RightSpec C roots levels n := by
  induction levels generalizing n with
  | zero =>
    intro q type Q s hedge
    have := hnet.children_lt hedge.1
    omega
  | succ levels ih =>
    intro q type Q s hedge hchange hQ hbase hinv
    have hchildren : ∀ c, kb.network.RightEdge n c → RightSpec C roots levels c := by
      intro c hc
      have := hnet.right_forest.parent_lt hc
      exact ih c (by omega)
    rcases hnet.right_child hedge with hbeta | ⟨c, hkind⟩
    · -- A join or condition node: nothing lies to the right below it.
      have hresult : rightActivate kb S.logicalRetract (levels + 1) n S.changed type s =
          RulesForge.betaRightActivate kb S.logicalRetract n S.changed type s := by
        cases hkind : kb.network.kind n with
        | entryPoint => simp [hkind, NodeKind.isBetaNode] at hbeta
        | alpha c => simp [hkind, NodeKind.isBetaNode] at hbeta
        | _ => simp only [rightActivate, hkind]
      have hb := hC.beta_before hedge hbeta
      have ha := hC.beta_after hedge hbeta
      have hchange' : Change S.changed (C.before n) (C.after n) type := by
        cases hchange with
        | assert h h' => exact .assert (hb.not.mpr h) (ha.mpr h')
        | retract h h' => exact .retract (hb.mpr h) (ha.not.mpr h')
        | modify h h' => exact .modify (hb.mpr h) (ha.mpr h')
      rw [hresult, rightDesc_of_beta hbeta]
      exact hinv.betaRightActivate hnet hbase hbeta (hQ n .refl) hchange'
    · have hn : n ∈ Q := hQ n .refl
      have hbeta : (kb.network.kind n).isBetaNode = false := by rw [hkind]; rfl
      have hpassing := hinv.alpha hkind
      rw [FactChange.right_of_mem hn] at hpassing
      obtain ⟨hpassing', hnext⟩ := alphaStep_spec hC hedge hkind hbase hchange hpassing
      have hinv₁ := hinv.updatePassing hkind hpassing'
      simp only [rightActivate, hkind]
      generalize hstep : alphaStep kb c (s.mem n).passingFacts S.changed type s = step at *
      obtain ⟨passing, next⟩ := step
      cases next with
      | none =>
        refine ⟨?_, hbase⟩
        rw [sdiff_rightDesc Q hbeta]
        refine hinv₁.skip hnet Set.sdiff_subset fun m hm ↦ ?_
        obtain ⟨hm, hnot⟩ := hm
        have hbelow : Desc kb.network.RightEdge n m := by
          by_contra hno
          refine hnot ⟨hm, ?_⟩
          rintro ⟨c, hc, hcm⟩
          exact hno ((rightDesc_iff hbeta).mpr (.inr ⟨c, hc, hcm⟩))
        exact ⟨fun h ↦ hnext.1 ((hC.reaches hnet hbelow).1 h),
          fun h ↦ hnext.2 ((hC.reaches hnet hbelow).2 h)⟩
      | some type' =>
        rw [sdiff_rightDesc Q hbeta]
        exact foldl_rightActivate hnet hchildren hnext.1 (kb.network.children n)
          (hnet.children_nodup n) (fun c hc ↦ ⟨hc, hbeta⟩) (rightDesc_children hnet hbeta hQ) hbase
          hinv₁

/-- The entry point of the changed fact is activated: no node is pending any more. -/
theorem rightActivate_entryPoint (hC : C.AlphaSpec) {entry : ℕ}
    (hentry : kb.network.kind entry = .entryPoint)
    (hchange : Change S.changed (C.before entry) (C.after entry) type)
    (hQ : ∀ m, StrictDesc kb.network.RightEdge entry m → m ∈ Q)
    (hreach : ∀ m ∈ Q, ¬ StrictDesc kb.network.RightEdge entry m →
      S.changed ∉ C.before m ∧ S.changed ∉ C.after m)
    (hbase : s.base = S.base) (hinv : GlobalInv (C.phase Q) roots s.mem) :
    let s' := rightActivate kb S.logicalRetract (kb.network.nodes.length + 1) entry S.changed type s
    GlobalInv (C.phase ∅) roots s'.mem ∧ s'.base = S.base := by
  have hbeta : (kb.network.kind entry).isBetaNode = false := by rw [hentry]; rfl
  have hdesc : ∀ m, StrictDesc kb.network.RightEdge entry m ↔
      ∃ c ∈ kb.network.children entry, Desc kb.network.RightEdge c m := by
    intro m
    rw [strictDesc_iff]
    simp [CompiledNetwork.RightEdge, hbeta]
  obtain ⟨hinv', hbase'⟩ := foldl_rightActivate hnet
    (fun c _ ↦ rightActivate_spec hnet hC kb.network.nodes.length c (by omega)) hchange
    (kb.network.children entry) (hnet.children_nodup entry) (fun c hc ↦ ⟨hc, hbeta⟩)
    (fun c hc m hm ↦ hQ m ((hdesc m).mpr ⟨c, hc, hm⟩)) hbase hinv
  simp only [rightActivate, hentry]
  refine ⟨hinv'.skip hnet (Set.empty_subset _) fun m hm ↦ ?_, hbase'⟩
  exact hreach m hm.1.1 fun h ↦ hm.1.2 ((hdesc m).mp h)

end RulesForge
