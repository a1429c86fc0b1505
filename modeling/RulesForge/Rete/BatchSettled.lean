import RulesForge.Rete.BatchActivation
import RulesForge.Rete.BatchInsertion
import RulesForge.Rete.Settled

/-!
# Batches and settled networks

A batch of new facts enters a settled network at the entry point of its type. The alpha nodes hand
one vector of facts from child to child, and each takes out what it refuses; the joins and
conditions below them get what is left when their turn comes.

When the batch **spares** its facts (`AlphaNetwork.Spares`) every node gets all the facts that pass
it, and the network is settled again with the whole batch in working memory
(`rightActivateBatch_settled`). The nodes have their turns one after the other: `batchPhase` is the
moment at which those of a set have not had theirs.
-/

namespace RulesForge

open Forest

variable {kb : KnowledgeBase} {source : FactPtr → Option String} {roots : Set ℕ}
  {facts : Set FactPtr} {batch : List FactPtr}

/-! ### The course of a batch -/

section Phases

variable {S : Scene kb}

/-- The nodes of a set have the facts of before on their right, the others those of the batch as
well. -/
def batchPhase (S : Scene kb) (source : FactPtr → Option String) (hfacts : facts ⊆ S.facts)
    (hbatch : ∀ f ∈ batch, f ∈ S.facts) (Q : Set ℕ) : Phase S where
  right n := rightFacts kb S.base.heap source (facts ∪ {f | f ∈ batch ∧ n ∉ Q}) n
  right_subset n := by
    rintro f ⟨hf | hf, -⟩
    · exact hfacts hf
    · exact hbatch f hf.1
  pending := ∅

variable {hfacts : facts ⊆ S.facts} {hbatch : ∀ f ∈ batch, f ∈ S.facts} {Q Q' : Set ℕ} {n : ℕ}

theorem mem_batchPhase_right {f : FactPtr} :
    f ∈ (batchPhase S source hfacts hbatch Q).right n ↔
      (f ∈ facts ∨ f ∈ batch ∧ n ∉ Q) ∧ Passes kb S.base.heap source f n := Iff.rfl

theorem batchPhase_right_congr (h : n ∈ Q' ↔ n ∈ Q) :
    (batchPhase S source hfacts hbatch Q').right n =
      (batchPhase S source hfacts hbatch Q).right n := by
  ext f
  rw [mem_batchPhase_right, mem_batchPhase_right, h]

/-- A node that no fact of the batch passes needs no turn. -/
theorem batchPhase_right_of_not_passes (h : ∀ f ∈ batch, ¬ Passes kb S.base.heap source f n) :
    (batchPhase S source hfacts hbatch Q').right n =
      (batchPhase S source hfacts hbatch Q).right n := by
  ext f
  rw [mem_batchPhase_right, mem_batchPhase_right]
  refine and_congr_left fun hpass ↦ or_congr_right ?_
  exact ⟨fun hf ↦ absurd hpass (h f hf.1), fun hf ↦ absurd hpass (h f hf.1)⟩

/-- A memory that is right in one phase is right in another with the same facts on its right. -/
theorem NodeInv.of_right {P P' : Phase S} {D : Set TokenWME} {mem : NodeMemory}
    (h : NodeInv P n D mem) (hright : P'.right n = P.right n) (hpending : P'.pending = P.pending) :
    NodeInv P' n D mem :=
  h.shrink hright (fun _ _ hstale ↦ hpending ▸ hstale) fun hn _ ↦ hpending ▸ hn

theorem GlobalInv.of_right {P P' : Phase S} {mem : ℕ → NodeMemory} (h : GlobalInv P roots mem)
    (hright : ∀ n, P'.right n = P.right n) (hpending : P'.pending = P.pending) :
    GlobalInv P' roots mem where
  roots_left := h.roots_left
  alpha hkind := by
    rw [hright]
    exact h.alpha hkind
  node n := (h.node n).of_right (hright n) hpending

/-- A settled network, seen as a phase in which no node is pending. Entry points have no memory. -/
theorem Settled.globalInv {P : Phase S} {mem : ℕ → NodeMemory}
    (h : Settled kb S.base source facts roots mem) (hfacts : facts ⊆ S.facts)
    (hpending : P.pending = ∅)
    (hright : ∀ n, kb.network.kind n ≠ .entryPoint →
      P.right n = rightFacts kb S.base.heap source facts n) : GlobalInv P roots mem := by
  refine ⟨h.roots_left, fun {n c} hkind id ↦ ?_, fun n ↦ ?_⟩
  · rw [hright n (by simp [hkind])]
    exact h.alpha hkind id
  · obtain ⟨hD, hnode⟩ := h.node n
    have hstale : Stale kb.network S.changed P.pending n = fun _ ↦ False := by
      ext w
      rw [hpending]
      exact iff_false_intro not_stale_of_empty
    have hpend : (fun f ↦ f = S.changed ∧ n ∈ P.pending) = fun _ ↦ False := by
      simp only [hpending, Set.mem_empty_iff_false, and_false]
    refine ⟨fun w hw f hf ↦ hfacts (hD w hw f hf), ?_⟩
    rw [hstale, hpend]
    cases hkind : kb.network.kind n with
    | entryPoint => trivial
    | alpha c => trivial
    | tokenNode node => trivial
    | _ =>
      rw [hright n (by simp [hkind])]
      simpa only [hkind] using hnode

end Phases

/-! ### One node -/

section Nodes

variable {S : Scene kb} {hfacts : facts ⊆ S.facts} {hbatch : ∀ f ∈ batch, f ∈ S.facts} {Q : Set ℕ}
  {n : ℕ} (hnet : kb.network.WellFormed)
include hnet

/-- A join or condition node has its turn. -/
theorem GlobalInv.betaRightActivateBatch {s : Session} {vec : List FactPtr}
    (hinv : GlobalInv (batchPhase S source hfacts hbatch Q) roots s.mem) (hbase : s.base = S.base)
    (hbeta : (kb.network.kind n).isBetaNode = true) (hn : n ∈ Q) (hnodup : vec.Nodup)
    (hvec : ∀ f, f ∈ vec ↔ f ∈ batch ∧ Passes kb S.base.heap source f n)
    (hnew : ∀ f ∈ batch, f ∉ facts) :
    let s' := RulesForge.betaRightActivateBatch kb S.logicalRetract n vec s
    GlobalInv (batchPhase S source hfacts hbatch (Q \ {n})) roots s'.mem ∧ s'.base = S.base := by
  have hother : ∀ m ≠ n, (batchPhase S source hfacts hbatch (Q \ {n})).right m =
      (batchPhase S source hfacts hbatch Q).right m :=
    fun m hm ↦ batchPhase_right_congr (by simp [hm])
  have hself : (batchPhase S source hfacts hbatch (Q \ {n})).right n =
      (batchPhase S source hfacts hbatch Q).right n ∪ {f | f ∈ vec} := by
    ext f
    rw [Set.mem_union, mem_batchPhase_right, mem_batchPhase_right, Set.mem_ofPred_eq, hvec]
    simp only [hn, Set.mem_sdiff, Set.mem_singleton_iff, not_true_eq_false, and_false,
      not_false_eq_true, and_true, or_false, or_and_right]
  have hfresh : ∀ f ∈ vec, f ∉ (batchPhase S source hfacts hbatch Q).right n := by
    rintro f hf ⟨hmem | hmem, -⟩
    · exact hnew f ((hvec f).mp hf).1 hmem
    · exact hmem.2 hn
  have hpending : (batchPhase S source hfacts hbatch (Q \ {n})).pending =
      (batchPhase S source hfacts hbatch Q).pending := rfl
  obtain ⟨hsubtree, heffect⟩ := betaRightActivateBatch_spec hnet hbeta hpending hother hself hnodup
    hfresh hbase (hinv.subtree n)
  refine ⟨hinv.replace hnet heffect hbeta hinv.roots_left (fun _ _ ↦ Iff.rfl) hother ?_ hsubtree,
    heffect.base.trans hbase⟩
  intro m hm D mem hnode
  refine hnode.of_right (hother m ?_) rfl
  rintro rfl
  exact hm .refl

omit hnet in
/-- The passing set of an alpha node takes up the facts of a batch. -/
theorem mem_foldl_insert (ids : FactPtr → ℤ) (vec : List FactPtr) (passing : List ℤ) (id : ℤ) :
    id ∈ vec.foldl (fun passing f ↦ passing.insert (ids f)) passing ↔
      id ∈ passing ∨ ∃ f ∈ vec, id = ids f := by
  induction vec generalizing passing with
  | nil => simp
  | cons f vec ih =>
    rw [List.foldl_cons, ih, List.mem_insert_iff]
    simp only [List.mem_cons, exists_eq_or_imp]
    tauto

omit hnet in
/-- An alpha node has its turn. -/
theorem GlobalInv.updatePassingBatch {s : Session} {c : ParsedConstraint} {vec : List FactPtr}
    (hinv : GlobalInv (batchPhase S source hfacts hbatch Q) roots s.mem) (hbase : s.base = S.base)
    (hkind : kb.network.kind n = .alpha c) (hn : n ∈ Q)
    (hvec : ∀ f, f ∈ vec ↔ f ∈ batch ∧ Passes kb S.base.heap source f n) :
    GlobalInv (batchPhase S source hfacts hbatch (Q \ {n})) roots
      (RulesForge.updatePassing n (fun passing ↦ vec.foldl (fun passing f ↦
        passing.insert (s.heap f).id) passing) s).mem := by
  have hheap : s.heap = S.base.heap := by
    rw [← hbase]
    rfl
  have hin : ∀ m passing, inSet kb.network roots m
      (RulesForge.updatePassing n (fun _ ↦ passing) s).mem = inSet kb.network roots m s.mem := by
    intro m passing
    rw [inSet, inSet, leftTokens_congr fun q _ ↦ outSet_updatePassing passing q]
  have hconst : ∀ f : List ℤ → List ℤ, RulesForge.updatePassing n f s =
      RulesForge.updatePassing n (fun _ ↦ f (s.mem n).passingFacts) s := fun _ ↦ rfl
  rw [hconst]
  have hother : ∀ passing, ∀ m ≠ n,
      (RulesForge.updatePassing n (fun _ ↦ passing) s).mem m = s.mem m :=
    fun _ m hm ↦ s.updateMem_mem_ne hm _
  refine ⟨hinv.roots_left, fun {m c'} hc' id ↦ ?_, fun m ↦ ?_⟩
  · by_cases hm : m = n
    · subst hm
      have hmem : ∀ passing, ((RulesForge.updatePassing m (fun _ ↦ passing) s).mem m).passingFacts =
          passing := by simp [RulesForge.updatePassing]
      rw [hmem, mem_foldl_insert, hinv.alpha hkind, hheap, ← exists_or]
      refine exists_congr fun f ↦ ?_
      rw [hvec, ← or_and_right, mem_batchPhase_right, mem_batchPhase_right]
      simp only [hn, Set.mem_sdiff, Set.mem_singleton_iff, not_true_eq_false, and_false,
        not_false_eq_true, and_true, or_false, or_and_right]
    · rw [hother _ m hm, batchPhase_right_congr (Q := Q) (by simp [hm])]
      exact hinv.alpha hc' id
  · rw [hin]
    by_cases hm : m = n
    · subst hm
      exact ⟨(hinv.node m).1, by simp only [hkind]⟩
    · rw [hother _ m hm]
      exact (hinv.node m).of_right (batchPhase_right_congr (by simp [hm])) rfl

/-! ### Refused facts -/

open AlphaNetwork

/-- A fact passes no node below one that refuses it. -/
theorem not_passes_of_refuses {heap : Heap} {levels q : ℕ} {f : FactPtr}
    (hedge : kb.network.RightEdge q n) (hlevels : kb.network.nodes.length ≤ levels + n)
    (hrefuses : Refuses kb.network (checkConstraint kb.runtime heap) levels n f) :
    ∀ m, Desc kb.network.RightEdge n m → ¬ Passes kb heap source f m := by
  have hlt := hnet.children_lt hedge.1
  have hself : ¬ Passes kb heap source f n := by
    obtain ⟨levels, rfl⟩ : ∃ k, levels = k + 1 := Nat.exists_eq_succ_of_ne_zero (by omega)
    rw [Refuses, assertOne] at hrefuses
    rcases hnet.right_child hedge with hbeta | ⟨c, hkind⟩
    · cases hkind : kb.network.kind n <;> simp_all [NodeKind.isBetaNode]
    · rw [passes_alpha_iff hnet hedge hkind]
      rintro ⟨-, hcheck⟩
      simp [hkind, hcheck] at hrefuses
  intro m hm
  induction hm with
  | refl => exact hself
  | tail _ hedge' ih =>
    rcases hnet.right_child hedge' with hbeta | ⟨c, hkind⟩
    · rwa [passes_beta_iff hnet hedge' hbeta]
    · exact fun h ↦ ih ((passes_alpha_iff hnet hedge' hkind).mp h).1

/-! ### Through the alpha network -/

/-- The tests of alpha nodes in a scene. -/
abbrev Scene.test (S : Scene kb) : ParsedConstraint → FactPtr → Bool :=
  checkConstraint kb.runtime S.base.heap

/-- What a batch does to a node and everything to the right below it: every fact of the batch that
passes the parent is in the vector or refused, and the batch spares the facts of the vector. -/
def RightBatchSpec (S : Scene kb) (source : FactPtr → Option String) (roots : Set ℕ)
    (hfacts : facts ⊆ S.facts) (hbatch : ∀ f ∈ batch, f ∈ S.facts) (levels n : ℕ) : Prop :=
  ∀ (q : ℕ) (vec : List FactPtr) (Q : Set ℕ) (s : Session), kb.network.RightEdge q n →
    vec.Nodup → (∀ f ∈ vec, f ∈ batch ∧ Passes kb S.base.heap source f q) →
    (∀ f ∈ batch, Passes kb S.base.heap source f q →
      f ∈ vec ∨ Refuses kb.network S.test levels n f) → Spares kb.network S.test levels n vec →
    (∀ m, Desc kb.network.RightEdge n m → m ∈ Q) → s.base = S.base →
    GlobalInv (batchPhase S source hfacts hbatch Q) roots s.mem →
    let r := rightActivateBatch kb S.logicalRetract levels n vec s
    r.1 = remaining kb.network S.test levels n vec ∧
      GlobalInv (batchPhase S source hfacts hbatch (Q \ {m | Desc kb.network.RightEdge n m})) roots
        r.2.mem ∧ r.2.base = S.base

/-- The children of an entry point or alpha node have their turns one after the other. -/
theorem foldl_rightActivateBatch {levels q : ℕ}
    (hspec : ∀ c, kb.network.RightEdge q c →
      RightBatchSpec S source roots hfacts hbatch levels c) (l : List ℕ) (hnodup : l.Nodup)
    (hl : ∀ c ∈ l, kb.network.RightEdge q c) {vec : List FactPtr} (hvecNodup : vec.Nodup)
    (hvec : ∀ f ∈ vec, f ∈ batch ∧ Passes kb S.base.heap source f q)
    (hmiss : ∀ f ∈ batch, Passes kb S.base.heap source f q → f ∈ vec ∨ ∀ c ∈ l,
      Refuses kb.network S.test levels c f)
    (hspares : SparesChildren kb.network S.test levels (Spares kb.network S.test levels) l vec)
    (hQ : ∀ c ∈ l, ∀ m, Desc kb.network.RightEdge c m → m ∈ Q) {s : Session}
    (hbase : s.base = S.base)
    (hinv : GlobalInv (batchPhase S source hfacts hbatch Q) roots s.mem) :
    let r := l.foldl (fun (vec, s) c ↦
      rightActivateBatch kb S.logicalRetract levels c vec s) (vec, s)
    r.1 = (batchChildren (assertBatch kb.network S.test levels) l vec).1 ∧
      GlobalInv (batchPhase S source hfacts hbatch
        (Q \ {m | ∃ c ∈ l, Desc kb.network.RightEdge c m})) roots r.2.mem ∧ r.2.base = S.base := by
  induction l generalizing Q vec s with
  | nil => simpa [batchChildren] using ⟨hinv, hbase⟩
  | cons c l ih =>
    obtain ⟨hnotin, hnodup⟩ := List.nodup_cons.mp hnodup
    obtain ⟨hsparesC, hlater, hsparesL⟩ := hspares
    have hc := hl c List.mem_cons_self
    obtain ⟨hleft, hinv₁, hbase₁⟩ := hspec c hc q vec Q s hc hvecNodup hvec
      (fun f hf hpass ↦ (hmiss f hf hpass).imp_right fun h ↦ h c List.mem_cons_self) hsparesC
      (hQ c List.mem_cons_self) hbase hinv
    obtain ⟨keep, hkeep⟩ := @remaining_filter kb.network S.test levels c vec
    have hQ' : ∀ c' ∈ l, ∀ m, Desc kb.network.RightEdge c' m →
        m ∈ Q \ {m | Desc kb.network.RightEdge c m} :=
      fun c' hc' m hm ↦ ⟨hQ c' (List.mem_cons_of_mem _ hc') m hm,
        hnet.right_forest.not_desc_first hnotin hl hc' hm⟩
    simp only [List.foldl_cons, batchChildren]
    rw [show rightActivateBatch kb S.logicalRetract levels c vec s =
      (remaining kb.network S.test levels c vec,
        (rightActivateBatch kb S.logicalRetract levels c vec s).2) from Prod.ext hleft rfl]
    obtain ⟨hrest, hinv₂, hbase₂⟩ := ih hnodup (fun c' hc' ↦ hl c' (List.mem_cons_of_mem _ hc'))
      (by
        rw [hkeep]
        exact hvecNodup.filter _)
      (fun f hf ↦ hvec f (by
        rw [hkeep] at hf
        exact List.mem_of_mem_filter hf))
      (fun f hf hpass ↦ by
        rcases hmiss f hf hpass with hmem | hrefuses
        · -- what the child has taken out is refused by all that come later
          by_cases hleft : f ∈ remaining kb.network S.test levels c vec
          · exact .inl hleft
          · exact .inr (hlater f hmem hleft)
        · exact .inr fun c' hc' ↦ hrefuses c' (List.mem_cons_of_mem _ hc'))
      hsparesL hQ' hbase₁ hinv₁
    rw [sdiff_desc_cons]
    exact ⟨hrest, hinv₂, hbase₂⟩

/-- **A batch through a node**: when it spares its facts, the node and everything to the right below
it have the facts of the batch that pass them. -/
theorem rightActivateBatch_spec (hbatchNew : ∀ f ∈ batch, f ∉ facts) (levels n : ℕ)
    (hlevels : kb.network.nodes.length ≤ levels + n) :
    RightBatchSpec S source roots hfacts hbatch levels n := by
  induction levels generalizing n with
  | zero =>
    intro q vec Q s hedge
    have := hnet.children_lt hedge.1
    omega
  | succ levels ih =>
    intro q vec Q s hedge hvecNodup hvec hmiss hspares hQ hbase hinv
    have hheap : s.heap = S.base.heap := by
      rw [← hbase]
      rfl
    have hchildren : ∀ c, kb.network.RightEdge n c →
        RightBatchSpec S source roots hfacts hbatch levels c := by
      intro c hc
      have := hnet.right_forest.parent_lt hc
      exact ih c (by omega)
    have hpassing : ∀ f ∈ batch, Passes kb S.base.heap source f n →
        Passes kb S.base.heap source f q → f ∈ vec := by
      intro f hf hpass hpassq
      refine (hmiss f hf hpassq).resolve_right fun hrefuses ↦ ?_
      exact not_passes_of_refuses hnet hedge hlevels hrefuses n .refl hpass
    rcases hnet.right_child hedge with hbeta | ⟨c, hkind⟩
    · -- A join or condition node: nothing lies to the right below it.
      have hresult : rightActivateBatch kb S.logicalRetract (levels + 1) n vec s =
          (vec, RulesForge.betaRightActivateBatch kb S.logicalRetract n vec s) := by
        cases hkind : kb.network.kind n with
        | entryPoint => simp [hkind, NodeKind.isBetaNode] at hbeta
        | alpha c => simp [hkind, NodeKind.isBetaNode] at hbeta
        | _ => simp only [rightActivateBatch, hkind]
      have hremaining : remaining kb.network S.test (levels + 1) n vec = vec := by
        cases hkind : kb.network.kind n with
        | entryPoint => simp [hkind, NodeKind.isBetaNode] at hbeta
        | alpha c => simp [hkind, NodeKind.isBetaNode] at hbeta
        | _ => simp only [remaining, assertBatch, hkind]
      have hiff : ∀ f, f ∈ vec ↔ f ∈ batch ∧ Passes kb S.base.heap source f n := by
        intro f
        have hpass : Passes kb S.base.heap source f n ↔ Passes kb S.base.heap source f q :=
          passes_beta_iff hnet hedge hbeta
        refine ⟨fun hf ↦ ⟨(hvec f hf).1, hpass.mpr (hvec f hf).2⟩, ?_⟩
        exact fun hf ↦ hpassing f hf.1 hf.2 (hpass.mp hf.2)
      rw [hresult, hremaining, rightDesc_of_beta hbeta]
      exact ⟨rfl,
        hinv.betaRightActivateBatch hnet hbase hbeta (hQ n .refl) hvecNodup hiff hbatchNew⟩
    · have hn : n ∈ Q := hQ n .refl
      have hbeta : (kb.network.kind n).isBetaNode = false := by
        rw [hkind]
        rfl
      set survivors := vec.filter (S.test c) with hsurvivors
      have hsurvivorsIff : ∀ f, f ∈ survivors ↔ f ∈ batch ∧ Passes kb S.base.heap source f n := by
        intro f
        rw [hsurvivors, List.mem_filter, passes_alpha_iff hnet hedge hkind]
        constructor
        · exact fun hf ↦ ⟨(hvec f hf.1).1, (hvec f hf.1).2, hf.2⟩
        · rintro ⟨hf, hpassq, hcheck⟩
          exact ⟨hpassing f hf (.alpha hedge hkind hpassq hcheck) hpassq, hcheck⟩
      simp only [rightActivateBatch, remaining, assertBatch, hkind, hheap, ← hsurvivors]
      simp only [Spares, hkind, ← hsurvivors] at hspares
      by_cases hempty : survivors = []
      · simp only [hempty, List.isEmpty_nil, if_true]
        refine ⟨trivial, hinv.of_right (fun m ↦ ?_) rfl, hbase⟩
        by_cases hm : Desc kb.network.RightEdge n m
        · refine batchPhase_right_of_not_passes fun f hf hpass ↦ ?_
          have hpassn : Passes kb S.base.heap source f n := by
            induction hm with
            | refl => exact hpass
            | tail _ hedge' ihm =>
              rcases hnet.right_child hedge' with hbeta' | ⟨c', hkind'⟩
              · exact ihm ((passes_beta_iff hnet hedge' hbeta').mp hpass)
              · exact ihm ((passes_alpha_iff hnet hedge' hkind').mp hpass).1
          have hmem := (hsurvivorsIff f).mpr ⟨hf, hpassn⟩
          rw [hempty] at hmem
          exact List.not_mem_nil hmem
        · exact batchPhase_right_congr (by simp [hm])
      · simp only [List.isEmpty_iff, hempty, if_false]
        have hinv₁ := hinv.updatePassingBatch hbase hkind hn hsurvivorsIff
        simp only [hheap] at hinv₁
        obtain ⟨hleft, hinv₂, hbase₂⟩ := foldl_rightActivateBatch hnet hchildren
          (kb.network.children n) (hnet.children_nodup n) (fun c hc ↦ ⟨hc, hbeta⟩)
          (hvecNodup.filter _) (fun f hf ↦ (hsurvivorsIff f).mp hf)
          (fun f hf hpass ↦ .inl ((hsurvivorsIff f).mpr ⟨hf, hpass⟩)) (hspares hempty)
          (rightDesc_children hnet hbeta hQ)
          (s := RulesForge.updatePassing n (fun passing ↦ survivors.foldl (fun passing f ↦
            passing.insert (S.base.heap f).id) passing) s) hbase hinv₁
        rw [sdiff_rightDesc Q hbeta]
        split
        · exact ⟨hleft, hinv₂, hbase₂⟩
        · exact ⟨rfl, hinv₂, hbase₂⟩

/-- **The entry point of a batch is activated**: when the batch spares its facts, the network is
settled with all of them. -/
theorem rightActivateBatch_settled {e : ℕ} {s : Session} (hfacts : facts ⊆ S.facts)
    (hbatch : ∀ f ∈ batch, f ∈ S.facts) (h : Settled kb S.base source facts roots s.mem)
    (hbase : s.base = S.base) (hnew : ∀ f ∈ batch, f ∉ facts) (hnodup : batch.Nodup)
    (hentry : ∀ f ∈ batch, kb.network.entry (source f) (S.base.heap f).type = some e)
    (hkind : kb.network.kind e = .entryPoint)
    (hspares : Spares kb.network S.test
      (kb.network.nodes.length + 1) e batch) :
    let s' := (rightActivateBatch kb S.logicalRetract (kb.network.nodes.length + 1) e batch s).2
    Settled kb S.base source (facts ∪ {f | f ∈ batch}) roots s'.mem ∧ s'.base = S.base := by
  have hbeta : (kb.network.kind e).isBetaNode = false := by
    rw [hkind]
    rfl
  have hbefore : GlobalInv (batchPhase S source hfacts hbatch {n | kb.network.kind n ≠ .entryPoint})
      roots s.mem := by
    refine h.globalInv hfacts rfl fun n hn ↦ ?_
    ext f
    rw [mem_batchPhase_right]
    simp only [Set.mem_ofPred_eq, hn, ne_eq, not_false_eq_true, not_true_eq_false, and_false,
      or_false]
    rfl
  simp only [Spares, hkind] at hspares
  obtain ⟨-, hinv, hbase'⟩ := foldl_rightActivateBatch hnet
    (fun c _ ↦ rightActivateBatch_spec hnet hnew kb.network.nodes.length c (by omega))
    (kb.network.children e) (hnet.children_nodup e) (fun c hc ↦ ⟨hc, hbeta⟩) hnodup
    (fun f hf ↦ ⟨hf, .entry (hentry f hf)⟩) (fun f hf _ ↦ .inl hf) hspares
    (fun c hc m hm ↦ by
      obtain hbeta' | ⟨c', hc'⟩ : (kb.network.kind m).isBetaNode = true ∨
          ∃ c, kb.network.kind m = .alpha c := by
        rcases Relation.ReflTransGen.cases_tail hm with rfl | ⟨q, -, hq⟩
        · exact hnet.right_child ⟨hc, hbeta⟩
        · exact hnet.right_child hq
      · exact fun hk ↦ by simp [hk, NodeKind.isBetaNode] at hbeta'
      · exact fun hk ↦ by simp [hk] at hc')
    hbase hbefore
  simp only [rightActivateBatch, hkind]
  refine ⟨hinv.settled hnet rfl fun n ↦ ?_, hbase'⟩
  -- A node that has had no turn is no entry point, and not below the one of the batch.
  ext f
  rw [mem_batchPhase_right]
  refine and_congr_left fun hpass ↦ or_congr_right ⟨fun hf ↦ hf.1, fun hf ↦ ⟨hf, ?_⟩⟩
  rintro ⟨hn, hnot⟩
  obtain ⟨e', he', hdesc⟩ := hpass.exists_entry
  obtain rfl : e = e' := Option.some_injective _ ((hentry f hf).symm.trans he')
  rcases Relation.ReflTransGen.cases_head hdesc with rfl | ⟨c, hc, hcn⟩
  · exact hn hkind
  · exact hnot ⟨c, hc.1, hcn⟩

end Nodes

/-! ### Facts that no pattern asks for -/

/-- Facts without an entry point make no difference to a settled network. -/
theorem Settled.addIdle {base : Session} {mem : ℕ → NodeMemory}
    (h : Settled kb base source facts roots mem)
    (hentry : ∀ f ∈ batch, kb.network.entry (source f) (base.heap f).type = none) :
    Settled kb base source (facts ∪ {f | f ∈ batch}) roots mem := by
  have hright : ∀ n, rightFacts kb base.heap source (facts ∪ {f | f ∈ batch}) n =
      rightFacts kb base.heap source facts n := by
    intro n
    ext f
    refine and_congr_left fun hpass ↦ or_iff_left fun hf ↦ ?_
    obtain ⟨e, he, -⟩ := hpass.exists_entry
    rw [hentry f hf] at he
    exact absurd he nofun
  refine ⟨h.roots_left, fun hkind id ↦ ?_, fun n ↦ ?_⟩
  · rw [hright]
    exact h.alpha hkind id
  · rw [hright]
    exact (h.node n).imp (fun hD w hw f hf ↦ .inl (hD w hw f hf)) id

end RulesForge
