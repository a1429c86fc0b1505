import RulesForge.Engine.Session
import RulesForge.Rete.RightActivation

/-!
# Settled networks

Between two operations no change is under way, and every memory is exact: an alpha node holds
the facts that pass it, a join the pairs that pass its test, a condition the matches of every
token. `Settled` says so, for a set of facts in working memory.

When a fact is added, removed or modified, the memories are those of before while the facts
are already those of now. If the other facts read the same (`SameTests`), and no hashed join
has an entry of the changed fact under a key that is no longer its own (`KeysKept`), the
network is in the first phase of the change, and `activateEntryPoint_settled` takes it through
to the last: it is settled again.
-/

namespace RulesForge

open Forest

/-! ### The facts that reach a node -/

/-- A fact enters at the entry point of its type and passes the alpha nodes whose test it
meets. -/
inductive Passes (kb : KnowledgeBase) (heap : Heap) (source : FactPtr → Option String)
    (f : FactPtr) : ℕ → Prop
  | entry {n} : kb.network.entry (source f) (heap f).type = some n → Passes kb heap source f n
  | alpha {q n c} : kb.network.RightEdge q n → kb.network.kind n = .alpha c →
      Passes kb heap source f q → checkConstraint kb.runtime heap c f = true →
      Passes kb heap source f n
  | beta {q n} : kb.network.RightEdge q n → (kb.network.kind n).isBetaNode = true →
      Passes kb heap source f q → Passes kb heap source f n

/-- The facts a node has on its right. -/
def rightFacts (kb : KnowledgeBase) (heap : Heap) (source : FactPtr → Option String)
    (facts : Set FactPtr) (n : ℕ) : Set FactPtr :=
  {f | f ∈ facts ∧ Passes kb heap source f n}

/-- The join condition of a node that has one. -/
def NodeKind.joinCondition : NodeKind → Option JoinCondition
  | crossProductJoin c | hashedJoin c _ _ | condition _ c => some c
  | _ => none

/-- Every memory is exact for the facts in working memory. -/
structure Settled (kb : KnowledgeBase) (base : Session) (source : FactPtr → Option String)
    (facts : Set FactPtr) (roots : Set ℕ) (mem : ℕ → NodeMemory) : Prop where
  roots_left : ∀ r ∈ roots, ∀ q, ¬ kb.network.LeftEdge q r
  alpha : ∀ {n c}, kb.network.kind n = .alpha c → ∀ id,
    id ∈ (mem n).passingFacts ↔ ∃ f ∈ rightFacts kb base.heap source facts n, id = (base.heap f).id
  node : ∀ n, NodeFits kb base facts (rightFacts kb base.heap source facts n) (fun _ ↦ False)
    (fun _ ↦ False) n (inSet kb.network roots n mem) (mem n)

/-- Facts other than `p` are tested as before, and every fact keeps its id and its type. -/
structure SameTests (kb : KnowledgeBase) (base base' : Session) (facts : Set FactPtr)
    (p : FactPtr) : Prop where
  id : ∀ f ∈ facts, (base'.heap f).id = (base.heap f).id
  type : ∀ f ∈ facts, (base'.heap f).type = (base.heap f).type
  alpha : ∀ {n c}, kb.network.kind n = .alpha c → ∀ f ∈ facts, f ≠ p →
    checkConstraint kb.runtime base'.heap c f = checkConstraint kb.runtime base.heap c f
  join : ∀ {n c}, (kb.network.kind n).joinCondition = some c → ∀ {w f},
    (∀ g ∈ w.facts, g ∈ facts ∧ g ≠ p) → f ∈ facts → f ≠ p →
      checkCondition kb c base' w f = checkCondition kb c base w f
  key : ∀ {field}, kb.network.KeyField field → ∀ f ∈ facts, f ≠ p →
    getField base'.heap f field = getField base.heap f field

/-- The entries of the changed fact in the hashed joins are still under its key. -/
structure KeysKept (kb : KnowledgeBase) (base base' : Session) (p : FactPtr)
    (mem : ℕ → NodeMemory) : Prop where
  left : ∀ {n c l r k w}, kb.network.kind n = .hashedJoin c l r →
    (k, w) ∈ (mem n).hashedJoin.left → p ∈ w.facts →
      hashedLeftKey base' l w = hashedLeftKey base l w
  right : ∀ {n c l r k}, kb.network.kind n = .hashedJoin c l r →
    (k, p) ∈ (mem n).hashedJoin.right → hashedRightKey base' r p = hashedRightKey base r p

variable {kb : KnowledgeBase} {source : FactPtr → Option String} (hnet : kb.network.WellFormed)

/-! ### Passing facts -/

section Passes

variable {heap : Heap} {f : FactPtr} {q n : ℕ}
include hnet

theorem passes_alpha_iff {c : ParsedConstraint} (hedge : kb.network.RightEdge q n)
    (hkind : kb.network.kind n = .alpha c) :
    Passes kb heap source f n ↔
      Passes kb heap source f q ∧ checkConstraint kb.runtime heap c f = true := by
  refine ⟨fun h ↦ ?_, fun h ↦ .alpha hedge hkind h.1 h.2⟩
  cases h with
  | entry h => simp [hnet.entry_kind h] at hkind
  | alpha hedge' hkind' hq hcheck =>
    obtain rfl := hnet.right_forest.parent_unique hedge hedge'
    obtain rfl : c = _ := by simpa [hkind] using hkind'
    exact ⟨hq, hcheck⟩
  | beta _ hbeta _ => simp [hkind, NodeKind.isBetaNode] at hbeta

theorem passes_beta_iff (hedge : kb.network.RightEdge q n)
    (hbeta : (kb.network.kind n).isBetaNode = true) :
    Passes kb heap source f n ↔ Passes kb heap source f q := by
  refine ⟨fun h ↦ ?_, fun h ↦ .beta hedge hbeta h⟩
  cases h with
  | entry h => simp [hnet.entry_kind h, NodeKind.isBetaNode] at hbeta
  | alpha _ hkind _ _ => simp [hkind, NodeKind.isBetaNode] at hbeta
  | beta hedge' _ hq =>
    obtain rfl := hnet.right_forest.parent_unique hedge hedge'
    exact hq

omit hnet in
/-- A fact comes from the entry point it was given to. -/
theorem Passes.exists_entry (h : Passes kb heap source f n) :
    ∃ e, kb.network.entry (source f) (heap f).type = some e ∧
      Desc kb.network.RightEdge e n := by
  induction h with
  | entry h => exact ⟨_, h, .refl⟩
  | alpha hedge _ _ _ ih => exact ih.imp fun e he ↦ ⟨he.1, he.2.tail hedge⟩
  | beta hedge _ _ ih => exact ih.imp fun e he ↦ ⟨he.1, he.2.tail hedge⟩

omit hnet in
theorem Passes.congr {heap' : Heap} (htype : (heap' f).type = (heap f).type)
    (halpha : ∀ {n c}, kb.network.kind n = .alpha c →
      checkConstraint kb.runtime heap' c f = checkConstraint kb.runtime heap c f)
    (h : Passes kb heap source f n) : Passes kb heap' source f n := by
  induction h with
  | entry h => exact .entry (by rwa [htype])
  | alpha hedge hkind _ hcheck ih => exact .alpha hedge hkind ih (by rwa [halpha hkind])
  | beta hedge hbeta _ ih => exact .beta hedge hbeta ih

end Passes

theorem SameTests.passes_iff {base base' : Session} {facts : Set FactPtr} {p : FactPtr}
    (h : SameTests kb base base' facts p) {f : FactPtr} (hf : f ∈ facts) (hfp : f ≠ p) {n : ℕ} :
    Passes kb base'.heap source f n ↔ Passes kb base.heap source f n :=
  ⟨Passes.congr (h.type f hf).symm fun hkind ↦ (h.alpha hkind f hf hfp).symm,
    Passes.congr (h.type f hf) fun hkind ↦ h.alpha hkind f hf hfp⟩

theorem SameTests.tokenKey_eq {base base' : Session} {facts : Set FactPtr} {p : FactPtr}
    (h : SameTests kb base base' facts p) {l : String × ℕ} (hl : kb.network.KeyField l.1)
    {w : TokenWME} (hw : ∀ g ∈ w.facts, g ∈ facts ∧ g ≠ p) :
    tokenKey base'.heap l w = tokenKey base.heap l w := by
  unfold tokenKey
  cases hget : w.getFactAtDepth l.2 with
  | none => rfl
  | some g =>
    have hg := hw g (TokenWME.mem_facts_of_getFactAtDepth hget)
    exact h.key hl g hg.1 hg.2

/-! ### The first phase of a change -/

section FirstPhase

variable {base base' : Session} {facts R : Set FactPtr} {p : FactPtr}
  (hsame : SameTests kb base base' facts p) {n : ℕ} {c : JoinCondition} {D : Set TokenWME}
  {mem : NodeMemory} {stale : TokenWME → Prop} (hR : R ⊆ facts)
  (hD : ∀ w ∈ D, ∀ f ∈ w.facts, f ∈ facts) (hstale : ∀ w ∈ D, p ∈ w.facts → stale w)
include hsame hR hD hstale

omit hsame hR in
theorem not_stale_facts {w : TokenWME} (hw : w ∈ D) (hs : ¬ stale w) :
    ∀ g ∈ w.facts, g ∈ facts ∧ g ≠ p := by
  intro g hg
  refine ⟨hD w hw g hg, ?_⟩
  rintro rfl
  exact hs (hstale w hw hg)

theorem CrossProductInv.firstPhase (hkind : kb.network.kind n = .crossProductJoin c)
    (h : CrossProductInv kb base c R (fun _ ↦ False) (fun _ ↦ False) D mem) :
    CrossProductInv kb base' c R stale (· = p) D mem :=
  { h with
    mem_right := by
      intro id f
      rw [h.mem_right]
      exact and_congr_right fun hf ↦ by rw [hsame.id f (hR hf)]
    exact := by
      intro w f hw hf hs hfp
      rw [hsame.join (by rw [hkind]; rfl) (not_stale_facts hD hstale hw hs) (hR hf) hfp]
      exact h.exact hw hf id id }

theorem HashedInv.firstPhase {l : String × ℕ} {r : String}
    (hkind : kb.network.kind n = .hashedJoin c l r)
    (hleft : ∀ {k w}, (k, w) ∈ mem.hashedJoin.left → p ∈ w.facts →
      hashedLeftKey base' l w = hashedLeftKey base l w)
    (hright : ∀ {k}, (k, p) ∈ mem.hashedJoin.right →
      hashedRightKey base' r p = hashedRightKey base r p)
    (h : HashedInv kb base c l r R (fun _ ↦ False) (fun _ ↦ False) D mem) :
    HashedInv kb base' c l r R stale (· = p) D mem := by
  have hleft' : ∀ {w}, (∀ g ∈ w.facts, g ∈ facts ∧ g ≠ p) →
      hashedLeftKey base' l w = hashedLeftKey base l w := by
    intro w hw
    rw [hashedLeftKey, hsame.tokenKey_eq (.hashedLeft hkind) hw, hashedLeftKey]
  have hright' : ∀ {f}, f ∈ R → f ≠ p → hashedRightKey base' r f = hashedRightKey base r f := by
    intro f hf hfp
    rw [hashedRightKey, hsame.key (.hashedRight hkind) f (hR hf) hfp, hashedRightKey]
  have hentryLeft : ∀ {k w}, (k, w) ∈ mem.hashedJoin.left →
      hashedLeftKey base' l w = hashedLeftKey base l w := by
    intro k w hmem
    by_cases hp : p ∈ w.facts
    · exact hleft hmem hp
    · refine hleft' fun g hg ↦ ⟨hD w (h.left_key hmem).1 g hg, ?_⟩
      rintro rfl
      exact hp hg
  have hentryRight : ∀ {k f}, (k, f) ∈ mem.hashedJoin.right →
      hashedRightKey base' r f = hashedRightKey base r f := by
    intro k f hmem
    by_cases hfp : f = p
    · subst hfp
      exact hright hmem
    · exact hright' (h.right_key hmem).1 hfp
  refine { h with
    left_key := ?_, left_complete := ?_, right_key := ?_, right_complete := ?_, matched := ?_,
    exact := ?_ }
  · intro k w hmem
    rw [hentryLeft hmem]
    exact h.left_key hmem
  · intro w k hw hs hk
    rw [hleft' (not_stale_facts hD hstale hw hs)] at hk
    exact h.left_complete hw id hk
  · intro k f hmem
    rw [hentryRight hmem]
    exact h.right_key hmem
  · intro f k hf hfp hk
    rw [hright' hf hfp] at hk
    exact h.right_complete hf id hk
  · intro w f hpair
    obtain ⟨⟨k, hk⟩, ⟨k', hk'⟩, hmatch⟩ := h.matched hpair
    refine ⟨⟨k, hk⟩, ⟨k', hk'⟩, ?_⟩
    rwa [KeysMatch, hentryLeft hk, hentryRight hk']
  · intro w f hw hf hs hfp
    have hfacts := not_stale_facts hD hstale hw hs
    rw [hsame.join (by rw [hkind]; rfl) hfacts (hR hf) hfp, KeysMatch, hleft' hfacts,
      hright' hf hfp]
    exact h.exact hw hf id id

theorem ConditionInv.firstPhase {kind : ConditionKind}
    (hkind : kb.network.kind n = .condition kind c) {mem : BetaConditionMem}
    (h : ConditionInv kb base c R (fun _ ↦ False) (fun _ ↦ False) D mem) :
    ConditionInv kb base' c R stale (· = p) D mem := by
  have hleft : ∀ {w}, (∀ g ∈ w.facts, g ∈ facts ∧ g ≠ p) →
      currentLeftKey base' c w = currentLeftKey base c w := by
    intro w hw
    unfold currentLeftKey conditionTokenKey
    cases hkey : BetaNetworkBuilder.hashKey c.bindings c.joins with
    | none => rfl
    | some key =>
      simp only [Option.bind_some]
      rw [hsame.tokenKey_eq (.conditionLeft hkind hkey) hw]
  have hright : ∀ {f}, f ∈ R → f ≠ p → currentRightKey base' c f = currentRightKey base c f := by
    intro f hf hfp
    unfold currentRightKey conditionFactKey
    cases hkey : BetaNetworkBuilder.hashKey c.bindings c.joins with
    | none => rfl
    | some key =>
      simp only [Option.bind_some]
      rw [hsame.key (.conditionRight hkind hkey) f (hR hf) hfp]
  have hfacts := fun {w} (hw : w ∈ D) (hs : ¬ stale w) ↦ not_stale_facts hD hstale hw hs
  exact h.rebase (fun f hf ↦ hsame.id f (hR hf)) (fun w hw hs ↦ hleft (hfacts hw hs))
    (fun f hf hfp ↦ hright hf hfp)
    fun w hw f hf hs hfp ↦ hsame.join (by rw [hkind]; rfl) (hfacts hw hs) (hR hf) hfp

end FirstPhase

variable {base base' : Session} {facts facts' : Set FactPtr} {roots : Set ℕ}
  {mem : ℕ → NodeMemory} {p : FactPtr}

include hnet in
/-- Every token made with the changed fact is stale while all beta nodes are pending. -/
theorem Settled.stale_of_mem (h : Settled kb base source facts roots mem) {Q : Set ℕ}
    (hQ : ∀ n, (kb.network.kind n).isBetaNode = true → n ∈ Q) {n : ℕ} {w : TokenWME}
    (hw : w ∈ inSet kb.network roots n mem) (hp : p ∈ w.facts) : Stale kb.network p Q n w := by
  induction n using Nat.strong_induction_on generalizing w with
  | _ n ih =>
    rcases hw with ⟨-, rfl⟩ | ⟨q, hedge, hx⟩
    · simp [TokenWME.facts] at hp
    · have hlt := hnet.left_forest.parent_lt hedge
      cases hjoin : (kb.network.kind q).isJoin with
      | true =>
        obtain ⟨a, w', f, rfl, hw', -⟩ := (h.node q).outSet_join hjoin hx
        rcases List.mem_append.mp hp with hp | hp
        · exact .join hedge hjoin (ih q hlt hw' hp)
        · obtain rfl := List.mem_singleton.mp hp
          exact .changed hedge hjoin (hQ q hedge.2)
      | false =>
        exact .condition hedge hjoin (ih q hlt ((h.node q).outSet_condition hjoin hx) hp)

include hnet in
/-- After a change of the heap the memories are those of the first phase. -/
theorem Settled.firstPhase {S : Scene kb} {C : FactChange S} {Q : Set ℕ}
    (h : Settled kb base source facts roots mem) (hsame : SameTests kb base S.base facts S.changed)
    (hkeys : KeysKept kb base S.base S.changed mem) (hfacts : facts ⊆ S.facts)
    (hbefore : ∀ n, C.before n = rightFacts kb base.heap source facts n)
    (hQ : ∀ n, kb.network.kind n ≠ .entryPoint → n ∈ Q) : GlobalInv (C.phase Q) roots mem := by
  have hbeta : ∀ n, (kb.network.kind n).isBetaNode = true → n ∈ Q := by
    intro n hn
    refine hQ n fun hkind ↦ ?_
    simp [hkind, NodeKind.isBetaNode] at hn
  refine ⟨h.roots_left, ?_, fun n ↦ ?_⟩
  · intro n c hkind id
    have hn : n ∈ Q := hQ n (by simp [hkind])
    rw [h.alpha hkind, FactChange.right_of_mem hn, hbefore]
    exact exists_congr fun f ↦ and_congr_right fun hf ↦ by rw [hsame.id f hf.1]
  · obtain ⟨hD, hnode⟩ := h.node n
    have hstale : ∀ w ∈ inSet kb.network roots n mem, S.changed ∈ w.facts →
        Stale kb.network S.changed Q n w := fun w hw hp ↦ h.stale_of_mem hnet hbeta hw hp
    have hR : rightFacts kb base.heap source facts n ⊆ facts := fun f hf ↦ hf.1
    refine ⟨fun w hw f hf ↦ hfacts (hD w hw f hf), ?_⟩
    cases hkind : kb.network.kind n with
    | crossProductJoin c =>
      have hn : n ∈ Q := hbeta n (by rw [hkind]; rfl)
      simp only [hkind] at hnode ⊢
      rw [FactChange.right_of_mem hn, hbefore]
      refine (hnode.firstPhase hsame hR hD hstale hkind).shrink (fun _ _ hw ↦ hw) ?_
      exact fun f _ hf ↦ ⟨hf, hn⟩
    | hashedJoin c l r =>
      have hn : n ∈ Q := hbeta n (by rw [hkind]; rfl)
      simp only [hkind] at hnode ⊢
      rw [FactChange.right_of_mem hn, hbefore]
      refine (hnode.firstPhase hsame hR hD hstale hkind (hkeys.left hkind)
        (hkeys.right hkind)).shrink (fun _ _ hw ↦ hw) ?_
      exact fun f _ hf ↦ ⟨hf, hn⟩
    | condition kind c =>
      have hn : n ∈ Q := hbeta n (by rw [hkind]; rfl)
      simp only [hkind] at hnode ⊢
      rw [FactChange.right_of_mem hn, hbefore]
      refine (hnode.firstPhase hsame hR hD hstale hkind).shrink (fun _ _ hw ↦ hw) ?_
      exact fun f _ hf ↦ ⟨hf, hn⟩
    | terminal rule bindings => simpa only [hkind] using hnode
    | _ => simp only

/-- Of the session, the memories of a node depend on the heap alone. -/
theorem NodeFits.of_heap {R : Set FactPtr} {stale : TokenWME → Prop} {pending : FactPtr → Prop}
    {n : ℕ} {D : Set TokenWME} {mem : NodeMemory} (hheap : base'.heap = base.heap)
    (h : NodeFits kb base facts R stale pending n D mem) :
    NodeFits kb base' facts R stale pending n D mem := by
  obtain ⟨⟨heap⟩⟩ := base
  obtain ⟨⟨heap'⟩⟩ := base'
  obtain rfl : heap' = heap := hheap
  obtain ⟨hD, hnode⟩ := h
  refine ⟨hD, ?_⟩
  cases hkind : kb.network.kind n with
  | crossProductJoin c =>
    simp only [hkind] at hnode ⊢
    exact { hnode with }
  | hashedJoin c l r =>
    simp only [hkind] at hnode ⊢
    exact { hnode with }
  | condition kind c =>
    simp only [hkind] at hnode ⊢
    exact { hnode with }
  | terminal rule bindings => simpa only [hkind] using hnode
  | _ => simp only

theorem Settled.of_heap (hheap : base'.heap = base.heap)
    (h : Settled kb base source facts roots mem) :
    Settled kb base' source facts roots mem where
  roots_left := h.roots_left
  alpha hkind := by
    rw [hheap]
    exact h.alpha hkind
  node n := by
    rw [hheap]
    exact (h.node n).of_heap hheap

/-- A settled network stays so when no fact in working memory is tested otherwise. -/
theorem Settled.congr (h : Settled kb base source facts roots mem)
    (hsame : SameTests kb base base' facts p) (hp : p ∉ facts) :
    Settled kb base' source facts roots mem := by
  have hright : ∀ n, rightFacts kb base'.heap source facts n =
      rightFacts kb base.heap source facts n := by
    intro n
    ext f
    refine and_congr_right fun hf ↦ hsame.passes_iff hf ?_
    exact ne_of_mem_of_not_mem hf hp
  have hpending : ∀ n, ∀ f ∈ rightFacts kb base.heap source facts n, f = p → False := by
    rintro n f hf rfl
    exact hp hf.1
  refine ⟨h.roots_left, ?_, fun n ↦ ?_⟩
  · intro n c hkind id
    rw [h.alpha hkind, hright]
    exact exists_congr fun f ↦ and_congr_right fun hf ↦ by rw [hsame.id f hf.1]
  · obtain ⟨hD, hnode⟩ := h.node n
    have hR : rightFacts kb base.heap source facts n ⊆ facts := fun f hf ↦ hf.1
    have hstale : ∀ w ∈ inSet kb.network roots n mem, p ∈ w.facts → False :=
      fun w hw hmem ↦ hp (hD w hw p hmem)
    refine ⟨hD, ?_⟩
    rw [hright]
    cases hkind : kb.network.kind n with
    | crossProductJoin c =>
      simp only [hkind] at hnode ⊢
      exact (hnode.firstPhase hsame hR hD hstale hkind).shrink (fun _ _ hw ↦ hw) (hpending n)
    | hashedJoin c l r =>
      simp only [hkind] at hnode ⊢
      refine (hnode.firstPhase hsame hR hD hstale hkind (fun hmem hw ↦ ?_) fun hmem ↦ ?_).shrink
        (fun _ _ hw ↦ hw) (hpending n)
      · exact absurd hw fun hw ↦ hstale _ (hnode.left_key hmem).1 hw
      · exact absurd (hnode.right_key hmem).1.1 hp
    | condition kind c =>
      simp only [hkind] at hnode ⊢
      exact (hnode.firstPhase hsame hR hD hstale hkind).shrink (fun _ _ hw ↦ hw) (hpending n)
    | terminal rule bindings => simpa only [hkind] using hnode
    | _ => simp only

/-! ### The last phase -/

theorem not_stale_of_empty {net : CompiledNetwork} {n : ℕ} {w : TokenWME} :
    ¬ Stale net p ∅ n w := by
  intro h
  induction h with
  | changed _ _ hq => exact hq
  | join _ _ _ ih => exact ih
  | condition _ _ _ ih => exact ih

include hnet in
/-- Tokens are made of the facts on the right of the nodes. -/
theorem GlobalInv.facts_of_mem {S : Scene kb} {P : Phase S} (h : GlobalInv P roots mem)
    (hright : ∀ n, P.right n ⊆ facts) {n : ℕ} {w : TokenWME}
    (hw : w ∈ inSet kb.network roots n mem) : ∀ f ∈ w.facts, f ∈ facts := by
  induction n using Nat.strong_induction_on generalizing w with
  | _ n ih =>
    rcases hw with ⟨-, rfl⟩ | ⟨q, hedge, hx⟩
    · simp [TokenWME.facts]
    · have hlt := hnet.left_forest.parent_lt hedge
      cases hjoin : (kb.network.kind q).isJoin with
      | true =>
        obtain ⟨a, w', f, rfl, hw', hf⟩ := (h.node q).outSet_join hjoin hx
        intro g hg
        rcases List.mem_append.mp hg with hg | hg
        · exact ih q hlt hw' g hg
        · obtain rfl := List.mem_singleton.mp hg
          exact hright q hf
      | false => exact ih q hlt ((h.node q).outSet_condition hjoin hx)

include hnet in
/-- When no node is pending the network is settled. -/
theorem GlobalInv.settled {S : Scene kb} {P : Phase S} (h : GlobalInv P roots mem)
    (hpending : P.pending = ∅)
    (hright : ∀ n, P.right n = rightFacts kb S.base.heap source facts n) :
    Settled kb S.base source facts roots mem := by
  have hstale : ∀ n, (Stale kb.network S.changed P.pending n) = fun _ ↦ False := by
    intro n
    ext w
    rw [hpending]
    exact iff_false_intro not_stale_of_empty
  have hpend : ∀ n, (fun f ↦ f = S.changed ∧ n ∈ P.pending) = fun _ ↦ False := by
    intro n
    simp [hpending]
  refine ⟨h.roots_left, ?_, fun n ↦ ⟨fun w hw ↦ ?_, ?_⟩⟩
  · intro n c hkind id
    rw [h.alpha hkind, hright]
  · exact h.facts_of_mem hnet (fun n f hf ↦ (hright n ▸ hf : f ∈ rightFacts _ _ _ _ _).1) hw
  · have hnode := (h.node n).2
    rwa [hright, hstale, hpend] at hnode

/-! ### One operation -/

/-- The change of one fact between two sets of facts. -/
def factChange (S : Scene kb) (base : Session) (source : FactPtr → Option String)
    (facts facts' : Set FactPtr)
    (hfacts : facts ⊆ S.facts) (hfacts' : facts' ⊆ S.facts)
    (hsame : SameTests kb base S.base facts S.changed)
    (hother : ∀ f ≠ S.changed, (f ∈ facts' ↔ f ∈ facts)) : FactChange S where
  before := rightFacts kb base.heap source facts
  after := rightFacts kb S.base.heap source facts'
  before_subset n f hf := hfacts hf.1
  after_subset n f hf := hfacts' hf.1
  same n f hf := by
    by_cases hmem : f ∈ facts
    · simp only [rightFacts, Set.mem_ofPred_eq, hother f hf, hmem, true_and]
      exact hsame.passes_iff hmem hf
    · simp [rightFacts, hother f hf, hmem]

include hnet in
theorem factChange_alphaSpec {S : Scene kb} {hfacts : facts ⊆ S.facts} {hfacts' : facts' ⊆ S.facts}
    {hsame : SameTests kb base S.base facts S.changed}
    {hother : ∀ f ≠ S.changed, (f ∈ facts' ↔ f ∈ facts)}
    (hhint : ∀ {n c}, kb.network.kind n = .alpha c →
      alphaConstraintAffected c S.base.currentModifiedFields = false →
        checkConstraint kb.runtime S.base.heap c S.changed =
          checkConstraint kb.runtime base.heap c S.changed) :
    (factChange S base source facts facts' hfacts hfacts' hsame hother).AlphaSpec where
  alpha_after hedge hkind := by
    simp only [factChange, rightFacts, Set.mem_ofPred_eq, passes_alpha_iff hnet hedge hkind, and_assoc]
  alpha_before hedge hkind h := ⟨h.1, ((passes_alpha_iff hnet hedge hkind).mp h.2).1⟩
  unaffected hedge hkind haffected hq hq' := by
    simp only [factChange, rightFacts, Set.mem_ofPred_eq, passes_alpha_iff hnet hedge hkind,
      hhint hkind haffected]
    simp only [hq.1, hq.2, hq'.1, hq'.2]
  beta_before hedge hbeta := by
    simp only [factChange, rightFacts, Set.mem_ofPred_eq, passes_beta_iff hnet hedge hbeta]
  beta_after hedge hbeta := by
    simp only [factChange, rightFacts, Set.mem_ofPred_eq, passes_beta_iff hnet hedge hbeta]

include hnet in
/-- The activation of the entry point of a fact settles the network for the new facts. -/
theorem rightActivate_settled {S : Scene kb} {s : Session} {type : PropagationType}
    (h : Settled kb base source facts roots s.mem) (hbase : s.base = S.base)
    (hsame : SameTests kb base S.base facts S.changed)
    (hkeys : KeysKept kb base S.base S.changed s.mem) (hfacts : facts ⊆ S.facts)
    (hfacts' : facts' ⊆ S.facts) (hother : ∀ f ≠ S.changed, (f ∈ facts' ↔ f ∈ facts))
    (hchange : Change S.changed facts facts' type)
    (hhint : ∀ {n c}, kb.network.kind n = .alpha c →
      alphaConstraintAffected c S.base.currentModifiedFields = false →
        checkConstraint kb.runtime S.base.heap c S.changed =
          checkConstraint kb.runtime base.heap c S.changed) :
    let s' := (kb.network.entry (source S.changed) (S.base.heap S.changed).type).elim s fun e ↦
      rightActivate kb S.logicalRetract (kb.network.nodes.length + 1) e S.changed type s
    Settled kb S.base source facts' roots s'.mem ∧ s'.base = S.base := by
  set C := factChange S base source facts facts' hfacts hfacts' hsame hother with hC
  have hspec : C.AlphaSpec := factChange_alphaSpec hnet hhint
  have hfirst : GlobalInv (C.phase {n | kb.network.kind n ≠ .entryPoint}) roots s.mem :=
    h.firstPhase hnet hsame hkeys hfacts (fun _ ↦ rfl) fun n hn ↦ hn
  have htype : S.changed ∈ facts → (S.base.heap S.changed).type = (base.heap S.changed).type :=
    fun hmem ↦ hsame.type _ hmem
  have hentry : ∀ {n}, (S.changed ∈ C.before n ∨ S.changed ∈ C.after n) →
      ∃ e, kb.network.entry (source S.changed) (S.base.heap S.changed).type = some e ∧
        Desc kb.network.RightEdge e n := by
    rintro n (hn | hn)
    · rw [htype hn.1]
      exact hn.2.exists_entry
    · exact hn.2.exists_entry
  suffices hlast : ∀ s' : Session, GlobalInv (C.phase ∅) roots s'.mem ∧ s'.base = S.base →
      Settled kb S.base source facts' roots s'.mem ∧ s'.base = S.base by
    cases hlookup : kb.network.entry (source S.changed) (S.base.heap S.changed).type with
    | none =>
      refine hlast s ⟨hfirst.skip hnet (Set.empty_subset _) fun n _ ↦ ?_, hbase⟩
      rw [← not_or]
      intro hn
      obtain ⟨e, he, -⟩ := hentry hn
      simp [hlookup] at he
    | some e =>
      have hkind := hnet.entry_kind hlookup
      have hbefore : S.changed ∈ C.before e ↔ S.changed ∈ facts :=
        ⟨fun hmem ↦ hmem.1, fun hmem ↦ ⟨hmem, .entry (by rwa [← htype hmem])⟩⟩
      have hafter : S.changed ∈ C.after e ↔ S.changed ∈ facts' :=
        ⟨fun hmem ↦ hmem.1, fun hmem ↦ ⟨hmem, .entry hlookup⟩⟩
      have hchange' : Change S.changed (C.before e) (C.after e) type := by
        cases hchange with
        | assert h h' => exact .assert (hbefore.not.mpr h) (hafter.mpr h')
        | retract h h' => exact .retract (hbefore.mpr h) (hafter.not.mpr h')
        | modify h h' => exact .modify (hbefore.mpr h) (hafter.mpr h')
      refine hlast _ (rightActivate_entryPoint hnet hspec hkind hchange' ?_ ?_ hbase hfirst)
      · intro m hm hm'
        obtain ⟨q, -, hq⟩ := Relation.TransGen.tail'_iff.mp hm
        rcases hnet.right_child hq with hbeta | ⟨c, hc⟩
        · simp [hm', NodeKind.isBetaNode] at hbeta
        · simp [hm'] at hc
      · intro m hm hnot
        rw [← not_or]
        intro hn
        obtain ⟨e', he', hdesc⟩ := hentry hn
        obtain rfl : e = e' := by simpa [hlookup] using he'
        rcases Relation.reflTransGen_iff_eq_or_transGen.mp hdesc with rfl | hdesc
        · exact hm hkind
        · exact hnot hdesc
  rintro s' ⟨hinv, hbase'⟩
  exact ⟨hinv.settled hnet rfl fun n ↦ FactChange.right_of_not_mem (by simp), hbase'⟩

/-- A settled network does not depend on the sources of other facts. -/
theorem Settled.of_source {source' : FactPtr → Option String}
    (h : Settled kb base source facts roots mem) (hsource : ∀ f ∈ facts, source' f = source f) :
    Settled kb base source' facts roots mem := by
  have hpasses : ∀ {source source' : FactPtr → Option String} {f : FactPtr} {n : ℕ},
      source' f = source f → Passes kb base.heap source f n → Passes kb base.heap source' f n := by
    intro source source' f n hf hn
    induction hn with
    | entry hn => exact .entry (hf ▸ hn)
    | alpha hedge hkind _ hcheck ih => exact .alpha hedge hkind ih hcheck
    | beta hedge hbeta _ ih => exact .beta hedge hbeta ih
  have hright : ∀ n, rightFacts kb base.heap source' facts n =
      rightFacts kb base.heap source facts n := by
    intro n
    ext f
    exact and_congr_right fun hf ↦ ⟨hpasses (hsource f hf).symm, hpasses (hsource f hf)⟩
  refine ⟨h.roots_left, ?_, fun n ↦ ?_⟩
  · intro n c hkind id
    rw [hright]
    exact h.alpha hkind id
  · rw [hright]
    exact h.node n

end RulesForge
