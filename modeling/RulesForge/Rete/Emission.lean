import Mathlib.Data.Set.Insert
import RulesForge.Rete.Activation

/-!
# Effects of propagation, and the children of a join

A propagation changes the memories of some nodes, the token pool and the agenda; everything
else in the session is its **base**, which stays. `Effect` says so, with the set of nodes whose
memory may change.

What a node does below itself goes through its emission, and `EmitSpec` is all that the
lemmas about one node know of it: a token that is asserted joins the set of delivered tokens,
a token that is retracted is no longer in it. For the joins the tokens delivered are the recorded
children, and the loops that assert or retract pairs of a token and a fact change the set of
matched pairs by just those pairs (`assertPairs_spec`, `retractPairs_spec`).
-/

namespace RulesForge

/-! ### Effects -/

/-- A session without the parts that a propagation changes. -/
def Session.base (s : Session) : Session :=
  { s with mem := fun _ ↦ {}, nextToken := 1, wmeCache := [], agenda := {}, log := [] }

theorem Session.heap_of_base {s s' : Session} (h : s'.base = s.base) : s'.heap = s.heap := by
  change s'.base.heap = s.base.heap
  rw [h]

/-- Only the memories of the nodes in a set have changed, and no part of the base. -/
structure Effect (nodes : Set ℕ) (s s' : Session) : Prop where
  base : s'.base = s.base
  mem : ∀ m ∉ nodes, s'.mem m = s.mem m

namespace Effect

variable {nodes nodes' : Set ℕ} {s s' s'' : Session}

theorem refl (nodes : Set ℕ) (s : Session) : Effect nodes s s :=
  ⟨rfl, fun _ _ ↦ rfl⟩

theorem trans (h : Effect nodes s s') (h' : Effect nodes s' s'') : Effect nodes s s'' :=
  ⟨h'.base.trans h.base, fun m hm ↦ (h'.mem m hm).trans (h.mem m hm)⟩

theorem mono (h : Effect nodes s s') (hsub : nodes ⊆ nodes') : Effect nodes' s s' :=
  ⟨h.base, fun m hm ↦ h.mem m fun hmem ↦ hm (hsub hmem)⟩

theorem heap (h : Effect nodes s s') : s'.heap = s.heap :=
  Session.heap_of_base h.base

theorem updateMem {n : ℕ} (hn : n ∈ nodes) (s : Session) (f : NodeMemory → NodeMemory) :
    Effect nodes s (s.updateMem n f) :=
  ⟨rfl, fun _ hm ↦ s.updateMem_mem_ne (ne_of_mem_of_not_mem hn hm).symm f⟩

end Effect

/-- What the lemmas about a node know of its emission: `Below D mem` says that the nodes below
are right for the delivered tokens `D`, and depends on the memories of `nodes` alone. -/
structure EmitSpec (base : Session) (nodes : Set ℕ) (Ok : TokenWME → Prop)
    (Below : Set TokenWME → (ℕ → NodeMemory) → Prop) (emit : Emission) : Prop where
  assert : ∀ {D s x}, s.base = base → Below D s.mem → x ∉ D → Ok x →
    Below (insert x D) (emit x .assert s).mem ∧ Effect nodes s (emit x .assert s)
  retract : ∀ {D s x}, s.base = base → Below D s.mem → Ok x →
    Below (D \ {x}) (emit x .retract s).mem ∧ Effect nodes s (emit x .retract s)
  congr : ∀ {D mem mem'}, (∀ m ∈ nodes, mem' m = mem m) → Below D mem → Below D mem'

/-! ### Children -/

section Children

/-- The pairs of a token and a fact that have a child. -/
def childPairs (children : TokenWME → List TokenWME) : Set (TokenWME × FactPtr) :=
  {pair | ∃ a, .mk a pair.1 pair.2 ∈ children pair.1}

/-- The recorded children of all tokens. -/
def childTokens (children : TokenWME → List TokenWME) : Set TokenWME :=
  {x | ∃ w, x ∈ children w}

/-- Every child extends its token by a fact, and a pair has one child. -/
structure ChildrenOk (children : TokenWME → List TokenWME) : Prop where
  shape : ∀ {w x}, x ∈ children w → ∃ a f, x = .mk a w f
  nodup : ∀ w, (children w).Nodup
  unique : ∀ {w a b f}, .mk a w f ∈ children w → .mk b w f ∈ children w → a = b

variable {children : TokenWME → List TokenWME} {w : TokenWME} {f : FactPtr} {a : ℕ}

theorem ChildrenOk.mem_childTokens (h : ChildrenOk children) :
    .mk a w f ∈ childTokens children ↔ .mk a w f ∈ children w := by
  refine ⟨?_, fun hmem ↦ ⟨w, hmem⟩⟩
  rintro ⟨w', hmem⟩
  obtain ⟨a', f', heq⟩ := h.shape hmem
  cases heq
  exact hmem

/-- The children after a push. -/
abbrev withChild (children : TokenWME → List TokenWME) (w child : TokenWME) :
    TokenWME → List TokenWME :=
  Function.update children w (children w ++ [child])

/-- The children after an erasure. -/
abbrev withoutChild (children : TokenWME → List TokenWME) (w child : TokenWME) :
    TokenWME → List TokenWME :=
  Function.update children w ((children w).erase child)

theorem mem_withChild {child x w' : TokenWME} :
    x ∈ withChild children w child w' ↔ x ∈ children w' ∨ w' = w ∧ x = child := by
  by_cases hw : w' = w
  · subst hw
    simp [withChild]
  · simp [withChild, hw]

theorem mem_withoutChild (h : ChildrenOk children) {child x w' : TokenWME} :
    x ∈ withoutChild children w child w' ↔ x ∈ children w' ∧ ¬ (w' = w ∧ x = child) := by
  by_cases hw : w' = w
  · subst hw
    simp [withoutChild, (h.nodup w').mem_erase_iff, and_comm]
  · simp [withoutChild, hw]

theorem ChildrenOk.withChild (h : ChildrenOk children) (hnew : (w, f) ∉ childPairs children) :
    ChildrenOk (withChild children w (.mk a w f)) where
  shape := by
    intro w' x hx
    rcases mem_withChild.mp hx with hx | ⟨rfl, rfl⟩
    · exact h.shape hx
    · exact ⟨a, f, rfl⟩
  nodup := by
    intro w'
    by_cases hw : w' = w
    · subst hw
      simp only [RulesForge.withChild, Function.update_self]
      refine List.nodup_append.mpr ⟨h.nodup w', List.nodup_singleton _, ?_⟩
      intro x hx y hy heq
      rw [List.mem_singleton.mp hy] at heq
      exact hnew ⟨a, heq ▸ hx⟩
    · simpa [RulesForge.withChild, Function.update_of_ne hw] using h.nodup w'
  unique := by
    intro w' b c f' hb hc
    rcases mem_withChild.mp hb with hb | ⟨-, hb⟩ <;>
      rcases mem_withChild.mp hc with hc | ⟨-, hc⟩
    · exact h.unique hb hc
    · cases hc
      exact absurd ⟨b, hb⟩ hnew
    · cases hb
      exact absurd ⟨c, hc⟩ hnew
    · cases hb
      cases hc
      rfl

theorem childPairs_withChild :
    childPairs (withChild children w (.mk a w f)) = insert (w, f) (childPairs children) := by
  ext ⟨w', f'⟩
  simp only [childPairs, Set.mem_ofPred_eq, Set.mem_insert_iff, Prod.mk.injEq, mem_withChild,
    TokenWME.mk.injEq]
  grind

theorem childTokens_withChild {child : TokenWME} :
    childTokens (withChild children w child) = insert child (childTokens children) := by
  ext x
  simp only [childTokens, Set.mem_ofPred_eq, Set.mem_insert_iff, mem_withChild]
  grind

theorem ChildrenOk.withoutChild (h : ChildrenOk children) (child : TokenWME) :
    ChildrenOk (withoutChild children w child) where
  shape hx := h.shape ((mem_withoutChild h).mp hx).1
  nodup w' := by
    by_cases hw : w' = w
    · subst hw
      simpa [RulesForge.withoutChild] using (h.nodup w').erase child
    · simpa [RulesForge.withoutChild, Function.update_of_ne hw] using h.nodup w'
  unique ha hb := h.unique ((mem_withoutChild h).mp ha).1 ((mem_withoutChild h).mp hb).1

theorem childPairs_withoutChild (h : ChildrenOk children) (hmem : .mk a w f ∈ children w) :
    childPairs (withoutChild children w (.mk a w f)) = childPairs children \ {(w, f)} := by
  ext ⟨w', f'⟩
  simp only [childPairs, Set.mem_ofPred_eq, Set.mem_sdiff, Set.mem_singleton_iff, Prod.mk.injEq,
    mem_withoutChild h, TokenWME.mk.injEq]
  constructor
  · rintro ⟨b, hb, hne⟩
    refine ⟨⟨b, hb⟩, ?_⟩
    rintro ⟨rfl, rfl⟩
    exact hne ⟨rfl, h.unique hb hmem, rfl, rfl⟩
  · rintro ⟨⟨b, hb⟩, hne⟩
    exact ⟨b, hb, fun heq ↦ hne ⟨heq.1, heq.2.2.2⟩⟩

theorem childTokens_withoutChild (h : ChildrenOk children) :
    childTokens (withoutChild children w (.mk a w f)) = childTokens children \ {.mk a w f} := by
  ext x
  simp only [childTokens, Set.mem_ofPred_eq, Set.mem_sdiff, Set.mem_singleton_iff,
    mem_withoutChild h]
  constructor
  · rintro ⟨w', hx, hne⟩
    refine ⟨⟨w', hx⟩, ?_⟩
    rintro rfl
    obtain ⟨_, _, heq⟩ := h.shape hx
    cases heq
    exact hne ⟨rfl, rfl⟩
  · rintro ⟨⟨w', hx⟩, hne⟩
    exact ⟨w', hx, fun heq ↦ hne heq.2⟩

end Children

/-! ### Asserting and retracting pairs -/

section Pairs

variable (kb : KnowledgeBase) {base : Session} {nodes : Set ℕ} {Ok : TokenWME → Prop}
  {Below : Set TokenWME → (ℕ → NodeMemory) → Prop} {emit : Emission} {n : ℕ}

theorem getOrCreateWme_spec (s : Session) (w : TokenWME) (f : FactPtr) :
    ∃ a s', s.getOrCreateWme w f = (.mk a w f, s') ∧ s'.base = s.base ∧ s'.mem = s.mem := by
  unfold Session.getOrCreateWme
  dsimp only
  generalize hfind : List.find? _ s.wmeCache = cached
  cases cached with
  | none => exact ⟨_, _, rfl, rfl, rfl⟩
  | some x =>
    have hx := List.find?_some hfind
    cases x with
    | root => simp at hx
    | mk a w' f' =>
      simp only [Bool.and_eq_true, decide_eq_true_eq] at hx
      obtain ⟨rfl, rfl⟩ := hx
      exact ⟨a, s, rfl, rfl, rfl⟩

/-- A join changes its children and the nodes below, and leaves its other memories alone. -/
structure JoinEffect (n : ℕ) (nodes : Set ℕ) (s s' : Session) : Prop where
  effect : Effect (insert n nodes) s s'
  hashedJoin : (s'.mem n).hashedJoin = (s.mem n).hashedJoin
  crossProductJoin : (s'.mem n).crossProductJoin = (s.mem n).crossProductJoin

theorem JoinEffect.refl (n : ℕ) (nodes : Set ℕ) (s : Session) : JoinEffect n nodes s s :=
  ⟨Effect.refl _ s, rfl, rfl⟩

theorem JoinEffect.trans {s s' s'' : Session} (h : JoinEffect n nodes s s')
    (h' : JoinEffect n nodes s' s'') : JoinEffect n nodes s s'' :=
  ⟨h.effect.trans h'.effect, h'.hashedJoin.trans h.hashedJoin,
    h'.crossProductJoin.trans h.crossProductJoin⟩

/-- The children of a join are well formed, and have been delivered to the nodes below. -/
structure JoinState (Below : Set TokenWME → (ℕ → NodeMemory) → Prop) (n : ℕ)
    (pairs : Set (TokenWME × FactPtr)) (mem : ℕ → NodeMemory) : Prop where
  children : ChildrenOk (mem n).leftToChildren
  pairs_eq : childPairs (mem n).leftToChildren = pairs
  below : Below (childTokens (mem n).leftToChildren) mem

variable {pairs : Set (TokenWME × FactPtr)}

/-- Children without the fact `p` may be seen with other eyes below. -/
theorem JoinState.bridge {Below' : Set TokenWME → (ℕ → NodeMemory) → Prop} {p : FactPtr}
    {mem : ℕ → NodeMemory}
    (hbridge : ∀ {D mem}, (∀ a w, .mk a w p ∉ D) → Below D mem → Below' D mem)
    (hs : JoinState Below n pairs mem) (hp : ∀ w, (w, p) ∉ pairs) : JoinState Below' n pairs mem where
  children := hs.children
  pairs_eq := hs.pairs_eq
  below := hbridge (fun a w hmem ↦
    hp w (hs.pairs_eq ▸ ⟨a, hs.children.mem_childTokens.mp hmem⟩)) hs.below

variable (hemit : EmitSpec base nodes Ok Below emit) (hn : n ∉ nodes)
include hemit hn

theorem JoinState.updateMem {s : Session}
    (hs : JoinState Below n pairs s.mem) {f : NodeMemory → NodeMemory}
    (hf : ∀ mem, (f mem).leftToChildren = mem.leftToChildren) :
    JoinState Below n pairs (s.updateMem n f).mem where
  children := by simpa [hf] using hs.children
  pairs_eq := by simpa [hf] using hs.pairs_eq
  below := by
    have hbelow : Below (childTokens (s.mem n).leftToChildren) (s.updateMem n f).mem := by
      refine hemit.congr (fun m hm ↦ ?_) hs.below
      simp [ne_of_mem_of_not_mem hm hn]
    simpa [hf] using hbelow

omit hemit hn in
/-- A child is recorded before it is delivered. -/
theorem pushChild_effect (s : Session) (w child : TokenWME) :
    ((pushChild n w child s).mem n).leftToChildren = withChild (s.mem n).leftToChildren w child ∧
      JoinEffect n ∅ s (pushChild n w child s) := by
  refine ⟨by simp [pushChild], Effect.updateMem (Set.mem_insert n ∅) s _, ?_, ?_⟩
  all_goals simp [pushChild]

/-- A new child is recorded and delivered. -/
theorem deliverChild_spec {s : Session} {w : TokenWME}
    {f : FactPtr} {a : ℕ} (hbase : s.base = base) (hs : JoinState Below n pairs s.mem)
    (hnew : (w, f) ∉ pairs) (hok : Ok (.mk a w f)) :
    let s' := emit (.mk a w f) .assert (pushChild n w (.mk a w f) s)
    JoinState Below n (insert (w, f) pairs) s'.mem ∧ JoinEffect n nodes s s' := by
  have hnew' : (w, f) ∉ childPairs (s.mem n).leftToChildren := by rwa [hs.pairs_eq]
  have hfresh : .mk a w f ∉ childTokens (s.mem n).leftToChildren :=
    fun hmem ↦ hnew' ⟨a, hs.children.mem_childTokens.mp hmem⟩
  obtain ⟨hpush, hpushed⟩ := pushChild_effect (n := n) s w (.mk a w f)
  set s₁ := pushChild n w (.mk a w f) s with hs₁
  have hother : ∀ m ≠ n, s₁.mem m = s.mem m := fun m hm ↦
    hpushed.effect.mem m (by simpa using hm)
  have hbelow : Below (childTokens (s.mem n).leftToChildren) s₁.mem :=
    hemit.congr (fun m hm ↦ hother m (ne_of_mem_of_not_mem hm hn)) hs.below
  obtain ⟨hbelow', heffect⟩ := hemit.assert (hpushed.effect.base.trans hbase) hbelow hfresh hok
  have hmemn := heffect.mem n hn
  refine ⟨⟨?_, ?_, ?_⟩, ⟨?_, ?_, ?_⟩⟩
  · rw [hmemn, hpush]
    exact hs.children.withChild hnew'
  · rw [hmemn, hpush, childPairs_withChild, hs.pairs_eq]
  · rwa [hmemn, hpush, childTokens_withChild]
  · exact (hpushed.effect.mono (Set.insert_subset_insert (Set.empty_subset _))).trans
      (heffect.mono (Set.subset_insert _ _))
  · rw [hmemn]
    exact hpushed.hashedJoin
  · rw [hmemn]
    exact hpushed.crossProductJoin

/-- What a step does that makes a pair of a token and a fact a child, and delivers it. -/
def AssertsPair (base : Session) (nodes : Set ℕ) (Ok : TokenWME → Prop)
    (Below : Set TokenWME → (ℕ → NodeMemory) → Prop) (n : ℕ)
    (step : TokenWME → FactPtr → Session → Session) : Prop :=
  ∀ {pairs : Set (TokenWME × FactPtr)} {s : Session} {w : TokenWME} {f : FactPtr},
    s.base = base → JoinState Below n pairs s.mem → (w, f) ∉ pairs → (∀ a, Ok (.mk a w f)) →
      JoinState Below n (insert (w, f) pairs) (step w f s).mem ∧ JoinEffect n nodes s (step w f s)

theorem propagateAssert_spec : AssertsPair base nodes Ok Below n (propagateAssert n emit) := by
  intro pairs s w f hbase hs hnew hok
  obtain ⟨a, s₁, hget, hbase₁, hmem₁⟩ := getOrCreateWme_spec s w f
  have hs₁ : JoinState Below n pairs s₁.mem := hmem₁ ▸ hs
  obtain ⟨hs', heffect⟩ := deliverChild_spec hemit hn (hbase₁.trans hbase) hs₁ hnew (hok a)
  have hresult : propagateAssert n emit w f s =
      emit (.mk a w f) .assert (pushChild n w (.mk a w f) s₁) := by
    simp [propagateAssert, hget]
  rw [hresult]
  refine ⟨hs', ⟨heffect.effect.base.trans hbase₁, fun m hm ↦ ?_⟩, ?_, ?_⟩
  · rw [heffect.effect.mem m hm, hmem₁]
  · rw [heffect.hashedJoin, hmem₁]
  · rw [heffect.crossProductJoin, hmem₁]

theorem propagateAssertUncached_spec :
    AssertsPair base nodes Ok Below n (propagateAssertUncached n emit) := by
  intro pairs s w f hbase hs hnew hok
  obtain ⟨hs', heffect⟩ := deliverChild_spec hemit hn (s := (s.createWmeUncached w f).2) hbase hs hnew
    (hok s.nextToken)
  exact ⟨hs', ⟨heffect.effect.base, heffect.effect.mem⟩, heffect.hashedJoin,
    heffect.crossProductJoin⟩

/-- Retracting a pair takes its child away, if it has one. -/
theorem propagateRetract_spec {s : Session} {w : TokenWME}
    {f : FactPtr} (hbase : s.base = base) (hs : JoinState Below n pairs s.mem)
    (hinj : ∀ f', (w, f') ∈ pairs → (base.heap f').id = (base.heap f).id → f' = f)
    (hok : ∀ a, Ok (.mk a w f)) :
    JoinState Below n (pairs \ {(w, f)}) (propagateRetract kb n emit w f s).mem ∧
      JoinEffect n nodes s (propagateRetract kb n emit w f s) := by
  have hheap : s.heap = base.heap := by
    rw [← hbase]
    rfl
  unfold propagateRetract
  generalize hfind : List.find? _ ((s.mem n).leftToChildren w) = found
  cases found with
  | none =>
    -- No child carries the id of the fact, so the pair has none.
    refine ⟨?_, JoinEffect.refl n nodes s⟩
    rw [Set.sdiff_singleton_eq_self]
    · exact hs
    · intro hpair
      rw [← hs.pairs_eq] at hpair
      obtain ⟨a, ha⟩ := hpair
      have := List.find?_eq_none.mp hfind _ ha
      simp [endsWithId, factIds] at this
  | some child =>
    have hmem := List.mem_of_find?_eq_some hfind
    obtain ⟨a, f', rfl⟩ := hs.children.shape hmem
    obtain rfl : f' = f := by
      have hid := List.find?_some hfind
      simp only [endsWithId, factIds, hheap, decide_eq_true_eq] at hid
      exact hinj f' (hs.pairs_eq ▸ ⟨a, hmem⟩) hid
    obtain ⟨hbelow, heffect⟩ := hemit.retract hbase hs.below (hok a)
    set s₁ := emit (.mk a w f') .retract s with hs₁
    have hmemn := heffect.mem n hn
    have hself : ((eraseChild n w (.mk a w f') s₁).mem n).leftToChildren =
        withoutChild (s.mem n).leftToChildren w (.mk a w f') := by
      simp [eraseChild, hmemn]
    refine ⟨⟨?_, ?_, ?_⟩, ⟨⟨heffect.base, ?_⟩, ?_, ?_⟩⟩
    · change ChildrenOk ((eraseChild n w (.mk a w f') s₁).mem n).leftToChildren
      rw [hself]
      exact hs.children.withoutChild _
    · change childPairs ((eraseChild n w (.mk a w f') s₁).mem n).leftToChildren = _
      rw [hself, childPairs_withoutChild hs.children hmem, hs.pairs_eq]
    · change Below (childTokens ((eraseChild n w (.mk a w f') s₁).mem n).leftToChildren)
        (eraseChild n w (.mk a w f') s₁).mem
      rw [hself, childTokens_withoutChild hs.children]
      refine hemit.congr (fun m hm ↦ ?_) hbelow
      simp [eraseChild, ne_of_mem_of_not_mem hm hn]
    · intro m hm
      rw [Set.mem_insert_iff, not_or] at hm
      change (eraseChild n w (.mk a w f') s₁).mem m = s.mem m
      rw [← heffect.mem m hm.2]
      simp [eraseChild, hm.1]
    · change ((eraseChild n w (.mk a w f') s₁).mem n).hashedJoin = _
      simp [eraseChild, hmemn]
    · change ((eraseChild n w (.mk a w f') s₁).mem n).crossProductJoin = _
      simp [eraseChild, hmemn]

omit hemit hn in
/-- Asserting new pairs in turn adds those that pass the test. -/
theorem assertPairs_spec {step : TokenWME → FactPtr → Session → Session}
    (hstep : AssertsPair base nodes Ok Below n step) {c : JoinCondition}
    (l : List (TokenWME × FactPtr)) {s : Session} (hbase : s.base = base)
    (hs : JoinState Below n pairs s.mem) (hnodup : l.Nodup) (hnew : ∀ pair ∈ l, pair ∉ pairs)
    (hok : ∀ pair ∈ l, ∀ a, Ok (.mk a pair.1 pair.2)) :
    let s' := l.foldl (fun s pair ↦
      if checkCondition kb c s pair.1 pair.2 then step pair.1 pair.2 s else s) s
    JoinState Below n (pairs ∪ {pair | pair ∈ l ∧ checkCondition kb c base pair.1 pair.2}) s'.mem ∧
      JoinEffect n nodes s s' := by
  induction l generalizing pairs s with
  | nil => simpa using ⟨hs, JoinEffect.refl n nodes s⟩
  | cons pair l ih =>
    obtain ⟨hnotin, hnodup⟩ := List.nodup_cons.mp hnodup
    have hcheck : checkCondition kb c s pair.1 pair.2 = checkCondition kb c base pair.1 pair.2 := by
      rw [← hbase]
      rfl
    simp only [List.foldl_cons, hcheck]
    by_cases htest : checkCondition kb c base pair.1 pair.2 = true
    · obtain ⟨hs₁, heffect₁⟩ := hstep hbase hs
        (hnew pair List.mem_cons_self) (hok pair List.mem_cons_self)
      obtain ⟨hs₂, heffect₂⟩ := ih (heffect₁.effect.base.trans hbase) hs₁ hnodup
        (fun q hq hmem ↦ by
          rcases Set.mem_insert_iff.mp hmem with rfl | hmem
          · exact hnotin hq
          · exact hnew q (List.mem_cons_of_mem _ hq) hmem)
        (fun q hq ↦ hok q (List.mem_cons_of_mem _ hq))
      rw [if_pos htest]
      refine ⟨?_, heffect₁.trans heffect₂⟩
      convert hs₂ using 1
      ext q
      simp only [Set.mem_union, Set.mem_ofPred_eq, Set.mem_insert_iff, List.mem_cons]
      grind
    · obtain ⟨hs₂, heffect₂⟩ := ih hbase hs hnodup
        (fun q hq ↦ hnew q (List.mem_cons_of_mem _ hq))
        (fun q hq ↦ hok q (List.mem_cons_of_mem _ hq))
      rw [if_neg htest]
      refine ⟨?_, heffect₂⟩
      convert hs₂ using 1
      ext q
      simp only [Set.mem_union, Set.mem_ofPred_eq, List.mem_cons]
      grind

/-- Retracting pairs in turn takes them all away. -/
theorem retractPairs_spec (l : List (TokenWME × FactPtr))
    {s : Session} (hbase : s.base = base) (hs : JoinState Below n pairs s.mem)
    (hinj : ∀ pair ∈ l, ∀ f', (pair.1, f') ∈ pairs →
      (base.heap f').id = (base.heap pair.2).id → f' = pair.2)
    (hok : ∀ pair ∈ l, ∀ a, Ok (.mk a pair.1 pair.2)) :
    let s' := l.foldl (fun s pair ↦ propagateRetract kb n emit pair.1 pair.2 s) s
    JoinState Below n (pairs \ {pair | pair ∈ l}) s'.mem ∧ JoinEffect n nodes s s' := by
  induction l generalizing pairs s with
  | nil => simpa using ⟨hs, JoinEffect.refl n nodes s⟩
  | cons pair l ih =>
    obtain ⟨hs₁, heffect₁⟩ := propagateRetract_spec kb hemit hn hbase hs
      (hinj pair List.mem_cons_self) (hok pair List.mem_cons_self)
    obtain ⟨hs₂, heffect₂⟩ := ih (heffect₁.effect.base.trans hbase) hs₁
      (fun q hq f' hmem ↦ hinj q (List.mem_cons_of_mem _ hq) f' hmem.1)
      (fun q hq ↦ hok q (List.mem_cons_of_mem _ hq))
    simp only [List.foldl_cons]
    refine ⟨?_, heffect₁.trans heffect₂⟩
    convert hs₂ using 1
    ext q
    simp only [Set.mem_sdiff, Set.mem_ofPred_eq, Set.mem_singleton_iff, List.mem_cons]
    grind

variable {pairs : Set (TokenWME × FactPtr)} {s : Session} (hbase : s.base = base)
  (hs : JoinState Below n pairs s.mem)
include hbase hs

theorem assertFacts_spec {c : JoinCondition} {w : TokenWME} (facts : List FactPtr)
    (hnodup : facts.Nodup) (hnew : ∀ f ∈ facts, (w, f) ∉ pairs)
    (hok : ∀ f ∈ facts, ∀ a, Ok (.mk a w f)) :
    JoinState Below n (pairs ∪ {q | q.1 = w ∧ q.2 ∈ facts ∧ checkCondition kb c base w q.2})
        (assertFacts kb n emit c w facts s).mem ∧
      JoinEffect n nodes s (assertFacts kb n emit c w facts s) := by
  have hset : {q : TokenWME × FactPtr | q.1 = w ∧ q.2 ∈ facts ∧ checkCondition kb c base w q.2} =
      {q | q ∈ facts.map (w, ·) ∧ checkCondition kb c base q.1 q.2} := by
    ext ⟨w', f'⟩
    simp
    grind
  rw [hset]
  have hspec := assertPairs_spec kb (propagateAssert_spec hemit hn) (c := c) (facts.map (w, ·)) hbase hs
    (hnodup.map fun _ _ h ↦ congrArg Prod.snd h) (by simpa using hnew) (by simpa using hok)
  simp only [List.foldl_map] at hspec
  exact hspec

theorem assertTokens_spec {c : JoinCondition} {f : FactPtr} (wmes : List TokenWME)
    (hnodup : wmes.Nodup) (hnew : ∀ w ∈ wmes, (w, f) ∉ pairs)
    (hok : ∀ w ∈ wmes, ∀ a, Ok (.mk a w f)) :
    JoinState Below n (pairs ∪ {q | q.1 ∈ wmes ∧ q.2 = f ∧ checkCondition kb c base q.1 f})
        (assertTokens kb n emit c f wmes s).mem ∧
      JoinEffect n nodes s (assertTokens kb n emit c f wmes s) := by
  have hset : {q : TokenWME × FactPtr | q.1 ∈ wmes ∧ q.2 = f ∧ checkCondition kb c base q.1 f} =
      {q | q ∈ wmes.map (·, f) ∧ checkCondition kb c base q.1 q.2} := by
    ext ⟨w', f'⟩
    simp
    grind
  rw [hset]
  have hspec := assertPairs_spec kb (propagateAssert_spec hemit hn) (c := c) (wmes.map (·, f)) hbase hs
    (hnodup.map fun _ _ h ↦ congrArg Prod.fst h) (by simpa using hnew) (by simpa using hok)
  simp only [List.foldl_map] at hspec
  exact hspec

theorem retractFacts_spec {w : TokenWME} (facts : List FactPtr)
    (hinj : ∀ f ∈ facts, ∀ f', (w, f') ∈ pairs → (base.heap f').id = (base.heap f).id → f' = f)
    (hok : ∀ f ∈ facts, ∀ a, Ok (.mk a w f)) :
    JoinState Below n (pairs \ {q | q.1 = w ∧ q.2 ∈ facts})
        (retractFacts kb n emit w facts s).mem ∧
      JoinEffect n nodes s (retractFacts kb n emit w facts s) := by
  have hset : {q : TokenWME × FactPtr | q.1 = w ∧ q.2 ∈ facts} =
      {q | q ∈ facts.map (w, ·)} := by
    ext ⟨w', f'⟩
    simp
    grind
  rw [hset]
  have hspec := retractPairs_spec kb hemit hn (facts.map (w, ·)) hbase hs
    (by simpa using hinj) (by simpa using hok)
  simp only [List.foldl_map] at hspec
  exact hspec

theorem retractTokens_spec {f : FactPtr} (wmes : List TokenWME)
    (hinj : ∀ w ∈ wmes, ∀ f', (w, f') ∈ pairs → (base.heap f').id = (base.heap f).id → f' = f)
    (hok : ∀ w ∈ wmes, ∀ a, Ok (.mk a w f)) :
    JoinState Below n (pairs \ {q | q.1 ∈ wmes ∧ q.2 = f})
        (retractTokens kb n emit f wmes s).mem ∧
      JoinEffect n nodes s (retractTokens kb n emit f wmes s) := by
  have hset : {q : TokenWME × FactPtr | q.1 ∈ wmes ∧ q.2 = f} =
      {q | q ∈ wmes.map (·, f)} := by
    ext ⟨w', f'⟩
    simp
    grind
  rw [hset]
  have hspec := retractPairs_spec kb hemit hn (wmes.map (·, f)) hbase hs
    (by simpa using hinj) (by simpa using hok)
  simp only [List.foldl_map] at hspec
  exact hspec

end Pairs

end RulesForge
