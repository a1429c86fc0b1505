import Mathlib.Data.List.Induction
import Mathlib.Data.List.ProdSigma
import RulesForge.Rete.RightActivation

/-!
# Batches in the beta network

A join or condition node may get several new facts at once. A join stores them first; a cross
product then makes the tokens of each left token, and hands them on as a batch, while a hashed
join groups the facts by their keys and hands the tokens on one by one. A condition node takes the
facts one after the other, and of the nodes that get tokens only terminal nodes have a method of
their own for batches.

Each keeps its invariant, with the facts of the batch on its right (`betaRightActivateBatch_spec`):
what a node makes of a batch is what it makes of its facts one by one.
-/

namespace RulesForge

open Forest

/-! ### Batches of tokens -/

/-- What the lemmas about a node know of its emission of batches: all tokens of the batch join the
set of delivered tokens. -/
structure EmitBatchSpec (base : Session) (nodes : Set ℕ) (Ok : TokenWME → Prop)
    (Below : Set TokenWME → (ℕ → NodeMemory) → Prop)
    (emitBatch : List TokenWME → Session → Session) : Prop where
  assert : ∀ {D s wmes}, s.base = base → Below D s.mem → wmes.Nodup → (∀ x ∈ wmes, x ∉ D ∧ Ok x) →
    Below (D ∪ {x | x ∈ wmes}) (emitBatch wmes s).mem ∧ Effect nodes s (emitBatch wmes s)
  congr : ∀ {D mem mem'}, (∀ m ∈ nodes, mem' m = mem m) → Below D mem → Below D mem'

section Terminal

variable {kb : KnowledgeBase} {n rule : ℕ} {D : Set TokenWME} {s : Session}

@[simp]
theorem addActivationsBatch_base (s : Session) (activations : List Activation) :
    (s.addActivationsBatch kb activations).base = s.base := rfl

@[simp]
theorem addActivationsBatch_mem (s : Session) (activations : List Activation) :
    (s.addActivationsBatch kb activations).mem = s.mem := rfl

/-- A new token enters the memory of a terminal node. -/
theorem TerminalInv.append {w : TokenWME} (hinv : TerminalInv D (s.mem n)) (hw : w ∉ D) :
    TerminalInv (insert w D) ((updateTerminal n (· ++ [w]) s).mem n) ∧
      Effect {n} s (updateTerminal n (· ++ [w]) s) := by
  have hnotin : w ∉ (s.mem n).terminal := fun hmem ↦ hw ((hinv.mem_terminal w).mp hmem)
  have hterminal : ((updateTerminal n (· ++ [w]) s).mem n).terminal = (s.mem n).terminal ++ [w] := by
    simp [updateTerminal]
  refine ⟨⟨?_, fun w' ↦ ?_⟩, Effect.updateMem (Set.mem_singleton n) s _⟩
  · rw [hterminal]
    exact hinv.nodup.append (List.nodup_singleton w) (List.disjoint_singleton.mpr hnotin)
  · rw [hterminal, List.mem_append, List.mem_singleton, hinv.mem_terminal, Set.mem_insert_iff]
    exact or_comm

variable (kb rule) in
/-- The loop over the tokens of a batch. -/
theorem terminal_foldl_append (bindings : Bindings) (wmes : List TokenWME) (added : List Activation)
    (hinv : TerminalInv D (s.mem n)) (hnodup : wmes.Nodup) (hnew : ∀ w ∈ wmes, w ∉ D) :
    let r := wmes.foldl (fun (s, added) w ↦
      if w ∈ (s.mem n).terminal then (s, added)
      else (updateTerminal n (· ++ [w]) s, added ++ [activationOf kb rule (some bindings) w]))
      (s, added)
    TerminalInv (D ∪ {w | w ∈ wmes}) (r.1.mem n) ∧ Effect {n} s r.1 := by
  induction wmes generalizing s D added with
  | nil => simpa using ⟨hinv, Effect.refl _ s⟩
  | cons w wmes ih =>
    obtain ⟨hnotin, hnodup⟩ := List.nodup_cons.mp hnodup
    have hw : w ∉ D := hnew w List.mem_cons_self
    have hnotin' : w ∉ (s.mem n).terminal := fun hmem ↦ hw ((hinv.mem_terminal w).mp hmem)
    obtain ⟨hinv₁, heffect₁⟩ := hinv.append hw
    obtain ⟨hinv₂, heffect₂⟩ := ih (added ++ [activationOf kb rule (some bindings) w]) hinv₁ hnodup
      fun w' hw' hmem ↦ by
        rcases Set.mem_insert_iff.mp hmem with rfl | hmem
        · exact hnotin hw'
        · exact hnew w' (List.mem_cons_of_mem _ hw') hmem
    have hset : D ∪ {w' | w' ∈ w :: wmes} = insert w D ∪ {w' | w' ∈ wmes} := by
      ext w'
      simp only [Set.mem_union, Set.mem_ofPred_eq, Set.mem_insert_iff, List.mem_cons]
      grind
    simp only [List.foldl_cons, if_neg hnotin', hset]
    exact ⟨hinv₂, heffect₁.trans heffect₂⟩

variable (kb rule) in
/-- A terminal node holds the tokens of a batch from now on. -/
theorem terminalLeftBatch_spec (bindings : Bindings) {wmes : List TokenWME}
    (hinv : TerminalInv D (s.mem n)) (hnodup : wmes.Nodup) (hnew : ∀ w ∈ wmes, w ∉ D) :
    let s' := terminalLeftBatch kb n rule bindings wmes s
    TerminalInv (D ∪ {w | w ∈ wmes}) (s'.mem n) ∧ Effect {n} s s' := by
  obtain ⟨hinv', heffect⟩ := terminal_foldl_append kb rule bindings wmes [] hinv
    hnodup hnew
  simp only [terminalLeftBatch]
  split
  · exact ⟨hinv', heffect⟩
  · refine ⟨?_, ?_, fun m hm ↦ ?_⟩
    · rw [addActivationsBatch_mem, applyAutoFocus_mem]
      exact hinv'
    · rw [addActivationsBatch_base, applyAutoFocus_base]
      exact heffect.base
    · rw [addActivationsBatch_mem, applyAutoFocus_mem]
      exact heffect.mem m hm

end Terminal

section Emission

variable {kb : KnowledgeBase} {S : Scene kb} {P : Phase S} {levels n : ℕ} {D : Set TokenWME}
  {s : Session} {wmes : List TokenWME}

/-- The tokens of a batch are asserted one by one. -/
theorem LeftSpec.assertAll (h : LeftSpec P levels n) (hbase : s.base = S.base)
    (hinv : SubtreeInv P n D s.mem) (hnodup : wmes.Nodup) (hnew : ∀ w ∈ wmes, w ∉ D ∧ S.Ok w) :
    let s' := wmes.foldl (fun s w ↦ leftActivate kb S.logicalRetract levels n w .assert s) s
    SubtreeInv P n (D ∪ {w | w ∈ wmes}) s'.mem ∧ Effect {m | Desc kb.network.LeftEdge n m} s s' := by
  induction wmes generalizing s D with
  | nil => simpa using ⟨hinv, Effect.refl _ s⟩
  | cons w wmes ih =>
    obtain ⟨hnotin, hnodup⟩ := List.nodup_cons.mp hnodup
    obtain ⟨hw, hok⟩ := hnew w List.mem_cons_self
    obtain ⟨hinv₁, heffect₁⟩ := h.assert hbase hinv hw hok
    obtain ⟨hinv₂, heffect₂⟩ := ih (heffect₁.base.trans hbase) hinv₁ hnodup fun w' hw' ↦ by
      refine ⟨fun hmem ↦ ?_, (hnew w' (List.mem_cons_of_mem _ hw')).2⟩
      rcases Set.mem_insert_iff.mp hmem with rfl | hmem
      · exact hnotin hw'
      · exact (hnew w' (List.mem_cons_of_mem _ hw')).1 hmem
    have hset : D ∪ {w' | w' ∈ w :: wmes} = insert w D ∪ {w' | w' ∈ wmes} := by
      ext w'
      simp only [Set.mem_union, Set.mem_ofPred_eq, Set.mem_insert_iff, List.mem_cons]
      grind
    rw [hset]
    exact ⟨hinv₂, heffect₁.trans heffect₂⟩

/-- A batch of tokens for one node. -/
theorem LeftSpec.assertBatch (h : LeftSpec P levels n) (hbase : s.base = S.base)
    (hinv : SubtreeInv P n D s.mem) (hnodup : wmes.Nodup) (hnew : ∀ w ∈ wmes, w ∉ D ∧ S.Ok w) :
    let s' := leftActivateBatch kb S.logicalRetract levels n wmes s
    SubtreeInv P n (D ∪ {w | w ∈ wmes}) s'.mem ∧ Effect {m | Desc kb.network.LeftEdge n m} s s' := by
  unfold leftActivateBatch
  cases hkind : kb.network.kind n with
  | terminal rule bindings =>
    have hbeta : (kb.network.kind n).isBetaNode = false := by rw [hkind]; rfl
    obtain ⟨hD, hnode⟩ := (subtreeInv_of_not_beta hbeta).mp hinv
    simp only [hkind] at hnode
    obtain ⟨hnode', heffect⟩ := terminalLeftBatch_spec kb rule bindings hnode hnodup
      fun w hw ↦ (hnew w hw).1
    refine ⟨(subtreeInv_of_not_beta hbeta).mpr ⟨?_, ?_⟩, heffect.mono ?_⟩
    · rintro w (hw | hw)
      · exact hD w hw
      · exact (hnew w hw).2
    · simpa only [hkind] using hnode'
    · rintro m rfl
      exact .refl
  | _ => exact h.assertAll hbase hinv hnodup hnew

variable (hnet : kb.network.WellFormed)
include hnet

/-- The children of a node get a batch in turn. -/
theorem emitBatchFrom_spec (hbeta : (kb.network.kind n).isBetaNode = true)
    (hchildren : ∀ c, kb.network.LeftEdge n c → LeftSpec P levels c) :
    EmitBatchSpec S.base {m | StrictDesc kb.network.LeftEdge n m} S.Ok (BelowInv P n)
      (emitBatchFrom kb S.logicalRetract levels n) := by
  have hedge : ∀ c ∈ kb.network.children n, kb.network.LeftEdge n c := fun c hc ↦ ⟨hc, hbeta⟩
  refine ⟨fun {D s wmes} hbase hbelow hnodup hnew ↦ ?_,
    (emitFrom_spec hnet hbeta hchildren).congr⟩
  obtain ⟨hinv, heffect⟩ := foldl_children hnet (D ∪ {x | x ∈ wmes})
    (fun c hc s hbase hinv ↦ (hchildren c hc).assertBatch hbase hinv hnodup hnew)
    (kb.network.children n) (hnet.children_nodup n) hedge hbase fun c hc ↦ hbelow c (hedge c hc)
  refine ⟨fun c hc ↦ hinv c hc.1, heffect.mono ?_⟩
  rintro m ⟨c, hc, hm⟩
  exact strictDesc_iff.mpr ⟨c, hedge c hc, hm⟩

end Emission

/-! ### The tokens of a left token -/

section Pairs

variable (kb : KnowledgeBase) {base : Session} {nodes : Set ℕ} {Ok : TokenWME → Prop}
  {Below : Set TokenWME → (ℕ → NodeMemory) → Prop} {n : ℕ} {c : JoinCondition}

/-- What is left in the memories when new tokens have been recorded and not yet delivered. -/
structure Created (n : ℕ) (s : Session) (w : TokenWME) (facts : List FactPtr)
    (pairs : Set (TokenWME × FactPtr)) (wmes : List TokenWME) (s' : Session) : Prop where
  children : ChildrenOk (s'.mem n).leftToChildren
  pairs_eq : childPairs (s'.mem n).leftToChildren = pairs
  tokens_eq : childTokens (s'.mem n).leftToChildren =
    childTokens (s.mem n).leftToChildren ∪ {x | x ∈ wmes}
  nodup : wmes.Nodup
  fresh : ∀ x ∈ wmes, x ∉ childTokens (s.mem n).leftToChildren
  shape : ∀ x ∈ wmes, ∃ a, ∃ f ∈ facts, x = .mk a w f
  effect : JoinEffect n ∅ s s'

theorem createTokens_concat (w : TokenWME) (facts : List FactPtr) (f : FactPtr) (s : Session) :
    createTokens kb n c w (facts ++ [f]) s =
      let r := createTokens kb n c w facts s
      if checkCondition kb c r.2 w f then
        (r.1 ++ [.mk r.2.nextToken w f],
          pushChild n w (.mk r.2.nextToken w f) { r.2 with nextToken := r.2.nextToken + 1 })
      else r := by
  simp only [createTokens, List.foldl_append, List.foldl_cons, List.foldl_nil]
  rfl

/-- A left token makes its tokens with the facts that pass the test. -/
theorem createTokens_spec {s : Session} {w : TokenWME} (facts : List FactPtr)
    (hbase : s.base = base) (hchildren : ChildrenOk (s.mem n).leftToChildren) (hnodup : facts.Nodup)
    (hnew : ∀ f ∈ facts, (w, f) ∉ childPairs (s.mem n).leftToChildren) :
    let r := createTokens kb n c w facts s
    Created n s w facts (childPairs (s.mem n).leftToChildren ∪
      {q | q.1 = w ∧ q.2 ∈ facts ∧ checkCondition kb c base w q.2}) r.1 r.2 := by
  induction facts using List.reverseRecOn with
  | nil =>
    refine ⟨hchildren, ?_, ?_, List.nodup_nil, ?_, ?_, JoinEffect.refl n ∅ s⟩
    all_goals simp [createTokens]
  | append_singleton facts f ih =>
    obtain ⟨hnodup, -, hdisjoint⟩ := List.nodup_append.mp hnodup
    have hf : f ∉ facts := fun hmem ↦ hdisjoint f hmem f (List.mem_singleton_self f) rfl
    have h := ih hnodup fun g hg ↦ hnew g (List.mem_append_left _ hg)
    have hfnew := hnew f (List.mem_append_right _ (List.mem_singleton_self f))
    rw [createTokens_concat]
    set r := createTokens kb n c w facts s with hr
    have hcheck : checkCondition kb c r.2 w f = checkCondition kb c base w f := by
      rw [← hbase, ← h.effect.effect.base]
      rfl
    dsimp only
    rw [hcheck]
    by_cases htest : checkCondition kb c base w f = true
    · rw [if_pos htest]
      set child := TokenWME.mk r.2.nextToken w f with hchild
      have hpair : (w, f) ∉ childPairs (r.2.mem n).leftToChildren := by
        rw [h.pairs_eq]
        rintro (hmem | ⟨-, hmem, -⟩)
        · exact hfnew hmem
        · exact hf hmem
      have hfresh : child ∉ childTokens (r.2.mem n).leftToChildren :=
        fun hmem ↦ hpair ⟨_, h.children.mem_childTokens.mp hmem⟩
      rw [h.tokens_eq] at hfresh
      obtain ⟨hpush, hpushed⟩ :=
        pushChild_effect (n := n) { r.2 with nextToken := r.2.nextToken + 1 } w child
      refine ⟨?_, ?_, ?_, ?_, ?_, ?_, h.effect.trans
        ⟨⟨hpushed.effect.base, hpushed.effect.mem⟩, hpushed.hashedJoin, hpushed.crossProductJoin⟩⟩
      · rw [hpush]
        exact h.children.withChild hpair
      · rw [hpush, childPairs_withChild, h.pairs_eq]
        ext ⟨w', f'⟩
        simp only [Set.mem_insert_iff, Set.mem_union, Set.mem_ofPred_eq, List.mem_append,
          List.mem_singleton, Prod.mk.injEq]
        grind
      · rw [hpush, childTokens_withChild, h.tokens_eq]
        ext x
        simp only [Set.mem_insert_iff, Set.mem_union, Set.mem_ofPred_eq, List.mem_append,
          List.mem_singleton]
        grind
      · exact h.nodup.append (List.nodup_singleton child)
          (List.disjoint_singleton.mpr fun hmem ↦ hfresh (.inr hmem))
      · intro x hx
        rcases List.mem_append.mp hx with hx | hx
        · exact h.fresh x hx
        · rw [List.mem_singleton.mp hx]
          exact fun hmem ↦ hfresh (.inl hmem)
      · intro x hx
        rcases List.mem_append.mp hx with hx | hx
        · obtain ⟨a, g, hg, rfl⟩ := h.shape x hx
          exact ⟨a, g, List.mem_append_left _ hg, rfl⟩
        · rw [List.mem_singleton.mp hx]
          exact ⟨_, f, List.mem_append_right _ (List.mem_singleton_self f), rfl⟩
    · rw [if_neg htest]
      refine ⟨h.children, ?_, h.tokens_eq, h.nodup, h.fresh, fun x hx ↦ ?_, h.effect⟩
      · rw [h.pairs_eq]
        ext ⟨w', f'⟩
        simp only [Set.mem_union, Set.mem_ofPred_eq, List.mem_append, List.mem_singleton]
        grind
      · obtain ⟨a, g, hg, rfl⟩ := h.shape x hx
        exact ⟨a, g, List.mem_append_left _ hg, rfl⟩

variable {emitBatch : List TokenWME → Session → Session}
  (hemit : EmitBatchSpec base nodes Ok Below emitBatch) (hn : n ∉ nodes)
include hemit hn

/-- The left tokens in turn hand their new tokens on. -/
theorem assertBatches_spec (l : List TokenWME) {facts : List FactPtr}
    {pairs : Set (TokenWME × FactPtr)} {s : Session} (hbase : s.base = base)
    (hs : JoinState Below n pairs s.mem) (hl : l.Nodup) (hnodup : facts.Nodup)
    (hnew : ∀ w ∈ l, ∀ f ∈ facts, (w, f) ∉ pairs)
    (hok : ∀ w ∈ l, ∀ f ∈ facts, ∀ a, Ok (.mk a w f)) :
    let s' := l.foldl (fun s w ↦
      let (wmes, s) := createTokens kb n c w facts s
      if wmes = [] then s else emitBatch wmes s) s
    JoinState Below n
        (pairs ∪ {q | q.1 ∈ l ∧ q.2 ∈ facts ∧ checkCondition kb c base q.1 q.2}) s'.mem ∧
      JoinEffect n nodes s s' := by
  induction l generalizing pairs s with
  | nil => simpa using ⟨hs, JoinEffect.refl n nodes s⟩
  | cons w l ih =>
    obtain ⟨hnotin, hl⟩ := List.nodup_cons.mp hl
    have hcreated := createTokens_spec kb (c := c) facts hbase hs.children hnodup
      fun f hf ↦ by
        rw [hs.pairs_eq]
        exact hnew w List.mem_cons_self f hf
    rw [hs.pairs_eq] at hcreated
    rcases hr : createTokens kb n c w facts s with ⟨wmes, s₁⟩
    rw [hr] at hcreated
    have hbelow : Below (childTokens (s.mem n).leftToChildren) s₁.mem := by
      refine hemit.congr (fun m hm ↦ hcreated.effect.effect.mem m ?_) hs.below
      simpa using ne_of_mem_of_not_mem hm hn
    have heffect₁ : JoinEffect n nodes s s₁ :=
      ⟨hcreated.effect.effect.mono (Set.insert_subset_insert (Set.empty_subset _)),
        hcreated.effect.hashedJoin, hcreated.effect.crossProductJoin⟩
    -- the tokens are delivered, if there are any
    have hdelivered : let s₂ := if wmes = [] then s₁ else emitBatch wmes s₁
        JoinState Below n (pairs ∪ {q | q.1 = w ∧ q.2 ∈ facts ∧ checkCondition kb c base w q.2})
          s₂.mem ∧ JoinEffect n nodes s s₂ := by
      split
      · next hempty =>
        refine ⟨⟨hcreated.children, hcreated.pairs_eq, ?_⟩, heffect₁⟩
        rw [hcreated.tokens_eq, hempty]
        simpa using hbelow
      · obtain ⟨hbelow₂, heffect₂⟩ := hemit.assert (heffect₁.effect.base.trans hbase) hbelow
          hcreated.nodup fun x hx ↦ ⟨hcreated.fresh x hx, by
            obtain ⟨a, f, hf, rfl⟩ := hcreated.shape x hx
            exact hok w List.mem_cons_self f hf a⟩
        have hmemn := heffect₂.mem n hn
        refine ⟨⟨?_, ?_, ?_⟩, heffect₁.trans ⟨heffect₂.mono (Set.subset_insert _ _), ?_, ?_⟩⟩
        · rw [hmemn]
          exact hcreated.children
        · rw [hmemn]
          exact hcreated.pairs_eq
        · rw [hmemn, hcreated.tokens_eq]
          exact hbelow₂
        · rw [hmemn]
        · rw [hmemn]
    obtain ⟨hs₂, heffect₂⟩ := hdelivered
    obtain ⟨hs₃, heffect₃⟩ := ih (heffect₂.effect.base.trans hbase) hs₂ hl
      (fun w' hw' f hf hmem ↦ by
        rcases hmem with hmem | ⟨rfl, -⟩
        · exact hnew w' (List.mem_cons_of_mem _ hw') f hf hmem
        · exact hnotin hw')
      fun w' hw' ↦ hok w' (List.mem_cons_of_mem _ hw')
    simp only [List.foldl_cons, hr]
    refine ⟨?_, heffect₂.trans heffect₃⟩
    convert hs₃ using 1
    ext ⟨w', f'⟩
    simp only [Set.mem_union, Set.mem_ofPred_eq, List.mem_cons]
    grind

end Pairs

/-! ### Joins -/

section Joins

variable {kb : KnowledgeBase} {base : Session} {nodes : Set ℕ} {Ok : TokenWME → Prop}
  {Below : Set TokenWME → (ℕ → NodeMemory) → Prop} {n : ℕ} {c : JoinCondition}
  {R : Set FactPtr} {stale : TokenWME → Prop} {pending : FactPtr → Prop} {D : Set TokenWME}
  {s : Session} {facts : List FactPtr}

/-- New facts enter the right memory of a cross product. -/
theorem foldl_insertRight {right : List (ℤ × FactPtr)} (hunique : AssocMap.Unique right)
    (hright : ∀ id f, (id, f) ∈ right ↔ f ∈ R ∧ id = (base.heap f).id) (hnew : ∀ f ∈ facts, f ∉ R)
    (hnodup : facts.Nodup)
    (hid : Set.InjOn (fun f ↦ (base.heap f).id) (R ∪ {f | f ∈ facts})) :
    let right' := facts.foldl (fun right f ↦ AssocMap.insert (base.heap f).id f right) right
    AssocMap.Unique right' ∧
      ∀ id f, (id, f) ∈ right' ↔ f ∈ R ∪ {f | f ∈ facts} ∧ id = (base.heap f).id := by
  induction facts generalizing R right with
  | nil => simpa using ⟨hunique, hright⟩
  | cons p facts ih =>
    obtain ⟨hnotin, hnodup⟩ := List.nodup_cons.mp hnodup
    have hset : R ∪ {f | f ∈ p :: facts} = insert p R ∪ {f | f ∈ facts} := by
      ext f
      simp only [Set.mem_union, Set.mem_ofPred_eq, Set.mem_insert_iff, List.mem_cons]
      grind
    rw [hset] at hid ⊢
    refine ih (hunique.insert _ _) (fun id f ↦ ?_) (fun f hf hmem ↦ ?_) hnodup hid
    · rw [AssocMap.mem_insert, hright, Set.mem_insert_iff]
      constructor
      · rintro (⟨-, hf, rfl⟩ | ⟨rfl, rfl⟩)
        · exact ⟨.inr hf, rfl⟩
        · exact ⟨.inl rfl, rfl⟩
      · rintro ⟨rfl | hf, rfl⟩
        · exact .inr ⟨rfl, rfl⟩
        · refine .inl ⟨fun heq ↦ ?_, hf, rfl⟩
          have hfp : f = p := hid (.inl (.inr hf)) (.inl (.inl rfl)) heq
          exact hnew p List.mem_cons_self (hfp ▸ hf)
    · rcases Set.mem_insert_iff.mp hmem with rfl | hmem
      · exact hnotin hf
      · exact hnew f (List.mem_cons_of_mem _ hf) hmem

/-- A memory of the node itself is changed that is not about its children. -/
theorem JoinState.congr {pairs : Set (TokenWME × FactPtr)} {mem mem' : ℕ → NodeMemory}
    (hcongr : ∀ {D mem mem'}, (∀ m ∈ nodes, mem' m = mem m) → Below D mem → Below D mem')
    (hs : JoinState Below n pairs mem)
    (hself : (mem' n).leftToChildren = (mem n).leftToChildren) (hother : ∀ m ∈ nodes, mem' m = mem m) :
    JoinState Below n pairs mem' where
  children := by
    rw [hself]
    exact hs.children
  pairs_eq := by
    rw [hself]
    exact hs.pairs_eq
  below := by
    rw [hself]
    exact hcongr hother hs.below

/-- A batch of facts for a cross product. -/
theorem crossProductRightBatch_spec {emitBatch : List TokenWME → Session → Session}
    (hemit : EmitBatchSpec base nodes Ok Below emitBatch) (hn : n ∉ nodes) (hbase : s.base = base)
    (hinv : CrossProductInv kb base c R stale pending D (s.mem n))
    (hbelow : Below (childTokens (s.mem n).leftToChildren) s.mem) (hnodup : facts.Nodup)
    (hnew : ∀ f ∈ facts, f ∉ R)
    (hid : Set.InjOn (fun f ↦ (base.heap f).id) (R ∪ {f | f ∈ facts}))
    (hok : ∀ w ∈ D, ∀ f ∈ facts, ∀ a, Ok (.mk a w f)) :
    let s' := crossProductRightBatch kb n emitBatch c facts s
    CrossProductInv kb base c (R ∪ {f | f ∈ facts}) stale pending D (s'.mem n) ∧
      Below (childTokens (s'.mem n).leftToChildren) s'.mem ∧ Effect (insert n nodes) s s' := by
  have hheap : s.heap = base.heap := by
    rw [← hbase]
    rfl
  set right := facts.foldl (fun right f ↦ AssocMap.insert (base.heap f).id f right)
    (s.mem n).crossProductJoin.right with hright
  obtain ⟨hunique, hmemRight⟩ := foldl_insertRight hinv.right_unique hinv.mem_right hnew hnodup hid
  set s₁ := updateCrossProduct n (fun mem ↦ { mem with
    right := facts.foldl (fun right f ↦ AssocMap.insert (base.heap f).id f right) mem.right }) s
    with hs₁
  have hcross₁ : (s₁.mem n).crossProductJoin =
      { left := (s.mem n).crossProductJoin.left, right := right } := by
    simp [hs₁, updateCrossProduct, hright]
  have hstate : JoinState Below n (childPairs (s.mem n).leftToChildren) s₁.mem := by
    refine JoinState.congr hemit.congr ⟨hinv.children, rfl, hbelow⟩ ?_ fun m hm ↦ ?_
    · simp [hs₁, updateCrossProduct]
    · simp [hs₁, updateCrossProduct, ne_of_mem_of_not_mem hm hn]
  have hleft : ∀ w, w ∈ (s.mem n).crossProductJoin.left ↔ w ∈ D := hinv.mem_left
  obtain ⟨hstate', heffect⟩ := assertBatches_spec kb (c := c) hemit hn
    (s.mem n).crossProductJoin.left (s := s₁) hbase hstate hinv.left_nodup hnodup
    (fun w _ f hf hpair ↦ hnew f hf (hinv.matched hpair).2)
    fun w hw f hf a ↦ hok w ((hleft w).mp hw) f hf a
  have hresult : crossProductRightBatch kb n emitBatch c facts s =
      (s.mem n).crossProductJoin.left.foldl (fun s w ↦
        let (wmes, s) := createTokens kb n c w facts s
        if wmes = [] then s else emitBatch wmes s) s₁ := by
    simp only [crossProductRightBatch, hheap, ← hs₁, hcross₁]
  rw [hresult]
  have hpairs := hstate'.pairs_eq
  have hcross := heffect.crossProductJoin.trans hcross₁
  refine ⟨⟨?_, ?_, ?_, ?_, hstate'.children, ?_, ?_⟩, hstate'.below, ?_⟩
  · rw [hcross]
    exact hinv.left_nodup
  · rw [hcross]
    exact hleft
  · rw [hcross]
    exact hunique
  · rw [hcross]
    exact hmemRight
  · intro w f hpair
    rw [hpairs] at hpair
    rcases hpair with hpair | ⟨hw, hf, -⟩
    · exact ⟨(hinv.matched hpair).1, .inl (hinv.matched hpair).2⟩
    · exact ⟨(hleft w).mp hw, .inr hf⟩
  · intro w f hw hf hstale hpending
    rw [hpairs]
    simp only [Set.mem_union, Set.mem_ofPred_eq, hleft, hw, true_and]
    rcases hf with hf | hf
    · rw [hinv.exact hw hf hstale hpending]
      exact or_iff_left fun h ↦ hnew f h.1 hf
    · have hnone : (w, f) ∉ childPairs (s.mem n).leftToChildren :=
        fun hpair ↦ hnew f hf (hinv.matched hpair).2
      exact (or_iff_right hnone).trans (and_iff_right hf)
  · exact (Effect.updateMem (Set.mem_insert n nodes) s _).trans heffect.effect

/-- The facts of a batch that have a key. -/
theorem mem_keyed {heap : Heap} {rightHashKey : String} {key : ConstraintValue} {f : FactPtr} :
    (key, f) ∈ facts.filterMap (fun fact ↦
        (getField heap fact rightHashKey).map fun key ↦ (key, fact)) ↔
      f ∈ facts ∧ getField heap f rightHashKey = some key := by
  simp only [List.mem_filterMap, Option.map_eq_some_iff, Prod.mk.injEq]
  constructor
  · rintro ⟨f', hf', k, hk, rfl, rfl⟩
    exact ⟨hf', hk⟩
  · rintro ⟨hf, hk⟩
    exact ⟨f, hf, key, hk, rfl, rfl⟩

theorem keyed_map_snd (heap : Heap) (rightHashKey : String) (facts : List FactPtr) :
    (facts.filterMap fun fact ↦ (getField heap fact rightHashKey).map fun key ↦ (key, fact)).map
      Prod.snd = facts.filter fun fact ↦ (getField heap fact rightHashKey).isSome := by
  induction facts with
  | nil => rfl
  | cons f facts ih =>
    cases hkey : getField heap f rightHashKey <;> simp [hkey, ih]

/-- The tokens of one key and the facts of that key. -/
theorem assertKeyed_spec {emit : Emission} (hemit : EmitSpec base nodes Ok Below emit) (hn : n ∉ nodes)
    {pairs : Set (TokenWME × FactPtr)} (hbase : s.base = base) (hs : JoinState Below n pairs s.mem)
    (wmes : List TokenWME) (hwmes : wmes.Nodup) (hnodup : facts.Nodup)
    (hnew : ∀ w ∈ wmes, ∀ f ∈ facts, (w, f) ∉ pairs)
    (hok : ∀ w ∈ wmes, ∀ f ∈ facts, ∀ a, Ok (.mk a w f)) :
    let s' := wmes.foldl (fun s w ↦ facts.foldl (fun s f ↦
      if checkCondition kb c s w f then propagateAssertUncached n emit w f s else s) s) s
    JoinState Below n
        (pairs ∪ {q | q.1 ∈ wmes ∧ q.2 ∈ facts ∧ checkCondition kb c base q.1 q.2}) s'.mem ∧
      JoinEffect n nodes s s' := by
  have hspec := assertPairs_spec kb (propagateAssertUncached_spec hemit hn) (c := c)
    (wmes.product facts) hbase hs (hwmes.product hnodup)
    (fun q hq ↦ hnew q.1 (List.mem_product.mp hq).1 q.2 (List.mem_product.mp hq).2)
    fun q hq ↦ hok q.1 (List.mem_product.mp hq).1 q.2 (List.mem_product.mp hq).2
  simp only [List.product, List.foldl_flatMap, List.foldl_map] at hspec
  have hset : {q : TokenWME × FactPtr | q.1 ∈ wmes ∧ q.2 ∈ facts ∧
      checkCondition kb c base q.1 q.2} =
      {q | q ∈ wmes.product facts ∧ checkCondition kb c base q.1 q.2} := by
    ext ⟨w, f⟩
    have hmem : (w, f) ∈ wmes.product facts ↔ w ∈ wmes ∧ f ∈ facts := List.mem_product
    simp only [Set.mem_ofPred_eq, hmem, and_assoc]
  rw [hset]
  exact hspec

/-- The groups of a batch in turn. -/
theorem assertGroups_spec {emit : Emission} (hemit : EmitSpec base nodes Ok Below emit) (hn : n ∉ nodes)
    (groups : List (ConstraintValue × List FactPtr)) {left : List (ConstraintValue × TokenWME)}
    (hleft : (left.map Prod.snd).Nodup) {pairs : Set (TokenWME × FactPtr)} (hbase : s.base = base)
    (hmem : (s.mem n).hashedJoin.left = left) (hs : JoinState Below n pairs s.mem)
    (hnodup : (groups.flatMap Prod.snd).Nodup)
    (hnew : ∀ w, ∀ f ∈ groups.flatMap Prod.snd, (w, f) ∉ pairs)
    (hok : ∀ k w, (k, w) ∈ left → ∀ f ∈ groups.flatMap Prod.snd, ∀ a, Ok (.mk a w f)) :
    let s' := groups.foldl (fun s (key, keyed) ↦
      (bucket (factIds base.heap) key (s.mem n).hashedJoin.left).foldl (fun s w ↦
        keyed.foldl (fun s f ↦
          if checkCondition kb c s w f then propagateAssertUncached n emit w f s else s) s) s) s
    JoinState Below n (pairs ∪ {q | ∃ g ∈ groups, q.1 ∈ bucket (factIds base.heap) g.1 left ∧
        q.2 ∈ g.2 ∧ checkCondition kb c base q.1 q.2}) s'.mem ∧
      JoinEffect n nodes s s' := by
  induction groups generalizing pairs s with
  | nil => simpa using ⟨hs, JoinEffect.refl n nodes s⟩
  | cons g groups ih =>
    obtain ⟨key, keyed⟩ := g
    simp only [List.flatMap_cons] at hnodup hnew hok
    obtain ⟨hkeyed, hnodup, hdisjoint⟩ := List.nodup_append.mp hnodup
    have hbucket : ∀ {w}, w ∈ bucket (factIds base.heap) key left → ∃ k, (k, w) ∈ left := by
      intro w hw
      obtain ⟨⟨k, w⟩, he, rfl⟩ := List.mem_map.mp hw
      exact ⟨k, (List.mem_filter.mp he).1⟩
    obtain ⟨hs₁, heffect₁⟩ := assertKeyed_spec (c := c) hemit hn hbase hs
      (bucket (factIds base.heap) key left) (nodup_bucket hleft) hkeyed
      (fun w _ f hf ↦ hnew w f (List.mem_append_left _ hf))
      fun w hw f hf ↦ hok _ w (hbucket hw).choose_spec f (List.mem_append_left _ hf)
    obtain ⟨hs₂, heffect₂⟩ := ih (heffect₁.effect.base.trans hbase)
      ((congrArg HashedJoinMem.left heffect₁.hashedJoin).trans hmem) hs₁ hnodup
      (fun w f hf hpair ↦ by
        rcases hpair with hpair | ⟨-, hf', -⟩
        · exact hnew w f (List.mem_append_right _ hf) hpair
        · exact hdisjoint f hf' f hf rfl)
      fun k w hw f hf ↦ hok k w hw f (List.mem_append_right _ hf)
    simp only [List.foldl_cons, hmem]
    refine ⟨?_, heffect₁.trans heffect₂⟩
    convert hs₂ using 1
    ext q
    simp only [Set.mem_union, Set.mem_ofPred_eq, List.exists_mem_cons_iff, or_assoc]

/-- A batch of facts for a hashed join. -/
theorem hashedRightBatch_spec {emit : Emission} (hemit : EmitSpec base nodes Ok Below emit)
    (hn : n ∉ nodes) (hbase : s.base = base) {leftHashKey : String × ℕ} {rightHashKey : String}
    (hinv : HashedInv kb base c leftHashKey rightHashKey R stale pending D (s.mem n))
    (hbelow : Below (childTokens (s.mem n).leftToChildren) s.mem) (hnodup : facts.Nodup)
    (hnew : ∀ f ∈ facts, f ∉ R) (hok : ∀ w ∈ D, ∀ f ∈ facts, ∀ a, Ok (.mk a w f))
    (hplain : ∀ f ∈ facts, ∀ key, getField base.heap f rightHashKey = some key →
      key.isPlain = true) :
    let s' := hashedRightBatch kb n emit c rightHashKey facts s
    HashedInv kb base c leftHashKey rightHashKey (R ∪ {f | f ∈ facts}) stale pending D (s'.mem n) ∧
      Below (childTokens (s'.mem n).leftToChildren) s'.mem ∧ Effect (insert n nodes) s s' := by
  have hheap : s.heap = base.heap := by
    rw [← hbase]
    rfl
  set entries := facts.filterMap fun fact ↦
    (getField base.heap fact rightHashKey).map fun key ↦ (key, fact) with hentries
  have hentry : ∀ {k f}, (k, f) ∈ entries ↔ f ∈ facts ∧ getField base.heap f rightHashKey = some k :=
    mem_keyed
  have hentriesNodup : (entries.map Prod.snd).Nodup := by
    rw [hentries, keyed_map_snd]
    exact hnodup.filter _
  have hentryPlain : ∀ {k f}, (k, f) ∈ entries → k.isPlain = true :=
    fun he ↦ hplain _ (hentry.mp he).1 _ (hentry.mp he).2
  have hentryKey : ∀ {k f}, (k, f) ∈ entries →
      hashedRightKey base rightHashKey f = some k.canonical := by
    intro k f he
    simp [hashedRightKey, (hentry.mp he).2]
  have hgroups : Grouping.Groups ConstraintValue.canonical entries
      (groupByKey (factIds base.heap) entries) :=
    Grouping.groups_group entries fun e he e' he' ↦
      constraintValueEquals_iff _ (hentryPlain he) (hentryPlain he')
  set groups := groupByKey (factIds base.heap) entries with hgroupsDef
  have hgrouped : ∀ {f}, f ∈ groups.flatMap Prod.snd ↔ ∃ k, (k, f) ∈ entries := by
    intro f
    rw [hgroups.perm.mem_iff]
    simp
  set s₁ := updateHashed n (fun mem ↦ { mem with right := mem.right ++ entries }) s with hs₁
  have hhashed₁ : (s₁.mem n).hashedJoin =
      { left := (s.mem n).hashedJoin.left, right := (s.mem n).hashedJoin.right ++ entries } := by
    simp [hs₁, updateHashed]
  have hstate : JoinState Below n (childPairs (s.mem n).leftToChildren) s₁.mem :=
    JoinState.updateMem hemit hn ⟨hinv.children, rfl, hbelow⟩ fun _ ↦ rfl
  have hnone : ∀ w, ∀ f ∈ facts, (w, f) ∉ childPairs (s.mem n).leftToChildren := by
    intro w f hf hpair
    obtain ⟨k, hk⟩ := (hinv.matched hpair).2.1
    exact hnew f hf (hinv.right_key hk).1
  have hleft₁ : (s₁.mem n).hashedJoin.left = (s.mem n).hashedJoin.left := by rw [hhashed₁]
  obtain ⟨hstate', heffect⟩ := assertGroups_spec (c := c) hemit hn groups hinv.left_nodup (s := s₁)
    hbase hleft₁ hstate (hgroups.perm.nodup_iff.mpr hentriesNodup)
    (fun w f hf ↦ by
      obtain ⟨k, hk⟩ := hgrouped.mp hf
      exact hnone w f (hentry.mp hk).1)
    fun k w hw f hf a ↦ by
      obtain ⟨k', hk'⟩ := hgrouped.mp hf
      exact hok w (hinv.left_key hw).1 f (hentry.mp hk').1 a
  have hresult : hashedRightBatch kb n emit c rightHashKey facts s =
      groups.foldl (fun s (key, keyed) ↦
        (bucket (factIds base.heap) key (s.mem n).hashedJoin.left).foldl (fun s w ↦
          keyed.foldl (fun s f ↦
            if checkCondition kb c s w f then propagateAssertUncached n emit w f s else s) s) s)
        s₁ := by
    simp only [hashedRightBatch, hheap]
    rfl
  rw [hresult]
  -- the pairs of the groups are those with equal keys
  have hmatch : ∀ w f, (∃ g ∈ groups, w ∈ bucket (factIds base.heap) g.1 (s.mem n).hashedJoin.left ∧
      f ∈ g.2) ↔ f ∈ facts ∧ (∃ k, (k, w) ∈ (s.mem n).hashedJoin.left) ∧
        KeysMatch base leftHashKey rightHashKey w f := by
    intro w f
    have hbucket : ∀ {g}, g ∈ groups →
        (w ∈ bucket (factIds base.heap) g.1 (s.mem n).hashedJoin.left ↔
          ∃ k, (k, w) ∈ (s.mem n).hashedJoin.left ∧ k.canonical = g.1.canonical) := by
      intro g hg
      obtain ⟨f', hf'⟩ := hgroups.key g hg
      exact mem_bucket_iff (fun h ↦ (hinv.left_key h).2.1) (hentryPlain hf')
    constructor
    · rintro ⟨g, hg, hw, hf⟩
      obtain ⟨k, hk, hkey⟩ := (hbucket hg).mp hw
      obtain ⟨k', hk', hkey'⟩ := hgroups.mem g hg f hf
      exact ⟨(hentry.mp hk').1, ⟨k, hk⟩, k.canonical, (hinv.left_key hk).2.2,
        (hentryKey hk').trans (congrArg some (hkey'.trans hkey.symm))⟩
    · rintro ⟨hf, ⟨k, hk⟩, k', hleft, hright⟩
      obtain ⟨key, hkey, rfl⟩ := Option.map_eq_some_iff.mp hright
      obtain ⟨g, hg, hfg⟩ := List.mem_flatMap.mp (hgrouped.mpr ⟨key, hentry.mpr ⟨hf, hkey⟩⟩)
      obtain ⟨k'', hk'', heq⟩ := hgroups.mem g hg f hfg
      have hkk : k''.canonical = key.canonical :=
        Option.some.inj ((hentryKey hk'').symm.trans (hentryKey (hentry.mpr ⟨hf, hkey⟩)))
      refine ⟨g, hg, (hbucket hg).mpr ⟨k, hk, ?_⟩, hfg⟩
      exact (Option.some.inj ((hinv.left_key hk).2.2.symm.trans hleft)).trans (hkk.symm.trans heq)
  have hpairs : ∀ w f, (w, f) ∈ childPairs (((groups.foldl (fun s (key, keyed) ↦
        (bucket (factIds base.heap) key (s.mem n).hashedJoin.left).foldl (fun s w ↦
          keyed.foldl (fun s f ↦
            if checkCondition kb c s w f then propagateAssertUncached n emit w f s else s) s) s)
        s₁).mem n).leftToChildren) ↔
      (w, f) ∈ childPairs (s.mem n).leftToChildren ∨ (f ∈ facts ∧
        (∃ k, (k, w) ∈ (s.mem n).hashedJoin.left) ∧ KeysMatch base leftHashKey rightHashKey w f) ∧
          checkCondition kb c base w f = true := by
    intro w f
    rw [hstate'.pairs_eq, ← hmatch]
    simp only [Set.mem_union, Set.mem_ofPred_eq]
    grind
  have hhashed := heffect.hashedJoin.trans hhashed₁
  have hkeyOf : ∀ {f k}, f ∈ facts → hashedRightKey base rightHashKey f = some k →
      ∃ k', (k', f) ∈ entries := by
    intro f k hf hk
    obtain ⟨key, hkey, -⟩ := Option.map_eq_some_iff.mp hk
    exact ⟨key, hentry.mpr ⟨hf, hkey⟩⟩
  refine ⟨⟨?_, ?_, ?_, ?_, ?_, ?_, hstate'.children, ?_, ?_⟩, hstate'.below, ?_⟩
  · rw [hhashed]
    exact hinv.left_nodup
  · rw [hhashed]
    exact hinv.left_key
  · rw [hhashed]
    exact hinv.left_complete
  · rw [hhashed, List.map_append]
    refine hinv.right_nodup.append hentriesNodup fun f hf hf' ↦ ?_
    obtain ⟨⟨k, f⟩, hk, rfl⟩ := List.mem_map.mp hf
    obtain ⟨⟨k', f'⟩, hk', heq⟩ := List.mem_map.mp hf'
    exact hnew f ((show f' = f from heq) ▸ (hentry.mp hk').1) (hinv.right_key hk).1
  · intro k f hk
    rw [hhashed] at hk
    rcases List.mem_append.mp hk with hk | hk
    · exact ⟨.inl (hinv.right_key hk).1, (hinv.right_key hk).2⟩
    · exact ⟨.inr (hentry.mp hk).1, hentryPlain hk, hentryKey hk⟩
  · intro f k hf hpend hk
    rw [hhashed]
    rcases hf with hf | hf
    · obtain ⟨k', hk'⟩ := hinv.right_complete hf hpend hk
      exact ⟨k', List.mem_append_left _ hk'⟩
    · obtain ⟨k', hk'⟩ := hkeyOf hf hk
      exact ⟨k', List.mem_append_right _ hk'⟩
  · intro w f hpair
    rw [hhashed]
    rcases (hpairs w f).mp hpair with hpair | ⟨⟨hf, hw, hkeys⟩, -⟩
    · obtain ⟨hw, ⟨k, hk⟩, hkeys⟩ := hinv.matched hpair
      exact ⟨hw, ⟨k, List.mem_append_left _ hk⟩, hkeys⟩
    · obtain ⟨k, -, hright⟩ := id hkeys
      obtain ⟨k', hk'⟩ := hkeyOf hf hright
      exact ⟨hw, ⟨k', List.mem_append_right _ hk'⟩, hkeys⟩
  · intro w f hw hf hstale hpend
    rw [hpairs]
    rcases hf with hf | hf
    · rw [hinv.exact hw hf hstale hpend]
      exact or_iff_left fun h ↦ hnew f h.1.1 hf
    · refine (or_iff_right (hnone w f hf)).trans (and_congr_left fun _ ↦ ?_)
      refine ⟨fun h ↦ h.2.2, fun hkeys ↦ ⟨hf, ?_, hkeys⟩⟩
      obtain ⟨k, hleft, -⟩ := id hkeys
      exact hinv.left_complete hw hstale hleft
  · exact (Effect.updateMem (Set.mem_insert n nodes) s _).trans heffect.effect

/-- A condition node takes the facts of a batch one after the other. -/
theorem conditionRightBatch_spec {emit : Emission} {kind : ConditionKind}
    (hemit : EmitSpec base nodes Ok Below emit) (hn : n ∉ nodes) (hbase : s.base = base)
    (hinv : ConditionInv kb base c R stale pending D (s.mem n).betaCondition)
    (hbelow : Below (passingTokens kind (s.mem n).betaCondition.left) s.mem) (hok : ∀ w ∈ D, Ok w)
    (hnodup : facts.Nodup) (hnew : ∀ f ∈ facts, f ∉ R)
    (hid : Set.InjOn (fun f ↦ (base.heap f).id) (R ∪ {f | f ∈ facts}))
    (hplain : ∀ f ∈ facts, ∀ k, conditionFactKey c base.heap f = some k → k.isPlain = true) :
    let s' := facts.foldl (fun s f ↦ conditionRight kb n emit kind c f .assert s) s
    ConditionInv kb base c (R ∪ {f | f ∈ facts}) stale pending D (s'.mem n).betaCondition ∧
      Below (passingTokens kind (s'.mem n).betaCondition.left) s'.mem ∧
        Effect (insert n nodes) s s' := by
  induction facts generalizing R s with
  | nil => simpa using ⟨hinv, hbelow, Effect.refl _ s⟩
  | cons p facts ih =>
    obtain ⟨hnotin, hnodup⟩ := List.nodup_cons.mp hnodup
    have hset : R ∪ {f | f ∈ p :: facts} = insert p R ∪ {f | f ∈ facts} := by
      ext f
      simp only [Set.mem_union, Set.mem_ofPred_eq, Set.mem_insert_iff, List.mem_cons]
      grind
    rw [hset] at hid ⊢
    obtain ⟨hinv₁, hbelow₁, heffect₁⟩ := conditionRight_spec hemit hn hbase hinv hbelow hok
      (hid.mono Set.subset_union_left)
      (.assert (hnew p List.mem_cons_self) (Set.mem_insert p R)) (fun f hf ↦ by simp [hf])
      (fun _ _ h ↦ h) (hplain p List.mem_cons_self)
    obtain ⟨hinv₂, hbelow₂, heffect₂⟩ := ih (heffect₁.base.trans hbase) hinv₁ hbelow₁ hnodup
      (fun f hf hmem ↦ by
        rcases Set.mem_insert_iff.mp hmem with rfl | hmem
        · exact hnotin hf
        · exact hnew f (List.mem_cons_of_mem _ hf) hmem)
      hid fun f hf ↦ hplain f (List.mem_cons_of_mem _ hf)
    exact ⟨hinv₂, hbelow₂, heffect₁.trans heffect₂⟩

end Joins

/-! ### One node -/

section Beta

variable {kb : KnowledgeBase} {S : Scene kb} {P P' : Phase S} {n : ℕ}
  (hnet : kb.network.WellFormed)
include hnet

/-- The nodes below are not concerned by what is on the right of a node. -/
theorem BelowInv.of_right (hpending : P'.pending = P.pending)
    (hother : ∀ m ≠ n, P'.right m = P.right m) {D : Set TokenWME} {mem : ℕ → NodeMemory}
    (hbelow : BelowInv P n D mem) : BelowInv P' n D mem := by
  intro c hc
  have hne : ∀ m, Desc kb.network.LeftEdge c m → m ≠ n := by
    rintro m hm rfl
    exact hnet.left_forest.not_strictDesc_self m (strictDesc_iff.mpr ⟨c, hc, hm⟩)
  refine (hbelow c hc).shrink hnet (fun m hm ↦ hother m (hne m hm)) (fun m _ h ↦ hpending ▸ h) ?_
  intro x _ hstale
  rwa [hpending]

/-- A batch of facts for a join or condition node. -/
theorem betaRightActivateBatch_spec (hbeta : (kb.network.kind n).isBetaNode = true)
    (hpending : P'.pending = P.pending) (hother : ∀ m ≠ n, P'.right m = P.right m)
    {facts : List FactPtr} (hself : P'.right n = P.right n ∪ {f | f ∈ facts}) (hnodup : facts.Nodup)
    (hnew : ∀ f ∈ facts, f ∉ P.right n) {D : Set TokenWME} {s : Session} (hbase : s.base = S.base)
    (hinv : SubtreeInv P n D s.mem) :
    let s' := betaRightActivateBatch kb S.logicalRetract n facts s
    SubtreeInv P' n D s'.mem ∧ Effect {m | Desc kb.network.LeftEdge n m} s s' := by
  have hchildren : ∀ c, kb.network.LeftEdge n c → LeftSpec P kb.network.nodes.length c :=
    fun c _ ↦ leftActivate_spec hnet P _ c (by omega)
  have hemit := emitFrom_spec hnet hbeta hchildren
  have hn : n ∉ {m | StrictDesc kb.network.LeftEdge n m} := hnet.left_forest.not_strictDesc_self n
  have hfacts : ∀ f ∈ facts, f ∈ S.facts := fun f hf ↦
    P'.right_subset n (hself.symm ▸ Set.mem_union_right _ hf)
  have hid : Set.InjOn (fun f ↦ (S.base.heap f).id) (P.right n ∪ {f | f ∈ facts}) :=
    S.id_injOn.mono (Set.union_subset (P.right_subset n) hfacts)
  obtain ⟨⟨hD, hnode⟩, hbelow⟩ := (subtreeInv_iff hnet).mp hinv
  have hok : ∀ w ∈ D, ∀ f ∈ facts, ∀ a, S.Ok (.mk a w f) :=
    fun w hw f hf a ↦ Scene.Ok.mk (hD w hw) (hfacts f hf) a
  cases hkind : kb.network.kind n with
  | crossProductJoin c =>
    simp only [hkind, outSet] at hnode hbelow
    obtain ⟨hnode', hbelow', heffect⟩ := crossProductRightBatch_spec
      (emitBatchFrom_spec hnet hbeta hchildren) hn hbase hnode hbelow hnodup hnew hid hok
    simp only [betaRightActivateBatch, hkind]
    refine ⟨(subtreeInv_iff hnet).mpr ⟨⟨hD, ?_⟩, ?_⟩, heffect.mono (insert_strictDesc n)⟩
    · simpa only [hkind, hself, hpending] using hnode'
    · simpa only [outSet, hkind] using hbelow'.of_right hnet hpending hother
  | hashedJoin c l r =>
    simp only [hkind, outSet] at hnode hbelow
    obtain ⟨hnode', hbelow', heffect⟩ := hashedRightBatch_spec hemit hn hbase hnode hbelow hnodup
      hnew hok fun f hf key hkey ↦ S.plain f (hfacts f hf) r (.hashedRight hkind) key hkey
    simp only [betaRightActivateBatch, hkind]
    refine ⟨(subtreeInv_iff hnet).mpr ⟨⟨hD, ?_⟩, ?_⟩, heffect.mono (insert_strictDesc n)⟩
    · simpa only [hkind, hself, hpending] using hnode'
    · simpa only [outSet, hkind] using hbelow'.of_right hnet hpending hother
  | condition kind c =>
    simp only [hkind, outSet] at hnode hbelow
    obtain ⟨hnode', hbelow', heffect⟩ := conditionRightBatch_spec hemit hn hbase hnode hbelow hD
      hnodup hnew hid fun f hf k hk ↦ S.plain_conditionFactKey hkind (hfacts f hf) hk
    simp only [betaRightActivateBatch, hkind]
    refine ⟨(subtreeInv_iff hnet).mpr ⟨⟨hD, ?_⟩, ?_⟩, heffect.mono (insert_strictDesc n)⟩
    · simpa only [hkind, hself, hpending] using hnode'
    · rw [outSet, hkind]
      exact hbelow'.of_right hnet hpending hother
  | tokenNode node => exact absurd hkind (hnet.noTokenNode n node)
  | _ => simp [hkind, NodeKind.isBetaNode] at hbeta

end Beta

end RulesForge
