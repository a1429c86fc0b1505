import RulesForge.Rete.Emission

/-!
# What a propagation consists of

Below its entry point a propagation changes the memories of nodes, the pool and the cache of
tokens, and it hands tokens to terminal nodes. A relation on sessions that is reflexive and
transitive, and that holds of each of these changes, holds of every propagation: this is the rule
(`Carries.rightActivate`, and `Carries.rightActivateBatch` for a batch of facts) by which facts about
terminal nodes and the agenda are proved without looking into the network.
-/

namespace RulesForge

/-- A change of memories and tokens that no terminal node, no alpha node, no agenda and no other
part of the session sees. -/
structure Silent (s s' : Session) : Prop where
  base : s'.base = s.base
  agenda : s'.agenda = s.agenda
  log : s'.log = s.log
  terminal : ∀ n, (s'.mem n).terminal = (s.mem n).terminal
  passing : ∀ n, (s'.mem n).passingFacts = (s.mem n).passingFacts

/-- A change of one node's memory that keeps the two lists. -/
theorem Silent.updateMem (s : Session) (n : ℕ) {f : NodeMemory → NodeMemory}
    (hterminal : (f (s.mem n)).terminal = (s.mem n).terminal)
    (hpassing : (f (s.mem n)).passingFacts = (s.mem n).passingFacts) :
    Silent s (s.updateMem n f) := by
  refine ⟨rfl, rfl, rfl, fun m ↦ ?_, fun m ↦ ?_⟩
  · by_cases hm : m = n
    · subst hm
      rw [s.updateMem_mem_self, hterminal]
    · rw [s.updateMem_mem_ne hm]
  · by_cases hm : m = n
    · subst hm
      rw [s.updateMem_mem_self, hpassing]
    · rw [s.updateMem_mem_ne hm]

theorem Silent.updateCondition (s : Session) (n : ℕ) (f : BetaConditionMem → BetaConditionMem) :
    Silent s (updateCondition n f s) :=
  .updateMem s n rfl rfl

/-- A new token, or one from the cache. -/
theorem Silent.getOrCreateWme (s : Session) (w : TokenWME) (fact : FactPtr) :
    Silent s (s.getOrCreateWme w fact).2 := by
  unfold Session.getOrCreateWme
  dsimp only
  split <;> exact ⟨rfl, rfl, rfl, fun _ ↦ rfl, fun _ ↦ rfl⟩

theorem Silent.createWmeUncached (s : Session) (w : TokenWME) (fact : FactPtr) :
    Silent s (s.createWmeUncached w fact).2 :=
  ⟨rfl, rfl, rfl, fun _ ↦ rfl, fun _ ↦ rfl⟩

theorem Silent.invalidateWmeCache (kb : KnowledgeBase) (s : Session) (hash : ℕ) :
    Silent s (s.invalidateWmeCache kb hash) :=
  ⟨rfl, rfl, rfl, fun _ ↦ rfl, fun _ ↦ rfl⟩

/-- A relation that holds of what a propagation in the beta network consists of. -/
structure Carries (kb : KnowledgeBase) (logicalRetract : TokenWME → Session → Session)
    (R : Session → Session → Prop) : Prop where
  refl : ∀ s, R s s
  trans : ∀ {s s' s''}, R s s' → R s' s'' → R s s''
  silent : ∀ {s s'}, Silent s s' → R s s'
  terminal : ∀ {n rule bindings} w type s, kb.network.kind n = .terminal rule bindings →
    R s (terminalLeft kb logicalRetract n rule bindings w type s)

namespace Carries

variable {kb : KnowledgeBase} {logicalRetract : TokenWME → Session → Session}
  {R : Session → Session → Prop} (hR : Carries kb logicalRetract R)

include hR

/-- Any number of changes, one for each element of a list. -/
theorem foldl {α : Type} {f : Session → α → Session} (hf : ∀ s x, R s (f s x)) (l : List α)
    (s : Session) : R s (l.foldl f s) := by
  induction l generalizing s with
  | nil => exact hR.refl s
  | cons x l ih => exact hR.trans (hf s x) (ih (f s x))

/-! ### One node -/

section Node

variable {emit : Emission} (hemit : ∀ w type s, R s (emit w type s)) (n : ℕ)

include hemit

/-- A child is recorded and handed on. -/
theorem propagateAssert (w : TokenWME) (fact : FactPtr) (s : Session) :
    R s (propagateAssert n emit w fact s) :=
  hR.trans (hR.silent (.getOrCreateWme s w fact))
    (hR.trans (hR.silent (.updateMem _ n rfl rfl)) (hemit _ _ _))

/-- The child is handed on, if there is one, and forgotten. -/
theorem propagateRetract (w : TokenWME) (fact : FactPtr) (s : Session) :
    R s (propagateRetract kb n emit w fact s) := by
  unfold RulesForge.propagateRetract
  split
  · exact hR.refl s
  · exact hR.trans (hemit _ _ s)
      (hR.trans (hR.silent (.updateMem _ n rfl rfl)) (hR.silent (.invalidateWmeCache kb _ _)))

/-- The facts that match are asserted in turn. -/
theorem assertFacts (c : JoinCondition) (w : TokenWME) (facts : List FactPtr) (s : Session) :
    R s (assertFacts kb n emit c w facts s) := by
  refine hR.foldl (fun s fact ↦ ?_) facts s
  split
  · exact hR.propagateAssert hemit n w fact s
  · exact hR.refl s

theorem assertTokens (c : JoinCondition) (fact : FactPtr) (wmes : List TokenWME) (s : Session) :
    R s (assertTokens kb n emit c fact wmes s) := by
  refine hR.foldl (fun s w ↦ ?_) wmes s
  split
  · exact hR.propagateAssert hemit n w fact s
  · exact hR.refl s

/-- The facts are retracted in turn. -/
theorem retractFacts (w : TokenWME) (facts : List FactPtr) (s : Session) :
    R s (retractFacts kb n emit w facts s) :=
  hR.foldl (fun s fact ↦ hR.propagateRetract hemit n w fact s) facts s

theorem retractTokens (fact : FactPtr) (wmes : List TokenWME) (s : Session) :
    R s (retractTokens kb n emit fact wmes s) :=
  hR.foldl (fun s w ↦ hR.propagateRetract hemit n w fact s) wmes s

/-- A token comes to a cross product. -/
theorem crossProductLeft (c : JoinCondition) (w : TokenWME) (type : PropagationType)
    (s : Session) : R s (crossProductLeft kb n emit c w type s) := by
  unfold RulesForge.crossProductLeft
  dsimp only
  split
  · split
    · exact hR.trans (hR.silent (.updateMem s n rfl rfl)) (hR.retractFacts hemit n w _ _)
    · exact hR.refl s
  · exact hR.trans (hR.silent (.updateMem s n rfl rfl)) (hR.assertFacts hemit n c w _ _)

/-- A fact comes to a cross product. -/
theorem crossProductRight (c : JoinCondition) (fact : FactPtr) (type : PropagationType)
    (s : Session) : R s (crossProductRight kb n emit c fact type s) := by
  unfold RulesForge.crossProductRight
  dsimp only
  split
  · split
    · exact hR.trans (hR.silent (.updateMem s n rfl rfl)) (hR.retractTokens hemit n fact _ _)
    · exact hR.refl s
  · refine hR.trans ?_ (hR.trans (hR.silent (.updateMem _ n rfl rfl))
      (hR.assertTokens hemit n c fact _ _))
    split
    · exact hR.retractTokens hemit n fact _ s
    · exact hR.refl s

/-- A token comes to a hashed join. -/
theorem hashedLeft (c : JoinCondition) (leftHashKey : String × ℕ) (w : TokenWME)
    (type : PropagationType) (s : Session) : R s (hashedLeft kb n emit c leftHashKey w type s) := by
  unfold RulesForge.hashedLeft
  split
  · exact hR.refl s
  · dsimp only
    split
    · exact hR.trans (hR.silent (.updateMem s n rfl rfl)) (hR.retractFacts hemit n w _ _)
    · exact hR.trans (hR.silent (.updateMem s n rfl rfl)) (hR.assertFacts hemit n c w _ _)

/-- A fact comes to a hashed join. -/
theorem hashedRight (c : JoinCondition) (rightHashKey : String) (fact : FactPtr)
    (type : PropagationType) (s : Session) :
    R s (hashedRight kb n emit c rightHashKey fact type s) := by
  unfold RulesForge.hashedRight
  split
  · exact hR.refl s
  · dsimp only
    split
    · exact hR.trans (hR.silent (.updateMem s n rfl rfl)) (hR.retractTokens hemit n fact _ _)
    · refine hR.trans ?_ (hR.trans (hR.silent (.updateMem _ n rfl rfl))
        (hR.assertTokens hemit n c fact _ _))
      split
      · exact hR.trans (hR.retractTokens hemit n fact _ s) (hR.silent (.updateMem _ n rfl rfl))
      · exact hR.refl s

/-- A token comes to a NOT or EXISTS node. -/
theorem conditionLeft (kind : ConditionKind) (c : JoinCondition) (w : TokenWME)
    (type : PropagationType) (s : Session) : R s (conditionLeft kb n emit kind c w type s) := by
  unfold RulesForge.conditionLeft
  dsimp only
  split
  · split
    · exact hR.trans (hR.silent (.updateMem s n rfl rfl)) (hemit _ _ _)
    · exact hR.refl s
  · split
    · exact hR.trans (hR.silent (.updateCondition s n _)) (hemit _ _ _)
    · exact hR.silent (.updateCondition s n _)

theorem propagateConditionTransition (kind : ConditionKind) (w : TokenWME) (oldCount newCount : ℕ)
    (s : Session) : R s (propagateConditionTransition emit kind w oldCount newCount s) := by
  unfold RulesForge.propagateConditionTransition
  split
  · exact hemit _ _ _
  · split
    · exact hemit _ _ _
    · exact hR.refl s

/-- The match of one token is brought up to date. -/
theorem updateMatch (kind : ConditionKind) (c : JoinCondition) (fact : FactPtr)
    (existed retest : Bool) (w : TokenWME) (s : Session) :
    R s (updateMatch kb n emit kind c fact existed retest w s) := by
  unfold RulesForge.updateMatch
  dsimp only
  split
  · exact hR.refl s
  · exact hR.trans (hR.silent (.updateCondition s n _))
      (hR.propagateConditionTransition hemit kind w _ _ _)

/-- A fact comes to a NOT or EXISTS node: the matches, the old index and the new one. -/
theorem conditionRight (kind : ConditionKind) (c : JoinCondition) (fact : FactPtr)
    (type : PropagationType) (s : Session) :
    R s (conditionRight kb n emit kind c fact type s) := by
  unfold RulesForge.conditionRight
  dsimp only
  split
  · exact hR.refl s
  · have hmatch : ∀ existed (retest : TokenWME → Bool) (wmes : List TokenWME),
        R s (wmes.foldl (fun s w ↦
          RulesForge.updateMatch kb n emit kind c fact existed (retest w) w s) s) :=
      fun existed retest wmes ↦
        hR.foldl (fun s w ↦ hR.updateMatch hemit n kind c fact existed (retest w) w s) wmes s
    have hindex : ∀ {s'} (existed : Bool) f, R s s' →
        R s (if existed then updateCondition n f s' else s') := by
      intro s' existed f hs'
      cases existed with
      | true => exact hR.trans hs' (hR.silent (.updateCondition s' n f))
      | false => exact hs'
    have hright : ∀ {s'} (asserts : Bool) f g, R s s' →
        R s (if asserts then updateCondition n f s' else updateCondition n g s') := by
      intro s' asserts f g hs'
      cases asserts with
      | true => exact hR.trans hs' (hR.silent (.updateCondition s' n f))
      | false => exact hR.trans hs' (hR.silent (.updateCondition s' n g))
    exact hright _ _ _ (hindex _ _ (hmatch _ _ _))

omit hemit in
/-- New tokens are recorded one by one. -/
theorem createTokens (c : JoinCondition) (w : TokenWME) (facts : List FactPtr) (s : Session) :
    R s (createTokens kb n c w facts s).2 := by
  unfold RulesForge.createTokens
  refine List.foldlRecOn facts _ (motive := fun x : List TokenWME × Session ↦ R s x.2)
    (hR.refl s) ?_
  rintro ⟨wmes, s'⟩ hs' fact -
  dsimp only
  split
  · have hpush : R (s'.createWmeUncached w fact).2
        (pushChild n w (s'.createWmeUncached w fact).1 (s'.createWmeUncached w fact).2) :=
      hR.silent (.updateMem _ n rfl rfl)
    exact hR.trans hs' (hR.trans (hR.silent (.createWmeUncached s' w fact)) hpush)
  · exact hs'

omit hemit in
/-- A batch of facts comes to a cross product. -/
theorem crossProductRightBatch {emitBatch : List TokenWME → Session → Session}
    (hemitBatch : ∀ wmes s, R s (emitBatch wmes s)) (c : JoinCondition) (facts : List FactPtr)
    (s : Session) : R s (crossProductRightBatch kb n emitBatch c facts s) := by
  unfold RulesForge.crossProductRightBatch
  refine hR.trans (hR.silent (.updateMem s n rfl rfl)) (hR.foldl (fun s w ↦ ?_) _ _)
  have htokens := hR.createTokens n c w facts s
  generalize RulesForge.createTokens kb n c w facts s = new at htokens ⊢
  obtain ⟨wmes, s'⟩ := new
  dsimp only
  split
  · exact htokens
  · exact hR.trans htokens (hemitBatch wmes s')

/-- A batch of facts comes to a hashed join, which hands its tokens on one by one. -/
theorem hashedRightBatch (c : JoinCondition) (rightHashKey : String) (facts : List FactPtr)
    (s : Session) : R s (hashedRightBatch kb n emit c rightHashKey facts s) := by
  unfold RulesForge.hashedRightBatch
  refine hR.trans (hR.silent (.updateMem s n rfl rfl)) (hR.foldl (fun s group ↦ ?_) _ _)
  refine hR.foldl (fun s w ↦ hR.foldl (fun s fact ↦ ?_) _ s) _ s
  split
  · exact hR.trans (hR.silent (.createWmeUncached s w fact))
      (hR.trans (hR.silent (.updateMem _ n rfl rfl)) (hemit _ _ _))
  · exact hR.refl s

/-- A token comes to an eval node or to the terminal node of a query. -/
theorem tokenNodeLeft (node : TokenNode) (w : TokenWME) (type : PropagationType) (s : Session) :
    R s (tokenNodeLeft kb n emit w type node s) := by
  cases node with
  | queryTerminal bindings =>
    show R s (queryTerminalLeft n w type s)
    exact hR.silent (.updateMem s n rfl rfl)
  | eval node =>
    show R s (evalLeft kb n emit w type node s)
    unfold RulesForge.evalLeft
    have hpassed : ∀ f : NodeMemory → NodeMemory, (∀ mem, (f mem).terminal = mem.terminal) →
        (∀ mem, (f mem).passingFacts = mem.passingFacts) → R s (emit w type (s.updateMem n f)) :=
      fun f hterminal hpassing ↦
        hR.trans (hR.silent (.updateMem s n (hterminal _) (hpassing _))) (hemit _ _ _)
    split
    · split
      · exact hpassed _ (fun _ ↦ rfl) fun _ ↦ rfl
      · exact hR.refl s
    · split
      · exact hpassed _ (fun _ ↦ rfl) fun _ ↦ rfl
      · exact hR.refl s

end Node

/-! ### Through the network -/

/-- A token comes to a node. -/
theorem leftActivate (levels n : ℕ) (w : TokenWME) (type : PropagationType) (s : Session) :
    R s (leftActivate kb logicalRetract levels n w type s) := by
  induction levels generalizing n w type s with
  | zero => exact hR.refl s
  | succ levels ih =>
    have hemit : ∀ w type s, R s ((kb.network.children n).foldl (fun s child ↦
        RulesForge.leftActivate kb logicalRetract levels child w type s) s) :=
      fun w type s ↦ hR.foldl (fun s child ↦ ih child w type s) _ s
    simp only [RulesForge.leftActivate]
    split
    · exact hR.crossProductLeft hemit n _ w type s
    · exact hR.hashedLeft hemit n _ _ w type s
    · exact hR.conditionLeft hemit n _ _ w type s
    · next hkind => exact hR.terminal w type s hkind
    · exact hR.tokenNodeLeft hemit n _ w type s
    · exact hR.refl s
    · exact hR.refl s

/-- A token comes to the children of a node. -/
theorem emitFrom (levels n : ℕ) (w : TokenWME) (type : PropagationType) (s : Session) :
    R s (emitFrom kb logicalRetract levels n w type s) :=
  hR.foldl (fun s child ↦ hR.leftActivate levels child w type s) _ s

/-- A fact comes to a node of the beta network. -/
theorem betaRightActivate (n : ℕ) (fact : FactPtr) (type : PropagationType) (s : Session) :
    R s (betaRightActivate kb logicalRetract n fact type s) := by
  have hemit := hR.emitFrom kb.network.nodes.length n
  unfold RulesForge.betaRightActivate
  dsimp only
  split
  · exact hR.crossProductRight hemit n _ fact type s
  · exact hR.hashedRight hemit n _ _ fact type s
  · exact hR.conditionRight hemit n _ _ fact type s
  · exact hR.refl s

/-- **The rule of propagation**, for a relation that holds of what alpha nodes do as well. -/
theorem rightActivate (hpassing : ∀ n f s, R s (updatePassing n f s)) (levels n : ℕ)
    (fact : FactPtr) (type : PropagationType) (s : Session) :
    R s (rightActivate kb logicalRetract levels n fact type s) := by
  induction levels generalizing n type s with
  | zero => exact hR.refl s
  | succ levels ih =>
    have hchildren : ∀ type s, R s ((kb.network.children n).foldl (fun s child ↦
        RulesForge.rightActivate kb logicalRetract levels child fact type s) s) :=
      fun type s ↦ hR.foldl (fun s child ↦ ih child type s) _ s
    simp only [RulesForge.rightActivate]
    split
    · exact hchildren type s
    · split
      · exact hpassing n _ s
      · exact hR.trans (hpassing n _ s) (hchildren _ _)
    · exact hR.betaRightActivate n fact type s

/-! ### Batches -/

section Batch

variable (hbatch : ∀ {n rule bindings} wmes s, kb.network.kind n = .terminal rule bindings →
    R s (terminalLeftBatch kb n rule bindings wmes s))

include hbatch

/-- A batch of tokens comes to a node. -/
theorem leftActivateBatch (levels n : ℕ) (wmes : List TokenWME) (s : Session) :
    R s (leftActivateBatch kb logicalRetract levels n wmes s) := by
  rw [RulesForge.leftActivateBatch]
  split
  · next hkind => exact hbatch wmes s hkind
  · exact hR.foldl (fun s w ↦ hR.leftActivate levels n w .assert s) wmes s

/-- A batch of tokens comes to the children of a node. -/
theorem emitBatchFrom (levels n : ℕ) (wmes : List TokenWME) (s : Session) :
    R s (emitBatchFrom kb logicalRetract levels n wmes s) :=
  hR.foldl (fun s child ↦ hR.leftActivateBatch hbatch levels child wmes s) _ s

/-- A batch of facts comes to a node of the beta network. -/
theorem betaRightActivateBatch (n : ℕ) (facts : List FactPtr) (s : Session) :
    R s (betaRightActivateBatch kb logicalRetract n facts s) := by
  have hemit := hR.emitFrom kb.network.nodes.length n
  unfold RulesForge.betaRightActivateBatch
  dsimp only
  split
  · exact hR.crossProductRightBatch n (hR.emitBatchFrom hbatch kb.network.nodes.length n) _ facts s
  · exact hR.hashedRightBatch hemit n _ _ facts s
  · exact hR.foldl (fun s fact ↦ hR.conditionRight hemit n _ _ fact .assert s) facts s
  · exact hR.refl s

/-- **The rule of propagation** for a batch of facts. -/
theorem rightActivateBatch (hpassing : ∀ n f s, R s (updatePassing n f s)) (levels n : ℕ)
    (facts : List FactPtr) (s : Session) :
    R s (rightActivateBatch kb logicalRetract levels n facts s).2 := by
  induction levels generalizing n facts s with
  | zero => exact hR.refl s
  | succ levels ih =>
    have hchildren : ∀ facts s, R s ((kb.network.children n).foldl (fun x child ↦
        RulesForge.rightActivateBatch kb logicalRetract levels child x.1 x.2) (facts, s)).2 := by
      intro facts s
      refine List.foldlRecOn _ _ (motive := fun x : List FactPtr × Session ↦ R s x.2)
        (hR.refl s) ?_
      exact fun x hx child _ ↦ hR.trans hx (ih child x.1 x.2)
    simp only [RulesForge.rightActivateBatch]
    split
    · exact hchildren facts s
    · split
      · exact hR.refl s
      · split
        · exact hR.trans (hpassing n _ s) (hchildren _ _)
        · exact hR.trans (hpassing n _ s) (hchildren _ _)
    · exact hR.betaRightActivateBatch hbatch n facts s

end Batch

end Carries

end RulesForge
