import RulesForge.Engine.SessionInvariant
import RulesForge.Rete.BatchActivation

/-!
# Which tokens a node can hold

A **token typing** says for each node which tokens it may be left-activated with and which it
may hand to its children, and that the one follows from the other along the network. What is
typed stays typed: no activation, and no operation of a session, brings a token to a node that
the typing does not allow there (`rightActivate_typed`, `leftActivate_typed`).

Nothing is assumed about facts, keys or justifications; the statement is about the paths of tokens
alone.
-/

namespace RulesForge

/-- The tokens that nodes may get and give. -/
structure TokenTyping (net : CompiledNetwork) where
  left : ℕ → Set TokenWME
  out : ℕ → Set TokenWME
  join : ∀ {n t}, (net.kind n).isJoin = true → t ∈ left n → ∀ a f, .mk a t f ∈ out n
  condition : ∀ {n kind c t}, net.kind n = .condition kind c → t ∈ left n → t ∈ out n
  eval : ∀ {n node t}, net.kind n = .tokenNode (.eval node) → t ∈ left n → t ∈ out n
  child : ∀ {n m t}, net.LeftEdge n m → t ∈ out n → t ∈ left m

/-- The tokens in the memory of a node are among those it may get and give. -/
structure NodeTyped (left out : Set TokenWME) (mem : NodeMemory) : Prop where
  hashedJoin : ∀ entry ∈ mem.hashedJoin.left, entry.2 ∈ left
  crossProductJoin : ∀ w ∈ mem.crossProductJoin.left, w ∈ left
  children : ∀ {w child}, child ∈ mem.leftToChildren w → child ∈ out
  condition : ∀ entry ∈ mem.betaCondition.left, entry.1 ∈ left
  leftIndex : ∀ entry ∈ mem.betaCondition.leftIndex, entry.2 ∈ left
  leftUnindexed : ∀ w ∈ mem.betaCondition.leftUnindexed, w ∈ left
  terminal : ∀ w ∈ mem.terminal, w ∈ left
  eval : ∀ w ∈ mem.eval, w ∈ left
  results : ∀ w ∈ mem.results, w ∈ left

variable {kb : KnowledgeBase} (T : TokenTyping kb.network)

/-- The memories of a session are typed. -/
def Typed (s : Session) : Prop :=
  ∀ n, NodeTyped (T.left n) (T.out n) (s.mem n)

/-- An emission that keeps memories typed. -/
def TypedEmission (n : ℕ) (emit : Emission) : Prop :=
  ∀ {w type s}, w ∈ T.out n → Typed T s → Typed T (emit w type s)

variable {T} {s s' : Session} {n : ℕ} {emit : Emission}
  {w : TokenWME} {wmes : List TokenWME} {fact : FactPtr} {facts : List FactPtr}
  {type : PropagationType} {c : JoinCondition}

theorem Typed.of_mem (h : Typed T s) (hmem : s'.mem = s.mem) : Typed T s' := by
  intro n
  rw [hmem]
  exact h n

theorem Typed.updateMem (h : Typed T s) {f : NodeMemory → NodeMemory}
    (hf : NodeTyped (T.left n) (T.out n) (f (s.mem n))) : Typed T (s.updateMem n f) := by
  intro m
  by_cases hm : m = n
  · subst hm
    rw [Session.updateMem_mem_self]
    exact hf
  · rw [Session.updateMem_mem_ne _ hm]
    exact h m

/-- A fold of steps that keep memories typed. -/
theorem Typed.foldl {α : Type} {f : Session → α → Session} {l : List α}
    (hf : ∀ {s a}, a ∈ l → Typed T s → Typed T (f s a)) (h : Typed T s) :
    Typed T (l.foldl f s) := by
  induction l generalizing s with
  | nil => exact h
  | cons a l ih =>
    exact ih (fun ha ↦ hf (List.mem_cons_of_mem _ ha)) (hf List.mem_cons_self h)

theorem getOrCreateWme_eq (s : Session) (w : TokenWME) (f : FactPtr) :
    (∃ a, (s.getOrCreateWme w f).1 = .mk a w f) ∧ (s.getOrCreateWme w f).2.mem = s.mem := by
  unfold Session.getOrCreateWme
  dsimp only
  split
  · next w' hfind =>
    refine ⟨?_, rfl⟩
    have hcached := List.find?_some hfind
    cases w' with
    | root => cases hcached
    | mk a parent fact =>
      obtain ⟨hparent, hfact⟩ := Bool.and_eq_true_iff.mp hcached
      exact ⟨a, by rw [of_decide_eq_true hparent, of_decide_eq_true hfact]⟩
  · exact ⟨⟨_, rfl⟩, rfl⟩

/-! ### Joins -/

section Join

variable (hjoin : (kb.network.kind n).isJoin = true) (hemit : TypedEmission T n emit)
include hjoin hemit

omit hjoin hemit in
/-- A change of the children of one token. -/
theorem Typed.updateChildren {l : NodeMemory → List TokenWME}
    (hl : ∀ child ∈ l (s.mem n), child ∈ T.out n) (h : Typed T s) :
    Typed T (s.updateMem n fun mem ↦
      { mem with leftToChildren := Function.update mem.leftToChildren w (l mem) }) := by
  refine h.updateMem { h n with children := fun {w' child} hmem ↦ ?_ }
  dsimp only at hmem
  by_cases hw' : w' = w
  · subst hw'
    rw [Function.update_self] at hmem
    exact hl child hmem
  · rw [Function.update_of_ne hw'] at hmem
    exact (h n).children hmem

/-- A match of a typed token leads to a typed child. -/
theorem propagateAssert_typed (hw : w ∈ T.left n)
    (h : Typed T s) : Typed T (propagateAssert n emit w fact s) := by
  obtain ⟨⟨a, ha⟩, hmem⟩ := getOrCreateWme_eq s w fact
  have hchild : (s.getOrCreateWme w fact).1 ∈ T.out n := ha ▸ T.join hjoin hw a fact
  have h₁ : Typed T (s.getOrCreateWme w fact).2 := h.of_mem hmem
  refine hemit hchild (h₁.updateChildren fun child hmem ↦ ?_)
  rcases List.mem_append.mp hmem with hmem | hmem
  · exact (h₁ n).children hmem
  · exact List.mem_singleton.mp hmem ▸ hchild

omit hjoin hemit in
theorem mem_of_mem_bucket {α : Type} {factId : FactPtr → ℤ} {key : ConstraintValue}
    {m : List (ConstraintValue × α)} {a : α} (ha : a ∈ bucket factId key m) :
    ∃ entry ∈ m, entry.2 = a := by
  obtain ⟨entry, hentry, rfl⟩ := List.mem_map.mp ha
  exact ⟨entry, (List.mem_filter.mp hentry).1, rfl⟩

omit hjoin hemit in
/-- A new token is recorded as a child of one that is typed. -/
theorem pushChild_typed {w child : TokenWME} (hchild : child ∈ T.out n) (h : Typed T s) :
    Typed T (pushChild n w child s) := by
  refine h.updateChildren fun v hv ↦ ?_
  rcases List.mem_append.mp hv with hv | hv
  · exact (h n).children hv
  · exact List.mem_singleton.mp hv ▸ hchild

theorem propagateAssertUncached_typed (hw : w ∈ T.left n)
    (h : Typed T s) : Typed T (propagateAssertUncached n emit w fact s) := by
  have hchild : (s.createWmeUncached w fact).1 ∈ T.out n := T.join hjoin hw _ fact
  exact hemit hchild (pushChild_typed hchild (h.of_mem rfl))

omit hemit in
/-- The tokens of a batch are typed, and so is what records them. -/
theorem createTokens_typed (hw : w ∈ T.left n) (facts : List FactPtr) (h : Typed T s) :
    (∀ child ∈ (createTokens kb n c w facts s).1, child ∈ T.out n) ∧
      Typed T (createTokens kb n c w facts s).2 := by
  refine List.foldlRecOn facts _ (motive := fun x : List TokenWME × Session ↦
    (∀ child ∈ x.1, child ∈ T.out n) ∧ Typed T x.2)
    ⟨fun child hchild ↦ absurd hchild List.not_mem_nil, h⟩ ?_
  rintro ⟨wmes, s'⟩ ⟨hwmes, hs'⟩ fact -
  dsimp only
  split
  · have hnew : (s'.createWmeUncached w fact).1 ∈ T.out n := T.join hjoin hw _ fact
    refine ⟨fun child hchild ↦ ?_, pushChild_typed hnew (hs'.of_mem rfl)⟩
    rcases List.mem_append.mp hchild with hchild | hchild
    · exact hwmes child hchild
    · exact List.mem_singleton.mp hchild ▸ hnew
  · exact ⟨hwmes, hs'⟩

omit hemit in
/-- A batch of facts comes to a cross product. -/
theorem crossProductRightBatch_typed {emitBatch : List TokenWME → Session → Session}
    (hbatch : ∀ {wmes s}, (∀ w ∈ wmes, w ∈ T.out n) → Typed T s → Typed T (emitBatch wmes s))
    (h : Typed T s) :
    Typed T (crossProductRightBatch kb n emitBatch c facts s) := by
  have hleft := (h n).crossProductJoin
  unfold crossProductRightBatch
  refine Typed.foldl (fun {s' w} hw h' ↦ ?_) (h.updateMem { h n with })
  rw [updateCrossProduct, Session.updateMem_mem_self] at hw
  have htokens : (∀ child ∈ (createTokens kb n c w facts s').1, child ∈ T.out n) ∧ _ :=
    createTokens_typed hjoin (hleft w hw) facts h'
  generalize createTokens kb n c w facts s' = new at htokens ⊢
  obtain ⟨wmes, s''⟩ := new
  dsimp only
  split
  · exact htokens.2
  · exact hbatch htokens.1 htokens.2

/-- A batch of facts comes to a hashed join. -/
theorem hashedRightBatch_typed {key : String}
    (h : Typed T s) : Typed T (hashedRightBatch kb n emit c key facts s) := by
  unfold hashedRightBatch
  refine Typed.foldl (fun {s' group} _ h' ↦ ?_) (h.updateMem { h n with })
  refine Typed.foldl (fun {s'' w} hw h'' ↦ Typed.foldl (fun _ h ↦ ?_) h'') h'
  obtain ⟨entry, hentry, rfl⟩ := mem_of_mem_bucket hw
  split
  · exact propagateAssertUncached_typed hjoin hemit ((h' n).hashedJoin entry hentry) h
  · exact h

omit hjoin in
/-- The end of a match takes a child away. -/
theorem propagateRetract_typed (h : Typed T s) :
    Typed T (propagateRetract kb n emit w fact s) := by
  unfold propagateRetract
  split
  · exact h
  · next child hfind =>
    have hchild : child ∈ T.out n := (h n).children (List.mem_of_find?_eq_some hfind)
    have h₁ : Typed T (emit child .retract s) := hemit hchild h
    have h₂ : Typed T (eraseChild n w child (emit child .retract s)) :=
      h₁.updateChildren fun child' hmem ↦ (h₁ n).children (List.mem_of_mem_erase hmem)
    exact h₂.of_mem rfl

theorem assertFacts_typed
    (hw : w ∈ T.left n) (h : Typed T s) : Typed T (assertFacts kb n emit c w facts s) := by
  refine Typed.foldl (fun _ h ↦ ?_) h
  split
  · exact propagateAssert_typed hjoin hemit hw h
  · exact h

theorem assertTokens_typed (hwmes : ∀ w ∈ wmes, w ∈ T.left n) (h : Typed T s) :
    Typed T (assertTokens kb n emit c fact wmes s) := by
  refine Typed.foldl (fun hw h ↦ ?_) h
  split
  · exact propagateAssert_typed hjoin hemit (hwmes _ hw) h
  · exact h

omit hjoin in
theorem retractFacts_typed (h : Typed T s) :
    Typed T (retractFacts kb n emit w facts s) :=
  Typed.foldl (fun _ h ↦ propagateRetract_typed hemit h) h

omit hjoin in
theorem retractTokens_typed (h : Typed T s) :
    Typed T (retractTokens kb n emit fact wmes s) :=
  Typed.foldl (fun _ h ↦ propagateRetract_typed hemit h) h

/-- A token comes to a cross product, or leaves it. -/
theorem crossProductLeft_typed (hw : type ≠ .retract → w ∈ T.left n) (h : Typed T s) :
    Typed T (crossProductLeft kb n emit c w type s) := by
  unfold crossProductLeft
  dsimp only
  split
  · split
    · refine retractFacts_typed hemit (h.updateMem ?_)
      exact { h n with
        crossProductJoin := fun v hv ↦ (h n).crossProductJoin v (List.mem_of_mem_erase hv) }
    · exact h
  · next htype =>
    refine assertFacts_typed hjoin hemit (hw htype) (h.updateMem ?_)
    refine { h n with crossProductJoin := fun v hv ↦ ?_ }
    rcases List.mem_insert_iff.mp hv with rfl | hv
    · exact hw htype
    · exact (h n).crossProductJoin v hv

theorem crossProductRight_typed
    (h : Typed T s) : Typed T (crossProductRight kb n emit c fact type s) := by
  have hleft := (h n).crossProductJoin
  have hright : ∀ {s : Session} {right : CrossProductJoinMem → List (ℤ × FactPtr)}, Typed T s →
      Typed T (updateCrossProduct n (fun mem ↦ { mem with right := right mem }) s) :=
    fun {s _} h ↦ h.updateMem { h n with }
  unfold crossProductRight
  dsimp only
  split
  · split
    · exact retractTokens_typed hemit (hright h)
    · exact h
  · refine assertTokens_typed hjoin hemit hleft (hright ?_)
    split
    · exact retractTokens_typed hemit h
    · exact h

/-- A token comes to a hashed join, or leaves it. -/
theorem hashedLeft_typed {key : String × ℕ} (hw : type ≠ .retract → w ∈ T.left n) (h : Typed T s) :
    Typed T (hashedLeft kb n emit c key w type s) := by
  unfold hashedLeft
  split
  · exact h
  · dsimp only
    split
    · refine retractFacts_typed hemit (h.updateMem ?_)
      exact { h n with hashedJoin := fun v hv ↦ (h n).hashedJoin v (List.mem_of_mem_eraseP hv) }
    · next htype =>
      refine assertFacts_typed hjoin hemit (hw htype) (h.updateMem ?_)
      refine { h n with hashedJoin := fun v hv ↦ ?_ }
      rcases List.mem_append.mp hv with hv | hv
      · exact (h n).hashedJoin v hv
      · exact List.mem_singleton.mp hv ▸ hw htype

theorem hashedRight_typed {key : String} (h : Typed T s) :
    Typed T (hashedRight kb n emit c key fact type s) := by
  have hright : ∀ {s : Session} {right : HashedJoinMem → List (ConstraintValue × FactPtr)},
      Typed T s → Typed T (updateHashed n (fun mem ↦ { mem with right := right mem }) s) :=
    fun {s _} h ↦ h.updateMem { h n with }
  unfold hashedRight
  split
  · exact h
  · next value _ =>
    have hleft : ∀ w ∈ bucket (factIds s.heap) value (s.mem n).hashedJoin.left, w ∈ T.left n := by
      intro w hw
      obtain ⟨entry, hentry, rfl⟩ := mem_of_mem_bucket hw
      exact (h n).hashedJoin entry hentry
    dsimp only
    split
    · exact retractTokens_typed hemit (hright h)
    · refine assertTokens_typed hjoin hemit hleft (hright ?_)
      split
      · exact hright (retractTokens_typed hemit h)
      · exact h

end Join

/-! ### NOT and EXISTS -/

section Condition

/-- The left side of the memory of a condition node is typed. -/
structure ConditionTyped (left : Set TokenWME) (mem : BetaConditionMem) : Prop where
  condition : ∀ entry ∈ mem.left, entry.1 ∈ left
  leftIndex : ∀ entry ∈ mem.leftIndex, entry.2 ∈ left
  leftUnindexed : ∀ w ∈ mem.leftUnindexed, w ∈ left

theorem NodeTyped.conditionTyped {left out : Set TokenWME} {mem : NodeMemory}
    (h : NodeTyped left out mem) : ConditionTyped left mem.betaCondition :=
  ⟨h.condition, h.leftIndex, h.leftUnindexed⟩

theorem Typed.updateCondition {f : BetaConditionMem → BetaConditionMem} (h : Typed T s)
    (hf : ConditionTyped (T.left n) (f (s.mem n).betaCondition)) :
    Typed T (updateCondition n f s) :=
  h.updateMem { h n with
    condition := hf.condition, leftIndex := hf.leftIndex, leftUnindexed := hf.leftUnindexed }

variable {left : Set TokenWME} {mem : BetaConditionMem} (hmem : ConditionTyped left mem)
include hmem

theorem ConditionTyped.eraseLeft (factId : FactPtr → ℤ) (w : TokenWME) :
    ConditionTyped left (mem.eraseLeft factId w) := by
  unfold BetaConditionMem.eraseLeft
  split
  · exact ⟨fun e he ↦ hmem.condition e (AssocMap.mem_erase.mp he).2,
      fun e he ↦ hmem.leftIndex e (List.mem_of_mem_eraseP he), hmem.leftUnindexed⟩
  · exact ⟨fun e he ↦ hmem.condition e (AssocMap.mem_erase.mp he).2, hmem.leftIndex,
      fun w hw ↦ hmem.leftUnindexed w (List.mem_of_mem_erase hw)⟩

/-- The matches of a token are replaced. -/
theorem ConditionTyped.insertMatches (hw : w ∈ left) (matched : List ℤ) :
    ConditionTyped left { mem with left := AssocMap.insert w matched mem.left } := by
  refine ⟨fun e he ↦ ?_, hmem.leftIndex, hmem.leftUnindexed⟩
  rcases AssocMap.mem_insert.mp he with ⟨-, he⟩ | ⟨heq, -⟩
  · exact hmem.condition e he
  · exact heq ▸ hw

theorem ConditionTyped.insertLeft (indexed : Bool) (key : Option ConstraintValue)
    (hw : w ∈ left) (matched : List ℤ) :
    ConditionTyped left (mem.insertLeft indexed key w matched) := by
  have h := hmem.insertMatches hw matched
  unfold BetaConditionMem.insertLeft
  split
  · refine ⟨h.condition, fun e he ↦ ?_, h.leftUnindexed⟩
    rcases List.mem_append.mp he with he | he
    · exact h.leftIndex e he
    · exact List.mem_singleton.mp he ▸ hw
  · refine ⟨h.condition, h.leftIndex, fun v hv ↦ ?_⟩
    rcases List.mem_append.mp hv with hv | hv
    · exact h.leftUnindexed v hv
    · exact List.mem_singleton.mp hv ▸ hw
  · exact h

theorem ConditionTyped.leftCandidates (factId : FactPtr → ℤ) (indexed : Bool)
    (key : Option ConstraintValue) : ∀ w ∈ mem.leftCandidates factId indexed key, w ∈ left := by
  intro w hw
  unfold BetaConditionMem.leftCandidates at hw
  split at hw
  · rcases List.mem_append.mp hw with hw | hw
    · obtain ⟨entry, hentry, rfl⟩ := mem_of_mem_bucket hw
      exact hmem.leftIndex entry hentry
    · exact hmem.leftUnindexed w hw
  · obtain ⟨entry, hentry, rfl⟩ := List.mem_map.mp hw
    exact hmem.condition entry hentry

end Condition

theorem Typed.updateRight {f : BetaConditionMem → BetaConditionMem} (h : Typed T s)
    (hf : SameLeft (s.mem n).betaCondition (f (s.mem n).betaCondition)) :
    Typed T (RulesForge.updateCondition n f s) := by
  refine h.updateCondition ⟨?_, ?_, ?_⟩
  · rw [hf.left]
    exact (h n).condition
  · rw [hf.leftIndex]
    exact (h n).leftIndex
  · rw [hf.leftUnindexed]
    exact (h n).leftUnindexed

section ConditionNode

variable {kind : ConditionKind} {c : JoinCondition} (hkind : kb.network.kind n = .condition kind c)
  (hemit : TypedEmission T n emit)
include hkind hemit

/-- A token comes to a NOT or EXISTS node, or leaves it. -/
theorem conditionLeft_typed (hw : type ≠ .retract → w ∈ T.left n) (h : Typed T s) :
    Typed T (conditionLeft kb n emit kind c w type s) := by
  unfold conditionLeft
  dsimp only
  split
  · split
    · next hcontains =>
      obtain ⟨matched, hmem⟩ := AssocMap.contains_iff.mp hcontains
      have hheld : w ∈ T.left n := (h n).condition (w, matched) hmem
      exact hemit (T.condition hkind hheld)
        (h.updateCondition ((h n).conditionTyped.eraseLeft _ w))
    · exact h
  · next htype =>
    have h₁ := h.updateCondition ((h n).conditionTyped.insertLeft c.isIndexed
      (conditionTokenKey c s.heap w) (hw htype) (((((s.mem n).betaCondition.rightCandidates
        (factIds s.heap) c.isIndexed (conditionTokenKey c s.heap w)).filter
          (checkCondition kb c s w)).map (factIds s.heap)).dedup))
    split
    · exact hemit (T.condition hkind (hw htype)) h₁
    · exact h₁

/-- A token whose matches have changed is given out or taken back. -/
theorem updateMatch_typed {existed retest : Bool} (hw : w ∈ T.left n) (h : Typed T s) :
    Typed T (updateMatch kb n emit kind c fact existed retest w s) := by
  have hout : w ∈ T.out n := T.condition hkind hw
  unfold updateMatch
  dsimp only
  split
  · exact h
  · next matched _ =>
    have h₁ : ∀ updated, Typed T (updateCondition n
        (fun mem ↦ { mem with left := AssocMap.insert w updated mem.left }) s) :=
      fun updated ↦ h.updateCondition ((h n).conditionTyped.insertMatches hw updated)
    generalize (if retest && checkCondition kb c s w fact then _ else _) = updated
    unfold propagateConditionTransition
    split
    · exact hemit hout (h₁ updated)
    · split
      · exact hemit hout (h₁ updated)
      · exact h₁ updated

theorem conditionRight_typed (h : Typed T s) :
    Typed T (conditionRight kb n emit kind c fact type s) := by
  have hcandidates : ∀ {present : Bool} {key}, ∀ w ∈ (if present = true then
      (s.mem n).betaCondition.leftCandidates (factIds s.heap) c.isIndexed key else []),
      w ∈ T.left n := by
    intro present key w hw
    cases present with
    | false => exact absurd hw List.not_mem_nil
    | true => exact (h n).conditionTyped.leftCandidates _ _ _ w hw
  have hlooped : ∀ {old new : List TokenWME} {existed : Bool} {retest : TokenWME → Bool},
      (∀ w ∈ old, w ∈ T.left n) → (∀ w ∈ new, w ∈ T.left n) →
      Typed T ((old ++ new).dedup.foldl (fun s w ↦
        updateMatch kb n emit kind c fact existed (retest w) w s) s) := by
    intro old new existed retest hold hnew
    refine Typed.foldl (fun {s w} hw h ↦ updateMatch_typed hkind hemit ?_ h) h
    exact (List.mem_append.mp (List.mem_dedup.mp hw)).elim (hold w) (hnew w)
  have hindexed : ∀ {s₁ : Session} (existed asserts : Bool) (ids : FactPtr → ℤ) (key), Typed T s₁ →
      Typed T (
        let s₂ := if existed then updateCondition n
          (BetaConditionMem.unindexRight ids c.isIndexed fact) s₁ else s₁
        if asserts then
          updateCondition n (BetaConditionMem.insertRight ids c.isIndexed key fact) s₂
        else updateCondition n
          (fun mem ↦ { mem with right := AssocMap.erase (ids fact) mem.right }) s₂) := by
    intro s₁ existed asserts ids key h₁
    have h₂ : Typed T (if existed then updateCondition n
        (BetaConditionMem.unindexRight ids c.isIndexed fact) s₁ else s₁) := by
      cases existed with
      | false => exact h₁
      | true => exact h₁.updateRight (unindexRight_sameLeft _ _ _ _)
    cases asserts with
    | false =>
      exact Typed.updateRight (f := fun mem ↦
        { mem with right := AssocMap.erase (ids fact) mem.right }) h₂ ⟨rfl, rfl, rfl, rfl⟩
    | true => exact h₂.updateRight (insertRight_sameLeft _ _ _ _ _)
  unfold conditionRight
  dsimp only
  by_cases hskip : (!decide (type ≠ .retract) &&
      !AssocMap.contains (factIds s.heap fact) (s.mem n).betaCondition.right) = true
  · rw [if_pos hskip]
    exact h
  · rw [if_neg hskip]
    exact hindexed _ _ _ _ (hlooped hcandidates hcandidates)

end ConditionNode

/-! ### Through the network -/

variable {logicalRetract : TokenWME → Session → Session}

section Network

variable (hretract : ∀ {w s}, Typed T s → Typed T (logicalRetract w s))
include hretract

theorem terminalLeft_typed {rule : ℕ} {bindings : Bindings}
    (hw : type ≠ .retract → w ∈ T.left n) (h : Typed T s) :
    Typed T (terminalLeft kb logicalRetract n rule bindings w type s) := by
  unfold terminalLeft
  cases type with
  | retract =>
    refine hretract ?_
    split
    · exact Typed.of_mem (s := updateTerminal n (·.erase w) s) (h.updateMem { h n with
        terminal := fun v hv ↦ (h n).terminal v (List.mem_of_mem_erase hv) }) rfl
    · exact h
  | assert =>
    dsimp only
    split
    · exact h
    · refine Typed.of_mem (s := updateTerminal n (· ++ [w]) s) (h.updateMem ?_)
        ((applyAutoFocus_mem _).trans (addActivation_mem _ _))
      refine { h n with terminal := fun v hv ↦ ?_ }
      rcases List.mem_append.mp hv with hv | hv
      · exact (h n).terminal v hv
      · exact List.mem_singleton.mp hv ▸ hw nofun
  | modify => exact h

omit hretract in
/-- A token comes to an eval node or to the terminal node of a query. -/
theorem tokenNodeLeft_typed {node : TokenNode} (hkind : kb.network.kind n = .tokenNode node)
    (hemit : (kb.network.kind n).isBetaNode = true → TypedEmission T n emit)
    (hw : type ≠ .retract → w ∈ T.left n) (h : Typed T s) :
    Typed T (tokenNodeLeft kb n emit w type node s) := by
  have hinsert : ∀ {l : List TokenWME}, w ∈ T.left n → (∀ v ∈ l, v ∈ T.left n) →
      ∀ v ∈ l.insert w, v ∈ T.left n :=
    fun hw hl v hv ↦ (List.mem_insert_iff.mp hv).elim (fun heq ↦ heq ▸ hw) (hl v)
  have herase : ∀ {l : List TokenWME}, (∀ v ∈ l, v ∈ T.left n) → ∀ v ∈ l.erase w, v ∈ T.left n :=
    fun hl v hv ↦ hl v (List.mem_of_mem_erase hv)
  cases node with
  | queryTerminal bindings =>
    refine h.updateMem { h n with results := ?_ }
    dsimp only
    split
    · next htype => exact hinsert (hw (by rw [htype]; nofun)) (h n).results
    · exact herase (h n).results
  | eval node =>
    have hpassed : TypedEmission T n emit := hemit (by rw [hkind]; rfl)
    show Typed T (evalLeft kb n emit w type node s)
    unfold evalLeft
    split
    · split
      · next hmem =>
        exact hpassed (T.eval hkind ((h n).eval w hmem))
          (h.updateMem { h n with eval := herase (h n).eval })
      · exact h
    · next htype =>
      split
      · exact hpassed (T.eval hkind (hw htype))
          (h.updateMem { h n with eval := hinsert (hw htype) (h n).eval })
      · exact h

/-- **Left activation with a token of its type keeps memories typed.** A token that is retracted
may be any: what it takes away is typed. -/
theorem leftActivate_typed {levels : ℕ} (hw : type ≠ .retract → w ∈ T.left n) (h : Typed T s) :
    Typed T (leftActivate kb logicalRetract levels n w type s) := by
  induction levels generalizing n w type s with
  | zero => exact h
  | succ levels ih =>
    have hemit : (kb.network.kind n).isBetaNode = true → TypedEmission T n fun w type s ↦
        (kb.network.children n).foldl (fun s child ↦
          leftActivate kb logicalRetract levels child w type s) s :=
      fun hbeta {_ _ _} hw h ↦ Typed.foldl (fun hm h ↦ ih (fun _ ↦ T.child ⟨hm, hbeta⟩ hw) h) h
    unfold leftActivate
    cases hkind : kb.network.kind n with
    | crossProductJoin c =>
      exact crossProductLeft_typed (by rw [hkind]; rfl) (hemit (by rw [hkind]; rfl)) hw h
    | hashedJoin c l r =>
      exact hashedLeft_typed (by rw [hkind]; rfl) (hemit (by rw [hkind]; rfl)) hw h
    | condition kind c => exact conditionLeft_typed hkind (hemit (by rw [hkind]; rfl)) hw h
    | tokenNode node => exact tokenNodeLeft_typed hkind hemit hw h
    | terminal rule bindings => exact terminalLeft_typed hretract hw h
    | alpha c => exact h
    | entryPoint => exact h

theorem emitFrom_typed (levels : ℕ) (hbeta : (kb.network.kind n).isBetaNode = true) :
    TypedEmission T n (emitFrom kb logicalRetract levels n) :=
  fun {_ _ _} hw h ↦
    Typed.foldl (fun hm h ↦ leftActivate_typed hretract (fun _ ↦ T.child ⟨hm, hbeta⟩ hw) h) h

theorem betaRightActivate_typed (h : Typed T s) :
    Typed T (betaRightActivate kb logicalRetract n fact type s) := by
  have hemit : (kb.network.kind n).isBetaNode = true →
      TypedEmission T n (emitFrom kb logicalRetract kb.network.nodes.length n) :=
    emitFrom_typed hretract kb.network.nodes.length
  unfold betaRightActivate
  cases hkind : kb.network.kind n with
  | crossProductJoin c =>
    exact crossProductRight_typed (by rw [hkind]; rfl) (hemit (by rw [hkind]; rfl)) h
  | hashedJoin c l r =>
    exact hashedRight_typed (by rw [hkind]; rfl) (hemit (by rw [hkind]; rfl)) h
  | condition kind c => exact conditionRight_typed hkind (hemit (by rw [hkind]; rfl)) h
  | tokenNode node => exact h
  | terminal rule bindings => exact h
  | alpha c => exact h
  | entryPoint => exact h

/-- **Right activation keeps memories typed.** -/
theorem rightActivate_typed {levels : ℕ}
    (h : Typed T s) : Typed T (rightActivate kb logicalRetract levels n fact type s) := by
  induction levels generalizing n type s with
  | zero => exact h
  | succ levels ih =>
    have hchildren : ∀ {type s}, Typed T s → Typed T ((kb.network.children n).foldl
        (fun s child ↦ rightActivate kb logicalRetract levels child fact type s) s) :=
      fun h ↦ Typed.foldl (fun _ h ↦ ih h) h
    unfold rightActivate
    cases hkind : kb.network.kind n with
    | entryPoint => exact hchildren h
    | alpha c =>
      have hpassing : Typed T (updatePassing n
          (fun _ ↦ (alphaStep kb c (s.mem n).passingFacts fact type s).1) s) :=
        h.updateMem { h n with }
      dsimp only
      split
      · exact hpassing
      · exact hchildren hpassing
    | crossProductJoin c => exact betaRightActivate_typed hretract h
    | hashedJoin c l r => exact betaRightActivate_typed hretract h
    | condition kind c => exact betaRightActivate_typed hretract h
    | tokenNode node => exact betaRightActivate_typed hretract h
    | terminal rule bindings => exact betaRightActivate_typed hretract h

omit hretract in
/-- A batch of tokens comes to the terminal node of a rule. -/
theorem terminalLeftBatch_typed {rule : ℕ} {bindings : Bindings}
    (hwmes : ∀ w ∈ wmes, w ∈ T.left n) (h : Typed T s) :
    Typed T (terminalLeftBatch kb n rule bindings wmes s) := by
  have hfold : Typed T (wmes.foldl (fun (x : Session × List Activation) w ↦
      if w ∈ (x.1.mem n).terminal then x
      else (updateTerminal n (· ++ [w]) x.1, x.2 ++ [activationOf kb rule (some bindings) w]))
      (s, [])).1 := by
    refine List.foldlRecOn wmes _ (motive := fun x : Session × List Activation ↦ Typed T x.1) h ?_
    rintro ⟨s', added⟩ hs' w hw
    dsimp only
    split
    · exact hs'
    · refine hs'.updateMem { hs' n with terminal := fun v hv ↦ ?_ }
      rcases List.mem_append.mp hv with hv | hv
      · exact (hs' n).terminal v hv
      · exact List.mem_singleton.mp hv ▸ hwmes w hw
  unfold terminalLeftBatch
  generalize wmes.foldl _ (s, []) = x at hfold ⊢
  obtain ⟨s', added⟩ := x
  dsimp only
  split
  · exact hfold
  · exact hfold.of_mem ((addActivationsBatch_mem _ _).trans (applyAutoFocus_mem _))

theorem leftActivateBatch_typed {levels : ℕ} (hwmes : ∀ w ∈ wmes, w ∈ T.left n) (h : Typed T s) :
    Typed T (leftActivateBatch kb logicalRetract levels n wmes s) := by
  unfold leftActivateBatch
  split
  · exact terminalLeftBatch_typed hwmes h
  · exact Typed.foldl (fun hw h ↦ leftActivate_typed hretract (fun _ ↦ hwmes _ hw) h) h

theorem betaRightActivateBatch_typed (h : Typed T s) :
    Typed T (betaRightActivateBatch kb logicalRetract n facts s) := by
  have hemit : (kb.network.kind n).isBetaNode = true →
      TypedEmission T n (emitFrom kb logicalRetract kb.network.nodes.length n) :=
    emitFrom_typed hretract kb.network.nodes.length
  unfold betaRightActivateBatch
  cases hkind : kb.network.kind n with
  | crossProductJoin c =>
    have hbeta : (kb.network.kind n).isBetaNode = true := by rw [hkind]; rfl
    exact crossProductRightBatch_typed (by rw [hkind]; rfl) (fun hwmes h ↦ Typed.foldl (fun hm h ↦
      leftActivateBatch_typed hretract (fun w hw ↦ T.child ⟨hm, hbeta⟩ (hwmes w hw)) h) h) h
  | hashedJoin c l r =>
    exact hashedRightBatch_typed (by rw [hkind]; rfl) (hemit (by rw [hkind]; rfl)) h
  | condition kind c =>
    exact Typed.foldl (fun _ h ↦ conditionRight_typed hkind (hemit (by rw [hkind]; rfl)) h) h
  | tokenNode node => exact h
  | terminal rule bindings => exact h
  | alpha c => exact h
  | entryPoint => exact h

/-- **Right activation with a batch keeps memories typed.** -/
theorem rightActivateBatch_typed {levels : ℕ} (h : Typed T s) :
    Typed T (rightActivateBatch kb logicalRetract levels n facts s).2 := by
  induction levels generalizing n facts s with
  | zero => exact h
  | succ levels ih =>
    have hchildren : ∀ {facts s}, Typed T s → Typed T ((kb.network.children n).foldl
        (fun x child ↦ rightActivateBatch kb logicalRetract levels child x.1 x.2)
        (facts, s)).2 := by
      intro facts s h
      refine List.foldlRecOn _ _ (motive := fun x : List FactPtr × Session ↦ Typed T x.2) h ?_
      exact fun x hx child _ ↦ ih hx
    have hpassing : ∀ f, Typed T (updatePassing n f s) := fun f ↦ h.updateMem { h n with }
    simp only [rightActivateBatch]
    split
    · exact hchildren h
    · split
      · exact h
      · split
        · exact hchildren (hpassing _)
        · exact hchildren (hpassing _)
    · exact betaRightActivateBatch_typed hretract h

end Network

/-! ### Operations of a session -/

/-- What a client does keeps memories typed, when retractions that follow do. -/
theorem activateEntryPoint_typed (hretract : ∀ {w s}, Typed T s → Typed T (logicalRetract w s))
    (h : Typed T s) :
    Typed T (activateEntryPoint kb logicalRetract fact type s) := by
  unfold activateEntryPoint
  split
  · exact h
  · exact rightActivate_typed hretract h

theorem removeFact_typed (hretract : ∀ {w s}, Typed T s → Typed T (logicalRetract w s))
    {p : FactPtr} (h : Typed T s) : Typed T (removeFact kb logicalRetract p s) := by
  have hactivated : Typed T (activateEntryPoint kb logicalRetract p .retract (leaveFact p s)) :=
    activateEntryPoint_typed hretract (h.of_mem rfl)
  exact (Typed.foldl (fun _ h ↦ hretract h) hactivated).of_mem rfl

theorem retractFact_typed (hretract : ∀ {w s}, Typed T s → Typed T (logicalRetract w s))
    (h : Typed T s) : Typed T (retractFact kb logicalRetract fact s).1 := by
  unfold retractFact
  split
  · exact h
  · split
    · exact h
    · split
      · exact h
      · exact h.of_mem rfl
      · exact removeFact_typed hretract h

/-- The withdrawal of justifications, with every retraction that follows. -/
theorem logicalRetract_typed {steps : ℕ} (h : Typed T s) :
    Typed T (RulesForge.logicalRetract kb steps w s) := by
  induction steps generalizing w s with
  | zero => exact h
  | succ steps ih =>
    unfold RulesForge.logicalRetract
    exact Typed.foldl (fun _ h ↦ retractFact_typed (fun h ↦ ih h) h) (h.of_mem rfl)

theorem addFact_typed {steps : ℕ} (h : Typed T s) :
    Typed T (addFact kb steps fact s).1 := by
  unfold addFact
  split
  · exact h
  · split
    · exact h
    · split
      · exact h
      · dsimp only
        split
        · exact h.of_mem rfl
        · exact activateEntryPoint_typed (fun h ↦ logicalRetract_typed h) (h.of_mem rfl)

theorem updateFact_typed {steps : ℕ} {fields : List (String × ConstraintValue)} (h : Typed T s) :
    Typed T (updateFact kb steps fact fields s).1 := by
  unfold updateFact
  split
  · exact h
  · split
    · exact h
    · exact activateEntryPoint_typed (fun h ↦ logicalRetract_typed h) (h.of_mem rfl)

end RulesForge
