import Mathlib.Data.List.Dedup
import RulesForge.Rete.ConditionInvariant

/-!
# Activations of NOT and EXISTS nodes

A left activation tests the token against the facts its key leaves in question; a right
activation drops the changed fact from the matches of the tokens under its old key and tests
it again with those under its new key. A token is delivered below, or withdrawn, when the
number of its matches comes to pass, or ceases to.
-/

namespace RulesForge

section Condition

variable {kb : KnowledgeBase} {base : Session} {nodes : Set ℕ} {Ok : TokenWME → Prop}
  {Below : Set TokenWME → (ℕ → NodeMemory) → Prop} {emit : Emission} {n : ℕ}
  {kind : ConditionKind} {c : JoinCondition} {R R' : Set FactPtr} {stale : TokenWME → Prop}
  {pending pending' : FactPtr → Prop} {D : Set TokenWME} {s : Session} {w : TokenWME}
  {p f : FactPtr} {key : Option ConstraintValue} {mem : BetaConditionMem}

/-! ### Candidates -/

theorem ConditionInv.mem_rightCandidates (h : ConditionInv kb base c R stale pending D mem)
    (hplain : ∀ k, key = some k → k.isPlain = true) {factId : FactPtr → ℤ} :
    f ∈ mem.rightCandidates factId c.isIndexed key ↔
      f ∈ R ∧ Compatible (mem.recordedRightKey base f) (key.map ConstraintValue.canonical) := by
  have heq : mem.rightCandidates factId c.isIndexed key = candidates factId c.isIndexed key
      mem.rightIndex mem.rightUnindexed (mem.right.map Prod.snd) := by
    cases c.isIndexed <;> cases key <;> rfl
  rw [heq, h.right_index.mem_candidates (by simp [h.mem_right]) hplain]
  rfl

theorem ConditionInv.mem_leftCandidates (h : ConditionInv kb base c R stale pending D mem)
    (hplain : ∀ k, key = some k → k.isPlain = true) {factId : FactPtr → ℤ} :
    w ∈ mem.leftCandidates factId c.isIndexed key ↔
      w ∈ D ∧ Compatible (mem.recordedLeftKey w) (key.map ConstraintValue.canonical) := by
  have heq : mem.leftCandidates factId c.isIndexed key = candidates factId c.isIndexed key
      mem.leftIndex mem.leftUnindexed (mem.left.map Prod.fst) := by
    cases c.isIndexed <;> cases key <;> rfl
  rw [heq, h.left_index.mem_candidates (by simp [← h.mem_left]) hplain]
  rfl

/-! ### Left activation -/

variable (hemit : EmitSpec base nodes Ok Below emit) (hn : n ∉ nodes) (hbase : s.base = base)

section

include hemit hn

/-- The nodes below do not see the memory of the node. -/
theorem below_updateCondition {D' : Set TokenWME} (f : BetaConditionMem → BetaConditionMem)
    (hbelow : Below D' s.mem) : Below D' (updateCondition n f s).mem :=
  hemit.congr (fun _ hm ↦ s.updateMem_mem_ne (ne_of_mem_of_not_mem hm hn) _) hbelow

omit hn in
/-- Emitting a token after a change of its match: it is delivered, withdrawn or left alone. -/
theorem propagateConditionTransition_spec {left : List (TokenWME × List ℤ)} {ids : List ℤ}
    (ids' : List ℤ) (hbase : s.base = base) (hunique : AssocMap.Unique left)
    (hids : (w, ids) ∈ left) (hok : Ok w)
    (hbelow : Below (passingTokens kind left) s.mem) :
    let s' := propagateConditionTransition emit kind w ids.length ids'.length s
    Below (passingTokens kind (AssocMap.insert w ids' left)) s'.mem ∧ Effect nodes s s' := by
  have hmem : w ∈ passingTokens kind left ↔ kind.passes ids.length = true :=
    mem_passingTokens_iff hunique hids
  rw [passingTokens_insert]
  by_cases hold : kind.passes ids.length = true <;> by_cases hnew : kind.passes ids'.length = true
  · simpa [propagateConditionTransition, hold, hnew, Set.insert_eq_of_mem (hmem.mpr hold)] using
      ⟨hbelow, Effect.refl nodes s⟩
  · simpa [propagateConditionTransition, hold, hnew] using hemit.retract hbase hbelow hok
  · simpa [propagateConditionTransition, hold, hnew] using
      hemit.assert hbase hbelow (fun h ↦ hold (hmem.mp h)) hok
  · simpa [propagateConditionTransition, hold, hnew,
      Set.sdiff_singleton_eq_self fun h ↦ hold (hmem.mp h)] using ⟨hbelow, Effect.refl nodes s⟩

end

section Left

variable (hinv : ConditionInv kb base c R stale pending D (s.mem n).betaCondition)
  (hbelow : Below (passingTokens kind (s.mem n).betaCondition.left) s.mem) (hok : Ok w)

include hinv hemit hn hbelow hbase hok

theorem conditionLeft_assert (hw : w ∉ D) (hid : Set.InjOn (fun f ↦ (base.heap f).id) R)
    (hplain : ∀ k, conditionTokenKey c base.heap w = some k → k.isPlain = true) :
    let s' := conditionLeft kb n emit kind c w .assert s
    ConditionInv kb base c R stale pending (insert w D) (s'.mem n).betaCondition ∧
      Below (passingTokens kind (s'.mem n).betaCondition.left) s'.mem ∧
        Effect (insert n nodes) s s' := by
  have hheap : s.heap = base.heap := by
    rw [← hbase]
    rfl
  have hcheck : checkCondition kb c s w = checkCondition kb c base w := by
    rw [← hbase]
    rfl
  set key := conditionTokenKey c base.heap w with hkey
  set facts := (s.mem n).betaCondition.rightCandidates (factIds base.heap) c.isIndexed key
    with hfacts
  set ids := ((facts.filter (checkCondition kb c base w)).map (factIds base.heap)).dedup with hids
  set s₁ := updateCondition n (BetaConditionMem.insertLeft c.isIndexed key w ids) s with hs₁
  have hmemIds : ∀ i, i ∈ ids ↔ ∃ f ∈ R, i = (base.heap f).id ∧
      Compatible ((s.mem n).betaCondition.recordedRightKey base f) (currentLeftKey base c w) ∧
        checkCondition kb c base w f = true := by
    intro i
    simp only [hids, List.mem_dedup, List.mem_map, List.mem_filter, hfacts,
      hinv.mem_rightCandidates hplain, factIds, currentLeftKey]
    grind
  have hmem₁ : (s₁.mem n).betaCondition =
      (s.mem n).betaCondition.insertLeft c.isIndexed key w ids := by
    simp [hs₁, updateCondition]
  have hentered := hinv.leftEntered hw hplain ids
  have hinv₁ := hinv.insertLeft hw hid hentered (List.nodup_dedup _) hmemIds
  have hnotin : w ∉ passingTokens kind (s.mem n).betaCondition.left := by
    rintro ⟨ids', hmem, -⟩
    exact hw ((hinv.mem_left w).mp ⟨ids', hmem⟩)
  have hpassing : passingTokens kind (s₁.mem n).betaCondition.left =
      if kind.passes ids.length then insert w (passingTokens kind (s.mem n).betaCondition.left)
      else passingTokens kind (s.mem n).betaCondition.left := by
    rw [hmem₁, hentered.left, passingTokens_insert, Set.sdiff_singleton_eq_self hnotin]
  have hbelow₁ := below_updateCondition hemit hn
    (BetaConditionMem.insertLeft c.isIndexed key w ids) hbelow
  have heffect₁ : Effect (insert n nodes) s s₁ := Effect.updateMem (Set.mem_insert n nodes) s _
  have hresult : conditionLeft kb n emit kind c w .assert s =
      if kind.passes ids.length then emit w .assert s₁ else s₁ := by
    simp [conditionLeft, hheap, hcheck, hs₁, hids, hfacts, hkey]
  rw [hresult]
  split
  · next hpasses =>
    obtain ⟨hbelow₂, heffect₂⟩ := hemit.assert (s := s₁) hbase hbelow₁ hnotin hok
    have hmem₂ := heffect₂.mem n hn
    refine ⟨?_, ?_, heffect₁.trans (heffect₂.mono (Set.subset_insert n nodes))⟩
    · rw [hmem₂, hmem₁]
      exact hinv₁
    · rw [hmem₂, hpassing, if_pos hpasses]
      exact hbelow₂
  · next hpasses =>
    refine ⟨?_, ?_, heffect₁⟩
    · rw [hmem₁]
      exact hinv₁
    · rw [hpassing, if_neg hpasses]
      exact hbelow₁

/-- A retracted token is withdrawn below whether it passed or not. -/
theorem conditionLeft_retract :
    let s' := conditionLeft kb n emit kind c w .retract s
    ConditionInv kb base c R stale pending (D \ {w}) (s'.mem n).betaCondition ∧
      Below (passingTokens kind (s'.mem n).betaCondition.left) s'.mem ∧
        Effect (insert n nodes) s s' := by
  have hcontains : AssocMap.contains w (s.mem n).betaCondition.left = true ↔ w ∈ D := by
    rw [AssocMap.contains_iff, hinv.mem_left]
  by_cases hw : w ∈ D
  · set s₁ := updateCondition n (BetaConditionMem.eraseLeft (factIds s.heap) w) s with hs₁
    have hmem₁ : (s₁.mem n).betaCondition =
        (s.mem n).betaCondition.eraseLeft (factIds s.heap) w := by
      simp [hs₁, updateCondition]
    have hinv₁ := hinv.eraseLeft hw (factIds s.heap)
    have hleft : ((s.mem n).betaCondition.eraseLeft (factIds s.heap) w).left =
        AssocMap.erase w (s.mem n).betaCondition.left := by
      unfold BetaConditionMem.eraseLeft
      split <;> rfl
    have hbelow₁ := below_updateCondition hemit hn
      (BetaConditionMem.eraseLeft (factIds s.heap) w) hbelow
    obtain ⟨hbelow₂, heffect₂⟩ := hemit.retract (s := s₁) hbase hbelow₁ hok
    have hmem₂ := heffect₂.mem n hn
    have hresult : conditionLeft kb n emit kind c w .retract s = emit w .retract s₁ := by
      simp [conditionLeft, hcontains.mpr hw, hs₁]
    rw [hresult]
    refine ⟨?_, ?_, (Effect.updateMem (Set.mem_insert n nodes) s _).trans
      (heffect₂.mono (Set.subset_insert n nodes))⟩
    · rw [hmem₂, hmem₁]
      exact hinv₁
    · rw [hmem₂, hmem₁, hleft, passingTokens_erase]
      exact hbelow₂
  · have hresult : conditionLeft kb n emit kind c w .retract s = s := by
      simp [conditionLeft, Bool.eq_false_iff.mpr (hcontains.not.mpr hw)]
    rw [hresult, Set.sdiff_singleton_eq_self hw]
    exact ⟨hinv, hbelow, Effect.refl _ s⟩

end Left

/-! ### The matches of one fact -/

/-- The ids matched to a token after a change of the fact `p`. -/
def updatedIds (kb : KnowledgeBase) (base : Session) (c : JoinCondition) (p : FactPtr)
    (existed retest : Bool) (w : TokenWME) (ids : List ℤ) : List ℤ :=
  let kept := if existed then ids.filter (· ≠ (base.heap p).id) else ids
  if retest && checkCondition kb c base w p then kept.insert (base.heap p).id else kept

theorem nodup_updatedIds {existed retest : Bool} {ids : List ℤ} (hids : ids.Nodup) :
    (updatedIds kb base c p existed retest w ids).Nodup := by
  have hkept : (if existed then ids.filter (· ≠ (base.heap p).id) else ids).Nodup := by
    split
    · exact hids.filter _
    · exact hids
  unfold updatedIds
  dsimp only
  split
  · exact hkept.insert
  · exact hkept

theorem mem_updatedIds_of_ne {existed retest : Bool} {ids : List ℤ} {i : ℤ}
    (hi : i ≠ (base.heap p).id) :
    i ∈ updatedIds kb base c p existed retest w ids ↔ i ∈ ids := by
  unfold updatedIds
  cases existed <;> cases retest <;> cases hcheck : checkCondition kb c base w p <;> simp [hi]

theorem mem_updatedIds_self {existed retest : Bool} {ids : List ℤ}
    (hids : existed = false → (base.heap p).id ∉ ids) :
    (base.heap p).id ∈ updatedIds kb base c p existed retest w ids ↔
      retest = true ∧ checkCondition kb c base w p = true := by
  unfold updatedIds
  cases existed <;> cases retest <;> cases hcheck : checkCondition kb c base w p <;>
    simp_all

/-- The matches of all tokens have been changed by `update`, and the changes emitted. -/
structure MatchesUpdated (Below : Set TokenWME → (ℕ → NodeMemory) → Prop) (kind : ConditionKind)
    (n : ℕ) (nodes : Set ℕ) (update : TokenWME → List ℤ → List ℤ) (s s' : Session) : Prop where
  unique : AssocMap.Unique (s'.mem n).betaCondition.left
  mem_left : ∀ {w ids'}, (w, ids') ∈ (s'.mem n).betaCondition.left ↔
    ∃ ids, (w, ids) ∈ (s.mem n).betaCondition.left ∧ ids' = update w ids
  rest : (s'.mem n).betaCondition =
    { (s.mem n).betaCondition with left := (s'.mem n).betaCondition.left }
  below : Below (passingTokens kind (s'.mem n).betaCondition.left) s'.mem
  effect : Effect (insert n nodes) s s'

theorem MatchesUpdated.refl {update : TokenWME → List ℤ → List ℤ}
    (hunique : AssocMap.Unique (s.mem n).betaCondition.left)
    (hbelow : Below (passingTokens kind (s.mem n).betaCondition.left) s.mem)
    (hupdate : ∀ w ids, (w, ids) ∈ (s.mem n).betaCondition.left → update w ids = ids) :
    MatchesUpdated Below kind n nodes update s s where
  unique := hunique
  mem_left := by
    intro w ids'
    refine ⟨fun h ↦ ⟨ids', h, (hupdate w ids' h).symm⟩, ?_⟩
    rintro ⟨ids, h, rfl⟩
    rwa [hupdate w ids h]
  rest := rfl
  below := hbelow
  effect := Effect.refl _ s

theorem MatchesUpdated.trans {update update' : TokenWME → List ℤ → List ℤ} {s' s'' : Session}
    (h : MatchesUpdated Below kind n nodes update s s')
    (h' : MatchesUpdated Below kind n nodes update' s' s'') :
    MatchesUpdated Below kind n nodes (fun w ids ↦ update' w (update w ids)) s s'' where
  unique := h'.unique
  mem_left := by
    intro w ids'
    rw [h'.mem_left]
    constructor
    · rintro ⟨ids₁, hmem₁, rfl⟩
      obtain ⟨ids, hmem, rfl⟩ := h.mem_left.mp hmem₁
      exact ⟨ids, hmem, rfl⟩
    · rintro ⟨ids, hmem, rfl⟩
      exact ⟨update w ids, h.mem_left.mpr ⟨ids, hmem, rfl⟩, rfl⟩
  rest := by
    have hrest := h'.rest
    rw [h.rest] at hrest
    exact hrest
  below := h'.below
  effect := h.effect.trans h'.effect

section Matches

include hemit hn

variable (kb) in
theorem updateMatch_spec (existed retest : Bool) (hbase : s.base = base) (hok : Ok w)
    (hunique : AssocMap.Unique (s.mem n).betaCondition.left)
    (hbelow : Below (passingTokens kind (s.mem n).betaCondition.left) s.mem) :
    MatchesUpdated Below kind n nodes
      (fun w' ids ↦ if w' = w then updatedIds kb base c p existed retest w ids else ids)
      s (updateMatch kb n emit kind c p existed retest w s) := by
  have hheap : s.heap = base.heap := by
    rw [← hbase]
    rfl
  have hcheck : checkCondition kb c s w p = checkCondition kb c base w p := by
    rw [← hbase]
    rfl
  cases hlookup : (s.mem n).betaCondition.left.lookup w with
  | none =>
    have hresult : updateMatch kb n emit kind c p existed retest w s = s := by
      simp [updateMatch, hlookup]
    rw [hresult]
    refine MatchesUpdated.refl hunique hbelow fun w' ids hmem ↦ if_neg ?_
    rintro rfl
    exact AssocMap.lookup_eq_none_iff.mp hlookup ids hmem
  | some ids =>
    have hmem : (w, ids) ∈ (s.mem n).betaCondition.left := hunique.lookup_eq_some_iff.mp hlookup
    set ids' := updatedIds kb base c p existed retest w ids with hids'
    set s₁ := updateCondition n (fun mem ↦ { mem with
      left := AssocMap.insert w ids' mem.left }) s with hs₁
    have hmem₁ : (s₁.mem n).betaCondition = { (s.mem n).betaCondition with
        left := AssocMap.insert w ids' (s.mem n).betaCondition.left } := by
      simp [hs₁, updateCondition]
    have hbelow₁ := below_updateCondition hemit hn
      (fun mem ↦ { mem with left := AssocMap.insert w ids' mem.left }) hbelow
    obtain ⟨hbelow₂, heffect₂⟩ := propagateConditionTransition_spec hemit (s := s₁) ids'
      hbase hunique hmem hok hbelow₁
    have hresult : updateMatch kb n emit kind c p existed retest w s =
        propagateConditionTransition emit kind w ids.length ids'.length s₁ := by
      simp [updateMatch, hlookup, hs₁, hids', updatedIds, hheap, hcheck]
    rw [hresult]
    have hmem₂ : ((propagateConditionTransition emit kind w ids.length ids'.length s₁).mem
        n).betaCondition = _ := (congrArg NodeMemory.betaCondition (heffect₂.mem n hn)).trans hmem₁
    refine ⟨?_, ?_, ?_, ?_, ?_⟩
    · rw [hmem₂]
      exact hunique.insert w ids'
    · intro w' ids''
      rw [hmem₂]
      simp only [AssocMap.mem_insert]
      constructor
      · rintro (⟨hne, h⟩ | ⟨rfl, rfl⟩)
        · exact ⟨ids'', h, (if_neg hne).symm⟩
        · exact ⟨ids, hmem, (if_pos rfl).symm⟩
      · rintro ⟨ids₀, h, heq⟩
        by_cases hw' : w' = w
        · subst hw'
          rw [hunique.eq_of_mem h hmem, if_pos rfl] at heq
          exact .inr ⟨rfl, heq⟩
        · rw [if_neg hw'] at heq
          exact .inl ⟨hw', heq ▸ h⟩
    · rw [hmem₂]
    · rw [hmem₂]
      exact hbelow₂
    · exact (Effect.updateMem (Set.mem_insert n nodes) s _).trans
        (heffect₂.mono (Set.subset_insert n nodes))

variable (kb kind) in
/-- The loop of a right activation over the tokens in question. -/
theorem updateMatches_spec (existed : Bool) (retest : TokenWME → Bool) (l : List TokenWME)
    (hbase : s.base = base) (hnodup : l.Nodup) (hok : ∀ w ∈ l, Ok w)
    (hunique : AssocMap.Unique (s.mem n).betaCondition.left)
    (hbelow : Below (passingTokens kind (s.mem n).betaCondition.left) s.mem) :
    MatchesUpdated Below kind n nodes
      (fun w ids ↦ if w ∈ l then updatedIds kb base c p existed (retest w) w ids else ids)
      s (l.foldl (fun s w ↦ updateMatch kb n emit kind c p existed (retest w) w s) s) := by
  induction l generalizing s with
  | nil => exact MatchesUpdated.refl hunique hbelow fun w ids _ ↦ by simp
  | cons w l ih =>
    obtain ⟨hnotin, hnodup⟩ := List.nodup_cons.mp hnodup
    have hstep := updateMatch_spec kb (c := c) (p := p) hemit hn existed (retest w) hbase (hok w List.mem_cons_self) hunique hbelow
    have hrest := ih (hstep.effect.base.trans hbase) hnodup
      (fun w' hw' ↦ hok w' (List.mem_cons_of_mem _ hw')) hstep.unique hstep.below
    have hboth := hstep.trans hrest
    rw [List.foldl_cons]
    convert hboth using 3 with w' ids
    by_cases hw' : w' = w
    · subst hw'
      simp [hnotin]
    · simp [hw']

end Matches

/-! ### The right memory -/

/-- The right side of the index holds the facts of `R`. -/
structure RightIndexed (base : Session) (c : JoinCondition) (R : Set FactPtr)
    (mem : BetaConditionMem) : Prop where
  rightKeys_mem : ∀ {id k}, (id, k) ∈ mem.rightKeys → ∃ f ∈ R, id = (base.heap f).id
  index : IndexInv c.isIndexed R (fun f ↦ mem.rightKeys.lookup (base.heap f).id)
    mem.rightIndex mem.rightUnindexed

theorem RightIndexed.unindexRight (h : RightIndexed base c R mem) (hp : p ∈ R)
    (hid : Set.InjOn (fun f ↦ (base.heap f).id) R) :
    let mem' := mem.unindexRight (factIds base.heap) c.isIndexed p
    RightIndexed base c (R \ {p}) mem' ∧
      ∀ f ∈ R \ {p}, mem'.rightKeys.lookup (base.heap f).id =
        mem.rightKeys.lookup (base.heap f).id := by
  have hne : ∀ f ∈ R \ {p}, (base.heap f).id ≠ (base.heap p).id :=
    fun f hf heq ↦ hf.2 (hid hf.1 hp heq)
  have hfactId : factIds base.heap p = (base.heap p).id := rfl
  cases hlookup : mem.rightKeys.lookup (base.heap p).id with
  | some k =>
    have hresult : mem.unindexRight (factIds base.heap) c.isIndexed p = { mem with
        rightIndex := bucketErase (factIds base.heap) k p mem.rightIndex
        rightKeys := AssocMap.erase (base.heap p).id mem.rightKeys } := by
      simp [BetaConditionMem.unindexRight, hfactId, hlookup]
    rw [hresult]
    have hother : ∀ f ∈ R \ {p}, (AssocMap.erase (base.heap p).id mem.rightKeys).lookup
        (base.heap f).id = mem.rightKeys.lookup (base.heap f).id :=
      fun f hf ↦ AssocMap.lookup_erase_ne (hne f hf) _
    refine ⟨⟨?_, (h.index.erase_some hp hlookup).congr hother⟩, hother⟩
    intro id k' hmem
    obtain ⟨hneid, hmem⟩ := AssocMap.mem_erase.mp hmem
    obtain ⟨f, hf, rfl⟩ := h.rightKeys_mem hmem
    refine ⟨f, ⟨hf, ?_⟩, rfl⟩
    rintro rfl
    exact hneid rfl
  | none =>
    have hresult : mem.unindexRight (factIds base.heap) c.isIndexed p = { mem with
        rightUnindexed := mem.rightUnindexed.erase p } := by
      cases hindexed : c.isIndexed with
      | true => simp [BetaConditionMem.unindexRight, hfactId, hlookup]
      | false =>
        have hnotin : p ∉ mem.rightUnindexed := fun hmem ↦ by
          simpa [hindexed] using (h.index.mem_unindexed.mp hmem).2.2
        simp [BetaConditionMem.unindexRight, hfactId, hlookup, List.erase_of_not_mem hnotin]
    rw [hresult]
    refine ⟨⟨?_, h.index.erase_none hlookup⟩, fun _ _ ↦ rfl⟩
    intro id k hmem
    obtain ⟨f, hf, rfl⟩ := h.rightKeys_mem hmem
    refine ⟨f, ⟨hf, ?_⟩, rfl⟩
    rintro rfl
    exact AssocMap.lookup_eq_none_iff.mp hlookup k hmem

theorem RightIndexed.insertRight (h : RightIndexed base c R mem) (hp : p ∉ R)
    (hid : Set.InjOn (fun f ↦ (base.heap f).id) (insert p R))
    (hplain : ∀ k, conditionFactKey c base.heap p = some k → k.isPlain = true) :
    let mem' := mem.insertRight (factIds base.heap) c.isIndexed (conditionFactKey c base.heap p) p
    RightIndexed base c (insert p R) mem' ∧
      mem'.rightKeys.lookup (base.heap p).id = conditionFactKey c base.heap p ∧
      ∀ f ∈ R, mem'.rightKeys.lookup (base.heap f).id = mem.rightKeys.lookup (base.heap f).id := by
  have hnotin : ∀ k, ((base.heap p).id, k) ∉ mem.rightKeys := by
    intro k hmem
    obtain ⟨f, hf, heq⟩ := h.rightKeys_mem hmem
    exact hp (hid (Set.mem_insert p R) (Set.mem_insert_of_mem p hf) heq ▸ hf)
  have hnone : mem.rightKeys.lookup (base.heap p).id = none :=
    AssocMap.lookup_eq_none_iff.mpr hnotin
  have hkeysMem : ∀ {id k}, (id, k) ∈ mem.rightKeys → ∃ f ∈ insert p R, id = (base.heap f).id := by
    intro id k hmem
    obtain ⟨f, hf, heq⟩ := h.rightKeys_mem hmem
    exact ⟨f, Set.mem_insert_of_mem p hf, heq⟩
  cases hindexed : c.isIndexed with
  | false =>
    have hkey := conditionFactKey_of_not_indexed hindexed base.heap p
    have hindex := h.index.insert_none hp hnone
    refine ⟨⟨hkeysMem, ?_⟩, hnone.trans hkey.symm, fun _ _ ↦ rfl⟩
    simpa [BetaConditionMem.insertRight, hindexed] using hindex
  | true =>
    cases hkey : conditionFactKey c base.heap p with
    | none =>
      have hindex := h.index.insert_none hp hnone
      refine ⟨⟨hkeysMem, ?_⟩, hnone, fun _ _ ↦ rfl⟩
      simpa [BetaConditionMem.insertRight, hindexed] using hindex
    | some k =>
      have hkeys : AssocMap.emplace (factIds base.heap p) k mem.rightKeys =
          AssocMap.insert (base.heap p).id k mem.rightKeys := AssocMap.emplace_eq_insert hnotin k
      have hother : ∀ f ∈ R, (AssocMap.insert (base.heap p).id k mem.rightKeys).lookup
          (base.heap f).id = mem.rightKeys.lookup (base.heap f).id := by
        intro f hf
        refine AssocMap.lookup_insert_ne (fun heq ↦ hp ?_) k _
        exact hid (Set.mem_insert_of_mem p hf) (Set.mem_insert p R) heq ▸ hf
      simp only [BetaConditionMem.insertRight, hkeys]
      refine ⟨⟨?_, ?_⟩, AssocMap.lookup_insert_self _ _ _, hother⟩
      · intro id k' hmem
        rcases AssocMap.mem_insert.mp hmem with ⟨-, hmem⟩ | ⟨rfl, -⟩
        · exact hkeysMem hmem
        · exact ⟨p, Set.mem_insert p R, rfl⟩
      · exact (h.index.congr hother).insert_some hp (AssocMap.lookup_insert_self _ _ _)
          (hplain k hkey) hindexed

/-- The invariant after the entry and the matches of one fact have been replaced. -/
theorem ConditionInv.replace {mem' : BetaConditionMem}
    (hinv : ConditionInv kb base c R stale pending D mem) (update : TokenWME → List ℤ → List ℤ)
    (hid : Set.InjOn (fun f ↦ (base.heap f).id) (insert p R))
    (hR' : ∀ f ≠ p, (f ∈ R' ↔ f ∈ R)) (hpending : ∀ f ≠ p, pending f → pending' f)
    (hkeys : mem'.leftKeys = mem.leftKeys) (hindex : mem'.leftIndex = mem.leftIndex)
    (hunindexed : mem'.leftUnindexed = mem.leftUnindexed)
    (hrightUnique : AssocMap.Unique mem'.right)
    (hright : ∀ id f, (id, f) ∈ mem'.right ↔ f ∈ R' ∧ id = (base.heap f).id)
    (hindexed : RightIndexed base c R' mem')
    (hself : p ∈ R' → mem'.rightKeys.lookup (base.heap p).id = conditionFactKey c base.heap p)
    (hother : ∀ f ≠ p, f ∈ R' →
      mem'.rightKeys.lookup (base.heap f).id = mem.rightKeys.lookup (base.heap f).id)
    (hunique : AssocMap.Unique mem'.left)
    (hleft : ∀ {w ids'}, (w, ids') ∈ mem'.left ↔ ∃ ids, (w, ids) ∈ mem.left ∧ ids' = update w ids)
    (hnodup : ∀ {w ids}, ids.Nodup → (update w ids).Nodup)
    (hids : ∀ {w ids i}, i ≠ (base.heap p).id → (i ∈ update w ids ↔ i ∈ ids))
    (hids' : ∀ {w ids}, (w, ids) ∈ mem.left → ((base.heap p).id ∈ update w ids ↔
      p ∈ R' ∧ Compatible (mem.recordedLeftKey w) (currentRightKey base c p) ∧
        checkCondition kb c base w p = true)) :
    ConditionInv kb base c R' stale pending' D mem' := by
  have hne : ∀ f ≠ p, f ∈ R' → (base.heap f).id ≠ (base.heap p).id := fun f hfp hf heq ↦
    hfp (hid (Set.mem_insert_of_mem p ((hR' f hfp).mp hf)) (Set.mem_insert p R) heq)
  have hrecLeft : ∀ w, mem'.recordedLeftKey w = mem.recordedLeftKey w := fun w ↦ by
    simp [BetaConditionMem.recordedLeftKey, hkeys]
  have hrecRight : ∀ f ≠ p, f ∈ R' →
      mem'.recordedRightKey base f = mem.recordedRightKey base f := fun f hfp hf ↦ by
    simp [BetaConditionMem.recordedRightKey, hother f hfp hf]
  have hrecSelf : p ∈ R' → mem'.recordedRightKey base p = currentRightKey base c p := fun hp ↦ by
    simp [BetaConditionMem.recordedRightKey, hself hp, currentRightKey]
  refine ⟨hunique, ?_, hrightUnique, hright, ?_, ?_, ?_, hindexed.rightKeys_mem, ?_,
    hindexed.index, ?_, ?_, ?_, ?_⟩
  · intro w
    rw [← hinv.mem_left]
    simp only [hleft]
    constructor
    · rintro ⟨_, ids, hmem, _⟩
      exact ⟨ids, hmem⟩
    · rintro ⟨ids, hmem⟩
      exact ⟨_, ids, hmem, rfl⟩
  · intro w ids' hmem'
    obtain ⟨ids, hmem, rfl⟩ := hleft.mp hmem'
    exact hnodup (hinv.ids_nodup hmem)
  · intro w ids' i hmem' hi
    obtain ⟨ids, hmem, rfl⟩ := hleft.mp hmem'
    by_cases hip : i = (base.heap p).id
    · subst hip
      exact ⟨p, ((hids' hmem).mp hi).1, rfl⟩
    · obtain ⟨f, hf, rfl⟩ := hinv.ids_mem hmem ((hids hip).mp hi)
      refine ⟨f, (hR' f ?_).mpr hf, rfl⟩
      rintro rfl
      exact hip rfl
  · rw [hkeys]
    exact hinv.leftKeys_mem
  · rw [hkeys, hindex, hunindexed]
    exact hinv.left_index
  · intro w hw hstale
    rw [hrecLeft]
    exact hinv.left_current hw hstale
  · intro f hf hpend
    by_cases hfp : f = p
    · subst hfp
      exact hrecSelf hf
    · rw [hrecRight f hfp hf]
      exact hinv.right_current ((hR' f hfp).mp hf) fun h ↦ hpend (hpending f hfp h)
  · intro w ids' f hmem' hf hi
    obtain ⟨ids, hmem, rfl⟩ := hleft.mp hmem'
    rw [hrecLeft]
    by_cases hfp : f = p
    · subst hfp
      rw [hrecSelf hf]
      exact ((hids' hmem).mp hi).2.1
    · rw [hrecRight f hfp hf]
      exact hinv.matched hmem ((hR' f hfp).mp hf) ((hids (hne f hfp hf)).mp hi)
  · intro w ids' f hmem' hf hstale hpend
    obtain ⟨ids, hmem, rfl⟩ := hleft.mp hmem'
    by_cases hfp : f = p
    · subst hfp
      rw [hids' hmem, hinv.left_current ((hinv.mem_left w).mp ⟨ids, hmem⟩) hstale]
      exact and_iff_right hf
    · rw [hids (hne f hfp hf)]
      exact hinv.exact hmem ((hR' f hfp).mp hf) hstale fun h ↦ hpend (hpending f hfp h)

/-! ### Right activation -/

/-- Two memories agree on the left. -/
structure SameLeft (mem mem' : BetaConditionMem) : Prop where
  left : mem'.left = mem.left
  leftKeys : mem'.leftKeys = mem.leftKeys
  leftIndex : mem'.leftIndex = mem.leftIndex
  leftUnindexed : mem'.leftUnindexed = mem.leftUnindexed

theorem unindexRight_sameLeft (factId : FactPtr → ℤ) (indexed : Bool) (f : FactPtr)
    (mem : BetaConditionMem) : SameLeft mem (mem.unindexRight factId indexed f) := by
  unfold BetaConditionMem.unindexRight
  split
  · exact ⟨rfl, rfl, rfl, rfl⟩
  · split <;> exact ⟨rfl, rfl, rfl, rfl⟩

theorem unindexRight_right (factId : FactPtr → ℤ) (indexed : Bool) (f : FactPtr)
    (mem : BetaConditionMem) : (mem.unindexRight factId indexed f).right = mem.right := by
  unfold BetaConditionMem.unindexRight
  split
  · rfl
  · split <;> rfl

theorem insertRight_sameLeft (factId : FactPtr → ℤ) (indexed : Bool)
    (key : Option ConstraintValue) (f : FactPtr) (mem : BetaConditionMem) :
    SameLeft mem (mem.insertRight factId indexed key f) := by
  cases indexed <;> cases key <;> exact ⟨rfl, rfl, rfl, rfl⟩

theorem insertRight_right (factId : FactPtr → ℤ) (indexed : Bool)
    (key : Option ConstraintValue) (f : FactPtr) (mem : BetaConditionMem) :
    (mem.insertRight factId indexed key f).right =
      AssocMap.insert (factId f) f mem.right := by
  cases indexed <;> cases key <;> rfl

/-- The right memory after the entry of one fact has been replaced. -/
structure RightReplaced (base : Session) (c : JoinCondition) (p : FactPtr) (R R' : Set FactPtr)
    (mem mem' : BetaConditionMem) : Prop where
  sameLeft : SameLeft mem mem'
  unique : AssocMap.Unique mem'.right
  mem_right : ∀ id f, (id, f) ∈ mem'.right ↔ f ∈ R' ∧ id = (base.heap f).id
  indexed : RightIndexed base c R' mem'
  lookup_self : p ∈ R' →
    mem'.rightKeys.lookup (base.heap p).id = conditionFactKey c base.heap p
  lookup_other : ∀ f ≠ p, f ∈ R' →
    mem'.rightKeys.lookup (base.heap f).id = mem.rightKeys.lookup (base.heap f).id

/-- The last steps of a right activation, on the memory alone. -/
def replaceRight (base : Session) (c : JoinCondition) (p : FactPtr) (existed asserts : Bool)
    (mem : BetaConditionMem) : BetaConditionMem :=
  let ids := factIds base.heap
  let mem := if existed then mem.unindexRight ids c.isIndexed p else mem
  if asserts then mem.insertRight ids c.isIndexed (conditionFactKey c base.heap p) p
  else { mem with right := AssocMap.erase (ids p) mem.right }

theorem rightReplaced {existed asserts : Bool} (hunique : AssocMap.Unique mem.right)
    (hright : ∀ id f, (id, f) ∈ mem.right ↔ f ∈ R ∧ id = (base.heap f).id)
    (hindexed : RightIndexed base c R mem) (hexisted : existed = true ↔ p ∈ R)
    (hasserts : asserts = true ↔ p ∈ R') (hR' : ∀ f ≠ p, (f ∈ R' ↔ f ∈ R))
    (hid : Set.InjOn (fun f ↦ (base.heap f).id) (insert p R))
    (hplain : ∀ k, conditionFactKey c base.heap p = some k → k.isPlain = true) :
    RightReplaced base c p R R' mem (replaceRight base c p existed asserts mem) := by
  have hidR : Set.InjOn (fun f ↦ (base.heap f).id) R := hid.mono (Set.subset_insert p R)
  have hne : ∀ f ≠ p, f ∈ R → (base.heap f).id ≠ (base.heap p).id := fun f hfp hf heq ↦
    hfp (hid (Set.mem_insert_of_mem p hf) (Set.mem_insert p R) heq)
  -- The fact is out of the index first, whether it was there or not.
  obtain ⟨mem₁, hmem₁, hsame₁, hright₁, hindexed₁, hlookup₁⟩ : ∃ mem₁,
      mem₁ = (if existed then mem.unindexRight (factIds base.heap) c.isIndexed p else mem) ∧
      SameLeft mem mem₁ ∧ mem₁.right = mem.right ∧ RightIndexed base c (R \ {p}) mem₁ ∧
      ∀ f ∈ R \ {p}, mem₁.rightKeys.lookup (base.heap f).id =
        mem.rightKeys.lookup (base.heap f).id := by
    refine ⟨_, rfl, ?_⟩
    split
    · next hex =>
      obtain ⟨hindexed', hlookup⟩ := hindexed.unindexRight (hexisted.mp hex) hidR
      exact ⟨unindexRight_sameLeft _ _ _ _, unindexRight_right _ _ _ _, hindexed', hlookup⟩
    · next hex =>
      have hp : p ∉ R := fun hp ↦ hex (hexisted.mpr hp)
      rw [Set.sdiff_singleton_eq_self hp]
      exact ⟨⟨rfl, rfl, rfl, rfl⟩, rfl, hindexed, fun _ _ ↦ rfl⟩
  have hresult : replaceRight base c p existed asserts mem =
      if asserts then
        mem₁.insertRight (factIds base.heap) c.isIndexed (conditionFactKey c base.heap p) p
      else { mem₁ with right := AssocMap.erase (base.heap p).id mem₁.right } := by
    rw [hmem₁]
    rfl
  rw [hresult]
  by_cases hp : p ∈ R'
  · have hRR' : insert p (R \ {p}) = R' := by
      ext f
      by_cases hfp : f = p
      · simp [hfp, hp]
      · simp [hfp, hR' f hfp]
    obtain ⟨hindexed₂, hself, hother⟩ := hindexed₁.insertRight (p := p) (by simp)
      (hid.mono (Set.insert_subset_insert Set.sdiff_subset)) hplain
    rw [if_pos (hasserts.mpr hp)]
    have hsame₂ := insertRight_sameLeft (factIds base.heap) c.isIndexed
      (conditionFactKey c base.heap p) p mem₁
    refine ⟨⟨hsame₂.left.trans hsame₁.left, hsame₂.leftKeys.trans hsame₁.leftKeys,
      hsame₂.leftIndex.trans hsame₁.leftIndex, hsame₂.leftUnindexed.trans hsame₁.leftUnindexed⟩,
      ?_, ?_, hRR' ▸ hindexed₂, fun _ ↦ hself, ?_⟩
    · rw [insertRight_right, hright₁]
      exact hunique.insert _ _
    · intro id f
      rw [insertRight_right, hright₁, AssocMap.mem_insert, hright]
      change id ≠ (base.heap p).id ∧ f ∈ R ∧ id = (base.heap f).id ∨
        id = (base.heap p).id ∧ f = p ↔ _
      by_cases hfp : f = p
      · subst hfp
        simp only [hp, true_and, and_true]
        exact ⟨fun h ↦ h.elim (·.2.2) fun h ↦ h, .inr⟩
      · simp only [hfp, and_false, or_false, hR' f hfp]
        exact ⟨And.right, fun h ↦ ⟨h.2 ▸ hne f hfp h.1, h⟩⟩
    · intro f hfp hf
      rw [hother f ⟨(hR' f hfp).mp hf, hfp⟩, hlookup₁ f ⟨(hR' f hfp).mp hf, hfp⟩]
  · have hRR' : R \ {p} = R' := by
      ext f
      by_cases hfp : f = p
      · simp [hfp, hp]
      · simp [hfp, hR' f hfp]
    rw [if_neg (hasserts.not.mpr hp)]
    refine ⟨⟨hsame₁.left, hsame₁.leftKeys, hsame₁.leftIndex, hsame₁.leftUnindexed⟩, ?_, ?_,
      hRR' ▸ ⟨hindexed₁.rightKeys_mem, hindexed₁.index⟩, fun h ↦ absurd h hp, ?_⟩
    · rw [hright₁]
      exact hunique.erase _
    · intro id f
      simp only [hright₁, AssocMap.mem_erase, hright]
      by_cases hfp : f = p
      · subst hfp
        simp only [hp, false_and, iff_false]
        rintro ⟨hne', -, heq⟩
        exact hne' heq
      · rw [hR' f hfp]
        exact ⟨And.right, fun h ↦ ⟨h.2 ▸ hne f hfp h.1, h⟩⟩
    · exact fun f hfp hf ↦ hlookup₁ f ⟨(hR' f hfp).mp hf, hfp⟩

section Right

variable (hinv : ConditionInv kb base c R stale pending D (s.mem n).betaCondition)
  (hbelow : Below (passingTokens kind (s.mem n).betaCondition.left) s.mem)

include hinv hemit hn hbelow hbase

omit hemit hn hbase hinv hbelow in
theorem updateCondition_updateCondition (f g : BetaConditionMem → BetaConditionMem) (s : Session) :
    updateCondition n g (updateCondition n f s) = updateCondition n (g ∘ f) s := by
  simp [updateCondition, Session.updateMem, Function.update_idem]

omit hemit hn hinv hbelow in
/-- A right activation is a loop over the tokens in question, and a change of the right
memory. -/
theorem conditionRight_eq {type : PropagationType} {existed asserts : Bool}
    {old new : List TokenWME}
    (hexisted : existed = AssocMap.contains (base.heap p).id (s.mem n).betaCondition.right)
    (hasserts : asserts = decide (type ≠ .retract)) (hany : existed = true ∨ asserts = true)
    (hold : old = if existed then (s.mem n).betaCondition.leftCandidates (factIds base.heap)
      c.isIndexed ((s.mem n).betaCondition.rightKeys.lookup (base.heap p).id) else [])
    (hnew : new = if asserts then (s.mem n).betaCondition.leftCandidates (factIds base.heap)
      c.isIndexed (conditionFactKey c base.heap p) else []) :
    conditionRight kb n emit kind c p type s =
      updateCondition n (replaceRight base c p existed asserts)
        ((old ++ new).dedup.foldl (fun s w ↦
          updateMatch kb n emit kind c p existed (asserts && decide (w ∈ new)) w s) s) := by
  have hheap : s.heap = base.heap := by
    rw [← hbase]
    rfl
  have hid : factIds base.heap p = (base.heap p).id := rfl
  subst hold hnew
  unfold conditionRight
  simp only [hheap, hid, ← hexisted, ← hasserts]
  cases existed <;> cases asserts
  · simp at hany
  · rfl
  · simp only [Bool.not_true, Bool.and_false, Bool.false_eq_true, if_true, if_false,
      updateCondition_updateCondition]
    rfl
  · simp only [Bool.not_true, Bool.and_false, Bool.false_eq_true, if_true, if_false,
      updateCondition_updateCondition]
    rfl

/-- A right activation brings the matches up to date for the changed fact. -/
theorem conditionRight_spec {type : PropagationType} (hok : ∀ w ∈ D, Ok w)
    (hid : Set.InjOn (fun f ↦ (base.heap f).id) (insert p R)) (hchange : Change p R R' type)
    (hR' : ∀ f ≠ p, (f ∈ R' ↔ f ∈ R)) (hpending : ∀ f ≠ p, pending f → pending' f)
    (hplain : ∀ k, conditionFactKey c base.heap p = some k → k.isPlain = true) :
    let s' := conditionRight kb n emit kind c p type s
    ConditionInv kb base c R' stale pending' D (s'.mem n).betaCondition ∧
      Below (passingTokens kind (s'.mem n).betaCondition.left) s'.mem ∧
        Effect (insert n nodes) s s' := by
  set mem := (s.mem n).betaCondition with hmem
  obtain ⟨existed, hexisted⟩ : ∃ b, b = AssocMap.contains (base.heap p).id mem.right := ⟨_, rfl⟩
  obtain ⟨asserts, hasserts⟩ : ∃ b, b = decide (type ≠ .retract) := ⟨_, rfl⟩
  obtain ⟨old, hold⟩ : ∃ l, l = if existed then mem.leftCandidates (factIds base.heap)
    c.isIndexed (mem.rightKeys.lookup (base.heap p).id) else [] := ⟨_, rfl⟩
  obtain ⟨new, hnew⟩ : ∃ l, l = if asserts then mem.leftCandidates (factIds base.heap)
    c.isIndexed (conditionFactKey c base.heap p) else [] := ⟨_, rfl⟩
  have hexisted' : existed = true ↔ p ∈ R := by
    rw [hexisted, AssocMap.contains_iff]
    simp only [hinv.mem_right]
    refine ⟨?_, fun hp ↦ ⟨p, hp, rfl⟩⟩
    rintro ⟨f, hf, heq⟩
    rwa [hid (Set.mem_insert p R) (Set.mem_insert_of_mem p hf) heq]
  have hasserts' : asserts = true ↔ p ∈ R' := by
    rw [hasserts]
    cases hchange <;> simp_all
  have hany : existed = true ∨ asserts = true := by
    rw [hexisted', hasserts']
    cases hchange with
    | assert _ hp' => exact .inr hp'
    | retract hp _ => exact .inl hp
    | modify hp _ => exact .inl hp
  have hmemOld : ∀ w, w ∈ old ↔ p ∈ R ∧ w ∈ D ∧
      Compatible (mem.recordedLeftKey w) (mem.recordedRightKey base p) := by
    intro w
    by_cases hp : p ∈ R
    · rw [hold, if_pos (hexisted'.mpr hp),
        hinv.mem_leftCandidates fun k hk ↦ (hinv.right_index.plain hp hk).1]
      exact (and_iff_right hp).symm
    · simp [hold, hexisted'.not.mpr hp, hp]
  have hmemNew : ∀ w, w ∈ new ↔ p ∈ R' ∧ w ∈ D ∧
      Compatible (mem.recordedLeftKey w) (currentRightKey base c p) := by
    intro w
    by_cases hp : p ∈ R'
    · rw [hnew, if_pos (hasserts'.mpr hp), hinv.mem_leftCandidates hplain]
      exact (and_iff_right hp).symm
    · simp [hnew, hasserts'.not.mpr hp, hp]
  have hupdated := updateMatches_spec kb kind (c := c) (p := p) hemit hn existed
    (fun w ↦ asserts && decide (w ∈ new)) (old ++ new).dedup hbase (List.nodup_dedup _) (fun w hw ↦ hok w (by
      rw [List.mem_dedup, List.mem_append, hmemOld, hmemNew] at hw
      exact hw.elim (·.2.1) (·.2.1))) hinv.left_unique hbelow
  rw [conditionRight_eq hbase hexisted hasserts hany hold hnew]
  set s₁ := (old ++ new).dedup.foldl (fun s w ↦
    updateMatch kb n emit kind c p existed (asserts && decide (w ∈ new)) w s) s with hs₁
  set s₂ := updateCondition n (replaceRight base c p existed asserts) s₁ with hs₂
  have hmem₂ : (s₂.mem n).betaCondition =
      replaceRight base c p existed asserts (s₁.mem n).betaCondition := by
    simp [hs₂, updateCondition]
  have hrest := hupdated.rest
  have hreplaced : RightReplaced base c p R R' (s₁.mem n).betaCondition (s₂.mem n).betaCondition := by
    rw [hmem₂]
    refine rightReplaced ?_ ?_ ⟨?_, ?_⟩ hexisted' hasserts' hR' hid hplain
    · rw [hrest]
      exact hinv.right_unique
    · rw [hrest]
      exact hinv.mem_right
    · rw [hrest]
      exact hinv.rightKeys_mem
    · rw [hrest]
      exact hinv.right_index
  have hsame := hreplaced.sameLeft
  refine ⟨?_, ?_, hupdated.effect.trans (Effect.updateMem (Set.mem_insert n nodes) s₁ _)⟩
  · refine hinv.replace (fun w ids ↦ if w ∈ (old ++ new).dedup then
        updatedIds kb base c p existed (asserts && decide (w ∈ new)) w ids else ids)
      hid hR' hpending ?_ ?_ ?_ hreplaced.unique hreplaced.mem_right
      hreplaced.indexed hreplaced.lookup_self ?_ ?_ ?_ ?_ ?_ ?_
    · rw [hsame.leftKeys, hrest]
    · rw [hsame.leftIndex, hrest]
    · rw [hsame.leftUnindexed, hrest]
    · intro f hfp hf
      rw [hreplaced.lookup_other f hfp hf, hrest]
    · rw [hsame.left]
      exact hupdated.unique
    · intro w ids'
      rw [hsame.left]
      exact hupdated.mem_left
    · intro w ids hids
      split
      · exact nodup_updatedIds hids
      · exact hids
    · intro w ids i hi
      split
      · exact mem_updatedIds_of_ne hi
      · rfl
    · -- The fact is matched to the tokens under its new key that pass the test.
      intro w ids hids
      have hw : w ∈ D := (hinv.mem_left w).mp ⟨ids, hids⟩
      have hmatched : (base.heap p).id ∈ ids → p ∈ R := by
        intro hi
        obtain ⟨f, hf, heq⟩ := hinv.ids_mem hids hi
        rwa [hid (Set.mem_insert p R) (Set.mem_insert_of_mem p hf) heq]
      simp only [List.mem_dedup, List.mem_append]
      split
      · next haffected =>
        rw [mem_updatedIds_self fun hex hi ↦ by simp [hexisted'.mpr (hmatched hi)] at hex]
        simp [hasserts', hmemNew, hw]
        tauto
      · next hnot =>
        rw [not_or, hmemOld, hmemNew] at hnot
        refine iff_of_false (fun hi ↦ ?_) fun h ↦ hnot.2 ⟨h.1, hw, h.2.1⟩
        exact hnot.1 ⟨hmatched hi, hw, hinv.matched hids (hmatched hi) hi⟩
  · rw [hsame.left]
    exact below_updateCondition hemit hn _ hupdated.below

end Right

end Condition

end RulesForge
