import RulesForge.Rete.JoinInvariant

/-!
# Activations of hashed joins

A hashed join looks up the facts of a token, and the tokens of a fact, under the key the
token or the fact has **now**. Since every entry is recorded under a key equal to that one
(`HashedInv.left_key`, `HashedInv.right_key`), the lookups find all of them, and the
activations keep the invariant just as those of a cross product do.
-/

namespace RulesForge

section Hashed

variable {kb : KnowledgeBase} {base : Session} {nodes : Set ℕ} {Ok : TokenWME → Prop}
  {Below Below' : Set TokenWME → (ℕ → NodeMemory) → Prop} {emit : Emission} {n : ℕ}
  {c : JoinCondition} {leftHashKey : String × ℕ} {rightHashKey : String} {R R' : Set FactPtr}
  {stale : TokenWME → Prop} {pending pending' : FactPtr → Prop} {D : Set TokenWME} {s : Session}
  {w : TokenWME} {p f : FactPtr} {key : ConstraintValue} {mem mem' : NodeMemory}

/-! ### Lookups -/

/-- The bucket of the key of a token holds the recorded facts with an equal key. -/
theorem HashedInv.mem_facts
    (hinv : HashedInv kb base c leftHashKey rightHashKey R stale pending D mem)
    (hkey : tokenKey base.heap leftHashKey w = some key) (hplain : key.isPlain = true) :
    f ∈ bucket (factIds base.heap) key mem.hashedJoin.right ↔
      (∃ k, (k, f) ∈ mem.hashedJoin.right) ∧ KeysMatch base leftHashKey rightHashKey w f := by
  rw [mem_bucket_iff (fun h ↦ (hinv.right_key h).2.1) hplain]
  have hleft : hashedLeftKey base leftHashKey w = some key.canonical := by
    simp [hashedLeftKey, hkey]
  constructor
  · rintro ⟨k, hmem, heq⟩
    exact ⟨⟨k, hmem⟩, key.canonical, hleft, heq ▸ (hinv.right_key hmem).2.2⟩
  · rintro ⟨⟨k, hmem⟩, k', hk', hright⟩
    refine ⟨k, hmem, ?_⟩
    have := (hinv.right_key hmem).2.2.symm.trans hright
    rw [Option.some_inj.mp this, ← Option.some_inj, ← hk', hleft]

/-- The bucket of the key of a fact holds the recorded tokens with an equal key. -/
theorem HashedInv.mem_tokens
    (hinv : HashedInv kb base c leftHashKey rightHashKey R stale pending D mem)
    (hkey : getField base.heap f rightHashKey = some key) (hplain : key.isPlain = true) :
    w ∈ bucket (factIds base.heap) key mem.hashedJoin.left ↔
      (∃ k, (k, w) ∈ mem.hashedJoin.left) ∧ KeysMatch base leftHashKey rightHashKey w f := by
  rw [mem_bucket_iff (fun h ↦ (hinv.left_key h).2.1) hplain]
  have hright : hashedRightKey base rightHashKey f = some key.canonical := by
    simp [hashedRightKey, hkey]
  constructor
  · rintro ⟨k, hmem, heq⟩
    exact ⟨⟨k, hmem⟩, key.canonical, heq ▸ (hinv.left_key hmem).2.2, hright⟩
  · rintro ⟨⟨k, hmem⟩, k', hleft, hk'⟩
    refine ⟨k, hmem, ?_⟩
    have := (hinv.left_key hmem).2.2.symm.trans hleft
    rw [Option.some_inj.mp this, ← Option.some_inj, ← hk', hright]

/-- Taking the entry of a token out under its current key. -/
theorem HashedInv.eraseLeft
    (hinv : HashedInv kb base c leftHashKey rightHashKey R stale pending D mem)
    (hkey : tokenKey base.heap leftHashKey w = some key) (hplain : key.isPlain = true) :
    bucketErase (factIds base.heap) key w mem.hashedJoin.left =
      mem.hashedJoin.left.filter (·.2 ≠ w) := by
  refine bucketErase_eq_filter hinv.left_nodup fun k hmem ↦ ?_
  rw [constraintValueEquals_iff _ (hinv.left_key hmem).2.1 hplain, ← Option.some_inj,
    ← (hinv.left_key hmem).2.2]
  simp [hashedLeftKey, hkey]

/-- Taking the entry of a fact out under its current key. -/
theorem HashedInv.eraseRight
    (hinv : HashedInv kb base c leftHashKey rightHashKey R stale pending D mem)
    (hkey : getField base.heap f rightHashKey = some key) (hplain : key.isPlain = true) :
    bucketErase (factIds base.heap) key f mem.hashedJoin.right =
      mem.hashedJoin.right.filter (·.2 ≠ f) := by
  refine bucketErase_eq_filter hinv.right_nodup fun k hmem ↦ ?_
  rw [constraintValueEquals_iff _ (hinv.right_key hmem).2.1 hplain, ← Option.some_inj,
    ← (hinv.right_key hmem).2.2]
  simp [hashedRightKey, hkey]

/-! ### Left activation -/

variable (hemit : EmitSpec base nodes Ok Below emit) (hn : n ∉ nodes) (hbase : s.base = base)
  (hinv : HashedInv kb base c leftHashKey rightHashKey R stale pending D (s.mem n))
  (hbelow : Below (childTokens (s.mem n).leftToChildren) s.mem)

include hinv hemit hn hbelow hbase

theorem hashedLeft_assert (hw : w ∉ D) (hok : ∀ f ∈ R, ∀ a, Ok (.mk a w f))
    (hplain : ∀ key, tokenKey base.heap leftHashKey w = some key → key.isPlain = true) :
    let s' := hashedLeft kb n emit c leftHashKey w .assert s
    HashedInv kb base c leftHashKey rightHashKey R stale pending (insert w D) (s'.mem n) ∧
      Below (childTokens (s'.mem n).leftToChildren) s'.mem ∧ Effect (insert n nodes) s s' := by
  have hheap : s.heap = base.heap := by
    rw [← hbase]
    rfl
  have hnotin : ∀ k, (k, w) ∉ (s.mem n).hashedJoin.left := fun k h ↦ hw (hinv.left_key h).1
  have hnew : ∀ f, (w, f) ∉ childPairs (s.mem n).leftToChildren :=
    fun f h ↦ hnotin _ (hinv.matched h).1.choose_spec
  cases hkey : tokenKey base.heap leftHashKey w with
  | none =>
    have hresult : hashedLeft kb n emit c leftHashKey w .assert s = s := by
      simp [hashedLeft, hheap, hkey]
    rw [hresult]
    have hnokey : hashedLeftKey base leftHashKey w = none := by simp [hashedLeftKey, hkey]
    refine ⟨{ hinv with left_key := ?_, left_complete := ?_, exact := ?_ }, hbelow, Effect.refl _ s⟩
    · intro k w' hmem
      exact ⟨Set.mem_insert_of_mem _ (hinv.left_key hmem).1, (hinv.left_key hmem).2⟩
    · intro w' k hw' hstale hk
      rcases Set.mem_insert_iff.mp hw' with rfl | hw'
      · exact absurd (hnokey.symm.trans hk) (by simp)
      · exact hinv.left_complete hw' hstale hk
    · intro w' f hw' hf hstale hpending
      rcases Set.mem_insert_iff.mp hw' with rfl | hw'
      · simp [hnew, KeysMatch, hnokey]
      · exact hinv.exact hw' hf hstale hpending
  | some key =>
    have hkplain := hplain key hkey
    set s₁ := updateHashed n (fun mem ↦ { mem with left := mem.left ++ [(key, w)] }) s with hs₁
    have hstate : JoinState Below n (childPairs (s.mem n).leftToChildren) s₁.mem :=
      JoinState.updateMem hemit hn ⟨hinv.children, rfl, hbelow⟩ fun _ ↦ rfl
    set facts := bucket (factIds base.heap) key (s.mem n).hashedJoin.right with hfacts
    have hmemFacts : ∀ f, f ∈ facts ↔ (∃ k, (k, f) ∈ (s.mem n).hashedJoin.right) ∧
        KeysMatch base leftHashKey rightHashKey w f := fun f ↦ hinv.mem_facts hkey hkplain
    obtain ⟨hstate', heffect⟩ := assertFacts_spec kb (c := c) (w := w) hemit hn
      (s := s₁) hbase hstate facts (nodup_bucket hinv.right_nodup) (fun f _ ↦ hnew f)
      fun f hf ↦ by
        obtain ⟨k, hmem⟩ := ((hmemFacts f).mp hf).1
        exact hok f (hinv.right_key hmem).1
    have hresult : hashedLeft kb n emit c leftHashKey w .assert s =
        assertFacts kb n emit c w facts s₁ := by
      simp [hashedLeft, hheap, hkey, hs₁, hfacts]
    rw [hresult]
    have hmem : (s₁.mem n).hashedJoin =
        { (s.mem n).hashedJoin with left := (s.mem n).hashedJoin.left ++ [(key, w)] } := by
      simp [hs₁, updateHashed]
    have hpairs := hstate'.pairs_eq
    have hhashed := heffect.hashedJoin.trans hmem
    refine ⟨⟨?_, ?_, ?_, ?_, ?_, ?_, hstate'.children, ?_, ?_⟩, hstate'.below, ?_⟩
    · rw [hhashed]
      exact nodup_snd_append hinv.left_nodup hnotin
    · intro k w' hmem'
      rw [hhashed, List.mem_append, List.mem_singleton] at hmem'
      rcases hmem' with hmem' | heq
      · exact ⟨Set.mem_insert_of_mem _ (hinv.left_key hmem').1, (hinv.left_key hmem').2⟩
      · cases heq
        exact ⟨Set.mem_insert _ _, hkplain, by simp [hashedLeftKey, hkey]⟩
    · intro w' k hw' hstale hk
      simp only [hhashed, List.mem_append, List.mem_singleton]
      rcases Set.mem_insert_iff.mp hw' with rfl | hw'
      · exact ⟨key, .inr rfl⟩
      · obtain ⟨k', hk'⟩ := hinv.left_complete hw' hstale hk
        exact ⟨k', .inl hk'⟩
    · rw [hhashed]
      exact hinv.right_nodup
    · rw [hhashed]
      exact hinv.right_key
    · rw [hhashed]
      exact hinv.right_complete
    · intro w' f hmem'
      simp only [hhashed, List.mem_append, List.mem_singleton]
      rw [hpairs] at hmem'
      rcases hmem' with hmem' | ⟨rfl, hf, -⟩
      · obtain ⟨⟨k, hk⟩, hf, hmatch⟩ := hinv.matched hmem'
        exact ⟨⟨k, .inl hk⟩, hf, hmatch⟩
      · exact ⟨⟨key, .inr rfl⟩, ((hmemFacts f).mp hf).1, ((hmemFacts f).mp hf).2⟩
    · intro w' f hw' hf hstale hpending
      rw [hpairs]
      simp only [Set.mem_union, Set.mem_ofPred_eq, hmemFacts]
      rcases Set.mem_insert_iff.mp hw' with rfl | hw'
      · simp only [hnew, true_and, false_or]
        refine and_congr_left fun _ ↦ and_iff_right_of_imp ?_
        rintro ⟨k, -, hk⟩
        exact hinv.right_complete hf hpending hk
      · have hne : w' ≠ w := ne_of_mem_of_not_mem hw' hw
        simp [hne, hinv.exact hw' hf hstale hpending]
    · exact (Effect.updateMem (Set.mem_insert n nodes) s _).trans heffect.effect

theorem hashedLeft_retract (hid : Set.InjOn (fun f ↦ (base.heap f).id) R)
    (hok : ∀ f ∈ R, ∀ a, Ok (.mk a w f))
    (hplain : ∀ key, tokenKey base.heap leftHashKey w = some key → key.isPlain = true) :
    let s' := hashedLeft kb n emit c leftHashKey w .retract s
    HashedInv kb base c leftHashKey rightHashKey R stale pending (D \ {w}) (s'.mem n) ∧
      Below (childTokens (s'.mem n).leftToChildren) s'.mem ∧ Effect (insert n nodes) s s' := by
  have hheap : s.heap = base.heap := by
    rw [← hbase]
    rfl
  cases hkey : tokenKey base.heap leftHashKey w with
  | none =>
    -- A token without a key has no entry, and so no children.
    have hresult : hashedLeft kb n emit c leftHashKey w .retract s = s := by
      simp [hashedLeft, hheap, hkey]
    rw [hresult]
    have hnotin : ∀ k, (k, w) ∉ (s.mem n).hashedJoin.left := fun k h ↦ by
      have := (hinv.left_key h).2.2
      simp [hashedLeftKey, hkey] at this
    refine ⟨{ hinv with left_key := ?_, left_complete := ?_, exact := ?_ }, hbelow, Effect.refl _ s⟩
    · intro k w' hmem
      refine ⟨⟨(hinv.left_key hmem).1, ?_⟩, (hinv.left_key hmem).2⟩
      rintro rfl
      exact hnotin k hmem
    · exact fun hw' ↦ hinv.left_complete hw'.1
    · exact fun hw' ↦ hinv.exact hw'.1
  | some key =>
    have hkplain := hplain key hkey
    set s₁ := updateHashed n (fun mem ↦ { mem with
      left := bucketErase (factIds base.heap) key w mem.left }) s with hs₁
    have hstate : JoinState Below n (childPairs (s.mem n).leftToChildren) s₁.mem :=
      JoinState.updateMem hemit hn ⟨hinv.children, rfl, hbelow⟩ fun _ ↦ rfl
    set facts := bucket (factIds base.heap) key (s.mem n).hashedJoin.right with hfacts
    have hmemFacts : ∀ f, f ∈ facts ↔ (∃ k, (k, f) ∈ (s.mem n).hashedJoin.right) ∧
        KeysMatch base leftHashKey rightHashKey w f := fun f ↦ hinv.mem_facts hkey hkplain
    have hfactsR : ∀ f ∈ facts, f ∈ R := fun f hf ↦
      (hinv.right_key ((hmemFacts f).mp hf).1.choose_spec).1
    obtain ⟨hstate', heffect⟩ := retractFacts_spec kb (w := w) hemit hn (s := s₁) hbase
      hstate facts
      (fun f hf f' hpair heq ↦
        hid (hinv.right_key (hinv.matched hpair).2.1.choose_spec).1 (hfactsR f hf) heq)
      fun f hf ↦ hok f (hfactsR f hf)
    have hresult : hashedLeft kb n emit c leftHashKey w .retract s =
        retractFacts kb n emit w facts s₁ := by
      simp [hashedLeft, hheap, hkey, hs₁, hfacts]
    rw [hresult]
    have hmem : (s₁.mem n).hashedJoin =
        { (s.mem n).hashedJoin with
          left := (s.mem n).hashedJoin.left.filter (·.2 ≠ w) } := by
      simp only [hs₁, updateHashed, Session.updateMem_mem_self, hinv.eraseLeft hkey hkplain]
    have hpairs := hstate'.pairs_eq
    have hhashed := heffect.hashedJoin.trans hmem
    have hmemLeft : ∀ {k w'}, (k, w') ∈ (s.mem n).hashedJoin.left.filter (·.2 ≠ w) ↔
        (k, w') ∈ (s.mem n).hashedJoin.left ∧ w' ≠ w := by
      intro k w'
      simp
    refine ⟨⟨?_, ?_, ?_, ?_, ?_, ?_, hstate'.children, ?_, ?_⟩, hstate'.below, ?_⟩
    · rw [hhashed]
      exact hinv.left_nodup.sublist (List.Sublist.map _ List.filter_sublist)
    · intro k w' hmem'
      rw [hhashed, hmemLeft] at hmem'
      exact ⟨⟨(hinv.left_key hmem'.1).1, hmem'.2⟩, (hinv.left_key hmem'.1).2⟩
    · rintro w' k ⟨hw', hne⟩ hstale hk
      obtain ⟨k', hk'⟩ := hinv.left_complete hw' hstale hk
      exact ⟨k', by rw [hhashed]; exact hmemLeft.mpr ⟨hk', hne⟩⟩
    · rw [hhashed]
      exact hinv.right_nodup
    · rw [hhashed]
      exact hinv.right_key
    · rw [hhashed]
      exact hinv.right_complete
    · intro w' f hmem'
      rw [hpairs] at hmem'
      obtain ⟨hpair, hnot⟩ := hmem'
      obtain ⟨⟨k, hk⟩, hf, hmatch⟩ := hinv.matched hpair
      rw [hhashed]
      refine ⟨⟨k, hmemLeft.mpr ⟨hk, ?_⟩⟩, hf, hmatch⟩
      rintro rfl
      exact hnot ⟨rfl, (hmemFacts f).mpr ⟨hf, hmatch⟩⟩
    · rintro w' f ⟨hw', hne⟩ hf hstale hpending
      have hne : w' ≠ w := hne
      rw [hpairs]
      simp [hne, hinv.exact hw' hf hstale hpending]
    · exact (Effect.updateMem (Set.mem_insert n nodes) s _).trans heffect.effect

/-! ### Right activation -/

omit hemit hn hbase hinv hbelow in
/-- The invariant after the entry and the pairs of one fact have been replaced. -/
theorem HashedInv.replace
    (hinv : HashedInv kb base c leftHashKey rightHashKey R stale pending D mem)
    (hleft : mem'.hashedJoin.left = mem.hashedJoin.left)
    (hnodup : (mem'.hashedJoin.right.map Prod.snd).Nodup)
    (hother : ∀ k, ∀ f ≠ p, ((k, f) ∈ mem'.hashedJoin.right ↔ (k, f) ∈ mem.hashedJoin.right))
    (hentry : ∀ k, (k, p) ∈ mem'.hashedJoin.right →
      p ∈ R' ∧ k.isPlain = true ∧ hashedRightKey base rightHashKey p = some k.canonical)
    (hcomplete : ∀ k, p ∈ R' → hashedRightKey base rightHashKey p = some k →
      ∃ k', (k', p) ∈ mem'.hashedJoin.right)
    (hchildren : ChildrenOk mem'.leftToChildren)
    (hpairs : childPairs mem'.leftToChildren = (childPairs mem.leftToChildren \ {q | q.2 = p}) ∪
      {q | (∃ k, (k, q.1) ∈ mem.hashedJoin.left) ∧ q.2 = p ∧ p ∈ R' ∧
        KeysMatch base leftHashKey rightHashKey q.1 p ∧ checkCondition kb c base q.1 p})
    (hR' : ∀ f ≠ p, (f ∈ R' ↔ f ∈ R)) (hpending : ∀ f ≠ p, pending f → pending' f) :
    HashedInv kb base c leftHashKey rightHashKey R' stale pending' D mem' where
  left_nodup := hleft ▸ hinv.left_nodup
  left_key := hleft ▸ hinv.left_key
  left_complete := hleft ▸ hinv.left_complete
  right_nodup := hnodup
  right_key := by
    intro k f hmem
    by_cases hfp : f = p
    · subst hfp
      exact hentry k hmem
    · have hkey := hinv.right_key ((hother k f hfp).mp hmem)
      exact ⟨(hR' f hfp).mpr hkey.1, hkey.2⟩
  right_complete := by
    intro f k hf hpend hk
    by_cases hfp : f = p
    · subst hfp
      exact hcomplete k hf hk
    · obtain ⟨k', hk'⟩ :=
        hinv.right_complete ((hR' f hfp).mp hf) (fun h ↦ hpend (hpending f hfp h)) hk
      exact ⟨k', (hother k' f hfp).mpr hk'⟩
  children := hchildren
  matched := by
    intro w f hpair
    rw [hpairs] at hpair
    rw [hleft]
    rcases hpair with ⟨hpair, hne⟩ | ⟨hw, rfl, hf, hmatch, -⟩
    · obtain ⟨hw, ⟨k, hk⟩, hmatch⟩ := hinv.matched hpair
      exact ⟨hw, ⟨k, (hother k f hne).mpr hk⟩, hmatch⟩
    · obtain ⟨k, hk⟩ := hmatch
      exact ⟨hw, hcomplete k hf hk.2, k, hk⟩
  exact := by
    intro w f hw hf hstale hpend
    rw [hpairs]
    by_cases hfp : f = p
    · subst hfp
      simp only [Set.mem_union, Set.mem_sdiff, Set.mem_ofPred_eq, hf, true_and, not_true,
        and_false, false_or]
      refine and_iff_right_of_imp ?_
      rintro ⟨⟨k, hk, -⟩, -⟩
      exact hinv.left_complete hw hstale hk
    · have hexact := hinv.exact hw ((hR' f hfp).mp hf) hstale fun h ↦ hpend (hpending f hfp h)
      simp [hfp, hexact]

omit hbase hbelow in
/-- The old matches of the changed fact are found under its key and retracted, from any state
with these children. -/
theorem hashed_retractTokens (s₀ : Session) (hbase₀ : s₀.base = base)
    (hs₀ : JoinState Below n (childPairs (s.mem n).leftToChildren) s₀.mem)
    (hbridge : ∀ {D' mem}, (∀ a w, .mk a w p ∉ D') → Below D' mem → Below' D' mem)
    (hid : Set.InjOn (fun f ↦ (base.heap f).id) (insert p R))
    (hok : ∀ w ∈ D, ∀ a, Ok (.mk a w p))
    (hkey : getField base.heap p rightHashKey = some key) (hplain : key.isPlain = true) :
    let s' := retractTokens kb n emit p
      (bucket (factIds base.heap) key (s.mem n).hashedJoin.left) s₀
    JoinState Below' n (childPairs (s.mem n).leftToChildren \ {q | q.2 = p}) s'.mem ∧
      JoinEffect n nodes s₀ s' := by
  set wmes := bucket (factIds base.heap) key (s.mem n).hashedJoin.left with hwmes
  obtain ⟨hs₁, heffect⟩ := retractTokens_spec kb hemit hn hbase₀ hs₀ (f := p) wmes
    (fun w _ f' hpair heq ↦
      hid (Set.mem_insert_of_mem p (hinv.right_key (hinv.matched hpair).2.1.choose_spec).1)
        (Set.mem_insert p R) heq)
    fun w hw ↦ hok w
      (hinv.left_key ((hinv.mem_tokens hkey hplain).mp hw).1.choose_spec).1
  have hset : childPairs (s.mem n).leftToChildren \ {q | q.1 ∈ wmes ∧ q.2 = p} =
      childPairs (s.mem n).leftToChildren \ {q | q.2 = p} := by
    ext ⟨w, f⟩
    simp only [Set.mem_sdiff, Set.mem_ofPred_eq]
    refine and_congr_right fun hpair ↦ not_congr (and_iff_right_of_imp ?_)
    rintro rfl
    exact (hinv.mem_tokens hkey hplain).mpr ⟨(hinv.matched hpair).1, (hinv.matched hpair).2.2⟩
  rw [hset] at hs₁
  exact ⟨hs₁.bridge hbridge fun w hw ↦ hw.2 rfl, heffect⟩

omit hemit hbase hbelow in
/-- The changed fact is entered under its key and matched anew. -/
theorem hashed_assertTokens (s₁ : Session) (hemit' : EmitSpec base nodes Ok Below' emit)
    (hbase₁ : s₁.base = base)
    (hs₁ : JoinState Below' n (childPairs (s.mem n).leftToChildren \ {q | q.2 = p}) s₁.mem)
    (hleft : (s₁.mem n).hashedJoin.left = (s.mem n).hashedJoin.left)
    (hright : (s₁.mem n).hashedJoin.right = (s.mem n).hashedJoin.right.filter (·.2 ≠ p))
    (hkey : getField base.heap p rightHashKey = some key) (hplain : key.isPlain = true)
    (hp : p ∈ R') (hR' : ∀ f ≠ p, (f ∈ R' ↔ f ∈ R))
    (hpending : ∀ f ≠ p, pending f → pending' f) (hok : ∀ w ∈ D, ∀ a, Ok (.mk a w p)) :
    let s' := assertTokens kb n emit c p
      (bucket (factIds base.heap) key (s.mem n).hashedJoin.left)
      (updateHashed n (fun mem ↦ { mem with right := mem.right ++ [(key, p)] }) s₁)
    HashedInv kb base c leftHashKey rightHashKey R' stale pending' D (s'.mem n) ∧
      Below' (childTokens (s'.mem n).leftToChildren) s'.mem ∧ Effect (insert n nodes) s₁ s' := by
  set wmes := bucket (factIds base.heap) key (s.mem n).hashedJoin.left with hwmes
  have hmemWmes : ∀ w, w ∈ wmes ↔ (∃ k, (k, w) ∈ (s.mem n).hashedJoin.left) ∧
      KeysMatch base leftHashKey rightHashKey w p := fun w ↦ hinv.mem_tokens hkey hplain
  set s₂ := updateHashed n (fun mem ↦ { mem with right := mem.right ++ [(key, p)] }) s₁ with hs₂
  have hstate₂ : JoinState Below' n _ s₂.mem := JoinState.updateMem hemit' hn hs₁ fun _ ↦ rfl
  obtain ⟨hstate', heffect⟩ := assertTokens_spec kb (c := c) (f := p) hemit' hn (s := s₂)
    hbase₁ hstate₂ wmes (nodup_bucket hinv.left_nodup) (fun w _ hw ↦ hw.2 rfl)
    fun w hw ↦ hok w (hinv.left_key ((hmemWmes w).mp hw).1.choose_spec).1
  have hmem : (s₂.mem n).hashedJoin =
      { left := (s.mem n).hashedJoin.left
        right := (s.mem n).hashedJoin.right.filter (·.2 ≠ p) ++ [(key, p)] } := by
    simp [hs₂, updateHashed, hleft, hright]
  have hhashed := heffect.hashedJoin.trans hmem
  refine ⟨hinv.replace (by rw [hhashed]) ?_ ?_ ?_ ?_ hstate'.children ?_ hR' hpending,
    hstate'.below, ?_⟩
  · rw [hhashed]
    refine nodup_snd_append ?_ (by simp)
    exact hinv.right_nodup.sublist (List.Sublist.map _ List.filter_sublist)
  · intro k f hfp
    simp [hhashed, hfp]
  · intro k hmem'
    obtain rfl : k = key := by simpa [hhashed] using hmem'
    exact ⟨hp, hplain, by simp [hashedRightKey, hkey]⟩
  · exact fun k _ _ ↦ ⟨key, by simp [hhashed]⟩
  · rw [hstate'.pairs_eq]
    ext ⟨w, f⟩
    simp only [Set.mem_union, Set.mem_sdiff, Set.mem_ofPred_eq, hmemWmes, hp, true_and]
    grind
  · exact (Effect.updateMem (Set.mem_insert n nodes) s₁ _).trans heffect.effect

/-- A right activation brings the children up to date for the changed fact. -/
theorem hashedRight_spec {type : PropagationType}
    (hemit' : EmitSpec base nodes Ok Below' emit)
    (hbridge : ∀ {D' mem}, (∀ a w, .mk a w p ∉ D') → Below D' mem → Below' D' mem)
    (hid : Set.InjOn (fun f ↦ (base.heap f).id) (insert p R)) (hchange : Change p R R' type)
    (hR' : ∀ f ≠ p, (f ∈ R' ↔ f ∈ R)) (hpending : ∀ f ≠ p, pending f → pending' f)
    (hok : ∀ w ∈ D, ∀ a, Ok (.mk a w p))
    (hplain : ∀ key, getField base.heap p rightHashKey = some key → key.isPlain = true) :
    let s' := hashedRight kb n emit c rightHashKey p type s
    HashedInv kb base c leftHashKey rightHashKey R' stale pending' D (s'.mem n) ∧
      Below' (childTokens (s'.mem n).leftToChildren) s'.mem ∧ Effect (insert n nodes) s s' := by
  have hheap : s.heap = base.heap := by
    rw [← hbase]
    rfl
  have hstate : JoinState Below n (childPairs (s.mem n).leftToChildren) s.mem :=
    ⟨hinv.children, rfl, hbelow⟩
  -- Without an entry the fact has no children, and nothing to retract.
  have hnopairs : (∀ k, (k, p) ∉ (s.mem n).hashedJoin.right) →
      JoinState Below' n (childPairs (s.mem n).leftToChildren \ {q | q.2 = p}) s.mem := by
    intro hnone
    have hnone' : ∀ w, (w, p) ∉ childPairs (s.mem n).leftToChildren :=
      fun w hw ↦ hnone _ (hinv.matched hw).2.1.choose_spec
    have hset : childPairs (s.mem n).leftToChildren \ {q | q.2 = p} =
        childPairs (s.mem n).leftToChildren := by
      ext ⟨w, f⟩
      simp only [Set.mem_sdiff, Set.mem_ofPred_eq, and_iff_left_iff_imp]
      rintro hw rfl
      exact hnone' w hw
    rw [hset]
    exact hstate.bridge hbridge hnone'
  have hfilter : (∀ k, (k, p) ∉ (s.mem n).hashedJoin.right) →
      (s.mem n).hashedJoin.right = (s.mem n).hashedJoin.right.filter (·.2 ≠ p) := by
    intro hnone
    refine (List.filter_eq_self.mpr ?_).symm
    rintro ⟨k, f⟩ hmem
    simp only [decide_eq_true_eq]
    rintro rfl
    exact hnone k hmem
  cases hkey : getField base.heap p rightHashKey with
  | none =>
    have hresult : hashedRight kb n emit c rightHashKey p type s = s := by
      simp [hashedRight, hheap, hkey]
    have hnokey : hashedRightKey base rightHashKey p = none := by simp [hashedRightKey, hkey]
    have hnone : ∀ k, (k, p) ∉ (s.mem n).hashedJoin.right := fun k h ↦ by
      simpa [hnokey] using (hinv.right_key h).2.2
    have hs' := hnopairs hnone
    rw [hresult]
    refine ⟨hinv.replace rfl hinv.right_nodup (fun _ _ _ ↦ Iff.rfl)
      (fun k h ↦ absurd h (hnone k)) (fun k _ hk ↦ ?_) hinv.children ?_ hR' hpending,
      hs'.below, Effect.refl _ s⟩
    · simp [hnokey] at hk
    · rw [hs'.pairs_eq]
      simp [KeysMatch, hnokey]
  | some key =>
    have hkplain := hplain key hkey
    have hentry : ∀ k, (k, p) ∈ (s.mem n).hashedJoin.right →
        p ∈ bucket (factIds base.heap) key (s.mem n).hashedJoin.right := by
      intro k hmem
      refine (mem_bucket_iff (fun h ↦ (hinv.right_key h).2.1) hkplain).mpr ⟨k, hmem, ?_⟩
      rw [← Option.some_inj, ← (hinv.right_key hmem).2.2]
      simp [hashedRightKey, hkey]
    cases hchange with
    | assert hp hp' =>
      have hnone : ∀ k, (k, p) ∉ (s.mem n).hashedJoin.right := fun k h ↦ hp (hinv.right_key h).1
      have hspec := hashed_assertTokens hn hinv s hemit' hbase (hnopairs hnone) rfl (hfilter hnone)
        hkey hkplain hp' hR' hpending hok
      simpa [hashedRight, hheap, hkey] using hspec
    | retract hp hp' =>
      set s₁ := updateHashed n (fun mem ↦ { mem with
        right := bucketErase (factIds base.heap) key p mem.right }) s with hs₁
      obtain ⟨hstate', heffect⟩ := hashed_retractTokens hemit hn hinv s₁ hbase
        (JoinState.updateMem hemit hn hstate fun _ ↦ rfl) hbridge hid hok hkey hkplain
      have hresult : hashedRight kb n emit c rightHashKey p .retract s =
          retractTokens kb n emit p
            (bucket (factIds base.heap) key (s.mem n).hashedJoin.left) s₁ := by
        simp [hashedRight, hheap, hkey, hs₁]
      have hmem : (s₁.mem n).hashedJoin =
          { left := (s.mem n).hashedJoin.left
            right := (s.mem n).hashedJoin.right.filter (·.2 ≠ p) } := by
        simp only [hs₁, updateHashed, Session.updateMem_mem_self, hinv.eraseRight hkey hkplain]
      have hhashed := heffect.hashedJoin.trans hmem
      rw [hresult]
      refine ⟨hinv.replace (by rw [hhashed]) ?_ ?_ ?_ (fun _ h ↦ absurd h hp') hstate'.children ?_
        hR' hpending, hstate'.below, ?_⟩
      · rw [hhashed]
        exact hinv.right_nodup.sublist (List.Sublist.map _ List.filter_sublist)
      · intro k f hfp
        simp [hhashed, hfp]
      · intro k hmem'
        simp [hhashed] at hmem'
      · rw [hstate'.pairs_eq]
        simp [hp']
      · exact (Effect.updateMem (Set.mem_insert n nodes) s _).trans heffect.effect
    | modify hp hp' =>
      by_cases hin : p ∈ bucket (factIds base.heap) key (s.mem n).hashedJoin.right
      · obtain ⟨hstate', heffect⟩ := hashed_retractTokens hemit hn hinv s hbase hstate hbridge hid
          hok hkey hkplain
        set s₁ := retractTokens kb n emit p
          (bucket (factIds base.heap) key (s.mem n).hashedJoin.left) s with hs₁
        set s₂ := updateHashed n (fun mem ↦ { mem with
          right := bucketErase (factIds base.heap) key p mem.right }) s₁ with hs₂
        have hspec := hashed_assertTokens hn hinv s₂ hemit'
          (heffect.effect.base.trans hbase) (JoinState.updateMem hemit' hn hstate' fun _ ↦ rfl)
          (by simp [hs₂, updateHashed, heffect.hashedJoin])
          (by simp [hs₂, updateHashed, heffect.hashedJoin, hinv.eraseRight hkey hkplain])
          hkey hkplain hp' hR' hpending hok
        have hresult : hashedRight kb n emit c rightHashKey p .modify s =
            assertTokens kb n emit c p (bucket (factIds base.heap) key (s.mem n).hashedJoin.left)
              (updateHashed n (fun mem ↦ { mem with right := mem.right ++ [(key, p)] }) s₂) := by
          simp [hashedRight, hheap, hkey, hin, hs₁, hs₂]
        rw [hresult]
        exact ⟨hspec.1, hspec.2.1, heffect.effect.trans
          ((Effect.updateMem (Set.mem_insert n nodes) s₁ _).trans hspec.2.2)⟩
      · have hnone : ∀ k, (k, p) ∉ (s.mem n).hashedJoin.right := fun k h ↦ hin (hentry k h)
        have hspec := hashed_assertTokens hn hinv s hemit' hbase (hnopairs hnone) rfl
          (hfilter hnone) hkey hkplain hp' hR' hpending hok
        simpa [hashedRight, hheap, hkey, hin] using hspec

end Hashed

end RulesForge
