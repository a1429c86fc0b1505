import RulesForge.Rete.JoinInvariant

/-!
# Invariant of NOT and EXISTS nodes

A condition node keeps for every delivered token the ids of the facts matched to it, and
indexes tokens and facts by the keys they had when they were entered. Those keys are on
record, so an entry can be taken out whatever its key is now; `IndexInv` describes one side of
the index. A token and a fact are only tested against each other when their recorded keys are
`Compatible`: equal, or one of them missing.

The tokens delivered below are those whose number of matches passes (`passingTokens`).
-/

namespace RulesForge

/-! ### One side of the index -/

section Index

/-- Neither key contradicts the other. -/
def Compatible (k k' : Option ConstraintValue) : Prop :=
  ∀ v v', k = some v → k' = some v' → v = v'

theorem Compatible.symm {k k' : Option ConstraintValue} (h : Compatible k k') : Compatible k' k :=
  fun v v' hv hv' ↦ (h v' v hv' hv).symm

theorem compatible_comm {k k' : Option ConstraintValue} : Compatible k k' ↔ Compatible k' k :=
  ⟨Compatible.symm, Compatible.symm⟩

@[simp]
theorem compatible_none_left (k : Option ConstraintValue) : Compatible none k :=
  fun _ _ h ↦ nomatch h

@[simp]
theorem compatible_none_right (k : Option ConstraintValue) : Compatible k none :=
  fun _ _ _ h ↦ nomatch h

@[simp]
theorem compatible_some {v v' : ConstraintValue} : Compatible (some v) (some v') ↔ v = v' := by
  simp [Compatible]

variable {α : Type}

/-- The buckets and the list of elements without key hold the elements of `S`, each under its
recorded key. -/
structure IndexInv (indexed : Bool) (S : Set α) (keys : α → Option ConstraintValue)
    (index : List (ConstraintValue × α)) (unindexed : List α) : Prop where
  nodup : (index.map Prod.snd).Nodup
  mem_index : ∀ {k a}, (k, a) ∈ index ↔ a ∈ S ∧ keys a = some k
  plain : ∀ {k a}, a ∈ S → keys a = some k → k.isPlain = true ∧ indexed = true
  unindexed_nodup : unindexed.Nodup
  mem_unindexed : ∀ {a}, a ∈ unindexed ↔ a ∈ S ∧ keys a = none ∧ indexed = true

variable {factId : FactPtr → ℤ} {indexed : Bool} {S : Set α} {keys keys' : α → Option ConstraintValue}
  {index : List (ConstraintValue × α)} {unindexed all : List α} {a : α}
  {key : Option ConstraintValue}

/-- What is looked up under a key, among all elements when there is none. -/
def candidates (factId : FactPtr → ℤ) (indexed : Bool) (key : Option ConstraintValue)
    (index : List (ConstraintValue × α)) (unindexed all : List α) : List α :=
  match indexed, key with
  | true, some key => bucket factId key index ++ unindexed
  | _, _ => all

theorem IndexInv.mem_candidates (h : IndexInv indexed S keys index unindexed)
    (hall : ∀ a, a ∈ all ↔ a ∈ S) (hplain : ∀ k, key = some k → k.isPlain = true) :
    a ∈ candidates factId indexed key index unindexed all ↔
      a ∈ S ∧ Compatible ((keys a).map ConstraintValue.canonical)
        (key.map ConstraintValue.canonical) := by
  unfold candidates
  split
  · next k =>
    have hmem : a ∈ bucket factId k index ↔
        ∃ k', (k', a) ∈ index ∧ k'.canonical = k.canonical := mem_bucket_iff
      (fun hmem ↦ (h.plain (h.mem_index.mp hmem).1 (h.mem_index.mp hmem).2).1) (hplain k rfl)
    rw [List.mem_append, hmem, h.mem_unindexed]
    simp only [h.mem_index]
    cases hkeys : keys a with
    | none => simp
    | some k' => simp
  · next hnot =>
    rw [hall]
    refine (and_iff_left_of_imp fun ha ↦ ?_).symm
    cases key with
    | none => simp
    | some k =>
      have hindexed : indexed = false := by
        cases indexed with
        | false => rfl
        | true => exact absurd rfl (hnot k rfl)
      have hnone : keys a = none := by
        cases hkeys : keys a with
        | none => rfl
        | some k' => exact absurd (h.plain ha hkeys).2 (by simp [hindexed])
      simp [hnone]

/-- Only the keys of the elements matter. -/
theorem IndexInv.congr (h : IndexInv indexed S keys index unindexed)
    (hkeys : ∀ a ∈ S, keys' a = keys a) : IndexInv indexed S keys' index unindexed where
  nodup := h.nodup
  mem_index := h.mem_index.trans (and_congr_right fun ha ↦ by rw [hkeys _ ha])
  plain ha hk := h.plain ha (hkeys _ ha ▸ hk)
  unindexed_nodup := h.unindexed_nodup
  mem_unindexed := h.mem_unindexed.trans (and_congr_right fun ha ↦ by rw [hkeys _ ha])

/-- A new element is entered under its key. -/
theorem IndexInv.insert_some (h : IndexInv indexed S keys index unindexed) (ha : a ∉ S)
    {k : ConstraintValue} (hk : keys a = some k) (hplain : k.isPlain = true)
    (hindexed : indexed = true) :
    IndexInv indexed (insert a S) keys (index ++ [(k, a)]) unindexed where
  nodup := nodup_snd_append h.nodup fun k hmem ↦ ha (h.mem_index.mp hmem).1
  mem_index := by
    intro k' b
    rw [List.mem_append, List.mem_singleton, h.mem_index, Prod.mk.injEq, Set.mem_insert_iff]
    grind
  plain := by
    intro k' b hb hk'
    rcases Set.mem_insert_iff.mp hb with rfl | hb
    · obtain rfl : k = k' := by simpa [hk] using hk'
      exact ⟨hplain, hindexed⟩
    · exact h.plain hb hk'
  unindexed_nodup := h.unindexed_nodup
  mem_unindexed := by
    intro b
    rw [h.mem_unindexed, Set.mem_insert_iff]
    grind

/-- A new element without a key. -/
theorem IndexInv.insert_none (h : IndexInv indexed S keys index unindexed) (ha : a ∉ S)
    (hk : keys a = none) :
    IndexInv indexed (insert a S) keys index (if indexed then unindexed ++ [a] else unindexed) where
  nodup := h.nodup
  mem_index := by
    intro k b
    rw [h.mem_index, Set.mem_insert_iff]
    grind
  plain := by
    intro k b hb hk'
    rcases Set.mem_insert_iff.mp hb with rfl | hb
    · simp [hk] at hk'
    · exact h.plain hb hk'
  unindexed_nodup := by
    split
    · refine List.nodup_append.mpr ⟨h.unindexed_nodup, List.nodup_singleton a, ?_⟩
      intro x hx y hy
      rw [List.mem_singleton.mp hy]
      exact ne_of_mem_of_not_mem (h.mem_unindexed.mp hx).1 ha
    · exact h.unindexed_nodup
  mem_unindexed := by
    intro b
    have := h.mem_unindexed (a := b)
    rw [Set.mem_insert_iff]
    split
    · rw [List.mem_append, List.mem_singleton, this]
      grind
    · grind

variable [DecidableEq α]

/-- An element is taken out of the bucket of its recorded key. -/
theorem IndexInv.erase_some (h : IndexInv indexed S keys index unindexed) (ha : a ∈ S)
    {k : ConstraintValue} (hk : keys a = some k) :
    IndexInv indexed (S \ {a}) keys (bucketErase factId k a index) unindexed := by
  have hplain := (h.plain ha hk).1
  have herase : bucketErase factId k a index = index.filter (·.2 ≠ a) := by
    refine bucketErase_eq_filter h.nodup fun k' hmem ↦ ?_
    obtain rfl : k = k' := by simpa [hk] using (h.mem_index.mp hmem).2
    exact (constraintValueEquals_iff factId hplain hplain).mpr rfl
  rw [herase]
  refine ⟨h.nodup.sublist (List.Sublist.map _ List.filter_sublist), ?_,
    fun hb ↦ h.plain hb.1, h.unindexed_nodup, ?_⟩
  · intro k' b
    simp only [List.mem_filter, h.mem_index, decide_eq_true_eq, Set.mem_sdiff,
      Set.mem_singleton_iff]
    exact and_right_comm
  · intro b
    rw [h.mem_unindexed, Set.mem_sdiff, Set.mem_singleton_iff]
    grind

/-- An element without a key is taken out. -/
theorem IndexInv.erase_none (h : IndexInv indexed S keys index unindexed)
    (hk : keys a = none) : IndexInv indexed (S \ {a}) keys index (unindexed.erase a) where
  nodup := h.nodup
  mem_index := by
    intro k b
    rw [h.mem_index, Set.mem_sdiff, Set.mem_singleton_iff]
    grind
  plain hb := h.plain hb.1
  unindexed_nodup := h.unindexed_nodup.erase a
  mem_unindexed := by
    intro b
    rw [h.unindexed_nodup.mem_erase_iff, h.mem_unindexed, Set.mem_sdiff, Set.mem_singleton_iff]
    grind

end Index

/-! ### The invariant -/

section Invariant

variable (kb : KnowledgeBase) (base : Session) (c : JoinCondition)

/-- The tokens that pass a condition node. -/
def passingTokens (kind : ConditionKind) (left : List (TokenWME × List ℤ)) : Set TokenWME :=
  {w | ∃ ids, (w, ids) ∈ left ∧ kind.passes ids.length = true}

/-- The canonical keys a token and a fact have now. -/
def currentLeftKey (w : TokenWME) : Option ConstraintValue :=
  (conditionTokenKey c base.heap w).map ConstraintValue.canonical

def currentRightKey (f : FactPtr) : Option ConstraintValue :=
  (conditionFactKey c base.heap f).map ConstraintValue.canonical

/-- The canonical keys under which a token and a fact were entered. -/
def BetaConditionMem.recordedLeftKey (mem : BetaConditionMem) (w : TokenWME) :
    Option ConstraintValue :=
  (mem.leftKeys.lookup w).map ConstraintValue.canonical

def BetaConditionMem.recordedRightKey (mem : BetaConditionMem) (f : FactPtr) :
    Option ConstraintValue :=
  (mem.rightKeys.lookup (base.heap f).id).map ConstraintValue.canonical

/-- The memory of a NOT or EXISTS node. -/
structure ConditionInv (R : Set FactPtr) (stale : TokenWME → Prop) (pending : FactPtr → Prop)
    (D : Set TokenWME) (mem : BetaConditionMem) : Prop where
  left_unique : AssocMap.Unique mem.left
  mem_left : ∀ w, (∃ ids, (w, ids) ∈ mem.left) ↔ w ∈ D
  right_unique : AssocMap.Unique mem.right
  mem_right : ∀ id f, (id, f) ∈ mem.right ↔ f ∈ R ∧ id = (base.heap f).id
  ids_nodup : ∀ {w ids}, (w, ids) ∈ mem.left → ids.Nodup
  ids_mem : ∀ {w ids i}, (w, ids) ∈ mem.left → i ∈ ids → ∃ f ∈ R, i = (base.heap f).id
  leftKeys_mem : ∀ {w k}, (w, k) ∈ mem.leftKeys → w ∈ D
  rightKeys_mem : ∀ {id k}, (id, k) ∈ mem.rightKeys → ∃ f ∈ R, id = (base.heap f).id
  left_index : IndexInv c.isIndexed D (mem.leftKeys.lookup ·) mem.leftIndex mem.leftUnindexed
  right_index : IndexInv c.isIndexed R (fun f ↦ mem.rightKeys.lookup (base.heap f).id)
    mem.rightIndex mem.rightUnindexed
  left_current : ∀ {w}, w ∈ D → ¬ stale w → mem.recordedLeftKey w = currentLeftKey base c w
  right_current : ∀ {f}, f ∈ R → ¬ pending f →
    mem.recordedRightKey base f = currentRightKey base c f
  matched : ∀ {w ids f}, (w, ids) ∈ mem.left → f ∈ R → (base.heap f).id ∈ ids →
    Compatible (mem.recordedLeftKey w) (mem.recordedRightKey base f)
  exact : ∀ {w ids f}, (w, ids) ∈ mem.left → f ∈ R → ¬ stale w → ¬ pending f →
    ((base.heap f).id ∈ ids ↔
      Compatible (currentLeftKey base c w) (currentRightKey base c f) ∧
        checkCondition kb c base w f = true)

end Invariant

section Lemmas

variable {kb : KnowledgeBase} {base : Session} {c : JoinCondition} {R R' : Set FactPtr}
  {stale stale' : TokenWME → Prop} {pending pending' : FactPtr → Prop} {D : Set TokenWME}
  {mem mem' : BetaConditionMem} {kind : ConditionKind} {w : TokenWME} {p : FactPtr}

theorem ConditionInv.empty : ConditionInv kb base c ∅ stale pending ∅ {} where
  left_unique := AssocMap.unique_nil
  mem_left := by simp
  right_unique := AssocMap.unique_nil
  mem_right := by simp
  ids_nodup := by simp
  ids_mem := by simp
  leftKeys_mem := by simp
  rightKeys_mem := by simp
  left_index := ⟨List.nodup_nil, by simp, by simp, List.nodup_nil, by simp⟩
  right_index := ⟨List.nodup_nil, by simp, by simp, List.nodup_nil, by simp⟩
  left_current hw := absurd hw (Set.notMem_empty _)
  right_current hf := absurd hf (Set.notMem_empty _)
  matched := by simp
  exact := by simp

theorem ConditionInv.shrink (h : ConditionInv kb base c R stale pending D mem)
    (hstale : ∀ w ∈ D, stale w → stale' w) (hpending : ∀ f ∈ R, pending f → pending' f) :
    ConditionInv kb base c R stale' pending' D mem :=
  { h with
    left_current := fun hw hs ↦ h.left_current hw fun hs' ↦ hs (hstale _ hw hs')
    right_current := fun hf hp ↦ h.right_current hf fun hp' ↦ hp (hpending _ hf hp')
    exact := fun hw hf hs hp ↦
      h.exact hw hf (fun hs' ↦ hs (hstale _ ((h.mem_left _).mp ⟨_, hw⟩) hs'))
        fun hp' ↦ hp (hpending _ hf hp') }

/-- The invariant in another heap, where the tokens that are not stale and the facts that are
not pending have the keys and the outcomes they had. -/
theorem ConditionInv.rebase {base' : Session}
    (h : ConditionInv kb base c R (fun _ ↦ False) (fun _ ↦ False) D mem)
    (hid : ∀ f ∈ R, (base'.heap f).id = (base.heap f).id)
    (hleft : ∀ w ∈ D, ¬ stale w → currentLeftKey base' c w = currentLeftKey base c w)
    (hright : ∀ f ∈ R, ¬ pending f → currentRightKey base' c f = currentRightKey base c f)
    (hcheck : ∀ w ∈ D, ∀ f ∈ R, ¬ stale w → ¬ pending f →
      checkCondition kb c base' w f = checkCondition kb c base w f) :
    ConditionInv kb base' c R stale pending D mem := by
  have hrecorded : ∀ {f}, f ∈ R → mem.recordedRightKey base' f = mem.recordedRightKey base f := by
    intro f hf
    rw [BetaConditionMem.recordedRightKey, hid f hf, BetaConditionMem.recordedRightKey]
  have hids : ∀ {i}, (∃ f ∈ R, i = (base'.heap f).id) ↔ ∃ f ∈ R, i = (base.heap f).id :=
    exists_congr fun f ↦ and_congr_right fun hf ↦ by rw [hid f hf]
  refine { h with
    mem_right := ?_, ids_mem := ?_, rightKeys_mem := ?_, right_index := ?_, left_current := ?_,
    right_current := ?_, matched := ?_, exact := ?_ }
  · intro id f
    rw [h.mem_right]
    exact and_congr_right fun hf ↦ by rw [hid f hf]
  · intro w ids i hmem hi
    exact hids.mpr (h.ids_mem hmem hi)
  · intro id k hmem
    exact hids.mpr (h.rightKeys_mem hmem)
  · exact h.right_index.congr fun f hf ↦ by rw [hid f hf]
  · intro w hw hs
    rw [hleft w hw hs]
    exact h.left_current hw nofun
  · intro f hf hp
    rw [hrecorded hf, hright f hf hp]
    exact h.right_current hf nofun
  · intro w ids f hmem hf hi
    rw [hid f hf] at hi
    rw [hrecorded hf]
    exact h.matched hmem hf hi
  · intro w ids f hmem hf hs hp
    have hw := (h.mem_left w).mp ⟨ids, hmem⟩
    rw [hid f hf, hleft w hw hs, hright f hf hp, hcheck w hw f hf hs hp]
    exact h.exact hmem hf nofun nofun

theorem conditionTokenKey_of_not_indexed (hindexed : c.isIndexed = false) (heap : Heap)
    (w : TokenWME) : conditionTokenKey c heap w = none := by
  simp_all [JoinCondition.isIndexed, conditionTokenKey]

theorem conditionFactKey_of_not_indexed (hindexed : c.isIndexed = false) (heap : Heap)
    (f : FactPtr) : conditionFactKey c heap f = none := by
  simp_all [JoinCondition.isIndexed, conditionFactKey]

/-! ### Passing tokens -/

theorem passingTokens_insert {left : List (TokenWME × List ℤ)} (ids : List ℤ) :
    passingTokens kind (AssocMap.insert w ids left) =
      if kind.passes ids.length then insert w (passingTokens kind left)
      else passingTokens kind left \ {w} := by
  ext w'
  split
  · next hpasses =>
    simp only [passingTokens, Set.mem_ofPred_eq, AssocMap.mem_insert, Set.mem_insert_iff]
    grind
  · next hpasses =>
    simp only [passingTokens, Set.mem_ofPred_eq, AssocMap.mem_insert, Set.mem_sdiff,
      Set.mem_singleton_iff]
    grind

theorem passingTokens_erase {left : List (TokenWME × List ℤ)} :
    passingTokens kind (AssocMap.erase w left) = passingTokens kind left \ {w} := by
  ext w'
  simp only [passingTokens, Set.mem_ofPred_eq, AssocMap.mem_erase, Set.mem_sdiff,
    Set.mem_singleton_iff]
  grind

theorem mem_passingTokens_iff {left : List (TokenWME × List ℤ)} (hunique : AssocMap.Unique left)
    {ids : List ℤ} (hids : (w, ids) ∈ left) :
    w ∈ passingTokens kind left ↔ kind.passes ids.length = true := by
  refine ⟨?_, fun h ↦ ⟨ids, hids, h⟩⟩
  rintro ⟨ids', hids', h⟩
  rwa [hunique.eq_of_mem hids hids']

/-! ### The left memory -/

theorem ConditionInv.leftKeys_lookup_none (h : ConditionInv kb base c R stale pending D mem)
    (hw : w ∉ D) : mem.leftKeys.lookup w = none :=
  AssocMap.lookup_eq_none_iff.mpr fun _ hmem ↦ hw (h.leftKeys_mem hmem)

/-- What entering a token changes in the index. -/
structure LeftEntered (c : JoinCondition) (D : Set TokenWME) (w : TokenWME)
    (key : Option ConstraintValue) (ids : List ℤ) (mem mem' : BetaConditionMem) : Prop where
  left : mem'.left = AssocMap.insert w ids mem.left
  right : mem'.right = mem.right
  rightKeys : mem'.rightKeys = mem.rightKeys
  rightIndex : mem'.rightIndex = mem.rightIndex
  rightUnindexed : mem'.rightUnindexed = mem.rightUnindexed
  lookup_self : mem'.leftKeys.lookup w = key
  lookup_other : ∀ w' ≠ w, mem'.leftKeys.lookup w' = mem.leftKeys.lookup w'
  leftKeys_mem : ∀ {w' k}, (w', k) ∈ mem'.leftKeys → w' ∈ insert w D
  left_index : IndexInv c.isIndexed (insert w D) (mem'.leftKeys.lookup ·) mem'.leftIndex
    mem'.leftUnindexed

theorem ConditionInv.leftEntered (h : ConditionInv kb base c R stale pending D mem) (hw : w ∉ D)
    (hplain : ∀ k, conditionTokenKey c base.heap w = some k → k.isPlain = true) (ids : List ℤ) :
    LeftEntered c D w (conditionTokenKey c base.heap w) ids mem
      (mem.insertLeft c.isIndexed (conditionTokenKey c base.heap w) w ids) := by
  have hnone := h.leftKeys_lookup_none hw
  have hnotin : ∀ k, (w, k) ∉ mem.leftKeys := fun k hmem ↦ hw (h.leftKeys_mem hmem)
  cases hindexed : c.isIndexed with
  | false =>
    have hkey := conditionTokenKey_of_not_indexed hindexed base.heap w
    refine ⟨rfl, rfl, rfl, rfl, rfl, ?_, fun _ _ ↦ rfl, ?_, ?_⟩
    · rw [hkey]
      exact hnone
    · exact fun hmem ↦ Set.mem_insert_of_mem _ (h.leftKeys_mem hmem)
    · simpa [hindexed, BetaConditionMem.insertLeft] using h.left_index.insert_none hw hnone
  | true =>
    cases hkey : conditionTokenKey c base.heap w with
    | none =>
      refine ⟨rfl, rfl, rfl, rfl, rfl, hnone, fun _ _ ↦ rfl, ?_, ?_⟩
      · exact fun hmem ↦ Set.mem_insert_of_mem _ (h.leftKeys_mem hmem)
      · simpa [hindexed, BetaConditionMem.insertLeft] using h.left_index.insert_none hw hnone
    | some k =>
      have hkeys : AssocMap.emplace w k mem.leftKeys = AssocMap.insert w k mem.leftKeys :=
        AssocMap.emplace_eq_insert hnotin k
      refine ⟨rfl, rfl, rfl, rfl, rfl, ?_, ?_, ?_, ?_⟩
      · simp [BetaConditionMem.insertLeft, hkeys]
      · intro w' hne
        simp [BetaConditionMem.insertLeft, hkeys, AssocMap.lookup_insert_ne hne]
      · intro w' k' hmem
        simp only [BetaConditionMem.insertLeft, hkeys, AssocMap.mem_insert] at hmem
        rcases hmem with ⟨-, hmem⟩ | ⟨rfl, -⟩
        · exact Set.mem_insert_of_mem _ (h.leftKeys_mem hmem)
        · exact Set.mem_insert _ _
      · simp only [BetaConditionMem.insertLeft, hkeys]
        refine (h.left_index.congr fun w' hw' ↦ ?_).insert_some hw ?_ (hplain k hkey) hindexed
        · exact AssocMap.lookup_insert_ne (ne_of_mem_of_not_mem hw' hw) k mem.leftKeys
        · exact AssocMap.lookup_insert_self w k mem.leftKeys

/-- A new token enters with the ids of the facts that match it. -/
theorem ConditionInv.insertLeft (h : ConditionInv kb base c R stale pending D mem) (hw : w ∉ D)
    (hid : Set.InjOn (fun f ↦ (base.heap f).id) R) {ids : List ℤ}
    (hentered : LeftEntered c D w (conditionTokenKey c base.heap w) ids mem mem')
    (hnodup : ids.Nodup)
    (hids : ∀ i, i ∈ ids ↔ ∃ f ∈ R, i = (base.heap f).id ∧
      Compatible (mem.recordedRightKey base f) (currentLeftKey base c w) ∧
        checkCondition kb c base w f = true) :
    ConditionInv kb base c R stale pending (insert w D) mem' := by
  have hmemLeft : ∀ {w' ids'}, (w', ids') ∈ mem'.left ↔
      w' ≠ w ∧ (w', ids') ∈ mem.left ∨ w' = w ∧ ids' = ids := by
    intro w' ids'
    rw [hentered.left, AssocMap.mem_insert]
  have hright : ∀ f, mem'.recordedRightKey base f = mem.recordedRightKey base f := fun f ↦ by
    simp [BetaConditionMem.recordedRightKey, hentered.rightKeys]
  have hself : mem'.recordedLeftKey w = currentLeftKey base c w := by
    simp [BetaConditionMem.recordedLeftKey, hentered.lookup_self, currentLeftKey]
  have hother : ∀ w' ≠ w, mem'.recordedLeftKey w' = mem.recordedLeftKey w' := fun w' hne ↦ by
    simp [BetaConditionMem.recordedLeftKey, hentered.lookup_other w' hne]
  have hmemIds : ∀ f ∈ R, ((base.heap f).id ∈ ids ↔
      Compatible (mem.recordedRightKey base f) (currentLeftKey base c w) ∧
        checkCondition kb c base w f = true) := by
    intro f hf
    rw [hids]
    refine ⟨?_, fun hmatch ↦ ⟨f, hf, rfl, hmatch⟩⟩
    rintro ⟨f', hf', heq, hmatch⟩
    rwa [hid hf hf' heq]
  refine ⟨?_, ?_, ?_, ?_, ?_, ?_, hentered.leftKeys_mem, ?_, hentered.left_index, ?_, ?_, ?_, ?_, ?_⟩
  · rw [hentered.left]
    exact h.left_unique.insert w ids
  · intro w'
    simp only [hmemLeft, Set.mem_insert_iff, ← h.mem_left]
    by_cases hne : w' = w <;> simp [hne]
  · rw [hentered.right]
    exact h.right_unique
  · rw [hentered.right]
    exact h.mem_right
  · intro w' ids' hmem
    rcases hmemLeft.mp hmem with ⟨-, hmem⟩ | ⟨-, rfl⟩
    · exact h.ids_nodup hmem
    · exact hnodup
  · intro w' ids' i hmem hi
    rcases hmemLeft.mp hmem with ⟨-, hmem⟩ | ⟨-, rfl⟩
    · exact h.ids_mem hmem hi
    · obtain ⟨f, hf, heq, -⟩ := (hids i).mp hi
      exact ⟨f, hf, heq⟩
  · rw [hentered.rightKeys]
    exact h.rightKeys_mem
  · rw [hentered.rightKeys, hentered.rightIndex, hentered.rightUnindexed]
    exact h.right_index
  · intro w' hw' hstale
    by_cases hne : w' = w
    · rw [hne, hself]
    · rw [hother w' hne]
      exact h.left_current ((Set.mem_insert_iff.mp hw').resolve_left hne) hstale
  · intro f hf hpending
    rw [hright]
    exact h.right_current hf hpending
  · intro w' ids' f hmem hf hi
    rw [hright]
    rcases hmemLeft.mp hmem with ⟨hne, hmem⟩ | ⟨rfl, rfl⟩
    · rw [hother w' hne]
      exact h.matched hmem hf hi
    · rw [hself]
      exact ((hmemIds f hf).mp hi).1.symm
  · intro w' ids' f hmem hf hstale hpending
    rcases hmemLeft.mp hmem with ⟨hne, hmem⟩ | ⟨rfl, rfl⟩
    · exact h.exact hmem hf hstale hpending
    · rw [hmemIds f hf, h.right_current hf hpending, compatible_comm]

/-- A token leaves, with its entry in the index. -/
theorem ConditionInv.eraseLeft (h : ConditionInv kb base c R stale pending D mem) (hw : w ∈ D)
    (factId : FactPtr → ℤ) :
    ConditionInv kb base c R stale pending (D \ {w}) (mem.eraseLeft factId w) := by
  set mem' := mem.eraseLeft factId w with hmem'
  have hfields : mem'.left = AssocMap.erase w mem.left ∧ mem'.right = mem.right ∧
      mem'.rightKeys = mem.rightKeys ∧ mem'.rightIndex = mem.rightIndex ∧
      mem'.rightUnindexed = mem.rightUnindexed := by
    rw [hmem']
    unfold BetaConditionMem.eraseLeft
    split <;> exact ⟨rfl, rfl, rfl, rfl, rfl⟩
  obtain ⟨hleft, hright, hrightKeys, hrightIndex, hrightUnindexed⟩ := hfields
  have hother : ∀ w' ≠ w, mem'.leftKeys.lookup w' = mem.leftKeys.lookup w' := by
    intro w' hne
    rw [hmem']
    unfold BetaConditionMem.eraseLeft
    split
    · exact AssocMap.lookup_erase_ne hne _
    · rfl
  have hkeysMem : ∀ {w' k}, (w', k) ∈ mem'.leftKeys → w' ∈ D \ {w} := by
    intro w' k hmem
    rw [hmem'] at hmem
    unfold BetaConditionMem.eraseLeft at hmem
    split at hmem
    · exact ⟨h.leftKeys_mem (AssocMap.mem_erase.mp hmem).2, (AssocMap.mem_erase.mp hmem).1⟩
    · next hnone =>
      refine ⟨h.leftKeys_mem hmem, ?_⟩
      rintro rfl
      exact AssocMap.lookup_eq_none_iff.mp hnone k hmem
  have hindex : IndexInv c.isIndexed (D \ {w}) (mem'.leftKeys.lookup ·) mem'.leftIndex
      mem'.leftUnindexed := by
    rw [hmem']
    unfold BetaConditionMem.eraseLeft
    split
    · next k hk =>
      exact (h.left_index.erase_some hw hk).congr fun w' hw' ↦
        AssocMap.lookup_erase_ne hw'.2 _
    · next hk => exact h.left_index.erase_none hk
  have hmemLeft : ∀ {w' ids}, (w', ids) ∈ mem'.left ↔ w' ≠ w ∧ (w', ids) ∈ mem.left := by
    intro w' ids
    rw [hleft, AssocMap.mem_erase]
  have hrecRight : ∀ f, mem'.recordedRightKey base f = mem.recordedRightKey base f := fun f ↦ by
    simp [BetaConditionMem.recordedRightKey, hrightKeys]
  have hrecLeft : ∀ w' ≠ w, mem'.recordedLeftKey w' = mem.recordedLeftKey w' := fun w' hne ↦ by
    simp [BetaConditionMem.recordedLeftKey, hother w' hne]
  refine ⟨?_, ?_, ?_, ?_, ?_, ?_, hkeysMem, ?_, hindex, ?_, ?_, ?_, ?_, ?_⟩
  · rw [hleft]
    exact h.left_unique.erase w
  · intro w'
    simp only [hmemLeft, Set.mem_sdiff, Set.mem_singleton_iff, ← h.mem_left]
    grind
  · rw [hright]
    exact h.right_unique
  · rw [hright]
    exact h.mem_right
  · exact fun hmem ↦ h.ids_nodup (hmemLeft.mp hmem).2
  · exact fun hmem ↦ h.ids_mem (hmemLeft.mp hmem).2
  · rw [hrightKeys]
    exact h.rightKeys_mem
  · rw [hrightKeys, hrightIndex, hrightUnindexed]
    exact h.right_index
  · rintro w' ⟨hw', hne⟩ hstale
    rw [hrecLeft w' hne]
    exact h.left_current hw' hstale
  · intro f hf hpending
    rw [hrecRight]
    exact h.right_current hf hpending
  · intro w' ids f hmem hf hi
    rw [hrecRight, hrecLeft w' (hmemLeft.mp hmem).1]
    exact h.matched (hmemLeft.mp hmem).2 hf hi
  · exact fun hmem ↦ h.exact (hmemLeft.mp hmem).2

end Lemmas

end RulesForge
