import RulesForge.Engine.AccumulateResults
import RulesForge.Engine.AccumulateTokens
import Mathlib.Data.List.Induction

/-!
# Items and contributions

What a fact **contributes** to the item of a token (`AccumulateNode.contribution`) is nothing where
the two do not join, and else the value that a numeric function takes from it. An item stands for
a set of facts and what they contribute (`ItemFor`); the kernel keeps it so when a fact comes or
goes, and `accumulateRight` makes it so for the facts of the right memory.
-/

namespace RulesForge

/-- What a fact contributes to the item of a token. -/
def AccumulateNode.contribution (kb : KnowledgeBase) (node : AccumulateNode) (heap : Heap)
    (w : TokenWME) (f : FactPtr) : Option (Option ConstraintValue) :=
  if checkAllJoinConditions kb.runtime heap node.condition.bindings node.condition.scalarFields w f
      node.condition.joins then
    some (if node.info.function.isNumeric then
      node.info.getAccumulateValue kb.runtime heap node.condition.bindings w f else none)
  else none

/-- The number that a fact contributes. -/
def numberOf : Option (Option ConstraintValue) → ℤ
  | some (some (.int64 i)) => i
  | _ => 0

/-- The facts of a set contribute integers, and the sums of them, some or all, are exact. -/
def Measured (info : ParsedAccumulate) (k : FactPtr → Option (Option ConstraintValue))
    (held : Set FactPtr) : Prop :=
  info.function.isNumeric = true →
    (∀ f ∈ held, ∀ v, k f = some v → ∃ i, v = some (.int64 i)) ∧
      ∀ l : List FactPtr, l.Nodup → (∀ f ∈ l, f ∈ held) →
        (l.map fun f ↦ numberOf (k f)).sum.natAbs ≤ 2 ^ 53

/-- **An item stands for a set of facts** and what they contribute. -/
def ItemFor (info : ParsedAccumulate) (k : FactPtr → Option (Option ConstraintValue))
    (held : Set FactPtr) (item : LeftMemoryItem) : Prop :=
  ∃ facts : List FactPtr, facts.Nodup ∧ (∀ f, f ∈ facts ↔ f ∈ held ∧ (k f).isSome) ∧
    ItemExact info (fun f ↦ numberOf (k f)) facts item

section Measures

variable {info : ParsedAccumulate} {k k' : FactPtr → Option (Option ConstraintValue)}
  {held held' : Set FactPtr} {item : LeftMemoryItem} {facts : List FactPtr}

theorem Measured.mono (h : Measured info k held) (hsub : held' ⊆ held) : Measured info k held' :=
  fun hnumeric ↦ ⟨fun f hf ↦ (h hnumeric).1 f (hsub hf),
    fun l hl hmem ↦ (h hnumeric).2 l hl fun f hf ↦ hsub (hmem f hf)⟩

theorem Measured.congr (h : Measured info k held) (hk : ∀ f ∈ held, k' f = k f) :
    Measured info k' held := by
  refine fun hnumeric ↦ ⟨fun f hf v hv ↦ (h hnumeric).1 f hf v (hk f hf ▸ hv), fun l hl hmem ↦ ?_⟩
  have hsame : (l.map fun f ↦ numberOf (k' f)) = l.map fun f ↦ numberOf (k f) :=
    List.map_congr_left fun f hf ↦ by rw [hk f (hmem f hf)]
  rw [hsame]
  exact (h hnumeric).2 l hl hmem

/-- The numbers of a list of the facts have exact sums. -/
theorem Measured.sums (h : Measured info k held) (hnumeric : info.function.isNumeric = true)
    (hnodup : facts.Nodup) (hmem : ∀ f ∈ facts, f ∈ held) :
    SumsBounded (facts.map fun f ↦ numberOf (k f)) := by
  rintro l ⟨l', hperm, hsub⟩
  obtain ⟨l'', hsub', rfl⟩ := List.sublist_map_iff.mp hsub
  rw [← hperm.sum_eq]
  exact (h hnumeric).2 l'' (hnodup.sublist hsub') fun f hf ↦ hmem f (hsub'.subset hf)

theorem ItemFor.congr (h : ItemFor info k held item) (hk : ∀ f ∈ held, k' f = k f) :
    ItemFor info k' held item := by
  obtain ⟨facts, hnodup, hmem, hexact⟩ := h
  refine ⟨facts, hnodup, fun f ↦ (hmem f).trans ?_, hexact.congr fun _ f hf ↦ ?_⟩
  · exact and_congr_right fun hf ↦ by rw [hk f hf]
  · rw [hk f ((hmem f).mp hf).1]

/-- Facts that contribute nothing do not matter. -/
theorem ItemFor.of_iff (h : ItemFor info k held item)
    (hiff : ∀ f, (k f).isSome → (f ∈ held' ↔ f ∈ held)) : ItemFor info k held' item := by
  obtain ⟨facts, hnodup, hmem, hexact⟩ := h
  exact ⟨facts, hnodup, fun f ↦ (hmem f).trans (and_congr_left fun hk ↦ (hiff f hk).symm), hexact⟩

end Measures

section Contributions

variable {kb : KnowledgeBase} {node : AccumulateNode} {heap : Heap} {w : TokenWME} {f : FactPtr}
  {k : FactPtr → Option (Option ConstraintValue)} {held : Set FactPtr} {item : LeftMemoryItem}

/-- The kernel takes from a fact what it contributes. -/
theorem contribution_takes (hk : k f = node.contribution kb heap w f) (hsome : (k f).isSome)
    (hmeasured : Measured node.info k held) (hf : f ∈ held) :
    node.info.Takes (node.info.getAccumulateValue kb.runtime heap node.condition.bindings w f)
      (numberOf (k f)) := by
  intro hnumeric
  obtain ⟨v, hv⟩ := Option.isSome_iff_exists.mp hsome
  obtain ⟨i, rfl⟩ := (hmeasured hnumeric).1 f hf v hv
  rw [hv]
  show _ = some (ConstraintValue.int64 i)
  rw [hk] at hv
  unfold AccumulateNode.contribution at hv
  rw [if_pos hnumeric] at hv
  split at hv
  · exact Option.some.inj hv
  · cases hv

/-- **A fact comes to an item.** -/
theorem ItemFor.add (h : ItemFor node.info k held item) (hf : f ∉ held)
    (hwme : item.wme = w) (hk : k f = node.contribution kb heap w f) (hsome : (k f).isSome)
    (hmeasured : Measured node.info k (insert f held)) :
    let r := node.info.applyAccumulate kb.runtime heap node.condition.bindings true f item
    ItemFor node.info k (insert f held) r.1 ∧ r.2 = true := by
  obtain ⟨facts, hnodup, hmem, hexact⟩ := h
  have hnot : f ∉ facts := fun hin ↦ hf ((hmem f).mp hin).1
  have hnodup' : (f :: facts).Nodup := List.nodup_cons.mpr ⟨hnot, hnodup⟩
  have hmem' : ∀ g, g ∈ f :: facts ↔ g ∈ insert f held ∧ (k g).isSome := by
    intro g
    rw [List.mem_cons, hmem, Set.mem_insert_iff]
    constructor
    · rintro (rfl | ⟨hg, hkg⟩)
      · exact ⟨.inl rfl, hsome⟩
      · exact ⟨.inr hg, hkg⟩
    · rintro ⟨rfl | hg, hkg⟩
      · exact .inl rfl
      · exact .inr ⟨hg, hkg⟩
  have htakes := contribution_takes hk hsome hmeasured (Set.mem_insert f held)
  obtain ⟨hexact', hchanged⟩ := hexact.forward hnot (hwme ▸ htakes) fun hnumeric ↦
    hmeasured.sums hnumeric hnodup' fun g hg ↦ ((hmem' g).mp hg).1
  exact ⟨⟨f :: facts, hnodup', hmem', hexact'⟩, hchanged⟩

/-- **A fact goes from an item**, contributing what it did when it came. -/
theorem ItemFor.remove (h : ItemFor node.info k held item) (hf : f ∈ held)
    (hwme : item.wme = w) (hk : k f = node.contribution kb heap w f) (hsome : (k f).isSome)
    (hmeasured : Measured node.info k held) :
    let r := node.info.applyAccumulate kb.runtime heap node.condition.bindings false f item
    ItemFor node.info k (held \ {f}) r.1 ∧ r.2 = true := by
  obtain ⟨facts, hnodup, hmem, hexact⟩ := h
  have hin : f ∈ facts := (hmem f).mpr ⟨hf, hsome⟩
  have hperm : facts.Perm (f :: facts.erase f) := List.perm_cons_erase hin
  have hnodup' : (f :: facts.erase f).Nodup := hperm.nodup_iff.mp hnodup
  have hmem' : ∀ g, g ∈ facts.erase f ↔ g ∈ held \ {f} ∧ (k g).isSome := by
    intro g
    rw [hnodup.mem_erase_iff, hmem, Set.mem_sdiff, Set.mem_singleton_iff]
    tauto
  have htakes := contribution_takes hk hsome hmeasured hf
  obtain ⟨hexact', hchanged⟩ := (hexact.perm hperm).backward (hwme ▸ htakes) fun hnumeric ↦
    hmeasured.sums hnumeric hnodup' fun g hg ↦ ((hmem g).mp (hperm.mem_iff.mpr hg)).1
  exact ⟨⟨facts.erase f, (List.nodup_cons.mp hnodup').2, hmem', hexact'⟩, hchanged⟩

/-- A kernel that reports no change has made none. -/
theorem applyAccumulate_unchanged (info : ParsedAccumulate) (env : RuntimeEnv) (heap : Heap)
    (bindings : Bindings) (forward : Bool) (f : FactPtr) (item : LeftMemoryItem)
    (h : (info.applyAccumulate env heap bindings forward f item).2 = false) :
    (info.applyAccumulate env heap bindings forward f item).1 = item := by
  rcases info.function.kernel_cases with hf | hf | hf | hf | hf
  · rw [ParsedAccumulate.applyCount hf] at h
    cases h
  · unfold ParsedAccumulate.applyAccumulate ParsedAccumulate.usesCollectAccumulate
      ParsedAccumulate.applyNumericAccumulate at h ⊢
    rw [hf] at h ⊢
    dsimp only at h ⊢
    generalize (info.getAccumulateValue env heap bindings item.wme f).bind
      ParsedAccumulate.numericValue = value at h ⊢
    cases value with
    | none => rfl
    | some v => cases h
  · unfold ParsedAccumulate.applyAccumulate ParsedAccumulate.usesCollectAccumulate
      ParsedAccumulate.applyNumericAccumulate at h ⊢
    generalize (info.getAccumulateValue env heap bindings item.wme f).bind
      ParsedAccumulate.numericValue = value at h ⊢
    rcases hf with hf | hf <;> rw [hf] at h ⊢ <;> cases value with
    | none => rfl
    | some v => cases h
  · rw [ParsedAccumulate.applyList hf] at h ⊢
    cases forward with
    | true => cases h
    | false =>
      have hnot : f ∉ item.contributingFactsList := of_decide_eq_false h
      simp [List.erase_of_not_mem hnot]
  · rw [ParsedAccumulate.applySet hf] at h ⊢
    cases forward with
    | true =>
      have hin : f ∈ item.contributingFactsSet := by simpa using h
      simp [List.insert_of_mem hin]
    | false =>
      have hnot : f ∉ item.contributingFactsSet := of_decide_eq_false h
      simp [List.erase_of_not_mem hnot]

theorem checkCondition_iff (s : Session) :
    checkCondition kb node.condition s w f = true ↔
      (node.contribution kb s.heap w f).isSome := by
  unfold checkCondition AccumulateNode.contribution
  split
  · next h => simp [h]
  · next h => simp [h]

/-- **Facts come to an item one after the other**: those that the loop has seen are added to those
that the item stood for. -/
theorem ItemFor.addAll {s : Session} {facts : List FactPtr}
    (h : ItemFor node.info (node.contribution kb s.heap w) held item) (hwme : item.wme = w)
    (hnodup : facts.Nodup) (hnew : ∀ f ∈ facts, f ∉ held)
    (hmeasured : Measured node.info (node.contribution kb s.heap w) (held ∪ {f | f ∈ facts})) :
    ItemFor node.info (node.contribution kb s.heap w) (held ∪ {f | f ∈ facts})
      (node.accumulateAll kb s facts item) := by
  unfold AccumulateNode.accumulateAll
  set k := node.contribution kb s.heap w with hk
  induction facts generalizing held item with
  | nil => simpa using h
  | cons f facts ih =>
    obtain ⟨hnotin, hnodup⟩ := List.nodup_cons.mp hnodup
    have hset : held ∪ {g | g ∈ f :: facts} = insert f held ∪ {g | g ∈ facts} := by
      ext g
      simp only [List.mem_cons, Set.mem_union, Set.mem_ofPred_eq, Set.mem_insert_iff]
      tauto
    have hrest : ∀ g ∈ facts, g ∉ insert f held := by
      rintro g hg (rfl | hin)
      · exact hnotin hg
      · exact hnew g (List.mem_cons_of_mem _ hg) hin
    rw [hset] at hmeasured ⊢
    rw [List.foldl_cons]
    split
    · next hcheck =>
      have hsome : (k f).isSome := by
        rw [hwme, checkCondition_iff] at hcheck
        exact hcheck
      obtain ⟨hitem, -⟩ := h.add (hnew f List.mem_cons_self) hwme (by rw [hk]) hsome
        (hmeasured.mono Set.subset_union_left)
      exact ih ((applyAccumulate_wme _ _ _ _ _ _ _).trans hwme) hnodup hrest hitem hmeasured
    · next hcheck =>
      rw [hwme, checkCondition_iff] at hcheck
      refine ih hwme hnodup hrest (h.of_iff fun g hg ↦ ?_) hmeasured
      rw [Set.mem_insert_iff, or_iff_right]
      rintro rfl
      exact hcheck hg

/-- **The item computed from the right memory** stands for the facts of the right memory. -/
theorem accumulateRight_for {a : AccumulateSession} (hwme : item.wme = w)
    (h : ItemFor node.info (node.contribution kb a.session.heap w) ∅ item)
    (hnodup : (a.mem.right.map Prod.snd).Nodup)
    (hmeasured : Measured node.info (node.contribution kb a.session.heap w)
      {f | f ∈ a.mem.right.map Prod.snd}) :
    ItemFor node.info (node.contribution kb a.session.heap w) {f | f ∈ a.mem.right.map Prod.snd}
      (node.accumulateRight kb a item) := by
  rw [accumulateRight_eq]
  have hall := h.addAll hwme hnodup fun f _ ↦ Set.notMem_empty f
  rw [Set.empty_union] at hall
  exact hall hmeasured

/-- A batch that reports no change of an item has made none. -/
theorem accumulateBatch_unchanged {s : Session} {facts : List FactPtr} {item : LeftMemoryItem}
    (h : (node.accumulateBatch kb s facts item).2 = false) :
    node.accumulateAll kb s facts item = item := by
  induction facts using List.reverseRecOn with
  | nil => rfl
  | append_singleton facts f ih =>
    have hbefore := @accumulateBatch_fst kb node s facts item
    unfold AccumulateNode.accumulateBatch AccumulateNode.accumulateAll at *
    simp only [List.foldl_append, List.foldl_cons, List.foldl_nil] at h ⊢
    rw [hbefore] at h
    split at h
    · next hcheck =>
      obtain ⟨hsame, hlast⟩ := Bool.or_eq_false_iff.mp h
      rw [if_pos hcheck, applyAccumulate_unchanged _ _ _ _ _ _ _ hlast]
      exact ih hsame
    · next hcheck =>
      rw [if_neg hcheck]
      exact ih h

end Contributions

/-! ### One item in its session -/

section Activation

open EStateM (Ends)

variable {kb : KnowledgeBase} {steps : ℕ} {node : AccumulateNode} {R : Set FactPtr}
  {a a' : AccumulateSession} {w : TokenWME} {item : LeftMemoryItem}

/-- One item of the node is replaced, and every item is still published. -/
structure StepsTo (R : Set FactPtr) (info : ParsedAccumulate) (w : TokenWME)
    (item : LeftMemoryItem) (a a' : AccumulateSession) : Prop where
  results : Results R info a'
  heap : HeapBeside R a.session.heap a'.session.heap
  right : a'.mem.right = a.mem.right
  left : ∀ {w' item'}, (w', item') ∈ a'.mem.left ↔
    w' ≠ w ∧ (w', item') ∈ a.mem.left ∨ w' = w ∧ item' = item

theorem Results.congr {info : ParsedAccumulate} (h : Results R info a)
    (hsession : a'.session = a.session) (hunique : AssocMap.Unique a'.mem.left)
    (hleft : ∀ {w item}, (w, item) ∈ a'.mem.left → (w, item) ∈ a.mem.left) : Results R info a' where
  tms := by
    rw [hsession]
    exact h.tms
  nextId_pos := by
    rw [hsession]
    exact h.nextId_pos
  unique := hunique
  wme hitem := h.wme (hleft hitem)
  mem hitem := h.mem (hleft hitem)
  distinct hitem hitem' := h.distinct (hleft hitem) (hleft hitem')
  published hitem := by
    rw [hsession]
    exact h.published (hleft hitem)

/-- An item that the node holds can be published again. -/
theorem Results.publishable (h : Results R node.info a) (hitem : (w, item) ∈ a.mem.left) :
    Publishable a.session item.resultFact where
  tms := h.tms
  nextId_pos := h.nextId_pos
  zero := (h.published hitem).zero
  held := .inr ⟨(h.published hitem).lt, (h.published hitem).get⟩

/-- Storing an item and publishing it. -/
theorem Results.store_publish (h : Results R node.info a) {item' : LeftMemoryItem}
    (hitem : (w, item) ∈ a.mem.left) (hwme : item'.wme = item.wme)
    (hfact : item'.resultFact = item.resultFact) :
    (node.updateAndPropagateResult kb steps item').Ends (a.store w item')
      (fun _ ↦ StepsTo R node.info w item' a) fun _ _ ↦ True := by
  refine (h.publish (hwme.trans (h.wme hitem)) (hfact ▸ h.mem hitem)
    (hfact ▸ h.publishable hitem) fun hin heq ↦ h.distinct hin hitem (heq.trans hfact)).mono ?_
    fun _ _ h ↦ h
  rintro - a' ⟨hresults, hmem, hheap⟩
  refine ⟨hresults, hheap, by rw [hmem]; rfl, fun {w' item''} ↦ ?_⟩
  rw [hmem]
  exact AssocMap.mem_insert

/-- The item of a token after a fact has come or gone. -/
def AccumulateNode.itemAfter (kb : KnowledgeBase) (node : AccumulateNode) (forward : Bool)
    (f : FactPtr) (a : AccumulateSession) (w : TokenWME) (item : LeftMemoryItem) :
    LeftMemoryItem :=
  if checkCondition kb node.condition a.session w f then
    (node.info.applyAccumulate kb.runtime a.session.heap node.condition.bindings forward f item).1
  else item

/-- The item of a token that the node knows is the only one. -/
theorem Results.mem_iff (h : Results R node.info a) (hitem : (w, item) ∈ a.mem.left)
    {w' : TokenWME} {item' : LeftMemoryItem} :
    (w', item') ∈ a.mem.left ↔ w' ≠ w ∧ (w', item') ∈ a.mem.left ∨ w' = w ∧ item' = item := by
  by_cases hw : w' = w
  · subst hw
    simp only [ne_eq, not_true_eq_false, false_and, true_and, false_or]
    exact ⟨fun hin ↦ h.unique.eq_of_mem hin hitem, fun heq ↦ heq ▸ hitem⟩
  · simp [hw]

/-- **An item is stored**, and published where it has changed. -/
theorem Results.store_changed (h : Results R node.info a) (hitem : (w, item) ∈ a.mem.left)
    {item' : LeftMemoryItem} {changed : Bool} (hwme : item'.wme = item.wme)
    (hfact : item'.resultFact = item.resultFact) (hsame : changed = false → item' = item) :
    (do
      updateAccumulate fun mem ↦ { mem with left := AssocMap.insert w item' mem.left }
      if changed then node.updateAndPropagateResult kb steps item').Ends a
      (fun _ ↦ StepsTo R node.info w item' a) fun _ _ ↦ True := by
  refine .bind (.modify ?_)
  cases changed with
  | true => exact h.store_publish hitem hwme hfact
  | false =>
    rw [hsame rfl]
    have hstored : ∀ {w' item'}, (w', item') ∈ (a.store w item).mem.left ↔
        (w', item') ∈ a.mem.left := AssocMap.mem_insert.trans (h.mem_iff hitem).symm
    exact .pure ⟨h.congr rfl (h.unique.insert w item) hstored.mp, .refl _ _, rfl,
      AssocMap.mem_insert⟩

theorem updateItem_ends (h : Results R node.info a) (hitem : (w, item) ∈ a.mem.left)
    (forward : Bool) (f : FactPtr) :
    (node.updateItem kb steps forward f w).Ends a
      (fun _ ↦ StepsTo R node.info w (node.itemAfter kb forward f a w item) a)
      fun _ _ ↦ True := by
  have hlookup : a.mem.left.lookup w = some item := h.unique.lookup_eq_some_iff.mpr hitem
  unfold AccumulateNode.updateItem AccumulateNode.itemAfter
  refine .bind (.get ?_)
  rw [hlookup]
  dsimp only
  split
  · exact h.store_changed hitem (applyAccumulate_wme _ _ _ _ _ _ _)
      (applyAccumulate_resultFact _ _ _ _ _ _ _) (applyAccumulate_unchanged _ _ _ _ _ _ _)
  · exact .pure ⟨h, .refl _ _, rfl, h.mem_iff hitem⟩

theorem updateItemBatch_ends (h : Results R node.info a) (hitem : (w, item) ∈ a.mem.left)
    (facts : List FactPtr) :
    (node.updateItemBatch kb steps facts w).Ends a
      (fun _ ↦ StepsTo R node.info w (node.accumulateAll kb a.session facts item) a)
      fun _ _ ↦ True := by
  have hlookup : a.mem.left.lookup w = some item := h.unique.lookup_eq_some_iff.mpr hitem
  unfold AccumulateNode.updateItemBatch
  refine .bind (.get ?_)
  rw [hlookup]
  dsimp only
  rw [accumulateBatch_fst]
  exact h.store_changed hitem (accumulateAll_keeps _ _ _ _).1 (accumulateAll_keeps _ _ _ _).2
    accumulateBatch_unchanged

theorem rebuildItem_ends (h : Results R node.info a) (hitem : (w, item) ∈ a.mem.left) :
    (node.rebuildItem kb steps w).Ends a
      (fun _ ↦ StepsTo R node.info w
        (node.accumulateRight kb a (ParsedAccumulate.resetItem item)) a) fun _ _ ↦ True := by
  have hlookup : a.mem.left.lookup w = some item := h.unique.lookup_eq_some_iff.mpr hitem
  unfold AccumulateNode.rebuildItem
  refine .bind (.get ?_)
  rw [hlookup]
  dsimp only
  refine .bind (.modify ?_)
  exact h.store_publish hitem (accumulateRight_wme _ _ _) (accumulateRight_resultFact _ _ _)

/-- The items of all tokens have been gone through, and every item is still published. -/
structure Swept (R : Set FactPtr) (info : ParsedAccumulate)
    (after : TokenWME → LeftMemoryItem → LeftMemoryItem → Prop) (a a' : AccumulateSession) :
    Prop where
  results : Results R info a'
  heap : HeapBeside R a.session.heap a'.session.heap
  right : a'.mem.right = a.mem.right
  items : ∀ {w item}, (w, item) ∈ a'.mem.left →
    ∃ old, (w, old) ∈ a.mem.left ∧ after w old item

/-- **The loop over the tokens**, when each round replaces the item of its token by the next. -/
theorem forM_swept {body : TokenWME → EStateM SessionError AccumulateSession PUnit}
    {next : AccumulateSession → TokenWME → LeftMemoryItem → LeftMemoryItem}
    (after : TokenWME → LeftMemoryItem → LeftMemoryItem → Prop) (h : Results R node.info a)
    (hbody : ∀ {a w item}, Results R node.info a → (w, item) ∈ a.mem.left →
      (body w).Ends a (fun _ ↦ StepsTo R node.info w (next a w item) a) fun _ _ ↦ True)
    (hafter : ∀ {a' w item}, HeapBeside R a.session.heap a'.session.heap →
      a'.mem.right = a.mem.right → (w, item) ∈ a.mem.left → after w item (next a' w item)) :
    ((a.mem.left.map Prod.fst).forM body).Ends a (fun _ ↦ Swept R node.info after a)
      fun _ _ ↦ True := by
  -- The tokens that are left to do have the items that they had at the start.
  let P : List TokenWME → AccumulateSession → Prop := fun rest a' ↦
    rest.Nodup ∧ (∀ w ∈ rest, ∃ item, (w, item) ∈ a.mem.left) ∧ Results R node.info a' ∧
      HeapBeside R a.session.heap a'.session.heap ∧ a'.mem.right = a.mem.right ∧
      (∀ w ∈ rest, ∀ item, (w, item) ∈ a.mem.left → (w, item) ∈ a'.mem.left) ∧
      ∀ {w item}, (w, item) ∈ a'.mem.left → w ∉ rest →
        ∃ old, (w, old) ∈ a.mem.left ∧ after w old item
  have hstart : P (a.mem.left.map Prod.fst) a := by
    refine ⟨h.unique, ?_, h, .refl _ _, rfl, fun _ _ _ hitem ↦ hitem, fun hitem hnot ↦ ?_⟩
    · intro w hw
      obtain ⟨⟨w', item⟩, hitem, rfl⟩ := List.mem_map.mp hw
      exact ⟨item, hitem⟩
    · exact absurd (List.mem_map_of_mem hitem) hnot
  refine (Ends.forM (P := P) hstart ?_).mono ?_ fun _ _ h ↦ h
  · rintro w rest a₁ ⟨hnodup, hknown, hresults, hheap, hright, htodo, hdone⟩
    obtain ⟨item, hitem⟩ := hknown w List.mem_cons_self
    have hitem₁ := htodo w List.mem_cons_self item hitem
    obtain ⟨hw, hnodup⟩ := List.nodup_cons.mp hnodup
    refine (hbody hresults hitem₁).mono ?_ fun _ _ h ↦ h
    rintro - a₂ hstep
    refine ⟨hnodup, fun v hv ↦ hknown v (List.mem_cons_of_mem w hv), hstep.results,
      hheap.trans hstep.heap, hstep.right.trans hright, ?_, ?_⟩
    · intro v hv item' hitem'
      refine hstep.left.mpr (.inl ⟨?_, htodo v (List.mem_cons_of_mem w hv) item' hitem'⟩)
      rintro rfl
      exact hw hv
    · intro v item' hitem' hv
      rcases hstep.left.mp hitem' with ⟨hne, hin⟩ | ⟨rfl, rfl⟩
      · exact hdone hin fun hmem ↦ (List.mem_cons.mp hmem).elim hne hv
      · exact ⟨item, hitem, hafter hheap hright hitem⟩
  · rintro - a' ⟨-, -, hresults, hheap, hright, -, hdone⟩
    exact ⟨hresults, hheap, hright, fun hitem ↦ hdone hitem List.not_mem_nil⟩

end Activation

end RulesForge
