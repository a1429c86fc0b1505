import RulesForge.Engine.AccumulateItems
import RulesForge.Engine.AlphaHints

/-!
# The activations of an accumulate node

What an activation leaves in an accumulate node whose items are up to date: after a change of one
source fact the right memory holds the facts that it should, and every item stands for them
(`rightActivate_exact`). A fact that comes, and one that is modified, may have contributed anything
before; **a fact that goes must contribute what the items have of it**. The chain of alpha nodes in
front of the node makes of each change of a fact the change that the node is told
(`alphaChain_spec`).
-/

namespace RulesForge

open EStateM (Ends)

/-! ### The right memory -/

/-- The right memory holds the facts of a set, under their ids. -/
structure RightExact (ids : FactPtr → ℤ) (held : Set FactPtr) (right : List (ℤ × FactPtr)) :
    Prop where
  unique : AssocMap.Unique right
  mem : ∀ {id f}, (id, f) ∈ right ↔ f ∈ held ∧ id = ids f

namespace RightExact

variable {ids ids' : FactPtr → ℤ} {held : Set FactPtr} {right : List (ℤ × FactPtr)} {f : FactPtr}

theorem set_eq (h : RightExact ids held right) : {f | f ∈ right.map Prod.snd} = held := by
  ext f
  constructor
  · intro hf
    obtain ⟨⟨id, g⟩, hin, rfl⟩ := List.mem_map.mp hf
    exact (h.mem.mp hin).1
  · exact fun hf ↦ List.mem_map.mpr ⟨(ids f, f), h.mem.mpr ⟨hf, rfl⟩, rfl⟩

theorem nodup (h : RightExact ids held right) : (right.map Prod.snd).Nodup := by
  have hkeys : right.map Prod.fst = (right.map Prod.snd).map ids := by
    rw [List.map_map]
    exact List.map_congr_left fun entry hin ↦ (h.mem.mp hin).2
  have hunique : (right.map Prod.fst).Nodup := h.unique
  rw [hkeys] at hunique
  exact hunique.of_map ids

theorem congr (h : RightExact ids held right) (hids : ∀ f ∈ held, ids' f = ids f) :
    RightExact ids' held right :=
  ⟨h.unique, h.mem.trans (and_congr_right fun hf ↦ by rw [hids _ hf])⟩

theorem insert (h : RightExact ids held right) (hids : ∀ g ∈ held, ids g = ids f → g = f) :
    RightExact ids (insert f held) (AssocMap.insert (ids f) f right) := by
  refine ⟨h.unique.insert _ _, fun {id g} ↦ ?_⟩
  rw [AssocMap.mem_insert, h.mem, Set.mem_insert_iff]
  constructor
  · rintro (⟨-, hg, hid⟩ | ⟨hid, rfl⟩)
    · exact ⟨.inr hg, hid⟩
    · exact ⟨.inl rfl, hid⟩
  · rintro ⟨rfl | hg, rfl⟩
    · exact .inr ⟨rfl, rfl⟩
    · by_cases hgf : g = f
      · exact .inr ⟨by rw [hgf], hgf⟩
      · exact .inl ⟨fun heq ↦ hgf (hids g hg heq), hg, rfl⟩

/-- The facts of a batch are stored in turn. -/
theorem insertAll {facts : List FactPtr} (h : RightExact ids held right)
    (hids : ∀ f ∈ facts, ∀ g ∈ held ∪ {f | f ∈ facts}, ids g = ids f → g = f) :
    RightExact ids (held ∪ {f | f ∈ facts})
      (facts.foldl (fun right f ↦ AssocMap.insert (ids f) f right) right) := by
  induction facts generalizing held right with
  | nil => simpa using h
  | cons f facts ih =>
    have hset : held ∪ {g | g ∈ f :: facts} = Insert.insert f held ∪ {g | g ∈ facts} := by
      ext g
      simp only [List.mem_cons, Set.mem_union, Set.mem_ofPred_eq, Set.mem_insert_iff]
      tauto
    rw [hset] at hids ⊢
    rw [List.foldl_cons]
    refine ih (h.insert fun g hg ↦ hids f List.mem_cons_self g (.inl (.inr hg))) ?_
    exact fun g hg ↦ hids g (List.mem_cons_of_mem _ hg)

theorem erase (h : RightExact ids held right) (hids : ∀ g ∈ held, ids g = ids f → g = f) :
    RightExact ids (held \ {f}) (AssocMap.erase (ids f) right) := by
  refine ⟨h.unique.erase _, fun {id g} ↦ ?_⟩
  rw [AssocMap.mem_erase, h.mem, Set.mem_sdiff, Set.mem_singleton_iff]
  constructor
  · rintro ⟨hne, hg, rfl⟩
    exact ⟨⟨hg, fun heq ↦ hne (by rw [heq])⟩, rfl⟩
  · rintro ⟨⟨hg, hgf⟩, rfl⟩
    exact ⟨fun heq ↦ hgf (hids g hg heq), hg, rfl⟩

end RightExact

/-! ### Right activations -/

section Right

variable {kb : KnowledgeBase} {steps : ℕ} {node : AccumulateNode} {R : Set FactPtr}
  {a a' : AccumulateSession} {f : FactPtr} {held held' : Set FactPtr} {replaced : Set TokenWME}
  {type : PropagationType}

/-- What holds of a node before it is told of a change of the fact `f`: the items stand for what
the other facts contribute now, and, where the fact goes, for what it contributes now. -/
structure BeforeChange (kb : KnowledgeBase) (node : AccumulateNode) (R : Set FactPtr)
    (replaced : Set TokenWME) (f : FactPtr) (held held' : Set FactPtr) (type : PropagationType)
    (a : AccumulateSession) : Prop where
  results : Results R node.info a
  change : Change f held held' type
  others : ∀ g ≠ f, (g ∈ held' ↔ g ∈ held)
  notResult : f ∉ R
  right : RightExact (fun g ↦ (a.session.heap g).id) held a.mem.right
  ids : ∀ g ∈ held, (a.session.heap g).id = (a.session.heap f).id → g = f
  items : ∀ {w item}, (w, item) ∈ a.mem.left → w ∉ replaced →
    ∃ k, (∀ g ∈ held, g ≠ f ∨ type = .retract → k g = node.contribution kb a.session.heap w g) ∧
      ItemFor node.info k held item
  measured : ∀ {w item}, (w, item) ∈ a.mem.left → w ∉ replaced →
    Measured node.info (node.contribution kb a.session.heap w) (held ∪ held')
  insulated : ∀ {w item}, (w, item) ∈ a.mem.left → ∀ {heap},
    HeapBeside R a.session.heap heap → ∀ g ∈ held ∪ held',
      node.contribution kb heap w g = node.contribution kb a.session.heap w g

/-- What holds of it afterwards. -/
structure AfterChange (kb : KnowledgeBase) (node : AccumulateNode) (R : Set FactPtr)
    (replaced : Set TokenWME) (held' : Set FactPtr) (a a' : AccumulateSession) : Prop where
  results : Results R node.info a'
  heap : HeapBeside R a.session.heap a'.session.heap
  right : RightExact (fun g ↦ (a.session.heap g).id) held' a'.mem.right
  known : ∀ {w item}, (w, item) ∈ a'.mem.left → ∃ old, (w, old) ∈ a.mem.left
  items : ∀ {w item}, (w, item) ∈ a'.mem.left → w ∉ replaced →
    ItemFor node.info (node.contribution kb a.session.heap w) held' item

/-- Another right memory leaves every item published. -/
theorem Results.updateRight {info : ParsedAccumulate} (h : Results R info a)
    (right : List (ℤ × FactPtr)) :
    Results R info { a with mem := { a.mem with right := right } } :=
  h.congr rfl h.unique id

/-- The set of facts after a fact has come or has been modified. -/
theorem eq_insert (hothers : ∀ g ≠ f, (g ∈ held' ↔ g ∈ held)) (hf : f ∈ held') :
    held' = insert f held := by
  ext g
  by_cases hg : g = f
  · simp [hg, hf]
  · simp [hg, hothers g hg]

theorem eq_sdiff (hothers : ∀ g ≠ f, (g ∈ held' ↔ g ∈ held)) (hf : f ∉ held') :
    held' = held \ {f} := by
  ext g
  by_cases hg : g = f
  · simp [hg, hf]
  · simp [hg, hothers g hg]

/-- A fact that comes is added to the items. -/
theorem BeforeChange.comes (h : BeforeChange kb node R replaced f held held' .assert a)
    {w : TokenWME} {item : LeftMemoryItem} (hitem : (w, item) ∈ a.mem.left) (hw : w ∉ replaced)
    (hheap : HeapBeside R a.session.heap a'.session.heap) :
    ItemFor node.info (node.contribution kb a.session.heap w) held'
      (node.itemAfter kb true f a' w item) := by
  obtain ⟨hf, hf'⟩ : f ∉ held ∧ f ∈ held' := by
    cases h.change with
    | assert hf hf' => exact ⟨hf, hf'⟩
  have hheld' : held' = insert f held := eq_insert h.others hf'
  obtain ⟨k, hk, hfor⟩ := h.items hitem hw
  have hfor' : ItemFor node.info (node.contribution kb a.session.heap w) held item :=
    hfor.congr fun g hg ↦
    (hk g hg (.inl (ne_of_mem_of_not_mem hg hf))).symm
  have hsame := h.insulated hitem hheap f (.inr hf')
  have hmeasured := (h.measured hitem hw).mono (Set.subset_union_right (s := held))
  unfold AccumulateNode.itemAfter
  rw [hheld'] at hmeasured ⊢
  split
  · next hjoins =>
    rw [checkCondition_iff, hsame] at hjoins
    exact (hfor'.add hf (h.results.wme hitem) hsame.symm hjoins hmeasured).1
  · next hjoins =>
    rw [checkCondition_iff, hsame] at hjoins
    refine hfor'.of_iff fun g hg ↦ ?_
    rw [Set.mem_insert_iff, or_iff_right]
    rintro rfl
    exact hjoins hg

/-- A fact that goes is taken from the items. -/
theorem BeforeChange.goes (h : BeforeChange kb node R replaced f held held' .retract a)
    {w : TokenWME} {item : LeftMemoryItem} (hitem : (w, item) ∈ a.mem.left) (hw : w ∉ replaced)
    (hheap : HeapBeside R a.session.heap a'.session.heap) :
    ItemFor node.info (node.contribution kb a.session.heap w) held'
      (node.itemAfter kb false f a' w item) := by
  obtain ⟨hf, hf'⟩ : f ∈ held ∧ f ∉ held' := by
    cases h.change with
    | retract hf hf' => exact ⟨hf, hf'⟩
  have hheld' : held' = held \ {f} := eq_sdiff h.others hf'
  obtain ⟨k, hk, hfor⟩ := h.items hitem hw
  have hfor' : ItemFor node.info (node.contribution kb a.session.heap w) held item :=
    hfor.congr fun g hg ↦
    (hk g hg (.inr rfl)).symm
  have hsame := h.insulated hitem hheap f (.inl hf)
  have hmeasured := (h.measured hitem hw).mono (Set.subset_union_left (t := held'))
  unfold AccumulateNode.itemAfter
  rw [hheld']
  split
  · next hjoins =>
    rw [checkCondition_iff, hsame] at hjoins
    exact (hfor'.remove hf (h.results.wme hitem) hsame.symm hjoins hmeasured).1
  · next hjoins =>
    rw [checkCondition_iff, hsame] at hjoins
    refine hfor'.of_iff fun g hg ↦ ?_
    rw [Set.mem_sdiff, Set.mem_singleton_iff, and_iff_left]
    rintro rfl
    exact hjoins hg

/-- An item is computed anew. -/
theorem BeforeChange.rebuilt (h : BeforeChange kb node R replaced f held held' .modify a)
    {w : TokenWME} {item : LeftMemoryItem} (hitem : (w, item) ∈ a.mem.left) (hw : w ∉ replaced)
    (hheap : HeapBeside R a.session.heap a'.session.heap)
    (hright : RightExact (fun g ↦ (a.session.heap g).id) held' a'.mem.right) :
    ItemFor node.info (node.contribution kb a.session.heap w) held'
      (node.accumulateRight kb a' (ParsedAccumulate.resetItem item)) := by
  have hsame := fun g (hg : g ∈ held') ↦ h.insulated hitem hheap g (.inr hg)
  have hmeasured := ((h.measured hitem hw).mono (Set.subset_union_right (s := held))).congr hsame
  have hempty : ItemFor node.info (node.contribution kb a'.session.heap w) ∅
      (ParsedAccumulate.resetItem item) :=
    ⟨[], List.nodup_nil, fun g ↦ by simp, .empty⟩
  have hwme : (ParsedAccumulate.resetItem item).wme = w := by
    show item.wme = w
    exact h.results.wme hitem
  have hfor := accumulateRight_for (a := a') hwme hempty hright.nodup
    (by rwa [hright.set_eq])
  rw [hright.set_eq] at hfor
  exact hfor.congr fun g hg ↦ (hsame g hg).symm

/-- What the items are after the loop over the tokens. -/
def UpToDate (kb : KnowledgeBase) (node : AccumulateNode) (replaced : Set TokenWME)
    (held' : Set FactPtr) (a : AccumulateSession) (w : TokenWME) (_ item : LeftMemoryItem) : Prop :=
  w ∉ replaced → ItemFor node.info (node.contribution kb a.session.heap w) held' item

/-- A loop after which the items are up to date, with the right memory that belongs to them. -/
theorem AfterChange.of_swept {a₁ : AccumulateSession}
    (hswept : Swept R node.info (UpToDate kb node replaced held' a) a₁ a')
    (hsession : a₁.session = a.session) (hleft : a₁.mem.left = a.mem.left)
    {right : List (ℤ × FactPtr)}
    (hright : RightExact (fun g ↦ (a.session.heap g).id) held' right) :
    AfterChange kb node R replaced held' a
      { a' with mem := { a'.mem with right := right } } where
  results := hswept.results.updateRight right
  heap := hsession ▸ hswept.heap
  right := hright
  known hitem := by
    obtain ⟨old, hold, -⟩ := hswept.items hitem
    exact ⟨old, hleft ▸ hold⟩
  items hitem hw := by
    obtain ⟨_, _, hafter⟩ := hswept.items hitem
    exact hafter hw

/-- **One right activation.** -/
theorem rightActivate_exact (h : BeforeChange kb node R replaced f held held' type a) :
    (node.rightActivate kb steps f type).Ends a
      (fun _ ↦ AfterChange kb node R replaced held' a) fun _ _ ↦ True := by
  have hskip : ¬ (a.mem.left.any fun entry ↦ entry.2.resultFact = f) = true := by
    rw [List.any_eq_true]
    rintro ⟨⟨w, item⟩, hin, heq⟩
    have heq : item.resultFact = f := of_decide_eq_true heq
    exact h.notResult (heq ▸ h.results.mem hin)
  have hupdate : ∀ forward {a : AccumulateSession} {w : TokenWME} {item : LeftMemoryItem},
      Results R node.info a → (w, item) ∈ a.mem.left →
        (node.updateItem kb steps forward f w).Ends a
          (fun _ ↦ StepsTo R node.info w (node.itemAfter kb forward f a w item) a)
          fun _ _ ↦ True :=
    fun forward _ _ _ hresults hitem ↦ updateItem_ends hresults hitem forward f
  have hrebuild : ∀ {a : AccumulateSession} {w : TokenWME} {item : LeftMemoryItem},
      Results R node.info a → (w, item) ∈ a.mem.left →
        (node.rebuildItem kb steps w).Ends a
          (fun _ ↦ StepsTo R node.info w
            (node.accumulateRight kb a (ParsedAccumulate.resetItem item)) a) fun _ _ ↦ True :=
    fun hresults hitem ↦ rebuildItem_ends hresults hitem
  unfold AccumulateNode.rightActivate
  refine .bind (.get ?_)
  dsimp only
  rw [if_neg hskip]
  set id := (a.session.heap f).id with hid
  set a₁ : AccumulateSession :=
    { a with mem := { a.mem with right := AssocMap.insert id f a.mem.right } } with ha₁
  have hresults₁ : Results R node.info a₁ := h.results.updateRight _
  cases type with
  | assert =>
    obtain ⟨hf, hf'⟩ : f ∉ held ∧ f ∈ held' := by
      cases h.change with
      | assert hf hf' => exact ⟨hf, hf'⟩
    have hright := h.right.insert (f := f) h.ids
    rw [← eq_insert h.others hf'] at hright
    refine .bind (.modify ?_)
    have hloop := forM_swept (UpToDate kb node replaced held' a) hresults₁ (hupdate true)
      fun hheap _ hitem hw ↦ h.comes hitem hw hheap
    refine hloop.mono ?_ fun _ _ h ↦ h
    rintro - a' hswept
    have hafter := AfterChange.of_swept hswept rfl rfl hright
    have hsame : a'.mem.right = AssocMap.insert id f a.mem.right := hswept.right
    rwa [← hsame] at hafter
  | modify =>
    obtain ⟨hf, hf'⟩ : f ∈ held ∧ f ∈ held' := by
      cases h.change with
      | modify hf hf' => exact ⟨hf, hf'⟩
    have hright := h.right.insert (f := f) h.ids
    rw [← eq_insert h.others hf'] at hright
    refine .bind (.modify ?_)
    have hloop := forM_swept (UpToDate kb node replaced held' a) hresults₁ hrebuild
      fun hheap hsame hitem hw ↦ h.rebuilt hitem hw hheap (by rw [hsame]; exact hright)
    refine hloop.mono ?_ fun _ _ h ↦ h
    rintro - a' hswept
    have hafter := AfterChange.of_swept hswept rfl rfl hright
    have hsame : a'.mem.right = AssocMap.insert id f a.mem.right := hswept.right
    rwa [← hsame] at hafter
  | retract =>
    obtain ⟨hf, hf'⟩ : f ∈ held ∧ f ∉ held' := by
      cases h.change with
      | retract hf hf' => exact ⟨hf, hf'⟩
    have hin : AssocMap.contains id a.mem.right = true :=
      AssocMap.contains_iff.mpr ⟨f, h.right.mem.mpr ⟨hf, rfl⟩⟩
    have hright := h.right.erase (f := f) h.ids
    rw [← eq_sdiff h.others hf'] at hright
    rw [if_pos hin]
    have hloop := forM_swept (UpToDate kb node replaced held' a) h.results
      (hupdate false) fun hheap _ hitem hw ↦ h.goes hitem hw hheap
    refine .bind (hloop.mono ?_ fun _ _ h ↦ h)
    rintro - a' hswept
    refine .modify ?_
    have hafter := AfterChange.of_swept hswept rfl rfl hright
    rw [← hswept.right] at hafter
    exact hafter

/-- What holds of a node before it gets a batch of new facts. -/
structure BeforeBatch (kb : KnowledgeBase) (node : AccumulateNode) (R : Set FactPtr)
    (replaced : Set TokenWME) (facts : List FactPtr) (held : Set FactPtr)
    (a : AccumulateSession) : Prop where
  results : Results R node.info a
  nodup : facts.Nodup
  new : ∀ f ∈ facts, f ∉ held
  right : RightExact (fun g ↦ (a.session.heap g).id) held a.mem.right
  ids : ∀ f ∈ facts, ∀ g ∈ held ∪ {f | f ∈ facts},
    (a.session.heap g).id = (a.session.heap f).id → g = f
  items : ∀ {w item}, (w, item) ∈ a.mem.left → w ∉ replaced →
    ItemFor node.info (node.contribution kb a.session.heap w) held item
  measured : ∀ {w item}, (w, item) ∈ a.mem.left → w ∉ replaced →
    Measured node.info (node.contribution kb a.session.heap w) (held ∪ {f | f ∈ facts})
  insulated : ∀ {w item}, (w, item) ∈ a.mem.left → ∀ {heap},
    HeapBeside R a.session.heap heap → ∀ g ∈ held ∪ {f | f ∈ facts},
      node.contribution kb heap w g = node.contribution kb a.session.heap w g

/-- The facts of a batch are added to the items. -/
theorem BeforeBatch.comes {facts : List FactPtr} (h : BeforeBatch kb node R replaced facts held a)
    {w : TokenWME} {item : LeftMemoryItem} (hitem : (w, item) ∈ a.mem.left) (hw : w ∉ replaced)
    (hheap : HeapBeside R a.session.heap a'.session.heap) :
    ItemFor node.info (node.contribution kb a.session.heap w) (held ∪ {f | f ∈ facts})
      (node.accumulateAll kb a'.session facts item) := by
  have hsame := fun g hg ↦ h.insulated hitem hheap g hg
  have hfor : ItemFor node.info (node.contribution kb a'.session.heap w) held item :=
    (h.items hitem hw).congr fun g hg ↦ hsame g (.inl hg)
  have hall := hfor.addAll (h.results.wme hitem) h.nodup h.new
    ((h.measured hitem hw).congr hsame)
  exact hall.congr fun g hg ↦ (hsame g hg).symm

/-- **A right activation with a batch.** -/
theorem rightActivateBatch_exact {facts : List FactPtr}
    (h : BeforeBatch kb node R replaced facts held a) :
    (node.rightActivateBatch kb steps facts).Ends a
      (fun _ ↦ AfterChange kb node R replaced (held ∪ {f | f ∈ facts}) a) fun _ _ ↦ True := by
  unfold AccumulateNode.rightActivateBatch
  refine .bind (.get (.bind (.modify ?_)))
  set right := facts.foldl (fun right f ↦ AssocMap.insert (a.session.heap f).id f right)
    a.mem.right with hright
  have hresults : Results R node.info { a with mem := { a.mem with right := right } } :=
    h.results.updateRight _
  have hloop := forM_swept (UpToDate kb node replaced (held ∪ {f | f ∈ facts}) a) hresults
    (show ∀ {b w item}, Results R node.info b → (w, item) ∈ b.mem.left →
        (node.updateItemBatch kb steps facts w).Ends b _ _ from
      fun hresults hitem ↦ updateItemBatch_ends hresults hitem facts)
    fun hheap _ hitem hw ↦ h.comes hitem hw hheap
  refine hloop.mono ?_ fun _ _ h ↦ h
  rintro - a' hswept
  have hafter := AfterChange.of_swept hswept rfl rfl (h.right.insertAll h.ids)
  have hsame : a'.mem.right = right := hswept.right
  rw [← hright, ← hsame] at hafter
  exact hafter

end Right

/-! ### Left activations -/

section Left

variable {kb : KnowledgeBase} {steps : ℕ} {node : AccumulateNode} {R : Set FactPtr}
  {a a' : AccumulateSession} {w : TokenWME} {held : Set FactPtr} {allocate : Session → FactPtr}

/-- A change of the session that leaves the result facts alone leaves every item published. -/
theorem Results.outside {info : ParsedAccumulate} (h : Results R info a) {session : Session}
    (htms : session.tms = {})
    (hnextId : a.session.workingMemory.nextId ≤ session.workingMemory.nextId)
    (hheap : ∀ {w item}, (w, item) ∈ a.mem.left →
      session.heap item.resultFact = a.session.heap item.resultFact)
    (hget : ∀ {w item}, (w, item) ∈ a.mem.left →
      session.workingMemory.get (a.session.heap item.resultFact).id =
        a.session.workingMemory.get (a.session.heap item.resultFact).id) :
    Results R info { a with session := session } where
  tms := htms
  nextId_pos := h.nextId_pos.trans_le hnextId
  unique := h.unique
  wme := h.wme
  mem := h.mem
  distinct := h.distinct
  published {w item} hitem := by
    have hpublished := h.published hitem
    have hlt := hpublished.lt
    have hsame := hheap hitem
    refine ⟨hpublished.zero, ?_, ?_, ?_, ?_⟩ <;> dsimp only <;> rw [hsame]
    · exact hpublished.id
    · omega
    · rw [hget hitem]
      exact hpublished.get
    · exact hpublished.result

/-- A token that the node knows is ignored when it comes again. -/
theorem leftActivate_known {type : PropagationType} (htype : type ≠ .retract)
    (hknown : AssocMap.contains w a.mem.left = true) :
    (node.leftActivate kb steps allocate w type).Ends a (fun _ a' ↦ a' = a) fun _ _ ↦ True := by
  unfold AccumulateNode.leftActivate
  refine .bind (.get ?_)
  rw [if_neg htype, if_pos hknown]
  exact .pure rfl

/-- **A token comes**: its item stands for the facts of the right memory. -/
theorem leftActivate_enters {type : PropagationType} (h : Results R node.info a)
    (htype : type ≠ .retract) (hnew : AssocMap.contains w a.mem.left = false)
    (hR : allocate a.session ∈ R) (hzero : allocate a.session ≠ 0)
    (hfresh : ∀ {w item}, (w, item) ∈ a.mem.left → item.resultFact ≠ allocate a.session)
    (hright : RightExact (fun g ↦ (a.session.heap g).id) held a.mem.right)
    (hmeasured : Measured node.info (node.contribution kb a.session.heap w) held)
    (hinsulated : ∀ {heap}, HeapBeside R a.session.heap heap → ∀ g ∈ held,
      node.contribution kb heap w g = node.contribution kb a.session.heap w g) :
    (node.leftActivate kb steps allocate w type).Ends a
      (fun _ a' ↦ Results R node.info a' ∧ HeapBeside R a.session.heap a'.session.heap ∧
        a'.mem.right = a.mem.right ∧ ∀ {v item}, (v, item) ∈ a'.mem.left →
          v ≠ w ∧ (v, item) ∈ a.mem.left ∨
            v = w ∧ ItemFor node.info (node.contribution kb a.session.heap w) held item)
      fun _ _ ↦ True := by
  set p := allocate a.session with hp
  unfold AccumulateNode.leftActivate
  refine .bind (.get ?_)
  rw [if_neg htype, if_neg (by rw [hnew]; exact Bool.false_ne_true)]
  dsimp only
  refine .bind (callSession_ends fun hok ↦ ?_)
  unfold AccumulateNode.createResultFact at hok ⊢
  cases hname : kb.canonicalizeTypeName node.resultFactType with
  | none =>
    rw [hname] at hok
    cases hok
  | some name =>
    dsimp only
    -- The result fact is a fresh one, without an id.
    set s₁ : Session :=
      { a.session with heap := Function.update a.session.heap p { type := name } } with hs₁
    set a₁ : AccumulateSession := { a with session := s₁ } with ha₁
    have hheap₁ : HeapBeside R a.session.heap s₁.heap :=
      (HeapBeside.update a.session.heap p _).mono (Set.singleton_subset_iff.mpr hR)
    have hresults₁ : Results R node.info a₁ := by
      refine h.outside h.tms (le_refl _) (fun hitem ↦ ?_) fun _ ↦ rfl
      exact Function.update_of_ne (hfresh hitem) _ _
    have hid₁ : (s₁.heap p).id = 0 := by
      rw [hs₁]
      simp
    refine .bind (.get (.bind (.modify ?_)))
    set item := node.accumulateRight kb a₁ { wme := w, resultFact := p } with hitem
    have hfact : item.resultFact = p := accumulateRight_resultFact _ _ _
    have hwme : item.wme = w := accumulateRight_wme _ _ _
    have hsame := fun g (hg : g ∈ held) ↦ hinsulated hheap₁ g hg
    have hfor : ItemFor node.info (node.contribution kb s₁.heap w) held item := by
      have hempty : ItemFor node.info (node.contribution kb s₁.heap w) ∅
          { wme := w, resultFact := p } := ⟨[], List.nodup_nil, fun g ↦ by simp, .empty⟩
      have hfor := accumulateRight_for (a := a₁) (w := w) rfl hempty hright.nodup
        (by rw [hright.set_eq]; exact hmeasured.congr hsame)
      rwa [hright.set_eq] at hfor
    refine (hresults₁.publish hwme (hfact ▸ hR)
      ⟨h.tms, h.nextId_pos, hfact ▸ hzero, .inl (by rw [hfact]; exact hid₁)⟩
      fun hin heq ↦ absurd (heq.trans hfact) (hfresh hin)).mono ?_ fun _ _ h ↦ h
    rintro - a' ⟨hresults, hmem, hheap⟩
    refine ⟨hresults, hheap₁.trans hheap, by rw [hmem]; rfl, fun {v item'} hin ↦ ?_⟩
    rw [hmem] at hin
    rcases AssocMap.mem_insert.mp hin with hin | ⟨rfl, rfl⟩
    · exact .inl hin
    · exact .inr ⟨rfl, hfor.congr fun g hg ↦ (hsame g hg).symm⟩

/-- **A token goes**, and its item with it. -/
theorem leftActivate_leaves (h : Results R node.info a) :
    (node.leftActivate kb steps allocate w .retract).Ends a
      (fun _ a' ↦ Results R node.info a' ∧ HeapBeside R a.session.heap a'.session.heap ∧
        a'.mem.right = a.mem.right ∧ ∀ {v item}, (v, item) ∈ a'.mem.left →
          v ≠ w ∧ (v, item) ∈ a.mem.left) fun _ _ ↦ True := by
  unfold AccumulateNode.leftActivate
  refine .bind (.get ?_)
  rw [if_pos rfl]
  cases hlookup : a.mem.left.lookup w with
  | none =>
    refine .pure ⟨h, .refl _ _, rfl, fun {v item} hin ↦ ⟨?_, hin⟩⟩
    rintro rfl
    exact AssocMap.lookup_eq_none_iff.mp hlookup item hin
  | some item =>
    have hitem := AssocMap.mem_of_lookup hlookup
    have hpublished := h.published hitem
    dsimp only
    refine .bind (callSession_ends fun _ ↦ .modify ?_)
    set s₁ := (retractFact kb (logicalRetract kb steps) item.resultFact a.session).1 with hs₁
    have hbeside : Beside item.resultFact a.session s₁ := retractFact_result h.tms hpublished.get
    have hleft : ∀ {v item'}, (v, item') ∈ AssocMap.erase w a.mem.left →
        v ≠ w ∧ (v, item') ∈ a.mem.left := fun hin ↦ AssocMap.mem_erase.mp hin
    refine ⟨⟨hbeside.tms, h.nextId_pos.trans_le hbeside.nextId, h.unique.erase w,
      fun hin ↦ h.wme (hleft hin).2, fun hin ↦ h.mem (hleft hin).2,
      fun hin hin' ↦ h.distinct (hleft hin).2 (hleft hin').2, fun hin ↦ ?_⟩,
      hbeside.heap.mono (Set.singleton_subset_iff.mpr (h.mem hitem)), rfl, hleft⟩
    obtain ⟨hne, hin⟩ := hleft hin
    exact (h.published hin).beside hbeside (fun heq ↦ hne (h.distinct hin hitem heq))
      (.inr hpublished.get)

end Left

end RulesForge
