import RulesForge.Rete.TestReads

/-!
# The invariant of a session

What holds of a session between the operations of its client: the network is settled for the
facts in working memory, every fact there is stored under its id, and ids are unique among the
facts the session **knows**, those in working memory and those that were there before. Each of
`addFact`, `retractFact`, `updateFact` and `propagateModify` keeps the invariant.

No fact is logically inserted in the sessions considered here, so the justifications are
empty and the withdrawal of a token does nothing (`logicalRetract_eq`).
-/

namespace RulesForge

/-! ### Assignment of ids -/

/-- Ids are given to facts that have none; nothing else changes. -/
structure IdsAssigned (state state' : Heap × ℤ) : Prop where
  fields : ∀ f, (state'.1 f).fields = (state.1 f).fields
  type : ∀ f, (state'.1 f).type = (state.1 f).type
  id : ∀ {f}, (state.1 f).id ≠ 0 → (state'.1 f).id = (state.1 f).id
  le : state.2 ≤ state'.2

namespace IdsAssigned

theorem refl (state : Heap × ℤ) : IdsAssigned state state :=
  ⟨fun _ ↦ rfl, fun _ ↦ rfl, fun _ ↦ rfl, le_rfl⟩

theorem trans {s s' s'' : Heap × ℤ} (h : IdsAssigned s s') (h' : IdsAssigned s' s'') :
    IdsAssigned s s'' where
  fields f := (h'.fields f).trans (h.fields f)
  type f := (h'.type f).trans (h.type f)
  id hf := (h'.id (by rwa [h.id hf])).trans (h.id hf)
  le := h.le.trans h'.le

end IdsAssigned

theorem assignId_assigned (fact : FactPtr) (state : Heap × ℤ) :
    IdsAssigned state (assignId fact state) := by
  obtain ⟨heap, nextId⟩ := state
  unfold assignId
  dsimp only
  split
  · next hzero =>
    refine ⟨fun f ↦ ?_, fun f ↦ ?_, fun {f} hf ↦ ?_, by simp⟩
    · by_cases hfact : f = fact
      · subst hfact
        simp
      · simp [hfact]
    · by_cases hfact : f = fact
      · subst hfact
        simp
      · simp [hfact]
    · have hfact : f ≠ fact := by
        rintro rfl
        exact hf hzero
      simp [hfact]
  · split
    · next hle => exact ⟨fun _ ↦ rfl, fun _ ↦ rfl, fun _ ↦ rfl, by dsimp only; omega⟩
    · exact IdsAssigned.refl _

/-- The fact itself gets an id below the counter. -/
theorem assignId_self (fact : FactPtr) (state : Heap × ℤ) (hpos : 0 < state.2) :
    ((assignId fact state).1 fact).id ≠ 0 ∧
      ((assignId fact state).1 fact).id < (assignId fact state).2 ∧
      ((state.1 fact).id = 0 → ((assignId fact state).1 fact).id = state.2) := by
  obtain ⟨heap, nextId⟩ := state
  unfold assignId
  dsimp only at hpos ⊢
  split
  · simp only [Function.update_self]
    refine ⟨by omega, by omega, fun _ ↦ trivial⟩
  · next hne =>
    split
    · exact ⟨hne, by dsimp only; omega, fun h ↦ absurd h hne⟩
    · next hlt => exact ⟨hne, by dsimp only; omega, fun h ↦ absurd h hne⟩

theorem assignNestedIds_assigned (depth : ℕ) (fact : FactPtr) (state : Heap × ℤ) :
    IdsAssigned state (assignNestedIds depth fact state) := by
  induction depth generalizing fact state with
  | zero => exact IdsAssigned.refl state
  | succ depth ih =>
    have hfold : ∀ (l : List FactPtr) (state : Heap × ℤ),
        IdsAssigned state (l.foldl (fun state p ↦ assignNestedIds depth p state) state) := by
      intro l
      induction l with
      | nil => exact IdsAssigned.refl
      | cons p l ihl => exact fun state ↦ (ih p state).trans (ihl _)
    exact (assignId_assigned fact state).trans (hfold _ _)

/-! ### The invariant -/

/-- The facts in working memory. -/
def Session.facts (s : Session) : Set FactPtr :=
  {f | ∃ id, (id, f) ∈ s.workingMemory.facts}

/-- The roots of the beta network. -/
def KnowledgeBase.roots (kb : KnowledgeBase) : Set ℕ :=
  {n | n ∈ kb.network.betaRootNodes}

/-- Working memory and ids, and the absence of justifications. -/
structure StoreInv (kb : KnowledgeBase) (known : Set FactPtr) (s : Session) : Prop where
  unique : AssocMap.Unique s.workingMemory.facts
  id_eq : ∀ {id f}, (id, f) ∈ s.workingMemory.facts → (s.heap f).id = id
  known_facts : s.facts ⊆ known
  known_id : ∀ f ∈ known, f ≠ 0 ∧ 0 < (s.heap f).id ∧ (s.heap f).id < s.workingMemory.nextId
  id_injOn : Set.InjOn (fun f ↦ (s.heap f).id) known
  nextId_pos : 0 < s.workingMemory.nextId
  plain : ∀ f ∈ s.facts, PlainReads kb.network s.heap f
  canonical : ∀ f ∈ s.facts, kb.canonicalizeTypeName (s.heap f).type = some (s.heap f).type
  tms : s.tms = {}

/-- The memories are exact for working memory, each fact having come through its entry point. -/
structure SessionInv (kb : KnowledgeBase) (source : FactPtr → Option String)
    (known : Set FactPtr) (s : Session) : Prop extends StoreInv kb known s where
  settled : Settled kb s source s.facts kb.roots s.mem
  hint : s.currentModifiedFields = none

/-- What the results below assume of a knowledge base. -/
structure KnowledgeBase.Sound (kb : KnowledgeBase) : Prop where
  wellFormed : kb.network.WellFormed
  keysFromJoins : kb.network.KeysFromJoins
  localExpressions : LocalExpressions kb

variable {kb : KnowledgeBase} {source : FactPtr → Option String} {known : Set FactPtr}
  {s : Session} {steps : ℕ}

theorem logicalRetract_eq (htms : s.tms = {}) (w : TokenWME) :
    logicalRetract kb steps w s = s := by
  cases steps with
  | zero => rfl
  | succ steps =>
    have hremove : s.tms.removeJustificationsByToken w = (s.tms, []) := by
      rw [htms]
      rfl
    simp [logicalRetract, hremove]

theorem StoreInv.contains_iff (h : StoreInv kb known s) {f : FactPtr} (hf : f ∈ known) :
    s.workingMemory.contains (s.heap f).id = true ↔ f ∈ s.facts := by
  rw [WorkingMemory.contains, AssocMap.contains_iff]
  constructor
  · rintro ⟨g, hg⟩
    have hgf := h.id_injOn (h.known_facts ⟨_, hg⟩) hf (h.id_eq hg)
    exact hgf ▸ ⟨_, hg⟩
  · rintro ⟨id, hid⟩
    exact ⟨f, h.id_eq hid ▸ hid⟩

theorem StoreInv.congr {s' : Session} (h : StoreInv kb known s) (hheap : s'.heap = s.heap)
    (hstore : s'.workingMemory = s.workingMemory) (htms : s'.tms = s.tms) :
    StoreInv kb known s' := by
  have hfacts : s'.facts = s.facts := by rw [Session.facts, hstore, Session.facts]
  refine ⟨?_, ?_, ?_, ?_, ?_, ?_, ?_, ?_, htms.trans h.tms⟩
  · rw [hstore]
    exact h.unique
  · rw [hstore, hheap]
    exact h.id_eq
  · rw [hfacts]
    exact h.known_facts
  · rw [hstore, hheap]
    exact h.known_id
  · rw [hheap]
    exact h.id_injOn
  · rw [hstore]
    exact h.nextId_pos
  · rw [hfacts, hheap]
    exact h.plain
  · rw [hfacts, hheap]
    exact h.canonical

/-- The parts of the base that the invariant speaks of. -/
theorem base_parts {s s' : Session} (hbase : s'.base = s.base) :
    s'.heap = s.heap ∧ s'.workingMemory = s.workingMemory ∧ s'.tms = s.tms ∧
      s'.currentModifiedFields = s.currentModifiedFields := by
  change s'.base.heap = s.base.heap ∧ s'.base.workingMemory = s.base.workingMemory ∧
    s'.base.tms = s.base.tms ∧ s'.base.currentModifiedFields = s.base.currentModifiedFields
  rw [hbase]
  exact ⟨rfl, rfl, rfl, rfl⟩

theorem facts_of_base {s s' : Session} (hbase : s'.base = s.base) : s'.facts = s.facts := by
  rw [Session.facts, (base_parts hbase).2.1, Session.facts]

theorem StoreInv.of_base {s' : Session} (h : StoreInv kb known s) (hbase : s'.base = s.base) :
    StoreInv kb known s' :=
  h.congr (base_parts hbase).1 (base_parts hbase).2.1 (base_parts hbase).2.2.1

/-- The rest of the session plays no part. -/
theorem SessionInv.congr {s' : Session} (h : SessionInv kb source known s) (hheap : s'.heap = s.heap)
    (hmem : s'.mem = s.mem) (hstore : s'.workingMemory = s.workingMemory) (htms : s'.tms = s.tms)
    (hhint : s'.currentModifiedFields = none) : SessionInv kb source known s' := by
  refine ⟨h.toStoreInv.congr hheap hstore htms, ?_, hhint⟩
  rw [Session.facts, hstore, hmem]
  exact h.settled.of_heap hheap

variable {source' : FactPtr → Option String} {p : FactPtr}

theorem SessionInv.of_source (h : SessionInv kb source known s)
    (hsource : ∀ f ∈ s.facts, source' f = source f) : SessionInv kb source' known s :=
  ⟨h.toStoreInv, h.settled.of_source hsource, h.hint⟩

/-- The scene of a change, in a session with the given base. -/
def changeScene (hkb : kb.Sound) (base : Session) (facts : Set FactPtr) (p : FactPtr)
    (steps : ℕ) (hid : Set.InjOn (fun f ↦ (base.heap f).id) facts)
    (hplain : ∀ f ∈ facts, PlainReads kb.network base.heap f) (htms : base.tms = {}) :
    Scene kb where
  base := base
  facts := facts
  changed := p
  logicalRetract := logicalRetract kb steps
  id_injOn := hid
  callback w s hs := by
    refine logicalRetract_eq ?_ w
    change s.base.tms = {}
    rw [hs, htms]
  plain f hf field hfield v hv :=
    hplain f hf field (hfield.testField _ hkb.keysFromJoins) v (.inl hv)

/-- An entry point gets a fact, if there is one. -/
def activateEntry (kb : KnowledgeBase) (logicalRetract : TokenWME → Session → Session)
    (source : Option String) (fact : FactPtr) (type : PropagationType) (s : Session) : Session :=
  (kb.network.entry source (s.heap fact).type).elim s fun e ↦
    rightActivate kb logicalRetract (kb.network.nodes.length + 1) e fact type s

theorem activateEntryPoint_eq (kb : KnowledgeBase) (logicalRetract : TokenWME → Session → Session)
    (fact : FactPtr) (type : PropagationType) (s : Session) :
    activateEntryPoint kb logicalRetract fact type s =
      activateEntry kb logicalRetract none fact type s := by
  unfold activateEntryPoint activateEntry CompiledNetwork.entry
  cases kb.network.alphaEntryPoints.lookup (s.heap fact).type <;> rfl

theorem requireEntryPointRoute_ok_iff {streamName factType : String} {entry : ℕ} :
    requireEntryPointRoute kb streamName factType = .ok entry ↔
      kb.network.entry (some streamName) factType = some entry := by
  unfold requireEntryPointRoute CompiledNetwork.entry
  cases hstream : kb.network.namedEntryPoints.lookup streamName with
  | none => simp [hstream]
  | some types => cases htype : types.lookup factType <;> simp [hstream, htype]

/-- The activation of the entry point of a fact, in a session whose store has been changed
already. -/
theorem SessionInv.activate (hkb : kb.Sound) (h : SessionInv kb source known s) (steps : ℕ)
    (hsource : ∀ f ∈ s.facts, source' f = source f)
    {known' : Set FactPtr} {s₁ : Session} (hstore : StoreInv kb known' s₁) (hknown : s.facts ⊆ known')
    (hmem : s₁.mem = s.mem) {type : PropagationType}
    (hsame : SameTests kb s s₁ s.facts p) (hkeys : KeysKept kb s s₁ p s.mem)
    (hother : ∀ f ≠ p, (f ∈ s₁.facts ↔ f ∈ s.facts)) (hchange : Change p s.facts s₁.facts type)
    (hplain : PlainReads kb.network s₁.heap p)
    (hhint : ∀ {n c}, kb.network.kind n = .alpha c →
      alphaConstraintAffected c s₁.currentModifiedFields = false →
        checkConstraint kb.runtime s₁.heap c p = checkConstraint kb.runtime s.heap c p) :
    let s' := activateEntry kb (logicalRetract kb steps) (source' p) p type s₁
    Settled kb s₁ source' s₁.facts kb.roots s'.mem ∧ s'.base = s₁.base := by
  have hp : p ∈ known' := hchange.mem hknown hstore.known_facts
  have hsub : insert p s₁.facts ⊆ known' := Set.insert_subset hp hstore.known_facts
  have hplain' : ∀ f ∈ insert p s₁.facts, PlainReads kb.network s₁.heap f := by
    rintro f (rfl | hf)
    · exact hplain
    · exact hstore.plain f hf
  set S := changeScene hkb s₁.base (insert p s₁.facts) p steps (hstore.id_injOn.mono hsub)
    hplain' hstore.tms with hS
  have hfacts : s.facts ⊆ S.facts := by
    intro f hf
    by_cases hfp : f = p
    · exact .inl hfp
    · exact .inr ((hother f hfp).mpr hf)
  obtain ⟨hsettled, hbase⟩ := rightActivate_settled (S := S) hkb.wellFormed
    (hmem ▸ h.settled.of_source hsource) rfl ⟨hsame.id, hsame.type, hsame.alpha, hsame.join, hsame.key⟩
    ⟨fun hkind hleft ↦ hkeys.left hkind (hmem ▸ hleft),
      fun hkind hright ↦ hkeys.right hkind (hmem ▸ hright)⟩
    hfacts (Set.subset_insert p _) hother hchange hhint
  exact ⟨hsettled.of_heap (show s₁.heap = S.base.heap from rfl), hbase⟩

/-! ### Adding a fact -/

theorem PlainReads.congr {net : CompiledNetwork} {heap heap' : Heap} {f : FactPtr}
    (hreads : SameReads heap heap' f) (h : PlainReads net heap f) : PlainReads net heap' f := by
  intro field hfield v hv
  rw [hreads.getField, hreads.alphaField] at hv
  exact h field hfield v hv

/-- A new id is plain, and all other reads are as before. -/
theorem PlainReads.of_fields {net : CompiledNetwork} {heap heap' : Heap} {f : FactPtr}
    (hfields : ∀ g, (heap' g).fields = (heap g).fields) (h : PlainReads net heap f) :
    PlainReads net heap' f := by
  intro field hfield v hv
  by_cases hthis : field = "this"
  · subst hthis
    have hread : v = .int64 (heap' f).id := by
      rcases hv with hv | hv
      · rw [getField, if_pos rfl] at hv
        exact (Option.some.inj hv).symm
      · have hpath : isPath "this" = false := by decide
        rw [alphaField, if_neg (by rw [hpath]; exact fun h ↦ Bool.noConfusion h.1), if_pos rfl] at hv
        exact (Option.some.inj hv).symm
    rw [hread]
    rfl
  · refine h field hfield v ?_
    simpa only [getField, alphaField, hthis, hfields, getFieldFrom_congr hfields, if_false] using hv

/-- The heap after the assignment of ids. -/
theorem assignIds_spec (kb : KnowledgeBase) (fact : FactPtr) (s : Session)
    (hpos : 0 < s.workingMemory.nextId) :
    let s' := assignIds kb fact s
    IdsAssigned (s.heap, s.workingMemory.nextId) (s'.heap, s'.workingMemory.nextId) ∧
      (s'.heap fact).id ≠ 0 ∧ (s'.heap fact).id < s'.workingMemory.nextId ∧
      ((s.heap fact).id = 0 → (s'.heap fact).id = s.workingMemory.nextId) := by
  set state : Heap × ℤ := (s.heap, s.workingMemory.nextId) with hstate
  obtain ⟨hne, hlt, hfresh⟩ := assignId_self fact state hpos
  have hfirst := assignId_assigned fact state
  have hrest := assignNestedIds_assigned kb.nestingLimit fact (assignId fact state)
  have hid := hrest.id hne
  refine ⟨hfirst.trans hrest, ?_, ?_, fun h ↦ ?_⟩
  · exact fun h ↦ hne (hid ▸ h)
  · exact lt_of_eq_of_lt hid (hlt.trans_le hrest.le)
  · exact hid.trans (hfresh h)

theorem writeType_heap (fact f : FactPtr) (name : String) (s : Session) :
    ((writeType fact name s).heap f).fields = (s.heap f).fields ∧
      ((writeType fact name s).heap f).id = (s.heap f).id ∧
      (f ≠ fact → ((writeType fact name s).heap f).type = (s.heap f).type) ∧
      (f = fact → ((writeType fact name s).heap f).type = name) := by
  by_cases hf : f = fact
  · subst hf
    simp [writeType]
  · simp [writeType, hf]

/-- A change of the heap outside of working memory. -/
theorem SessionInv.of_reads (hkb : kb.Sound) (h : SessionInv kb source known s) {s' : Session}
    {fact : FactPtr} (hfact : fact ∉ s.facts) (hmem : s'.mem = s.mem)
    (hstore : s'.workingMemory = s.workingMemory) (htms : s'.tms = s.tms)
    (hhint : s'.currentModifiedFields = none)
    (hid : ∀ f ∈ known, (s'.heap f).id = (s.heap f).id)
    (htype : ∀ f ∈ s.facts, (s'.heap f).type = (s.heap f).type)
    (hreads : ∀ f ∈ s.facts, SameReads s.heap s'.heap f) : SessionInv kb source known s' := by
  have hfacts : s'.facts = s.facts := by rw [Session.facts, hstore, Session.facts]
  have hsame : SameTests kb s s' s.facts fact :=
    sameTests_of_reads hkb.localExpressions (fun f hf ↦ hid f (h.known_facts hf)) htype
      (fun f hf _ ↦ hreads f hf) fun f hf _ ↦ h.plain f hf
  refine ⟨⟨?_, ?_, ?_, ?_, ?_, ?_, ?_, ?_, htms.trans h.tms⟩, ?_, hhint⟩
  · rw [hstore]
    exact h.unique
  · intro id f hmem
    rw [hstore] at hmem
    rw [hid f (h.known_facts ⟨id, hmem⟩)]
    exact h.id_eq hmem
  · rw [hfacts]
    exact h.known_facts
  · intro f hf
    rw [hstore, hid f hf]
    exact h.known_id f hf
  · intro f hf g hg heq
    refine h.id_injOn hf hg ?_
    simpa only [hid f hf, hid g hg] using heq
  · rw [hstore]
    exact h.nextId_pos
  · intro f hf
    rw [hfacts] at hf
    exact (h.plain f hf).congr (hreads f hf)
  · intro f hf
    rw [hfacts] at hf
    rw [htype f hf]
    exact h.canonical f hf
  · rw [hfacts, hmem]
    exact h.settled.congr hsame hfact

theorem facts_insertWorkingMemory {fact : FactPtr} {s₁ : Session}
    (hfresh : ∀ g, ((s₁.heap fact).id, g) ∉ s₁.workingMemory.facts) :
    (insertWorkingMemory fact s₁).facts = insert fact s₁.facts := by
  ext f
  simp only [Session.facts, insertWorkingMemory, Set.mem_insert_iff, Set.mem_ofPred_eq,
    AssocMap.mem_insert]
  constructor
  · rintro ⟨id, ⟨-, hmem⟩ | ⟨-, rfl⟩⟩
    · exact .inr ⟨id, hmem⟩
    · exact .inl rfl
  · rintro (rfl | ⟨id, hmem⟩)
    · exact ⟨_, .inr ⟨rfl, rfl⟩⟩
    · refine ⟨id, .inl ⟨?_, hmem⟩⟩
      rintro rfl
      exact hfresh f hmem

/-- The session in which a fact is in working memory, and the network does not know yet. -/
def enterFact (kb : KnowledgeBase) (fact : FactPtr) (name : String) (s : Session) : Session :=
  insertWorkingMemory fact (assignIds kb fact (writeType fact name s))

/-- What entering a fact does to the heap and to working memory. -/
structure Entered (known : Set FactPtr) (fact : FactPtr) (name : String) (s s' : Session) :
    Prop where
  facts : s'.facts = insert fact s.facts
  fields : ∀ f, (s'.heap f).fields = (s.heap f).fields
  type : ∀ f ≠ fact, (s'.heap f).type = (s.heap f).type
  name : (s'.heap fact).type = name
  id : ∀ f ∈ known, (s'.heap f).id = (s.heap f).id

section Enter

variable {fact : FactPtr} {name : String} (h : StoreInv kb known s) (hzero : fact ≠ 0)
  (hnew : fact ∉ s.facts)
  (hid : (s.heap fact).id = 0 ∨ fact ∈ known)
include h hnew hid

theorem StoreInv.entered : Entered known fact name s (enterFact kb fact name s) := by
  set s₀ := writeType fact name s with hs₀
  obtain ⟨hassigned, hne, hlt, hfresh⟩ := assignIds_spec kb fact s₀ h.nextId_pos
  have hheap : ∀ f, (enterFact kb fact name s).heap f =
      (assignIds kb fact s₀).heap f := fun _ ↦ rfl
  have hkept : ∀ f ∈ known, ((assignIds kb fact s₀).heap f).id = (s.heap f).id := by
    intro f hf
    have hf₀ : (s₀.heap f).id = (s.heap f).id := (writeType_heap fact f name s).2.1
    have hpos := (h.known_id f hf).2.1
    exact (hassigned.id (by rw [hf₀]; omega)).trans hf₀
  -- The id of the new fact is not in use.
  have hunused : ∀ g, (((assignIds kb fact s₀).heap fact).id, g) ∉ s.workingMemory.facts := by
    intro g hg
    have hgid := h.id_eq hg
    have hgknown := h.known_facts ⟨_, hg⟩
    rcases hid with hid | hid
    · rw [hfresh (((writeType_heap fact fact name s).2.1).trans hid)] at hgid
      have := (h.known_id g hgknown).2.2
      change (s.heap g).id = s.workingMemory.nextId at hgid
      omega
    · rw [hkept fact hid] at hgid
      obtain rfl := h.id_injOn hgknown hid hgid
      exact hnew ⟨_, hg⟩
  refine ⟨facts_insertWorkingMemory hunused, fun f ↦ ?_, fun f hf ↦ ?_, ?_, fun f hf ↦ ?_⟩
  · rw [hheap]
    exact (hassigned.fields f).trans (writeType_heap fact f name s).1
  · rw [hheap]
    exact (hassigned.type f).trans ((writeType_heap fact f name s).2.2.1 hf)
  · rw [hheap]
    exact (hassigned.type fact).trans ((writeType_heap fact fact name s).2.2.2 rfl)
  · rw [hheap]
    exact hkept f hf

include hzero in
theorem StoreInv.enterFact {type : String}
    (hname : kb.canonicalizeTypeName type = some name)
    (hplain : PlainReads kb.network s.heap fact) :
    StoreInv kb (insert fact known) (RulesForge.enterFact kb fact name s) := by
  have hentered : Entered known fact name s (RulesForge.enterFact kb fact name s) := h.entered hnew hid
  set s₀ := writeType fact name s with hs₀
  obtain ⟨hassigned, hne, hlt, hfresh⟩ := assignIds_spec kb fact s₀ h.nextId_pos
  set s₁ := RulesForge.enterFact kb fact name s with hs₁
  have hnext : s.workingMemory.nextId ≤ s₁.workingMemory.nextId := hassigned.le
  have hself : (s₁.heap fact).id ≠ 0 ∧ (s₁.heap fact).id < s₁.workingMemory.nextId := ⟨hne, hlt⟩
  have hselfId : fact ∈ known ∨ (s₁.heap fact).id = s.workingMemory.nextId := by
    rcases hid with hid | hid
    · exact .inr (hfresh (((writeType_heap fact fact name s).2.1).trans hid))
    · exact .inl hid
  have hpos : 0 < (s₁.heap fact).id := by
    rcases hselfId with hk | hk
    · rw [hentered.id fact hk]
      exact (h.known_id fact hk).2.1
    · rw [hk]
      exact h.nextId_pos
  have hdistinct : ∀ f ∈ known, f ≠ fact → (s₁.heap f).id ≠ (s₁.heap fact).id := by
    intro f hf hne heq
    rw [hentered.id f hf] at heq
    rcases hselfId with hk | hk
    · rw [hentered.id fact hk] at heq
      exact hne (h.id_injOn hf hk heq)
    · have := (h.known_id f hf).2.2
      omega
  have hreads : ∀ f ∈ known, SameReads s.heap s₁.heap f :=
    fun f hf ↦ sameReads_of_fields hentered.fields (hentered.id f hf)
  refine ⟨h.unique.insert _ _, ?_, ?_, ?_, ?_, ?_, ?_, ?_, h.tms⟩
  · intro id f hmem
    change (id, f) ∈ AssocMap.insert (s₁.heap fact).id fact s.workingMemory.facts at hmem
    rcases AssocMap.mem_insert.mp hmem with ⟨-, hmem⟩ | ⟨rfl, rfl⟩
    · rw [hentered.id f (h.known_facts ⟨id, hmem⟩)]
      exact h.id_eq hmem
    · rfl
  · rw [hentered.facts]
    exact Set.insert_subset_insert h.known_facts
  · rintro f (rfl | hf)
    · exact ⟨hzero, hpos, hlt⟩
    · obtain ⟨hf0, hpos, hlt⟩ := h.known_id f hf
      rw [hentered.id f hf]
      exact ⟨hf0, hpos, by omega⟩
  · rintro f (rfl | hf) g (rfl | hg) heq
    · rfl
    · by_contra hne
      exact hdistinct g hg (Ne.symm hne) heq.symm
    · by_contra hne
      exact hdistinct f hf hne heq
    · refine h.id_injOn hf hg ?_
      simpa only [hentered.id f hf, hentered.id g hg] using heq
  · exact lt_of_lt_of_le h.nextId_pos hnext
  · rw [hentered.facts]
    rintro f (rfl | hf)
    · exact hplain.of_fields hentered.fields
    · exact (h.plain f hf).congr (hreads f (h.known_facts hf))
  · rw [hentered.facts]
    rintro f (rfl | hf)
    · rw [hentered.name]
      exact kb.canonicalizeTypeName_idem hname
    · rw [hentered.type f (ne_of_mem_of_not_mem hf hnew)]
      exact h.canonical f hf

end Enter

/-- An entry of a fact in a hashed join shows that the fact is in working memory. -/
theorem Settled.keysKept_of_not_mem {facts : Set FactPtr} {mem : ℕ → NodeMemory} {roots : Set ℕ}
    {s' : Session} (h : Settled kb s source facts roots mem) (hp : p ∉ facts) :
    KeysKept kb s s' p mem where
  left {n} c l r k w hkind hmem hw := by
    obtain ⟨hD, hnode⟩ := h.node n
    simp only [hkind] at hnode
    exact absurd (hD w (hnode.left_key hmem).1 p hw) hp
  right {n} c l r k hkind hmem := by
    have hnode := (h.node n).2
    simp only [hkind] at hnode
    exact absurd (hnode.right_key hmem).1.1 hp

variable (steps) in
/-- The network is told of a fact that has entered working memory through an entry point. -/
theorem SessionInv.addEntered (hkb : kb.Sound) (h : SessionInv kb source known s)
    (hsource : ∀ f ∈ s.facts, source' f = source f)
    {fact : FactPtr} (hzero : fact ≠ 0) (hnew : fact ∉ s.facts)
    (hid : (s.heap fact).id = 0 ∨ fact ∈ known) {name type : String}
    (hname : kb.canonicalizeTypeName type = some name)
    (hplain : PlainReads kb.network s.heap fact) (t : Option RhsTransaction) :
    let s₁ := { enterFact kb fact name s with transaction := t }
    let s' := activateEntry kb (logicalRetract kb steps) (source' fact) fact .assert s₁
    SessionInv kb source' (insert fact known) s' ∧ s'.base = s₁.base := by
  intro s₁ s'
  have hentered : Entered known fact name s (enterFact kb fact name s) := h.entered hnew hid
  have hstore : StoreInv kb (insert fact known) s₁ :=
    (h.enterFact hzero hnew hid hname hplain).congr rfl rfl rfl
  have htests : SameTests kb s s₁ s.facts fact :=
    sameTests_of_reads hkb.localExpressions
      (fun f hf ↦ hentered.id f (h.known_facts hf))
      (fun f hf ↦ hentered.type f (ne_of_mem_of_not_mem hf hnew))
      (fun f hf _ ↦ sameReads_of_fields hentered.fields (hentered.id f (h.known_facts hf)))
      fun f hf _ ↦ h.plain f hf
  have hhint : s₁.currentModifiedFields = none := h.hint
  have hfacts : s₁.facts = insert fact s.facts := hentered.facts
  have hin : fact ∈ s₁.facts := by
    rw [hfacts]
    exact Set.mem_insert fact _
  obtain ⟨hsettled, hbase⟩ := h.activate hkb steps hsource hstore
    (h.known_facts.trans (Set.subset_insert fact known)) rfl htests
    (h.settled.keysKept_of_not_mem hnew)
    (fun f hf ↦ by simp [hfacts, hf]) (.assert hnew hin)
    (hstore.plain fact hin)
    (fun _ haffected ↦ by simp [hhint, alphaConstraintAffected] at haffected)
  refine ⟨⟨hstore.of_base hbase, ?_, (base_parts hbase).2.2.2.trans hhint⟩, hbase⟩
  rw [facts_of_base hbase]
  exact hsettled.of_heap (Session.heap_of_base hbase)

/-- What `addFact` can do. -/
theorem addFact_cases (kb : KnowledgeBase) (steps : ℕ) (fact : FactPtr) (s : Session) :
    let s' := (addFact kb steps fact s).1
    s' = s ∨ ∃ name, kb.canonicalizeTypeName (s.heap fact).type = some name ∧ fact ≠ 0 ∧
      (s' = writeType fact name s ∨
        s' = activateEntryPoint kb (logicalRetract kb steps) fact .assert
          (enterFact kb fact name s)) := by
  unfold addFact
  split
  · exact .inl rfl
  · next hzero =>
    split
    · exact .inl rfl
    · cases hname : kb.canonicalizeTypeName (s.heap fact).type with
      | none => exact .inl rfl
      | some name =>
        refine .inr ⟨name, rfl, hzero, ?_⟩
        dsimp only
        split
        · exact .inl rfl
        · exact .inr rfl

/-- The type of a fact outside of working memory is replaced. -/
theorem SessionInv.retyped (hkb : kb.Sound) (h : SessionInv kb source known s) {fact : FactPtr}
    (hnew : fact ∉ s.facts) (name : String) :
    SessionInv kb source known (writeType fact name s) := by
  have hheap := fun f ↦ writeType_heap fact f name s
  refine h.of_reads hkb hnew rfl rfl rfl h.hint (fun f _ ↦ (hheap f).2.1) (fun f hf ↦ ?_)
    fun f _ ↦ sameReads_of_fields (fun g ↦ (hheap g).1) (hheap f).2.1
  exact (hheap f).2.2.1 (ne_of_mem_of_not_mem hf hnew)

theorem SessionInv.addFact (hkb : kb.Sound) (h : SessionInv kb source known s)
    (hsource : ∀ f ∈ s.facts, source' f = source f)
    {fact : FactPtr} (hdefault : source' fact = none) (hnew : fact ∉ s.facts) (hid : (s.heap fact).id = 0 ∨ fact ∈ known)
    (hplain : PlainReads kb.network s.heap fact) :
    let s' := (addFact kb steps fact s).1
    SessionInv kb source' (known ∪ s'.facts) s' := by
  intro s'
  have h' := h.of_source hsource
  have hsame : known ∪ s.facts = known := Set.union_eq_self_of_subset_right h.known_facts
  rcases addFact_cases kb steps fact s with hs' | ⟨name, hname, hzero, hs' | hs'⟩
  · rw [show s' = s from hs', hsame]
    exact h'
  · -- The schema check failed: only the type of the fact has changed.
    have hfacts : (writeType fact name s).facts = s.facts := rfl
    rw [show s' = writeType fact name s from hs', hfacts, hsame]
    exact h'.retyped hkb hnew name
  · have hfacts : (enterFact kb fact name s).facts = insert fact s.facts :=
      (h.entered hnew hid).facts
    obtain ⟨hinv, hbase⟩ := h.addEntered steps hkb hsource hzero hnew hid hname hplain
      (enterFact kb fact name s).transaction
    rw [hdefault, ← activateEntryPoint_eq] at hinv hbase
    rw [← show s' = _ from hs'] at hinv hbase
    have hknown : known ∪ s'.facts = insert fact known := by
      rw [facts_of_base hbase, hfacts, Set.union_insert, hsame]
    rw [hknown]
    exact hinv

/-! ### Retracting a fact -/

theorem cleanWmeCache_eq (kb : KnowledgeBase) (steps : ℕ) (htms : s.tms = {}) (id : ℤ) :
    (cleanWmeCache kb (logicalRetract kb steps) id s).base = s.base ∧
      (cleanWmeCache kb (logicalRetract kb steps) id s).mem = s.mem := by
  have hfold : ∀ l : List TokenWME, l.foldl (fun s w ↦ logicalRetract kb steps w s) s = s := by
    intro l
    induction l with
    | nil => rfl
    | cons w l ih => rw [List.foldl_cons, logicalRetract_eq htms, ih]
  unfold cleanWmeCache
  dsimp only
  rw [hfold]
  exact ⟨rfl, rfl⟩

theorem SessionInv.get_eq_some_iff (h : SessionInv kb source known s) {id : ℤ} :
    s.workingMemory.get id = some p ↔ (id, p) ∈ s.workingMemory.facts :=
  h.unique.lookup_eq_some_iff

variable (steps) in
/-- The entry point of a fact is told that it has left working memory. -/
theorem SessionInv.leaveFact (hkb : kb.Sound) (h : SessionInv kb source known s)
    (hp : p ∈ s.facts) :
    let s' := activateEntry kb (logicalRetract kb steps) (source p) p .retract
      (RulesForge.leaveFact p s)
    SessionInv kb source known s' ∧ s'.facts = s.facts \ {p} ∧
      s'.base = (RulesForge.leaveFact p s).base := by
  set id := (s.heap p).id with hid
  set s₁ := RulesForge.leaveFact p s with hs₁
  have htms : s₁.tms = {} := by
    change s.tms.onFactRetracted id = {}
    rw [h.tms]
    rfl
  have hmem : ∀ {i f}, (i, f) ∈ s₁.workingMemory.facts ↔
      i ≠ id ∧ (i, f) ∈ s.workingMemory.facts := AssocMap.mem_erase
  have hfacts : s₁.facts = s.facts \ {p} := by
    ext f
    constructor
    · rintro ⟨i, hi⟩
      obtain ⟨hne, hi'⟩ := hmem.mp hi
      refine ⟨⟨i, hi'⟩, ?_⟩
      rintro rfl
      exact hne (h.id_eq hi').symm
    · rintro ⟨⟨i, hi⟩, hne⟩
      refine ⟨i, hmem.mpr ⟨?_, hi⟩⟩
      rintro rfl
      exact hne (h.id_injOn (h.known_facts ⟨_, hi⟩) (h.known_facts hp) (h.id_eq hi))
  have hsub : s₁.facts ⊆ s.facts := by
    rw [hfacts]
    exact Set.sdiff_subset
  have hstore : StoreInv kb known s₁ :=
    ⟨h.unique.erase id, fun hi ↦ h.id_eq (hmem.mp hi).2, hsub.trans h.known_facts, h.known_id,
      h.id_injOn, h.nextId_pos, fun f hf ↦ h.plain f (hsub hf), fun f hf ↦ h.canonical f (hsub hf),
      htms⟩
  have htests : SameTests kb s s₁ s.facts p :=
    sameTests_of_reads hkb.localExpressions (fun _ _ ↦ rfl) (fun _ _ ↦ rfl)
      (fun f _ _ ↦ SameReads.refl s.heap f) fun f hf _ ↦ h.plain f hf
  have hhint : s₁.currentModifiedFields = none := h.hint
  obtain ⟨hsettled, hbase⟩ := h.activate hkb steps (fun _ _ ↦ rfl) hstore h.known_facts rfl htests
    ⟨fun _ _ _ ↦ rfl, fun _ _ ↦ rfl⟩ (fun f hf ↦ by simp [hfacts, hf])
    (.retract hp (by simp [hfacts])) (h.plain p hp)
    (fun _ haffected ↦ by simp [hhint, alphaConstraintAffected] at haffected)
  refine ⟨⟨hstore.of_base hbase, ?_, (base_parts hbase).2.2.2.trans hhint⟩,
    (facts_of_base hbase).trans hfacts, hbase⟩
  rw [facts_of_base hbase]
  exact hsettled.of_heap (base_parts hbase).1

variable (steps) in
/-- Removing a fact of working memory that has come through the default entry point. -/
theorem SessionInv.removeFact (hkb : kb.Sound) (h : SessionInv kb source known s)
    (hdefault : source p = none) (hp : p ∈ s.facts) :
    let s' := removeFact kb (logicalRetract kb steps) p s
    SessionInv kb source known s' ∧ s'.facts = s.facts \ {p} ∧ s'.heap = s.heap ∧
      s'.isConsistent = s.isConsistent := by
  obtain ⟨hinv, hfacts, hbase⟩ := h.leaveFact steps hkb hp
  rw [hdefault, ← activateEntryPoint_eq] at hinv hfacts hbase
  set s₂ := activateEntryPoint kb (logicalRetract kb steps) p .retract (RulesForge.leaveFact p s)
    with hs₂
  obtain ⟨hbase₃, hmem₃⟩ := cleanWmeCache_eq kb steps hinv.tms (s.heap p).id
  have hresult : RulesForge.removeFact kb (logicalRetract kb steps) p s =
      cleanWmeCache kb (logicalRetract kb steps) (s.heap p).id s₂ := rfl
  rw [hresult]
  set s₃ := cleanWmeCache kb (logicalRetract kb steps) (s.heap p).id s₂ with hs₃
  obtain ⟨hheap, hstore, htms, hhint⟩ := base_parts hbase₃
  refine ⟨hinv.congr hheap hmem₃ hstore htms (hhint.trans hinv.hint),
    (facts_of_base hbase₃).trans hfacts, hheap.trans (base_parts hbase).1, ?_⟩
  change s₃.base.isConsistent = (RulesForge.leaveFact p s).base.isConsistent
  rw [hbase₃, hbase]

theorem SessionInv.retractFact (hkb : kb.Sound) (h : SessionInv kb source known s) (fact : FactPtr)
    (hdefault : ∀ p, s.workingMemory.get (s.heap fact).id = some p → source p = none) :
    SessionInv kb source known (retractFact kb (logicalRetract kb steps) fact s).1 := by
  unfold RulesForge.retractFact
  split
  · exact h
  · split
    · exact h
    · cases hget : s.workingMemory.get (s.heap fact).id with
      | none => exact h
      | some p =>
        cases s.transaction with
        | none =>
          exact (h.removeFact steps hkb (hdefault p hget) ⟨_, h.get_eq_some_iff.mp hget⟩).1
        | some t => exact h.congr rfl rfl rfl rfl h.hint

/-! ### Modifying a fact -/

/-- The change of the fields of a fact in working memory: the other facts read as before, the
fields of the fact are plain, and the hashed joins find it under the keys they know. -/
structure FieldsChange (kb : KnowledgeBase) (s : Session) (p : FactPtr)
    (fields : List (String × ConstraintValue)) : Prop where
  others : ∀ f ∈ s.facts, f ≠ p → SameReads s.heap (writeFields p fields s).heap f
  plain : PlainReads kb.network (writeFields p fields s).heap p
  keys : KeysKept kb s (writeFields p fields s) p s.mem

/-- The fields that a hint leaves out read as before. -/
def HintCovers (hint : Option ModifiedFieldsHint) (heap heap' : Heap) (p : FactPtr) : Prop :=
  ∀ changed, hint = some changed → ∀ name, changed.contains (fieldRoot name) = false →
    alphaField heap' p name = alphaField heap p name

theorem writeFields_heap (p f : FactPtr) (fields : List (String × ConstraintValue)) (s : Session) :
    ((writeFields p fields s).heap f).id = (s.heap f).id ∧
      ((writeFields p fields s).heap f).type = (s.heap f).type := by
  by_cases hf : f = p
  · subst hf
    simp [writeFields]
  · simp [writeFields, hf]

/-- An alpha test that the hint leaves out has its outcome. -/
theorem checkConstraint_of_hint {c : ParsedConstraint} (hc : kb.network.Tests c)
    {hint : Option ModifiedFieldsHint} {heap heap' : Heap}
    (hcovers : HintCovers hint heap heap' p) (hplain : PlainReads kb.network heap p)
    (haffected : alphaConstraintAffected c hint = false) :
    checkConstraint kb.runtime heap' c p = checkConstraint kb.runtime heap c p := by
  cases hint with
  | none => simp [alphaConstraintAffected] at haffected
  | some changed =>
    simp only [alphaConstraintAffected] at haffected
    split at haffected
    · simp at haffected
    · next hnot =>
      split at haffected
      · simp at haffected
      · have hexpr : c.rightArithExpr = none := by
          by_contra hexpr
          exact hnot (.inl (Option.isSome_iff_ne_none.mpr hexpr))
        have hfield := hcovers changed rfl c.leftField haffected
        unfold checkConstraint
        rw [hfield, alphaRightValue, alphaRightValue, hexpr]
        cases hleft : alphaField heap p c.leftField with
        | none => rfl
        | some v =>
          have hv := hplain c.leftField (.left hc) v (.inr hleft)
          simp only [evaluateCompare_congr (factIds heap') (factIds heap) c.op hv]

variable (steps) in
/-- The propagation of a change of fields. -/
theorem SessionInv.modify (hkb : kb.Sound) (h : SessionInv kb source known s)
    (hdefault : source p = none) (hp : p ∈ s.facts) {fields : List (String × ConstraintValue)}
    (hchange : FieldsChange kb s p fields) {hint : Option ModifiedFieldsHint}
    (hcovers : HintCovers hint s.heap (writeFields p fields s).heap p) :
    let s₁ := { writeFields p fields s with currentModifiedFields := hint }
    let s' := activateEntryPoint kb (logicalRetract kb steps) p .modify s₁
    SessionInv kb source known { s' with currentModifiedFields := none } ∧ s'.base = s₁.base := by
  intro s₁ s'
  have hheap := fun f ↦ writeFields_heap p f fields s
  have hreads : ∀ f ∈ s.facts, f ≠ p → SameReads s.heap s₁.heap f := hchange.others
  have hfacts : s₁.facts = s.facts := rfl
  have hstore : StoreInv kb known s₁ := by
    refine ⟨h.unique, fun hi ↦ ?_, h.known_facts, fun f hf ↦ ?_, fun f hf g hg heq ↦ ?_,
      h.nextId_pos, fun f hf ↦ ?_, fun f hf ↦ ?_, h.tms⟩
    · exact (hheap _).1.trans (h.id_eq hi)
    · obtain ⟨hf0, hid⟩ := h.known_id f hf
      refine ⟨hf0, ?_⟩
      change 0 < ((writeFields p fields s).heap f).id ∧ ((writeFields p fields s).heap f).id < _
      rwa [(hheap f).1]
    · refine h.id_injOn hf hg ?_
      change ((writeFields p fields s).heap f).id = ((writeFields p fields s).heap g).id at heq
      rwa [(hheap f).1, (hheap g).1] at heq
    · by_cases hfp : f = p
      · subst hfp
        exact hchange.plain
      · exact (h.plain f hf).congr (hreads f hf hfp)
    · change kb.canonicalizeTypeName ((writeFields p fields s).heap f).type = _
      rw [(hheap f).2]
      exact h.canonical f hf
  have htests : SameTests kb s s₁ s.facts p :=
    sameTests_of_reads hkb.localExpressions (fun f _ ↦ (hheap f).1) (fun f _ ↦ (hheap f).2) hreads
      fun f hf _ ↦ h.plain f hf
  obtain ⟨hsettled, hbase⟩ := h.activate hkb steps (fun _ _ ↦ rfl) hstore h.known_facts rfl htests
    ⟨hchange.keys.left, hchange.keys.right⟩ (fun f _ ↦ Iff.rfl) (.modify hp hp) hchange.plain
    (fun hkind haffected ↦
      checkConstraint_of_hint (.alpha hkind) hcovers (h.plain p hp) haffected)
  rw [hdefault, ← activateEntryPoint_eq] at hsettled hbase
  obtain ⟨hheap', hstore', htms', -⟩ := base_parts hbase
  refine ⟨⟨hstore.congr hheap' hstore' htms', ?_, rfl⟩, hbase⟩
  change Settled kb { s' with currentModifiedFields := none } source s'.facts kb.roots s'.mem
  rw [facts_of_base hbase]
  exact hsettled.of_heap hheap'

/-! ### A new session -/

/-- The scene of a session without facts. -/
def emptyScene (kb : KnowledgeBase) (heap : Heap) (steps : ℕ) : Scene kb where
  base := { heap := heap }
  facts := ∅
  changed := 0
  logicalRetract := logicalRetract kb steps
  id_injOn := Set.injOn_empty _
  callback w s hs := by
    refine logicalRetract_eq ?_ w
    change s.base.tms = {}
    rw [hs]
  plain f hf := absurd hf (Set.notMem_empty f)

/-- No node has facts on its right. -/
def emptyPhase (kb : KnowledgeBase) (heap : Heap) (steps : ℕ) : Phase (emptyScene kb heap steps) where
  right _ := ∅
  right_subset _ := Set.empty_subset _
  pending := ∅

theorem emptyMemory_fits {S : Scene kb} {P : Phase S} (n : ℕ) (hright : P.right n = ∅) :
    NodeInv P n ∅ {} := by
  refine ⟨fun w hw ↦ absurd hw (Set.notMem_empty w), ?_⟩
  rw [hright]
  cases kb.network.kind n with
  | crossProductJoin c => exact .empty
  | hashedJoin c l r => exact .empty
  | condition kind c => exact .empty
  | terminal rule bindings => exact ⟨List.nodup_nil, by simp⟩
  | _ => trivial

theorem outSet_empty (net : CompiledNetwork) (n : ℕ) : outSet net n {} = ∅ := by
  unfold outSet
  split <;> simp [childTokens, passingTokens]

theorem emptyMemory_globalInv (heap : Heap) :
    GlobalInv (emptyPhase kb heap steps) ∅ fun _ ↦ {} where
  roots_left r hr := absurd hr (Set.notMem_empty r)
  alpha _ id := by simp [emptyPhase]
  node n := by
    have hin : inSet kb.network ∅ n (fun _ ↦ {}) = ∅ := by
      simp [inSet, leftTokens, outSet_empty]
    rw [hin]
    exact emptyMemory_fits n rfl

/-- The roots of the beta network get the root token one after the other. -/
theorem primeRoots_globalInv (hnet : kb.network.WellFormed) (steps : ℕ) {heap : Heap} (l : List ℕ)
    (hnodup : l.Nodup) (hl : ∀ n ∈ l, n ∈ kb.network.betaRootNodes) {roots : Set ℕ}
    (hdisjoint : ∀ n ∈ l, n ∉ roots) {s : Session} (hbase : s.base = (emptyScene kb heap steps).base)
    (hinv : GlobalInv (emptyPhase kb heap steps) roots s.mem) :
    let s' := l.foldl (fun s n ↦
      leftActivate kb (logicalRetract kb steps) kb.network.nodes.length n .root .assert s) s
    GlobalInv (emptyPhase kb heap steps) (roots ∪ {n | n ∈ l}) s'.mem ∧
      s'.base = (emptyScene kb heap steps).base := by
  induction l generalizing roots s with
  | nil => simpa using ⟨hinv, hbase⟩
  | cons n l ih =>
    obtain ⟨hnotin, hnodup⟩ := List.nodup_cons.mp hnodup
    have hroot := hnet.mem_roots.mp (hl n List.mem_cons_self)
    have hn : n ∉ roots := hdisjoint n List.mem_cons_self
    have hin : ∀ roots' : Set ℕ, inSet kb.network roots' n s.mem = {w | n ∈ roots' ∧ w = .root} := by
      intro roots'
      have hleft : leftTokens kb.network n s.mem = ∅ := by
        ext w
        simpa [leftTokens] using fun q hq ↦ absurd hq (hroot.2 q)
      rw [inSet, hleft, Set.union_empty]
    have hspec := leftActivate_spec hnet (emptyPhase kb heap steps) kb.network.nodes.length n
      (by omega)
    have hsub := hinv.subtree n
    rw [hin] at hsub
    obtain ⟨hself, heffect⟩ := hspec.assert hbase hsub (w := .root) (fun h ↦ hn h.1)
      fun f hf ↦ absurd hf List.not_mem_nil
    have hdelivered : insert .root {w | n ∈ roots ∧ w = .root} =
        inSet kb.network (insert n roots) n s.mem := by
      rw [hin]
      ext w
      simp [hn]
    rw [hdelivered] at hself
    have hinv₁ := hinv.replace hnet heffect hroot.1
      (by
        rintro r (rfl | hr)
        · exact hroot.2
        · exact hinv.roots_left r hr)
      (fun m hm ↦ by simp [hm]) (fun _ _ ↦ rfl) (fun _ _ _ _ h ↦ h) hself
    obtain ⟨hinv₂, hbase₂⟩ := ih hnodup (fun m hm ↦ hl m (List.mem_cons_of_mem _ hm))
      (by
        rintro m hm (rfl | hmem)
        · exact hnotin hm
        · exact hdisjoint m (List.mem_cons_of_mem _ hm) hmem)
      (heffect.base.trans hbase) hinv₁
    refine ⟨?_, hbase₂⟩
    have hset : roots ∪ {m | m ∈ n :: l} = insert n roots ∪ {m | m ∈ l} := by
      ext m
      simp only [Set.mem_union, Set.mem_insert_iff, Set.mem_ofPred_eq, List.mem_cons]
      grind
    rw [hset]
    exact hinv₂

/-- A new session before the roots of the beta network are primed: the rules without conditions
are activated. -/
def startSession (kb : KnowledgeBase) (heap : Heap) : Session :=
  (kb.rules.zipIdx).foldl (fun s (rule, i) ↦
    if rule.enabled && rule.hasNoConditions then s.addActivation kb (activationOf kb i none .root)
    else s) { heap := heap }

theorem startSession_parts (kb : KnowledgeBase) (heap : Heap) :
    (startSession kb heap).base = Session.base { heap := heap } ∧
      (startSession kb heap).mem = fun _ ↦ {} := by
  have hfold : ∀ (l : List (ParsedRule × ℕ)) (s : Session),
      (l.foldl (fun s (rule, i) ↦
        if rule.enabled && rule.hasNoConditions then
          s.addActivation kb (activationOf kb i none .root)
        else s) s).base = s.base ∧
      (l.foldl (fun s (rule, i) ↦
        if rule.enabled && rule.hasNoConditions then
          s.addActivation kb (activationOf kb i none .root)
        else s) s).mem = s.mem := by
    intro l
    induction l with
    | nil => exact fun s ↦ ⟨rfl, rfl⟩
    | cons entry l ih =>
      intro s
      rw [List.foldl_cons]
      refine ⟨(ih _).1.trans ?_, (ih _).2.trans ?_⟩
      · dsimp only
        split
        · exact addActivation_base s _
        · rfl
      · dsimp only
        split
        · exact addActivation_mem s _
        · rfl
  exact hfold kb.rules.zipIdx { heap := heap }

theorem newSession_inv (hkb : kb.Sound) (heap : Heap) :
    SessionInv kb source ∅ (newSession kb steps heap) := by
  have hnet := hkb.wellFormed
  obtain ⟨hbase, hmem⟩ := startSession_parts kb heap
  obtain ⟨hinv, hbase'⟩ := primeRoots_globalInv hnet steps kb.network.betaRootNodes
    hnet.roots_nodup (fun _ hn ↦ hn) (fun _ _ ↦ Set.notMem_empty _) hbase
    (hmem.symm ▸ emptyMemory_globalInv heap)
  set s' := newSession kb steps heap with hs'
  have hempty : s'.base = Session.base { heap := heap } := hbase'
  have hfacts : s'.facts = ∅ := by
    rw [facts_of_base hempty]
    simp [Session.facts]
  have hroots : ∅ ∪ {n | n ∈ kb.network.betaRootNodes} = kb.roots := Set.empty_union _
  have hsettled : Settled kb (emptyScene kb heap steps).base source ∅ kb.roots s'.mem := by
    rw [← hroots]
    exact hinv.settled hnet rfl fun n ↦ by simp [emptyPhase, rightFacts]
  obtain ⟨hheap, hstore, htms, hhint⟩ := base_parts hempty
  refine ⟨⟨?_, ?_, ?_, ?_, ?_, ?_, ?_, ?_, htms⟩, ?_, hhint⟩
  · rw [hstore]
    exact AssocMap.unique_nil
  · intro id f hf
    rw [hstore] at hf
    exact absurd hf List.not_mem_nil
  · rw [hfacts]
  · exact fun f hf ↦ absurd hf (Set.notMem_empty f)
  · exact Set.injOn_empty _
  · rw [hstore]
    exact one_pos
  · rw [hfacts]
    exact fun f hf ↦ absurd hf (Set.notMem_empty f)
  · rw [hfacts]
    exact fun f hf ↦ absurd hf (Set.notMem_empty f)
  · rw [hfacts]
    exact hsettled.of_heap hheap

end RulesForge
