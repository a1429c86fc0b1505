import Mathlib.Data.List.Induction
import RulesForge.Engine.SessionInvariant
import RulesForge.Rete.BatchSettled

/-!
# Batches in a session

`add_facts` checks all facts of a batch, lets them all into working memory, and then sends those of
each type through the entry point of the type as one batch. When no pattern takes out of the shared
vector what a later one would accept (`AlphaNetwork.Spares`), the session afterwards satisfies the
invariant with the whole batch in working memory (`SessionInv.addFacts`): what the network then
holds is what it would hold had the facts come one by one.
-/

namespace RulesForge

/-- The session in which a batch is in working memory, and the network does not know yet. -/
def batchEntered (kb : KnowledgeBase) (facts : List FactPtr) (s : Session) : Session :=
  enterFacts kb facts (checkFacts kb facts s).1

/-- What a client sees to when it adds a batch: no fact is given twice or is in working memory
already, each gets a new id when its turn comes or has been known before, and no pattern removes
from a batch what a later one accepts. -/
structure BatchEnters (kb : KnowledgeBase) (known : Set FactPtr) (facts : List FactPtr)
    (s : Session) : Prop where
  nodup : facts.Nodup
  new : ∀ f ∈ facts, f ∉ s.facts
  plain : ∀ f ∈ facts, PlainReads kb.network s.heap f
  id : ∀ {before f after}, facts = before ++ f :: after →
    ((enterFacts kb before (checkFacts kb facts s).1).heap f).id = 0 ∨ f ∈ known
  spares : ∀ {type batch entry},
    (type, batch) ∈ factsByType (batchEntered kb facts s).heap facts →
    kb.network.alphaEntryPoints.lookup type = some entry →
    AlphaNetwork.Spares kb.network (checkConstraint kb.runtime (batchEntered kb facts s).heap)
      (kb.network.nodes.length + 1) entry batch

variable {kb : KnowledgeBase} {source : FactPtr → Option String} {known : Set FactPtr}
  {s : Session} {steps : ℕ} {facts : List FactPtr}

/-! ### The facts of a type -/

/-- The groups of a batch: one for each type, with the facts of that type in their order. -/
theorem factsByType_spec (heap : Heap) (facts : List FactPtr) :
    SortedMap.Sorted (factsByType heap facts) ∧ ∀ type,
      ((factsByType heap facts).lookup type).getD [] =
        facts.filter fun f ↦ (heap f).type = type := by
  induction facts using List.reverseRecOn with
  | nil => exact ⟨List.Pairwise.nil, fun _ ↦ rfl⟩
  | append_singleton facts f ih =>
    obtain ⟨hsorted, hlookup⟩ := ih
    have hstep : factsByType heap (facts ++ [f]) = SortedMap.insert (heap f).type
        (((factsByType heap facts).lookup (heap f).type).getD [] ++ [f])
        (factsByType heap facts) := by
      rw [factsByType, List.foldl_append]
      rfl
    rw [hstep]
    refine ⟨hsorted.insert _ _, fun type ↦ ?_⟩
    rw [SortedMap.lookup_insert, List.filter_append]
    by_cases htype : type = (heap f).type
    · subst htype
      rw [if_pos rfl, Option.getD_some, hlookup]
      simp
    · rw [if_neg htype, hlookup]
      simp [Ne.symm htype]

/-- The facts of a group are those of the batch with its type. -/
theorem eq_filter_of_mem_factsByType {heap : Heap} {group : String × List FactPtr}
    (h : group ∈ factsByType heap facts) :
    group.2 = facts.filter fun f ↦ (heap f).type = group.1 := by
  obtain ⟨hsorted, hlookup⟩ := factsByType_spec heap facts
  rw [← hlookup, hsorted.lookup_eq_some h, Option.getD_some]

/-- Every fact of a batch is in the group of its type. -/
theorem exists_mem_factsByType {heap : Heap} {f : FactPtr} (h : f ∈ facts) :
    ∃ group ∈ factsByType heap facts, f ∈ group.2 := by
  obtain ⟨-, hlookup⟩ := factsByType_spec heap facts
  have hf : f ∈ ((factsByType heap facts).lookup (heap f).type).getD [] := by
    rw [hlookup]
    exact List.mem_filter.mpr ⟨h, decide_eq_true rfl⟩
  cases hgroup : (factsByType heap facts).lookup (heap f).type with
  | none =>
    rw [hgroup] at hf
    exact absurd hf List.not_mem_nil
  | some batch =>
    rw [hgroup] at hf
    exact ⟨_, AssocMap.mem_of_lookup hgroup, hf⟩

/-- No fact is in two groups. -/
theorem factsByType_disjoint (heap : Heap) (facts : List FactPtr) :
    (factsByType heap facts).Pairwise fun group group' ↦ ∀ f ∈ group.2, f ∉ group'.2 := by
  refine List.Pairwise.imp_of_mem ?_ (factsByType_spec heap facts).1
  intro group group' hgroup hgroup' hlt f hf hf'
  rw [eq_filter_of_mem_factsByType hgroup] at hf
  rw [eq_filter_of_mem_factsByType hgroup'] at hf'
  have htype := of_decide_eq_true (List.mem_filter.mp hf).2
  have htype' := of_decide_eq_true (List.mem_filter.mp hf').2
  exact hlt.ne (htype.symm.trans htype')

/-! ### Checking -/

/-- What the check of a batch does: facts outside of working memory get their names. -/
structure Checked (kb : KnowledgeBase) (facts : List FactPtr) (s s' : Session) : Prop where
  fields : ∀ f, (s'.heap f).fields = (s.heap f).fields
  id : ∀ f, (s'.heap f).id = (s.heap f).id
  type : ∀ f ∉ facts, (s'.heap f).type = (s.heap f).type
  workingMemory : s'.workingMemory = s.workingMemory
  mem : s'.mem = s.mem
  hint : s'.currentModifiedFields = s.currentModifiedFields

theorem checkFacts_checked (kb : KnowledgeBase) (facts : List FactPtr) (s : Session) :
    Checked kb facts s (checkFacts kb facts s).1 := by
  induction facts generalizing s with
  | nil => exact ⟨fun _ ↦ rfl, fun _ ↦ rfl, fun _ _ ↦ rfl, rfl, rfl, rfl⟩
  | cons fact facts ih =>
    unfold checkFacts
    cases hname : kb.canonicalizeTypeName (s.heap fact).type with
    | none => exact ⟨fun _ ↦ rfl, fun _ ↦ rfl, fun _ _ ↦ rfl, rfl, rfl, rfl⟩
    | some name =>
      have hheap := fun f ↦ writeType_heap fact f name s
      dsimp only
      split
      · exact ⟨fun f ↦ (hheap f).1, fun f ↦ (hheap f).2.1,
          fun f hf ↦ (hheap f).2.2.1 (List.ne_of_not_mem_cons hf), rfl, rfl, rfl⟩
      · have hrest := ih (writeType fact name s)
        exact ⟨fun f ↦ (hrest.fields f).trans (hheap f).1, fun f ↦ (hrest.id f).trans (hheap f).2.1,
          fun f hf ↦ (hrest.type f (List.not_mem_of_not_mem_cons hf)).trans
            ((hheap f).2.2.1 (List.ne_of_not_mem_cons hf)), hrest.workingMemory, hrest.mem,
          hrest.hint⟩

/-- The names are written one after the other, all outside of working memory. -/
theorem SessionInv.checkFacts (hkb : kb.Sound) (h : SessionInv kb source known s)
    (hnew : ∀ f ∈ facts, f ∉ s.facts) : SessionInv kb source known (checkFacts kb facts s).1 := by
  induction facts generalizing s with
  | nil => exact h
  | cons fact facts ih =>
    unfold RulesForge.checkFacts
    cases kb.canonicalizeTypeName (s.heap fact).type with
    | none => exact h
    | some name =>
      have hretyped := h.retyped hkb (hnew fact List.mem_cons_self) name
      dsimp only
      split
      · exact hretyped
      · exact ih hretyped fun f hf ↦ hnew f (List.mem_cons_of_mem _ hf)

/-- The facts of a batch that has been accepted have their proper names. -/
theorem checkFacts_canonical (hnodup : facts.Nodup)
    (haccepted : (checkFacts kb facts s).2 = none) :
    ∀ f ∈ facts, kb.canonicalizeTypeName ((checkFacts kb facts s).1.heap f).type =
      some ((checkFacts kb facts s).1.heap f).type := by
  induction facts generalizing s with
  | nil => exact fun f hf ↦ absurd hf List.not_mem_nil
  | cons fact facts ih =>
    obtain ⟨hnotin, hnodup⟩ := List.nodup_cons.mp hnodup
    unfold checkFacts at haccepted ⊢
    cases hname : kb.canonicalizeTypeName (s.heap fact).type with
    | none =>
      rw [hname] at haccepted
      exact absurd haccepted nofun
    | some name =>
      rw [hname] at haccepted
      dsimp only at haccepted ⊢
      split at haccepted
      · exact absurd haccepted nofun
      · next hvalid =>
        rw [if_neg hvalid]
        intro f hf
        rcases List.mem_cons.mp hf with rfl | hf
        · rw [(checkFacts_checked kb facts _).type f hnotin,
            (writeType_heap f f name s).2.2.2 rfl]
          exact kb.canonicalizeTypeName_idem hname
        · exact ih hnodup haccepted f hf

/-! ### Entering -/

/-- A fact that keeps its name enters working memory. -/
theorem enterFact_self (kb : KnowledgeBase) (fact : FactPtr) (s : Session) :
    enterFact kb fact (s.heap fact).type s = insertWorkingMemory fact (assignIds kb fact s) := by
  have hsame : writeType fact (s.heap fact).type s = s := by
    have hfact : ({ s.heap fact with type := (s.heap fact).type } : Fact) = s.heap fact := rfl
    rw [writeType, hfact, Function.update_eq_self]
  rw [enterFact, hsame]

/-- The entries of working memory after the entrance of a batch: each fact is stored under the id it
has in the end. -/
structure BatchStored (facts : List FactPtr) (s s' : Session) : Prop where
  assigned : IdsAssigned (s.heap, s.workingMemory.nextId) (s'.heap, s'.workingMemory.nextId)
  id_ne : ∀ f ∈ facts, (s'.heap f).id ≠ 0
  store : ∀ {id f}, (id, f) ∈ s'.workingMemory.facts →
    (id, f) ∈ s.workingMemory.facts ∨ f ∈ facts ∧ id = (s'.heap f).id
  kept : ∀ {id f}, (id, f) ∈ s.workingMemory.facts → (∀ g ∈ facts, id ≠ (s'.heap g).id) →
    (id, f) ∈ s'.workingMemory.facts
  present : ∀ f ∈ facts, (∀ g ∈ facts, (s'.heap g).id = (s'.heap f).id → g = f) →
    ((s'.heap f).id, f) ∈ s'.workingMemory.facts
  mem : s'.mem = s.mem
  hint : s'.currentModifiedFields = s.currentModifiedFields

theorem enterFacts_stored (kb : KnowledgeBase) (facts : List FactPtr) {s : Session}
    (hpos : 0 < s.workingMemory.nextId) : BatchStored facts s (enterFacts kb facts s) := by
  induction facts using List.reverseRecOn with
  | nil =>
    exact ⟨.refl _, fun f hf ↦ absurd hf List.not_mem_nil, .inl, fun h _ ↦ h,
      fun f hf ↦ absurd hf List.not_mem_nil, rfl, rfl⟩
  | append_singleton facts p ih =>
    set s₁ := enterFacts kb facts s with hs₁
    have hstep : enterFacts kb (facts ++ [p]) s = insertWorkingMemory p (assignIds kb p s₁) := by
      rw [enterFacts, List.foldl_append]
      rfl
    obtain ⟨hassigned, hne, -, -⟩ := assignIds_spec kb p s₁ (hpos.trans_le ih.assigned.le)
    rw [hstep]
    set s' := insertWorkingMemory p (assignIds kb p s₁) with hs'
    have hmem : ∀ {id f}, (id, f) ∈ s'.workingMemory.facts ↔
        id ≠ (s'.heap p).id ∧ (id, f) ∈ s₁.workingMemory.facts ∨ id = (s'.heap p).id ∧ f = p :=
      fun {_ _} ↦ AssocMap.mem_insert
    have hid : ∀ f ∈ facts, (s'.heap f).id = (s₁.heap f).id :=
      fun f hf ↦ hassigned.id (ih.id_ne f hf)
    have hcases : ∀ {f}, f ∈ facts ++ [p] → f ∈ facts ∨ f = p := by simp
    have hsub : ∀ {f}, f ∈ facts → f ∈ facts ++ [p] := List.mem_append_left [p]
    have hlast : p ∈ facts ++ [p] := List.mem_append_right _ (List.mem_singleton_self p)
    refine ⟨ih.assigned.trans hassigned, fun f hf ↦ ?_, fun {id f} hstored ↦ ?_,
      fun {id f} hold hfree ↦ ?_, fun f hf hdistinct ↦ ?_, ih.mem, ih.hint⟩
    · rcases hcases hf with hf | rfl
      · exact hid f hf ▸ ih.id_ne f hf
      · exact hne
    · rcases hmem.mp hstored with ⟨-, hstored⟩ | ⟨rfl, rfl⟩
      · refine (ih.store hstored).imp_right fun ⟨hf, heq⟩ ↦ ⟨hsub hf, ?_⟩
        rw [heq, hid f hf]
      · exact .inr ⟨hlast, rfl⟩
    · refine hmem.mpr (.inl ⟨hfree p hlast, ih.kept hold fun g hg ↦ ?_⟩)
      exact hid g hg ▸ hfree g (hsub hg)
    · by_cases hfp : f = p
      · exact hmem.mpr (.inr ⟨by rw [hfp], hfp⟩)
      · have hf' : f ∈ facts := (hcases hf).resolve_right hfp
        have hstored := ih.present f hf' fun g hg heq ↦ hdistinct g (hsub hg) (by
          rw [hid g hg, hid f hf', heq])
        rw [← hid f hf'] at hstored
        refine hmem.mpr (.inl ⟨fun heq ↦ hfp ?_, hstored⟩)
        exact (hdistinct p hlast heq.symm).symm

/-- What the entrance of a batch does to the heap, to working memory and to the network. -/
structure BatchEntered (known : Set FactPtr) (facts : List FactPtr) (s s' : Session) : Prop where
  facts : s'.facts = s.facts ∪ {f | f ∈ facts}
  fields : ∀ f, (s'.heap f).fields = (s.heap f).fields
  type : ∀ f, (s'.heap f).type = (s.heap f).type
  id : ∀ f ∈ known, (s'.heap f).id = (s.heap f).id
  mem : s'.mem = s.mem
  hint : s'.currentModifiedFields = s.currentModifiedFields

/-- The facts of a batch enter working memory one after the other. -/
theorem StoreInv.enterFacts (h : StoreInv kb known s) (hnodup : facts.Nodup)
    (hzero : ∀ f ∈ facts, f ≠ 0) (hnew : ∀ f ∈ facts, f ∉ s.facts)
    (hid : ∀ {before f after}, facts = before ++ f :: after →
      ((enterFacts kb before s).heap f).id = 0 ∨ f ∈ known)
    (hname : ∀ f ∈ facts, kb.canonicalizeTypeName (s.heap f).type = some (s.heap f).type)
    (hplain : ∀ f ∈ facts, PlainReads kb.network s.heap f) :
    StoreInv kb (known ∪ {f | f ∈ facts}) (enterFacts kb facts s) ∧
      BatchEntered known facts s (enterFacts kb facts s) := by
  induction facts using List.reverseRecOn with
  | nil =>
    have hnone : ∀ set : Set FactPtr, set ∪ {f | f ∈ ([] : List FactPtr)} = set := by simp
    rw [hnone]
    exact ⟨h, (hnone _).symm, fun _ ↦ rfl, fun _ ↦ rfl, fun _ _ ↦ rfl, rfl, rfl⟩
  | append_singleton facts p ih =>
    have hsub : ∀ {f}, f ∈ facts → f ∈ facts ++ [p] := List.mem_append_left [p]
    have hp : p ∈ facts ++ [p] := List.mem_append_right _ (List.mem_singleton_self p)
    have hnotin : p ∉ facts := fun hmem ↦
      List.disjoint_of_nodup_append hnodup hmem (List.mem_singleton_self p)
    obtain ⟨hstore, hentered⟩ := ih (List.Nodup.of_append_left hnodup)
      (fun f hf ↦ hzero f (hsub hf)) (fun f hf ↦ hnew f (hsub hf))
      (fun {before f after} heq ↦
        hid (show facts ++ [p] = before ++ f :: (after ++ [p]) by simp [heq]))
      (fun f hf ↦ hname f (hsub hf)) fun f hf ↦ hplain f (hsub hf)
    set s₁ := RulesForge.enterFacts kb facts s with hs₁
    have hstep : RulesForge.enterFacts kb (facts ++ [p]) s =
        RulesForge.enterFact kb p (s₁.heap p).type s₁ := by
      rw [enterFact_self, RulesForge.enterFacts, List.foldl_append]
      rfl
    have hpnew : p ∉ s₁.facts := by
      rw [hentered.facts]
      rintro (hmem | hmem)
      · exact hnew p hp hmem
      · exact hnotin hmem
    have hpid : (s₁.heap p).id = 0 ∨ p ∈ known ∪ {f | f ∈ facts} :=
      (hid (show facts ++ [p] = facts ++ p :: [] from rfl)).imp_right .inl
    have hpname : kb.canonicalizeTypeName (s₁.heap p).type = some (s₁.heap p).type := by
      rw [hentered.type]
      exact hname p hp
    have hpentered : Entered (known ∪ {f | f ∈ facts}) p (s₁.heap p).type s₁
        (RulesForge.enterFact kb p (s₁.heap p).type s₁) := hstore.entered hpnew hpid
    have hset : ∀ set : Set FactPtr, insert p (set ∪ {f | f ∈ facts}) =
        set ∪ {f | f ∈ facts ++ [p]} := by
      intro set
      ext f
      simp only [Set.mem_insert_iff, Set.mem_union, Set.mem_ofPred_eq, List.mem_append,
        List.mem_singleton]
      tauto
    rw [hstep, ← hset]
    refine ⟨hstore.enterFact (hzero p hp) hpnew hpid hpname
      ((hplain p hp).of_fields hentered.fields), ?_, fun f ↦ ?_, fun f ↦ ?_, fun f hf ↦ ?_, ?_, ?_⟩
    · rw [hpentered.facts, hentered.facts, hset]
    · exact (hpentered.fields f).trans (hentered.fields f)
    · refine Eq.trans ?_ (hentered.type f)
      by_cases hf : f = p
      · subst hf
        exact hpentered.name
      · exact hpentered.type f hf
    · exact (hpentered.id f (.inl hf)).trans (hentered.id f hf)
    · exact hentered.mem
    · exact hentered.hint

/-! ### The network -/

/-- The groups of a batch go to their entry points one after the other. -/
theorem activateBatches_settled (hkb : kb.Sound) {S : Scene kb}
    (hretract : S.logicalRetract = logicalRetract kb steps) {old : Set FactPtr} {s : Session}
    (groups : List (String × List FactPtr)) (hbase : s.base = S.base)
    (h : Settled kb S.base source old kb.roots s.mem) (hold : old ⊆ S.facts)
    (hgroups : ∀ group ∈ groups, group.2.Nodup ∧ ∀ f ∈ group.2, f ∈ S.facts ∧ f ∉ old ∧
      source f = none ∧ (S.base.heap f).type = group.1)
    (hdisjoint : groups.Pairwise fun group group' ↦ ∀ f ∈ group.2, f ∉ group'.2)
    (hspares : ∀ group ∈ groups, ∀ entry, kb.network.alphaEntryPoints.lookup group.1 = some entry →
      AlphaNetwork.Spares kb.network (checkConstraint kb.runtime S.base.heap)
        (kb.network.nodes.length + 1) entry group.2) :
    let s' := activateBatches kb steps groups s
    Settled kb S.base source (old ∪ {f | ∃ group ∈ groups, f ∈ group.2}) kb.roots s'.mem ∧
      s'.base = S.base := by
  induction groups generalizing old s with
  | nil =>
    have hnone : old ∪ {f | ∃ group ∈ ([] : List (String × List FactPtr)), f ∈ group.2} = old := by
      simp
    rw [hnone]
    exact ⟨h, hbase⟩
  | cons group groups ih =>
    obtain ⟨hfirst, hrest⟩ := List.pairwise_cons.mp hdisjoint
    obtain ⟨hnodup, hgroup⟩ := hgroups group List.mem_cons_self
    have hentry : ∀ f ∈ group.2, kb.network.entry (source f) (S.base.heap f).type =
        kb.network.alphaEntryPoints.lookup group.1 := by
      intro f hf
      obtain ⟨-, -, hsource, htype⟩ := hgroup f hf
      rw [hsource, htype]
      rfl
    have hstep : ∃ s₁ : Session,
        activateBatches kb steps (group :: groups) s = activateBatches kb steps groups s₁ ∧
          Settled kb S.base source (old ∪ {f | f ∈ group.2}) kb.roots s₁.mem ∧
            s₁.base = S.base := by
      cases hlookup : kb.network.alphaEntryPoints.lookup group.1 with
      | none =>
        refine ⟨s, by simp [activateBatches, hlookup], ?_, hbase⟩
        exact h.addIdle fun f hf ↦ (hentry f hf).trans hlookup
      | some entry =>
        have hentry' := fun f hf ↦ (hentry f hf).trans hlookup
        have hkind : kb.network.kind entry = .entryPoint :=
          hkb.wellFormed.entry_kind (show kb.network.entry none group.1 = some entry from hlookup)
        obtain ⟨hsettled, hbase₁⟩ := rightActivateBatch_settled hkb.wellFormed hold
          (fun f hf ↦ (hgroup f hf).1) h hbase (fun f hf ↦ (hgroup f hf).2.1) hnodup hentry' hkind
          (hspares group List.mem_cons_self entry hlookup)
        refine ⟨_, ?_, hsettled, hbase₁⟩
        simp [activateBatches, hlookup, hretract]
    obtain ⟨s₁, hs₁, hsettled, hbase₁⟩ := hstep
    have hset : old ∪ {f | ∃ group' ∈ group :: groups, f ∈ group'.2} =
        old ∪ {f | f ∈ group.2} ∪ {f | ∃ group ∈ groups, f ∈ group.2} := by
      ext f
      simp only [Set.mem_union, Set.mem_ofPred_eq, List.exists_mem_cons_iff, or_assoc]
    rw [hs₁, hset]
    refine ih hbase₁ hsettled (Set.union_subset hold fun f hf ↦ (hgroup f hf).1)
      (fun group' hgroup' ↦ ?_) hrest
      fun group' hgroup' ↦ hspares group' (List.mem_cons_of_mem _ hgroup')
    obtain ⟨hnodup', hgroup''⟩ := hgroups group' (List.mem_cons_of_mem _ hgroup')
    refine ⟨hnodup', fun f hf ↦ ?_⟩
    obtain ⟨hf₁, hf₂, hf₃⟩ := hgroup'' f hf
    refine ⟨hf₁, ?_, hf₃⟩
    rintro (hmem | hmem)
    · exact hf₂ hmem
    · exact hfirst group' hgroup' f hmem hf

/-! ### A batch -/

/-- **A batch is added**: the invariant holds with all its facts in working memory, or with none
when the check refuses one. No field is written. -/
theorem SessionInv.addFacts (hkb : kb.Sound) (h : SessionInv kb source known s)
    {source' : FactPtr → Option String} (hsource : ∀ f ∈ s.facts, source' f = source f)
    (hdefault : ∀ f ∈ facts, source' f = none)
    (hbatch : BatchEnters kb known (facts.filter (· ≠ 0)) s) :
    let s' := (addFacts kb steps facts s).1
    SessionInv kb source' (known ∪ s'.facts) s' ∧ s'.facts ⊆ s.facts ∪ {f | f ∈ facts} ∧
      ∀ f, (s'.heap f).fields = (s.heap f).fields := by
  have hsame : known ∪ s.facts = known := Set.union_eq_self_of_subset_right h.known_facts
  have h' : SessionInv kb source' (known ∪ s.facts) s := hsame.symm ▸ h.of_source hsource
  unfold RulesForge.addFacts
  split
  · exact ⟨h', Set.subset_union_left, fun _ ↦ rfl⟩
  · split
    · exact ⟨h', Set.subset_union_left, fun _ ↦ rfl⟩
    · set vec := facts.filter (· ≠ 0) with hvec
      have hzero : ∀ f ∈ vec, f ≠ 0 := fun f hf ↦ by simpa using (List.mem_filter.mp hf).2
      have hchecked := checkFacts_checked kb vec s
      have hinv₁ := (h.of_source hsource).checkFacts hkb hbatch.new
      have hcanonical := @checkFacts_canonical kb s vec hbatch.nodup
      have hid := @hbatch.id
      have hspares := @hbatch.spares
      unfold batchEntered at hspares
      dsimp only
      generalize RulesForge.checkFacts kb vec s = r at *
      obtain ⟨s₁, refused⟩ := r
      have hfacts₁ : s₁.facts = s.facts := by
        rw [Session.facts, hchecked.workingMemory, Session.facts]
      cases refused with
      | some e =>
        show SessionInv kb source' (known ∪ s₁.facts) s₁ ∧ s₁.facts ⊆ _ ∧ _
        rw [hfacts₁, hsame]
        exact ⟨hinv₁, Set.subset_union_left, hchecked.fields⟩
      | none =>
        have hname := hcanonical rfl
        have hnew₁ : ∀ f ∈ vec, f ∉ s₁.facts := fun f hf ↦ hfacts₁ ▸ hbatch.new f hf
        obtain ⟨hstore, hentered⟩ := hinv₁.toStoreInv.enterFacts hbatch.nodup hzero hnew₁ hid
          hname fun f hf ↦ (hbatch.plain f hf).of_fields hchecked.fields
        set s₂ := RulesForge.enterFacts kb vec s₁ with hs₂
        have htests : SameTests kb s₁ s₂ s₁.facts 0 :=
          sameTests_of_reads hkb.localExpressions
            (fun f hf ↦ hentered.id f (hinv₁.known_facts hf)) (fun f _ ↦ hentered.type f)
            (fun f hf _ ↦ sameReads_of_fields hentered.fields
              (hentered.id f (hinv₁.known_facts hf)))
            fun f hf _ ↦ hinv₁.plain f hf
        have hsettled := hinv₁.settled.congr htests fun hmem ↦
          (hinv₁.known_id 0 (hinv₁.known_facts hmem)).1 rfl
        rw [← hentered.mem] at hsettled
        set S := changeScene hkb s₂.base s₂.facts 0 steps (hstore.id_injOn.mono hstore.known_facts)
          hstore.plain hstore.tms with hS
        have hsub : s₁.facts ⊆ S.facts := by
          show s₁.facts ⊆ s₂.facts
          rw [hentered.facts]
          exact Set.subset_union_left
        have hgroups : ∀ group ∈ factsByType s₂.heap vec, group.2.Nodup ∧ ∀ f ∈ group.2,
            f ∈ S.facts ∧ f ∉ s₁.facts ∧ source' f = none ∧ (S.base.heap f).type = group.1 := by
          intro group hgroup
          rw [eq_filter_of_mem_factsByType hgroup]
          refine ⟨hbatch.nodup.filter _, fun f hf ↦ ?_⟩
          obtain ⟨hmem, htype⟩ := List.mem_filter.mp hf
          refine ⟨?_, hnew₁ f hmem, hdefault f (List.mem_of_mem_filter hmem),
            of_decide_eq_true htype⟩
          show f ∈ s₂.facts
          rw [hentered.facts]
          exact .inr hmem
        obtain ⟨hall, hbase⟩ := activateBatches_settled hkb (S := S) rfl (factsByType s₂.heap vec)
          (s := s₂) rfl (hsettled.of_heap (show S.base.heap = s₂.heap from rfl)) hsub hgroups
          (factsByType_disjoint s₂.heap vec) fun _ hgroup _ ↦ hspares hgroup
        have hset : s₁.facts ∪ {f | ∃ group ∈ factsByType s₂.heap vec, f ∈ group.2} = s₂.facts := by
          rw [hentered.facts]
          refine congrArg (s₁.facts ∪ ·) (Set.ext fun f ↦ ⟨?_, fun hf ↦ exists_mem_factsByType hf⟩)
          rintro ⟨group, hgroup, hf⟩
          rw [eq_filter_of_mem_factsByType hgroup] at hf
          exact List.mem_of_mem_filter hf
        have hbase' : (activateBatches kb steps (factsByType s₂.heap vec) s₂).base = s₂.base :=
          hbase
        have hknown : known ∪ s₂.facts = known ∪ {f | f ∈ vec} := by
          rw [hentered.facts, hfacts₁, ← Set.union_assoc, hsame]
        obtain ⟨hheap, -, -, hhint⟩ := base_parts hbase'
        refine ⟨?_, ?_, fun f ↦ ?_⟩
        · show SessionInv kb source' (known ∪ (activateBatches kb steps _ s₂).facts)
            (activateBatches kb steps _ s₂)
          rw [facts_of_base hbase', hknown]
          refine ⟨hstore.of_base hbase', ?_, ?_⟩
          · rw [facts_of_base hbase', ← hset]
            exact hall.of_heap (show _ = S.base.heap from hheap)
          · rw [hhint, hentered.hint]
            exact hinv₁.hint
        · show (activateBatches kb steps _ s₂).facts ⊆ _
          rw [facts_of_base hbase', hentered.facts, hfacts₁]
          exact Set.union_subset_union_right _ fun f hf ↦ List.mem_of_mem_filter hf
        · show ((activateBatches kb steps _ s₂).heap f).fields = _
          rw [hheap, hentered.fields]
          exact hchecked.fields f

end RulesForge
