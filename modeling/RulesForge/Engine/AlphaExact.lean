import RulesForge.Engine.AlphaBatches

/-!
# Exact alpha nodes

Where every operation and every batch of a run is covered, the alpha nodes hold exactly the facts
that satisfy their constraints (`alphaNodes_exact`). The induction is on the run, and each activity
has its own claim: an activation tells its nodes of the fact or of the batch under way, and
everything else leaves what is under way alone.
-/

namespace RulesForge

namespace AlphaNetwork

variable {net : AlphaNetwork} {kb : KnowledgeBase} {source : FactPtr → Option String}
  {F : Set FactPtr} {s s' : Session}

/-- What each activity keeps, or achieves. -/
def Keeping (net : AlphaNetwork) (kb : KnowledgeBase) (source : FactPtr → Option String)
    (F : Set FactPtr) : Activity → Session → Session → Prop
  | .inside, s, s' | .mutation _, s, s' =>
    AlphaInv net kb source F s → AlphaInv net kb source F s' ∧ Frame net kb F F s s'
  | .activate n p type, s, s' => p ∈ F → AlphaInv net kb source F s → ∀ {before after old},
    Pending net kb p type before after old [n] s → Told net kb source F p after [n] s s'
  | .children ns p type, s, s' => p ∈ F → AlphaInv net kb source F s → ∀ {before after old},
    Pending net kb p type before after old ns s → Told net kb source F p after ns s s'
  | .groups groups, s, s' => groupFacts groups ⊆ F → AlphaInv net kb source F s → ∀ {s₀},
    GroupsPending net kb source s₀ groups s → GroupsTold net kb source F s₀ groups s s'
  | .activateBatch n facts left, s, s' => ∀ {B s₀ arrives left₀}, B ⊆ F →
    AlphaInv net kb source F s → BatchPending net kb s₀ B arrives [n] facts left₀ s →
      BatchTold net kb source F s₀ B arrives [n] s s' ∧ left₀ = left
  | .childrenBatch ns facts left, s, s' => ∀ {B s₀ arrives left₀}, B ⊆ F →
    AlphaInv net kb source F s → BatchPending net kb s₀ B arrives ns facts left₀ s →
      BatchTold net kb source F s₀ B arrives ns s s' ∧ left₀ = left

/-- **Every run keeps the alpha nodes exact.** The induction is on the run, over all propagations
that are nested in it. -/
theorem Runs.keeping {a : Activity} (h : Runs net kb (.covered net kb source) F a s s') :
    Keeping net kb source F a s s' := by
  induction h with
  | done => exact fun hinv ↦ ⟨hinv, .refl _ _ _⟩
  | unseen hunseen hok _ ih =>
    intro hinv
    obtain ⟨hinv', hframe⟩ := ih (hinv.of_keeps hunseen hok)
    exact ⟨hinv', (Frame.of_unseen hunseen hok).trans subset_rfl hframe⟩
  | nested _ _ ihop ih =>
    intro hinv
    obtain ⟨hinv₁, hframe₁⟩ := ihop hinv
    obtain ⟨hinv', hframe⟩ := ih hinv₁
    exact ⟨hinv', hframe₁.trans subset_rfl hframe⟩
  | @mutation F op s s' s'' _ hok _ _ ihop ih =>
    intro hinv
    have hcovered : Covered net kb source F op s := hok
    obtain ⟨hstart, hpending⟩ := hcovered.pending hinv
    have htold := ihop (.inl rfl) hstart hpending
    obtain ⟨hinv', hkeeps, hfacts, hpassing⟩ := hcovered.told hinv htold
    -- The hint that is dropped at the end plays no part in the invariant.
    have hfinish : AlphaInv net kb source F (op.finish s') ∧ Frame net kb F F s (op.finish s') := by
      have hhint := finish_hint op htold.frame.hint
      cases op <;> exact ⟨⟨hinv'.keys, hinv'.distinct, hinv'.exact, hinv'.supported⟩,
        ⟨hkeeps.id, hkeeps.type, hkeeps.tests⟩, hfacts, hpassing, hhint⟩
    obtain ⟨hinv'', hframe⟩ := ih hfinish.1
    exact ⟨hinv'', hfinish.2.trans subset_rfl hframe⟩
  | stop hc hstep => exact fun hp hinv _ _ _ hpending ↦ hpending.stop hp hinv hc hstep
  | pass hc hstep _ ih =>
    intro hp hinv _ _ _ hpending
    obtain ⟨⟨hinv₁, hframe⟩, hown, hchildren⟩ := hpending.children hp hinv hc hstep
    exact .of_children hc hframe hown (ih hp hinv₁ hchildren)
  | nil _ ih => exact fun hp hinv _ _ _ _ ↦ .nil hp (ih hinv)
  | cons _ _ _ ihinside ihfirst ihrest =>
    intro hp hinv _ _ _ hpending
    obtain ⟨hinv₁, hframe₁⟩ := ihinside hinv
    have hpending₁ := hpending.of_frame hp (hframe₁.mono Set.sdiff_subset)
      fun _ _ m _ ↦ hframe₁.passing _ hp m
    have hdisjoint := List.pairwise_cons.mp hpending.disjoint
    have hfirst := ihfirst hp hinv₁ ⟨hpending₁.announces, hpending₁.hint, List.pairwise_singleton _ _,
      fun n' hn' ↦ hpending₁.held n' (List.mem_cons.mpr (.inl (List.mem_singleton.mp hn')))⟩
    -- The nodes that are still to be told are not below the first one.
    have hrest := ihrest hp hfirst.inv (Pending.of_frame ⟨hpending₁.announces, hpending₁.hint,
      hdisjoint.2, fun n' hn' ↦ hpending₁.held n' (List.mem_cons_of_mem _ hn')⟩ hp hfirst.frame
        fun n' hn' m hm ↦ hfirst.elsewhere m fun k hk ↦ by
          obtain rfl := List.mem_singleton.mp hk
          exact fun hkm ↦ hdisjoint.1 n' hn' m hkm hm)
    exact .cons hp hdisjoint.1 hframe₁ hfirst hrest
  | @addFacts F facts s s' s'' _ hok _ _ ihop ih =>
    intro hinv
    have hcovered : BatchCovered net kb source F facts s := hok
    obtain ⟨hstart, hpending⟩ := hcovered.pending hinv
    have hgroups : groupFacts (factsByType (batchEntered kb facts s).heap facts) ⊆
        F ∪ {f | f ∈ facts} := by
      rw [groupFacts_factsByType]
      exact Set.subset_union_right
    obtain ⟨hinv', hframe'⟩ := hcovered.told hinv (ihop hgroups hstart hpending)
    obtain ⟨hinv'', hframe⟩ := ih hinv'
    exact ⟨hinv'', hframe'.trans subset_rfl hframe⟩
  | noGroups _ ih =>
    intro _ hinv s₀ _
    obtain ⟨hinv', hframe⟩ := ih hinv
    refine ⟨hinv', hframe.mono Set.sdiff_subset, fun p hp ↦ ?_⟩
    obtain ⟨_, hgroup, -⟩ := hp
    exact absurd hgroup List.not_mem_nil
  | group _ _ ihfirst ihrest =>
    intro hF hinv s₀ hpending
    have hfacts := groupFacts_cons.symm.subset.trans hF
    obtain ⟨left₀, hfirst⟩ := hpending.first
    obtain ⟨htold, -⟩ := ihfirst (Set.subset_union_left.trans hfacts) hinv hfirst
    have hrest := ihrest (Set.subset_union_right.trans hfacts) htold.inv (hpending.tail hF htold)
    exact .cons hpending hF htold hrest
  | stopBatch hc hnone => exact fun _ hinv hpending ↦ hpending.stop hinv hc hnone
  | passBatch hc hsome _ ih =>
    intro B s₀ arrives left₀ hB hinv hpending
    obtain ⟨⟨hinv₁, hframe⟩, hown, inner, hchildren, hleft⟩ := hpending.pass hinv hB hc hsome
    obtain ⟨htold, rfl⟩ := ih hB hinv₁ hchildren
    refine ⟨.of_children hc hframe (fun m hm ↦ ?_) hown htold, hleft⟩
    rw [AlphaNetwork.passBatch, updatePassing, Session.updateMem_mem_ne _ hm]
  | nilBatch _ ih => exact fun hB hinv hpending ↦ BatchTold.nil hpending hB (ih hinv)
  | consBatch _ _ _ ihinside ihfirst ihrest =>
    intro B s₀ arrives left₀ hB hinv hpending
    obtain ⟨hinv₁, hframe₁⟩ := ihinside hinv
    have hpending₁ := hpending.of_frame hB hframe₁
    obtain ⟨mid₀, hmid, hrestSpared, hlater⟩ := hpending₁.spared.uncons
    obtain ⟨hfirst, rfl⟩ := ihfirst hB hinv₁ (hpending₁.head hmid)
    obtain ⟨hrest, hleft⟩ := ihrest hB hfirst.inv
      (hpending₁.tail hB hmid hrestSpared hlater hfirst)
    exact ⟨.cons (List.pairwise_cons.mp hpending.disjoint).1 hB hpending.keeps hframe₁ hfirst hrest,
      hleft⟩

theorem AlphaInv.start (heap : Heap) : AlphaInv net kb source ∅ { heap := heap } where
  keys hmem := absurd hmem List.not_mem_nil
  distinct _ hf := absurd hf fun hf ↦ hf.elim id fun ⟨_, hmem⟩ ↦ List.not_mem_nil hmem
  exact _ hf := absurd hf fun ⟨_, hmem⟩ ↦ List.not_mem_nil hmem
  supported _ _ hid := absurd hid List.not_mem_nil

theorem AlphaInv.exact_all (h : AlphaInv net kb source ∅ s) : net.Exact kb.runtime source s := by
  intro n c hc id
  constructor
  · intro hid
    obtain ⟨f, hf, rfl⟩ := h.supported hc id hid
    rw [Set.empty_union] at hf
    exact ⟨f, hf, (h.exact f hf (Set.notMem_empty f) hc).mp hid, rfl⟩
  · rintro ⟨f, hf, hsatisfies, rfl⟩
    exact (h.exact f hf (Set.notMem_empty f) hc).mpr hsatisfies

end AlphaNetwork

open AlphaNetwork in
/-- **Alpha nodes are exact after every modification**, in every run whose operations are covered,
those nested in a propagation included. -/
theorem alphaNodes_exact (net : AlphaNetwork) (kb : KnowledgeBase)
    (source : FactPtr → Option String) {heap : Heap} {s s' : Session} {p : FactPtr}
    {fields : List (String × ConstraintValue)} {hint : Option ModifiedFieldsHint}
    (hrun : Runs net kb (.covered net kb source) ∅ .inside { heap := heap } s)
    (hmodify : Runs net kb (.covered net kb source) ∅ (.mutation (.modify p fields hint)) s s') :
    net.Exact kb.runtime source s' := by
  have hinv := (hrun.keeping (.start heap)).1
  exact (hmodify.keeping hinv).1.exact_all

end RulesForge
