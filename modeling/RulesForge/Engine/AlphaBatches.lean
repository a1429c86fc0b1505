import RulesForge.Engine.AlphaHints

/-!
# Batches under way

The facts of a batch are under way together. While they go through the alpha nodes, one vector is
handed from node to node; `BatchPending` says what the nodes still have to be told, against the
session in which the propagation started, and `BatchTold` what they hold when they have been told.
A covered batch leaves every alpha node with the facts that satisfy it (`BatchCovered.told`).
-/

namespace RulesForge

namespace AlphaNetwork

variable {net : AlphaNetwork} {kb : KnowledgeBase} {source : FactPtr → Option String}
  {F B : Set FactPtr} {s s' s₀ s₁ s₂ : Session} {arrives : FactPtr → Prop} {n : ℕ} {ns : List ℕ}
  {c : ParsedConstraint} {facts left : List FactPtr}

/-! ### Spared vectors -/

theorem Spared.subset {T : ParsedConstraint → FactPtr → Bool} (h : Spared net T ns facts left) :
    left ⊆ facts := by
  induction h with
  | nil => exact List.Subset.refl _
  | refuse _ _ _ ih => exact ih
  | pass _ _ _ _ _ ihinner ih =>
    refine List.Subset.trans ih ?_
    split
    · exact List.Subset.trans ihinner List.filter_sublist.subset
    · exact List.Subset.refl _

/-- The first node and the others. -/
theorem Spared.uncons {T : ParsedConstraint → FactPtr → Bool}
    (h : Spared net T (n :: ns) facts left) :
    ∃ mid, Spared net T [n] facts mid ∧ Spared net T ns mid left ∧
      ∀ f ∈ facts, f ∉ mid → ∀ m ∈ ns, ∀ c, net.constraint m = some c → T c f = false := by
  cases h with
  | refuse hc hnone hrest =>
    exact ⟨facts, .refuse hc hnone .nil, hrest, fun f hf hnot ↦ absurd hf hnot⟩
  | pass hc hsome hinner hlater hrest =>
    exact ⟨_, .pass hc hsome hinner (fun _ _ _ m hm ↦ absurd hm List.not_mem_nil) .nil, hrest,
      hlater⟩

/-! ### The propagation of a batch -/

/-- The facts of a batch have still to be told to some nodes: the vector has all that arrive there
and are not refused by all of the nodes, and what the nodes hold of the batch satisfies them. -/
structure BatchPending (net : AlphaNetwork) (kb : KnowledgeBase) (s₀ : Session) (B : Set FactPtr)
    (arrives : FactPtr → Prop) (ns : List ℕ) (facts left : List FactPtr) (s : Session) : Prop where
  keeps : Keeps net kb B s₀ s
  mem_facts : ∀ p ∈ facts, p ∈ B ∧ arrives p
  missing : ∀ p ∈ B, arrives p → p ∈ facts ∨ ∀ n ∈ ns, ∀ c, net.constraint n = some c →
    checkConstraint kb.runtime s₀.heap c p = false
  spared : Spared net (checkConstraint kb.runtime s₀.heap) ns facts left
  disjoint : ns.Pairwise fun n n' ↦ ∀ m, net.Below n m → ¬ net.Below n' m
  held : ∀ p ∈ B, ∀ n ∈ ns, ∀ m, net.Below n m → (s₀.heap p).id ∈ (s.mem m).passingFacts →
    arrives p ∧ net.Through (fun c ↦ checkConstraint kb.runtime s₀.heap c p = true) n m

/-- The facts of a batch have been told to some nodes: they, and the nodes below them, hold those
that pass the tests on the way. -/
structure BatchTold (net : AlphaNetwork) (kb : KnowledgeBase) (source : FactPtr → Option String)
    (F : Set FactPtr) (s₀ : Session) (B : Set FactPtr) (arrives : FactPtr → Prop) (ns : List ℕ)
    (s s' : Session) : Prop where
  inv : AlphaInv net kb source F s'
  frame : Frame net kb F (F \ B) s s'
  held : ∀ p ∈ B, ∀ n ∈ ns, ∀ m, net.Below n m → ((s₀.heap p).id ∈ (s'.mem m).passingFacts ↔
    arrives p ∧ net.Through (fun c ↦ checkConstraint kb.runtime s₀.heap c p = true) n m)
  elsewhere : ∀ p ∈ B, ∀ m, (∀ n ∈ ns, ¬ net.Below n m) →
    ((s₀.heap p).id ∈ (s'.mem m).passingFacts ↔ (s₀.heap p).id ∈ (s.mem m).passingFacts)

/-- A fact of the batch that arrives at a node and passes its test is in the vector. -/
theorem BatchPending.mem_of_passes (h : BatchPending net kb s₀ B arrives ns facts left s)
    (hn : n ∈ ns) (hc : net.constraint n = some c) {p : FactPtr} (hp : p ∈ B) (harrives : arrives p)
    (hcheck : checkConstraint kb.runtime s₀.heap c p = true) : p ∈ facts := by
  refine (h.missing p hp harrives).resolve_right fun hrefused ↦ ?_
  exact Bool.false_ne_true ((hrefused n hn c hc).symm.trans hcheck)

/-- The test is that of the start. -/
theorem BatchPending.filter_eq (h : BatchPending net kb s₀ B arrives ns facts left s)
    (hc : net.constraint n = some c) :
    facts.filter (checkConstraint kb.runtime s.heap c) =
      facts.filter (checkConstraint kb.runtime s₀.heap c) :=
  List.filter_congr fun p hp ↦ h.keeps.tests hc p (h.mem_facts p hp).1

/-- What has to be told does not change while something else happens. -/
theorem BatchPending.of_frame (h : BatchPending net kb s₀ B arrives ns facts left s) (hB : B ⊆ F)
    (hframe : Frame net kb F F s s') : BatchPending net kb s₀ B arrives ns facts left s' where
  keeps := h.keeps.trans (hframe.keeps.mono hB)
  mem_facts := h.mem_facts
  missing := h.missing
  spared := h.spared
  disjoint := h.disjoint
  held p hp n hn m hm hid := by
    rw [← h.keeps.id p hp, hframe.passing p (hB hp), h.keeps.id p hp] at hid
    exact h.held p hp n hn m hm hid

/-- The first node alone. -/
theorem BatchPending.head {mid : List FactPtr}
    (h : BatchPending net kb s₀ B arrives (n :: ns) facts left s)
    (hmid : Spared net (checkConstraint kb.runtime s₀.heap) [n] facts mid) :
    BatchPending net kb s₀ B arrives [n] facts mid s where
  keeps := h.keeps
  mem_facts := h.mem_facts
  missing p hp harrives := (h.missing p hp harrives).imp_right fun hrefused m hm ↦
    hrefused m (List.mem_cons.mpr (.inl (List.mem_singleton.mp hm)))
  spared := hmid
  disjoint := List.pairwise_singleton _ _
  held p hp m hm := h.held p hp m (List.mem_cons.mpr (.inl (List.mem_singleton.mp hm)))

/-- A node that no fact of the vector passes. -/
theorem BatchPending.stop (h : BatchPending net kb s₀ B arrives [n] facts left s)
    (hinv : AlphaInv net kb source F s) (hc : net.constraint n = some c)
    (hnone : facts.filter (checkConstraint kb.runtime s.heap c) = []) :
    BatchTold net kb source F s₀ B arrives [n] s s ∧ left = facts := by
  rw [h.filter_eq hc] at hnone
  have hn : n ∈ [n] := List.mem_singleton_self n
  refine ⟨⟨hinv, .refl F _ s, fun p hp n' hn' m hm ↦ ⟨h.held p hp n' hn' m hm, ?_⟩,
    fun _ _ _ _ ↦ Iff.rfl⟩, ?_⟩
  · rintro ⟨harrives, hthrough⟩
    obtain rfl := List.mem_singleton.mp hn'
    have hcheck := hthrough.first hc
    have hmem := List.mem_filter.mpr ⟨h.mem_of_passes hn hc hp harrives hcheck, hcheck⟩
    rw [hnone] at hmem
    exact absurd hmem List.not_mem_nil
  · cases h.spared with
    | refuse _ _ hrest =>
      cases hrest
      rfl
    | pass hc' hsome _ _ _ =>
      obtain rfl := Option.some.inj (hc.symm.trans hc')
      exact absurd hnone hsome

/-- A node that takes up facts of the vector. -/
theorem BatchPending.pass (h : BatchPending net kb s₀ B arrives [n] facts left s)
    (hinv : AlphaInv net kb source F s) (hB : B ⊆ F) (hc : net.constraint n = some c)
    (hsome : facts.filter (checkConstraint kb.runtime s.heap c) ≠ []) :
    let survivors := facts.filter (checkConstraint kb.runtime s.heap c)
    let passes p := arrives p ∧ checkConstraint kb.runtime s₀.heap c p = true
    let s₁ := passBatch n survivors s
    (AlphaInv net kb source F s₁ ∧ Frame net kb F (F \ B) s s₁) ∧
      (∀ p ∈ B, (s₀.heap p).id ∈ (s₁.mem n).passingFacts ↔ passes p) ∧
      ∃ inner, BatchPending net kb s₀ B passes (net.children n) survivors inner s₁ ∧
        left = if net.sole n then inner else facts := by
  intro survivors passes s₁
  have hn : n ∈ [n] := List.mem_singleton_self n
  have hsurvivors : survivors = facts.filter (checkConstraint kb.runtime s₀.heap c) :=
    h.filter_eq hc
  have hmem : ∀ p, p ∈ survivors ↔ p ∈ B ∧ passes p := by
    intro p
    rw [hsurvivors, List.mem_filter]
    refine ⟨fun hp ↦ ⟨(h.mem_facts p hp.1).1, (h.mem_facts p hp.1).2, hp.2⟩, fun hp ↦ ?_⟩
    exact ⟨h.mem_of_passes hn hc hp.1 hp.2.1 hp.2.2, hp.2.2⟩
  set passing := survivors.foldl (fun passing f ↦ passing.insert (s.heap f).id)
    (s.mem n).passingFacts with hpassing
  have hinsert : ∀ id, id ∈ passing ↔
      id ∈ (s.mem n).passingFacts ∨ ∃ f ∈ survivors, id = (s.heap f).id :=
    mem_foldl_insert (fun f ↦ (s.heap f).id) survivors (s.mem n).passingFacts
  have hs₁ : s₁ = updatePassing n (fun _ ↦ passing) s := rfl
  have hself : (s₁.mem n).passingFacts = passing := by
    rw [hs₁]
    simp [updatePassing]
  have hother : ∀ m ≠ n, s₁.mem m = s.mem m := fun m hm ↦ s.updateMem_mem_ne hm _
  have hothers : ∀ id, (∀ f ∈ B, id ≠ (s.heap f).id) →
      (id ∈ passing ↔ id ∈ (s.mem n).passingFacts) := by
    intro id hne
    rw [hinsert]
    refine or_iff_left ?_
    rintro ⟨f, hf, rfl⟩
    exact hne f ((hmem f).mp hf).1 rfl
  obtain ⟨hinv₁, hframe⟩ := hinv.updatePassing hB hothers
  have hown : ∀ p ∈ B, (s₀.heap p).id ∈ passing ↔ passes p := by
    intro p hp
    rw [hinsert]
    constructor
    · rintro (hid | ⟨f, hf, hid⟩)
      · obtain ⟨harrives, hthrough⟩ := h.held p hp n hn n .refl hid
        exact ⟨harrives, hthrough.first hc⟩
      · obtain ⟨hfB, hpasses⟩ := (hmem f).mp hf
        rw [← h.keeps.id p hp] at hid
        rwa [hinv.distinct p (.inl (hB hp)) f (.inl (hB hfB)) hid]
    · intro hpasses
      exact .inr ⟨p, (hmem p).mpr ⟨hp, hpasses⟩, (h.keeps.id p hp).symm⟩
  refine ⟨⟨hinv₁, hframe⟩, fun p hp ↦ hself ▸ hown p hp, ?_⟩
  obtain ⟨inner, hinner, hleft⟩ : ∃ inner,
      Spared net (checkConstraint kb.runtime s₀.heap) (net.children n) survivors inner ∧
        left = if net.sole n then inner else facts := by
    cases h.spared with
    | refuse hc' hnone _ =>
      obtain rfl := Option.some.inj (hc.symm.trans hc')
      exact absurd (hsurvivors.trans hnone) hsome
    | pass hc' _ hinner _ hrest =>
      obtain rfl := Option.some.inj (hc.symm.trans hc')
      cases hrest
      exact ⟨_, hsurvivors ▸ hinner, rfl⟩
  refine ⟨inner, ⟨h.keeps.trans (hframe.keeps.mono hB), fun p hp ↦ (hmem p).mp hp,
    fun p hp hpasses ↦ .inl ((hmem p).mpr ⟨hp, hpasses⟩), hinner, children_disjoint n, ?_⟩, hleft⟩
  intro p hp k hk m hm hid
  have hmn : m ≠ n := by
    rintro rfl
    exact not_below_parent hk hm
  rw [hother m hmn] at hid
  obtain ⟨harrives, hthrough⟩ := h.held p hp n hn m (.head hk hm) hid
  obtain ⟨hcheck, hbelow⟩ := (through_child hc hk hm).mp hthrough
  exact ⟨⟨harrives, hcheck⟩, hbelow⟩

/-- The node and its children together. -/
theorem BatchTold.of_children (hc : net.constraint n = some c)
    (hframe : Frame net kb F (F \ B) s s₁)
    (hother : ∀ m ≠ n, (s₁.mem m).passingFacts = (s.mem m).passingFacts)
    (hown : ∀ p ∈ B, (s₀.heap p).id ∈ (s₁.mem n).passingFacts ↔
      arrives p ∧ checkConstraint kb.runtime s₀.heap c p = true)
    (h : BatchTold net kb source F s₀ B
      (fun p ↦ arrives p ∧ checkConstraint kb.runtime s₀.heap c p = true) (net.children n) s₁ s') :
    BatchTold net kb source F s₀ B arrives [n] s s' := by
  refine ⟨h.inv, hframe.trans Set.sdiff_subset h.frame, fun p hp n' hn' m hm ↦ ?_,
    fun p hp m hm ↦ ?_⟩
  · obtain rfl := List.mem_singleton.mp hn'
    rcases Forest.desc_iff.mp hm with rfl | ⟨k, hk, hkm⟩
    · refine (h.elsewhere p hp m fun k hk ↦ not_below_parent hk).trans ?_
      rw [through_self hc]
      exact hown p hp
    · rw [through_child hc hk hkm, ← and_assoc]
      exact h.held p hp k hk m hkm
  · have hmn : m ≠ n := fun hmn ↦ hm n List.mem_cons_self (hmn ▸ .refl)
    have hbelow : ∀ k ∈ net.children n, ¬ net.Below k m :=
      fun k hk hkm ↦ hm n List.mem_cons_self (.head hk hkm)
    rw [h.elsewhere p hp m hbelow, hother m hmn]

/-- No node is left. -/
theorem BatchTold.nil (h : BatchPending net kb s₀ B arrives [] facts left s) (hB : B ⊆ F)
    (hinside : AlphaInv net kb source F s' ∧ Frame net kb F F s s') :
    BatchTold net kb source F s₀ B arrives [] s s' ∧ left = facts := by
  refine ⟨⟨hinside.1, hinside.2.mono Set.sdiff_subset, fun _ _ _ hn ↦ absurd hn List.not_mem_nil,
    fun p hp m _ ↦ ?_⟩, ?_⟩
  · rw [← h.keeps.id p hp]
    exact hinside.2.passing p (hB hp) m
  · cases h.spared
    rfl

/-- After the first node the others have still to be told of what is left of the vector. -/
theorem BatchPending.tail {mid : List FactPtr}
    (h : BatchPending net kb s₀ B arrives (n :: ns) facts left s) (hB : B ⊆ F)
    (hmid : Spared net (checkConstraint kb.runtime s₀.heap) [n] facts mid)
    (hrest : Spared net (checkConstraint kb.runtime s₀.heap) ns mid left)
    (hlater : ∀ f ∈ facts, f ∉ mid → ∀ m ∈ ns, ∀ c, net.constraint m = some c →
      checkConstraint kb.runtime s₀.heap c f = false)
    (hfirst : BatchTold net kb source F s₀ B arrives [n] s s') :
    BatchPending net kb s₀ B arrives ns mid left s' where
  keeps := h.keeps.trans (hfirst.frame.keeps.mono hB)
  mem_facts p hp := h.mem_facts p (hmid.subset hp)
  missing p hp harrives := by
    rcases h.missing p hp harrives with hmem | hrefused
    · by_cases hleft : p ∈ mid
      · exact .inl hleft
      · exact .inr (hlater p hmem hleft)
    · exact .inr fun m hm ↦ hrefused m (List.mem_cons_of_mem _ hm)
  spared := hrest
  disjoint := (List.pairwise_cons.mp h.disjoint).2
  held p hp n' hn' m hm hid := by
    -- The nodes that are still to be told are not below the first one.
    rw [hfirst.elsewhere p hp m fun k hk ↦ by
      obtain rfl := List.mem_singleton.mp hk
      exact fun hkm ↦ (List.pairwise_cons.mp h.disjoint).1 n' hn' m hkm hm] at hid
    exact h.held p hp n' (List.mem_cons_of_mem _ hn') m hm hid

/-- The first node and the others. -/
theorem BatchTold.cons (hdisjoint : ∀ n' ∈ ns, ∀ m, net.Below n m → ¬ net.Below n' m) (hB : B ⊆ F)
    (hkeeps : Keeps net kb B s₀ s) (hinside : Frame net kb F F s s₁)
    (hfirst : BatchTold net kb source F s₀ B arrives [n] s₁ s₂)
    (hrest : BatchTold net kb source F s₀ B arrives ns s₂ s') :
    BatchTold net kb source F s₀ B arrives (n :: ns) s s' := by
  have hsub : F \ B ⊆ F := Set.sdiff_subset
  refine ⟨hrest.inv, ((hinside.mono hsub).trans hsub hfirst.frame).trans hsub hrest.frame,
    fun p hp n' hn' m hm ↦ ?_, fun p hp m hm ↦ ?_⟩
  · rcases List.mem_cons.mp hn' with rfl | hn'
    · rw [hrest.elsewhere p hp m fun n'' hn'' ↦ hdisjoint n'' hn'' m hm]
      exact hfirst.held p hp n' List.mem_cons_self m hm
    · exact hrest.held p hp n' hn' m hm
  · rw [hrest.elsewhere p hp m fun n' hn' ↦ hm n' (List.mem_cons_of_mem _ hn'),
      hfirst.elsewhere p hp m fun n' hn' ↦ by
        obtain rfl := List.mem_singleton.mp hn'
        exact hm n' List.mem_cons_self]
    rw [← hkeeps.id p hp]
    exact hinside.passing p (hB hp) m

/-! ### The groups of a batch -/

/-- The facts of some groups. -/
def groupFacts (groups : List (String × List FactPtr)) : Set FactPtr :=
  {f | ∃ group ∈ groups, f ∈ group.2}

/-- Some groups of a batch have still to be sent through their entry points. -/
structure GroupsPending (net : AlphaNetwork) (kb : KnowledgeBase)
    (source : FactPtr → Option String) (s₀ : Session) (groups : List (String × List FactPtr))
    (s : Session) : Prop where
  keeps : Keeps net kb (groupFacts groups) s₀ s
  type : ∀ group ∈ groups, ∀ f ∈ group.2, source f = none ∧ (s₀.heap f).type = group.1
  disjoint : groups.Pairwise fun group group' ↦ ∀ f ∈ group.2, f ∉ group'.2
  spared : ∀ group ∈ groups, ∃ left, Spared net (checkConstraint kb.runtime s₀.heap)
    (net.entryChildren none group.1) group.2 left
  held : ∀ p ∈ groupFacts groups, ∀ {n c}, net.constraint n = some c →
    (s₀.heap p).id ∈ (s.mem n).passingFacts → net.Satisfies kb.runtime s₀.heap source p n

/-- Some groups have been sent through their entry points: the alpha nodes hold those of their facts
that satisfy them. -/
structure GroupsTold (net : AlphaNetwork) (kb : KnowledgeBase) (source : FactPtr → Option String)
    (F : Set FactPtr) (s₀ : Session) (groups : List (String × List FactPtr)) (s s' : Session) :
    Prop where
  inv : AlphaInv net kb source F s'
  frame : Frame net kb F (F \ groupFacts groups) s s'
  held : ∀ p ∈ groupFacts groups, ∀ {n c}, net.constraint n = some c →
    ((s₀.heap p).id ∈ (s'.mem n).passingFacts ↔ net.Satisfies kb.runtime s₀.heap source p n)

section Groups

variable {type : String} {groups : List (String × List FactPtr)}

theorem groupFacts_cons :
    groupFacts ((type, facts) :: groups) = {f | f ∈ facts} ∪ groupFacts groups := by
  ext f
  simp only [groupFacts, Set.mem_ofPred_eq, List.exists_mem_cons_iff, Set.mem_union]

/-- The first group arrives at the nodes of its type. -/
theorem GroupsPending.first (h : GroupsPending net kb source s₀ ((type, facts) :: groups) s) :
    ∃ left, BatchPending net kb s₀ {f | f ∈ facts} (fun _ ↦ True) (net.entryChildren none type)
      facts left s := by
  obtain ⟨left, hleft⟩ := h.spared (type, facts) List.mem_cons_self
  have hsub : {f | f ∈ facts} ⊆ groupFacts ((type, facts) :: groups) :=
    groupFacts_cons ▸ Set.subset_union_left
  refine ⟨left, h.keeps.mono hsub, fun p hp ↦ ⟨hp, trivial⟩, fun p hp _ ↦ .inl hp, hleft,
    entryChildren_disjoint none type, fun p hp n hn m hm hid ↦ ⟨trivial, ?_⟩⟩
  obtain ⟨hsource, htype⟩ := h.type (type, facts) List.mem_cons_self p hp
  have hn' : n ∈ net.entryChildren (source p) (s₀.heap p).type := by
    rw [hsource, htype]
    exact hn
  obtain ⟨c, hc⟩ := entryChildren_alpha hn hm
  exact (satisfies_iff_through hn' hm).mp (h.held p (hsub hp) hc hid)

/-- The first group and the others. -/
theorem GroupsPending.tail (h : GroupsPending net kb source s₀ ((type, facts) :: groups) s)
    (hF : groupFacts ((type, facts) :: groups) ⊆ F)
    (hfirst : BatchTold net kb source F s₀ {f | f ∈ facts} (fun _ ↦ True)
      (net.entryChildren none type) s s') : GroupsPending net kb source s₀ groups s' := by
  obtain ⟨hdisjoint, hrest⟩ := List.pairwise_cons.mp h.disjoint
  have hsub : groupFacts groups ⊆ groupFacts ((type, facts) :: groups) :=
    groupFacts_cons ▸ Set.subset_union_right
  refine ⟨(h.keeps.mono hsub).trans (hfirst.frame.keeps.mono (hsub.trans hF)),
    fun group hgroup ↦ h.type group (List.mem_cons_of_mem _ hgroup), hrest,
    fun group hgroup ↦ h.spared group (List.mem_cons_of_mem _ hgroup), fun p hp n c hc hid ↦ ?_⟩
  have hnot : p ∉ facts := by
    obtain ⟨group, hgroup, hmem⟩ := hp
    exact fun hfacts ↦ hdisjoint group hgroup p hfacts hmem
  refine h.held p (hsub hp) hc ?_
  rw [← h.keeps.id p (hsub hp)] at hid ⊢
  exact (hfirst.frame.passing p ⟨hF (hsub hp), hnot⟩ n).mp hid

theorem GroupsTold.cons (h : GroupsPending net kb source s₀ ((type, facts) :: groups) s)
    (hF : groupFacts ((type, facts) :: groups) ⊆ F)
    (hfirst : BatchTold net kb source F s₀ {f | f ∈ facts} (fun _ ↦ True)
      (net.entryChildren none type) s s₁)
    (hrest : GroupsTold net kb source F s₀ groups s₁ s') :
    GroupsTold net kb source F s₀ ((type, facts) :: groups) s s' := by
  have hset := @groupFacts_cons facts type groups
  have hframe : Frame net kb F (F \ groupFacts ((type, facts) :: groups)) s s' := by
    have hsub : ∀ {P : Set FactPtr}, P ⊆ groupFacts ((type, facts) :: groups) →
        F \ groupFacts ((type, facts) :: groups) ⊆ F \ P := Set.sdiff_subset_sdiff_right
    have h₁ := hfirst.frame
    have h₂ := hrest.frame
    refine Frame.trans Set.sdiff_subset ⟨h₁.keeps, h₁.facts, fun f hf ↦ h₁.passing f ?_, h₁.hint⟩
      ⟨h₂.keeps, h₂.facts, fun f hf ↦ h₂.passing f ?_, h₂.hint⟩
    · exact hsub (hset ▸ Set.subset_union_left) hf
    · exact hsub (hset ▸ Set.subset_union_right) hf
  refine ⟨hrest.inv, hframe, fun p hp n c hc ↦ ?_⟩
  by_cases hlater : p ∈ groupFacts groups
  · exact hrest.held p hlater hc
  · -- The facts of the first group, which the others leave alone.
    have hmem : p ∈ facts := (hset ▸ hp : p ∈ {f | f ∈ facts} ∪ groupFacts groups).resolve_right hlater
    have hid₁ : (s₁.heap p).id = (s₀.heap p).id :=
      (hfirst.frame.keeps.id p (hF hp)).trans (h.keeps.id p hp)
    have hpassing := hrest.frame.passing p ⟨hF hp, hlater⟩ n
    rw [hid₁] at hpassing
    rw [hpassing]
    obtain ⟨hsource, htype⟩ : source p = none ∧ (s₀.heap p).type = type :=
      h.type (type, facts) List.mem_cons_self p hmem
    by_cases hbelow : ∃ k ∈ net.entryChildren none type, net.Below k n
    · obtain ⟨k, hk, hkn⟩ := hbelow
      rw [hfirst.held p hmem k hk n hkn, true_and]
      rw [← hsource, ← htype] at hk
      exact (satisfies_iff_through hk hkn).symm
    · push Not at hbelow
      rw [hfirst.elsewhere p hmem n hbelow]
      refine ⟨h.held p hp hc, ?_⟩
      rintro ⟨k, hk, hthrough⟩
      rw [hsource, htype] at hk
      exact absurd hthrough.below_node (hbelow k hk)

end Groups

/-! ### A batch -/

/-- The facts of working memory when a batch starts to propagate. -/
theorem BatchCovered.stored (h : BatchCovered net kb source F facts s)
    (hinv : AlphaInv net kb source F s) :
    (∀ {id f}, (id, f) ∈ (batchEntered kb facts s).workingMemory.facts →
      id = ((batchEntered kb facts s).heap f).id) ∧
    ∀ f, f ∈ (batchEntered kb facts s).facts ↔ f ∈ s.facts ∨ f ∈ facts := by
  have hchecked := checkFacts_checked kb facts s
  have hstored : BatchStored facts (checkFacts kb facts s).1 (batchEntered kb facts s) :=
    enterFacts_stored kb facts (hchecked.workingMemory ▸ h.counter)
  have hold : ∀ {id f}, (id, f) ∈ s.workingMemory.facts →
      id = ((batchEntered kb facts s).heap f).id := fun {id f} hmem ↦
    (hinv.keys hmem).trans (h.others.id f (.inr ⟨id, hmem⟩)).symm
  refine ⟨fun {id f} hmem ↦ ?_, fun f ↦ ⟨?_, ?_⟩⟩
  · rcases hstored.store hmem with hmem | ⟨-, hid⟩
    · exact hold (hchecked.workingMemory ▸ hmem)
    · exact hid
  · rintro ⟨id, hmem⟩
    rcases hstored.store hmem with hmem | ⟨hf, -⟩
    · exact .inl ⟨id, hchecked.workingMemory ▸ hmem⟩
    · exact .inr hf
  · intro hf
    by_cases hbatch : f ∈ facts
    · exact ⟨_, hstored.present f hbatch fun g hg hid ↦ h.distinct g (.inr hg) f hbatch hid⟩
    · obtain ⟨id, hmem⟩ := hf.resolve_right hbatch
      refine ⟨id, hstored.kept (hchecked.workingMemory ▸ hmem) fun g hg hid ↦ ?_⟩
      rw [hold hmem] at hid
      exact hbatch (h.distinct f (.inl (.inr ⟨id, hmem⟩)) g hg hid ▸ hg)

theorem batchEntered_mem (h : 0 < s.workingMemory.nextId) :
    (batchEntered kb facts s).mem = s.mem ∧
      (batchEntered kb facts s).currentModifiedFields = s.currentModifiedFields := by
  have hchecked := checkFacts_checked kb facts s
  have hstored : BatchStored facts (checkFacts kb facts s).1 (batchEntered kb facts s) :=
    enterFacts_stored kb facts (hchecked.workingMemory ▸ h)
  exact ⟨hstored.mem.trans hchecked.mem, hstored.hint.trans hchecked.hint⟩

/-- Where a batch starts, its facts have still to be told to the alpha nodes of their types. -/
theorem BatchCovered.pending (h : BatchCovered net kb source F facts s)
    (hinv : AlphaInv net kb source F s) :
    AlphaInv net kb source (F ∪ {f | f ∈ facts}) (batchEntered kb facts s) ∧
      GroupsPending net kb source (batchEntered kb facts s)
        (factsByType (batchEntered kb facts s).heap facts) (batchEntered kb facts s) := by
  obtain ⟨hkeys, hfacts⟩ := h.stored hinv
  obtain ⟨hmem, -⟩ := @batchEntered_mem kb s facts h.counter
  have hdistinct : ∀ f ∈ F ∪ {f | f ∈ facts} ∪ (batchEntered kb facts s).facts,
      f ∈ F ∪ s.facts ∪ {f | f ∈ facts} := by
    rintro f ((hf | hf) | hf)
    · exact .inl (.inl hf)
    · exact .inr hf
    · exact ((hfacts f).mp hf).imp .inr id
  refine ⟨⟨hkeys, fun f hf g hg hid ↦ ?_, fun f hf hF n c hc ↦ ?_, fun {n c} hc id hid ↦ ?_⟩,
    .refl _ _, fun group hgroup f hf ↦ ?_, factsByType_disjoint _ _, h.spared,
    fun p hp n c hc hid ↦ ?_⟩
  · have hf' := hdistinct f hf
    have hg' := hdistinct g hg
    by_cases hgb : g ∈ facts
    · exact h.distinct f hf' g hgb hid
    · by_cases hfb : f ∈ facts
      · exact (h.distinct g hg' f hfb hid.symm).symm
      · have hf'' := hf'.resolve_right hfb
        have hg'' := hg'.resolve_right hgb
        rw [h.others.id f hf'', h.others.id g hg''] at hid
        exact hinv.distinct f hf'' g hg'' hid
  · have hf' : f ∈ s.facts := ((hfacts f).mp hf).resolve_right fun hfb ↦ hF (.inr hfb)
    rw [hmem, h.others.id f (.inr hf'), h.others.satisfies_iff (.inr hf')]
    exact hinv.exact f hf' (fun hF' ↦ hF (.inl hF')) hc
  · rw [hmem] at hid
    obtain ⟨f, hf, rfl⟩ := hinv.supported hc id hid
    exact ⟨f, hf.elim (fun hF ↦ .inl (.inl hF)) fun hf ↦ .inr ((hfacts f).mpr (.inl hf)),
      (h.others.id f hf).symm⟩
  · rw [eq_filter_of_mem_factsByType hgroup] at hf
    obtain ⟨hf, htype⟩ := List.mem_filter.mp hf
    exact ⟨h.through f hf, of_decide_eq_true htype⟩
  · obtain ⟨group, hgroup, hp⟩ := hp
    rw [eq_filter_of_mem_factsByType hgroup] at hp
    have hpb := List.mem_of_mem_filter hp
    rw [hmem] at hid
    obtain ⟨f, hf, hheld⟩ := hinv.supported hc _ hid
    rw [← h.others.id f hf] at hheld
    obtain rfl := h.distinct f (.inl hf) p hpb hheld.symm
    have hpf : f ∈ s.facts := hf.resolve_left (h.idle f hpb)
    rw [h.others.satisfies_iff hf]
    refine (hinv.exact f hpf (h.idle f hpb) hc).mp ?_
    rwa [← h.others.id f hf]

theorem groupFacts_factsByType (heap : Heap) (facts : List FactPtr) :
    groupFacts (factsByType heap facts) = {f | f ∈ facts} := by
  ext f
  refine ⟨?_, fun hf ↦ exists_mem_factsByType hf⟩
  rintro ⟨group, hgroup, hf⟩
  rw [eq_filter_of_mem_factsByType hgroup] at hf
  exact List.mem_of_mem_filter hf

/-- A batch whose facts have been told to the alpha nodes leaves them exact. -/
theorem BatchCovered.told (h : BatchCovered net kb source F facts s)
    (hinv : AlphaInv net kb source F s)
    (htold : GroupsTold net kb source (F ∪ {f | f ∈ facts}) (batchEntered kb facts s)
      (factsByType (batchEntered kb facts s).heap facts) (batchEntered kb facts s) s') :
    AlphaInv net kb source F s' ∧ Frame net kb F F s s' := by
  obtain ⟨-, hfacts⟩ := h.stored hinv
  obtain ⟨hmem, hhint⟩ := @batchEntered_mem kb s facts h.counter
  have hgroups := groupFacts_factsByType (batchEntered kb facts s).heap facts
  have hkeeps := htold.frame.keeps
  have hothers : Keeps net kb F s (batchEntered kb facts s) := h.others.mono Set.subset_union_left
  refine ⟨⟨htold.inv.keys, fun f hf g hg ↦ htold.inv.distinct f (hf.imp .inl id) g (hg.imp .inl id),
    fun f hf hF n c hc ↦ ?_, fun {n c} hc id hid ↦ ?_⟩,
    hothers.trans (hkeeps.mono Set.subset_union_left), fun f hf ↦ ?_, fun f hf n ↦ ?_, ?_⟩
  · by_cases hfb : f ∈ facts
    · have hmemF : f ∈ F ∪ {f | f ∈ facts} := .inr hfb
      rw [hkeeps.id f hmemF, hkeeps.satisfies_iff hmemF]
      exact htold.held f (hgroups ▸ hfb) hc
    · exact htold.inv.exact f hf (fun hF' ↦ hF'.elim hF hfb) hc
  · obtain ⟨f, hf, rfl⟩ := htold.inv.supported hc id hid
    refine ⟨f, ?_, rfl⟩
    rcases hf with (hf | hf) | hf
    · exact .inl hf
    · exact .inr ((htold.frame.facts f (.inr hf)).mpr ((hfacts f).mpr (.inr hf)))
    · exact .inr hf
  · rw [htold.frame.facts f (.inl hf), hfacts]
    exact or_iff_left fun hfb ↦ h.idle f hfb hf
  · have hfb : f ∉ facts := fun hfb ↦ h.idle f hfb hf
    rw [← hothers.id f hf, ← hmem]
    exact htold.frame.passing f ⟨.inl hf, hgroups ▸ hfb⟩ n
  · rw [← hhint]
    exact htold.frame.hint

end AlphaNetwork

end RulesForge
