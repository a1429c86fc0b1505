import RulesForge.Rete.ConditionRuns

/-!
# The choice between an indexed join and a cross product

`create_standard_node` builds a hashed join when one of the join constraints is an equality with
a variable in scope, and a cross product otherwise. Here both kinds of node go through the same
activations, with facts that do not change in between, and what they deliver is compared.

An index on an **earlier** variable is harmless: a token and a fact that pass the constraints
have the same key. But the variable may be the pattern's own, past the end of the tokens that
arrive. No token has a key then, none is stored, and nothing is delivered (`OwnKey`,
`standardKind_delivers`).
-/

namespace RulesForge

/-! ### Activations -/

/-- What a join is told of. -/
inductive JoinActivation where
  | left (w : TokenWME) (type : PropagationType)
  | right (f : FactPtr) (type : PropagationType)

section Activate

variable (kb : KnowledgeBase) (n : ℕ) (emit : Emission)

/-- `left_activate` and `right_activate` of a join of some kind. -/
def joinActivate : NodeKind → Session → JoinActivation → Session
  | .crossProductJoin c, s, .left w type => crossProductLeft kb n emit c w type s
  | .crossProductJoin c, s, .right f type => crossProductRight kb n emit c f type s
  | .hashedJoin c l _, s, .left w type => hashedLeft kb n emit c l w type s
  | .hashedJoin c _ r, s, .right f type => hashedRight kb n emit c r f type s
  | _, s, _ => s

end Activate

section Runs

variable (heap : Heap) (c : JoinCondition) (d : ℕ)

/-- Sequences of assertions and retractions, with the tokens and the facts that are stored at
their end. The tokens are of one depth; a token or a fact is asserted when it is not stored, and
a fact with the id of a stored one is that fact. -/
inductive JoinRun : List JoinActivation → Set TokenWME → Set FactPtr → Prop
  | start : JoinRun [] ∅ ∅
  | assertLeft {run D R w} : JoinRun run D R → w ∉ D → w.depth = d →
      IntsOrTexts (c.tokenReading heap w) → JoinRun (run ++ [.left w .assert]) (insert w D) R
  | retractLeft {run D R w} : JoinRun run D R → IntsOrTexts (c.tokenReading heap w) →
      JoinRun (run ++ [.left w .retract]) (D \ {w}) R
  | assertRight {run D R f} : JoinRun run D R → f ∉ R →
      (∀ g ∈ R, (heap g).id = (heap f).id → g = f) → IntsOrTexts (c.factReading heap f) →
      JoinRun (run ++ [.right f .assert]) D (insert f R)
  | retractRight {run D R f} : JoinRun run D R →
      (∀ g ∈ R, (heap g).id = (heap f).id → g = f) → IntsOrTexts (c.factReading heap f) →
      JoinRun (run ++ [.right f .retract]) D (R \ {f})

/-- A join before its first activation. -/
structure FreshJoin (n : ℕ) (children : Children n) (s : Session) : Prop where
  heap : s.heap = heap
  memory : s.mem n = {}
  children : children.Hold ∅ s.mem

/-- The constraints are indexed by a variable that the arriving tokens do not reach. -/
def OwnKey (indexed : Bool) : Prop :=
  indexed = true ∧ ∃ l r, BetaNetworkBuilder.hashKey c.bindings c.joins = some (l, r) ∧ d ≤ l.2

end Runs

/-- The children hold one token for each of the pairs `P`, and no others. -/
def HoldsPairs {n : ℕ} (children : Children n) (P : Set (TokenWME × FactPtr)) (s : Session) : Prop :=
  ∃ X, children.Hold X s.mem ∧ (∀ x ∈ X, ∃ a w f, x = .mk a w f ∧ (w, f) ∈ P) ∧
    ∀ w f, (w, f) ∈ P → ∃! a, .mk a w f ∈ X

/-! ### Stored tokens and facts -/

section Stored

variable {heap : Heap} {c : JoinCondition} {d : ℕ} {run : List JoinActivation} {D : Set TokenWME}
  {R : Set FactPtr}

theorem JoinRun.tokens (h : JoinRun heap c d run D R) :
    ∀ w ∈ D, w.depth = d ∧ IntsOrTexts (c.tokenReading heap w) := by
  induction h with
  | start => exact fun w hw ↦ absurd hw (Set.notMem_empty w)
  | assertLeft _ _ hdepth hvalues ih =>
    intro w hw
    rcases Set.mem_insert_iff.mp hw with rfl | hw
    · exact ⟨hdepth, hvalues⟩
    · exact ih w hw
  | retractLeft _ _ ih => exact fun w hw ↦ ih w hw.1
  | assertRight _ _ _ _ ih => exact ih
  | retractRight _ _ _ ih => exact ih

theorem JoinRun.facts (h : JoinRun heap c d run D R) :
    ∀ f ∈ R, IntsOrTexts (c.factReading heap f) := by
  induction h with
  | start => exact fun f hf ↦ absurd hf (Set.notMem_empty f)
  | assertLeft _ _ _ _ ih => exact ih
  | retractLeft _ _ ih => exact ih
  | assertRight _ _ _ hvalues ih =>
    intro f hf
    rcases Set.mem_insert_iff.mp hf with rfl | hf
    · exact hvalues
    · exact ih f hf
  | retractRight _ _ _ ih => exact fun f hf ↦ ih f hf.1

theorem JoinRun.injOn (h : JoinRun heap c d run D R) : Set.InjOn (fun f ↦ (heap f).id) R := by
  induction h with
  | start => exact Set.injOn_empty _
  | assertLeft _ _ _ _ ih => exact ih
  | retractLeft _ _ ih => exact ih
  | assertRight _ _ hid _ ih => exact injOn_insert_of_forall ih hid
  | retractRight _ _ _ ih => exact ih.mono Set.sdiff_subset

end Stored

/-! ### Cross products -/

section CrossProduct

variable {kb : KnowledgeBase} {n : ℕ} {children : Children n} {heap : Heap} {c : JoinCondition}
  {d : ℕ} {run : List JoinActivation} {D : Set TokenWME} {R : Set FactPtr} {base s : Session}
  {p : FactPtr}

theorem childTokens_empty : childTokens (fun _ ↦ []) = ∅ := by
  ext w
  simp [childTokens]

/-- What holds of a join that is a cross product. -/
structure CrossProductState (kb : KnowledgeBase) (n : ℕ) (children : Children n) (c : JoinCondition)
    (base : Session) (D : Set TokenWME) (R : Set FactPtr) (s : Session) : Prop where
  base_eq : s.base = base
  memory : CrossProductInv kb base c R (fun _ ↦ False) (fun _ ↦ False) D (s.mem n)
  children : children.Hold (childTokens (s.mem n).leftToChildren) s.mem

theorem CrossProductState.change (h : CrossProductState kb n children c base D R s)
    {R' : Set FactPtr} (type : PropagationType)
    (hid : Set.InjOn (fun f ↦ (base.heap f).id) (insert p R)) (hchange : Change p R R' type)
    (hR' : ∀ f ≠ p, f ∈ R' ↔ f ∈ R) :
    CrossProductState kb n children c base D R'
      (crossProductRight kb n children.emit c p type s) := by
  obtain ⟨hmemory, hhold, heffect⟩ := crossProductRight_spec (n := n) (p := p) (children.spec _)
    children.not_mem h.base_eq h.memory h.children (children.spec _) (fun _ hhold ↦ hhold) hid hchange
    hR' (fun _ _ hf ↦ show False from hf) fun _ _ _ ↦ trivial
  exact ⟨heffect.base.trans h.base_eq, hmemory, hhold⟩

/-- A cross product after a run. -/
theorem crossProduct_run (hrun : JoinRun heap c d run D R) (hs : FreshJoin heap n children s) :
    CrossProductState kb n children c s.base D R
      (run.foldl (joinActivate kb n children.emit (.crossProductJoin c)) s) := by
  have hheap : s.base.heap = heap := hs.heap
  induction hrun with
  | start =>
    refine ⟨rfl, ?_, ?_⟩
    · rw [List.foldl_nil, hs.memory]
      exact .empty
    · rw [List.foldl_nil, hs.memory, childTokens_empty]
      exact hs.children
  | @assertLeft run D R w hrun hw _ _ ih =>
    rw [List.foldl_append]
    obtain ⟨hmemory, hhold, heffect⟩ := crossProductLeft_assert (n := n) (children.spec _)
      children.not_mem ih.base_eq ih.memory ih.children hw fun _ _ _ ↦ trivial
    exact ⟨heffect.base.trans ih.base_eq, hmemory, hhold⟩
  | @retractLeft run D R w hrun _ ih =>
    rw [List.foldl_append]
    obtain ⟨hmemory, hhold, heffect⟩ := crossProductLeft_retract (n := n) (w := w) (children.spec _)
      children.not_mem ih.base_eq ih.memory ih.children (hheap ▸ hrun.injOn) fun _ _ _ ↦ trivial
    exact ⟨heffect.base.trans ih.base_eq, hmemory, hhold⟩
  | @assertRight run D R f hrun hf hid _ ih =>
    rw [List.foldl_append]
    refine ih.change .assert (hheap ▸ injOn_insert_of_forall hrun.injOn hid)
      (.assert hf (Set.mem_insert f R)) fun g hg ↦ ?_
    simp [hg]
  | @retractRight run D R f hrun hid _ ih =>
    rw [List.foldl_append]
    by_cases hf : f ∈ R
    · refine ih.change .retract (hheap ▸ injOn_insert_of_forall hrun.injOn hid)
        (.retract hf (by simp)) fun g hg ↦ ?_
      simp [hg]
    · -- The fact is not stored, and nothing happens.
      set s₁ := run.foldl (joinActivate kb n children.emit (.crossProductJoin c)) s
      have habsent : AssocMap.contains (s₁.heap f).id (s₁.mem n).crossProductJoin.right = false := by
        rw [Bool.eq_false_iff]
        intro hcontains
        obtain ⟨g, hg⟩ := AssocMap.contains_iff.mp hcontains
        obtain ⟨hgR, hidg⟩ := (ih.memory.mem_right _ _).mp hg
        have hheap₁ : s₁.heap = heap := (Session.heap_of_base ih.base_eq).trans hs.heap
        rw [hheap₁, show s.base.heap = heap from hs.heap] at hidg
        exact hf (hid g hgR hidg.symm ▸ hgR)
      have hnone : crossProductRight kb n children.emit c f .retract s₁ = s₁ := by
        simp [crossProductRight, habsent]
      show CrossProductState kb n children c s.base D (R \ {f})
        (crossProductRight kb n children.emit c f .retract s₁)
      rw [hnone, Set.sdiff_singleton_eq_self hf]
      exact ih

end CrossProduct

/-! ### Hashed joins -/

section Hashed

variable {kb : KnowledgeBase} {n : ℕ} {children : Children n} {heap : Heap} {c : JoinCondition}
  {d : ℕ} {l : String × ℕ} {r : String} {run : List JoinActivation} {D : Set TokenWME}
  {R : Set FactPtr} {base s : Session} {p : FactPtr}

/-- What holds of a join that is hashed. -/
structure HashedState (kb : KnowledgeBase) (n : ℕ) (children : Children n) (c : JoinCondition)
    (l : String × ℕ) (r : String) (base : Session) (D : Set TokenWME) (R : Set FactPtr)
    (s : Session) : Prop where
  base_eq : s.base = base
  memory : HashedInv kb base c l r R (fun _ ↦ False) (fun _ ↦ False) D (s.mem n)
  children : children.Hold (childTokens (s.mem n).leftToChildren) s.mem

/-- A fact that has not arrived is as good as one that the memory is behind with. -/
theorem HashedInv.insert_pending {mem : NodeMemory}
    (h : HashedInv kb base c l r R (fun _ ↦ False) (fun _ ↦ False) D mem) :
    HashedInv kb base c l r (insert p R) (fun _ ↦ False) (· = p) D mem where
  left_nodup := h.left_nodup
  left_key := h.left_key
  left_complete := h.left_complete
  right_nodup := h.right_nodup
  right_key hmem := ⟨Set.mem_insert_of_mem p (h.right_key hmem).1, (h.right_key hmem).2⟩
  right_complete hf hne := h.right_complete (Set.mem_of_mem_insert_of_ne hf hne) nofun
  children := h.children
  matched := h.matched
  exact hw hf hs hne := h.exact hw (Set.mem_of_mem_insert_of_ne hf hne) hs nofun

theorem HashedState.change (h : HashedState kb n children c l r base D R s) {R₁ R' : Set FactPtr}
    {pending : FactPtr → Prop} (type : PropagationType)
    (hmemory : HashedInv kb base c l r R₁ (fun _ ↦ False) pending D (s.mem n))
    (hid : Set.InjOn (fun f ↦ (base.heap f).id) (insert p R₁)) (hchange : Change p R₁ R' type)
    (hR' : ∀ f ≠ p, f ∈ R' ↔ f ∈ R₁) (hpending : ∀ f ≠ p, ¬ pending f)
    (hplain : ∀ key, getField base.heap p r = some key → key.isPlain = true) :
    HashedState kb n children c l r base D R'
      (hashedRight kb n children.emit c r p type s) := by
  obtain ⟨hmemory', hhold, heffect⟩ := hashedRight_spec (n := n) (p := p) (children.spec _)
    children.not_mem h.base_eq hmemory h.children (children.spec _) (fun _ hhold ↦ hhold) hid
    hchange hR' (fun f hne hf ↦ show False from hpending f hne hf) (fun _ _ _ ↦ trivial) hplain
  exact ⟨heffect.base.trans h.base_eq, hmemory', hhold⟩

/-- A hashed join after a run. -/
theorem hashed_run (hkey : BetaNetworkBuilder.hashKey c.bindings c.joins = some (l, r))
    (hrun : JoinRun heap c d run D R) (hs : FreshJoin heap n children s) :
    HashedState kb n children c l r s.base D R
      (run.foldl (joinActivate kb n children.emit (.hashedJoin c l r)) s) := by
  have hheap : s.base.heap = heap := hs.heap
  have htoken : ∀ {w}, IntsOrTexts (c.tokenReading heap w) →
      ∀ key, tokenKey s.base.heap l w = some key → key.isPlain = true := by
    intro w hvalues key hw
    rw [hheap] at hw
    exact ConstraintValue.isPlain_of_isIntOrText
      (hvalues key (hw ▸ tokenKey_mem_tokenReading hkey heap w))
  have hfact : ∀ {f}, IntsOrTexts (c.factReading heap f) →
      ∀ key, getField s.base.heap f r = some key → key.isPlain = true := by
    intro f hvalues key hf
    rw [hheap] at hf
    exact ConstraintValue.isPlain_of_isIntOrText
      (hvalues key (hf ▸ getField_mem_factReading hkey heap f))
  induction hrun with
  | start =>
    refine ⟨rfl, ?_, ?_⟩
    · rw [List.foldl_nil, hs.memory]
      exact .empty
    · rw [List.foldl_nil, hs.memory, childTokens_empty]
      exact hs.children
  | @assertLeft run D R w hrun hw _ hvalues ih =>
    rw [List.foldl_append]
    obtain ⟨hmemory, hhold, heffect⟩ := hashedLeft_assert (n := n) (children.spec _)
      children.not_mem ih.base_eq ih.memory ih.children hw (fun _ _ _ ↦ trivial) (htoken hvalues)
    exact ⟨heffect.base.trans ih.base_eq, hmemory, hhold⟩
  | @retractLeft run D R w hrun hvalues ih =>
    rw [List.foldl_append]
    obtain ⟨hmemory, hhold, heffect⟩ := hashedLeft_retract (n := n) (w := w) (children.spec _)
      children.not_mem ih.base_eq ih.memory ih.children (hheap ▸ hrun.injOn)
      (fun _ _ _ ↦ trivial) (htoken hvalues)
    exact ⟨heffect.base.trans ih.base_eq, hmemory, hhold⟩
  | @assertRight run D R f hrun hf hid hvalues ih =>
    rw [List.foldl_append]
    refine ih.change .assert ih.memory (hheap ▸ injOn_insert_of_forall hrun.injOn hid)
      (.assert hf (Set.mem_insert f R)) (fun g hg ↦ ?_) (fun _ _ ↦ id) (hfact hvalues)
    simp [hg]
  | @retractRight run D R f hrun hid hvalues ih =>
    rw [List.foldl_append]
    have hinj : Set.InjOn (fun f ↦ (s.base.heap f).id) (insert f R) :=
      hheap ▸ injOn_insert_of_forall hrun.injOn hid
    refine ih.change .retract ih.memory.insert_pending ?_ (.retract (Set.mem_insert f R) (by simp))
      (fun g hg ↦ ?_) (fun g hg ↦ hg) (hfact hvalues)
    · rwa [Set.insert_idem]
    · simp [hg]

end Hashed

/-! ### The choice -/

section Choice

variable {kb : KnowledgeBase} {n : ℕ} {children children' : Children n} {heap : Heap}
  {c : JoinCondition} {d : ℕ} {run : List JoinActivation} {D : Set TokenWME} {R : Set FactPtr}
  {s t : Session}

theorem delivers_childPairs {recorded : TokenWME → List TokenWME} (hok : ChildrenOk recorded)
    (hhold : children.Hold (childTokens recorded) s.mem) :
    HoldsPairs children (childPairs recorded) s := by
  refine ⟨_, hhold, ?_, ?_⟩
  · rintro x ⟨w, hx⟩
    obtain ⟨a, f, rfl⟩ := hok.shape hx
    exact ⟨a, w, f, rfl, a, hx⟩
  · rintro w f ⟨a, ha⟩
    refine ⟨a, ⟨w, ha⟩, fun b hb ↦ ?_⟩
    exact hok.unique (hok.mem_childTokens.mp hb) ha

theorem FreshJoin.checkCondition_eq (hs : FreshJoin heap n children s) (w : TokenWME)
    (f : FactPtr) : checkCondition kb c s w f = checkCondition kb c { heap } w f := by
  unfold checkCondition
  rw [hs.heap]

/-- What a cross product delivers: the stored pairs that pass the constraints. -/
theorem crossProduct_delivers (hrun : JoinRun heap c d run D R) (hs : FreshJoin heap n children s) :
    HoldsPairs children {q | q.1 ∈ D ∧ q.2 ∈ R ∧ checkCondition kb c { heap } q.1 q.2 = true}
      (run.foldl (joinActivate kb n children.emit (.crossProductJoin c)) s) := by
  have hstate : CrossProductState kb n children c s.base D R _ := crossProduct_run hrun hs
  have hpairs := delivers_childPairs hstate.memory.children hstate.children
  convert hpairs using 1
  ext ⟨w, f⟩
  simp only [Set.mem_ofPred_eq, ← hs.checkCondition_eq]
  constructor
  · rintro ⟨hw, hf, hcheck⟩
    exact (hstate.memory.exact hw hf nofun nofun).mpr hcheck
  · intro hpair
    obtain ⟨hw, hf⟩ := hstate.memory.matched hpair
    exact ⟨hw, hf, (hstate.memory.exact hw hf nofun nofun).mp hpair⟩

/-- What a hashed join delivers: those of them that also have equal keys. -/
theorem hashed_delivers {l : String × ℕ} {r : String}
    (hkey : BetaNetworkBuilder.hashKey c.bindings c.joins = some (l, r))
    (hrun : JoinRun heap c d run D R) (hs : FreshJoin heap n children s) :
    HoldsPairs children {q | q.1 ∈ D ∧ q.2 ∈ R ∧ KeysMatch s.base l r q.1 q.2 ∧
        checkCondition kb c { heap } q.1 q.2 = true}
      (run.foldl (joinActivate kb n children.emit (.hashedJoin c l r)) s) := by
  have hstate : HashedState kb n children c l r s.base D R _ := hashed_run hkey hrun hs
  have hpairs := delivers_childPairs hstate.memory.children hstate.children
  convert hpairs using 1
  ext ⟨w, f⟩
  simp only [Set.mem_ofPred_eq, ← hs.checkCondition_eq]
  constructor
  · rintro ⟨hw, hf, hmatch⟩
    exact (hstate.memory.exact hw hf nofun nofun).mpr hmatch
  · intro hpair
    obtain ⟨⟨k, hk⟩, ⟨k', hk'⟩, -⟩ := hstate.memory.matched hpair
    have hw := (hstate.memory.left_key hk).1
    have hf := (hstate.memory.right_key hk').1
    exact ⟨hw, hf, (hstate.memory.exact hw hf nofun nofun).mp hpair⟩

/-- A token that does not reach the variable of the key matches no fact. -/
theorem not_keysMatch_of_depth_le {base : Session} {l : String × ℕ} {r : String} {w : TokenWME}
    {f : FactPtr} (h : w.depth ≤ l.2) : ¬ KeysMatch base l r w f := by
  rintro ⟨k, hk, -⟩
  have hnone : w.getFactAtDepth l.2 = none := by
    have hlength : w.facts.length ≤ l.2 := by rwa [w.facts_length]
    simp [TokenWME.getFactAtDepth, List.getElem?_eq_none hlength]
  simp [hashedLeftKey, tokenKey, hnone] at hk

/-- What the node chosen delivers: the stored pairs that pass the constraints, and nothing when
its key is that of a variable of the pattern itself. -/
theorem standardKind_pairs (hc : c.ComparesFields) (indexed : Bool)
    (hrun : JoinRun heap c d run D R) (hs : FreshJoin heap n children s) :
    HoldsPairs children
      {q | q.1 ∈ D ∧ q.2 ∈ R ∧ ¬ OwnKey c d indexed ∧ checkCondition kb c { heap } q.1 q.2 = true}
      (run.foldl (joinActivate kb n children.emit (BetaNetworkBuilder.standardKind indexed c)) s) := by
  have hplain : BetaNetworkBuilder.standardKind indexed c = .crossProductJoin c →
      ¬ OwnKey c d indexed → HoldsPairs children
        {q | q.1 ∈ D ∧ q.2 ∈ R ∧ ¬ OwnKey c d indexed ∧
          checkCondition kb c { heap } q.1 q.2 = true}
        (run.foldl (joinActivate kb n children.emit
          (BetaNetworkBuilder.standardKind indexed c)) s) := by
    intro hkind hown
    have hpairs : HoldsPairs children
        {q | q.1 ∈ D ∧ q.2 ∈ R ∧ checkCondition kb c { heap } q.1 q.2 = true} _ :=
      crossProduct_delivers hrun hs
    rw [hkind]
    simpa [hown] using hpairs
  cases indexed with
  | false => exact hplain rfl fun h ↦ nomatch h.1
  | true =>
    cases hkey : BetaNetworkBuilder.hashKey c.bindings c.joins with
    | none =>
      refine hplain (by simp [BetaNetworkBuilder.standardKind, hkey]) ?_
      rintro ⟨-, l, r, h, -⟩
      rw [hkey] at h
      cases h
    | some key =>
      obtain ⟨l, r⟩ := key
      have hkind : BetaNetworkBuilder.standardKind true c = .hashedJoin c l r := by
        simp [BetaNetworkBuilder.standardKind, hkey]
      have hown : OwnKey c d true ↔ d ≤ l.2 := by
        simp [OwnKey, hkey]
      have hpairs : HoldsPairs children {q | q.1 ∈ D ∧ q.2 ∈ R ∧ KeysMatch s.base l r q.1 q.2 ∧
          checkCondition kb c { heap } q.1 q.2 = true} _ := hashed_delivers hkey hrun hs
      rw [hkind]
      convert hpairs using 1
      ext ⟨w, f⟩
      refine and_congr_right fun hw ↦ and_congr_right fun hf ↦ and_congr_left fun hcheck ↦ ?_
      obtain ⟨hdepth, hvalues⟩ := hrun.tokens w hw
      rw [hown, Nat.not_le]
      refine ⟨fun hl ↦ ?_, fun hmatch ↦ ?_⟩
      · -- An earlier variable: the pair has passed the equality that the key is from.
        obtain ⟨v, hv, hv'⟩ := exists_key_of_checkCondition (s := { heap }) hc hkey
          (hdepth ▸ hl) hvalues (hrun.facts f hf) hcheck
        have hheap : s.base.heap = heap := hs.heap
        refine ⟨v.canonical, ?_, ?_⟩
        · rw [hashedLeftKey, hheap, hv, Option.map_some]
        · rw [hashedRightKey, hheap, hv', Option.map_some]
      · by_contra hl
        have hle : w.depth ≤ l.2 := by
          have hdepth' : w.depth = d := hdepth
          omega
        exact not_keysMatch_of_depth_le hle hmatch

/-- The node chosen delivers what a cross product delivers exactly when its key is not that of
a variable of the pattern itself, or no stored pair passes the constraints. -/
theorem standardKind_delivers (hc : c.ComparesFields) (indexed : Bool)
    (hrun : JoinRun heap c d run D R) (hs : FreshJoin heap n children s)
    (ht : FreshJoin heap n children' t) :
    ∃ P Q,
      HoldsPairs children P
        (run.foldl (joinActivate kb n children.emit (BetaNetworkBuilder.standardKind indexed c)) s) ∧
      HoldsPairs children' Q
        (run.foldl (joinActivate kb n children'.emit (.crossProductJoin c)) t) ∧
      (P = Q ↔ ¬ OwnKey c d indexed ∨
        ∀ w ∈ D, ∀ f ∈ R, checkCondition kb c { heap } w f = false) := by
  refine ⟨_, _, standardKind_pairs hc indexed hrun hs, crossProduct_delivers hrun ht, ?_, ?_⟩
  · intro heq
    by_cases hown : OwnKey c d indexed
    · refine .inr fun w hw f hf ↦ Bool.eq_false_iff.mpr fun hcheck ↦ ?_
      have hmem : (w, f) ∈ {q : TokenWME × FactPtr | q.1 ∈ D ∧ q.2 ∈ R ∧
          checkCondition kb c { heap } q.1 q.2 = true} := ⟨hw, hf, hcheck⟩
      rw [← heq] at hmem
      exact hmem.2.2.1 hown
    · exact .inl hown
  · rintro (hown | hnone)
    · simp [hown]
    · ext ⟨w, f⟩
      refine and_congr_right fun hw ↦ and_congr_right fun hf ↦ ?_
      simp [hnone w hw f hf]

end Choice

/-! ### Two patterns -/

/-- `$a : A() $b : B(x == $a.y)`, at its second pattern. -/
def earlierJoin : JoinCondition where
  joins := [{ leftField := "x", op := .eq, rightBoundField := some ("$a", "y") }]
  bindings := [("$a", 0), ("$b", 1)]
  scalarFields := []

/-- `$a : A() $b : B(x == $b.y)`, at its second pattern. -/
def ownJoin : JoinCondition :=
  { earlierJoin with
    joins := [{ leftField := "x", op := .eq, rightBoundField := some ("$b", "y") }] }

/-- Two facts with the same numbers. -/
def pairHeap : Heap := fun p ↦ { id := p, fields := [("x", .int64 1), ("y", .int64 1)] }

def pairChildren : Children 0 := .terminal stockBase 0 [("$a", 0), ("$b", 1)] Nat.zero_ne_one

/-- The token of the first pattern, then the fact of the second. -/
def pairRun : List JoinActivation := [.left (.mk 1 .root 1) .assert, .right 2 .assert]

theorem pairRun_run (c : JoinCondition)
    (hvalues : IntsOrTexts (c.tokenReading pairHeap (.mk 1 .root 1)) ∧
      IntsOrTexts (c.factReading pairHeap 2)) :
    JoinRun pairHeap c 1 pairRun (insert (.mk 1 .root 1) ∅) (insert 2 ∅) :=
  .assertRight (.assertLeft .start (Set.notMem_empty _) rfl hvalues.1) (Set.notMem_empty _)
    (fun g hg ↦ absurd hg (Set.notMem_empty g)) hvalues.2

theorem pairFresh : FreshJoin pairHeap 0 pairChildren { heap := pairHeap } :=
  ⟨rfl, rfl, List.nodup_nil, by simp⟩

theorem earlierJoin_comparesFields : earlierJoin.ComparesFields := by
  intro join hjoin
  obtain rfl := List.mem_singleton.mp hjoin
  exact ⟨rfl, rfl, "$a", "y", 0, rfl, rfl⟩

theorem standardKind_delivers_earlier :
    ∃ P Q,
      HoldsPairs pairChildren P (pairRun.foldl (joinActivate stockBase 0 pairChildren.emit
        (BetaNetworkBuilder.standardKind true earlierJoin)) { heap := pairHeap }) ∧
      HoldsPairs pairChildren Q (pairRun.foldl (joinActivate stockBase 0 pairChildren.emit
        (.crossProductJoin earlierJoin)) { heap := pairHeap }) ∧
      (P = Q ↔ ¬ OwnKey earlierJoin 1 true ∨
        ∀ w ∈ insert (.mk 1 .root 1) (∅ : Set TokenWME), ∀ f ∈ insert 2 (∅ : Set FactPtr),
          checkCondition stockBase earlierJoin { heap := pairHeap } w f = false) :=
  standardKind_delivers earlierJoin_comparesFields true
    (pairRun_run earlierJoin (by decide +kernel)) pairFresh pairFresh

/-- The key of the second pattern is its own variable: the pair passes the constraint, the cross
product delivers it, and the node chosen does not. -/
theorem standardKind_own_key :
    ownJoin.ComparesFields ∧
      JoinRun pairHeap ownJoin 1 pairRun (insert (.mk 1 .root 1) ∅) (insert 2 ∅) ∧
      FreshJoin pairHeap 0 pairChildren { heap := pairHeap } ∧
      ∃ P Q,
        HoldsPairs pairChildren P (pairRun.foldl (joinActivate stockBase 0 pairChildren.emit
          (BetaNetworkBuilder.standardKind true ownJoin)) { heap := pairHeap }) ∧
        HoldsPairs pairChildren Q (pairRun.foldl (joinActivate stockBase 0 pairChildren.emit
          (.crossProductJoin ownJoin)) { heap := pairHeap }) ∧
        P ≠ Q := by
  have hc : ownJoin.ComparesFields := by
    intro join hjoin
    obtain rfl := List.mem_singleton.mp hjoin
    exact ⟨rfl, rfl, "$b", "y", 1, rfl, rfl⟩
  have hrun := pairRun_run ownJoin (by decide +kernel)
  refine ⟨hc, hrun, pairFresh, _, _, standardKind_pairs hc true hrun pairFresh,
    crossProduct_delivers hrun pairFresh, fun heq ↦ ?_⟩
  have hmem : ((.mk 1 .root 1, 2) : TokenWME × FactPtr) ∈ {q : TokenWME × FactPtr |
      q.1 ∈ insert (.mk 1 .root 1) (∅ : Set TokenWME) ∧ q.2 ∈ insert 2 (∅ : Set FactPtr) ∧
        checkCondition stockBase ownJoin { heap := pairHeap } q.1 q.2 = true} :=
    ⟨Set.mem_insert _ _, Set.mem_insert _ _, by decide +kernel⟩
  rw [← heq] at hmem
  exact hmem.2.2.1 ⟨rfl, ("y", 1), "x", rfl, le_rfl⟩

end RulesForge
