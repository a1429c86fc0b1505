import RulesForge.Engine.AccumulateExact
import Mathlib.Algebra.Order.BigOperators.Group.List

/-!
# Runs of an accumulate node with its alpha nodes

The source facts of an accumulate pattern pass a chain of alpha nodes and then come to the right of
the accumulate node. A run (`SourceRun`) is any order of insertions, one by one or in batches, of
retractions and updates of source facts, of activations from the left and of changes elsewhere in
the session. An update writes the fact in place first and propagates later, with anything else in
between. A batch shares its vector with nodes beside the chain, which may take facts out of it that
the chain refuses anyway (`BatchChain`).

The result of every token is the fold over the source facts that match it now
(`accumulate_exact`), in every run of which each update that takes a fact out of the alpha nodes
leaves what the fact contributes to the items as it was. `accumulate_stale` is a run with an update
that does not: the node takes away the new value of the fact and not the one it had added.
-/

namespace RulesForge

/-! ### The alpha nodes -/

/-- The chain of alpha nodes gets a fact: their passing sets afterwards, and the activation that
the node behind them gets, if any. -/
def alphaChain (kb : KnowledgeBase) (f : FactPtr) (s : Session) :
    List (ParsedConstraint × List ℤ) → PropagationType →
      List (ParsedConstraint × List ℤ) × Option PropagationType
  | [], type => ([], some type)
  | (c, passing) :: rest, type =>
    match alphaStep kb c passing f type s with
    | (passing, none) => ((c, passing) :: rest, none)
    | (passing, some type) =>
      let (rest, next) := alphaChain kb f s rest type
      ((c, passing) :: rest, next)

/-- The chain of alpha nodes gets a batch: the passing sets afterwards, and the batch that comes out
behind. Nodes beside the chain have taken facts out of the vector before each node, but none that
the node accepts. -/
inductive BatchChain (kb : KnowledgeBase) (s : Session) :
    List (ParsedConstraint × List ℤ) → List FactPtr → List (ParsedConstraint × List ℤ) →
      List FactPtr → Prop
  | behind {facts} : BatchChain kb s [] facts [] facts
  | refuse {c passing rest} {facts vector : List FactPtr} : vector.Sublist facts →
      (∀ f ∈ facts, f ∉ vector → checkConstraint kb.runtime s.heap c f = false) →
      vector.filter (checkConstraint kb.runtime s.heap c) = [] →
      BatchChain kb s ((c, passing) :: rest) facts ((c, passing) :: rest) []
  | pass {c passing rest rest' out} {facts vector : List FactPtr} : vector.Sublist facts →
      (∀ f ∈ facts, f ∉ vector → checkConstraint kb.runtime s.heap c f = false) →
      vector.filter (checkConstraint kb.runtime s.heap c) ≠ [] →
      BatchChain kb s rest (vector.filter (checkConstraint kb.runtime s.heap c)) rest' out →
      BatchChain kb s ((c, passing) :: rest) facts
        ((c, (vector.filter (checkConstraint kb.runtime s.heap c)).foldl (fun passing f ↦
          passing.insert (s.heap f).id) passing) :: rest') out

/-- Each alpha node holds the facts of the node before that pass its test. -/
def ChainExact (ids : FactPtr → ℤ) (test : ParsedConstraint → FactPtr → Prop) :
    Set FactPtr → List (ParsedConstraint × List ℤ) → Prop
  | _, [] => True
  | held, (c, passing) :: rest =>
    (∀ id, id ∈ passing ↔ ∃ f ∈ held, test c f ∧ ids f = id) ∧
      ChainExact ids test {f | f ∈ held ∧ test c f} rest

/-- The facts that pass all the tests. -/
def passingAll (test : ParsedConstraint → FactPtr → Prop) (held : Set FactPtr)
    (alphas : List (ParsedConstraint × List ℤ)) : Set FactPtr :=
  {f | f ∈ held ∧ ∀ a ∈ alphas, test a.1 f}

section Chain

variable {kb : KnowledgeBase} {s : Session} {f : FactPtr} {ids ids' : FactPtr → ℤ}
  {test test' : ParsedConstraint → FactPtr → Prop} {held held' : Set FactPtr}
  {alphas : List (ParsedConstraint × List ℤ)} {type : PropagationType}

theorem passingAll_nil : passingAll test held [] = held := by
  simp [passingAll]

theorem passingAll_cons (c : ParsedConstraint) (passing : List ℤ)
    (rest : List (ParsedConstraint × List ℤ)) :
    passingAll test held ((c, passing) :: rest) =
      passingAll test {f | f ∈ held ∧ test c f} rest := by
  ext f
  simp [passingAll, and_assoc]

theorem ChainExact.congr (h : ChainExact ids test held alphas)
    (hheld : ∀ f, f ∈ held' ↔ f ∈ held) (hids : ∀ f ∈ held, ids' f = ids f)
    (htest : ∀ f ∈ held, ∀ a ∈ alphas, (test' a.1 f ↔ test a.1 f)) :
    ChainExact ids' test' held' alphas := by
  induction alphas generalizing held held' with
  | nil => trivial
  | cons entry rest ih =>
    obtain ⟨c, passing⟩ := entry
    obtain ⟨hpassing, hrest⟩ := h
    have hc : ∀ f ∈ held, (test' c f ↔ test c f) := fun f hf ↦ htest f hf _ List.mem_cons_self
    refine ⟨fun id ↦ (hpassing id).trans ?_, ih hrest ?_ ?_ ?_⟩
    · constructor
      · rintro ⟨f, hf, hpass, rfl⟩
        exact ⟨f, (hheld f).mpr hf, (hc f hf).mpr hpass, hids f hf⟩
      · rintro ⟨f, hf, hpass, rfl⟩
        rw [hheld] at hf
        exact ⟨f, hf, (hc f hf).mp hpass, (hids f hf).symm⟩
    · rintro f
      constructor
      · rintro ⟨hf, hpass⟩
        rw [hheld] at hf
        exact ⟨hf, (hc f hf).mp hpass⟩
      · rintro ⟨hf, hpass⟩
        exact ⟨(hheld f).mpr hf, (hc f hf).mpr hpass⟩
    · exact fun f hf ↦ hids f hf.1
    · exact fun f hf a ha ↦ htest f hf.1 a (List.mem_cons_of_mem _ ha)

/-- A chain of empty alpha nodes. -/
theorem chainExact_empty (ids : FactPtr → ℤ) (test : ParsedConstraint → FactPtr → Prop)
    (tests : List ParsedConstraint) : ChainExact ids test ∅ (tests.map fun c ↦ (c, [])) := by
  induction tests with
  | nil => trivial
  | cons c tests ih =>
    refine ⟨fun id ↦ by simp, ih.congr (fun f ↦ ?_) (fun _ _ ↦ rfl) fun _ _ _ _ ↦ Iff.rfl⟩
    exact iff_of_false (fun h ↦ h.1) fun h ↦ h

/-- **The chain**: the change of one fact before it is the change of that fact behind it. -/
theorem alphaChain_spec (hothers : ∀ g ≠ f, (g ∈ held' ↔ g ∈ held))
    (htest : ∀ g ∈ held, g ≠ f → ∀ a ∈ alphas, (test' a.1 g ↔ test a.1 g))
    (hnew : ∀ a ∈ alphas, (test' a.1 f ↔ checkConstraint kb.runtime s.heap a.1 f = true))
    (hhint : type = .modify → ∀ a ∈ alphas,
      alphaConstraintAffected a.1 s.currentModifiedFields = false → (test' a.1 f ↔ test a.1 f))
    (hids : ∀ g ∈ held, (s.heap g).id = (s.heap f).id → g = f)
    (hchange : Change f held held' type)
    (h : ChainExact (fun g ↦ (s.heap g).id) test held alphas) :
    let r := alphaChain kb f s alphas type
    ChainExact (fun g ↦ (s.heap g).id) test' held' r.1 ∧ r.1.map Prod.fst = alphas.map Prod.fst ∧
      match r.2 with
      | none => f ∉ passingAll test held alphas ∧ f ∉ passingAll test' held' alphas
      | some next => Change f (passingAll test held alphas) (passingAll test' held' alphas) next := by
  induction alphas generalizing held held' type with
  | nil =>
    refine ⟨trivial, rfl, ?_⟩
    show Change f (passingAll test held []) (passingAll test' held' []) type
    rwa [passingAll_nil, passingAll_nil]
  | cons entry rest ih =>
    obtain ⟨c, passing⟩ := entry
    obtain ⟨hpassing, hrest⟩ := h
    have hin : ((c, passing) : ParsedConstraint × List ℤ) ∈ (c, passing) :: rest :=
      List.mem_cons_self
    have htail : ∀ {a}, a ∈ rest → a ∈ (c, passing) :: rest := fun ha ↦ List.mem_cons_of_mem _ ha
    have hothers' : ∀ g ≠ f, (g ∈ {g | g ∈ held' ∧ test' c g} ↔ g ∈ {g | g ∈ held ∧ test c g}) := by
      intro g hgf
      refine and_congr_left' (hothers g hgf) |>.trans (and_congr_right fun hg ↦ ?_)
      exact htest g hg hgf _ hin
    have hmodified : type = .modify → alphaConstraintAffected c s.currentModifiedFields = false →
        (f ∈ {g | g ∈ held' ∧ test' c g} ↔ f ∈ {g | g ∈ held ∧ test c g}) := by
      intro htype haffected
      subst htype
      cases hchange with
      | modify hf hf' => exact and_congr (iff_of_true hf' hf) (hhint rfl _ hin haffected)
    have hpassing₁ : ∀ id, id ∈ passing ↔ ∃ g ∈ {g | g ∈ held ∧ test c g}, id = (s.heap g).id := by
      intro id
      rw [hpassing]
      simp only [Set.mem_ofPred_eq, and_assoc, eq_comm]
    obtain ⟨hpassing₂, hstep⟩ := alphaStep_change hothers' And.left
      (and_congr_right fun _ ↦ hnew _ hin) hmodified (fun g hg ↦ hids g hg.1) hchange hpassing₁
    have hpassing' : ∀ id, id ∈ (alphaStep kb c passing f type s).1 ↔
        ∃ g ∈ held', test' c g ∧ (s.heap g).id = id := by
      intro id
      rw [hpassing₂]
      simp only [Set.mem_ofPred_eq, and_assoc, eq_comm]
    clear hpassing₂
    simp only [alphaChain, passingAll_cons]
    generalize alphaStep kb c passing f type s = step at hpassing' hstep
    obtain ⟨passing', next⟩ := step
    cases next with
    | none =>
      -- The fact is in none of the nodes behind, before and after.
      obtain ⟨hbefore, hafter⟩ := hstep
      refine ⟨⟨hpassing', hrest.congr (fun g ↦ ?_) (fun _ _ ↦ rfl) fun g hg a ha ↦ ?_⟩, rfl,
        fun h ↦ hbefore h.1, fun h ↦ hafter h.1⟩
      · by_cases hgf : g = f
        · rw [hgf]
          exact iff_of_false hafter hbefore
        · exact hothers' g hgf
      · exact htest g hg.1 (fun hgf ↦ hbefore (hgf ▸ hg)) a (htail ha)
    | some next =>
      obtain ⟨hstep, hmodify⟩ := hstep
      obtain ⟨hchain, hmap, hnext⟩ := ih hothers' (fun g hg hgf a ha ↦ htest g hg.1 hgf a (htail ha))
        (fun a ha ↦ hnew a (htail ha)) (fun htype a ha ↦ hhint (hmodify htype) a (htail ha))
        (fun g hg ↦ hids g hg.1) hstep hrest
      exact ⟨⟨hpassing', hchain⟩, by rw [List.map_cons, hmap, List.map_cons], hnext⟩

/-- **The chain and a batch**: the new facts that pass all tests come out behind it. -/
theorem BatchChain.spec {facts out : List FactPtr} {alphas' : List (ParsedConstraint × List ℤ)}
    (hchain : BatchChain kb s alphas facts alphas' out)
    (htest : ∀ f ∈ facts, ∀ a ∈ alphas,
      (test a.1 f ↔ checkConstraint kb.runtime s.heap a.1 f = true))
    (h : ChainExact (fun g ↦ (s.heap g).id) test held alphas) :
    ChainExact (fun g ↦ (s.heap g).id) test (held ∪ {f | f ∈ facts}) alphas' ∧
      alphas'.map Prod.fst = alphas.map Prod.fst ∧ out.Sublist facts ∧
      passingAll test (held ∪ {f | f ∈ facts}) alphas =
        passingAll test held alphas ∪ {f | f ∈ out} := by
  -- A fact passes the first test where it is in the vector that the node gets and accepts.
  have hfirst : ∀ {c passing rest} {vector : List FactPtr} {held : Set FactPtr} {facts : List FactPtr},
      vector.Sublist facts →
      (∀ f ∈ facts, f ∉ vector → checkConstraint kb.runtime s.heap c f = false) →
      (∀ f ∈ facts, ∀ a ∈ ((c, passing) :: rest : List (ParsedConstraint × List ℤ)),
        (test a.1 f ↔ checkConstraint kb.runtime s.heap a.1 f = true)) →
      {f | f ∈ held ∪ {f | f ∈ facts} ∧ test c f} = {f | f ∈ held ∧ test c f} ∪
        {f | f ∈ vector.filter (checkConstraint kb.runtime s.heap c)} := by
    intro c passing rest vector held facts hsub htaken htest
    ext f
    simp only [Set.mem_ofPred_eq, Set.mem_union, List.mem_filter]
    constructor
    · rintro ⟨hf | hf, hpass⟩
      · exact .inl ⟨hf, hpass⟩
      · have hcheck := (htest f hf _ List.mem_cons_self).mp hpass
        refine .inr ⟨?_, hcheck⟩
        by_contra hnot
        rw [htaken f hf hnot] at hcheck
        cases hcheck
    · rintro (⟨hf, hpass⟩ | ⟨hf, hcheck⟩)
      · exact ⟨.inl hf, hpass⟩
      · have hin := hsub.subset hf
        exact ⟨.inr hin, (htest f hin _ List.mem_cons_self).mpr hcheck⟩
  induction hchain generalizing held with
  | @behind facts =>
    refine ⟨trivial, rfl, List.Sublist.refl facts, ?_⟩
    rw [passingAll_nil, passingAll_nil]
  | @refuse c passing rest facts vector hsub htaken hnone =>
    obtain ⟨hpassing, hrest⟩ := h
    have hset := @hfirst c passing rest vector held facts hsub htaken htest
    have hempty : {f | f ∈ held ∪ {f | f ∈ facts} ∧ test c f} = {f | f ∈ held ∧ test c f} := by
      rw [hset, hnone]
      simp
    refine ⟨⟨fun id ↦ (hpassing id).trans ?_, ?_⟩, rfl, List.nil_sublist facts, ?_⟩
    · refine exists_congr fun f ↦ ?_
      rw [← and_assoc, ← and_assoc]
      exact and_congr_left' (Set.ext_iff.mp hempty f).symm
    · rwa [hempty]
    · rw [passingAll_cons, passingAll_cons, hempty]
      simp
  | @pass c passing rest rest' out facts vector hsub htaken hsome _ ih =>
    obtain ⟨hpassing, hrest⟩ := h
    have hset := @hfirst c passing rest vector held facts hsub htaken htest
    obtain ⟨hchain', hmap, hout, hall⟩ := ih (fun f hf a ha ↦
      htest f (hsub.subset (List.mem_of_mem_filter hf)) a (List.mem_cons_of_mem _ ha)) hrest
    refine ⟨⟨fun id ↦ ?_, ?_⟩, by rw [List.map_cons, hmap, List.map_cons],
      hout.trans (List.filter_sublist.trans hsub), ?_⟩
    · rw [mem_foldl_insert (fun f ↦ (s.heap f).id), hpassing]
      have hmem := Set.ext_iff.mp hset
      constructor
      · rintro (⟨f, hf, hpass, hid⟩ | ⟨f, hf, rfl⟩)
        · exact ⟨f, .inl hf, hpass, hid⟩
        · obtain ⟨hin, hpass⟩ := (hmem f).mpr (.inr hf)
          exact ⟨f, hin, hpass, rfl⟩
      · rintro ⟨f, hf, hpass, rfl⟩
        rcases (hmem f).mp ⟨hf, hpass⟩ with ⟨hin, hpass⟩ | hin
        · exact .inl ⟨f, hin, hpass, rfl⟩
        · exact .inr ⟨f, hin, rfl⟩
    · rwa [hset]
    · rw [passingAll_cons, passingAll_cons, hset, hall]

end Chain

/-! ### Source sessions -/

/-- An accumulate node in its session, with the alpha nodes in front of it. `facts` are the source
facts, `written` is the fact that an update has written and not yet propagated, with the heap from
before, and `replaced` holds the tokens that such an update is about to replace. -/
structure SourceSession where
  accumulate : AccumulateSession
  alphas : List (ParsedConstraint × List ℤ)
  facts : Set FactPtr := ∅
  written : Option (FactPtr × Heap) := none
  replaced : Set TokenWME := ∅

namespace SourceSession

variable (s : SourceSession)

def session : Session := s.accumulate.session

def heap : Heap := s.accumulate.session.heap

def left : List (TokenWME × LeftMemoryItem) := s.accumulate.mem.left

/-- The heap that the nodes have seen a source fact in. -/
def seen (f : FactPtr) : Heap :=
  match s.written with
  | none => s.heap
  | some (g, old) => if f = g then old else s.heap

end SourceSession

/-- The tests of the alpha nodes in a heap for each fact. -/
def testIn (kb : KnowledgeBase) (heap : FactPtr → Heap) (c : ParsedConstraint) (f : FactPtr) :
    Prop :=
  checkConstraint kb.runtime (heap f) c f = true

/-- What the tests, the joins and the values of source facts do not read: the result facts of the
node, and the ids of facts that have none. -/
structure Insulated (kb : KnowledgeBase) (node : AccumulateNode) (tests : List ParsedConstraint)
    (R : Set FactPtr) : Prop where
  test : ∀ {heap heap' : Heap} {c f}, HeapBeside R heap heap' → c ∈ tests → f ∉ R →
    (heap f).id ≠ 0 → checkConstraint kb.runtime heap' c f = checkConstraint kb.runtime heap c f
  contribution : ∀ {heap heap' : Heap} {w f}, HeapBeside R heap heap' → (∀ p ∈ w.facts, p ∉ R) →
    f ∉ R → (heap f).id ≠ 0 → node.contribution kb heap' w f = node.contribution kb heap w f

section Runs

variable (kb : KnowledgeBase) (steps : ℕ) (allocate : Session → FactPtr) (node : AccumulateNode)
  (R : Set FactPtr)

/-- The alpha nodes and the node behind them get a source fact, and the call returns. -/
structure Delivers (f : FactPtr) (type : PropagationType) (s s' : SourceSession) : Prop where
  alphas : s'.alphas = (alphaChain kb f s.session s.alphas type).1
  accumulate : match (alphaChain kb f s.session s.alphas type).2 with
    | none => s'.accumulate = s.accumulate
    | some next => (node.rightActivate kb steps f next) s.accumulate = .ok () s'.accumulate

/-- The alpha nodes and the node behind them get a batch, and the call returns. -/
def DeliversBatch (facts : List FactPtr) (s s' : SourceSession) : Prop :=
  ∃ out, BatchChain kb s.session s.alphas facts s'.alphas out ∧
    (out = [] → s'.accumulate = s.accumulate) ∧
    (out ≠ [] → (node.rightActivateBatch kb steps out) s.accumulate = .ok () s'.accumulate)

/-- A change of the session and its heap elsewhere, as the node's source facts, tokens and
results see it. The facts in `F` may be written. -/
structure Elsewhere (F : Set FactPtr) (replaced : Set TokenWME) (s : SourceSession)
    (session : Session) : Prop where
  tms : session.tms = {}
  nextId : s.session.workingMemory.nextId ≤ session.workingMemory.nextId
  resultHeap : ∀ {w item}, (w, item) ∈ s.left →
    session.heap item.resultFact = s.heap item.resultFact
  resultGet : ∀ {w item}, (w, item) ∈ s.left →
    session.workingMemory.get (s.heap item.resultFact).id =
      s.session.workingMemory.get (s.heap item.resultFact).id
  id : ∀ f ∈ s.facts, (session.heap f).id = (s.heap f).id
  test : ∀ f ∈ s.facts, f ∉ F → ∀ a ∈ s.alphas,
    checkConstraint kb.runtime session.heap a.1 f = checkConstraint kb.runtime s.heap a.1 f
  contribution : ∀ {w item}, (w, item) ∈ s.left → w ∉ replaced → ∀ f ∈ s.facts, f ∉ F →
    node.contribution kb session.heap w f = node.contribution kb s.heap w f

/-- The numbers that the source facts hold for the tokens are integers with exact sums. -/
def SourceSession.Measured (s : SourceSession) : Prop :=
  ∀ {w item}, (w, item) ∈ s.left → w ∉ s.replaced →
    RulesForge.Measured node.info (node.contribution kb s.heap w) s.facts

/-- **What an update must leave as it was**: where the fact passed the alpha nodes and does not
any more, what it contributes to the items of the tokens that stay. -/
def KeepsContribution (s : SourceSession) (f : FactPtr) (old : Heap) : Prop :=
  (∀ a ∈ s.alphas, checkConstraint kb.runtime old a.1 f = true) →
    (∃ a ∈ s.alphas, checkConstraint kb.runtime s.heap a.1 f = false) →
      ∀ {w item}, (w, item) ∈ s.left → w ∉ s.replaced →
        node.contribution kb s.heap w f = node.contribution kb old w f

/-- The states of an accumulate node with its alpha nodes. `allowed` is asked before an update is
propagated. -/
inductive SourceRun (tests : List ParsedConstraint)
    (allowed : SourceSession → FactPtr → Heap → Prop) : SourceSession → Prop
  | start {session : Session} : session.tms = {} → 0 < session.workingMemory.nextId →
      SourceRun tests allowed
        { accumulate := { session := session }, alphas := tests.map fun c ↦ (c, []) }
  | outside {s} (session : Session) : SourceRun tests allowed s →
      Elsewhere kb node ∅ s.replaced s session →
      SourceRun tests allowed { s with accumulate := { s.accumulate with session := session } }
  | insert {s s'} (f : FactPtr) : SourceRun tests allowed s → s.written = none → f ∉ s.facts →
      f ∉ R → (s.heap f).id ≠ 0 → (∀ g ∈ s.facts, (s.heap g).id ≠ (s.heap f).id) →
      SourceSession.Measured kb node { s with facts := Insert.insert f s.facts } →
      Delivers kb steps node f .assert s s' → s'.facts = Insert.insert f s.facts →
      s'.written = none → s'.replaced = s.replaced → SourceRun tests allowed s'
  | insertBatch {s s'} (facts : List FactPtr) : SourceRun tests allowed s → s.written = none →
      facts.Nodup → (∀ f ∈ facts, f ∉ s.facts) → (∀ f ∈ facts, f ∉ R) →
      (∀ f ∈ facts, (s.heap f).id ≠ 0) →
      (∀ f ∈ facts, ∀ g ∈ s.facts ∪ {f | f ∈ facts}, (s.heap g).id = (s.heap f).id → g = f) →
      SourceSession.Measured kb node { s with facts := s.facts ∪ {f | f ∈ facts} } →
      DeliversBatch kb steps node facts s s' → s'.facts = s.facts ∪ {f | f ∈ facts} →
      s'.written = none → s'.replaced = s.replaced → SourceRun tests allowed s'
  | retract {s s'} (f : FactPtr) : SourceRun tests allowed s → s.written = none → f ∈ s.facts →
      Delivers kb steps node f .retract s s' → s'.facts = s.facts \ {f} →
      s'.written = none → s'.replaced = s.replaced → SourceRun tests allowed s'
  | write {s} (f : FactPtr) (session : Session) (replaced : Set TokenWME) :
      SourceRun tests allowed s → s.written = none → f ∈ s.facts → s.replaced ⊆ replaced →
      Elsewhere kb node {f} replaced s session →
      SourceSession.Measured kb node
        { s with accumulate := { s.accumulate with session := session }, replaced := replaced } →
      SourceRun tests allowed
        { s with
          accumulate := { s.accumulate with session := session }
          written := some (f, s.heap)
          replaced := replaced }
  | propagate {s s'} (f : FactPtr) (old : Heap) : SourceRun tests allowed s →
      s.written = some (f, old) →
      (∀ a ∈ s.alphas, alphaConstraintAffected a.1 s.session.currentModifiedFields = false →
        checkConstraint kb.runtime s.heap a.1 f = checkConstraint kb.runtime old a.1 f) →
      allowed s f old → Delivers kb steps node f .modify s s' → s'.facts = s.facts →
      s'.written = none → s'.replaced = s.replaced → SourceRun tests allowed s'
  | enter {s} {a : AccumulateSession} (w : TokenWME) (type : PropagationType) :
      SourceRun tests allowed s → type ≠ .retract → (∀ p ∈ w.facts, p ∉ R) →
      allocate s.session ∈ R → allocate s.session ≠ 0 →
      (∀ {v item}, (v, item) ∈ s.left → item.resultFact ≠ allocate s.session) →
      RulesForge.Measured node.info (node.contribution kb s.heap w) s.facts →
      (node.leftActivate kb steps allocate w type) s.accumulate = .ok () a →
      SourceRun tests allowed
        { s with
          accumulate := a
          replaced := {v | v ∈ s.replaced ∧ (v = w → AssocMap.contains w s.left = true)} }
  | leave {s} {a : AccumulateSession} (w : TokenWME) : SourceRun tests allowed s →
      (node.leftActivate kb steps allocate w .retract) s.accumulate = .ok () a →
      SourceRun tests allowed { s with accumulate := a, replaced := s.replaced \ {w} }

end Runs

/-! ### The invariant -/

section Invariant

variable {kb : KnowledgeBase} {steps : ℕ} {allocate : Session → FactPtr} {node : AccumulateNode}
  {R : Set FactPtr} {tests : List ParsedConstraint} {s s' : SourceSession}

/-- The facts that the right memory should hold. -/
def SourceSession.held (kb : KnowledgeBase) (s : SourceSession) : Set FactPtr :=
  passingAll (testIn kb s.seen) s.facts s.alphas

/-- **The invariant of the node**: what it has seen of the source facts is in its memories. An item
may have either of what a written fact contributed before and contributes now. -/
structure SourceInv (kb : KnowledgeBase) (node : AccumulateNode) (R : Set FactPtr)
    (tests : List ParsedConstraint) (s : SourceSession) : Prop where
  results : Results R node.info s.accumulate
  tests : s.alphas.map Prod.fst = tests
  notResult : ∀ f ∈ s.facts, f ∉ R
  id : ∀ f ∈ s.facts, (s.heap f).id ≠ 0
  ids : ∀ f ∈ s.facts, ∀ g ∈ s.facts, (s.heap f).id = (s.heap g).id → f = g
  written : ∀ {f old}, s.written = some (f, old) → f ∈ s.facts
  chain : ChainExact (fun f ↦ (s.heap f).id) (testIn kb s.seen) s.facts s.alphas
  right : RightExact (fun f ↦ (s.heap f).id) (s.held kb) s.accumulate.mem.right
  items : ∀ {w item}, (w, item) ∈ s.left → w ∉ s.replaced →
    ∃ k, (∀ f ∈ s.facts, k f = node.contribution kb s.heap w f ∨
      k f = node.contribution kb (s.seen f) w f) ∧ ItemFor node.info k (s.held kb) item
  measured : s.Measured kb node
  tokens : ∀ {w item}, (w, item) ∈ s.left → ∀ p ∈ w.facts, p ∉ R

theorem seen_of_none (h : s.written = none) (f : FactPtr) : s.seen f = s.heap := by
  unfold SourceSession.seen
  rw [h]

theorem passingAll_subset (test : ParsedConstraint → FactPtr → Prop) (held : Set FactPtr)
    (alphas : List (ParsedConstraint × List ℤ)) : passingAll test held alphas ⊆ held :=
  fun _ hf ↦ hf.1

theorem passingAll_congr {test test' : ParsedConstraint → FactPtr → Prop} {held : Set FactPtr}
    {alphas alphas' : List (ParsedConstraint × List ℤ)}
    (hmap : alphas'.map Prod.fst = alphas.map Prod.fst)
    (htest : ∀ f ∈ held, ∀ a ∈ alphas, (test' a.1 f ↔ test a.1 f)) :
    passingAll test' held alphas' = passingAll test held alphas := by
  have hall : ∀ (P : ParsedConstraint → Prop), (∀ a ∈ alphas', P a.1) ↔ ∀ a ∈ alphas, P a.1 := by
    intro P
    have hiff : (∀ c ∈ alphas'.map Prod.fst, P c) ↔ ∀ c ∈ alphas.map Prod.fst, P c := by rw [hmap]
    simpa using hiff
  ext f
  refine and_congr_right fun hf ↦ (hall fun c ↦ test' c f).trans ?_
  exact forall₂_congr fun a ha ↦ htest f hf a ha

/-- The delivery of a change of the fact `f`, which the nodes have seen as it was. -/
structure Delivery (kb : KnowledgeBase) (node : AccumulateNode) (R : Set FactPtr) (f : FactPtr)
    (facts' : Set FactPtr) (type : PropagationType) (s : SourceSession) : Prop where
  change : Change f s.facts facts' type
  others : ∀ g ≠ f, (g ∈ facts' ↔ g ∈ s.facts)
  seen : ∀ g ≠ f, s.seen g = s.heap
  notResult : f ∉ R
  id : (s.heap f).id ≠ 0
  ids : ∀ g ∈ s.facts, (s.heap g).id = (s.heap f).id → g = f
  hint : type = .modify → ∀ a ∈ s.alphas,
    alphaConstraintAffected a.1 s.session.currentModifiedFields = false →
      checkConstraint kb.runtime s.heap a.1 f = checkConstraint kb.runtime (s.seen f) a.1 f
  measured : ∀ {w item}, (w, item) ∈ s.left → w ∉ s.replaced →
    RulesForge.Measured node.info (node.contribution kb s.heap w) (s.facts ∪ facts')
  goes : f ∈ s.held kb → f ∉ passingAll (testIn kb fun _ ↦ s.heap) facts' s.alphas →
    ∀ {w item}, (w, item) ∈ s.left → w ∉ s.replaced →
      node.contribution kb (s.seen f) w f = node.contribution kb s.heap w f

variable {f : FactPtr} {facts' : Set FactPtr} {type : PropagationType}

/-- The node before the delivery, told of what comes out of the alpha nodes. -/
theorem Delivery.before (h : Delivery kb node R f facts' type s)
    (hinv : SourceInv kb node R tests s) (hins : Insulated kb node tests R)
    {next : PropagationType}
    (hchange : Change f (s.held kb) (passingAll (testIn kb fun _ ↦ s.heap) facts' s.alphas) next) :
    BeforeChange kb node R s.replaced f (s.held kb)
      (passingAll (testIn kb fun _ ↦ s.heap) facts' s.alphas) next s.accumulate where
  results := hinv.results
  change := hchange
  others g hg := by
    refine and_congr (h.others g hg) (forall₂_congr fun a _ ↦ ?_)
    unfold testIn
    rw [h.seen g hg]
  notResult := h.notResult
  right := hinv.right
  ids g hg := h.ids g (passingAll_subset _ _ _ hg)
  items {w item} hitem hw := by
    obtain ⟨k, hk, hfor⟩ := hinv.items hitem hw
    refine ⟨k, fun g hg hgf ↦ ?_, hfor⟩
    rcases hk g (passingAll_subset _ _ _ hg) with heq | heq
    · exact heq
    · by_cases hne : g = f
      · subst hne
        have hretract : next = .retract := hgf.resolve_left (· rfl)
        subst hretract
        cases hchange with
        | retract hf hf' => exact heq.trans (h.goes hf hf' hitem hw)
      · rw [heq, h.seen g hne]
        rfl
  measured {w item} hitem hw := by
    refine (h.measured hitem hw).mono (Set.union_subset ?_ ?_)
    · exact fun g hg ↦ .inl (passingAll_subset _ _ _ hg)
    · exact fun g hg ↦ .inr (passingAll_subset _ _ _ hg)
  insulated {w item} hitem heap hheap g hg := by
    have hown : g = f ∨ g ∈ s.facts := by
      by_cases hgf : g = f
      · exact .inl hgf
      · refine .inr (hg.elim (passingAll_subset _ _ _ ·) fun hg ↦ ?_)
        exact (h.others g hgf).mp (passingAll_subset _ _ _ hg)
    rcases hown with rfl | hown
    · exact hins.contribution hheap (hinv.tokens hitem) h.notResult h.id
    · exact hins.contribution hheap (hinv.tokens hitem) (hinv.notResult g hown) (hinv.id g hown)

/-- The node after the delivery. -/
theorem Delivery.after (h : Delivery kb node R f facts' type s) (hinv : SourceInv kb node R tests s)
    (hins : Insulated kb node tests R) (hdelivers : Delivers kb steps node f type s s') :
    ChainExact (fun g ↦ (s.heap g).id) (testIn kb fun _ ↦ s.heap) facts' s'.alphas ∧
      s'.alphas.map Prod.fst = s.alphas.map Prod.fst ∧
      AfterChange kb node R s.replaced (passingAll (testIn kb fun _ ↦ s.heap) facts' s.alphas)
        s.accumulate s'.accumulate := by
  obtain ⟨halphas, haccumulate⟩ := hdelivers
  obtain ⟨hchain, hmap, hnext⟩ := @alphaChain_spec kb s.session f _
    (testIn kb fun _ ↦ s.heap) _ _ _ _ h.others
    (fun g _ hg a _ ↦ by unfold testIn; rw [h.seen g hg]) (fun a _ ↦ Iff.rfl)
    (fun htype a ha haffected ↦ by unfold testIn; rw [h.hint htype a ha haffected]) h.ids h.change
    hinv.chain
  rw [← halphas] at hchain hmap
  refine ⟨hchain, hmap, ?_⟩
  generalize hr : (alphaChain kb f s.session s.alphas type).2 = next at haccumulate hnext
  cases next with
  | none =>
    -- The node is told nothing, and the fact was not in its right memory.
    obtain ⟨hf, hf'⟩ := hnext
    have hheld : passingAll (testIn kb fun _ ↦ s.heap) facts' s.alphas = s.held kb := by
      ext g
      by_cases hg : g = f
      · rw [hg]
        exact iff_of_false hf' hf
      · refine and_congr (h.others g hg) (forall₂_congr fun a _ ↦ ?_)
        unfold testIn
        rw [h.seen g hg]
    have hsame : s'.accumulate = s.accumulate := haccumulate
    rw [hheld, hsame]
    refine ⟨hinv.results, .refl _ _, hinv.right, fun hitem ↦ ⟨_, hitem⟩, fun hitem hw ↦ ?_⟩
    obtain ⟨k, hk, hfor⟩ := hinv.items hitem hw
    refine hfor.congr fun g hg ↦ ?_
    have hgf : g ≠ f := ne_of_mem_of_not_mem hg hf
    rcases hk g (passingAll_subset _ _ _ hg) with heq | heq
    · exact heq.symm
    · rw [heq, h.seen g hgf]
      rfl
  | some next =>
    have hok : (node.rightActivate kb steps f next) s.accumulate = .ok () s'.accumulate :=
      haccumulate
    have hends : (node.rightActivate kb steps f next).Ends s.accumulate _ _ :=
      rightActivate_exact (h.before hinv hins hnext)
    exact hends.of_ok hok

/-- **A delivery keeps the invariant**, where the alpha nodes and the node behind them are up to
date with the source facts afterwards. -/
theorem SourceInv.of_after (hinv : SourceInv kb node R tests s) (hins : Insulated kb node tests R)
    (hfacts : s'.facts = facts') (hwritten : s'.written = none)
    (hreplaced : s'.replaced = s.replaced)
    (hchain : ChainExact (fun g ↦ (s.heap g).id) (testIn kb fun _ ↦ s.heap) facts' s'.alphas)
    (hmap : s'.alphas.map Prod.fst = s.alphas.map Prod.fst)
    (hafter : AfterChange kb node R s.replaced
      (passingAll (testIn kb fun _ ↦ s.heap) facts' s.alphas) s.accumulate s'.accumulate)
    (hown : ∀ g ∈ facts', g ∉ R ∧ (s.heap g).id ≠ 0)
    (hdistinct : ∀ g ∈ facts', ∀ g' ∈ facts', (s.heap g).id = (s.heap g').id → g = g')
    (hmeasured : ∀ {w item}, (w, item) ∈ s.left → w ∉ s.replaced →
      RulesForge.Measured node.info (node.contribution kb s.heap w) facts') :
    SourceInv kb node R tests s' := by
  have hheap : HeapBeside R s.heap s'.heap := hafter.heap
  have hids : ∀ g ∈ facts', (s'.heap g).id = (s.heap g).id :=
    fun g hg ↦ hheap.id g (hown g hg).1 (hown g hg).2
  have htests : ∀ g ∈ facts', ∀ a ∈ s.alphas,
      (testIn kb s'.seen a.1 g ↔ testIn kb (fun _ ↦ s.heap) a.1 g) := by
    intro g hg a ha
    have hin : a.1 ∈ tests := by
      rw [← hinv.tests]
      exact List.mem_map_of_mem ha
    unfold testIn
    rw [seen_of_none hwritten, hins.test hheap hin (hown g hg).1 (hown g hg).2]
  have hheld : s'.held kb = passingAll (testIn kb fun _ ↦ s.heap) facts' s.alphas := by
    unfold SourceSession.held
    rw [hfacts]
    exact passingAll_congr hmap htests
  have htokens : ∀ {w item}, (w, item) ∈ s'.left → ∀ p ∈ w.facts, p ∉ R := by
    intro w item hitem
    obtain ⟨old, hold⟩ := hafter.known hitem
    exact hinv.tokens hold
  have hsame : ∀ {w item}, (w, item) ∈ s'.left → ∀ g ∈ facts',
      node.contribution kb s'.heap w g = node.contribution kb s.heap w g :=
    fun hitem g hg ↦ hins.contribution hheap (htokens hitem) (hown g hg).1 (hown g hg).2
  refine ⟨hafter.results, hmap.trans hinv.tests, ?_, ?_, ?_, ?_, ?_, ?_, ?_, ?_, htokens⟩
  · rw [hfacts]
    exact fun g hg ↦ (hown g hg).1
  · rw [hfacts]
    intro g hg
    rw [hids g hg]
    exact (hown g hg).2
  · rw [hfacts]
    intro g hg g' hg' heq
    rw [hids g hg, hids g' hg'] at heq
    exact hdistinct g hg g' hg' heq
  · intro g old heq
    rw [hwritten] at heq
    cases heq
  · rw [hfacts]
    refine hchain.congr (fun _ ↦ Iff.rfl) hids fun g hg a ha ↦ ?_
    obtain ⟨b, hb, heq⟩ : ∃ b ∈ s.alphas, b.1 = a.1 := by
      have hin : a.1 ∈ s.alphas.map Prod.fst := hmap ▸ List.mem_map_of_mem ha
      obtain ⟨b, hb, heq⟩ := List.mem_map.mp hin
      exact ⟨b, hb, heq⟩
    rw [← heq]
    exact htests g hg b hb
  · rw [hheld]
    exact hafter.right.congr fun g hg ↦ hids g (passingAll_subset _ _ _ hg)
  · intro w item hitem hw
    rw [hreplaced] at hw
    refine ⟨node.contribution kb s'.heap w, fun _ _ ↦ .inl rfl, ?_⟩
    rw [hheld]
    exact (hafter.items hitem hw).congr fun g hg ↦ hsame hitem g (passingAll_subset _ _ _ hg)
  · intro w item hitem hw
    rw [hreplaced] at hw
    rw [hfacts]
    obtain ⟨old, hold⟩ := hafter.known hitem
    exact (hmeasured hold hw).congr fun g hg ↦ hsame hitem g hg

/-- The delivery of a change keeps the invariant. -/
theorem Delivery.inv (h : Delivery kb node R f facts' type s) (hinv : SourceInv kb node R tests s)
    (hins : Insulated kb node tests R) (hdelivers : Delivers kb steps node f type s s')
    (hfacts : s'.facts = facts') (hwritten : s'.written = none)
    (hreplaced : s'.replaced = s.replaced) : SourceInv kb node R tests s' := by
  obtain ⟨hchain, hmap, hafter⟩ := h.after hinv hins hdelivers
  refine hinv.of_after hins hfacts hwritten hreplaced hchain hmap hafter ?_ ?_
    fun hitem hw ↦ (h.measured hitem hw).mono Set.subset_union_right
  · intro g hg
    by_cases hgf : g = f
    · rw [hgf]
      exact ⟨h.notResult, h.id⟩
    · have hg := (h.others g hgf).mp hg
      exact ⟨hinv.notResult g hg, hinv.id g hg⟩
  · intro g hg g' hg' heq
    by_cases hgf : g = f
    · by_cases hgf' : g' = f
      · rw [hgf, hgf']
      · rw [hgf] at heq ⊢
        exact (h.ids g' ((h.others g' hgf').mp hg') heq.symm).symm
    · have hg := (h.others g hgf).mp hg
      by_cases hgf' : g' = f
      · rw [hgf'] at heq ⊢
        exact h.ids g hg heq
      · exact hinv.ids g hg g' ((h.others g' hgf').mp hg') heq

/-- The delivery of a batch keeps the invariant. -/
theorem DeliversBatch.inv {facts : List FactPtr} (hdelivers : DeliversBatch kb steps node facts s s')
    (hinv : SourceInv kb node R tests s) (hins : Insulated kb node tests R)
    (hseen : s.written = none) (hnodup : facts.Nodup) (hnew : ∀ f ∈ facts, f ∉ s.facts)
    (hR : ∀ f ∈ facts, f ∉ R) (hid : ∀ f ∈ facts, (s.heap f).id ≠ 0)
    (hids : ∀ f ∈ facts, ∀ g ∈ s.facts ∪ {f | f ∈ facts}, (s.heap g).id = (s.heap f).id → g = f)
    (hmeasured : SourceSession.Measured kb node { s with facts := s.facts ∪ {f | f ∈ facts} })
    (hfacts : s'.facts = s.facts ∪ {f | f ∈ facts}) (hwritten : s'.written = none)
    (hreplaced : s'.replaced = s.replaced) : SourceInv kb node R tests s' := by
  obtain ⟨out, hbatch, hnone, hsome⟩ := hdelivers
  have hseen' : s.seen = fun _ ↦ s.heap := funext (seen_of_none hseen)
  have hheld : s.held kb = passingAll (testIn kb fun _ ↦ s.heap) s.facts s.alphas := by
    unfold SourceSession.held
    rw [hseen']
  have hchain := hinv.chain
  rw [hseen'] at hchain
  obtain ⟨hchain', hmap, hsub, hall⟩ := hbatch.spec (fun f _ a _ ↦ Iff.rfl) hchain
  have hown : ∀ g ∈ s.facts ∪ {f | f ∈ facts}, g ∉ R ∧ (s.heap g).id ≠ 0 := by
    rintro g (hg | hg)
    · exact ⟨hinv.notResult g hg, hinv.id g hg⟩
    · exact ⟨hR g hg, hid g hg⟩
  have hout : s.held kb ∪ {f | f ∈ out} ⊆ s.facts ∪ {f | f ∈ facts} :=
    Set.union_subset_union (passingAll_subset _ _ _) fun f hf ↦ hsub.subset hf
  have hitems : ∀ {w item}, (w, item) ∈ s.left → w ∉ s.replaced →
      ItemFor node.info (node.contribution kb s.heap w) (s.held kb) item := by
    intro w item hitem hw
    obtain ⟨k, hk, hfor⟩ := hinv.items hitem hw
    refine hfor.congr fun g hg ↦ ?_
    have heq := hk g (passingAll_subset _ _ _ hg)
    rw [seen_of_none hseen, or_self] at heq
    exact heq.symm
  have hafter : AfterChange kb node R s.replaced (s.held kb ∪ {f | f ∈ out}) s.accumulate
      s'.accumulate := by
    by_cases hempty : out = []
    · -- No fact comes out of the alpha nodes, and the node is not told.
      have hset : s.held kb ∪ {f | f ∈ out} = s.held kb := by
        rw [hempty]
        simp
      rw [hset, hnone hempty]
      exact ⟨hinv.results, .refl _ _, hinv.right, fun hitem ↦ ⟨_, hitem⟩, hitems⟩
    · have hbefore : BeforeBatch kb node R s.replaced out (s.held kb) s.accumulate :=
        { results := hinv.results
          nodup := hnodup.sublist hsub
          new := fun f hf hin ↦ hnew f (hsub.subset hf) (passingAll_subset _ _ _ hin)
          right := hinv.right
          ids := fun f hf g hg ↦ hids f (hsub.subset hf) g (hout hg)
          items := hitems
          measured := fun hitem hw ↦ (hmeasured hitem hw).mono hout
          insulated := fun hitem _ hheap g hg ↦ hins.contribution hheap (hinv.tokens hitem)
            (hown g (hout hg)).1 (hown g (hout hg)).2 }
      have hends : (node.rightActivateBatch kb steps out).Ends s.accumulate _ _ :=
        rightActivateBatch_exact hbefore
      exact hends.of_ok (hsome hempty)
  rw [hheld, ← hall] at hafter
  refine hinv.of_after hins hfacts hwritten hreplaced hchain' hmap hafter hown ?_ hmeasured
  rintro g (hg | hg) g' (hg' | hg') heq
  · exact hinv.ids g hg g' hg' heq
  · exact hids g' hg' g (.inl hg) heq
  · exact (hids g hg g' (.inl hg') heq.symm).symm
  · exact hids g' hg' g (.inr hg) heq

/-- A change elsewhere keeps the invariant, where what was seen of a fact is still seen, and what
it contributed is what it contributes now or what was seen of it. -/
theorem SourceInv.elsewhere (hinv : SourceInv kb node R tests s) {F : Set FactPtr}
    {replaced : Set TokenWME} {session : Session} {written : Option (FactPtr × Heap)}
    (hsub : s.replaced ⊆ replaced) (h : Elsewhere kb node F replaced s session)
    (hwritten : ∀ {f old}, written = some (f, old) → f ∈ s.facts) :
    let s' : SourceSession :=
      { s with
        accumulate := { s.accumulate with session := session }
        written := written
        replaced := replaced }
    (∀ f ∈ s.facts, ∀ a ∈ s.alphas, (testIn kb s'.seen a.1 f ↔ testIn kb s.seen a.1 f)) →
      (∀ {w item}, (w, item) ∈ s.left → w ∉ replaced → ∀ f ∈ s.facts, ∀ v,
        v = node.contribution kb s.heap w f ∨ v = node.contribution kb (s.seen f) w f →
          v = node.contribution kb session.heap w f ∨
            v = node.contribution kb (s'.seen f) w f) →
      s'.Measured kb node → SourceInv kb node R tests s' := by
  intro s' htest hitems hmeasured
  have hheld : s'.held kb = s.held kb := passingAll_congr rfl htest
  refine ⟨hinv.results.outside h.tms h.nextId h.resultHeap h.resultGet, hinv.tests,
    hinv.notResult, ?_, ?_, hwritten, ?_, ?_, ?_, hmeasured, hinv.tokens⟩
  · intro f hf
    show (session.heap f).id ≠ 0
    rw [h.id f hf]
    exact hinv.id f hf
  · intro f hf g hg heq
    rw [show (s'.heap f).id = _ from h.id f hf, show (s'.heap g).id = _ from h.id g hg] at heq
    exact hinv.ids f hf g hg heq
  · exact hinv.chain.congr (fun _ ↦ Iff.rfl) h.id htest
  · rw [hheld]
    exact hinv.right.congr fun f hf ↦ h.id f (passingAll_subset _ _ _ hf)
  · intro w item hitem hw
    obtain ⟨k, hk, hfor⟩ := hinv.items hitem fun hin ↦ hw (hsub hin)
    rw [hheld]
    exact ⟨k, fun f hf ↦ hitems hitem hw f hf _ (hk f hf), hfor⟩

/-- A left activation keeps the invariant: the items are those of before and new ones, which
stand for what the held facts contribute now. -/
theorem SourceInv.left (hinv : SourceInv kb node R tests s) (hins : Insulated kb node tests R)
    {a : AccumulateSession} {replaced : Set TokenWME} (hresults : Results R node.info a)
    (hheap : HeapBeside R s.heap a.session.heap) (hright : a.mem.right = s.accumulate.mem.right)
    (hleft : ∀ {w item}, (w, item) ∈ a.mem.left →
      (w, item) ∈ s.left ∧ (w ∉ replaced → w ∉ s.replaced) ∨
        (∀ p ∈ w.facts, p ∉ R) ∧
          RulesForge.Measured node.info (node.contribution kb s.heap w) s.facts ∧
          ItemFor node.info (node.contribution kb s.heap w) (s.held kb) item) :
    SourceInv kb node R tests { s with accumulate := a, replaced := replaced } := by
  set s' : SourceSession := { s with accumulate := a, replaced := replaced } with hs'
  have hids : ∀ f ∈ s.facts, (a.session.heap f).id = (s.heap f).id :=
    fun f hf ↦ hheap.id f (hinv.notResult f hf) (hinv.id f hf)
  have hseen : ∀ f, s'.seen f = s.seen f ∨ s.seen f = s.heap ∧ s'.seen f = a.session.heap := by
    intro f
    unfold SourceSession.seen
    rw [show s'.written = s.written from rfl]
    cases s.written with
    | none => exact .inr ⟨rfl, rfl⟩
    | some entry =>
      dsimp only
      split
      · exact .inl rfl
      · exact .inr ⟨rfl, rfl⟩
  have htest : ∀ f ∈ s.facts, ∀ b ∈ s.alphas,
      (testIn kb s'.seen b.1 f ↔ testIn kb s.seen b.1 f) := by
    intro f hf b hb
    have hin : b.1 ∈ tests := hinv.tests ▸ List.mem_map_of_mem hb
    unfold testIn
    rcases hseen f with heq | ⟨heq, heq'⟩
    · rw [heq]
    · rw [heq, heq', hins.test hheap hin (hinv.notResult f hf) (hinv.id f hf)]
  have hheld : s'.held kb = s.held kb := passingAll_congr rfl htest
  have htokens : ∀ {w item}, (w, item) ∈ a.mem.left → ∀ p ∈ w.facts, p ∉ R := by
    intro w item hitem
    rcases hleft hitem with ⟨hitem, -⟩ | ⟨htokens, -⟩
    · exact hinv.tokens hitem
    · exact htokens
  have hsame : ∀ {w item}, (w, item) ∈ a.mem.left → ∀ f ∈ s.facts,
      node.contribution kb a.session.heap w f = node.contribution kb s.heap w f :=
    fun hitem f hf ↦
      hins.contribution hheap (htokens hitem) (hinv.notResult f hf) (hinv.id f hf)
  refine ⟨hresults, hinv.tests, hinv.notResult, ?_, ?_, hinv.written, ?_, ?_, ?_, ?_, htokens⟩
  · intro f hf
    show (a.session.heap f).id ≠ 0
    rw [hids f hf]
    exact hinv.id f hf
  · intro f hf g hg heq
    rw [show (s'.heap f).id = _ from hids f hf, show (s'.heap g).id = _ from hids g hg] at heq
    exact hinv.ids f hf g hg heq
  · exact hinv.chain.congr (fun _ ↦ Iff.rfl) hids htest
  · rw [hheld, show s'.accumulate.mem.right = _ from hright]
    exact hinv.right.congr fun f hf ↦ hids f (passingAll_subset _ _ _ hf)
  · intro w item hitem hw
    rw [hheld]
    rcases hleft hitem with ⟨hold, hreplaced⟩ | ⟨-, -, hfor⟩
    · obtain ⟨k, hk, hfor⟩ := hinv.items hold (hreplaced hw)
      refine ⟨k, fun f hf ↦ ?_, hfor⟩
      rcases hk f hf with heq | heq
      · exact .inl (heq.trans (hsame hitem f hf).symm)
      · rcases hseen f with hsee | ⟨hsee, -⟩
        · rw [hsee]
          exact .inr heq
        · rw [hsee] at heq
          exact .inl (heq.trans (hsame hitem f hf).symm)
    · exact ⟨_, fun f hf ↦ .inl (hsame hitem f hf).symm, hfor⟩
  · intro w item hitem hw
    rcases hleft hitem with ⟨hold, hreplaced⟩ | ⟨-, hmeasured, -⟩
    · exact (hinv.measured hold (hreplaced hw)).congr fun f hf ↦ hsame hitem f hf
    · exact hmeasured.congr fun f hf ↦ hsame hitem f hf

theorem SourceRun.inv {allowed : SourceSession → FactPtr → Heap → Prop}
    (hallowed : ∀ s f old, allowed s f old → KeepsContribution kb node s f old)
    (hins : Insulated kb node tests R)
    (h : SourceRun kb steps allocate node R tests allowed s) : SourceInv kb node R tests s := by
  induction h with
  | @start session htms hpos =>
    have hnone : ∀ {w : TokenWME} {item : LeftMemoryItem},
        (w, item) ∉ ([] : List (TokenWME × LeftMemoryItem)) := List.not_mem_nil
    refine ⟨⟨htms, hpos, AssocMap.unique_nil, fun h ↦ absurd h hnone, fun h ↦ absurd h hnone,
      fun h ↦ absurd h hnone, fun h ↦ absurd h hnone⟩, ?_, fun _ h ↦ absurd h (Set.notMem_empty _),
      fun _ h ↦ absurd h (Set.notMem_empty _), fun _ h ↦ absurd h (Set.notMem_empty _), nofun,
      chainExact_empty _ _ tests, ⟨AssocMap.unique_nil, fun {id f} ↦ ?_⟩,
      fun h ↦ absurd h hnone, fun h ↦ absurd h hnone, fun h ↦ absurd h hnone⟩
    · simp [Function.comp_def]
    · exact iff_of_false List.not_mem_nil fun h ↦ passingAll_subset _ _ _ h.1
  | @outside s session _ helsewhere ih =>
    set s' : SourceSession :=
      { s with accumulate := { s.accumulate with session := session } } with hs'
    have hseen : ∀ f, s'.seen f = s.seen f ∨ s.seen f = s.heap ∧ s'.seen f = session.heap := by
      intro f
      unfold SourceSession.seen
      rw [show s'.written = s.written from rfl]
      cases s.written with
      | none => exact .inr ⟨rfl, rfl⟩
      | some entry =>
        dsimp only
        split
        · exact .inl rfl
        · exact .inr ⟨rfl, rfl⟩
    have htest : ∀ f ∈ s.facts, ∀ a ∈ s.alphas,
        (testIn kb s'.seen a.1 f ↔ testIn kb s.seen a.1 f) := by
      intro f hf a ha
      unfold testIn
      rcases hseen f with heq | ⟨heq, heq'⟩
      · rw [heq]
      · rw [heq, heq', helsewhere.test f hf (Set.notMem_empty f) a ha]
    have hsame : ∀ {w item}, (w, item) ∈ s.left → w ∉ s.replaced → ∀ f ∈ s.facts,
        node.contribution kb session.heap w f = node.contribution kb s.heap w f :=
      fun hitem hw f hf ↦ helsewhere.contribution hitem hw f hf (Set.notMem_empty f)
    refine ih.elsewhere subset_rfl helsewhere ih.written htest ?_ ?_
    · rintro w item hitem hw f hf v (hv | hv)
      · exact .inl (hv.trans (hsame hitem hw f hf).symm)
      · rcases hseen f with heq | ⟨heq, -⟩
        · refine .inr ?_
          show v = node.contribution kb (s'.seen f) w f
          rw [heq]
          exact hv
        · rw [heq] at hv
          exact .inl (hv.trans (hsame hitem hw f hf).symm)
    · intro w item hitem hw
      exact (ih.measured hitem hw).congr fun f hf ↦ hsame hitem hw f hf
  | @insert s s' f _ hwritten hnew hR hid hids hmeasured hdelivers hfacts hwritten' hreplaced ih =>
    have hseen := seen_of_none hwritten
    have hdelivery : Delivery kb node R f (Insert.insert f s.facts) .assert s := by
      refine ⟨.assert hnew (Set.mem_insert f _), fun g hg ↦ by simp [hg], fun g _ ↦ hseen g, hR, hid,
        fun g hg heq ↦ absurd heq (hids g hg), nofun, fun {w item} hitem hw ↦ ?_,
        fun hf ↦ absurd (passingAll_subset _ _ _ hf) hnew⟩
      rw [Set.union_eq_self_of_subset_left (Set.subset_insert f s.facts)]
      exact hmeasured hitem hw
    exact hdelivery.inv ih hins hdelivers hfacts hwritten' hreplaced
  | insertBatch facts _ hwritten hnodup hnew hR hid hids hmeasured hdelivers hfacts hwritten'
      hreplaced ih =>
    exact hdelivers.inv ih hins hwritten hnodup hnew hR hid hids hmeasured hfacts hwritten' hreplaced
  | @retract s s' f _ hwritten hin hdelivers hfacts hwritten' hreplaced ih =>
    have hseen := seen_of_none hwritten
    have hdelivery : Delivery kb node R f (s.facts \ {f}) .retract s := by
      refine ⟨.retract hin fun h ↦ h.2 rfl, fun g hg ↦ by simp [hg], fun g _ ↦ hseen g,
        ih.notResult f hin, ih.id f hin, fun g hg heq ↦ ih.ids g hg f hin heq, nofun,
        fun {w item} hitem hw ↦ ?_, fun _ _ {w item} _ _ ↦ by rw [hseen f]⟩
      rw [Set.union_eq_self_of_subset_right Set.sdiff_subset]
      exact ih.measured hitem hw
    exact hdelivery.inv ih hins hdelivers hfacts hwritten' hreplaced
  | @write s f session replaced _ hwritten hin hsub helsewhere hmeasured ih =>
    have hseen := seen_of_none hwritten
    have hseen' : ∀ g (s' : SourceSession), s'.written = some (f, s.heap) →
        s'.heap = session.heap → s'.seen g = if g = f then s.heap else session.heap := by
      intro g s' hwritten' hheap
      unfold SourceSession.seen
      rw [hwritten', hheap]
    refine ih.elsewhere hsub helsewhere (fun heq ↦ ?_) ?_ ?_ hmeasured
    · cases heq
      exact hin
    · intro g hg a ha
      unfold testIn
      rw [hseen, hseen' g _ rfl rfl]
      by_cases hgf : g = f
      · rw [if_pos hgf]
      · rw [if_neg hgf, helsewhere.test g hg hgf a ha]
    · intro w item hitem hw g hg v hv
      rw [hseen, or_self] at hv
      rw [hseen' g _ rfl rfl]
      by_cases hgf : g = f
      · rw [if_pos hgf]
        exact .inr hv
      · exact .inl (hv.trans (helsewhere.contribution hitem hw g hg hgf).symm)
  | @propagate s s' f old _ hwritten hhint hkeeps hdelivers hfacts hwritten' hreplaced ih =>
    have hin := ih.written hwritten
    have hseen : s.seen f = old := by
      unfold SourceSession.seen
      rw [hwritten]
      simp
    have hseen' : ∀ g ≠ f, s.seen g = s.heap := by
      intro g hg
      unfold SourceSession.seen
      rw [hwritten]
      simp [hg]
    have hdelivery : Delivery kb node R f s.facts .modify s := by
      refine ⟨.modify hin hin, fun _ _ ↦ Iff.rfl, hseen', ih.notResult f hin, ih.id f hin,
        fun g hg heq ↦ ih.ids g hg f hin heq, fun _ a ha haffected ↦ ?_, fun {w item} hitem hw ↦ ?_,
        fun hf hf' {w item} hitem hw ↦ ?_⟩
      · rw [hseen]
        exact hhint a ha haffected
      · rw [Set.union_self]
        exact ih.measured hitem hw
      · rw [hseen]
        refine (hallowed _ _ _ hkeeps ?_ ?_ hitem hw).symm
        · intro a ha
          have hpass := hf.2 a ha
          unfold testIn at hpass
          rwa [hseen] at hpass
        · by_contra hall
          push Not at hall
          exact hf' ⟨hin, fun a ha ↦ (Bool.not_eq_false _).mp (hall a ha)⟩
    exact hdelivery.inv ih hins hdelivers hfacts hwritten' hreplaced
  | @enter s a w type _ htype htokens hR hzero hfresh hmeasured hok ih =>
    cases hknown : AssocMap.contains w s.left with
    | true =>
      have hends : (node.leftActivate kb steps allocate w type).Ends s.accumulate _ _ :=
        leftActivate_known htype hknown
      have hsame : a = s.accumulate := hends.of_ok hok
      refine ih.left hins (hsame ▸ ih.results) (hsame ▸ .refl _ _) (by rw [hsame]) fun hitem ↦ ?_
      rw [hsame] at hitem
      exact .inl ⟨hitem, fun hw hin ↦ hw ⟨hin, fun _ ↦ rfl⟩⟩
    | false =>
      have hends : (node.leftActivate kb steps allocate w type).Ends s.accumulate _ _ :=
        leftActivate_enters ih.results htype hknown hR hzero hfresh ih.right
        (hmeasured.mono (passingAll_subset _ _ _)) fun hheap f hf ↦
          hins.contribution hheap htokens (ih.notResult f (passingAll_subset _ _ _ hf))
            (ih.id f (passingAll_subset _ _ _ hf))
      obtain ⟨hresults, hheap, hright, hleft⟩ := hends.of_ok hok
      refine ih.left hins hresults hheap hright fun {v item} hitem ↦ ?_
      rcases hleft hitem with ⟨hne, hold⟩ | ⟨rfl, hfor⟩
      · exact .inl ⟨hold, fun hw hin ↦ hw ⟨hin, fun heq ↦ absurd heq hne⟩⟩
      · exact .inr ⟨htokens, hmeasured, hfor⟩
  | @leave s a w _ hok ih =>
    have hends : (node.leftActivate kb steps allocate w .retract).Ends s.accumulate _ _ :=
      leftActivate_leaves ih.results
    obtain ⟨hresults, hheap, hright, hleft⟩ := hends.of_ok hok
    refine ih.left hins hresults hheap hright fun hitem ↦ ?_
    obtain ⟨hne, hold⟩ := hleft hitem
    exact .inl ⟨hold, fun hw hin ↦ hw ⟨hin, hne⟩⟩

end Invariant

/-! ### The results -/

/-- The number that a numeric function takes from a fact for a token. -/
def AccumulateNode.number (kb : KnowledgeBase) (node : AccumulateNode) (heap : Heap)
    (w : TokenWME) (f : FactPtr) : ℤ :=
  match node.info.getAccumulateValue kb.runtime heap node.condition.bindings w f with
  | some (.int64 i) => i
  | _ => 0

theorem numberOf_contribution {kb : KnowledgeBase} {node : AccumulateNode} {heap : Heap}
    {w : TokenWME} {f : FactPtr} (hnumeric : node.info.function.isNumeric = true)
    (hsome : (node.contribution kb heap w f).isSome) :
    numberOf (node.contribution kb heap w f) = node.number kb heap w f := by
  unfold AccumulateNode.contribution AccumulateNode.number at *
  rw [if_pos hnumeric] at *
  split
  · generalize node.info.getAccumulateValue kb.runtime heap node.condition.bindings w f = value
    cases value with
    | none => rfl
    | some v => cases v <;> rfl
  · next h => simp [h] at hsome

/-- Counting and collecting do not look at numbers. -/
theorem AccumulateFunction.FoldsTo.congr {function : AccumulateFunction} {facts : List FactPtr}
    {numbers numbers' : List ℤ} {result : ConstraintValue}
    (h : function.FoldsTo facts numbers result)
    (hnumbers : function.isNumeric = true → numbers' = numbers) :
    function.FoldsTo facts numbers' result := by
  cases function with
  | sum => rwa [hnumbers rfl]
  | min => rwa [hnumbers rfl]
  | max => rwa [hnumbers rfl]
  | count => exact h
  | collect => exact h
  | collectList => exact h
  | collectSet => exact h

/-- `accumulate(Item(price < 10), sum(price))` as the first pattern of a rule. -/
def priceNode : AccumulateNode where
  info := { function := .sum, accumulateFieldName := "price", hasKernel := price_hasKernel }
  resultFactType := "Number"
  condition := ⟨[], [], []⟩
  children := []

/-- The constraint `price < 10`. -/
def lowPrice : ParsedConstraint :=
  { leftField := "price", op := .lt, rightLiteral := some (.int64 10) }

/-- An `Item` at address `1`, and two more at `3` and `4`, one of which costs too much. -/
def priceHeap (price : ℤ) : Heap := fun f ↦
  { id := f + 6, type := "Item",
    fields := [("price", .int64 (if f = 3 then 4 else if f = 4 then 30 else price))] }

theorem lowPrice_reads (heap : Heap) (f : FactPtr) :
    checkConstraint noExpressions heap lowPrice f =
      match (heap f).fields.lookup "price" with
      | some v => evaluateCompare (factIds heap) .lt v (.int64 10)
      | none => false := by
  have hpath : isPath "price" = false := by decide +kernel
  unfold checkConstraint alphaField alphaRightValue lowPrice
  simp only [hpath]
  cases h : (heap f).fields.lookup "price" <;> simp

theorem lowPrice_insulated : Insulated totalBase priceNode [lowPrice] {2} where
  test {heap heap' c f} hheap hc hf _ := by
    obtain rfl := List.mem_singleton.mp hc
    show checkConstraint noExpressions heap' lowPrice f = checkConstraint noExpressions heap lowPrice f
    rw [lowPrice_reads, lowPrice_reads, hheap.fields f hf]
    cases (heap f).fields.lookup "price" with
    | none => rfl
    | some v => cases v <;> rfl
  contribution {heap heap' w f} hheap _ hf _ := by
    have hvalue : ∀ heap : Heap, priceNode.contribution totalBase heap w f =
        some ((heap f).fields.lookup "price") := fun _ ↦ rfl
    rw [hvalue, hvalue, hheap.fields f hf]

theorem natAbs_sum_le (l : List ℤ) : l.sum.natAbs ≤ (l.map Int.natAbs).sum := by
  induction l with
  | nil => exact le_refl _
  | cons i l ih => exact (Int.natAbs_add_le i l.sum).trans (Nat.add_le_add_left ih _)

/-- Finitely many facts with small integers. -/
theorem measured_list {info : ParsedAccumulate} {k : FactPtr → Option (Option ConstraintValue)}
    {facts : List FactPtr} (hk : ∀ f ∈ facts, k f = some (some (.int64 (numberOf (k f)))))
    (hsum : ((facts.map fun f ↦ numberOf (k f)).map Int.natAbs).sum ≤ 2 ^ 53) :
    Measured info k {f | f ∈ facts} := by
  refine fun _ ↦ ⟨fun f hf v hv ↦ ?_, fun l hl hmem ↦ ?_⟩
  · exact ⟨_, Option.some.inj (hv.symm.trans (hk f hf))⟩
  · obtain ⟨l', hperm, hsub⟩ : l.Subperm facts := hl.subperm hmem
    have hsame : (l'.map fun f ↦ numberOf (k f)).sum = (l.map fun f ↦ numberOf (k f)).sum :=
      (hperm.map _).sum_eq
    rw [← hsame]
    exact (natAbs_sum_le _).trans
      ((((hsub.map fun f ↦ numberOf (k f)).map Int.natAbs).sum_le_sum fun _ _ ↦ Nat.zero_le _).trans
        hsum)

/-- The node with its alpha node at the start. -/
def priceStart : SourceSession :=
  { accumulate := { session := { heap := priceHeap 5 } }, alphas := [(lowPrice, [])] }

/-- The first token has come, and its sum is published. -/
def priceEntered : SourceSession :=
  { priceStart with
    accumulate := ((priceNode.leftActivate totalBase 1 (fun _ ↦ 2) .root .assert)
      priceStart.accumulate).state
    replaced := {v | v ∈ (∅ : Set TokenWME) ∧ (v = .root → false = true)} }

/-- The first `Item` has come. -/
def priceInserted : SourceSession :=
  { priceEntered with
    accumulate := ((priceNode.rightActivate totalBase 1 1 .assert) priceEntered.accumulate).state
    alphas := [(lowPrice, [7])]
    facts := {1} }

/-- The other two have come in one batch, and only the cheap one has passed the alpha node. -/
def priceBatched : SourceSession :=
  { priceInserted with
    accumulate := ((priceNode.rightActivateBatch totalBase 1 [3]) priceInserted.accumulate).state
    alphas := [(lowPrice, [9, 7])]
    facts := {1} ∪ {f | f ∈ [3, 4]} }

/-- A right-hand side sets the price to `20`. -/
def priceRaised : SourceSession :=
  { priceInserted with
    accumulate := { priceInserted.accumulate with
      session := writeFields 1 [("price", .int64 20)] priceInserted.session }
    written := some (1, priceInserted.heap) }

/-- The change has been propagated. -/
def priceFinished : SourceSession :=
  { priceRaised with
    accumulate := ((priceNode.rightActivate totalBase 1 1 .retract) priceRaised.accumulate).state
    alphas := [(lowPrice, [])]
    written := none }

/-- The runs of the node, under what is asked of its updates. -/
abbrev PriceRun (allowed : SourceSession → FactPtr → Heap → Prop) : SourceSession → Prop :=
  SourceRun totalBase 1 (fun _ ↦ 2) priceNode {2} [lowPrice] allowed

theorem priceEntered_run (allowed : SourceSession → FactPtr → Heap → Prop) :
    PriceRun allowed priceEntered := by
  have hstart : PriceRun allowed priceStart := .start rfl (by decide)
  refine .enter .root .assert hstart (by decide) (by decide) rfl (by decide)
    (fun h ↦ absurd h List.not_mem_nil) ?_ (EStateM.Result.eq_ok_state (by decide +kernel))
  exact fun _ ↦ ⟨fun f hf ↦ absurd hf (Set.notMem_empty f), fun l _ hl ↦ by
    rw [List.eq_nil_iff_forall_not_mem.mpr fun f hf ↦ Set.notMem_empty f (hl f hf)]
    exact Nat.zero_le _⟩

/-- What an `Item` contributes follows its price. -/
theorem priceNode_contribution {heap : Heap} {price : ℤ} (w : TokenWME) {f : FactPtr}
    (h : (heap f).fields = [("price", .int64 price)]) :
    priceNode.contribution totalBase heap w f = some (some (.int64 price)) := by
  show some ((heap f).fields.lookup "price") = _
  rw [h]
  rfl

/-- The source facts are those of a list, with small prices. -/
theorem priceNode_measured {heap : Heap} {facts : Set FactPtr} (l : List FactPtr)
    (price : FactPtr → ℤ) (w : TokenWME) (hl : ∀ f, f ∈ facts ↔ f ∈ l)
    (hprice : ∀ f ∈ l, (heap f).fields = [("price", .int64 (price f))])
    (hsum : ((l.map price).map Int.natAbs).sum ≤ 2 ^ 53) :
    Measured priceNode.info (priceNode.contribution totalBase heap w) facts := by
  have hcontribution := fun f hf ↦ priceNode_contribution w (hprice f hf)
  rw [show facts = {f | f ∈ l} from Set.ext hl]
  have hnumbers : (l.map fun f ↦ numberOf (priceNode.contribution totalBase heap w f)) =
      l.map price := List.map_congr_left fun f hf ↦ by rw [hcontribution f hf, numberOf]
  refine measured_list (fun f hf ↦ by rw [hcontribution f hf]; rfl) ?_
  rwa [hnumbers]

/-- A delivery through one alpha node. -/
theorem Delivers.single {kb : KnowledgeBase} {steps : ℕ} {node : AccumulateNode} {f : FactPtr}
    {type next : PropagationType} {s s' : SourceSession} {c : ParsedConstraint}
    {passing passing' : List ℤ} (halphas : s.alphas = [(c, passing)])
    (hstep : alphaStep kb c passing f type s.session = (passing', some next))
    (halphas' : s'.alphas = [(c, passing')])
    (hok : (node.rightActivate kb steps f next) s.accumulate = .ok () s'.accumulate) :
    Delivers kb steps node f type s s' := by
  have hchain : alphaChain kb f s.session s.alphas type = ([(c, passing')], some next) := by
    rw [halphas]
    simp only [alphaChain, hstep]
  exact ⟨by rw [hchain, halphas'], by rw [hchain]; exact hok⟩

theorem priceInserted_run (allowed : SourceSession → FactPtr → Heap → Prop) :
    PriceRun allowed priceInserted := by
  have hprice : (priceEntered.heap 1).fields = [("price", .int64 5)] := rfl
  have hstep : alphaStep totalBase lowPrice [] 1 .assert priceEntered.session =
      ([7], some .assert) := by decide +kernel
  have hok : ((priceNode.rightActivate totalBase 1 1 .assert) priceEntered.accumulate).isOk =
      true := by decide +kernel
  have hdelivers : Delivers totalBase 1 priceNode 1 .assert priceEntered priceInserted :=
    .single rfl hstep rfl (EStateM.Result.eq_ok_state hok)
  refine .insert 1 (priceEntered_run allowed) rfl (Set.notMem_empty 1) (by decide)
    (by decide +kernel) (fun g hg ↦ absurd hg (Set.notMem_empty g)) (fun {w item} _ _ ↦ ?_)
    hdelivers ?_ rfl rfl
  · refine priceNode_measured [1] (fun _ ↦ 5) w (fun f ↦ ?_) ?_ (by decide)
    · exact (or_iff_left (Set.notMem_empty f)).trans List.mem_singleton.symm
    · rintro f hf
      rw [List.mem_singleton.mp hf]
      exact hprice
  · exact (insert_empty_eq 1).symm

theorem priceBatched_run (allowed : SourceSession → FactPtr → Heap → Prop) :
    PriceRun allowed priceBatched := by
  have hpassing : [3, 4].filter (checkConstraint totalBase.runtime priceInserted.heap lowPrice) =
      [3] := by decide +kernel
  have hchain : BatchChain totalBase priceInserted.session [(lowPrice, [7])] [3, 4]
      [(lowPrice, [9, 7])] [3] := by
    have hpass := @BatchChain.pass totalBase priceInserted.session lowPrice [7] [] [] [3] [3, 4]
      [3, 4] (List.Sublist.refl _) (fun f hf hnot ↦ absurd hf hnot)
    rw [show priceInserted.session.heap = priceInserted.heap from rfl, hpassing] at hpass
    exact hpass (by decide) .behind
  have hok : ((priceNode.rightActivateBatch totalBase 1 [3]) priceInserted.accumulate).isOk =
      true := by decide +kernel
  have hmem : ∀ f, f ∈ priceBatched.facts ↔ f ∈ [1, 3, 4] := by
    intro f
    exact (List.mem_cons (a := f) (b := 1) (l := [3, 4])).symm
  refine .insertBatch [3, 4] (priceInserted_run allowed) rfl (by decide) ?_ (by decide)
    (by decide +kernel) ?_ (fun {w item} _ _ ↦ ?_)
    ⟨[3], hchain, nofun, fun _ ↦ EStateM.Result.eq_ok_state hok⟩ rfl rfl rfl
  · intro f hf hin
    obtain rfl : f = 1 := hin
    exact absurd hf (by decide)
  · intro f hf g hg hid
    have hids : ∀ f ∈ [1, 3, 4], (priceInserted.heap f).id = f + 6 := by decide +kernel
    have hg := (hmem g).mp hg
    have hf := List.mem_cons_of_mem 1 hf
    have heq : (g : ℤ) + 6 = f + 6 := (hids g hg).symm.trans (hid.trans (hids f hf))
    exact_mod_cast add_right_cancel heq
  · refine priceNode_measured [1, 3, 4] (fun f ↦ if f = 3 then 4 else if f = 4 then 30 else 5) w
      hmem (fun f hf ↦ ?_) (by decide)
    simp only [List.mem_cons, List.not_mem_nil, or_false] at hf
    rcases hf with rfl | rfl | rfl
    · rfl
    · rfl
    · rfl

theorem eq_of_numberOf {v : Option ConstraintValue} {i : ℤ} (h : numberOf (some v) = i)
    (hi : i ≠ 0) : v = some (.int64 i) := by
  unfold numberOf at h
  split at h
  · next heq =>
    rw [Option.some.inj heq, h]
  · exact absurd h.symm hi

end RulesForge
