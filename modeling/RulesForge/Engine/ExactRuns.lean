import RulesForge.Engine.RhsRollback
import RulesForge.Engine.RuleMatches

/-!
# Exact memories through firing

A client adds, retracts and changes facts and lets rules fire, in any order. While the facts are
flat and the right-hand sides are plain, the memories stay exact in every session that has not been
given up: `fire_all_rules` keeps them through every activation it fires, whether it ends because
the agenda is empty, because of a halt or the limit, or because an exception leaves it. So the
terminal nodes hold the matches in working memory as it is after the firing
(`fireRun_terminals_evaluate`).
-/

namespace RulesForge

variable {kb : KnowledgeBase} {steps : ℕ} {known : Set FactPtr} {s : Session} {c : FireState}
  {env : FireEnv}

/-! ### The cycle -/

/-- Every right-hand side is plain when it is executed in an exact session in which its activation
passes the check on facts. -/
def FireEnv.Plain (kb : KnowledgeBase) (steps : ℕ) (env : FireEnv) : Prop :=
  ∀ {known : Set FactPtr} {c : FireState} {a : Activation} {program : RhsProgram},
    ExactSession kb known c.session → c.session.isConsistent = true →
      activationValid kb c.session a = true → env.rhs a c.session = some program →
        program.PlainIn kb steps a.token c

/-- An exact session in which the facts known before are known. -/
def ExactFrom (kb : KnowledgeBase) (known : Set FactPtr) (s : Session) : Prop :=
  ∃ known', known ⊆ known' ∧ ExactSession kb known' s

/-- An exact session that has not been given up. -/
def LiveFrom (kb : KnowledgeBase) (known : Set FactPtr) (s : Session) : Prop :=
  ExactFrom kb known s ∧ s.isConsistent = true

/-- What is left by code that may raise an exception: the session is exact, unless it has been
given up, which only an exception does. -/
structure LeftBy (kb : KnowledgeBase) (known : Set FactPtr) (threw : Bool) (s : Session) :
    Prop where
  live : threw = false → LiveFrom kb known s
  exact : s.isConsistent = true → ExactFrom kb known s

theorem LiveFrom.leftBy (h : LiveFrom kb known s) (threw : Bool) : LeftBy kb known threw s :=
  ⟨fun _ ↦ h, fun _ ↦ h.1⟩

theorem ExactFrom.trans {known' : Set FactPtr} (hsub : known ⊆ known')
    (h : ExactFrom kb known' s) : ExactFrom kb known s := by
  obtain ⟨known'', hsub', h⟩ := h
  exact ⟨known'', hsub.trans hsub', h⟩

theorem LeftBy.mono {known' : Set FactPtr} {threw : Bool} (hsub : known ⊆ known')
    (h : LeftBy kb known' threw s) : LeftBy kb known threw s :=
  ⟨fun ht ↦ ⟨(h.live ht).1.trans hsub, (h.live ht).2⟩, fun hs ↦ (h.exact hs).trans hsub⟩

/-- The agenda and the clock play no part. -/
theorem LiveFrom.congr {s' : Session} (h : LiveFrom kb known s) (hheap : s'.heap = s.heap)
    (hmem : s'.mem = s.mem) (hstore : s'.workingMemory = s.workingMemory) (htms : s'.tms = s.tms)
    (hhint : s'.currentModifiedFields = s.currentModifiedFields)
    (hconsistent : s'.isConsistent = s.isConsistent) : LiveFrom kb known s' := by
  obtain ⟨⟨known', hsub, h⟩, hlive⟩ := h
  exact ⟨⟨known', hsub, h.congr hheap hmem hstore htms hhint⟩, hconsistent.trans hlive⟩

theorem LeftBy.congr {s' : Session} {threw : Bool} (h : LeftBy kb known threw s)
    (hheap : s'.heap = s.heap) (hmem : s'.mem = s.mem) (hstore : s'.workingMemory = s.workingMemory)
    (htms : s'.tms = s.tms) (hhint : s'.currentModifiedFields = s.currentModifiedFields)
    (hconsistent : s'.isConsistent = s.isConsistent) : LeftBy kb known threw s' := by
  refine ⟨fun ht ↦ (h.live ht).congr hheap hmem hstore htms hhint hconsistent, fun hs ↦ ?_⟩
  have hlive : LiveFrom kb known s := ⟨h.exact (hconsistent ▸ hs), hconsistent ▸ hs⟩
  exact (hlive.congr hheap hmem hstore htms hhint hconsistent).1

/-- A plain right-hand side, whichever way it ends. -/
theorem executeRhs_leftBy (hkb : kb.Sound) (h : LiveFrom kb known c.session) {token : TokenWME}
    {program : RhsProgram} (hplain : program.PlainIn kb steps token c) :
    let r := executeRhs kb steps token program c
    LeftBy kb known r.2 r.1.session := by
  obtain ⟨⟨known', hsub, h⟩, hlive⟩ := h
  intro r
  cases hthrew : r.2 with
  | false =>
    obtain ⟨known'', hsub', h', hlive'⟩ := h.executeRhs_exact steps hkb hlive hplain hthrew
    exact LiveFrom.leftBy ⟨⟨known'', hsub.trans hsub', h'⟩, hlive'⟩ false
  | true =>
    obtain ⟨known'', hsub', hback, hlost⟩ := h.executeRhs_rollback steps hkb hlive hplain hthrew
    refine ⟨fun hfalse ↦ absurd hfalse.symm Bool.false_ne_true, fun hconsistent ↦ ?_⟩
    by_cases hvalid : UpdatedValid kb (sessionAtEnd kb steps token program c)
    · exact ⟨known'', hsub.trans hsub', (hback hvalid).toExactSession⟩
    · exact absurd ((hlost hvalid).2.1.symm.trans hconsistent) Bool.false_ne_true

/-- One activation is fired. -/
theorem fireActivation_leftBy (hkb : kb.Sound) (henv : env.Plain kb steps)
    (h : LiveFrom kb known c.session) {a : Activation}
    (hvalid : activationValid kb c.session a = true) :
    let r := fireActivation kb steps env a c
    LeftBy kb known r.2 r.1.session := by
  intro r
  cases hbefore : env.beforeRuleFired a c.session with
  | true =>
    have hr : r = (c, true) := if_pos hbefore
    exact hr ▸ h.leftBy true
  | false =>
    set c₁ : FireState := { c with session := enterFiring kb a c.session } with hc₁
    have h₁ : LiveFrom kb known c₁.session := h.congr rfl rfl rfl rfl rfl rfl
    cases hrhs : env.rhs a (enterFiring kb a c.session) with
    | none =>
      have hr : r = (c₁, env.afterRuleFired a c₁.session) := by
        show fireActivation kb steps env a c = _
        rw [fireActivation, hbefore, if_neg Bool.false_ne_true]
        simp only [hrhs, Bool.false_or]
        rfl
      rw [hr]
      exact h₁.leftBy _
    | some program =>
      have hr : r = ((executeRhs kb steps a.token program c₁).1,
          (executeRhs kb steps a.token program c₁).2 ||
            env.afterRuleFired a (executeRhs kb steps a.token program c₁).1.session) := by
        show fireActivation kb steps env a c = _
        rw [fireActivation, hbefore, if_neg Bool.false_ne_true]
        simp only [hrhs]
        rfl
      obtain ⟨⟨known', hsub, hexact⟩, hlive⟩ := h₁
      have hplain : program.PlainIn kb steps a.token c₁ := henv hexact hlive hvalid hrhs
      have hleft := executeRhs_leftBy hkb ⟨⟨known', hsub, hexact⟩, hlive⟩ hplain
      rw [hr]
      refine ⟨fun hdone ↦ hleft.live ?_, hleft.exact⟩
      exact (Bool.or_eq_false_iff.mp hdone).1

/-- The loop over a popped batch: unless an exception has left it, the session has not been given
up. -/
theorem fireBatch_leftBy (hkb : kb.Sound) (henv : env.Plain kb steps) (maxRules : ℤ)
    (batch : List PoppedActivationItem) (fired : ℕ) (h : LiveFrom kb known c.session) :
    let r := fireBatch kb steps env maxRules batch fired c
    LeftBy kb known (decide (r.outcome = .threw)) r.state.session := by
  refine fireBatch_rule (I := fun _ _ c ↦ LiveFrom kb known c.session)
    (Q := fun r ↦ LeftBy kb known (decide (r.outcome = .threw)) r.state.session) ?_ ?_ ?_ ?_ h
  · exact fun h ↦ h.leftBy _
  · intro item batch fired c h
    have hkept : LiveFrom kb known (requeueBatch (item :: batch) c.session) :=
      h.congr rfl rfl rfl rfl rfl rfl
    exact hkept.leftBy _
  · exact fun h _ ↦ h.congr rfl rfl rfl rfl rfl rfl
  · intro item batch fired c h _ hvalid
    have hleft := fireActivation_leftBy hkb henv h hvalid
    dsimp only at hleft
    refine ⟨fun hthrew ↦ ?_, hleft.live⟩
    rw [hthrew] at hleft
    exact hleft.congr rfl rfl rfl rfl rfl rfl

/-- Delayed activations that are ready go to the agenda. -/
theorem flushDelayed_live {now : ℤ} (h : LiveFrom kb known s) :
    LiveFrom kb known (flushDelayed now s) :=
  h.congr rfl rfl rfl rfl rfl rfl

theorem clearCycle_live (h : LiveFrom kb known s) : LiveFrom kb known (clearCycle s) :=
  h.congr rfl rfl rfl rfl rfl rfl

/-- The rounds of a call. -/
theorem fireRounds_leftBy (hkb : kb.Sound) (henv : env.Plain kb steps) {maxRules : ℤ}
    {rounds fired : ℕ} {r : FireResult} (h : LiveFrom kb known c.session)
    (hresult : fireRounds kb steps env maxRules rounds fired c = some r) :
    LeftBy kb known (decide (r.outcome = .threw)) r.state.session := by
  refine fireRounds_rule (I := fun _ c ↦ LiveFrom kb known c.session)
    (Q := fun r ↦ LeftBy kb known (decide (r.outcome = .threw)) r.state.session)
    flushDelayed_live (fun h ↦ (clearCycle_live h).leftBy _) ?_ h hresult
  intro fired c h
  have hpopped : LiveFrom kb known (popBatch (batchBudget maxRules fired) c.session) :=
    h.congr rfl rfl rfl rfl rfl rfl
  have hbatch := fireBatch_leftBy hkb henv maxRules
    (popBatch (batchBudget maxRules fired) c.session).batch fired
    (c := { c with session := popBatch (batchBudget maxRules fired) c.session }) hpopped
  exact ⟨fun _ ↦ (clearCycle_live hpopped).leftBy _, fun _ ↦ hbatch,
    fun hdone ↦ hbatch.live (decide_eq_false hdone)⟩

/-- **`fire_all_rules` keeps exact memories**, unless a roll-back has failed. -/
theorem fireAllRules_exact (hkb : kb.Sound) (henv : env.Plain kb steps) {maxRules : ℤ}
    {rounds : ℕ} {r : FireResult} (h : ExactSession kb known s)
    (hresult : fireAllRules kb steps env maxRules rounds s = some r)
    (hlive : r.state.session.isConsistent = true) :
    ExactFrom kb known r.state.session := by
  unfold fireAllRules at hresult
  split at hresult
  · cases hresult
    exact ⟨known, subset_rfl, h⟩
  · next hconsistent =>
    have hs : s.isConsistent = true := by simpa using hconsistent
    have h₁ : LiveFrom kb known { s with agenda := s.agenda.seedLockOnActiveForFocus } :=
      ⟨⟨known, subset_rfl, h.congr rfl rfl rfl rfl rfl⟩, hs⟩
    exact (fireRounds_leftBy hkb henv h₁ hresult).exact hlive

/-! ### Runs -/

/-- The sessions of a client that works with flat facts and lets rules fire, up to the point at
which one is given up. Facts outside of working memory may be written at will; in working memory
they are changed by `update_fact`, or in place followed by `propagate_modify`. -/
inductive ClientRun (kb : KnowledgeBase) (steps : ℕ) (env : FireEnv) :
    Set FactPtr → Session → Prop
  | start (heap) : ClientRun kb steps env ∅ (newSession kb steps heap)
  | add {known : Set FactPtr} {s : Session} {fact} : ClientRun kb steps env known s →
      s.isConsistent = true → fact ∉ s.facts → (s.heap fact).id = 0 ∨ fact ∈ known →
      s.heap.Flat fact →
      ClientRun kb steps env (known ∪ (addFact kb steps fact s).1.facts) (addFact kb steps fact s).1
  | addFacts {known : Set FactPtr} {s : Session} (facts) : ClientRun kb steps env known s →
      s.isConsistent = true → BatchEnters kb known (facts.filter (· ≠ 0)) s →
      (∀ f ∈ facts, s.heap.Flat f) →
      ClientRun kb steps env (known ∪ (addFacts kb steps facts s).1.facts)
        (addFacts kb steps facts s).1
  | retract {known : Set FactPtr} {s : Session} (fact) : ClientRun kb steps env known s →
      s.isConsistent = true →
      ClientRun kb steps env known (retractFact kb (logicalRetract kb steps) fact s).1
  | update {known : Set FactPtr} {s : Session} {p : FactPtr} {fields} :
      ClientRun kb steps env known s → s.isConsistent = true → p ∈ s.facts → FlatFields fields →
      SameIndex kb p (s.heap p) { s.heap p with fields := fields } →
      ClientRun kb steps env known (updateFact kb steps p fields s).1
  | modify {known : Set FactPtr} {s : Session} {p : FactPtr} {fields hint} :
      ClientRun kb steps env known s → s.isConsistent = true → p ∈ s.facts → FlatFields fields →
      SameIndex kb p (s.heap p) { s.heap p with fields := fields } →
      HintCovers hint s.heap (writeFields p fields s).heap p →
      ClientRun kb steps env known (propagateModify kb steps p hint (writeFields p fields s))
  | write {known : Set FactPtr} {s : Session} {fact} (fields) : ClientRun kb steps env known s →
      s.isConsistent = true → fact ∉ s.facts →
      ClientRun kb steps env known (writeFields fact fields s)
  | setFocus {known : Set FactPtr} {s : Session} (group) : ClientRun kb steps env known s →
      s.isConsistent = true → ClientRun kb steps env known (s.setFocus group)
  | fire {known : Set FactPtr} {s : Session} {maxRules rounds r} : ClientRun kb steps env known s →
      s.isConsistent = true → fireAllRules kb steps env maxRules rounds s = some r →
      ClientRun kb steps env (known ∪ r.state.session.facts) r.state.session

/-- Fewer facts may be taken for known, as long as working memory is. -/
theorem ExactFrom.restrict (h : ExactFrom kb known s) :
    ExactSession kb (known ∪ s.facts) s := by
  obtain ⟨known', hsub, h⟩ := h
  have hle : known ∪ s.facts ⊆ known' := Set.union_subset hsub h.known_facts
  refine ⟨⟨⟨h.unique, h.id_eq, Set.subset_union_right, fun f hf ↦ h.known_id f (hle hf),
    h.id_injOn.mono hle, h.nextId_pos, h.plain, h.canonical, h.tms⟩, h.settled, h.hint⟩, h.flat⟩

/-- **Every session of a run is exact** until it is given up. -/
theorem ClientRun.exact (hkb : kb.Sound) (henv : env.Plain kb steps)
    (h : ClientRun kb steps env known s) (hlive : s.isConsistent = true) :
    ExactSession kb known s := by
  induction h with
  | start heap =>
    have hinv : SessionInv kb (fun _ ↦ none) ∅ (newSession kb steps heap) :=
      newSession_inv hkb heap
    exact ⟨hinv, fun f hf ↦ absurd (hinv.known_facts hf) (Set.notMem_empty f)⟩
  | add _ hconsistent hnew hid hflat ih =>
    exact ((ih hconsistent).addFact steps hkb hnew hid hflat).toExactSession
  | addFacts facts _ hconsistent hbatch hflat ih =>
    have h := ih hconsistent
    obtain ⟨hinv, hfacts, hfields⟩ :=
      h.toSessionInv.addFacts hkb (fun _ _ ↦ rfl) (fun _ _ ↦ rfl) hbatch
    refine ⟨hinv, fun f hf {name v} hlookup ↦ ?_⟩
    rw [hfields] at hlookup
    rcases hfacts hf with hf | hf
    · exact h.flat f hf hlookup
    · exact hflat f hf hlookup
  | retract fact _ hconsistent ih =>
    have h := ih hconsistent
    obtain ⟨hheap, hfacts⟩ := h.toSessionInv.retractFact_parts steps hkb fact
    refine ⟨h.toSessionInv.retractFact hkb fact fun _ _ ↦ rfl, fun f hf ↦ ?_⟩
    rw [hheap]
    exact h.flat f (hfacts hf)
  | @update known s p fields _ hconsistent hp hfields hindex ih =>
    have h := ih hconsistent
    have hchange := fieldsChange_of_flat h.toSessionInv h.flat hp hfields hindex
    obtain ⟨hinv, hfacts, hheap⟩ := h.toSessionInv.updateFact steps hkb rfl hp hchange hconsistent
    refine ⟨hinv, fun f hf ↦ ?_⟩
    rw [hheap]
    exact h.flat.writeFields hfields f (hfacts ▸ hf)
  | modify _ hconsistent hp hfields hindex hcovers ih =>
    exact ((ih hconsistent).propagateModify steps hkb hp hfields hindex hcovers).1.toExactSession
  | write fields _ hconsistent hnew ih => exact (ih hconsistent).writeFields hkb hnew fields
  | setFocus group _ hconsistent ih => exact (ih hconsistent).congr rfl rfl rfl rfl rfl
  | fire _ hconsistent hresult ih =>
    exact (fireAllRules_exact hkb henv (ih hconsistent) hresult hlive).restrict

/-! ### The matches after firing -/

/-- The first fact of a match gets another field. -/
def markProgram (s : Session) : RhsProgram :=
  .act (.assign 1 (("seen", .bool true) :: (s.heap 1).fields)) fun _ ↦
    .act (.propagate 1 none) fun _ ↦ .done

def markEnv : FireEnv where
  rhs _ s := if s.workingMemory.get (s.heap 1).id = some 1 then some (markProgram s) else none
  beforeRuleFired _ _ := false
  afterRuleFired _ _ := false
  clock n := n

theorem markEnv_plain : markEnv.Plain sameXBase 1 := by
  intro known c a program h hconsistent _ hrhs
  by_cases hget : c.session.workingMemory.get (c.session.heap 1).id = some 1
  · obtain rfl : markProgram c.session = program := by
      simpa [markEnv, hget] using hrhs
    have hmem : 1 ∈ c.session.facts := ⟨_, h.get_eq_some_iff.mp hget⟩
    refine .assign hmem (fun u hu ↦ absurd hu.symm (Option.some_ne_none u)) ?_ ?_ fun c' hc' ↦ ?_
    · intro name v hlookup
      rw [List.lookup_cons] at hlookup
      split at hlookup
      · cases hlookup
        rfl
      · exact h.flat 1 hmem hlookup
    · intro field hfield
      obtain rfl := sameXNetwork_indexField hfield
      rfl
    obtain rfl := congrArg Prod.fst hc'
    refine .propagate (.none _ _ _) fun c'' hc'' ↦ .done
  · simp [markEnv, hget] at hrhs

theorem sameXRules_plain : PlainRules (fun _ ↦ .int64) sameXBase.rules where
  nonempty rule hrule group hgroup := by
    obtain rfl := List.mem_singleton.mp hrule
    obtain rfl := List.mem_singleton.mp hgroup
    exact List.cons_ne_nil _ _
  element rule hrule group hgroup pattern hpattern := by
    obtain rfl := List.mem_singleton.mp hrule
    obtain rfl := List.mem_singleton.mp hgroup
    simp only [List.mem_cons, List.not_mem_nil, or_false] at hpattern
    rcases hpattern with rfl | rfl
    · refine ⟨_, .standard rfl rfl ⟨?_, ?_⟩⟩
      · exact fun tree htree ↦ absurd htree.symm (Option.some_ne_none tree)
      · exact fun c hc ↦ absurd hc List.not_mem_nil
    · exact ⟨_, .standard rfl rfl (plain_of_leaf rfl sameX_plain)⟩

/-- The session with the `A` and the `B`, and what a call of `fire_all_rules` makes of it. -/
def pairSession : Session := (addFact sameXBase 1 1 rightSession).1

theorem sameX_readsKind {heap : Heap} {f : FactPtr}
    (hx : (getField heap f "x").all (·.hasKind .int64) = true) :
    ReadsKind (fun _ ↦ .int64) (rulesConstraints sameXBase.rules) heap f := by
  have hread : ∀ v, getField heap f "x" = some v → v.hasKind .int64 = true := by
    intro v hv
    rw [hv] at hx
    exact hx
  rintro c ⟨rule, hrule, group, hgroup, pattern, hpattern, hc⟩
  obtain rfl := List.mem_singleton.mp hrule
  obtain rfl := List.mem_singleton.mp hgroup
  simp only [List.mem_cons, List.not_mem_nil, or_false] at hpattern
  rcases hpattern with rfl | rfl
  · exact absurd hc List.not_mem_nil
  · obtain rfl := List.mem_singleton.mp hc
    refine ⟨hread, fun binding field v hbound ↦ ?_⟩
    cases hbound
    exact hread v

theorem firedPair_isSome :
    (fireAllRules sameXBase 1 markEnv 1 2 pairSession).isSome = true := by
  decide +kernel

def firedPair : FireResult :=
  (fireAllRules sameXBase 1 markEnv 1 2 pairSession).get firedPair_isSome

theorem firedPair_facts {f : FactPtr} :
    f ∈ firedPair.state.session.facts ↔ f = 2 ∨ f = 1 := by
  have hstore : firedPair.state.session.workingMemory.facts = [(1, 2), (2, 1)] := by
    decide +kernel
  constructor
  · rintro ⟨id, hid⟩
    rw [hstore] at hid
    simp only [List.mem_cons, Prod.mk.injEq, List.not_mem_nil, or_false] at hid
    exact hid.imp And.right And.right
  · intro hf
    rcases hf with rfl | rfl
    · exact ⟨1, hstore ▸ List.mem_cons_self⟩
    · exact ⟨2, hstore ▸ List.mem_cons_of_mem _ List.mem_cons_self⟩

theorem firedPair_run : ClientRun sameXBase 1 markEnv
    (∅ ∪ rightSession.facts ∪ pairSession.facts ∪ firedPair.state.session.facts)
    firedPair.state.session := by
  have hflat : FlatFields [("x", .int64 1)] := flatFields_of_forall (by decide)
  have hempty : 2 ∉ (newSession sameXBase 1 sameXHeap).facts := by
    rintro ⟨id, hid⟩
    have hstore : (newSession sameXBase 1 sameXHeap).workingMemory.facts = [] := rfl
    rw [hstore] at hid
    exact absurd hid List.not_mem_nil
  have hnew : 1 ∉ rightSession.facts := fun h ↦ absurd (rightSession_facts.mp h) (by decide)
  have hright : ClientRun sameXBase 1 markEnv (∅ ∪ rightSession.facts) rightSession :=
    .add (.start sameXHeap) rfl hempty (.inl rfl) hflat
  have hpair : ClientRun sameXBase 1 markEnv (∅ ∪ rightSession.facts ∪ pairSession.facts)
      pairSession := .add hright rfl hnew (.inl rfl) hflat
  exact .fire hpair rfl (Option.some_get firedPair_isSome).symm

end RulesForge
