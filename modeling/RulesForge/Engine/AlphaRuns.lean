import RulesForge.Engine.Accumulate
import RulesForge.Engine.AlphaExact
import RulesForge.Engine.MatchEvents
import RulesForge.Rete.NetworkShape
import RulesForge.Rete.Propagation

/-!
# Sessions as runs of the alpha network

Whatever a client does with a session over a compiled network is a run of the network's alpha
nodes (`runSession_inside`), and so are the activations of an accumulate node above it
(`leftActivate_insideRun`, `rightActivate_insideRun`, `rightActivateBatch_insideRun`).

`staleAlpha` is such a run: an alpha node tests the result of an accumulate node, a right-hand side
changes a source fact, the accumulate node updates its result **under the hint of that change**,
and the alpha node keeps a fact that no longer satisfies it.
-/

namespace RulesForge

open Forest EStateM

/-! ### The alpha nodes of a compiled network -/

/-- The constraint of an alpha node. -/
def NodeKind.alphaConstraint : NodeKind → Option ParsedConstraint
  | alpha c => some c
  | _ => none

theorem NodeKind.alphaConstraint_eq_some {kind : NodeKind} {c : ParsedConstraint} :
    kind.alphaConstraint = some c ↔ kind = .alpha c := by
  cases kind <;> simp [alphaConstraint]

theorem CompiledNetwork.WellFormed.rightEdge {net : CompiledNetwork} (h : net.WellFormed)
    {q n : ℕ} (hmem : n ∈ net.children q) (halpha : (net.kind n).alphaConstraint.isSome = true) :
    net.RightEdge q n := by
  obtain ⟨c, hc⟩ := Option.isSome_iff_exists.mp halpha
  rw [NodeKind.alphaConstraint_eq_some] at hc
  refine ⟨hmem, ?_⟩
  by_contra hbeta
  rw [Bool.not_eq_false] at hbeta
  rcases h.left_child (.of_mem hbeta hmem) with hn | ⟨_, _, hn⟩
  · simp [hc, NodeKind.isBetaNode] at hn
  · simp [hc] at hn

/-- The alpha part of a compiled network. -/
def CompiledNetwork.alphaNetwork (net : CompiledNetwork) (h : net.WellFormed) : AlphaNetwork where
  constraint n := (net.kind n).alphaConstraint
  children n := (net.children n).filter fun m ↦ (net.kind m).alphaConstraint.isSome
  sole n := decide ((net.children n).length = 1)
  entry := net.entry
  forest := by
    constructor
    · intro a b c hac hbc
      rw [List.mem_filter] at hac hbc
      exact h.right_forest.parent_unique (h.rightEdge hac.1 hac.2) (h.rightEdge hbc.1 hbc.2)
    · intro a c hac
      rw [List.mem_filter] at hac
      exact h.right_forest.parent_lt (h.rightEdge hac.1 hac.2)
  children_nodup q := (h.children_nodup q).filter _
  children_alpha hn := Option.isSome_iff_exists.mp (List.mem_filter.mp hn).2

/-- The alpha nodes of a knowledge base. -/
abbrev KnowledgeBase.alphas (kb : KnowledgeBase) (h : kb.network.WellFormed) : AlphaNetwork :=
  kb.network.alphaNetwork h

namespace AlphaNetwork

/-! ### Composition -/

section Composition

variable {net : AlphaNetwork} {kb : KnowledgeBase} {ok : Guard} {F : Set FactPtr}
  {s s' s'' : Session}

theorem Runs.trans (h : Runs net kb ok F .inside s s') (h' : Runs net kb ok F .inside s' s'') :
    Runs net kb ok F .inside s s'' := by
  generalize ha : Activity.inside = a at h
  induction h with
  | done => exact h'
  | unseen hunseen hok _ ih => exact .unseen hunseen hok (ih h' ha)
  | nested hop _ _ ih => exact .nested hop (ih h' ha)
  | addFacts henabled hok hgroups _ _ ih => exact .addFacts henabled hok hgroups (ih h' ha)
  | mutation => cases ha
  | stop => cases ha
  | pass => cases ha
  | nil => cases ha
  | cons => cases ha
  | noGroups => cases ha
  | group => cases ha
  | stopBatch => cases ha
  | passBatch => cases ha
  | nilBatch => cases ha
  | consBatch => cases ha

/-- Beta nodes come first. -/
theorem Runs.inside_children {ns : List ℕ} {p : FactPtr} {type : PropagationType}
    (h : Runs net kb ok F .inside s s') (h' : Runs net kb ok F (.children ns p type) s' s'') :
    Runs net kb ok F (.children ns p type) s s'' := by
  cases h' with
  | nil hinside => exact .nil (h.trans hinside)
  | cons hinside hfirst hrest => exact .cons (h.trans hinside) hfirst hrest

theorem Runs.inside_childrenBatch {ns : List ℕ} {facts left : List FactPtr}
    (h : Runs net kb ok F .inside s s')
    (h' : Runs net kb ok F (.childrenBatch ns facts left) s' s'') :
    Runs net kb ok F (.childrenBatch ns facts left) s s'' := by
  cases h' with
  | nilBatch hinside => exact .nilBatch (h.trans hinside)
  | consBatch hinside hfirst hrest => exact .consBatch (h.trans hinside) hfirst hrest

theorem Runs.of_mutation {op : Mutation} (h : Runs net kb ok F (.mutation op) s s') :
    Runs net kb ok F .inside s s' :=
  .nested h .done

end Composition

/-! ### The operations of a session -/

/-- Something happens in the beta network, or between two operations. -/
abbrev Inside (net : AlphaNetwork) (kb : KnowledgeBase) (F : Set FactPtr) (s s' : Session) : Prop :=
  Runs net kb .any F .inside s s'

namespace Inside

variable {net : AlphaNetwork} {kb : KnowledgeBase} {F : Set FactPtr} {s s' : Session}

theorem of_unseen (h : Unseen s s') : Inside net kb F s s' :=
  .unseen h trivial .done

theorem of_eq (hmem : s'.mem = s.mem) (hhint : s'.currentModifiedFields = s.currentModifiedFields)
    (hstore : s'.workingMemory.facts = s.workingMemory.facts) : Inside net kb F s s' :=
  of_unseen ⟨fun n ↦ by rw [hmem], hhint, hstore⟩

theorem foldl {α : Type} {f : Session → α → Session} (hf : ∀ s x, Inside net kb F s (f s x))
    (l : List α) (s : Session) : Inside net kb F s (l.foldl f s) := by
  induction l generalizing s with
  | nil => exact .done
  | cons x l ih => exact (hf s x).trans (ih (f s x))

theorem of_silent (h : Silent s s') : Inside net kb F s s' := by
  obtain ⟨-, hstore, -, hhint⟩ := base_parts h.base
  exact of_unseen ⟨h.passing, hhint, by rw [hstore]⟩

theorem updateTerminal (n : ℕ) (f : List TokenWME → List TokenWME) (s : Session) :
    Inside net kb F s (updateTerminal n f s) := by
  refine of_unseen ⟨fun m ↦ ?_, rfl, rfl⟩
  by_cases hm : m = n
  · subst hm
    simp [RulesForge.updateTerminal]
  · simp [RulesForge.updateTerminal, hm]

theorem terminalLeft {retract : TokenWME → Session → Session}
    (hretract : ∀ w s, Inside net kb F s (retract w s)) (n rule : ℕ) (bindings : Bindings)
    (w : TokenWME) (type : PropagationType) (s : Session) :
    Inside net kb F s (terminalLeft kb retract n rule bindings w type s) := by
  cases type with
  | assert =>
    simp only [RulesForge.terminalLeft]
    split
    · exact .done
    · refine (updateTerminal n (· ++ [w]) s).trans (of_unseen ⟨fun m ↦ ?_, ?_, ?_⟩)
      · rw [applyAutoFocus_mem, addActivation_mem]
      · exact (base_parts ((applyAutoFocus_base _).trans (addActivation_base _ _))).2.2.2
      · rw [(base_parts ((applyAutoFocus_base _).trans (addActivation_base _ _))).2.1]
  | retract =>
    simp only [RulesForge.terminalLeft, terminalRetract]
    split
    · have hremove : Inside net kb F (RulesForge.updateTerminal n (·.erase w) s)
          ((RulesForge.updateTerminal n (·.erase w) s).removeActivation
            (activationHash kb.hashes rule w)) :=
        of_eq rfl rfl rfl
      exact (updateTerminal n (·.erase w) s).trans (hremove.trans (hretract w _))
    · exact hretract w s
  | modify => exact .done

/-- The loop of a terminal node over a batch of tokens remembers the new ones. -/
theorem terminalLeftBatch (n rule : ℕ) (bindings : Bindings) (wmes : List TokenWME) (s : Session) :
    Inside net kb F s (terminalLeftBatch kb n rule bindings wmes s) := by
  have hloop : ∀ added, Inside net kb F s (wmes.foldl (fun x w ↦
      if w ∈ (x.1.mem n).terminal then x
      else (RulesForge.updateTerminal n (· ++ [w]) x.1,
        x.2 ++ [activationOf kb rule (some bindings) w])) (s, added)).1 := by
    intro added
    refine List.foldlRecOn _ _ (motive := fun x : Session × List Activation ↦
      Inside net kb F s x.1) .done fun x hx w _ ↦ ?_
    split
    · exact hx
    · exact hx.trans (updateTerminal n (· ++ [w]) x.1)
  simp only [RulesForge.terminalLeftBatch]
  split
  · exact hloop []
  · refine (hloop []).trans (of_unseen ⟨fun m ↦ ?_, ?_, ?_⟩)
    · rw [addActivationsBatch_mem, applyAutoFocus_mem]
    · exact (base_parts (applyAutoFocus_base _)).2.2.2
    · exact congrArg WorkingMemory.facts (base_parts (applyAutoFocus_base _)).2.1

theorem carries {retract : TokenWME → Session → Session}
    (hretract : ∀ w s, Inside net kb F s (retract w s)) : Carries kb retract (Inside net kb F) where
  refl _ := .done
  trans := Runs.trans
  silent := of_silent
  terminal w type s _ := terminalLeft hretract _ _ _ w type s

end Inside

section Compiled

variable {kb : KnowledgeBase} (hnet : kb.network.WellFormed) {F : Set FactPtr}
  {retract : TokenWME → Session → Session}

/-- The nodes below an entry point or alpha node, with the levels that are left. -/
theorem Runs.toChildren
    (hretract : ∀ w s, Inside (kb.alphas hnet) kb F s (retract w s))
    (levels : ℕ) (p : FactPtr) {ms : List ℕ}
    (hkind : ∀ m ∈ ms, (kb.network.kind m).isBetaNode = true ∨ ∃ c, kb.network.kind m = .alpha c)
    (halpha : ∀ m ∈ ms, (kb.network.kind m).alphaConstraint.isSome = true → ∀ type s,
      Runs (kb.alphas hnet) kb .any F (.activate m p type) s
        (RulesForge.rightActivate kb retract levels m p type s))
    (type : PropagationType) (s : Session) :
    Runs (kb.alphas hnet) kb .any F
      (.children (ms.filter fun m ↦ (kb.network.kind m).alphaConstraint.isSome) p type) s
      (ms.foldl (fun s m ↦ RulesForge.rightActivate kb retract levels m p type s) s) := by
  induction ms generalizing s with
  | nil => exact .nil .done
  | cons m ms ih =>
    have hrest := ih (fun m' hm' ↦ hkind m' (List.mem_cons_of_mem _ hm'))
      (fun m' hm' ↦ halpha m' (List.mem_cons_of_mem _ hm'))
      (RulesForge.rightActivate kb retract levels m p type s)
    rw [List.foldl_cons]
    cases hm : (kb.network.kind m).alphaConstraint.isSome with
    | true =>
      rw [List.filter_cons, if_pos hm]
      exact .cons .done (halpha m List.mem_cons_self hm type s) hrest
    | false =>
      rw [List.filter_cons, if_neg (by simp [hm])]
      refine .inside_children ?_ hrest
      cases levels with
      | zero => exact .done
      | succ levels =>
        have hbeta : (kb.network.kind m).isBetaNode = true := by
          refine (hkind m List.mem_cons_self).resolve_right ?_
          rintro ⟨c, hc⟩
          simp [hc, NodeKind.alphaConstraint] at hm
        simp only [RulesForge.rightActivate]
        split
        · next h => simp [h, NodeKind.isBetaNode] at hbeta
        · next h => simp [h, NodeKind.isBetaNode] at hbeta
        · exact (Inside.carries hretract).betaRightActivate m p type s

/-- **An alpha node of a compiled network.** -/
theorem Runs.rightActivate
    (hretract : ∀ w s, Inside (kb.alphas hnet) kb F s (retract w s)) {levels n : ℕ}
    (halpha : (kb.network.kind n).alphaConstraint.isSome = true)
    (hlevels : kb.network.nodes.length < n + levels) (p : FactPtr) (type : PropagationType)
    (s : Session) :
    Runs (kb.alphas hnet) kb .any F (.activate n p type) s
      (RulesForge.rightActivate kb retract levels n p type s) := by
  obtain ⟨c, hc⟩ := Option.isSome_iff_exists.mp halpha
  have hkind := NodeKind.alphaConstraint_eq_some.mp hc
  induction levels generalizing n c type s with
  | zero =>
    -- There is no alpha node past the end of the network.
    rw [kb.network.kind_of_le (by omega)] at hkind
    cases hkind
  | succ levels ih =>
    have hbeta : (kb.network.kind n).isBetaNode = false := by
      rw [hkind]
      rfl
    have hchildren := Runs.toChildren hnet hretract levels p
      (fun m hm ↦ hnet.right_child ⟨hm, hbeta⟩) fun m hm halpha' type s ↦ by
        obtain ⟨c', hc'⟩ := Option.isSome_iff_exists.mp halpha'
        have hlt := hnet.right_forest.parent_lt ⟨hm, hbeta⟩
        exact ih halpha' (by omega) type s c' hc' (NodeKind.alphaConstraint_eq_some.mp hc')
    simp only [RulesForge.rightActivate, hkind]
    cases hstep : alphaStep kb c (s.mem n).passingFacts p type s with
    | mk passing next =>
      cases next with
      | none => exact .stop hc hstep
      | some type' => exact .pass hc hstep (hchildren type' _)

/-- The propagation of a fact that enters through an entry point. -/
theorem Runs.entry (hretract : ∀ w s, Inside (kb.alphas hnet) kb F s (retract w s))
    (through : Option String) {factType : String} {e : ℕ}
    (hentry : kb.network.entry through factType = some e) (p : FactPtr) (type : PropagationType)
    (s : Session) :
    Runs (kb.alphas hnet) kb .any F
      (.children ((kb.alphas hnet).entryChildren through factType) p type) s
      (RulesForge.rightActivate kb retract (kb.network.nodes.length + 1) e p type s) := by
  have hkind := hnet.entry_kind hentry
  have hbeta : (kb.network.kind e).isBetaNode = false := by
    rw [hkind]
    rfl
  have hchildren : (kb.alphas hnet).entryChildren through factType =
      (kb.network.children e).filter fun m ↦ (kb.network.kind m).alphaConstraint.isSome := by
    change (kb.network.entry through factType).elim [] _ = _
    rw [hentry]
    rfl
  simp only [RulesForge.rightActivate, hkind]
  rw [hchildren]
  refine Runs.toChildren hnet hretract _ p (fun m hm ↦ hnet.right_child ⟨hm, hbeta⟩)
    (fun m hm halpha type s ↦ ?_) type s
  have hlt := hnet.right_forest.parent_lt ⟨hm, hbeta⟩
  exact Runs.rightActivate hnet hretract halpha (by omega) p type s

/-- A batch comes to the nodes below an entry point or alpha node. Beta nodes leave the vector of
facts as it is. -/
theorem Runs.toChildrenBatch
    (hretract : ∀ w s, Inside (kb.alphas hnet) kb F s (retract w s))
    (levels : ℕ) {ms : List ℕ}
    (hkind : ∀ m ∈ ms, (kb.network.kind m).isBetaNode = true ∨ ∃ c, kb.network.kind m = .alpha c)
    (halpha : ∀ m ∈ ms, (kb.network.kind m).alphaConstraint.isSome = true → ∀ facts s,
      Runs (kb.alphas hnet) kb .any F
        (.activateBatch m facts (RulesForge.rightActivateBatch kb retract levels m facts s).1) s
        (RulesForge.rightActivateBatch kb retract levels m facts s).2)
    (facts : List FactPtr) (s : Session) :
    let r := ms.foldl (fun (facts, s) m ↦
      RulesForge.rightActivateBatch kb retract levels m facts s) (facts, s)
    Runs (kb.alphas hnet) kb .any F
      (.childrenBatch (ms.filter fun m ↦ (kb.network.kind m).alphaConstraint.isSome) facts r.1)
      s r.2 := by
  induction ms generalizing facts s with
  | nil => exact .nilBatch .done
  | cons m ms ih =>
    have hrest := ih (fun m' hm' ↦ hkind m' (List.mem_cons_of_mem _ hm'))
      (fun m' hm' ↦ halpha m' (List.mem_cons_of_mem _ hm'))
      (RulesForge.rightActivateBatch kb retract levels m facts s).1
      (RulesForge.rightActivateBatch kb retract levels m facts s).2
    dsimp only
    rw [List.foldl_cons]
    cases hm : (kb.network.kind m).alphaConstraint.isSome with
    | true =>
      rw [List.filter_cons, if_pos hm]
      exact .consBatch .done (halpha m List.mem_cons_self hm facts s) hrest
    | false =>
      rw [List.filter_cons, if_neg (by simp [hm])]
      have hbeta : RulesForge.rightActivateBatch kb retract levels m facts s = (facts,
          (RulesForge.rightActivateBatch kb retract levels m facts s).2) ∧
          Inside (kb.alphas hnet) kb F s
            (RulesForge.rightActivateBatch kb retract levels m facts s).2 := by
        cases levels with
        | zero => exact ⟨rfl, .done⟩
        | succ levels =>
          have hkind := (hkind m List.mem_cons_self).resolve_right fun ⟨c, hc⟩ ↦ by
            simp [hc, NodeKind.alphaConstraint] at hm
          simp only [RulesForge.rightActivateBatch]
          split
          · next h => simp [h, NodeKind.isBetaNode] at hkind
          · next h => simp [h, NodeKind.isBetaNode] at hkind
          · exact ⟨rfl, (Inside.carries hretract).betaRightActivateBatch
              (fun wmes s _ ↦ .terminalLeftBatch _ _ _ wmes s) m facts s⟩
      obtain ⟨hvector, hinside⟩ := hbeta
      rw [hvector] at hrest ⊢
      exact .inside_childrenBatch hinside hrest

/-- **An alpha node of a compiled network** that gets a batch. -/
theorem Runs.rightActivateBatch
    (hretract : ∀ w s, Inside (kb.alphas hnet) kb F s (retract w s)) {levels n : ℕ}
    (halpha : (kb.network.kind n).alphaConstraint.isSome = true)
    (hlevels : kb.network.nodes.length < n + levels) (facts : List FactPtr) (s : Session) :
    Runs (kb.alphas hnet) kb .any F
      (.activateBatch n facts (RulesForge.rightActivateBatch kb retract levels n facts s).1) s
      (RulesForge.rightActivateBatch kb retract levels n facts s).2 := by
  obtain ⟨c, hc⟩ := Option.isSome_iff_exists.mp halpha
  have hkind := NodeKind.alphaConstraint_eq_some.mp hc
  induction levels generalizing n c facts s with
  | zero =>
    rw [kb.network.kind_of_le (by omega)] at hkind
    cases hkind
  | succ levels ih =>
    have hbeta : (kb.network.kind n).isBetaNode = false := by
      rw [hkind]
      rfl
    have hchildren := Runs.toChildrenBatch hnet hretract levels
      (fun m hm ↦ hnet.right_child ⟨hm, hbeta⟩) fun m hm halpha' facts s ↦ by
        obtain ⟨c', hc'⟩ := Option.isSome_iff_exists.mp halpha'
        have hlt := hnet.right_forest.parent_lt ⟨hm, hbeta⟩
        exact ih halpha' (by omega) facts s c' hc' (NodeKind.alphaConstraint_eq_some.mp hc')
    simp only [RulesForge.rightActivateBatch, hkind]
    cases hsurvivors : (facts.filter (checkConstraint kb.runtime s.heap c)).isEmpty with
    | true => exact .stopBatch hc (List.isEmpty_iff.mp hsurvivors)
    | false =>
      have hsome : facts.filter (checkConstraint kb.runtime s.heap c) ≠ [] :=
        fun h ↦ by simp [h] at hsurvivors
      have hpass := Runs.passBatch hc hsome (hchildren _ _)
      rw [if_neg (by simp)]
      by_cases hsole : (kb.network.children n).length = 1
      · rw [if_pos hsole]
        rwa [show (kb.alphas hnet).sole n = true from decide_eq_true hsole, if_pos rfl] at hpass
      · rw [if_neg hsole]
        rwa [show (kb.alphas hnet).sole n = false from decide_eq_false hsole,
          if_neg Bool.false_ne_true] at hpass

/-- A batch goes to the entry points of its types. -/
theorem Runs.activateBatches (steps : ℕ) (F : Set FactPtr) (groups : List (String × List FactPtr))
    (s : Session)
    (hretract : ∀ w s, Inside (kb.alphas hnet) kb F s (RulesForge.logicalRetract kb steps w s)) :
    Runs (kb.alphas hnet) kb .any F (.groups groups) s
      (RulesForge.activateBatches kb steps groups s) := by
  induction groups generalizing s with
  | nil => exact .noGroups .done
  | cons group groups ih =>
    obtain ⟨type, facts⟩ := group
    have hgroup : ∃ left s₁, Runs (kb.alphas hnet) kb .any F
        (.childrenBatch ((kb.alphas hnet).entryChildren none type) facts left) s s₁ ∧
          RulesForge.activateBatches kb steps ((type, facts) :: groups) s =
            RulesForge.activateBatches kb steps groups s₁ := by
      cases hentry : kb.network.alphaEntryPoints.lookup type with
      | none =>
        have hchildren : (kb.alphas hnet).entryChildren none type = [] := by
          change (kb.network.alphaEntryPoints.lookup type).elim [] _ = _
          rw [hentry]
          rfl
        refine ⟨facts, s, hchildren ▸ .nilBatch .done, ?_⟩
        simp only [RulesForge.activateBatches, List.foldl_cons, hentry]
      | some e =>
        have hentry' : kb.network.entry none type = some e := hentry
        have hkind := hnet.entry_kind hentry'
        have hbeta : (kb.network.kind e).isBetaNode = false := by
          rw [hkind]
          rfl
        have hchildren : (kb.alphas hnet).entryChildren none type =
            (kb.network.children e).filter fun m ↦
              (kb.network.kind m).alphaConstraint.isSome := by
          change (kb.network.alphaEntryPoints.lookup type).elim [] _ = _
          rw [hentry]
          rfl
        have hrun := Runs.toChildrenBatch hnet hretract kb.network.nodes.length
          (fun m hm ↦ hnet.right_child ⟨hm, hbeta⟩) (fun m hm halpha facts s ↦ by
            have hlt := hnet.right_forest.parent_lt ⟨hm, hbeta⟩
            exact Runs.rightActivateBatch hnet hretract halpha (by omega) facts s) facts s
        refine ⟨_, _, hchildren ▸ hrun, ?_⟩
        simp only [RulesForge.activateBatches, List.foldl_cons, hentry,
          RulesForge.rightActivateBatch, hkind]
    obtain ⟨left, s₁, hrun, heq⟩ := hgroup
    rw [heq]
    exact .group hrun (ih s₁)

theorem Runs.activateEntryPoint
    (hretract : ∀ w s, Inside (kb.alphas hnet) kb F s (retract w s)) (p : FactPtr)
    (type : PropagationType) (s : Session) :
    Runs (kb.alphas hnet) kb .any F
      (.children ((kb.alphas hnet).entryChildren none (s.heap p).type) p type) s
      (RulesForge.activateEntryPoint kb retract p type s) := by
  unfold RulesForge.activateEntryPoint
  cases hentry : kb.network.alphaEntryPoints.lookup (s.heap p).type with
  | none =>
    have hchildren : (kb.alphas hnet).entryChildren none (s.heap p).type = [] := by
      change (kb.network.alphaEntryPoints.lookup (s.heap p).type).elim [] _ = _
      rw [hentry]
      rfl
    rw [hchildren]
    exact .nil .done
  | some e => exact Runs.entry hnet hretract none hentry p type s

/-- `retract_fact`, where what the ends of matches lead to is a run. -/
theorem Inside.retractFact
    (hretract : ∀ F w s, Inside (kb.alphas hnet) kb F s (retract w s))
    (fact : FactPtr) (s : Session) :
    Inside (kb.alphas hnet) kb F s (RulesForge.retractFact kb retract fact s).1 := by
  unfold RulesForge.retractFact
  split
  · exact .done
  · split
    · exact .done
    · next hconsistent =>
      split
      · exact .done
      · exact .of_eq rfl rfl rfl
      · next p hp htransaction =>
        have hclean : ∀ id s, Inside (kb.alphas hnet) kb F s (cleanWmeCache kb retract id s) :=
          fun id s ↦ (Inside.foldl (fun s w ↦ hretract F w s) _ s).trans (Inside.of_eq rfl rfl rfl)
        have henabled : (Mutation.retract p none).Enabled kb (kb.alphas hnet) s :=
          ⟨by simpa using hconsistent, ⟨fact, hp⟩, fun _ ↦ htransaction⟩
        exact .of_mutation (.mutation henabled trivial
          (Runs.activateEntryPoint hnet (hretract _) p .retract _) (hclean _ _))

/-- **What the end of a match leads to.** -/
theorem Inside.logicalRetract (steps : ℕ) (F : Set FactPtr) (w : TokenWME) (s : Session) :
    Inside (kb.alphas hnet) kb F s (RulesForge.logicalRetract kb steps w s) := by
  induction steps generalizing F w s with
  | zero => exact .done
  | succ steps ih =>
    exact (Inside.of_eq rfl rfl rfl : Inside _ kb F s
      { s with tms := (s.tms.removeJustificationsByToken w).1 }).trans
        (Inside.foldl (fun s fact ↦ Inside.retractFact hnet ih fact s) _ _)

theorem Inside.addFact (steps : ℕ) (F : Set FactPtr) (fact : FactPtr) (s : Session) :
    Inside (kb.alphas hnet) kb F s (RulesForge.addFact kb steps fact s).1 := by
  unfold RulesForge.addFact
  split
  · exact .done
  · next hzero =>
    split
    · exact .done
    · next hconsistent =>
      cases hname : kb.canonicalizeTypeName (s.heap fact).type with
      | none => exact .done
      | some name =>
        dsimp only
        split
        · exact .of_eq rfl rfl rfl
        · next hvalid =>
          have henabled : (Mutation.add fact none).Enabled kb (kb.alphas hnet) s := by
            refine ⟨hzero, by simpa using hconsistent, name, hname, ?_, fun h ↦ absurd rfl h⟩
            simpa [writeType] using hvalid
          have hstart : (Mutation.add fact none).start kb s =
              insertWorkingMemory fact (assignIds kb fact (writeType fact name s)) := by
            simp [Mutation.start, hname]
          rw [← hstart]
          exact .of_mutation (.mutation henabled trivial
            (Runs.activateEntryPoint hnet (logicalRetract hnet steps _) fact .assert _) .done)

/-- `add_facts` of a whole batch is a run. -/
theorem Inside.addFacts (steps : ℕ) (F : Set FactPtr) (facts : List FactPtr) (s : Session) :
    Inside (kb.alphas hnet) kb F s (RulesForge.addFacts kb steps facts s).1 := by
  unfold RulesForge.addFacts
  split
  · exact .done
  · split
    · exact .done
    · next hconsistent =>
      have hchecked := checkFacts_checked kb (facts.filter (· ≠ 0)) s
      have henabled : (checkFacts kb (facts.filter (· ≠ 0)) s).2 = none →
          BatchEnabled kb (facts.filter (· ≠ 0)) s :=
        fun haccepted ↦ ⟨fun f hf ↦ of_decide_eq_true (List.mem_filter.mp hf).2,
          by simpa using hconsistent, haccepted⟩
      dsimp only
      generalize hr : checkFacts kb (facts.filter (· ≠ 0)) s = r at hchecked henabled ⊢
      obtain ⟨s₁, _ | e⟩ := r
      · have hstart : batchEntered kb (facts.filter (· ≠ 0)) s =
            enterFacts kb (facts.filter (· ≠ 0)) s₁ := by
          rw [batchEntered, hr]
        dsimp only
        rw [← hstart]
        exact Runs.addFacts (henabled rfl) trivial
          (Runs.activateBatches hnet steps _ _ _ (logicalRetract hnet steps _)) .done
      · exact .of_eq hchecked.mem hchecked.hint (congrArg _ hchecked.workingMemory)

theorem Inside.updateFact (steps : ℕ) (F : Set FactPtr) (fact : FactPtr)
    (fields : List (String × ConstraintValue)) (s : Session) :
    Inside (kb.alphas hnet) kb F s (RulesForge.updateFact kb steps fact fields s).1 := by
  unfold RulesForge.updateFact
  split
  · exact .done
  · next hcontains =>
    split
    · exact .done
    · next hconsistent =>
      rw [not_or] at hcontains
      have henabled : (Mutation.update fact fields).Enabled kb (kb.alphas hnet) s :=
        ⟨hcontains.1, by simpa using hcontains.2, by simpa using hconsistent⟩
      exact .of_mutation (.mutation henabled trivial
        (Runs.activateEntryPoint hnet (logicalRetract hnet steps _) fact .modify _) .done)

/-- A right-hand side that has changed a fact, and calls `propagate_modify`. -/
theorem Runs.propagateModify (steps : ℕ) (F : Set FactPtr) {fact : FactPtr}
    (fields : List (String × ConstraintValue)) (hint : Option ModifiedFieldsHint) {s : Session}
    (hzero : fact ≠ 0) (hcontains : s.workingMemory.contains (s.heap fact).id = true) :
    Runs (kb.alphas hnet) kb .any F (.mutation (.modify fact fields hint)) s
      (RulesForge.propagateModify kb steps fact hint (writeFields fact fields s)) := by
  have hwritten : (writeFields fact fields s).workingMemory.contains
      ((writeFields fact fields s).heap fact).id = true := by
    rw [(writeFields_heap fact fact fields s).1]
    exact hcontains
  have heq : RulesForge.propagateModify kb steps fact hint (writeFields fact fields s) =
      (Mutation.modify fact fields hint).finish (RulesForge.activateEntryPoint kb
        (RulesForge.logicalRetract kb steps) fact .modify
        ((Mutation.modify fact fields hint).start kb s)) := by
    simp [RulesForge.propagateModify, hzero, hwritten, Mutation.finish, Mutation.start]
  rw [heq]
  exact .mutation ⟨hzero, hcontains⟩ trivial
    (Runs.activateEntryPoint hnet (Inside.logicalRetract hnet steps _) fact .modify _) .done

/-- The entrance through a named entry point. -/
theorem Inside.insertThrough {enter : FactPtr → Session → Session}
    (henter : ∀ F fact s, Inside (kb.alphas hnet) kb F
      (insertWorkingMemory fact s) (enter fact s)) (steps : ℕ) (F : Set FactPtr)
    (streamName : String) (fact : FactPtr) (s : Session) :
    Inside (kb.alphas hnet) kb F s
      (RulesForge.insertThrough kb enter steps streamName fact s).1 := by
  unfold RulesForge.insertThrough
  split
  · exact .done
  · next hzero =>
    split
    · exact .done
    · next hconsistent =>
      cases hname : kb.canonicalizeTypeName (s.heap fact).type with
      | none => exact .done
      | some name =>
        dsimp only
        split
        · exact .of_eq rfl rfl rfl
        · next hvalid =>
          cases hroute : requireEntryPointRoute kb streamName name with
          | error e => exact .of_eq rfl rfl rfl
          | ok entry =>
            have hentry : kb.network.entry (some streamName) name = some entry :=
              requireEntryPointRoute_ok_iff.mp hroute
            have henabled : (Mutation.add fact (some streamName)).Enabled kb
                (kb.alphas hnet) s := by
              refine ⟨hzero, by simpa using hconsistent, name, hname, ?_, fun _ ↦ ⟨entry, hentry⟩⟩
              simpa [writeType] using hvalid
            have hstart : (Mutation.add fact (some streamName)).start kb s =
                insertWorkingMemory fact (assignIds kb fact (writeType fact name s)) := by
              simp [Mutation.start, hname]
            have htype : (((Mutation.add fact (some streamName)).start kb s).heap fact).type =
                name := by
              rw [hstart]
              have hids := (assignId_assigned fact ((writeType fact name s).heap,
                s.workingMemory.nextId)).trans (assignNestedIds_assigned kb.nestingLimit fact _)
              exact (hids.type fact).trans ((writeType_heap fact fact name s).2.2.2 rfl)
            refine .of_mutation (.mutation henabled trivial ?_ .done)
            show Runs _ kb .any _ (.children ((kb.alphas hnet).entryChildren
              (some streamName) (((Mutation.add fact (some streamName)).start kb s).heap fact).type)
                fact .assert) _ _
            rw [htype, hstart]
            exact .inside_children (henter _ fact _)
              (Runs.entry hnet (logicalRetract hnet steps _) (some streamName) hentry fact .assert _)

theorem Inside.insertInto (steps : ℕ) (F : Set FactPtr) (streamName : String) (fact : FactPtr)
    (s : Session) :
    Inside (kb.alphas hnet) kb F s (RulesForge.insertInto kb steps streamName fact s).1 :=
  Inside.insertThrough hnet (fun _ _ _ ↦ .done) steps F streamName fact s

/-- An event is forgotten by the transaction before it is propagated. -/
theorem Inside.insertEventInto (steps : ℕ) (F : Set FactPtr) (streamName : String) (fact : FactPtr)
    (s : Session) :
    Inside (kb.alphas hnet) kb F s (RulesForge.insertEventInto kb steps streamName fact s).1 := by
  unfold RulesForge.insertEventInto
  refine Inside.insertThrough hnet ?_ steps F streamName fact s
  exact fun _ _ _ ↦ .of_eq rfl rfl rfl

theorem Inside.retractFrom (steps : ℕ) (F : Set FactPtr) (streamName : String) (fact : FactPtr)
    (s : Session) :
    Inside (kb.alphas hnet) kb F s (RulesForge.retractFrom kb steps streamName fact s).1 := by
  unfold RulesForge.retractFrom
  split
  · exact .done
  · split
    · exact .done
    · next hconsistent =>
      cases hp : s.workingMemory.get (s.heap fact).id with
      | none => exact .done
      | some p =>
        dsimp only
        cases hroute : requireEntryPointRoute kb streamName (s.heap p).type with
        | error e => exact .done
        | ok entry =>
          have henabled : (Mutation.retract p (some streamName)).Enabled kb (kb.alphas hnet) s :=
            ⟨by simpa using hconsistent, ⟨fact, hp⟩, fun h ↦ by cases h⟩
          exact .of_mutation (.mutation henabled trivial (Runs.entry hnet
            (logicalRetract hnet steps _) (some streamName) (requireEntryPointRoute_ok_iff.mp hroute) p
              .retract _) .done)

/-- **Every operation of a client** is a run. -/
theorem Inside.sessionOp (steps : ℕ) (F : Set FactPtr) (op : SessionOp) (s : Session) :
    Inside (kb.alphas hnet) kb F s (op.run kb steps s) := by
  cases op with
  | add fact => exact Inside.addFact hnet steps F fact s
  | addFacts facts => exact Inside.addFacts hnet steps F facts s
  | insertInto streamName fact => exact Inside.insertInto hnet steps F streamName fact s
  | insertEventInto streamName fact => exact Inside.insertEventInto hnet steps F streamName fact s
  | retract fact => exact Inside.retractFact hnet (Inside.logicalRetract hnet steps) fact s
  | retractFrom streamName fact => exact Inside.retractFrom hnet steps F streamName fact s
  | update fact fields => exact Inside.updateFact hnet steps F fact fields s
  | write fact fields => exact .of_eq rfl rfl rfl
  | modify fact fields hint =>
    by_cases hpresent : fact = 0 ∨ !s.workingMemory.contains (s.heap fact).id
    · -- The fields have been written, and nothing is propagated.
      have hskip : propagateModify kb steps fact hint (writeFields fact fields s) =
          writeFields fact fields s := by
        rw [RulesForge.propagateModify, (writeFields_heap fact fact fields s).1]
        exact if_pos hpresent
      show Inside _ kb F s (propagateModify kb steps fact hint (writeFields fact fields s))
      rw [hskip]
      exact .of_eq rfl rfl rfl
    · rw [not_or] at hpresent
      exact .of_mutation (Runs.propagateModify hnet steps F fields hint hpresent.1
        (by simpa using hpresent.2))

theorem Inside.newSession (steps : ℕ) (heap : Heap) :
    Inside (kb.alphas hnet) kb ∅ { heap := heap } (newSession kb steps heap) := by
  refine (Inside.foldl (fun s entry ↦ ?_) _ _).trans (Inside.foldl (fun s n ↦ ?_) _ _)
  · dsimp only
    split
    · obtain ⟨-, hstore, -, hhint⟩ := base_parts (addActivation_base s _)
      exact Inside.of_eq (addActivation_mem s _) hhint (by rw [hstore])
    · exact .done
  · exact (Inside.carries (Inside.logicalRetract hnet steps ∅)).leftActivate _ n _ _ s

/-- **Every session is reached by a run**, whatever its client does. -/
theorem runSession_inside (steps : ℕ) (heap : Heap) (ops : List SessionOp) :
    Inside (kb.alphas hnet) kb ∅ { heap := heap }
      (runSession kb steps ops (newSession kb steps heap)) :=
  (Inside.newSession hnet steps heap).trans
    (Inside.foldl (fun s op ↦ Inside.sessionOp hnet steps ∅ op s) ops _)

end Compiled

end AlphaNetwork

/-! ### An accumulate node -/

namespace AccumulateNode

open AlphaNetwork

variable {kb : KnowledgeBase} (hnet : kb.network.WellFormed) (steps : ℕ) (node : AccumulateNode)

/-- What the node does to the session is a run, also where an operation throws. -/
abbrev InsideRun {α : Type} (F : Set FactPtr) (x : EStateM SessionError AccumulateSession α)
    (s : AccumulateSession) : Prop :=
  x.Ends s (fun _ s' ↦ Inside (kb.alphas hnet) kb F s.session s'.session)
    fun _ s' ↦ Inside (kb.alphas hnet) kb F s.session s'.session

section Rules

variable {hnet} {F : Set FactPtr} {α β : Type} {s : AccumulateSession}

theorem InsideRun.bind {x : EStateM SessionError AccumulateSession α}
    {f : α → EStateM SessionError AccumulateSession β} (hx : InsideRun hnet F x s)
    (hf : ∀ a s', InsideRun hnet F (f a) s') : InsideRun hnet F (x >>= f) s :=
  Ends.bind (hx.mono (fun a s' h ↦ (hf a s').mono (fun _ _ ↦ h.trans) fun _ _ ↦ h.trans) fun _ _ h ↦ h)

theorem InsideRun.inside {x : EStateM SessionError AccumulateSession α} (h : InsideRun hnet F x s)
    {s' : AccumulateSession} (heq : s' = (x s).state) :
    Inside (kb.alphas hnet) kb F s.session s'.session := by
  rw [heq]
  exact Ends.state h

theorem InsideRun.pure (a : α) : InsideRun hnet F (pure a) s :=
  Ends.pure .done

theorem InsideRun.modify {g : AccumulateSession → AccumulateSession}
    (h : Inside (kb.alphas hnet) kb F s.session (g s).session) : InsideRun hnet F (modify g) s :=
  Ends.modify h

theorem InsideRun.get {f : AccumulateSession → EStateM SessionError AccumulateSession β}
    (h : InsideRun hnet F (f s) s) : InsideRun hnet F (do f (← get)) s :=
  Ends.bind (.get h)

theorem InsideRun.callSession {f : Session → Session × Option SessionError}
    (h : Inside (kb.alphas hnet) kb F s.session (f s.session).1) :
    InsideRun hnet F (callSession f) s := by
  unfold InsideRun Ends RulesForge.callSession
  dsimp only
  cases (f s.session).2 with
  | none => exact h
  | some e => exact h

theorem InsideRun.forM {body : α → EStateM SessionError AccumulateSession PUnit}
    (h : ∀ a s, InsideRun hnet F (body a) s) (l : List α) : InsideRun hnet F (l.forM body) s := by
  induction l generalizing s with
  | nil => exact .pure _
  | cons a l ih => exact .bind (h a s) fun _ _ ↦ ih

end Rules

variable (F : Set FactPtr)

theorem activateChildren_insideRun (w : TokenWME) (type : PropagationType) (s : AccumulateSession) :
    InsideRun hnet F (node.activateChildren kb steps w type) s := by
  refine .modify ?_
  rw [(foldl_activateChild kb steps w type node.children s).2]
  exact Inside.foldl (fun s child ↦
    (Inside.carries (Inside.logicalRetract hnet steps F)).leftActivate _ child w type s) _ _

theorem resultWme_insideRun (item : LeftMemoryItem) (s : AccumulateSession) :
    InsideRun hnet F (resultWme item) s :=
  .get (.bind (.modify (.of_silent (.getOrCreateWme s.session _ _))) fun _ _ ↦ .pure _)

theorem updateAndPropagateResult_insideRun (item : LeftMemoryItem) (s : AccumulateSession) :
    InsideRun hnet F (node.updateAndPropagateResult kb steps item) s := by
  unfold updateAndPropagateResult
  refine .get ?_
  dsimp only
  split
  · refine .bind (.callSession (Inside.of_eq rfl rfl rfl)) fun _ s₁ ↦ ?_
    refine .bind (.callSession (Inside.addFact hnet steps F _ _)) fun _ s₂ ↦ ?_
    refine .bind (resultWme_insideRun hnet F item s₂) fun w s₃ ↦ ?_
    exact activateChildren_insideRun hnet steps node F w .assert s₃
  · refine .bind (resultWme_insideRun hnet F item s) fun w s₁ ↦ ?_
    refine .bind (activateChildren_insideRun hnet steps node F w .retract s₁) fun _ s₂ ↦ ?_
    refine .bind (.callSession (Inside.updateFact hnet steps F _ _ _)) fun _ s₃ ↦ ?_
    exact activateChildren_insideRun hnet steps node F w .assert s₃

theorem updateAccumulate_insideRun (f : AccumulateMem → AccumulateMem) (s : AccumulateSession) :
    InsideRun hnet F (updateAccumulate f) s :=
  .modify .done

theorem updateItem_insideRun (forward : Bool) (fact : FactPtr) (w : TokenWME)
    (s : AccumulateSession) : InsideRun hnet F (node.updateItem kb steps forward fact w) s := by
  unfold updateItem
  refine .get ?_
  cases s.mem.left.lookup w with
  | none => exact .pure _
  | some item =>
    dsimp only
    split
    · refine .bind (updateAccumulate_insideRun hnet F _ s) fun _ s₁ ↦ ?_
      split
      · exact updateAndPropagateResult_insideRun hnet steps node F _ s₁
      · exact .pure _
    · exact .pure _

theorem updateItemBatch_insideRun (facts : List FactPtr) (w : TokenWME) (s : AccumulateSession) :
    InsideRun hnet F (node.updateItemBatch kb steps facts w) s := by
  unfold updateItemBatch
  refine .get ?_
  cases s.mem.left.lookup w with
  | none => exact .pure _
  | some item =>
    dsimp only
    refine .bind (updateAccumulate_insideRun hnet F _ s) fun _ s₁ ↦ ?_
    split
    · exact updateAndPropagateResult_insideRun hnet steps node F _ s₁
    · exact .pure _

theorem rebuildItem_insideRun (w : TokenWME) (s : AccumulateSession) :
    InsideRun hnet F (node.rebuildItem kb steps w) s := by
  unfold rebuildItem
  refine .get ?_
  cases s.mem.left.lookup w with
  | none => exact .pure _
  | some item =>
    exact .bind (updateAccumulate_insideRun hnet F _ s) fun _ s₁ ↦
      updateAndPropagateResult_insideRun hnet steps node F _ s₁

/-- **The right activation of an accumulate node is a run.** -/
theorem rightActivate_insideRun (fact : FactPtr) (type : PropagationType) (s : AccumulateSession) :
    InsideRun hnet F (node.rightActivate kb steps fact type) s := by
  unfold AccumulateNode.rightActivate
  refine .get ?_
  dsimp only
  split
  · exact .pure _
  · cases type with
    | modify =>
      exact .bind (updateAccumulate_insideRun hnet F _ s) fun _ _ ↦
        .forM (rebuildItem_insideRun hnet steps node F) _
    | assert =>
      exact .bind (updateAccumulate_insideRun hnet F _ s) fun _ _ ↦
        .forM (updateItem_insideRun hnet steps node F true fact) _
    | retract =>
      dsimp only
      split
      · exact .bind (.forM (updateItem_insideRun hnet steps node F false fact) _) fun _ s₁ ↦
          updateAccumulate_insideRun hnet F _ s₁
      · exact .pure _

/-- The right activation of an accumulate node with a batch is a run. -/
theorem rightActivateBatch_insideRun (facts : List FactPtr) (s : AccumulateSession) :
    InsideRun hnet F (node.rightActivateBatch kb steps facts) s := by
  unfold AccumulateNode.rightActivateBatch
  exact .get (.bind (updateAccumulate_insideRun hnet F _ s) fun _ _ ↦
    .forM (updateItemBatch_insideRun hnet steps node F facts) _)

/-- **The left activation of an accumulate node is a run.** -/
theorem leftActivate_insideRun (allocate : Session → FactPtr) (w : TokenWME)
    (type : PropagationType) (s : AccumulateSession) :
    InsideRun hnet F (node.leftActivate kb steps allocate w type) s := by
  have hcreate : ∀ t : Session, Inside (kb.alphas hnet) kb F t
      (createResultFact kb allocate node.resultFactType t).1 := by
    intro t
    unfold createResultFact
    cases kb.canonicalizeTypeName node.resultFactType with
    | none => exact .done
    | some name => exact Inside.of_eq rfl rfl rfl
  unfold AccumulateNode.leftActivate
  refine .get ?_
  dsimp only
  split
  · cases s.mem.left.lookup w with
    | none => exact .pure _
    | some item =>
      exact .bind (.callSession (Inside.retractFact hnet (Inside.logicalRetract hnet steps) _ _))
        fun _ s₁ ↦ updateAccumulate_insideRun hnet F _ s₁
  · split
    · exact .pure _
    · refine .bind (.callSession (hcreate _)) fun _ s₁ ↦ .get ?_
      exact .bind (updateAccumulate_insideRun hnet F _ s₁) fun _ s₂ ↦
        updateAndPropagateResult_insideRun hnet steps node F _ s₂

end AccumulateNode

/-! ### A total under a hint -/

/-- The constraint `result < 10`. -/
def lowTotal : ParsedConstraint :=
  { leftField := "result", op := .lt, rightLiteral := some (.int64 10) }

/-- `Number(result < 10)`. -/
def lowTotalRule : ParsedRule :=
  { name := "lowTotal"
    conditionGroups := [[{ factType := "Number", constraintRoot := some (.leaf lowTotal) }]] }

def lowTotalBase : KnowledgeBase where
  rules := [lowTotalRule]
  network := (compileNetwork [lowTotalRule]).toOption.getD {}
  runtime := noExpressions
  hashes := ⟨fun p ↦ p, fun w ↦ w.depth, fun rule ↦ rule⟩
  validate := fun _ ↦ true
  nestingLimit := 1

theorem lowTotal_wellFormed : lowTotalBase.network.WellFormed :=
  (compileNetwork_shape (rfl : compileNetwork [lowTotalRule] = .ok lowTotalBase.network)).wellFormed

/-- The alpha nodes of the rule. -/
abbrev lowTotalAlpha : AlphaNetwork := lowTotalBase.network.alphaNetwork lowTotal_wellFormed

/-- `accumulate(Item(), sum(price))` as the first pattern of another rule. -/
def saleNode : AccumulateNode where
  info := { function := .sum, accumulateFieldName := "price", hasKernel := price_hasKernel }
  resultFactType := "Number"
  condition := ⟨[], [], []⟩
  children := []

/-- An `Item` at address `1`. -/
def saleHeap : Heap := fun _ ↦ { type := "Item", fields := [("price", .int64 5)] }

theorem lowTotal_constraint {n : ℕ} {c : ParsedConstraint}
    (h : lowTotalAlpha.constraint n = some c) : n = 1 ∧ c = lowTotal := by
  match n with
  | 0 => cases h
  | 1 => exact ⟨rfl, (Option.some.inj h).symm⟩
  | 2 => cases h
  | 3 => cases h
  | n + 4 => cases h

open AlphaNetwork

def saleEmpty : AccumulateSession := { session := newSession lowTotalBase 1 saleHeap }

/-- The total of no items has been published. -/
def saleStart : AccumulateSession :=
  ((saleNode.leftActivate lowTotalBase 1 (fun _ ↦ 2) .root .assert) saleEmpty).state

/-- The `Item` enters working memory. -/
def saleEntered : AccumulateSession :=
  { saleStart with session := (addFact lowTotalBase 1 1 saleStart.session).1 }

/-- The session after the `Item` has been added. The total is at address `2`. -/
def saleSession : AccumulateSession :=
  ((saleNode.rightActivate lowTotalBase 1 1 .assert) saleEntered).state

/-- A right-hand side sets the price to `20`. -/
def raisePrice : Mutation :=
  .modify 1 [("price", .int64 20)] (some { fields := ["price"], overflow := false })

/-- The price has been set, and the propagation starts. -/
def saleRaised : AccumulateSession :=
  { saleSession with session := raisePrice.start lowTotalBase saleSession.session }

/-- The propagation has reached the accumulate node. -/
def saleModified : AccumulateSession :=
  ((saleNode.rightActivate lowTotalBase 1 1 .modify) saleRaised).state

/-- The session after the propagation. -/
def saleFinished : Session := raisePrice.finish saleModified.session

/-- The accumulate node gets the root token at the start and an `Item` that is added. -/
theorem saleNode_adds (s₀ : AccumulateSession) {s₁ s₂ s₃ : AccumulateSession}
    (h₀ : s₀.session = newSession lowTotalBase 1 saleHeap)
    (h₁ : s₁ = ((saleNode.leftActivate lowTotalBase 1 (fun _ ↦ 2) .root .assert) s₀).state)
    (h₂ : s₂ = { s₁ with session := (addFact lowTotalBase 1 1 s₁.session).1 })
    (h₃ : s₃ = ((saleNode.rightActivate lowTotalBase 1 1 .assert) s₂).state) :
    Inside lowTotalAlpha lowTotalBase ∅ { heap := saleHeap } s₃.session := by
  have hnew : Inside lowTotalAlpha lowTotalBase ∅ { heap := saleHeap } s₀.session := by
    rw [h₀]
    exact Inside.newSession lowTotal_wellFormed 1 saleHeap
  have hstart := (saleNode.leftActivate_insideRun lowTotal_wellFormed 1 ∅ (fun _ ↦ 2) .root .assert
    s₀).inside h₁
  have hentered : Inside lowTotalAlpha lowTotalBase ∅ s₁.session s₂.session := by
    rw [h₂]
    exact Inside.addFact lowTotal_wellFormed 1 ∅ 1 s₁.session
  have hadded := (saleNode.rightActivate_insideRun lowTotal_wellFormed 1 ∅ 1 .assert s₂).inside h₃
  exact hnew.trans (hstart.trans (hentered.trans hadded))

/-- A fact that no alpha node tests is modified, and the accumulate node gets it. -/
theorem saleNode_modifies {fields : List (String × ConstraintValue)}
    {hint : Option ModifiedFieldsHint} {s s₁ s₂ : AccumulateSession}
    (hcontains : s.session.workingMemory.contains (s.session.heap 1).id = true)
    (h₁ : s₁ = { s with session :=
      { writeFields 1 fields s.session with currentModifiedFields := hint } })
    (hchildren : lowTotalAlpha.entryChildren none (s₁.session.heap 1).type = [])
    (h₂ : s₂ = ((saleNode.rightActivate lowTotalBase 1 1 .modify) s₁).state) :
    Runs lowTotalAlpha lowTotalBase .any ∅ (.mutation (.modify 1 fields hint)) s.session
      ((Mutation.modify 1 fields hint).finish s₂.session) := by
  subst h₁
  have hinside := (saleNode.rightActivate_insideRun lowTotal_wellFormed 1 (insert 1 ∅) 1 .modify
    _).inside h₂
  have henabled : (Mutation.modify 1 fields hint).Enabled lowTotalBase lowTotalAlpha s.session :=
    ⟨by decide, hcontains⟩
  refine .mutation henabled trivial ?_ .done
  have hchildren' : lowTotalAlpha.entryChildren (Mutation.modify 1 fields hint).through
      (((Mutation.modify 1 fields hint).start lowTotalBase s.session).heap 1).type = [] :=
    hchildren
  show Runs lowTotalAlpha lowTotalBase .any _ (.children (lowTotalAlpha.entryChildren
    (Mutation.modify 1 fields hint).through
      (((Mutation.modify 1 fields hint).start lowTotalBase s.session).heap 1).type) 1 .modify) _ _
  rw [hchildren']
  exact .nil hinside

/-- **A stale alpha node**: the total is `20`, and the node for `result < 10` still holds it. The
node was told of the new total under the hint of the price. -/
theorem staleAlpha :
    Runs lowTotalAlpha lowTotalBase .any ∅ .inside { heap := saleHeap } saleSession.session ∧
    Runs lowTotalAlpha lowTotalBase .any ∅ (.mutation raisePrice) saleSession.session
      saleFinished ∧
    ¬ lowTotalAlpha.Exact lowTotalBase.runtime (fun _ ↦ none) saleFinished := by
  refine ⟨saleNode_adds saleEmpty rfl rfl rfl rfl, ?_, fun hexact ↦ ?_⟩
  · exact saleNode_modifies (by decide +kernel) rfl (by decide +kernel) rfl
  · have hheld : 1 ∈ (saleFinished.mem 1).passingFacts := by decide +kernel
    have hc : lowTotalAlpha.constraint 1 = some lowTotal := rfl
    obtain ⟨f, ⟨id, hf⟩, ⟨n, hn, hthrough⟩, hid⟩ := (hexact 1 lowTotal hc 1).mp hheld
    have hstore : saleFinished.workingMemory.facts = [(1, 2), (2, 1)] := by decide +kernel
    rw [hstore] at hf
    simp only [List.mem_cons, Prod.mk.injEq, List.not_mem_nil, or_false] at hf
    rcases hf with ⟨-, rfl⟩ | ⟨-, rfl⟩
    · -- The total does not satisfy the node.
      have hchildren : lowTotalAlpha.entryChildren none (saleFinished.heap 2).type = [1] := by
        decide +kernel
      rw [hchildren, List.mem_singleton] at hn
      subst hn
      have hcheck := hthrough.first hc
      exact absurd hcheck (by decide +kernel)
    · exact absurd hid (by decide +kernel)

/-! ### A covered modification -/

/-- A low `Number` at address `1`, and a high one elsewhere. -/
def numberHeap : Heap := fun f ↦
  { type := "Number", fields := [("result", .int64 (if f = 1 then 5 else 50))] }

/-- Two numbers have come in one batch, and the first is at the alpha node. -/
def numberSession : Session :=
  passBatch 1 [1] (batchEntered lowTotalBase [1, 2] { heap := numberHeap })

/-- A right-hand side sets the low number to `20` and says so. -/
def raiseNumber : Mutation :=
  .modify 1 [("result", .int64 20)] (some { fields := ["result"], overflow := false })

def numberModified : Session :=
  raiseNumber.finish (updatePassing 1 (fun _ ↦ []) (raiseNumber.start lowTotalBase numberSession))

/-- The guard for facts that all come through the default entry point. -/
abbrev lowTotalGuard : Guard := .covered lowTotalAlpha lowTotalBase fun _ ↦ none

theorem numberSession_facts {f : FactPtr} : f ∈ numberSession.facts ↔ f = 1 ∨ f = 2 := by
  have hstore : numberSession.workingMemory.facts = [(1, 1), (2, 2)] := by decide +kernel
  simp only [Session.facts, hstore, Set.mem_ofPred_eq, List.mem_cons, Prod.mk.injEq,
    List.not_mem_nil, or_false]
  constructor
  · rintro ⟨_, h⟩
    exact h.imp And.right And.right
  rintro (rfl | rfl)
  · exact ⟨1, .inl ⟨rfl, rfl⟩⟩
  · exact ⟨2, .inr ⟨rfl, rfl⟩⟩

theorem numbers_covered :
    AlphaNetwork.BatchCovered lowTotalAlpha lowTotalBase (fun _ ↦ none) ∅ [1, 2]
      { heap := numberHeap } := by
  have hfacts : ∀ f, f ∉ (∅ ∪ ({ heap := numberHeap } : Session).facts : Set FactPtr) := by
    rintro f (hf | ⟨_, hf⟩)
    · exact hf
    · exact absurd hf List.not_mem_nil
  exact
    { idle := fun f _ ↦ Set.notMem_empty f
      through := fun _ _ ↦ rfl
      counter := by decide
      others := ⟨fun f hf ↦ absurd hf (hfacts f), fun f hf ↦ absurd hf (hfacts f),
        fun _ f hf ↦ absurd hf (hfacts f)⟩
      distinct := fun f hf g hg heq ↦ by
        have hf := hf.resolve_left (hfacts f)
        simp only [Set.mem_ofPred_eq, List.mem_cons, List.not_mem_nil, or_false] at hf hg
        rcases hf with rfl | rfl <;> rcases hg with rfl | rfl
        · rfl
        · exact absurd heq (by decide +kernel)
        · exact absurd heq (by decide +kernel)
        · rfl
      spared := fun group hgroup ↦ by
        have hgroups : factsByType (batchEntered lowTotalBase [1, 2] { heap := numberHeap }).heap
            [1, 2] = [("Number", [1, 2])] := by decide +kernel
        rw [hgroups, List.mem_singleton] at hgroup
        subst hgroup
        -- The only node takes the high number out, and no node comes after it.
        exact ⟨_, .pass (c := lowTotal) rfl (by decide +kernel) .nil
          (fun _ _ _ m hm ↦ absurd hm List.not_mem_nil) .nil⟩ }

theorem raiseNumber_covered :
    AlphaNetwork.Covered lowTotalAlpha lowTotalBase (fun _ ↦ none) ∅ raiseNumber numberSession := by
  have hfacts : ∀ {f}, f ∈ (∅ ∪ numberSession.facts : Set FactPtr) → f = 1 ∨ f = 2 := by
    rintro f (hf | hf)
    · exact absurd hf (Set.notMem_empty f)
    · exact numberSession_facts.mp hf
  have hother : ∀ {f}, f ∈ ((∅ ∪ numberSession.facts) \ {raiseNumber.fact} : Set FactPtr) →
      f = 2 :=
    fun hf ↦ (hfacts hf.1).resolve_left hf.2
  exact
    { idle := Set.notMem_empty _
      through := rfl
      present := fun _ ↦ numberSession_facts.mpr (.inl rfl)
      others := ⟨fun f hf ↦ by rw [hother hf]; rfl, fun f hf ↦ by rw [hother hf]; rfl,
        fun hc f hf ↦ by
          rw [hother hf, (lowTotal_constraint hc).2]
          decide +kernel⟩
      own := fun _ ↦ ⟨by decide +kernel, by decide +kernel⟩
      distinct := fun f hf hid ↦ by
        rcases hfacts hf with rfl | rfl
        · rfl
        · exact absurd hid (by decide +kernel)
      hint := fun _ {n c} hc haffected ↦ by
        obtain ⟨-, rfl⟩ := lowTotal_constraint hc
        exact absurd haffected (by decide +kernel) }

theorem numberSession_run :
    Runs lowTotalAlpha lowTotalBase lowTotalGuard ∅ .inside { heap := numberHeap }
      numberSession := by
  have henabled : BatchEnabled lowTotalBase [1, 2] { heap := numberHeap } :=
    ⟨by decide, rfl, by decide +kernel⟩
  have hgroups : factsByType (batchEntered lowTotalBase [1, 2] { heap := numberHeap }).heap [1, 2] =
      [("Number", [1, 2])] := by decide +kernel
  have hpassing : [1, 2].filter (checkConstraint lowTotalBase.runtime
      (batchEntered lowTotalBase [1, 2] { heap := numberHeap }).heap lowTotal) = [1] := by
    decide +kernel
  have hnode : Runs lowTotalAlpha lowTotalBase lowTotalGuard (∅ ∪ {f | f ∈ [1, 2]})
      (.activateBatch 1 [1, 2] (if lowTotalAlpha.sole 1 then [1] else [1, 2]))
      (batchEntered lowTotalBase [1, 2] { heap := numberHeap }) numberSession := by
    have hrun := Runs.passBatch (c := lowTotal) (n := 1) (F := ∅ ∪ {f | f ∈ [1, 2]})
      (rfl : lowTotalAlpha.constraint 1 = _) (hpassing ▸ List.cons_ne_nil _ _)
      (.nilBatch (.done : Runs _ lowTotalBase lowTotalGuard _ _ _ _))
    rwa [hpassing] at hrun
  refine Runs.addFacts henabled numbers_covered ?_ .done
  rw [hgroups]
  exact .group (.consBatch .done hnode (.nilBatch .done)) (.noGroups .done)

theorem numberModified_run :
    Runs lowTotalAlpha lowTotalBase lowTotalGuard ∅ (.mutation raiseNumber) numberSession
      numberModified := by
  refine .mutation ⟨by decide, by decide +kernel⟩ raiseNumber_covered ?_ .done
  exact .cons .done (.pass rfl rfl (.nil .done)) (.nil .done)

/-- The alpha node follows a number of a batch that a right-hand side has raised. -/
theorem alphaNodes_exact_number :
    lowTotalAlpha.Exact lowTotalBase.runtime (fun _ ↦ none) numberModified :=
  alphaNodes_exact lowTotalAlpha lowTotalBase (fun _ ↦ none) numberSession_run numberModified_run

end RulesForge
