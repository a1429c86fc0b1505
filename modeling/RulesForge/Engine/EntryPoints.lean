import RulesForge.Engine.Modification

/-!
# Named entry points

A fact may be given to a session through a named entry point (`insert_into`,
`insert_event_into`). The patterns that read from it, and only these, ought to see the fact, and a
fact that leaves working memory ought to leave every memory.

Working memory does not record the entry point of a fact. `retract_from` is told it, while
`retract_fact`, `update_fact` and `propagate_modify` go to the default entry point of the fact's
type. Where these reach facts of the default entry point only, and `retract_from` names the entry
point of the fact, the memories are exact in every state of every run (`entryPoints_exact`);
`retractFact_leavesStream` is a fact of a named entry point that `retract_fact` takes out of
working memory and leaves in the memories.
-/

namespace RulesForge

open Forest

/-! ### The property -/

/-- A node gets facts from the entry point through which a fact has come. -/
def BelowEntry (kb : KnowledgeBase) (source : FactPtr → Option String) (s : Session)
    (f : FactPtr) (n : ℕ) : Prop :=
  ∃ e, kb.network.entry (source f) (s.heap f).type = some e ∧ Desc kb.network.RightEdge e n

/-- Every memory holds facts of working memory only, and on the right of a node those that have
come through its entry point; alpha nodes hold every fact that passes their tests, and terminal
nodes the tuples that the conditions of their groups let through. -/
structure ExactEntries (kb : KnowledgeBase) (source : FactPtr → Option String) (s : Session) :
    Prop where
  passing : ∀ {n id}, id ∈ (s.reading kb n).passing →
    ∃ f ∈ s.facts, id = (s.heap f).id ∧ BelowEntry kb source s f n
  right : ∀ {n f}, f ∈ (s.reading kb n).right → f ∈ s.facts ∧ BelowEntry kb source s f n
  left : ∀ {n t}, t ∈ (s.reading kb n).left → ∀ f ∈ t, f ∈ s.facts
  children : ∀ {n t}, t ∈ (s.reading kb n).children → ∀ f ∈ t, f ∈ s.facts
  matched : ∀ {n t ids}, (t, ids) ∈ (s.reading kb n).matched → (∀ f ∈ t, f ∈ s.facts) ∧
    ∀ id ∈ ids, ∃ f ∈ s.facts, id = (s.heap f).id ∧ BelowEntry kb source s f n
  passes : ∀ {n c f}, kb.network.kind n = .alpha c → f ∈ s.facts →
    Passes kb s.heap source f n → (s.heap f).id ∈ (s.reading kb n).passing
  terminal : ∀ {n rule bindings t}, kb.network.kind n = .terminal rule bindings →
    (t ∈ (s.reading kb n).left ↔ Delivered kb s source s.facts kb.roots n t)

/-! ### Runs -/

/-- A new fact outside of working memory. -/
def placeFact (p : FactPtr) (fact : Fact) (s : Session) : Session :=
  { s with heap := Function.update s.heap p fact }

/-- The sessions of a client that gives facts to entry points, with the entry point of each fact
and the facts that have been in working memory so far: as `Reachable`, and the operations on
named entry points. The operations that go to the default entry point reach facts of it only, and
`retract_from` names the entry point of the fact. `commit` is a retraction that has waited for the
end of a transaction. -/
inductive StreamReachable (kb : KnowledgeBase) (steps : ℕ) :
    (FactPtr → Option String) → Set FactPtr → Session → Prop
  | start (heap) : StreamReachable kb steps (fun _ ↦ none) ∅ (newSession kb steps heap)
  | add {source known s fact} : StreamReachable kb steps source known s → fact ∉ s.facts →
      (s.heap fact).id = 0 ∨ fact ∈ known → PlainReads kb.network s.heap fact →
      StreamReachable kb steps (Function.update source fact none)
        (known ∪ (addFact kb steps fact s).1.facts) (addFact kb steps fact s).1
  | addFacts {source known s facts} : StreamReachable kb steps source known s →
      BatchEnters kb known (facts.filter (· ≠ 0)) s →
      StreamReachable kb steps (fun f ↦ if f ∈ facts then none else source f)
        (known ∪ (addFacts kb steps facts s).1.facts) (addFacts kb steps facts s).1
  | insertInto {source known s fact} (stream : String) : StreamReachable kb steps source known s →
      fact ∉ s.facts → (s.heap fact).id = 0 ∨ fact ∈ known → PlainReads kb.network s.heap fact →
      StreamReachable kb steps (Function.update source fact (some stream))
        (known ∪ (insertInto kb steps stream fact s).1.facts) (insertInto kb steps stream fact s).1
  | insertEventInto {source known s fact} (stream : String) :
      StreamReachable kb steps source known s → fact ∉ s.facts →
      (s.heap fact).id = 0 ∨ fact ∈ known → PlainReads kb.network s.heap fact →
      StreamReachable kb steps (Function.update source fact (some stream))
        (known ∪ (insertEventInto kb steps stream fact s).1.facts)
        (insertEventInto kb steps stream fact s).1
  | retract {source known s} (fact : FactPtr) : StreamReachable kb steps source known s →
      (∀ p, s.workingMemory.get (s.heap fact).id = some p → source p = none) →
      StreamReachable kb steps source known (retractFact kb (logicalRetract kb steps) fact s).1
  | commit {source known s p} : StreamReachable kb steps source known s → p ∈ s.facts →
      source p = none →
      StreamReachable kb steps source known (removeFact kb (logicalRetract kb steps) p s)
  | retractFrom {source known s} (stream : String) (fact : FactPtr) :
      StreamReachable kb steps source known s →
      (∀ p, s.workingMemory.get (s.heap fact).id = some p → source p = some stream) →
      StreamReachable kb steps source known (retractFrom kb steps stream fact s).1
  | update {source known s p fields} : StreamReachable kb steps source known s → p ∈ s.facts →
      source p = none → FieldsChange kb s p fields →
      StreamReachable kb steps source known (updateFact kb steps p fields s).1
  | modify {source known s p fields hint} : StreamReachable kb steps source known s →
      p ∈ s.facts → source p = none → FieldsChange kb s p fields →
      HintCovers hint s.heap (writeFields p fields s).heap p →
      StreamReachable kb steps source known
        (propagateModify kb steps p hint (writeFields p fields s))
  | write {source known s fact fields} : StreamReachable kb steps source known s →
      fact ∉ s.facts → (∀ f ∈ s.facts, SameReads s.heap (writeFields fact fields s).heap f) →
      StreamReachable kb steps source known (writeFields fact fields s)
  | create {source known s p} (fact : Fact) : StreamReachable kb steps source known s → p ∉ known →
      (∀ f ∈ s.facts, SameReads s.heap (placeFact p fact s).heap f) →
      StreamReachable kb steps source known (placeFact p fact s)
  | other {source known s s'} : StreamReachable kb steps source known s → s'.heap = s.heap →
      s'.mem = s.mem → s'.workingMemory = s.workingMemory → s'.tms = s.tms →
      s'.currentModifiedFields = none → StreamReachable kb steps source known s'

variable {kb : KnowledgeBase} {steps : ℕ} {source : FactPtr → Option String}
  {known : Set FactPtr} {s : Session}

/-! ### Readings of exact memories -/

section Readings

variable {base : Session} {facts R : Set FactPtr} {n : ℕ} {D : Set TokenWME} {mem : NodeMemory}
  (h : NodeFits kb base facts R (fun _ ↦ False) (fun _ ↦ False) n D mem)
include h

theorem NodeFits.reading_right {f : FactPtr} (hf : f ∈ (nodeReading kb.network n mem).right) :
    f ∈ R := by
  have hnode := h.2
  unfold nodeReading at hf
  cases hkind : kb.network.kind n with
  | crossProductJoin c =>
    simp only [hkind] at hf hnode
    obtain ⟨id, hid⟩ := hf
    exact ((hnode.mem_right id f).mp hid).1
  | hashedJoin c l r =>
    simp only [hkind] at hf hnode
    obtain ⟨k, hk⟩ := hf
    exact (hnode.right_key hk).1
  | condition kind c =>
    simp only [hkind] at hf hnode
    obtain ⟨id, hid⟩ := hf
    exact ((hnode.mem_right id f).mp hid).1
  | tokenNode node => cases node <;> simp [hkind] at hf
  | _ => simp [hkind] at hf

theorem NodeFits.reading_left (hnet : kb.network.WellFormed) {t : List FactPtr}
    (ht : t ∈ (nodeReading kb.network n mem).left) :
    ∃ w ∈ D, w.facts = t := by
  have hnode := h.2
  unfold nodeReading at ht
  cases hkind : kb.network.kind n with
  | crossProductJoin c =>
    simp only [hkind] at ht hnode
    obtain ⟨w, hw, rfl⟩ := ht
    exact ⟨w, (hnode.mem_left w).mp hw, rfl⟩
  | hashedJoin c l r =>
    simp only [hkind] at ht hnode
    obtain ⟨w, ⟨k, hk⟩, rfl⟩ := ht
    exact ⟨w, (hnode.left_key hk).1, rfl⟩
  | terminal rule bindings =>
    simp only [hkind] at ht hnode
    obtain ⟨w, hw, rfl⟩ := ht
    exact ⟨w, (hnode.mem_terminal w).mp hw, rfl⟩
  | tokenNode node => exact absurd hkind (hnet.noTokenNode n node)
  | _ => simp [hkind] at ht

theorem NodeFits.reading_children {t : List FactPtr}
    (ht : t ∈ (nodeReading kb.network n mem).children) :
    ∃ w ∈ D, ∃ f ∈ R, t = w.facts ++ [f] := by
  have hout : (kb.network.kind n).isJoin = true ∧
      ∃ w ∈ outSet kb.network n mem, w.facts = t := by
    unfold nodeReading at ht
    cases hkind : kb.network.kind n with
    | crossProductJoin c =>
      simp only [hkind] at ht
      simp only [outSet, hkind, NodeKind.isJoin, true_and]
      exact ht
    | hashedJoin c l r =>
      simp only [hkind] at ht
      simp only [outSet, hkind, NodeKind.isJoin, true_and]
      exact ht
    | tokenNode node => cases node <;> simp [hkind] at ht
    | _ => simp [hkind] at ht
  obtain ⟨hjoin, w, hw, rfl⟩ := hout
  obtain ⟨a, v, f, rfl, hv, hf⟩ := h.outSet_join hjoin hw
  exact ⟨v, hv, f, hf, rfl⟩

theorem NodeFits.reading_matched {t : List FactPtr} {ids : Set ℤ}
    (ht : (t, ids) ∈ (nodeReading kb.network n mem).matched) :
    (∃ w ∈ D, w.facts = t) ∧ ∀ id ∈ ids, ∃ f ∈ R, id = (base.heap f).id := by
  have hnode := h.2
  unfold nodeReading at ht
  cases hkind : kb.network.kind n with
  | condition kind c =>
    simp only [hkind] at ht hnode
    obtain ⟨w, list, hmem, hfacts, hids⟩ := ht
    refine ⟨⟨w, (hnode.mem_left w).mp ⟨list, hmem⟩, hfacts⟩, fun id hid ↦ ?_⟩
    rw [← show {i | i ∈ list} = ids from hids] at hid
    exact hnode.ids_mem hmem hid
  | tokenNode node => cases node <;> simp [hkind] at ht
  | _ => simp [hkind] at ht

end Readings

/-- **Settled memories are exact.** -/
theorem SessionInv.exactEntries (hkb : kb.Sound) (h : SessionInv kb source known s) :
    ExactEntries kb source s := by
  have hsettled := h.settled
  have hbelow : ∀ {n f}, f ∈ rightFacts kb s.heap source s.facts n →
      f ∈ s.facts ∧ BelowEntry kb source s f n := fun hf ↦ ⟨hf.1, hf.2.exists_entry⟩
  have hid : ∀ {n id}, (∃ f ∈ rightFacts kb s.heap source s.facts n, id = (s.heap f).id) →
      ∃ f ∈ s.facts, id = (s.heap f).id ∧ BelowEntry kb source s f n := by
    rintro n id ⟨f, hf, rfl⟩
    exact ⟨f, hf.1, rfl, (hbelow hf).2⟩
  refine ⟨fun {n id} hn ↦ ?_, fun {n f} hn ↦ ?_, fun {n t} ht ↦ ?_, fun {n t} ht ↦ ?_,
    fun {n t ids} ht ↦ ?_, fun {n c f} hkind hf hpasses ↦ ?_, fun {n rule bindings t} hkind ↦ ?_⟩
  · cases hkind : kb.network.kind n with
    | alpha c =>
      simp only [Session.reading, nodeReading, hkind] at hn
      exact hid ((hsettled.alpha hkind id).mp hn)
    | tokenNode node => cases node <;> simp [Session.reading, nodeReading, hkind] at hn
    | _ => simp [Session.reading, nodeReading, hkind] at hn
  · exact hbelow ((hsettled.node n).reading_right hn)
  · obtain ⟨w, hw, rfl⟩ := (hsettled.node n).reading_left hkb.wellFormed ht
    exact (hsettled.node n).1 w hw
  · obtain ⟨w, hw, f, hf, rfl⟩ := (hsettled.node n).reading_children ht
    intro g hg
    rcases List.mem_append.mp hg with hg | hg
    · exact (hsettled.node n).1 w hw g hg
    · rw [List.mem_singleton.mp hg]
      exact hf.1
  · obtain ⟨⟨w, hw, rfl⟩, hids⟩ := (hsettled.node n).reading_matched ht
    exact ⟨(hsettled.node n).1 w hw, fun id hmem ↦ hid (hids id hmem)⟩
  · simp only [Session.reading, nodeReading, hkind]
    exact (hsettled.alpha hkind _).mpr ⟨f, ⟨hf, hpasses⟩, rfl⟩
  · have hnode := (hsettled.node n).2
    simp only [hkind] at hnode
    rw [← hsettled.exists_token_iff hkb.wellFormed hkb.localExpressions h.plain]
    simp only [Session.reading, nodeReading, hkind, tuples]
    exact exists_congr fun w ↦ and_congr_left fun _ ↦ hnode.mem_terminal w

/-! ### Operations -/

/-- What `insertThrough` can do. -/
theorem insertThrough_cases (kb : KnowledgeBase) {enter : FactPtr → Session → Session}
    (henter : ∀ fact s, ∃ t, enter fact s = { insertWorkingMemory fact s with transaction := t })
    (steps : ℕ) (stream : String) (fact : FactPtr) (s : Session) :
    let r := insertThrough kb enter steps stream fact s
    r.1 = s ∧ (fact = 0 ∨ r.2 ≠ none) ∨
      ∃ name, kb.canonicalizeTypeName (s.heap fact).type = some name ∧ fact ≠ 0 ∧
        (r.1 = writeType fact name s ∧ r.2 ≠ none ∨ ∃ entry t,
          kb.network.entry (some stream) name = some entry ∧
          r.1 = rightActivate kb (logicalRetract kb steps) (kb.network.nodes.length + 1) entry fact
            .assert { enterFact kb fact name s with transaction := t }) := by
  unfold insertThrough
  split
  · next hzero => exact .inl ⟨rfl, .inl hzero⟩
  · next hzero =>
    split
    · exact .inl ⟨rfl, .inr (Option.some_ne_none _)⟩
    · cases hname : kb.canonicalizeTypeName (s.heap fact).type with
      | none => exact .inl ⟨rfl, .inr (Option.some_ne_none _)⟩
      | some name =>
        refine .inr ⟨name, rfl, hzero, ?_⟩
        dsimp only
        split
        · exact .inl ⟨rfl, Option.some_ne_none _⟩
        · cases hroute : requireEntryPointRoute kb stream name with
          | error e => exact .inl ⟨rfl, Option.some_ne_none _⟩
          | ok entry =>
            obtain ⟨t, ht⟩ := henter fact (assignIds kb fact (writeType fact name s))
            refine .inr ⟨entry, t, requireEntryPointRoute_ok_iff.mp hroute, ?_⟩
            dsimp only
            rw [ht]
            rfl

variable (steps) in
/-- A fact that is given to a named entry point. -/
theorem SessionInv.insertThrough (hkb : kb.Sound) (h : SessionInv kb source known s)
    {enter : FactPtr → Session → Session}
    (henter : ∀ fact s, ∃ t, enter fact s = { insertWorkingMemory fact s with transaction := t })
    {stream : String} {source' : FactPtr → Option String}
    (hsource : ∀ f ∈ s.facts, source' f = source f) {fact : FactPtr}
    (hstream : source' fact = some stream) (hnew : fact ∉ s.facts)
    (hid : (s.heap fact).id = 0 ∨ fact ∈ known) (hplain : PlainReads kb.network s.heap fact) :
    let r := insertThrough kb enter steps stream fact s
    SessionInv kb source' (known ∪ r.1.facts) r.1 ∧ r.1.facts ⊆ insert fact s.facts ∧
      (fact ≠ 0 → r.2 = none → fact ∈ r.1.facts) := by
  intro r
  set s' := r.1
  have h' := h.of_source hsource
  have hsame : known ∪ s.facts = known := Set.union_eq_self_of_subset_right h.known_facts
  rcases insertThrough_cases kb henter steps stream fact s with
    ⟨hs', herror⟩ | ⟨name, hname, hzero, ⟨hs', herror⟩ | ⟨entry, t, hentry, hs'⟩⟩
  · rw [show s' = s from hs', hsame]
    exact ⟨h', Set.subset_insert _ _, fun hne hnone ↦ absurd hnone (herror.resolve_left hne)⟩
  · -- The schema or the route was refused: only the type of the fact has changed.
    rw [show s' = writeType fact name s from hs', show (writeType fact name s).facts = s.facts from
      rfl, hsame]
    exact ⟨h'.retyped hkb hnew name, Set.subset_insert _ _, fun _ hnone ↦ absurd hnone herror⟩
  · have hentered : Entered known fact name s (enterFact kb fact name s) := h.entered hnew hid
    obtain ⟨hinv, hbase⟩ := h.addEntered steps hkb hsource hzero hnew hid hname hplain t
    have hactivated : activateEntry kb (logicalRetract kb steps) (source' fact) fact .assert
        { enterFact kb fact name s with transaction := t } = s' := by
      have htype : ((enterFact kb fact name s).heap fact).type = name := hentered.name
      simp only [activateEntry, hstream, htype, hentry, Option.elim_some]
      exact hs'.symm
    rw [hactivated] at hinv hbase
    have hfacts : s'.facts = insert fact s.facts := (facts_of_base hbase).trans hentered.facts
    rw [hfacts, Set.union_insert, hsame]
    exact ⟨hinv, subset_rfl, fun _ _ ↦ Set.mem_insert _ _⟩

variable (steps) in
/-- A fact that is retracted from the entry point it has come through. -/
theorem SessionInv.retractFrom (hkb : kb.Sound) (h : SessionInv kb source known s)
    (stream : String) (fact : FactPtr)
    (hstream : ∀ p, s.workingMemory.get (s.heap fact).id = some p → source p = some stream) :
    let r := retractFrom kb steps stream fact s
    SessionInv kb source known r.1 ∧ r.1.facts ⊆ s.facts ∧
      (fact ∈ known → r.2 = none → fact ∉ r.1.facts) := by
  unfold RulesForge.retractFrom
  split
  · next hzero => exact ⟨h, subset_rfl, fun hf ↦ absurd hzero (h.known_id fact hf).1⟩
  · split
    · exact ⟨h, subset_rfl, fun _ hnone ↦ absurd hnone (Option.some_ne_none _)⟩
    · cases hget : s.workingMemory.get (s.heap fact).id with
      | none =>
        refine ⟨h, subset_rfl, fun _ _ ⟨id, hid⟩ ↦ ?_⟩
        have hsome := h.get_eq_some_iff.mpr hid
        rw [← h.id_eq hid, hget] at hsome
        cases hsome
      | some p =>
        have hp := h.get_eq_some_iff.mp hget
        dsimp only
        cases hroute : requireEntryPointRoute kb stream (s.heap p).type with
        | error e =>
          exact ⟨h, subset_rfl, fun _ hnone ↦ absurd hnone (Option.some_ne_none _)⟩
        | ok entry =>
          obtain ⟨hinv, hfacts, -⟩ := h.leaveFact steps hkb ⟨_, hp⟩
          have htype : ((RulesForge.leaveFact p s).heap p).type = (s.heap p).type := rfl
          simp only [activateEntry, hstream p hget, htype,
            requireEntryPointRoute_ok_iff.mp hroute, Option.elim_some] at hinv hfacts
          refine ⟨hinv, hfacts.trans_subset Set.sdiff_subset, fun hf _ ↦ ?_⟩
          have heq : p = fact := h.id_injOn (h.known_facts ⟨_, hp⟩) hf (h.id_eq hp)
          exact fun hmem ↦ (hfacts.subset hmem).2 heq.symm

/-! ### The invariant -/

/-- Giving a source to a fact outside of working memory. -/
theorem update_source {fact : FactPtr} (hnew : fact ∉ s.facts) (stream : Option String) :
    ∀ f ∈ s.facts, Function.update source fact stream f = source f :=
  fun _ hf ↦ Function.update_of_ne (ne_of_mem_of_not_mem hf hnew) _ _

/-- **Every state of a run satisfies the invariant.** -/
theorem StreamReachable.inv (hkb : kb.Sound) (h : StreamReachable kb steps source known s) :
    SessionInv kb source known s := by
  induction h with
  | start heap => exact newSession_inv hkb heap
  | add _ hnew hid hplain ih =>
    exact ih.addFact hkb (update_source hnew _) (Function.update_self _ _ _) hnew hid hplain
  | @addFacts _ _ s facts _ hbatch ih =>
    refine (ih.addFacts hkb (fun f hf ↦ if_neg fun hmem ↦ ?_) (fun f hf ↦ if_pos hf) hbatch).1
    have hzero : f ≠ 0 := (ih.known_id f (ih.known_facts hf)).1
    exact hbatch.new f (List.mem_filter.mpr ⟨hmem, decide_eq_true hzero⟩) hf
  | insertInto stream _ hnew hid hplain ih =>
    exact (ih.insertThrough steps hkb (fun _ _ ↦ ⟨_, rfl⟩) (update_source hnew _)
      (Function.update_self _ _ _) hnew hid hplain).1
  | insertEventInto stream _ hnew hid hplain ih =>
    exact (ih.insertThrough steps hkb (fun _ _ ↦ ⟨_, rfl⟩) (update_source hnew _)
      (Function.update_self _ _ _) hnew hid hplain).1
  | retract fact _ hdefault ih => exact ih.retractFact hkb fact hdefault
  | commit _ hp hdefault ih => exact (ih.removeFact steps hkb hdefault hp).1
  | retractFrom stream fact _ hstream ih => exact (ih.retractFrom steps hkb stream fact hstream).1
  | @update _ _ s _ _ _ hp hdefault hchange ih =>
    cases hconsistent : s.isConsistent with
    | true => exact (ih.updateFact steps hkb hdefault hp hchange hconsistent).1
    | false =>
      unfold RulesForge.updateFact
      split <;> simpa [hconsistent] using ih
  | modify _ hp hdefault hchange hcovers ih =>
    exact (ih.propagateModify steps hkb hdefault hp hchange hcovers).1
  | @write _ _ s fact fields _ hnew hreads ih =>
    have hheap := fun f ↦ writeFields_heap fact f fields s
    exact ih.of_reads hkb hnew rfl rfl rfl ih.hint (fun f _ ↦ (hheap f).1)
      (fun f _ ↦ (hheap f).2) hreads
  | @create _ known s p fact _ hnew hreads ih =>
    have hheap : ∀ f ∈ known, (placeFact p fact s).heap f = s.heap f :=
      fun f hf ↦ Function.update_of_ne (ne_of_mem_of_not_mem hf hnew) _ _
    have hfact : p ∉ s.facts := fun hp ↦ hnew (ih.known_facts hp)
    exact ih.of_reads hkb hfact rfl rfl rfl ih.hint (fun f hf ↦ by rw [hheap f hf])
      (fun f hf ↦ by rw [hheap f (ih.known_facts hf)]) hreads
  | other _ hheap hmem hstore htms hhint ih => exact ih.congr hheap hmem hstore htms hhint

/-- **Entry points are isolated** in every state of every run in which each operation goes to the
entry point of its fact: every memory is exact for the facts of working memory, each having come
through its own entry point. -/
theorem entryPoints_exact (kb : KnowledgeBase) (steps : ℕ)
    (hcompile : compileNetwork kb.rules = .ok kb.network) (hlocal : LocalExpressions kb)
    {source : FactPtr → Option String} {known : Set FactPtr} {s : Session}
    (hreach : StreamReachable kb steps source known s) : ExactEntries kb source s := by
  have hshape := compileNetwork_shape hcompile
  have hkb : kb.Sound := ⟨hshape.wellFormed, hshape.keysFromJoins, hlocal⟩
  exact (hreach.inv hkb).exactEntries hkb

/-! ### Facts that have left -/

/-- A fact is neither in working memory nor in any memory. -/
structure Absent (kb : KnowledgeBase) (s : Session) (f : FactPtr) : Prop where
  facts : f ∉ s.facts
  passing : ∀ n, (s.heap f).id ∉ (s.reading kb n).passing
  right : ∀ n, f ∉ (s.reading kb n).right
  left : ∀ {n t}, t ∈ (s.reading kb n).left → f ∉ t
  children : ∀ {n t}, t ∈ (s.reading kb n).children → f ∉ t
  matched : ∀ {n t ids}, (t, ids) ∈ (s.reading kb n).matched → f ∉ t ∧ (s.heap f).id ∉ ids

/-- A known fact outside of working memory is in no memory. -/
theorem SessionInv.absent (hkb : kb.Sound) (h : SessionInv kb source known s) {f : FactPtr}
    (hf : f ∈ known) (hleft : f ∉ s.facts) : Absent kb s f := by
  have hexact := h.exactEntries hkb
  have hid : ¬ ∃ g ∈ s.facts, (s.heap f).id = (s.heap g).id := by
    rintro ⟨g, hg, heq⟩
    exact hleft (h.id_injOn hf (h.known_facts hg) heq ▸ hg)
  refine ⟨hleft, fun n hmem ↦ ?_, fun n hmem ↦ hleft (hexact.right hmem).1,
    fun ht hmem ↦ hleft (hexact.left ht f hmem), fun ht hmem ↦ hleft (hexact.children ht f hmem),
    fun ht ↦ ⟨fun hmem ↦ hleft ((hexact.matched ht).1 f hmem), fun hmem ↦ ?_⟩⟩
  · obtain ⟨g, hg, heq, -⟩ := hexact.passing hmem
    exact hid ⟨g, hg, heq⟩
  · obtain ⟨g, hg, heq, -⟩ := (hexact.matched ht).2 _ hmem
    exact hid ⟨g, hg, heq⟩

/-! ### One stream -/

/-- `A() from entry-point "S"`. -/
def streamRule : ParsedRule :=
  { name := "stream", conditionGroups := [[{ factType := "A", entryPoint := some "S" }]] }

def streamNetwork : CompiledNetwork := (compileNetwork [streamRule]).toOption.getD {}

/-- The rule alone, without schema and without expressions. -/
def streamBase : KnowledgeBase :=
  { sameXBase with rules := [streamRule], network := streamNetwork }

/-- The session in which an `A` has come through the entry point. -/
def streamSession : Session :=
  (insertInto streamBase 1 "S" 1 (newSession streamBase 1 sameXHeap)).1

theorem streamNetwork_kind (n : ℕ) :
    streamNetwork.kind n = .entryPoint ∨
      streamNetwork.kind n = .crossProductJoin ⟨[], [], []⟩ ∨
      streamNetwork.kind n = .terminal 0 [] := by
  match n with
  | 0 => exact .inl rfl
  | 1 => exact .inr (.inl rfl)
  | 2 => exact .inr (.inr rfl)
  | n + 3 => exact .inl rfl

/-- Nothing is tested, so every fact can be read. -/
theorem streamBase_plainReads (heap : Heap) (f : FactPtr) :
    PlainReads streamBase.network heap f := by
  have htests : ∀ {c}, ¬ streamNetwork.Tests c := by
    intro c hc
    cases hc with
    | @alpha n c hkind =>
      rcases streamNetwork_kind n with h | h | h <;> rw [h] at hkind <;> cases hkind
    | @join n condition c hkind hc =>
      rcases streamNetwork_kind n with h | h | h <;> rw [h] at hkind <;> cases hkind
      exact absurd hc List.not_mem_nil
  intro field hfield
  cases hfield with
  | left hc => exact absurd hc htests
  | right hc hright => exact absurd hc htests

theorem newSession_streamBase_facts {f : FactPtr} :
    f ∉ (newSession streamBase 1 sameXHeap).facts := by
  rintro ⟨id, hid⟩
  have hstore : (newSession streamBase 1 sameXHeap).workingMemory.facts = [] := rfl
  rw [hstore] at hid
  exact absurd hid List.not_mem_nil

/-- The fact comes through the entry point, and leaves through it. -/
theorem streamSession_reachable :
    StreamReachable streamBase 1 (Function.update (fun _ ↦ none) 1 (some "S"))
      (∅ ∪ streamSession.facts) (retractFrom streamBase 1 "S" 1 streamSession).1 := by
  refine .retractFrom "S" 1 (.insertInto "S" (.start sameXHeap) newSession_streamBase_facts
    (.inl rfl) (streamBase_plainReads _ _)) ?_
  intro p hp
  have hget : streamSession.workingMemory.get (streamSession.heap 1).id = some 1 := rfl
  cases hget.symm.trans hp
  rfl

/-- After `retract_from` the memories are exact: the terminal node holds nothing. -/
theorem retractFrom_exactEntries :
    ExactEntries streamBase (Function.update (fun _ ↦ none) 1 (some "S"))
      (retractFrom streamBase 1 "S" 1 streamSession).1 :=
  entryPoints_exact streamBase 1 rfl (fun _ _ _ _ ↦ ⟨fun _ ↦ rfl, fun _ _ _ _ _ ↦ rfl⟩)
    streamSession_reachable

/-- **A fact left in a stream**: after `retract_fact` the fact is not in working memory, and the
terminal node below the named entry point still holds it. -/
theorem retractFact_leavesStream :
    let s := (retractFact streamBase (logicalRetract streamBase 1) 1 streamSession).1
    1 ∉ s.facts ∧ [1] ∈ (s.reading streamBase 2).left := by
  constructor
  · rintro ⟨id, hid⟩
    have hstore : (retractFact streamBase (logicalRetract streamBase 1) 1
        streamSession).1.workingMemory.facts = [] := rfl
    rw [hstore] at hid
    exact absurd hid List.not_mem_nil
  · exact ⟨.mk 1 .root 1, by decide +kernel, rfl⟩

end RulesForge
