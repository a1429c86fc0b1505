import RulesForge.Engine.RhsTransactions

/-!
# The end of a transaction

A commit carries out the retractions that have waited; a roll-back restores the snapshots, the
latest first, and withdraws what was inserted. Both leave exact memories, and a roll-back leaves
those of the session in which the transaction began, unless an updated fact fails its schema: then
the session is given up.
-/

namespace RulesForge

variable {kb : KnowledgeBase} {steps : ℕ} {known : Set FactPtr} {s start : Session} {p : FactPtr}
  {t : RhsTransaction}

/-! ### Restoring snapshots -/

/-- One snapshot is restored. -/
def restoreSnapshot (kb : KnowledgeBase) (steps : ℕ) (t : RhsTransaction) (r : Session × Bool)
    (id : ℤ) : Session × Bool :=
  match t.updatedFactSnapshots.lookup id, r.1.workingMemory.get id with
  | some fields, some fact =>
    if kb.validate (r.1.heap fact) then
      (propagateModify kb steps fact none (writeFields fact fields r.1), r.2)
    else (r.1, false)
  | _, _ => r

theorem restoreSnapshots_eq (t : RhsTransaction) (s : Session) :
    restoreSnapshots kb steps t s =
      t.updatedFactOrder.reverse.foldl (restoreSnapshot kb steps t) (s, true) :=
  rfl

/-- The snapshot of an id in a session, with what it takes to restore it. -/
structure Snapshot (kb : KnowledgeBase) (t : RhsTransaction) (s : Session) (id : ℤ)
    (f : FactPtr) : Prop where
  mem : f ∈ s.facts
  id_eq : (s.heap f).id = id
  lookup : t.updatedFactSnapshots.lookup id = some (t.originalFields (s.heap f))
  flat : FlatFields (t.originalFields (s.heap f))
  index : SameIndex kb f (s.heap f) { s.heap f with fields := t.originalFields (s.heap f) }

variable (steps) in
/-- The outcome of the schema check on a fact, and what is restored then. -/
theorem restoreSnapshot_spec (hkb : kb.Sound) (h : ExactSession kb known s) {id : ℤ}
    (hsnapshot : Snapshot kb t s id p) (ok : Bool) :
    let r := restoreSnapshot kb steps t (s, ok) id
    KeepsExact kb known s r.1 ∧ r.2 = (kb.validate (s.heap p) && ok) ∧
      r.1.heap = if kb.validate (s.heap p) then
        (writeFields p (t.originalFields (s.heap p)) s).heap else s.heap := by
  intro r
  have hget : s.workingMemory.get id = some p := by
    rw [h.get_eq_some_iff]
    obtain ⟨i, hi⟩ := hsnapshot.mem
    rwa [← hsnapshot.id_eq, h.id_eq hi]
  have hr : r = if kb.validate (s.heap p) then
      (propagateModify kb steps p none (writeFields p (t.originalFields (s.heap p)) s), ok)
      else (s, false) := by
    show restoreSnapshot kb steps t (s, ok) id = _
    unfold restoreSnapshot
    simp only [hsnapshot.lookup, hget]
  obtain ⟨hkeeps, hheap⟩ := h.propagateModify steps hkb hsnapshot.mem hsnapshot.flat
    hsnapshot.index (.none _ _ _)
  cases hvalid : kb.validate (s.heap p) with
  | true =>
    rw [hvalid, if_pos rfl] at hr
    rw [hr, if_pos rfl]
    exact ⟨hkeeps, rfl, hheap⟩
  | false =>
    rw [hvalid, if_neg Bool.false_ne_true] at hr
    rw [hr, if_neg Bool.false_ne_true]
    exact ⟨⟨h, rfl, rfl, rfl⟩, rfl, rfl⟩

/-- Nothing makes good for a failure. -/
theorem restore_false (t : RhsTransaction) (l : List ℤ) (s : Session) :
    (l.foldl (restoreSnapshot kb steps t) (s, false)).2 = false := by
  induction l generalizing s with
  | nil => rfl
  | cons id l ih =>
    have hstep : (restoreSnapshot kb steps t (s, false) id).2 = false := by
      unfold restoreSnapshot
      split
      · split <;> rfl
      · rfl
    rw [List.foldl_cons, ← Prod.mk.eta (p := restoreSnapshot kb steps t (s, false) id), hstep]
    exact ih _

/-- A fact with its old fields, if its id is among those that are restored. -/
def restoredFact (t : RhsTransaction) (ids : List ℤ) (fact : Fact) : Fact :=
  if fact.id ∈ ids then { fact with fields := t.originalFields fact } else fact

variable (steps) in
/-- **Restoring snapshots** of distinct ids succeeds if and only if all their facts pass the schema
check. -/
theorem restore_spec (hkb : kb.Sound) {l : List ℤ} (hl : l.Nodup) {ok : Bool} {s : Session}
    (h : ExactSession kb known s) (hsnapshots : ∀ id ∈ l, ∃ f, Snapshot kb t s id f) :
    let r := l.foldl (restoreSnapshot kb steps t) (s, ok)
    KeepsExact kb known s r.1 ∧
      (r.2 = true ↔ ok = true ∧
        ∀ f ∈ s.facts, (s.heap f).id ∈ l → kb.validate (s.heap f) = true) ∧
      (r.2 = true → ∀ f ∈ s.facts, r.1.heap f = restoredFact t l (s.heap f)) := by
  induction l generalizing s ok with
  | nil =>
    refine ⟨⟨h, rfl, rfl, rfl⟩, ?_, fun _ f _ ↦ ?_⟩
    · exact ⟨fun hok ↦ ⟨hok, fun f _ hid ↦ absurd hid List.not_mem_nil⟩, And.left⟩
    · exact (if_neg List.not_mem_nil).symm
  | cons id l ih =>
    intro r
    obtain ⟨hid, hl⟩ := List.nodup_cons.mp hl
    obtain ⟨p, hp⟩ := hsnapshots id List.mem_cons_self
    obtain ⟨hkeeps, hok, hheap⟩ := restoreSnapshot_spec steps hkb h hp ok
    set r₁ := restoreSnapshot kb steps t (s, ok) id with hr₁
    have hothers : ∀ f ≠ p, r₁.1.heap f = s.heap f := by
      intro f hf
      rw [hheap]
      split
      · exact writeFields_of_ne hf _ s
      · rfl
    have hids : ∀ f, (r₁.1.heap f).id = (s.heap f).id := by
      intro f
      rw [hheap]
      split
      · exact (writeFields_heap p f _ s).1
      · rfl
    have hne : ∀ f ∈ s.facts, (s.heap f).id ∈ l → f ≠ p := by
      rintro f - hmem rfl
      exact hid (hp.id_eq ▸ hmem)
    have hself : ∀ f ∈ s.facts, (s.heap f).id = id → f = p := fun f hf heq ↦
      h.id_injOn (h.known_facts hf) (h.known_facts hp.mem) (heq.trans hp.id_eq.symm)
    have hsnapshots₁ : ∀ id' ∈ l, ∃ f, Snapshot kb t r₁.1 id' f := by
      intro id' hid'
      obtain ⟨f, hf⟩ := hsnapshots id' (List.mem_cons_of_mem id hid')
      have hsame := hothers f (hne f hf.mem (hf.id_eq.symm ▸ hid'))
      refine ⟨f, hkeeps.facts.symm ▸ hf.mem, ?_, ?_, ?_, ?_⟩ <;> rw [hsame]
      · exact hf.id_eq
      · exact hf.lookup
      · exact hf.flat
      · exact hf.index
    obtain ⟨hrest, hvalid, hrestored⟩ := @ih hl r₁.2 _ hkeeps.toExactSession hsnapshots₁
    have hr : r = l.foldl (restoreSnapshot kb steps t) (r₁.1, r₁.2) := rfl
    rw [hr]
    refine ⟨⟨hrest.toExactSession, hrest.facts.trans hkeeps.facts,
      hrest.isConsistent.trans hkeeps.isConsistent,
      hrest.transaction.trans hkeeps.transaction⟩, ?_, fun hdone f hf ↦ ?_⟩
    · rw [hvalid, hok, Bool.and_eq_true, hkeeps.facts]
      constructor
      · rintro ⟨⟨hp', hok'⟩, hall⟩
        refine ⟨hok', fun f hf hmem ↦ ?_⟩
        rcases List.mem_cons.mp hmem with heq | hmem
        · exact hself f hf heq ▸ hp'
        · have hchecked := hall f hf ((hids f).symm ▸ hmem)
          rwa [hothers f (hne f hf hmem)] at hchecked
      · rintro ⟨hok', hall⟩
        refine ⟨⟨hall p hp.mem (hp.id_eq.symm ▸ List.mem_cons_self), hok'⟩, fun f hf hmem ↦ ?_⟩
        rw [hids f] at hmem
        rw [hothers f (hne f hf hmem)]
        exact hall f hf (List.mem_cons_of_mem id hmem)
    · have hpassed : kb.validate (s.heap p) = true := by
        have hboth := (hvalid.mp hdone).1
        rw [hok, Bool.and_eq_true] at hboth
        exact hboth.1
      rw [hpassed, if_pos rfl] at hheap
      rw [hrestored hdone f (hkeeps.facts.symm ▸ hf)]
      by_cases hfp : f = p
      · rw [hfp, hheap, writeFields_self, restoredFact, if_neg (hp.id_eq.symm ▸ hid),
          restoredFact, if_pos (hp.id_eq.symm ▸ List.mem_cons_self)]
      · have hfid : (s.heap f).id ≠ id := fun heq ↦ hfp (hself f hf heq)
        simp only [hothers f hfp, restoredFact, List.mem_cons, hfid, false_or]

/-- The snapshots of a transaction, in a session without it. -/
theorem InTransaction.snapshot (h : InTransaction kb start t known s) {id : ℤ}
    (hid : id ∈ t.updatedFactOrder) : ∃ f, Snapshot kb t { s with transaction := none } id f := by
  obtain ⟨f, hf, heq⟩ := h.tracked_facts id hid
  obtain ⟨fields, hfields⟩ := Option.isSome_iff_exists.mp ((h.tracked id).mp hid)
  have horiginal : t.originalFields (s.heap f) = fields := by
    rw [RhsTransaction.originalFields, heq, hfields]
    rfl
  obtain ⟨hflat, hindex⟩ := h.snapshots f hf fields (heq.symm ▸ hfields)
  refine ⟨f, hf, heq, ?_, ?_, ?_⟩
  · rw [hfields]
    exact congrArg some horiginal.symm
  · exact horiginal.symm ▸ hflat
  · exact horiginal.symm ▸ hindex

/-- The facts that have been updated pass the schema check. -/
def UpdatedValid (kb : KnowledgeBase) (s : Session) : Prop :=
  ∀ t, s.transaction = some t → ∀ f ∈ s.facts, (s.heap f).id ∈ t.updatedFactOrder →
    kb.validate (s.heap f) = true

/-- A roll-back up to the restoration of the snapshots: the facts have the fields of the
beginning. -/
structure Restored (kb : KnowledgeBase) (known : Set FactPtr) (t : RhsTransaction)
    (s s' : Session) : Prop extends ExactSession kb known s' where
  facts : s'.facts = s.facts
  isConsistent : s'.isConsistent = true
  transaction : s'.transaction = none
  id : ∀ f ∈ s.facts, (s'.heap f).id = (s.heap f).id
  original : ∀ f ∈ s.facts, s'.heap f = { s.heap f with fields := t.originalFields (s.heap f) }

/-- A fact that has been tracked, or that has not. -/
theorem InTransaction.restoredFact (h : InTransaction kb start t known s) (f : FactPtr) :
    RulesForge.restoredFact t t.updatedFactOrder (s.heap f) =
      { s.heap f with fields := t.originalFields (s.heap f) } := by
  unfold RulesForge.restoredFact
  split
  · rfl
  · next hnot =>
    rw [h.tracked, Bool.not_eq_true, Option.isSome_eq_false_iff, Option.isNone_iff_eq_none] at hnot
    rw [RhsTransaction.originalFields, hnot]
    rfl

variable (steps) in
/-- **Restoring the snapshots** after the last call of a right-hand side. -/
theorem InTransaction.restore (hkb : kb.Sound) (h : InTransaction kb start t known s) :
    let r := restoreSnapshots kb steps t { s with transaction := none }
    (r.2 = true ↔ UpdatedValid kb s) ∧ (r.2 = true → Restored kb known t s r.1) := by
  intro r
  obtain ⟨hkeeps, hvalid, hrestored⟩ := @restore_spec kb steps known t hkb _
    (List.nodup_reverse.mpr h.order_nodup) true { s with transaction := none }
    (h.toExactSession.congr rfl rfl rfl rfl rfl)
    fun id hid ↦ h.snapshot (List.mem_reverse.mp hid)
  rw [← restoreSnapshots_eq] at hkeeps hvalid hrestored
  refine ⟨hvalid.trans ⟨fun hall t' ht' f hf hid ↦ ?_, fun hall ↦ ⟨rfl, fun f hf hid ↦ ?_⟩⟩,
    fun hdone ↦ ?_⟩
  · obtain rfl := Option.some.inj (h.transaction.symm.trans ht')
    exact hall.2 f hf (List.mem_reverse.mpr hid)
  · exact hall t h.transaction f hf (List.mem_reverse.mp hid)
  · have hfact : ∀ f ∈ s.facts, r.1.heap f =
        { s.heap f with fields := t.originalFields (s.heap f) } := by
      intro f hf
      rw [hrestored hdone f hf, ← h.restoredFact f]
      simp only [RulesForge.restoredFact, List.mem_reverse]
    refine ⟨hkeeps.toExactSession, hkeeps.facts, hkeeps.isConsistent.trans h.isConsistent,
      hkeeps.transaction, fun f hf ↦ ?_, hfact⟩
    rw [hfact f hf]

variable (steps) in
/-- The snapshot of a pending update is restored first, and with it the fact is what the network
takes it for. -/
theorem InUpdate.restore (hkb : kb.Sound) {u : PendingUpdate} (h : InUpdate kb start t known u s)
    (hfirst : u.first = true) :
    let r := restoreSnapshots kb steps t { s with transaction := none }
    (r.2 = true ↔ UpdatedValid kb s) ∧
      (r.2 = true → Restored kb known t (writeFields u.fact u.before s) r.1) := by
  intro r
  obtain ⟨hlast, hlookup⟩ := h.first hfirst
  set id := (s.heap u.fact).id with hid
  set s₀ := writeFields u.fact u.before s with hs₀
  have htold : InTransaction kb start t known s₀ := h.told
  have hself : s₀.heap u.fact = { s.heap u.fact with fields := u.before } := writeFields_self _ _ _
  have hothers : ∀ f ≠ u.fact, s₀.heap f = s.heap f := fun f hf ↦ writeFields_of_ne hf u.before s
  obtain ⟨order, horder⟩ := List.getLast?_eq_some_iff.mp hlast
  have hnodup : order.Nodup ∧ id ∉ order := by
    have hall := htold.order_nodup
    rw [horder, List.nodup_append] at hall
    exact ⟨hall.1, fun hmem ↦ hall.2.2 id hmem id (List.mem_singleton_self id) rfl⟩
  have hlastMem : id ∈ t.updatedFactOrder := by
    rw [horder]
    exact List.mem_append_right _ (List.mem_singleton_self id)
  have hget : s.workingMemory.get id = some u.fact := by
    obtain ⟨i, hi⟩ := h.mem
    have heq : id = i := by
      have hstored := htold.id_eq hi
      rwa [hself] at hstored
    rw [heq]
    exact htold.unique.lookup_eq_some_iff.mpr hi
  set s₁ : Session := { s₀ with transaction := none } with hs₁
  have hback : writeFields u.fact u.before { s with transaction := none } = s₁ := rfl
  have hstep : restoreSnapshot kb steps t ({ s with transaction := none }, true) id =
      if kb.validate (s.heap u.fact) then (propagateModify kb steps u.fact none s₁, true)
      else ({ s with transaction := none }, false) := by
    unfold restoreSnapshot
    simp only [hlookup, hget]
    rw [← hback]
  have hr : r = order.reverse.foldl (restoreSnapshot kb steps t)
      (restoreSnapshot kb steps t ({ s with transaction := none }, true) id) := by
    show restoreSnapshots kb steps t { s with transaction := none } = _
    rw [restoreSnapshots_eq, horder, List.reverse_append, List.reverse_singleton,
      List.singleton_append, List.foldl_cons]
  cases hvalid : kb.validate (s.heap u.fact) with
  | false =>
    rw [hstep, hvalid, if_neg Bool.false_ne_true] at hr
    have hfailed : r.2 = false := hr ▸ restore_false t _ _
    refine ⟨⟨fun hdone ↦ ?_, fun hall ↦ ?_⟩, fun hdone ↦ ?_⟩
    · exact absurd (hfailed.symm.trans hdone) Bool.false_ne_true
    · have hchecked := hall t htold.transaction u.fact h.mem hlastMem
      exact absurd (hvalid.symm.trans hchecked) Bool.false_ne_true
    · exact absurd (hfailed.symm.trans hdone) Bool.false_ne_true
  | true =>
    rw [hstep, hvalid, if_pos rfl] at hr
    have h₁ : ExactSession kb known s₁ := htold.toExactSession.congr rfl rfl rfl rfl rfl
    have hsame : writeFields u.fact (s₁.heap u.fact).fields s₁ = s₁ := writeFields_same _ _
    obtain ⟨hkeeps₁, hheap₁⟩ := h₁.propagateModify (p := u.fact) steps hkb h.mem
      (h₁.flat u.fact h.mem) (.refl _) (.none s₁.heap _ u.fact)
    rw [hsame] at hkeeps₁ hheap₁
    set s₂ := propagateModify kb steps u.fact none s₁ with hs₂
    have hsnapshots : ∀ i ∈ order.reverse, ∃ f, Snapshot kb t s₂ i f := by
      intro i hi
      have hmem : i ∈ t.updatedFactOrder := by
        rw [horder]
        exact List.mem_append_left _ (List.mem_reverse.mp hi)
      obtain ⟨f, hf⟩ := htold.snapshot hmem
      refine ⟨f, hkeeps₁.facts.symm ▸ hf.mem, ?_, ?_, ?_, ?_⟩ <;> rw [hheap₁]
      · exact hf.id_eq
      · exact hf.lookup
      · exact hf.flat
      · exact hf.index
    obtain ⟨hkeeps, hchecked, hrestored⟩ := @restore_spec kb steps known t hkb _
      (List.nodup_reverse.mpr hnodup.1) true s₂ hkeeps₁.toExactSession hsnapshots
    rw [← hr] at hkeeps hchecked hrestored
    have hid₀ : ∀ f, (s₀.heap f).id = (s.heap f).id := fun f ↦ (writeFields_heap u.fact f _ s).1
    have hne : ∀ f, (s.heap f).id ∈ order → f ≠ u.fact := by
      rintro f hmem rfl
      exact hnodup.2 hmem
    have hfacts₂ : s₂.facts = s.facts := hkeeps₁.facts
    refine ⟨hchecked.trans ⟨fun hall t' ht' f hf hmem ↦ ?_, fun hall ↦ ⟨rfl, fun f hf hmem ↦ ?_⟩⟩,
      fun hdone ↦ ?_⟩
    · obtain rfl := Option.some.inj (htold.transaction.symm.trans ht')
      rw [horder, List.mem_append, List.mem_singleton] at hmem
      by_cases hfp : f = u.fact
      · rw [hfp]
        exact hvalid
      · have horder' : (s.heap f).id ∈ order := hmem.resolve_right fun heq ↦ hfp
          (htold.id_injOn (htold.known_facts hf) (htold.known_facts h.mem)
            ((hid₀ f).trans (heq.trans (hid₀ u.fact).symm)))
        have hpassed := hall.2 f (hfacts₂.symm ▸ hf)
          (by rw [hheap₁, List.mem_reverse]; exact (hid₀ f).symm ▸ horder')
        rw [hheap₁] at hpassed
        exact hothers f hfp ▸ hpassed
    · rw [hfacts₂] at hf
      rw [hheap₁, List.mem_reverse] at hmem
      have hmem' : (s.heap f).id ∈ order := hid₀ f ▸ hmem
      have hpassed := hall t htold.transaction f hf
        (by rw [horder]; exact List.mem_append_left _ hmem')
      rw [hheap₁]
      exact (hothers f (hne f hmem')).symm ▸ hpassed
    · have hfact : ∀ f ∈ s.facts, r.1.heap f =
          { s₀.heap f with fields := t.originalFields (s₀.heap f) } := by
        intro f hf
        rw [hrestored hdone f (hfacts₂.symm ▸ hf), hheap₁, ← htold.restoredFact f]
        show restoredFact t order.reverse (s₀.heap f) = _
        by_cases hfp : f = u.fact
        · have hfields : t.originalFields (s₀.heap u.fact) = (s₀.heap u.fact).fields := by
            rw [RhsTransaction.originalFields, hid₀, hlookup, hself]
            rfl
          rw [hfp, htold.restoredFact, hfields, restoredFact,
            if_neg (by rw [List.mem_reverse, hid₀]; exact hnodup.2)]
        · have hfid : (s₀.heap f).id ≠ id := fun heq ↦ hfp
            (htold.id_injOn (htold.known_facts hf) (htold.known_facts h.mem)
              (heq.trans (hid₀ u.fact).symm))
          simp only [restoredFact, List.mem_reverse, horder, List.mem_append, List.mem_singleton,
            hfid, or_false]
      refine ⟨hkeeps.toExactSession, hkeeps.facts.trans hfacts₂,
        hkeeps.isConsistent.trans (hkeeps₁.isConsistent.trans htold.isConsistent),
        hkeeps.transaction.trans hkeeps₁.transaction, fun f hf ↦ ?_, hfact⟩
      rw [hfact f hf]

/-! ### Withdrawing insertions -/

/-- A fact of working memory is retracted outside of a transaction. -/
theorem ExactSession.retractFact_eq (h : ExactSession kb known s) (hp : p ∈ s.facts)
    (hconsistent : s.isConsistent = true) (htransaction : s.transaction = none) :
    retractFact kb (logicalRetract kb steps) p s =
      (RulesForge.removeFact kb (logicalRetract kb steps) p s, none) := by
  have hzero := (h.known_id p (h.known_facts hp)).1
  obtain ⟨i, hi⟩ := hp
  have hget : s.workingMemory.get (s.heap p).id = some p :=
    h.get_eq_some_iff.mpr ((h.id_eq hi).symm ▸ hi)
  unfold retractFact
  rw [if_neg hzero, if_neg (by simp [hconsistent]), hget, htransaction]

/-- One insertion is withdrawn. -/
def undoInsertion (kb : KnowledgeBase) (steps : ℕ) (r : Session × Bool) (id : ℤ) :
    Session × Bool :=
  match r.1.workingMemory.get id with
  | none => r
  | some fact =>
    let (s, error) := retractFact kb (logicalRetract kb steps) fact r.1
    (s, r.2 && error.isNone)

/-- Outside of a transaction, insertions are withdrawn: the facts whose ids are not given stay. -/
structure Withdrawn (kb : KnowledgeBase) (known : Set FactPtr) (ids : List ℤ)
    (s s' : Session) : Prop extends ExactSession kb known s' where
  facts : s'.facts = {f ∈ s.facts | (s.heap f).id ∉ ids}
  heap : s'.heap = s.heap
  isConsistent : s'.isConsistent = true
  transaction : s'.transaction = none

variable (steps) in
theorem undoInsertion_spec (hkb : kb.Sound) (h : ExactSession kb known s)
    (hconsistent : s.isConsistent = true) (htransaction : s.transaction = none) (id : ℤ) :
    let r := undoInsertion kb steps (s, true) id
    Withdrawn kb known [id] s r.1 ∧ r.2 = true := by
  intro r
  cases hget : s.workingMemory.get id with
  | none =>
    have hr : r = (s, true) := by
      show undoInsertion kb steps (s, true) id = _
      simp only [undoInsertion, hget]
    have hall : ∀ f ∈ s.facts, (s.heap f).id ∉ [id] := by
      intro f hf hid
      obtain ⟨i, hi⟩ := hf
      have heq : i = id := (h.id_eq hi).symm.trans (List.mem_singleton.mp hid)
      have hsome := h.get_eq_some_iff.mpr (heq ▸ hi)
      exact absurd (hget.symm.trans hsome).symm (Option.some_ne_none f)
    rw [hr]
    exact ⟨⟨h, (Set.sep_eq_self_iff_mem_true.mpr hall).symm, rfl, hconsistent, htransaction⟩, rfl⟩
  | some f =>
    have hmem := h.get_eq_some_iff.mp hget
    have hf : f ∈ s.facts := ⟨id, hmem⟩
    have hr : r = (removeFact kb (logicalRetract kb steps) f s, true) := by
      show undoInsertion kb steps (s, true) id = _
      simp only [undoInsertion, hget, h.retractFact_eq hf hconsistent htransaction]
      rfl
    obtain ⟨h', hfacts, hheap, hconsistent', htransaction'⟩ := h.removeFact steps hkb hf
    rw [hr]
    refine ⟨⟨h', hfacts.trans ?_, hheap, hconsistent'.trans hconsistent,
      htransaction'.trans htransaction⟩, rfl⟩
    ext g
    show g ∈ s.facts ∧ g ≠ f ↔ g ∈ s.facts ∧ (s.heap g).id ∉ [id]
    refine and_congr_right fun hg ↦ not_congr ?_
    rw [List.mem_singleton, ← h.id_eq hmem]
    exact ⟨fun heq ↦ heq ▸ rfl, fun heq ↦ h.id_injOn (h.known_facts hg) (h.known_facts hf) heq⟩

variable (steps) in
/-- **Withdrawing insertions** succeeds. -/
theorem undoInsertions_spec (hkb : kb.Sound) (h : ExactSession kb known s)
    (hconsistent : s.isConsistent = true) (htransaction : s.transaction = none) (ids : List ℤ) :
    let r := undoInsertions kb steps ids s
    Withdrawn kb known ids s r.1 ∧ r.2 = true := by
  have hfold : ∀ (l : List ℤ) {s : Session}, ExactSession kb known s → s.isConsistent = true →
      s.transaction = none →
      Withdrawn kb known l s (l.foldl (undoInsertion kb steps) (s, true)).1 ∧
        (l.foldl (undoInsertion kb steps) (s, true)).2 = true := by
    intro l
    induction l with
    | nil =>
      intro s h hconsistent htransaction
      have hall : ∀ f ∈ s.facts, (s.heap f).id ∉ ([] : List ℤ) := fun _ _ ↦ List.not_mem_nil
      exact ⟨⟨h, (Set.sep_eq_self_iff_mem_true.mpr hall).symm, rfl, hconsistent, htransaction⟩, rfl⟩
    | cons id l ih =>
      intro s h hconsistent htransaction
      obtain ⟨h₁, hok⟩ := undoInsertion_spec steps hkb h hconsistent htransaction id
      set r₁ := undoInsertion kb steps (s, true) id with hr₁
      have hpair : r₁ = (r₁.1, true) := Prod.ext rfl hok
      have hstep : (id :: l).foldl (undoInsertion kb steps) (s, true) =
          l.foldl (undoInsertion kb steps) (r₁.1, true) :=
        congrArg (fun r ↦ l.foldl (undoInsertion kb steps) r) hpair
      obtain ⟨h₂, hok₂⟩ := ih h₁.toExactSession h₁.isConsistent h₁.transaction
      rw [hstep]
      refine ⟨⟨h₂.toExactSession, ?_, h₂.heap.trans h₁.heap, h₂.isConsistent, h₂.transaction⟩, hok₂⟩
      rw [h₂.facts, h₁.facts, h₁.heap]
      ext f
      simp only [Set.mem_ofPred_eq, List.mem_cons, List.not_mem_nil, or_false, not_or, and_assoc]
  intro r
  obtain ⟨h', hok⟩ := hfold ids.reverse h hconsistent htransaction
  refine ⟨⟨h'.toExactSession, ?_, h'.heap, h'.isConsistent, h'.transaction⟩, hok⟩
  refine h'.facts.trans ?_
  simp only [List.mem_reverse]

/-- One retraction is undone. -/
def undoRetraction (kb : KnowledgeBase) (steps : ℕ) (r : Session × Bool) (fact : FactPtr) :
    Session × Bool :=
  if fact = 0 ∨ r.1.workingMemory.contains (r.1.heap fact).id then r
  else
    let (s, error) := addFact kb steps fact r.1
    (s, r.2 && error.isNone)

theorem undoRetractions_eq (facts : List FactPtr) (s : Session) :
    undoRetractions kb steps facts s = facts.reverse.foldl (undoRetraction kb steps) (s, true) :=
  rfl

/-- Facts that are still in working memory are not added again. -/
theorem undoRetractions_of_contains {facts : List FactPtr}
    (hfacts : ∀ f ∈ facts, s.workingMemory.contains (s.heap f).id = true) :
    undoRetractions kb steps facts s = (s, true) := by
  have hfold : ∀ l : List FactPtr, (∀ f ∈ l, s.workingMemory.contains (s.heap f).id = true) →
      l.foldl (undoRetraction kb steps) (s, true) = (s, true) := by
    intro l hl
    induction l with
    | nil => rfl
    | cons f l ih =>
      have hstep : undoRetraction kb steps (s, true) f = (s, true) :=
        if_pos (.inr (hl f List.mem_cons_self))
      rw [List.foldl_cons, hstep]
      exact ih fun g hg ↦ hl g (List.mem_cons_of_mem f hg)
  rw [undoRetractions_eq]
  exact hfold _ fun f hf ↦ hfacts f (List.mem_reverse.mp hf)

/-! ### Commit -/

variable (steps) in
/-- The retractions that have waited are carried out. -/
theorem commitRetractions_spec (hkb : kb.Sound) {l : List FactPtr} (hl : l.Nodup) {s : Session}
    (h : ExactSession kb known s) (hfacts : ∀ f ∈ l, f ∈ s.facts) :
    let s' := commitRetractions kb steps l s
    ExactSession kb known s' ∧ s'.facts = s.facts \ {f | f ∈ l} ∧ s'.heap = s.heap ∧
      s'.isConsistent = s.isConsistent ∧ s'.transaction = s.transaction := by
  induction l generalizing s with
  | nil => exact ⟨h, by simp [commitRetractions], rfl, rfl, rfl⟩
  | cons p l ih =>
    intro s'
    obtain ⟨hp, hl⟩ := List.nodup_cons.mp hl
    have hmem := hfacts p List.mem_cons_self
    have hzero := (h.known_id p (h.known_facts hmem)).1
    obtain ⟨h₁, hfacts₁, hheap₁, hconsistent₁, htransaction₁⟩ := h.removeFact steps hkb hmem
    set s₁ := RulesForge.removeFact kb (logicalRetract kb steps) p s with hs₁
    have hs' : s' = commitRetractions kb steps l s₁ := by
      show commitRetractions kb steps (p :: l) s = _
      rw [commitRetractions, List.foldl_cons, if_neg hzero]
      rfl
    have hrest : ∀ f ∈ l, f ∈ s₁.facts := by
      intro f hf
      rw [hfacts₁]
      exact ⟨hfacts f (List.mem_cons_of_mem p hf), ne_of_mem_of_not_mem hf hp⟩
    obtain ⟨h₂, hfacts₂, hheap₂, hconsistent₂, htransaction₂⟩ := ih hl h₁ hrest
    rw [hs']
    refine ⟨h₂, ?_, hheap₂.trans hheap₁, hconsistent₂.trans hconsistent₁,
      htransaction₂.trans htransaction₁⟩
    rw [hfacts₂, hfacts₁]
    ext f
    simp only [Set.mem_sdiff, Set.mem_singleton_iff, Set.mem_ofPred_eq, List.mem_cons, not_or,
      and_assoc]

variable (steps) in
/-- **A commit** leaves exact memories; what was retracted is gone. -/
theorem endRhsTransaction_commit (hkb : kb.Sound) {c : FireState}
    (h : InTransaction kb start t known c.session) :
    let c' := endRhsTransaction kb steps true c
    ExactSession kb known c'.session ∧ c'.session.isConsistent = true ∧
      c'.session.transaction = none ∧
      c'.session.facts = c.session.facts \ {f | f ∈ t.retractedFacts} ∧
      c'.haltRequested = c.haltRequested := by
  set s₁ : Session := { c.session with transaction := none, isConsistent := true } with hs₁
  have h₁ : ExactSession kb known s₁ := h.toExactSession.congr rfl rfl rfl rfl rfl
  obtain ⟨h', hfacts, -, hconsistent, htransaction⟩ := commitRetractions_spec steps hkb
    h.retracted_nodup h₁ fun f hf ↦ (h.kept f (h.retracted f hf)).1
  intro c'
  have hc' : c' = { c with session := commitRetractions kb steps t.retractedFacts s₁ } := by
    show endRhsTransaction kb steps true c = _
    unfold endRhsTransaction
    rw [h.transaction]
    rfl
  rw [hc']
  exact ⟨h', hconsistent, htransaction, hfacts, rfl⟩

/-! ### Roll-back -/

/-- What a roll-back that succeeds leaves: the facts, and what is in them, of the beginning. -/
structure RolledBack (kb : KnowledgeBase) (known : Set FactPtr) (start s : Session) : Prop
    extends ExactSession kb known s where
  isConsistent : s.isConsistent = true
  transaction : s.transaction = none
  facts : s.facts = start.facts
  heap : ∀ f ∈ start.facts, s.heap f = start.heap f

variable (steps) in
/-- What is inserted after the snapshots have been restored is withdrawn. -/
theorem Restored.withdraw (hkb : kb.Sound) {s₀ s₁ : Session} (h : InTransaction kb start t known s₀)
    (h₁ : Restored kb known t s₀ s₁) :
    let r := undoInsertions kb steps t.insertedFacts s₁
    let r' := undoRetractions kb steps t.retractedFacts r.1
    RolledBack kb known start r'.1 ∧ r.2 = true ∧ r'.2 = true := by
  intro r r'
  obtain ⟨h₂, hok⟩ := undoInsertions_spec steps hkb h₁.toExactSession h₁.isConsistent
    h₁.transaction t.insertedFacts
  have hfacts : r.1.facts = start.facts := by
    rw [h₂.facts, h₁.facts]
    ext f
    constructor
    · rintro ⟨hf, hid⟩
      rw [h₁.id f hf, h.inserted f hf, not_not] at hid
      exact hid
    · intro hf
      have hmem := (h.kept f hf).1
      refine ⟨hmem, ?_⟩
      rw [h₁.id f hmem, h.inserted f hmem, not_not]
      exact hf
  have hr' : r' = (r.1, true) := by
    refine undoRetractions_of_contains fun f hf ↦ ?_
    have hmem : f ∈ r.1.facts := hfacts.symm ▸ h.retracted f hf
    exact (h₂.contains_iff (h₂.known_facts hmem)).mpr hmem
  rw [hr']
  refine ⟨⟨h₂.toExactSession, h₂.isConsistent, h₂.transaction, hfacts, fun f hf ↦ ?_⟩, hok, rfl⟩
  obtain ⟨hmem, hkept⟩ := h.kept f hf
  rw [h₂.heap, h₁.original f hmem, hkept]

variable (steps) in
/-- **A roll-back** gives back the session of the beginning if the facts that were updated pass the
schema check; otherwise working memory is cleared. -/
theorem endRhsTransaction_rollback (hkb : kb.Sound) {update : Option PendingUpdate}
    {c : FireState} (h : InState kb start t known update c.session)
    (hfirst : ∀ u, update = some u → u.first = true) :
    let c' := endRhsTransaction kb steps false c
    (UpdatedValid kb c.session → RolledBack kb known start c'.session) ∧
      (¬ UpdatedValid kb c.session → c'.haltRequested = true ∧ c'.session.isConsistent = false ∧
        c'.session.workingMemory.facts = []) := by
  obtain ⟨s₀, h₀, htransaction, hvalid, hrestored⟩ : ∃ s₀, InTransaction kb start t known s₀ ∧
      c.session.transaction = some t ∧
      let r := restoreSnapshots kb steps t { c.session with transaction := none }
      (r.2 = true ↔ UpdatedValid kb c.session) ∧ (r.2 = true → Restored kb known t s₀ r.1) := by
    cases update with
    | none =>
      have h₀ : InTransaction kb start t known c.session := h
      exact ⟨c.session, h₀, h₀.transaction, h₀.restore steps hkb⟩
    | some u =>
      have hu : InUpdate kb start t known u c.session := h
      exact ⟨_, hu.told, hu.told.transaction, hu.restore steps hkb (hfirst u rfl)⟩
  set r := restoreSnapshots kb steps t { c.session with transaction := none } with hr
  set r₂ := undoInsertions kb steps t.insertedFacts r.1 with hr₂
  set r₃ := undoRetractions kb steps t.retractedFacts r₂.1 with hr₃
  have hend : endRhsTransaction kb steps false c =
      if r.2 && r₂.2 && r₃.2 then { c with session := { r₃.1 with isConsistent := true } }
      else { session := clearWorkingMemory { r₃.1 with isConsistent := false }
             haltRequested := true } := by
    unfold endRhsTransaction
    rw [htransaction]
    rfl
  rw [hend]
  constructor
  · intro hall
    have hok := hvalid.mpr hall
    obtain ⟨hback, hok₂, hok₃⟩ := (hrestored hok).withdraw steps hkb h₀
    have hpassed : (r.2 && r₂.2 && r₃.2) = true := by rw [hok, hr₂, hok₂, hr₃, hok₃]; rfl
    rw [if_pos hpassed]
    exact ⟨hback.toExactSession.congr rfl rfl rfl rfl rfl, rfl, hback.transaction, hback.facts,
      hback.heap⟩
  · intro hnot
    have hfailed : r.2 = false := Bool.eq_false_iff.mpr fun hok ↦ hnot (hvalid.mp hok)
    rw [hfailed, Bool.false_and, Bool.false_and, if_neg Bool.false_ne_true]
    exact ⟨rfl, rfl, rfl⟩

/-! ### Execution -/

/-- A right-hand side that is plain when it is executed in a session. -/
def RhsProgram.PlainIn (kb : KnowledgeBase) (steps : ℕ) (token : TokenWME) (program : RhsProgram)
    (c : FireState) : Prop :=
  program.Plain kb steps token c.session none { c with session := beginRhsTransaction c.session }

/-- The session in which the last call of a right-hand side has left the transaction. -/
def sessionAtEnd (kb : KnowledgeBase) (steps : ℕ) (token : TokenWME) (program : RhsProgram)
    (c : FireState) : Session :=
  (program.run kb steps token { c with session := beginRhsTransaction c.session }).1.session

variable {token : TokenWME} {program : RhsProgram} {c : FireState}

variable (steps) in
theorem ExactSession.runRhs (hkb : kb.Sound) (h : ExactSession kb known c.session)
    (hconsistent : c.session.isConsistent = true) (hplain : program.PlainIn kb steps token c) :
    RhsEnds kb c.session known
      (program.run kb steps token { c with session := beginRhsTransaction c.session }) :=
  hplain.run hkb (h.begin hconsistent)

variable (steps) in
/-- A plain right-hand side that ends without an exception leaves exact memories. -/
theorem ExactSession.executeRhs_exact (hkb : kb.Sound) (h : ExactSession kb known c.session)
    (hconsistent : c.session.isConsistent = true) (hplain : program.PlainIn kb steps token c)
    (hended : (executeRhs kb steps token program c).2 = false) :
    ∃ known', known ⊆ known' ∧
      ExactSession kb known' (executeRhs kb steps token program c).1.session ∧
      (executeRhs kb steps token program c).1.session.isConsistent = true := by
  obtain ⟨known', t, update, hsub, hstate, hnone, -⟩ := h.runRhs steps hkb hconsistent hplain
  set r := program.run kb steps token { c with session := beginRhsTransaction c.session } with hr
  have hexecute : executeRhs kb steps token program c =
      (endRhsTransaction kb steps (!r.2) r.1, r.2) := rfl
  rw [hexecute] at hended ⊢
  obtain rfl := hnone hended
  have hcommit := endRhsTransaction_commit steps hkb hstate
  rw [hended]
  exact ⟨known', hsub, hcommit.1, hcommit.2.1⟩

variable (steps) in
/-- A plain right-hand side that an exception leaves is rolled back, or the session is given up. -/
theorem ExactSession.executeRhs_rollback (hkb : kb.Sound) (h : ExactSession kb known c.session)
    (hconsistent : c.session.isConsistent = true) (hplain : program.PlainIn kb steps token c)
    (hthrew : (executeRhs kb steps token program c).2 = true) :
    ∃ known', known ⊆ known' ∧ let c' := (executeRhs kb steps token program c).1
      (UpdatedValid kb (sessionAtEnd kb steps token program c) →
        RolledBack kb known' c.session c'.session) ∧
      (¬ UpdatedValid kb (sessionAtEnd kb steps token program c) → c'.haltRequested = true ∧
        c'.session.isConsistent = false ∧ c'.session.workingMemory.facts = []) := by
  obtain ⟨known', t, update, hsub, hstate, -, hfirst⟩ := h.runRhs steps hkb hconsistent hplain
  set r := program.run kb steps token { c with session := beginRhsTransaction c.session } with hr
  have hexecute : executeRhs kb steps token program c =
      (endRhsTransaction kb steps (!r.2) r.1, r.2) := rfl
  rw [hexecute] at hthrew ⊢
  rw [hthrew]
  exact ⟨known', hsub, endRhsTransaction_rollback steps hkb hstate hfirst⟩

/-- An `A` is inserted, the `B` gets another field, and the next expression fails. -/
def failingProgram : RhsProgram :=
  .act (.insert 1 "A" [("x", .int64 1)]) fun _ ↦
    .act (.assign 2 [("x", .int64 1), ("y", .int64 2)]) fun _ ↦ .throw

theorem sameXNetwork_indexField {field : String} (h : sameXNetwork.IndexField field) :
    field = "x" := by
  cases h with
  | @left n c l r hkind =>
    rcases sameXNetwork_kind n with hn | hn | ⟨-, hn⟩ | hn <;> cases hn.symm.trans hkind
    rfl
  | @right n c l r hkind =>
    rcases sameXNetwork_kind n with hn | hn | ⟨-, hn⟩ | hn <;> cases hn.symm.trans hkind
    rfl

theorem failingProgram_plain :
    failingProgram.PlainIn sameXBase 1 .root { session := rightSession } := by
  have hone : FlatFields [("x", .int64 1)] := flatFields_of_forall (by decide)
  have hboth : FlatFields [("x", .int64 1), ("y", .int64 2)] := flatFields_of_forall (by decide)
  refine .insert ?_ rfl hone fun c' hc' ↦ ?_
  · exact fun hmem ↦ absurd (rightSession_facts.mp hmem) (by decide)
  obtain rfl := congrArg Prod.fst hc'
  refine .assign ⟨1, by decide +kernel⟩ (fun u hu ↦ absurd hu.symm (Option.some_ne_none u)) hboth ?_
    fun c'' hc'' ↦ ?_
  · intro field hfield
    obtain rfl := sameXNetwork_indexField hfield
    rfl
  obtain rfl := congrArg Prod.fst hc''
  refine .throw fun u hu ↦ ?_
  obtain rfl := Option.some.inj hu
  rfl

end RulesForge
