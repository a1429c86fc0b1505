import RulesForge.Engine.Session
import RulesForge.Library.Traversal

/-!
# Ids of nested facts

`assign_nested_ids` (`include/engine/working_memory.hpp`) follows the fact lists of a fact's fields
without a memory of where it has been, as `contains_nested_fact` beside it has. It comes to an end
only where no fact is reached from itself. `next_id_` is counted on 64 bits here.

What it then does is one `assign_id` for each visit, in the order of the traversal.
-/

namespace RulesForge

open Traversal

/-! ### The assignment -/

/-- `assign_id`, with the counter on 64 bits. -/
def assignIdInt64 (state : Heap × ℤ) (fact : FactPtr) : Heap × ℤ :=
  let (heap, nextId) := state
  if (heap fact).id = 0 then
    (Function.update heap fact { heap fact with id := nextId }, wrap64 (nextId + 1))
  else if nextId ≤ (heap fact).id then (heap, wrap64 ((heap fact).id + 1))
  else state

/-- `assign_nested_ids`, which gives nothing if it has not ended within a depth. -/
def assignNestedIdsInt64 : ℕ → FactPtr → Heap × ℤ → Option (Heap × ℤ)
  | 0, _, _ => none
  | depth + 1, fact, state =>
    let state := assignIdInt64 state fact
    (nestedFacts (state.1 fact)).foldlM (fun state p ↦ assignNestedIdsInt64 depth p state) state

/-- The links that the traversal follows. -/
def nestedLinks (heap : Heap) (fact : FactPtr) : List FactPtr := nestedFacts (heap fact)

section Assignment

variable {heap : Heap} {state state' : Heap × ℤ} {fact f : FactPtr} {depth : ℕ}
  {visits visited left : List FactPtr} {nextId : ℤ}

theorem wrap64_of_pos {i : ℤ} (hpos : 0 < i) (hlt : i < 2 ^ 63) : wrap64 i = i := by
  rw [wrap64]
  omega

theorem wrap64_lt (i : ℤ) : wrap64 i < 2 ^ 63 := by
  rw [wrap64]
  omega

theorem assignIdInt64_new (h : (state.1 fact).id = 0) :
    assignIdInt64 state fact =
      (Function.update state.1 fact { state.1 fact with id := state.2 }, wrap64 (state.2 + 1)) :=
  if_pos h

theorem assignIdInt64_known (h : (state.1 fact).id ≠ 0) :
    assignIdInt64 state fact =
      if state.2 ≤ (state.1 fact).id then (state.1, wrap64 ((state.1 fact).id + 1)) else state :=
  if_neg h

/-- Below the limits of 64 bits the counter is the one of working memory. -/
theorem assignIdInt64_eq_assignId (h : 0 < state.2) (hcounter : state.2 < 2 ^ 63 - 1)
    (hid : (state.1 fact).id < 2 ^ 63 - 1) :
    assignIdInt64 state fact = assignId fact state := by
  obtain ⟨heap, nextId⟩ := state
  have hcode : assignId fact (heap, nextId) =
      if (heap fact).id = 0 then
        (Function.update heap fact { heap fact with id := nextId }, nextId + 1)
      else if nextId ≤ (heap fact).id then (heap, (heap fact).id + 1)
      else (heap, nextId) := rfl
  rw [hcode]
  dsimp only at h hcounter hid
  by_cases hzero : (heap fact).id = 0
  · rw [assignIdInt64_new hzero, if_pos hzero, wrap64_of_pos (by omega) (by omega)]
  · rw [assignIdInt64_known hzero, if_neg hzero]
    by_cases hle : nextId ≤ (heap fact).id
    · have hwrap : wrap64 ((heap fact).id + 1) = (heap fact).id + 1 :=
        wrap64_of_pos (by omega) (by omega)
      rw [if_pos hle, if_pos hle]
      exact congrArg (Prod.mk heap) hwrap
    · rw [if_neg hle, if_neg hle]

theorem nestedLinks_assignIdInt64 :
    nestedLinks (assignIdInt64 state fact).1 = nestedLinks state.1 := by
  funext f
  have hfields : ((assignIdInt64 state fact).1 f).fields = (state.1 f).fields := by
    by_cases hzero : (state.1 fact).id = 0
    · rw [assignIdInt64_new hzero]
      show (Function.update state.1 fact _ f).fields = _
      by_cases hfact : f = fact
      · rw [hfact, Function.update_self]
      · rw [Function.update_of_ne hfact]
    · rw [assignIdInt64_known hzero]
      split <;> rfl
  show nestedFacts _ = nestedFacts _
  unfold nestedFacts
  rw [hfields]

theorem nestedLinks_foldl :
    nestedLinks (visits.foldl assignIdInt64 state).1 = nestedLinks state.1 := by
  induction visits generalizing state with
  | nil => rfl
  | cons f visits ih => exact ih.trans nestedLinks_assignIdInt64

/-- **The assignment is one `assign_id` for each visit** of a traversal that ends. -/
theorem assignNestedIdsInt64_eq_some_iff (hlinks : nestedLinks state.1 = nestedLinks heap) :
    assignNestedIdsInt64 depth fact state = some state' ↔
      EndsWithin (nestedLinks heap) depth fact ∧
        state' = (preorder (nestedLinks heap) depth fact).foldl assignIdInt64 state := by
  induction depth generalizing fact state state' with
  | zero => exact iff_of_false (fun h ↦ by cases h) fun h ↦ h.1
  | succ depth ih =>
    -- the facts of the lists, one after another
    have hfold : ∀ (facts : List FactPtr) (state : Heap × ℤ),
        nestedLinks state.1 = nestedLinks heap →
        (facts.foldlM (fun state p ↦ assignNestedIdsInt64 depth p state) state = some state' ↔
          (∀ p ∈ facts, EndsWithin (nestedLinks heap) depth p) ∧
            state' = (facts.flatMap (preorder (nestedLinks heap) depth)).foldl assignIdInt64
              state) := by
      intro facts
      induction facts with
      | nil =>
        intro state _
        rw [List.foldlM_nil]
        exact ⟨fun h ↦ ⟨fun _ hp ↦ absurd hp List.not_mem_nil, (Option.some.inj h).symm⟩,
          fun h ↦ congrArg some h.2.symm⟩
      | cons p facts ihfacts =>
        intro state hstate
        rw [List.foldlM_cons, Option.bind_eq_bind, Option.bind_eq_some_iff]
        rw [List.flatMap_cons, List.foldl_append, List.forall_mem_cons]
        constructor
        · rintro ⟨middle, hp, hfacts⟩
          obtain ⟨hends, rfl⟩ := (ih hstate).mp hp
          obtain ⟨hends', hstate'⟩ :=
            (ihfacts _ (nestedLinks_foldl.trans hstate)).mp hfacts
          exact ⟨⟨hends, hends'⟩, hstate'⟩
        · rintro ⟨⟨hends, hends'⟩, hstate'⟩
          exact ⟨_, (ih hstate).mpr ⟨hends, rfl⟩,
            (ihfacts _ (nestedLinks_foldl.trans hstate)).mpr ⟨hends', hstate'⟩⟩
    have hnested : nestedFacts ((assignIdInt64 state fact).1 fact) = nestedLinks heap fact := by
      show nestedLinks _ fact = _
      rw [nestedLinks_assignIdInt64, hlinks]
    show List.foldlM _ _ (nestedFacts ((assignIdInt64 state fact).1 fact)) = some state' ↔ _
    rw [hnested]
    exact hfold _ _ (nestedLinks_assignIdInt64.trans hlinks)

end Assignment

/-! ### The counter -/

/-- The facts without an id that are first visited now. -/
def newlyVisited (heap : Heap) (visited visits : List FactPtr) : Finset FactPtr :=
  (visits.toFinset \ visited.toFinset).filter fun f ↦ (heap f).id = 0

/-- There are ids for all facts that have none, counted from the counter and, behind a fact that
has one, from that one. -/
def HasIdsLeft (heap : Heap) (nextId : ℤ) (visits : List FactPtr) : Prop :=
  nextId + (newlyVisited heap [] visits).card < 2 ^ 63 ∧
    ∀ visited fact left, visits = visited ++ fact :: left → (heap fact).id ≠ 0 →
      (heap fact).id + 1 + (newlyVisited heap (visited ++ [fact]) left).card < 2 ^ 63

section Counter

variable {heap : Heap} {state : Heap × ℤ} {fact f : FactPtr} {visits visited left : List FactPtr}
  {nextId : ℤ}

theorem mem_newlyVisited :
    f ∈ newlyVisited heap visited visits ↔ (f ∈ visits ∧ f ∉ visited) ∧ (heap f).id = 0 := by
  rw [newlyVisited, Finset.mem_filter, Finset.mem_sdiff, List.mem_toFinset, List.mem_toFinset]

theorem newlyVisited_cons_of_known (h : fact ∈ visited ∨ (heap fact).id ≠ 0) :
    newlyVisited heap visited (fact :: left) = newlyVisited heap (visited ++ [fact]) left := by
  ext f
  rw [mem_newlyVisited, mem_newlyVisited, List.mem_cons, List.mem_append, List.mem_singleton]
  by_cases hf : f = fact
  · rw [hf]
    tauto
  · tauto

theorem card_newlyVisited_cons (hnew : fact ∉ visited) (hzero : (heap fact).id = 0) :
    ((newlyVisited heap visited (fact :: left)).card : ℤ) =
      (newlyVisited heap (visited ++ [fact]) left).card + 1 := by
  have hinsert : newlyVisited heap visited (fact :: left) =
      insert fact (newlyVisited heap (visited ++ [fact]) left) := by
    ext f
    rw [Finset.mem_insert, mem_newlyVisited, mem_newlyVisited, List.mem_cons, List.mem_append,
      List.mem_singleton]
    by_cases hf : f = fact
    · rw [hf]
      tauto
    · tauto
  have hfresh : fact ∉ newlyVisited heap (visited ++ [fact]) left := by
    rw [mem_newlyVisited]
    exact fun h ↦ h.1.2 (List.mem_append_right _ (List.mem_singleton_self fact))
  rw [hinsert, Finset.card_insert_of_notMem hfresh]
  rfl

/-- **The ids after some visits**: facts that have been visited have ids below the counter. -/
structure Visited (heap : Heap) (visited : List FactPtr) (state : Heap × ℤ) : Prop where
  pos : 0 < state.2
  untouched : ∀ f, f ∉ visited → state.1 f = heap f
  id_ne_zero : ∀ f ∈ visited, (state.1 f).id ≠ 0
  id_lt : ∀ f ∈ visited, (state.1 f).id < state.2
  kept : ∀ f, (heap f).id ≠ 0 → (state.1 f).id = (heap f).id
  distinct : ∀ f ∈ visited, ∀ g ∈ visited, (heap f).id = 0 → (heap g).id = 0 →
    (state.1 f).id = (state.1 g).id → f = g

theorem Visited.start (hpos : 0 < nextId) : Visited heap [] (heap, nextId) where
  pos := hpos
  untouched _ _ := rfl
  id_ne_zero _ hf := absurd hf List.not_mem_nil
  id_lt _ hf := absurd hf List.not_mem_nil
  kept _ _ := rfl
  distinct _ hf := absurd hf List.not_mem_nil

namespace Visited

/-- A visit that gives no id. -/
theorem known {counter : ℤ} (h : Visited heap visited state) (hle : state.2 ≤ counter)
    (hne : (state.1 fact).id ≠ 0) (hlt : (state.1 fact).id < counter) :
    Visited heap (visited ++ [fact]) (state.1, counter) where
  pos := h.pos.trans_le hle
  untouched f hf := h.untouched f fun hmem ↦ hf (List.mem_append_left _ hmem)
  id_ne_zero f hf := by
    rcases List.mem_append.mp hf with hf | hf
    · exact h.id_ne_zero f hf
    · rwa [List.mem_singleton.mp hf]
  id_lt f hf := by
    rcases List.mem_append.mp hf with hf | hf
    · exact (h.id_lt f hf).trans_le hle
    · rwa [List.mem_singleton.mp hf]
  kept := h.kept
  distinct f hf g hg hzero hzero' heq := by
    -- a fact that had no id and has one now has been visited before
    have hbefore : ∀ f ∈ visited ++ [fact], (heap f).id = 0 → f ∈ visited := by
      intro f hf hzero
      by_contra hnew
      rcases List.mem_append.mp hf with hf | hf
      · exact hnew hf
      · rw [List.mem_singleton.mp hf] at hnew hzero
        rw [h.untouched fact hnew] at hne
        exact hne hzero
    exact h.distinct f (hbefore f hf hzero) g (hbefore g hg hzero') hzero hzero' heq

/-- A visit that gives an id. -/
theorem new (h : Visited heap visited state) (hfact : (heap fact).id = 0) :
    Visited heap (visited ++ [fact])
      (Function.update state.1 fact { state.1 fact with id := state.2 }, state.2 + 1) where
  pos := by
    have hpos := h.pos
    show 0 < state.2 + 1
    omega
  untouched f hf := by
    rw [List.mem_append, List.mem_singleton, not_or] at hf
    show Function.update state.1 fact _ f = _
    rw [Function.update_of_ne hf.2, h.untouched f hf.1]
  id_ne_zero f hf := by
    show (Function.update state.1 fact _ f).id ≠ 0
    by_cases hfact : f = fact
    · rw [hfact, Function.update_self]
      exact h.pos.ne'
    · rw [Function.update_of_ne hfact]
      exact h.id_ne_zero f ((List.mem_append.mp hf).resolve_right fun hf ↦
        hfact (List.mem_singleton.mp hf))
  id_lt f hf := by
    show (Function.update state.1 fact _ f).id < state.2 + 1
    by_cases hfact : f = fact
    · rw [hfact, Function.update_self]
      exact Int.lt_succ _
    · rw [Function.update_of_ne hfact]
      have hlt := h.id_lt f ((List.mem_append.mp hf).resolve_right fun hf ↦
        hfact (List.mem_singleton.mp hf))
      omega
  kept f hne := by
    show (Function.update state.1 fact _ f).id = (heap f).id
    rw [Function.update_of_ne fun hf ↦ hne (by rw [hf, hfact])]
    exact h.kept f hne
  distinct f hf g hg hzero hzero' heq := by
    change (Function.update state.1 fact _ f).id = (Function.update state.1 fact _ g).id at heq
    have hbefore : ∀ f ∈ visited ++ [fact], f ≠ fact → f ∈ visited := fun f hf hne ↦
      (List.mem_append.mp hf).resolve_right fun hf ↦ hne (List.mem_singleton.mp hf)
    -- the ids given before are less than the new one
    by_cases hf' : f = fact
    · by_cases hg' : g = fact
      · rw [hf', hg']
      · rw [hf', Function.update_self, Function.update_of_ne hg'] at heq
        exact absurd heq (h.id_lt g (hbefore g hg hg')).ne'
    · by_cases hg' : g = fact
      · rw [hg', Function.update_self, Function.update_of_ne hf'] at heq
        exact absurd heq (h.id_lt f (hbefore f hf hf')).ne
      · rw [Function.update_of_ne hf', Function.update_of_ne hg'] at heq
        exact h.distinct f (hbefore f hf hf') g (hbefore g hg hg') hzero hzero' heq

theorem id_eq_zero_iff (h : Visited heap visited state) :
    (state.1 fact).id = 0 ↔ fact ∉ visited ∧ (heap fact).id = 0 := by
  constructor
  · intro hzero
    have hnew : fact ∉ visited := fun hmem ↦ h.id_ne_zero fact hmem hzero
    exact ⟨hnew, by rwa [h.untouched fact hnew] at hzero⟩
  · rintro ⟨hnew, hzero⟩
    rwa [h.untouched fact hnew]

/-- What a visit does to the counter, if it does not overflow. -/
theorem step (h : Visited heap visited state)
    (hnew : fact ∉ visited → (heap fact).id = 0 → state.2 + 1 < 2 ^ 63)
    (hknown : (heap fact).id ≠ 0 → (heap fact).id + 1 < 2 ^ 63) :
    Visited heap (visited ++ [fact]) (assignIdInt64 state fact) ∧
      (fact ∈ visited → (assignIdInt64 state fact).2 = state.2) ∧
      (fact ∉ visited → (heap fact).id = 0 → (assignIdInt64 state fact).2 = state.2 + 1) ∧
      (fact ∉ visited → (heap fact).id ≠ 0 →
        (assignIdInt64 state fact).2 = max state.2 ((heap fact).id + 1)) := by
  have hpos := h.pos
  by_cases hzero : (state.1 fact).id = 0
  · obtain ⟨hout, hid⟩ := h.id_eq_zero_iff.mp hzero
    rw [assignIdInt64_new hzero, wrap64_of_pos (by omega) (hnew hout hid)]
    exact ⟨h.new hid, fun hmem ↦ absurd hmem hout, fun _ _ ↦ rfl, fun _ hne ↦ absurd hid hne⟩
  · rw [assignIdInt64_known hzero]
    by_cases hle : state.2 ≤ (state.1 fact).id
    · -- a fact with an id that has not been seen
      have hout : fact ∉ visited := fun hmem ↦ (h.id_lt fact hmem).not_ge hle
      have hheap := h.untouched fact hout
      rw [hheap] at hle hzero
      rw [hheap, if_pos hle, wrap64_of_pos (by omega) (hknown hzero)]
      refine ⟨h.known (by omega) (by rwa [hheap]) (by rw [hheap]; omega),
        fun hmem ↦ absurd hmem hout, fun _ hid ↦ absurd hid hzero, fun _ _ ↦ ?_⟩
      show (heap fact).id + 1 = _
      omega
    · rw [if_neg hle]
      refine ⟨h.known le_rfl hzero (by omega), fun _ ↦ rfl, fun hout hid ↦ ?_, fun hout hne ↦ ?_⟩
      · exact absurd (h.id_eq_zero_iff.mpr ⟨hout, hid⟩) hzero
      · rw [h.untouched fact hout] at hle
        omega

/-- With ids left, the visits to come go the same way. -/
theorem foldl (h : Visited heap visited state)
    (hcounter : state.2 + (newlyVisited heap visited visits).card < 2 ^ 63)
    (hknown : ∀ before fact left, visits = before ++ fact :: left → (heap fact).id ≠ 0 →
      (heap fact).id + 1 + (newlyVisited heap (visited ++ before ++ [fact]) left).card < 2 ^ 63) :
    Visited heap (visited ++ visits) (visits.foldl assignIdInt64 state) := by
  induction visits generalizing visited state with
  | nil => rwa [List.append_nil]
  | cons fact visits ih =>
    have hfirst := hknown [] fact visits rfl
    rw [List.append_nil] at hfirst
    obtain ⟨hstep, hold, hnew, hmax⟩ := @step heap state fact visited h
      (fun hout hid ↦ by rw [card_newlyVisited_cons hout hid] at hcounter; omega)
      (fun hid ↦ by have := hfirst hid; omega)
    have hcard : (assignIdInt64 state fact).2 +
        (newlyVisited heap (visited ++ [fact]) visits).card < 2 ^ 63 := by
      by_cases hmem : fact ∈ visited
      · rw [newlyVisited_cons_of_known (.inl hmem)] at hcounter
        rwa [hold hmem]
      · by_cases hid : (heap fact).id = 0
        · rw [card_newlyVisited_cons hmem hid] at hcounter
          rw [hnew hmem hid]
          omega
        · rw [newlyVisited_cons_of_known (.inr hid)] at hcounter
          have hleft := hfirst hid
          rw [hmax hmem hid]
          omega
    have hrest := ih hstep hcard fun before fact' left heq hid ↦ by
      have hall := hknown (fact :: before) fact' left (by rw [heq, List.cons_append]) hid
      rwa [← List.singleton_append, ← List.append_assoc] at hall
    rwa [List.append_assoc] at hrest

end Visited

/-- Ids that a fact has are kept, whatever becomes of the counter. -/
theorem id_foldl (h : (state.1 f).id ≠ 0) :
    ((visits.foldl assignIdInt64 state).1 f).id = (state.1 f).id := by
  induction visits generalizing state with
  | nil => rfl
  | cons fact visits ih =>
    have hstep : ((assignIdInt64 state fact).1 f).id = (state.1 f).id := by
      by_cases hzero : (state.1 fact).id = 0
      · have hne : f ≠ fact := by
          rintro rfl
          exact h hzero
        rw [assignIdInt64_new hzero]
        show (Function.update state.1 fact _ f).id = _
        rw [Function.update_of_ne hne]
      · rw [assignIdInt64_known hzero]
        split <;> rfl
    have hrest := ih (by rwa [hstep])
    rwa [hstep] at hrest

theorem counter_foldl_lt (h : state.2 < 2 ^ 63) :
    (visits.foldl assignIdInt64 state).2 < 2 ^ 63 := by
  induction visits generalizing state with
  | nil => exact h
  | cons fact visits ih =>
    refine ih ?_
    by_cases hzero : (state.1 fact).id = 0
    · rw [assignIdInt64_new hzero]
      exact wrap64_lt _
    · rw [assignIdInt64_known hzero]
      split
      · exact wrap64_lt _
      · exact h

/-- If the ids end below the counter, it has not overflown: it has counted every visit. -/
theorem Visited.idsLeft (h : Visited heap visited state) (hlt : state.2 < 2 ^ 63)
    (hbelow : ∀ f ∈ visits, ((visits.foldl assignIdInt64 state).1 f).id <
      (visits.foldl assignIdInt64 state).2) :
    state.2 + (newlyVisited heap visited visits).card ≤ (visits.foldl assignIdInt64 state).2 ∧
      ∀ before fact left, visits = before ++ fact :: left → (heap fact).id ≠ 0 →
        (heap fact).id + 1 + (newlyVisited heap (visited ++ before ++ [fact]) left).card ≤
          (visits.foldl assignIdInt64 state).2 := by
  induction visits generalizing visited state with
  | nil =>
    refine ⟨?_, fun before fact left heq _ ↦ absurd heq.symm (by simp)⟩
    have hnone : newlyVisited heap visited [] = ∅ := by
      ext f
      simp [mem_newlyVisited]
    rw [hnone]
    exact (add_zero _).le
  | cons fact visits ih =>
    have hfinal := @counter_foldl_lt state (fact :: visits) hlt
    have hself := hbelow fact List.mem_cons_self
    -- the id that is seen in this visit is the one in the end
    have hseen : fact ∉ visited → (heap fact).id = 0 → state.2 + 1 < 2 ^ 63 := by
      intro hout hid
      have hvalue : ((assignIdInt64 state fact).1 fact).id = state.2 := by
        rw [assignIdInt64_new (h.id_eq_zero_iff.mpr ⟨hout, hid⟩)]
        show (Function.update state.1 fact _ fact).id = _
        rw [Function.update_self]
      rw [List.foldl_cons, id_foldl (by rw [hvalue]; exact h.pos.ne'), hvalue] at hself
      rw [List.foldl_cons] at hfinal
      omega
    have hknown : (heap fact).id ≠ 0 → (heap fact).id + 1 < 2 ^ 63 := by
      intro hid
      have hkept := h.kept fact hid
      rw [id_foldl (by rwa [hkept]), hkept] at hself
      omega
    obtain ⟨hstep, hold, hnew, hmax⟩ := h.step hseen hknown
    obtain ⟨hcount, hrest⟩ := ih hstep (@counter_foldl_lt state [fact] hlt) fun f hf ↦
      hbelow f (List.mem_cons_of_mem _ hf)
    rw [List.foldl_cons]
    constructor
    · by_cases hmem : fact ∈ visited
      · rw [newlyVisited_cons_of_known (.inl hmem)]
        rwa [hold hmem] at hcount
      · by_cases hid : (heap fact).id = 0
        · rw [card_newlyVisited_cons hmem hid]
          rw [hnew hmem hid] at hcount
          omega
        · rw [newlyVisited_cons_of_known (.inr hid)]
          rw [hmax hmem hid] at hcount
          omega
    · intro before fact' left heq hid
      cases before with
      | nil =>
        rw [List.nil_append, List.cons.injEq] at heq
        obtain ⟨rfl, rfl⟩ := heq
        rw [List.append_nil]
        have hle : (heap fact).id + 1 ≤ (assignIdInt64 state fact).2 := by
          have hlt' := hstep.id_lt fact (List.mem_append_right _ (List.mem_singleton_self fact))
          rw [hstep.kept fact hid] at hlt'
          omega
        omega
      | cons first before =>
        rw [List.cons_append, List.cons.injEq] at heq
        obtain ⟨rfl, heq⟩ := heq
        have hall := hrest before fact' left heq hid
        rwa [List.append_assoc visited, List.singleton_append] at hall

end Counter

/-! ### Assignments that are right -/

/-- **What the assignment is for**: it ends, every fact that is reached has an id below the
counter, its own if it had one, and no two facts that had none share one. -/
def AssignsIds (heap : Heap) (root : FactPtr) (nextId : ℤ) : Prop :=
  ∃ depth state, assignNestedIdsInt64 depth root (heap, nextId) = some state ∧
    (∀ f, Reaches (nestedLinks heap) root f → (state.1 f).id ≠ 0 ∧ (state.1 f).id < state.2) ∧
    (∀ f, Reaches (nestedLinks heap) root f → (heap f).id ≠ 0 →
      (state.1 f).id = (heap f).id) ∧
    ∀ f g, Reaches (nestedLinks heap) root f → Reaches (nestedLinks heap) root g →
      (heap f).id = 0 → (heap g).id = 0 → (state.1 f).id = (state.1 g).id → f = g

section AssignsIds

variable {heap : Heap} {root : FactPtr} {nextId : ℤ}

/-- **Ids are assigned as they should be** exactly when no fact is reached from itself and there
are ids left. -/
theorem assignsIds_iff (hfinite : {f | Reaches (nestedLinks heap) root f}.Finite)
    (hpos : 0 < nextId) (hlt : nextId < 2 ^ 63) :
    AssignsIds heap root nextId ↔
      (∀ f, Reaches (nestedLinks heap) root f →
        ¬Relation.TransGen (Link (nestedLinks heap)) f f) ∧
      ∀ depth, EndsWithin (nestedLinks heap) depth root →
        HasIdsLeft heap nextId (preorder (nestedLinks heap) depth root) := by
  rw [← exists_endsWithin_iff hfinite]
  constructor
  · rintro ⟨depth, state, hrun, hids, -, -⟩
    obtain ⟨hends, rfl⟩ := (assignNestedIdsInt64_eq_some_iff rfl).mp hrun
    refine ⟨⟨depth, hends⟩, fun depth' hends' ↦ ?_⟩
    -- the order is the same within any depth that is enough
    have horder : preorder (nestedLinks heap) depth' root =
        preorder (nestedLinks heap) depth root := by
      rcases Nat.le_total depth depth' with hle | hle
      · exact preorder_eq hends hle
      · exact (preorder_eq hends' hle).symm
    rw [horder]
    obtain ⟨hcount, hknown⟩ := (Visited.start hpos).idsLeft hlt fun f hf ↦
      (hids f ((mem_preorder_iff hends).mp hf)).2
    have hfinal := @counter_foldl_lt (heap, nextId) (preorder (nestedLinks heap) depth root) hlt
    refine ⟨hcount.trans_lt hfinal, fun visited fact left heq hid ↦ ?_⟩
    exact (hknown visited fact left heq hid).trans_lt hfinal
  · rintro ⟨⟨depth, hends⟩, hleft⟩
    obtain ⟨hcount, hknown⟩ := hleft depth hends
    have hvisited := (Visited.start hpos).foldl hcount hknown
    rw [List.nil_append] at hvisited
    refine ⟨depth, _, (assignNestedIdsInt64_eq_some_iff rfl).mpr ⟨hends, rfl⟩, fun f hf ↦ ?_,
      fun f _ hid ↦ hvisited.kept f hid, fun f g hf hg hid hid' heq ↦ ?_⟩
    · have hmem := (mem_preorder_iff hends).mpr hf
      exact ⟨hvisited.id_ne_zero f hmem, hvisited.id_lt f hmem⟩
    · exact hvisited.distinct f ((mem_preorder_iff hends).mpr hf) g
        ((mem_preorder_iff hends).mpr hg) hid hid' heq

/-- A team with two members, one of whom is listed twice and one of whom has an id. -/
def teamHeap : Heap := fun f ↦
  if f = 1 then { fields := [("members", .factList [2, 3, 2])] }
  else if f = 3 then { id := 7 }
  else {}

/-- A fact that is an element of its own list, as a collection stored in one of its elements is. -/
def selfHeap : Heap := fun f ↦ if f = 1 then { fields := [("all", .factList [1])] } else {}

theorem reaches_teamHeap {f : FactPtr} (h : Reaches (nestedLinks teamHeap) 1 f) :
    f = 1 ∨ f = 2 ∨ f = 3 := by
  induction h with
  | refl => exact .inl rfl
  | tail _ hlink ih =>
    rcases ih with rfl | rfl | rfl
    · have hmem := (show _ ∈ [2, 3, 2] from hlink)
      simp only [List.mem_cons, List.not_mem_nil, or_false] at hmem
      tauto
    · exact absurd hlink List.not_mem_nil
    · exact absurd hlink List.not_mem_nil

/-- The ids of a team and its members are assigned, so none of them is reached from itself. -/
theorem assignsIds_team :
    AssignsIds teamHeap 1 1 ∧
      ∀ f, Reaches (nestedLinks teamHeap) 1 f →
        ¬Relation.TransGen (Link (nestedLinks teamHeap)) f f := by
  have hfinite : {f | Reaches (nestedLinks teamHeap) 1 f}.Finite := by
    refine (Set.toFinite {1, 2, 3}).subset fun f hf ↦ ?_
    rcases reaches_teamHeap hf with rfl | rfl | rfl <;> simp
  have hassigns : AssignsIds teamHeap 1 1 := by
    refine ⟨2, _, rfl, fun f hf ↦ ?_, fun f hf hid ↦ ?_, fun f g hf hg hid hid' ↦ ?_⟩
    · rcases reaches_teamHeap hf with rfl | rfl | rfl <;> decide
    · rcases reaches_teamHeap hf with rfl | rfl | rfl <;> revert hid <;> decide
    · rcases reaches_teamHeap hf with rfl | rfl | rfl <;>
        rcases reaches_teamHeap hg with rfl | rfl | rfl <;> revert hid hid' <;> decide
  exact ⟨hassigns, ((assignsIds_iff hfinite (by decide) (by decide)).mp hassigns).1⟩

/-- A fact that is an element of its own list is visited for ever, and behind a fact with the last
id of 64 bits there is no other. -/
theorem endless_ids :
    ¬AssignsIds selfHeap 1 1 ∧ ¬AssignsIds (fun _ ↦ { id := 2 ^ 63 - 1 }) 1 1 := by
  constructor
  · rintro ⟨depth, state, hrun, -⟩
    obtain ⟨hends, -⟩ := (assignNestedIdsInt64_eq_some_iff rfl).mp hrun
    exact hends.not_cycle (.single (show 1 ∈ [1] from List.mem_singleton_self 1))
  · rintro ⟨depth, state, hrun, hids, -⟩
    obtain ⟨hends, hstate⟩ := (assignNestedIdsInt64_eq_some_iff rfl).mp hrun
    -- the id is kept, and the counter is less than the bound
    have hlt := (hids 1 .refl).2
    have hcounter : state.2 < 2 ^ 63 := by
      rw [hstate]
      exact counter_foldl_lt (by decide)
    have hid : (state.1 1).id = 2 ^ 63 - 1 := by
      rw [hstate]
      exact id_foldl (by decide)
    rw [hid] at hlt
    exact absurd hcounter (by omega)

end AssignsIds

end RulesForge
