import Mathlib.Data.Set.Function
import RulesForge.Core.ValueEquality
import RulesForge.Rete.Emission

/-!
# Invariants of joins and terminal nodes

What the memory of a join holds, for the set `D` of tokens delivered to it and the set `R` of
facts on its right: the tokens and the facts themselves, and a child for every pair that
passes the test. While a change of one fact is under way some pairs may be out of date: the
exactness of the children is asserted for tokens that are not `stale` and facts that are not
`pending` only. A hashed join can find its entries as long as the recorded keys are those
the token or fact has now, and that much is required of every entry.

Each activation keeps the invariant, for the sets it changes to.
-/

namespace RulesForge

/-! ### Buckets -/

section Buckets

variable {α : Type} {factId : FactPtr → ℤ} {m : List (ConstraintValue × α)}
  {key : ConstraintValue}

theorem mem_bucket_iff (hm : ∀ {k a}, (k, a) ∈ m → k.isPlain) (hkey : key.isPlain) {a : α} :
    a ∈ bucket factId key m ↔ ∃ k, (k, a) ∈ m ∧ k.canonical = key.canonical := by
  simp only [bucket, List.mem_map, List.mem_filter, Prod.exists, exists_eq_right]
  refine exists_congr fun k ↦ and_congr_right fun hmem ↦ ?_
  exact constraintValueEquals_iff factId (hm hmem) hkey

theorem nodup_bucket (hnodup : (m.map Prod.snd).Nodup) : (bucket factId key m).Nodup :=
  hnodup.sublist (List.Sublist.map _ List.filter_sublist)

theorem nodup_snd_append (hnodup : (m.map Prod.snd).Nodup) {a : α} (ha : ∀ k, (k, a) ∉ m) :
    ((m ++ [(key, a)]).map Prod.snd).Nodup := by
  simp only [List.map_append, List.map_cons, List.map_nil]
  refine List.nodup_append.mpr ⟨hnodup, List.nodup_singleton a, ?_⟩
  intro x hx y hy heq
  rw [heq, List.mem_singleton.mp hy] at hx
  obtain ⟨⟨k, b⟩, hmem, rfl⟩ := List.mem_map.mp hx
  exact ha k hmem

variable [DecidableEq α]

/-- Erasing the only entry of an element, found under a key equal to its own. -/
theorem bucketErase_eq_filter (hnodup : (m.map Prod.snd).Nodup) {a : α}
    (hkey : ∀ k, (k, a) ∈ m → constraintValueEquals factId k key = true) :
    bucketErase factId key a m = m.filter (·.2 ≠ a) := by
  induction m with
  | nil => rfl
  | cons entry m ih =>
    obtain ⟨k, b⟩ := entry
    simp only [List.map_cons, List.nodup_cons] at hnodup
    simp only [bucketErase] at ih ⊢
    by_cases hb : b = a
    · subst hb
      have hfilter : m.filter (·.2 ≠ b) = m := by
        refine List.filter_eq_self.mpr fun e he ↦ ?_
        simp only [decide_eq_true_eq]
        exact fun heq ↦ hnodup.1 (heq ▸ List.mem_map_of_mem he)
      have hfilter' : List.filter (fun e ↦ decide (e.2 ≠ b)) ((k, b) :: m) = m := by
        rw [List.filter_cons_of_neg (by simp), hfilter]
      rw [hfilter', List.eraseP_cons_of_pos]
      simp [hkey k List.mem_cons_self]
    · rw [List.eraseP_cons_of_neg (by simp [hb]), List.filter_cons_of_pos (by simp [hb]),
        ih hnodup.2 fun k' hk' ↦ hkey k' (List.mem_cons_of_mem _ hk')]

end Buckets

/-! ### The invariants -/

/-- How the fact `p` changes a set of facts: the change that the nodes are told of. -/
inductive Change (p : FactPtr) (R R' : Set FactPtr) : PropagationType → Prop
  | assert : p ∉ R → p ∈ R' → Change p R R' .assert
  | retract : p ∈ R → p ∉ R' → Change p R R' .retract
  | modify : p ∈ R → p ∈ R' → Change p R R' .modify

theorem Change.mem {p : FactPtr} {R R' facts : Set FactPtr} {type : PropagationType}
    (h : Change p R R' type) (hR : R ⊆ facts) (hR' : R' ⊆ facts) : p ∈ facts := by
  cases h with
  | assert _ h => exact hR' h
  | retract h _ => exact hR h
  | modify h _ => exact hR h

section Invariants

variable (kb : KnowledgeBase) (base : Session) (c : JoinCondition)

/-- The memory of a terminal node holds the delivered tokens. -/
structure TerminalInv (D : Set TokenWME) (mem : NodeMemory) : Prop where
  nodup : mem.terminal.Nodup
  mem_terminal : ∀ w, w ∈ mem.terminal ↔ w ∈ D

/-- The memory of a cross product. -/
structure CrossProductInv (R : Set FactPtr) (stale : TokenWME → Prop) (pending : FactPtr → Prop)
    (D : Set TokenWME) (mem : NodeMemory) : Prop where
  left_nodup : mem.crossProductJoin.left.Nodup
  mem_left : ∀ w, w ∈ mem.crossProductJoin.left ↔ w ∈ D
  right_unique : AssocMap.Unique mem.crossProductJoin.right
  mem_right : ∀ id f, (id, f) ∈ mem.crossProductJoin.right ↔ f ∈ R ∧ id = (base.heap f).id
  children : ChildrenOk mem.leftToChildren
  matched : ∀ {w f}, (w, f) ∈ childPairs mem.leftToChildren → w ∈ D ∧ f ∈ R
  exact : ∀ {w f}, w ∈ D → f ∈ R → ¬ stale w → ¬ pending f →
    ((w, f) ∈ childPairs mem.leftToChildren ↔ checkCondition kb c base w f = true)

variable (leftHashKey : String × ℕ) (rightHashKey : String)

/-- The canonical key of a token in a hashed join. -/
def hashedLeftKey (w : TokenWME) : Option ConstraintValue :=
  (tokenKey base.heap leftHashKey w).map ConstraintValue.canonical

/-- The canonical key of a fact in a hashed join. -/
def hashedRightKey (f : FactPtr) : Option ConstraintValue :=
  (getField base.heap f rightHashKey).map ConstraintValue.canonical

/-- A token and a fact have equal keys. -/
def KeysMatch (w : TokenWME) (f : FactPtr) : Prop :=
  ∃ k, hashedLeftKey base leftHashKey w = some k ∧ hashedRightKey base rightHashKey f = some k

/-- The memory of a hashed join. -/
structure HashedInv (R : Set FactPtr) (stale : TokenWME → Prop) (pending : FactPtr → Prop)
    (D : Set TokenWME) (mem : NodeMemory) : Prop where
  left_nodup : (mem.hashedJoin.left.map Prod.snd).Nodup
  left_key : ∀ {k w}, (k, w) ∈ mem.hashedJoin.left →
    w ∈ D ∧ k.isPlain = true ∧ hashedLeftKey base leftHashKey w = some k.canonical
  left_complete : ∀ {w k}, w ∈ D → ¬ stale w → hashedLeftKey base leftHashKey w = some k →
    ∃ k', (k', w) ∈ mem.hashedJoin.left
  right_nodup : (mem.hashedJoin.right.map Prod.snd).Nodup
  right_key : ∀ {k f}, (k, f) ∈ mem.hashedJoin.right →
    f ∈ R ∧ k.isPlain = true ∧ hashedRightKey base rightHashKey f = some k.canonical
  right_complete : ∀ {f k}, f ∈ R → ¬ pending f → hashedRightKey base rightHashKey f = some k →
    ∃ k', (k', f) ∈ mem.hashedJoin.right
  children : ChildrenOk mem.leftToChildren
  matched : ∀ {w f}, (w, f) ∈ childPairs mem.leftToChildren →
    (∃ k, (k, w) ∈ mem.hashedJoin.left) ∧ (∃ k, (k, f) ∈ mem.hashedJoin.right) ∧
      KeysMatch base leftHashKey rightHashKey w f
  exact : ∀ {w f}, w ∈ D → f ∈ R → ¬ stale w → ¬ pending f →
    ((w, f) ∈ childPairs mem.leftToChildren ↔
      KeysMatch base leftHashKey rightHashKey w f ∧ checkCondition kb c base w f = true)

end Invariants

/-! ### Fewer stale tokens -/

section Shrink

variable {kb : KnowledgeBase} {base : Session} {c : JoinCondition} {R : Set FactPtr}
  {stale stale' : TokenWME → Prop} {pending pending' : FactPtr → Prop} {D : Set TokenWME}
  {mem : NodeMemory}

theorem CrossProductInv.shrink (h : CrossProductInv kb base c R stale pending D mem)
    (hstale : ∀ w ∈ D, stale w → stale' w) (hpending : ∀ f ∈ R, pending f → pending' f) :
    CrossProductInv kb base c R stale' pending' D mem :=
  { h with
    exact := fun hw hf hs hp ↦
      h.exact hw hf (fun hs' ↦ hs (hstale _ hw hs')) fun hp' ↦ hp (hpending _ hf hp') }

theorem HashedInv.shrink {leftHashKey : String × ℕ} {rightHashKey : String}
    (h : HashedInv kb base c leftHashKey rightHashKey R stale pending D mem)
    (hstale : ∀ w ∈ D, stale w → stale' w) (hpending : ∀ f ∈ R, pending f → pending' f) :
    HashedInv kb base c leftHashKey rightHashKey R stale' pending' D mem :=
  { h with
    left_complete := fun hw hs ↦ h.left_complete hw fun hs' ↦ hs (hstale _ hw hs')
    right_complete := fun hf hp ↦ h.right_complete hf fun hp' ↦ hp (hpending _ hf hp')
    exact := fun hw hf hs hp ↦
      h.exact hw hf (fun hs' ↦ hs (hstale _ hw hs')) fun hp' ↦ hp (hpending _ hf hp') }

end Shrink

/-! ### Empty memories -/

section Empty

variable {kb : KnowledgeBase} {base : Session} {c : JoinCondition} {stale : TokenWME → Prop}
  {pending : FactPtr → Prop}

theorem ChildrenOk.empty : ChildrenOk fun _ ↦ [] where
  shape h := absurd h List.not_mem_nil
  nodup _ := List.nodup_nil
  unique h := absurd h List.not_mem_nil

theorem CrossProductInv.empty : CrossProductInv kb base c ∅ stale pending ∅ {} where
  left_nodup := List.nodup_nil
  mem_left := by simp
  right_unique := AssocMap.unique_nil
  mem_right := by simp
  children := .empty
  matched := by simp [childPairs]
  exact hw := absurd hw (Set.notMem_empty _)

theorem HashedInv.empty {leftHashKey : String × ℕ} {rightHashKey : String} :
    HashedInv kb base c leftHashKey rightHashKey ∅ stale pending ∅ {} where
  left_nodup := List.nodup_nil
  left_key := by simp
  left_complete hw := absurd hw (Set.notMem_empty _)
  right_nodup := List.nodup_nil
  right_key := by simp
  right_complete hf := absurd hf (Set.notMem_empty _)
  children := .empty
  matched := by simp [childPairs]
  exact hw := absurd hw (Set.notMem_empty _)

end Empty

/-! ### Terminal nodes -/

section Terminal

variable {kb : KnowledgeBase} {base : Session} {logicalRetract : TokenWME → Session → Session}
  {n rule : ℕ} {D : Set TokenWME} {s : Session} {w : TokenWME}

@[simp]
theorem addActivation_base (s : Session) (a : Activation) :
    (s.addActivation kb a).base = s.base := by
  unfold Session.addActivation
  split <;> rfl

@[simp]
theorem addActivation_mem (s : Session) (a : Activation) : (s.addActivation kb a).mem = s.mem := by
  unfold Session.addActivation
  split <;> rfl

@[simp]
theorem applyAutoFocus_base (s : Session) : (applyAutoFocus kb rule s).base = s.base := by
  unfold applyAutoFocus
  dsimp only
  split <;> rfl

@[simp]
theorem applyAutoFocus_mem (s : Session) : (applyAutoFocus kb rule s).mem = s.mem := by
  unfold applyAutoFocus
  dsimp only
  split <;> rfl

variable (kb rule logicalRetract) in
theorem terminalLeft_assert (bindings : Bindings) (hinv : TerminalInv D (s.mem n)) (hw : w ∉ D) :
    let s' := terminalLeft kb logicalRetract n rule bindings w .assert s
    TerminalInv (insert w D) (s'.mem n) ∧ Effect {n} s s' := by
  have hnotin : w ∉ (s.mem n).terminal := fun hmem ↦ hw ((hinv.mem_terminal w).mp hmem)
  have hterminal : ((updateTerminal n (· ++ [w]) s).mem n).terminal = (s.mem n).terminal ++ [w] := by
    simp [updateTerminal]
  simp only [terminalLeft, if_neg hnotin]
  refine ⟨⟨?_, fun w' ↦ ?_⟩, ⟨?_, fun m hm ↦ ?_⟩⟩
  · simp only [applyAutoFocus_mem, addActivation_mem, hterminal]
    refine List.nodup_append.mpr ⟨hinv.nodup, List.nodup_singleton w, ?_⟩
    intro x hx y hy
    rw [List.mem_singleton.mp hy]
    exact ne_of_mem_of_not_mem hx hnotin
  · simp only [applyAutoFocus_mem, addActivation_mem, hterminal, List.mem_append,
      List.mem_singleton, hinv.mem_terminal, Set.mem_insert_iff]
    exact or_comm
  · simp only [applyAutoFocus_base, addActivation_base]
    rfl
  · simp only [applyAutoFocus_mem, addActivation_mem]
    simp [updateTerminal, Set.mem_singleton_iff.not.mp hm]

variable (kb rule) in
theorem terminalLeft_retract (bindings : Bindings)
    (hcallback : ∀ w s, s.base = base → logicalRetract w s = s)
    (hbase : s.base = base) (hinv : TerminalInv D (s.mem n)) :
    let s' := terminalLeft kb logicalRetract n rule bindings w .retract s
    TerminalInv (D \ {w}) (s'.mem n) ∧ Effect {n} s s' := by
  by_cases hw : w ∈ D
  swap
  · have hnotin : w ∉ (s.mem n).terminal := fun hmem ↦ hw ((hinv.mem_terminal w).mp hmem)
    have hresult : terminalLeft kb logicalRetract n rule bindings w .retract s = s := by
      simp only [terminalLeft, terminalRetract, if_neg hnotin]
      exact hcallback w s hbase
    rw [hresult, Set.sdiff_singleton_eq_self hw]
    exact ⟨hinv, Effect.refl _ s⟩
  have hin : w ∈ (s.mem n).terminal := (hinv.mem_terminal w).mpr hw
  set s₁ := (updateTerminal n (·.erase w) s).removeActivation (activationHash kb.hashes rule w)
    with hs₁
  have hresult : terminalLeft kb logicalRetract n rule bindings w .retract s = s₁ := by
    simp only [terminalLeft, terminalRetract, if_pos hin, ← hs₁]
    exact hcallback w s₁ hbase
  have hterminal : (s₁.mem n).terminal = (s.mem n).terminal.erase w := by
    simp [hs₁, updateTerminal, Session.removeActivation]
  rw [hresult]
  refine ⟨⟨?_, fun w' ↦ ?_⟩, ⟨rfl, fun m hm ↦ ?_⟩⟩
  · rw [hterminal]
    exact hinv.nodup.erase w
  · rw [hterminal, hinv.nodup.mem_erase_iff, hinv.mem_terminal, Set.mem_sdiff,
      Set.mem_singleton_iff]
    exact and_comm
  · simp [hs₁, updateTerminal, Session.removeActivation, Set.mem_singleton_iff.not.mp hm]

end Terminal

/-! ### Cross products -/

section CrossProduct

variable {kb : KnowledgeBase} {base : Session} {nodes : Set ℕ} {Ok : TokenWME → Prop}
  {Below Below' : Set TokenWME → (ℕ → NodeMemory) → Prop} {emit : Emission} {n : ℕ}
  {c : JoinCondition} {F R R' : Set FactPtr} {stale : TokenWME → Prop}
  {pending pending' : FactPtr → Prop} {D : Set TokenWME} {s : Session} {w : TokenWME}
  {p : FactPtr}

/-- The facts in the right memory. -/
theorem CrossProductInv.mem_facts {mem : NodeMemory}
    (hinv : CrossProductInv kb base c R stale pending D mem) (f : FactPtr) :
    f ∈ mem.crossProductJoin.right.map Prod.snd ↔ f ∈ R := by
  simp [hinv.mem_right]

theorem CrossProductInv.nodup_facts {mem : NodeMemory}
    (hinv : CrossProductInv kb base c R stale pending D mem) :
    (mem.crossProductJoin.right.map Prod.snd).Nodup := by
  refine List.Nodup.map_on ?_ (hinv.right_unique.of_map Prod.fst)
  rintro ⟨i, f⟩ hf ⟨j, g⟩ hg rfl
  rw [hinv.mem_right] at hf hg
  rw [hf.2, hg.2]

/-- The invariant after the pairs of one fact have been replaced. -/
theorem CrossProductInv.replace {mem mem' : NodeMemory}
    (hinv : CrossProductInv kb base c R stale pending D mem)
    (hleft : mem'.crossProductJoin.left = mem.crossProductJoin.left)
    (hunique : AssocMap.Unique mem'.crossProductJoin.right)
    (hright : ∀ id f, (id, f) ∈ mem'.crossProductJoin.right ↔ f ∈ R' ∧ id = (base.heap f).id)
    (hchildren : ChildrenOk mem'.leftToChildren)
    (hpairs : childPairs mem'.leftToChildren = (childPairs mem.leftToChildren \ {q | q.2 = p}) ∪
      {q | q.1 ∈ D ∧ q.2 = p ∧ p ∈ R' ∧ checkCondition kb c base q.1 p})
    (hR' : ∀ f ≠ p, (f ∈ R' ↔ f ∈ R)) (hpending : ∀ f ≠ p, pending f → pending' f) :
    CrossProductInv kb base c R' stale pending' D mem' where
  left_nodup := hleft ▸ hinv.left_nodup
  mem_left w := hleft ▸ hinv.mem_left w
  right_unique := hunique
  mem_right := hright
  children := hchildren
  matched := by
    intro w f hpair
    rw [hpairs] at hpair
    rcases hpair with ⟨hpair, hne⟩ | ⟨hw, rfl, hf, -⟩
    · exact ⟨(hinv.matched hpair).1, (hR' f hne).mpr (hinv.matched hpair).2⟩
    · exact ⟨hw, hf⟩
  exact := by
    intro w f hw hf hstale hpend
    rw [hpairs]
    by_cases hfp : f = p
    · subst hfp
      simp [hw, hf]
    · have hexact := hinv.exact hw ((hR' f hfp).mp hf) hstale fun h ↦ hpend (hpending f hfp h)
      simp [hfp, hexact]

variable (hemit : EmitSpec base nodes Ok Below emit) (hn : n ∉ nodes) (hbase : s.base = base)
  (hinv : CrossProductInv kb base c R stale pending D (s.mem n))
  (hbelow : Below (childTokens (s.mem n).leftToChildren) s.mem)

include hinv hemit hn hbelow hbase

theorem crossProductLeft_assert (hw : w ∉ D) (hok : ∀ f ∈ R, ∀ a, Ok (.mk a w f)) :
    let s' := crossProductLeft kb n emit c w .assert s
    CrossProductInv kb base c R stale pending (insert w D) (s'.mem n) ∧
      Below (childTokens (s'.mem n).leftToChildren) s'.mem ∧ Effect (insert n nodes) s s' := by
  have hnotin : w ∉ (s.mem n).crossProductJoin.left := fun h ↦ hw ((hinv.mem_left w).mp h)
  set s₁ := updateCrossProduct n (fun mem ↦ { mem with left := mem.left.insert w }) s with hs₁
  have hstate : JoinState Below n (childPairs (s.mem n).leftToChildren) s₁.mem :=
    JoinState.updateMem hemit hn ⟨hinv.children, rfl, hbelow⟩ fun _ ↦ rfl
  have hnew : ∀ f, (w, f) ∉ childPairs (s.mem n).leftToChildren :=
    fun f hmem ↦ hw (hinv.matched hmem).1
  obtain ⟨hstate', heffect⟩ := assertFacts_spec kb (c := c) (w := w) hemit hn
    (s := s₁) hbase hstate _ hinv.nodup_facts (fun f _ ↦ hnew f)
    fun f hf ↦ hok f ((hinv.mem_facts f).mp hf)
  have hresult : crossProductLeft kb n emit c w .assert s =
      assertFacts kb n emit c w ((s.mem n).crossProductJoin.right.map Prod.snd) s₁ := rfl
  rw [hresult]
  have hmem : (s₁.mem n).crossProductJoin =
      { (s.mem n).crossProductJoin with left := (s.mem n).crossProductJoin.left.insert w } := by
    simp [hs₁, updateCrossProduct]
  have hpairs := hstate'.pairs_eq
  have hcross := heffect.crossProductJoin.trans hmem
  refine ⟨⟨?_, ?_, ?_, ?_, hstate'.children, ?_, ?_⟩, hstate'.below, ?_⟩
  · rw [hcross]
    exact hinv.left_nodup.insert
  · intro w'
    simp [hcross, hinv.mem_left]
  · rw [hcross]
    exact hinv.right_unique
  · intro id f
    rw [hcross]
    exact hinv.mem_right id f
  · intro w' f hmem'
    rw [hpairs] at hmem'
    rcases hmem' with hmem' | ⟨rfl, hf, -⟩
    · exact ⟨Set.mem_insert_of_mem _ (hinv.matched hmem').1, (hinv.matched hmem').2⟩
    · exact ⟨Set.mem_insert _ _, (hinv.mem_facts f).mp hf⟩
  · intro w' f hw' hf hstale hpending
    rw [hpairs]
    simp only [Set.mem_union, Set.mem_ofPred_eq, hinv.mem_facts]
    rcases Set.mem_insert_iff.mp hw' with rfl | hw'
    · simp [hnew, hf]
    · have hne : w' ≠ w := ne_of_mem_of_not_mem hw' hw
      simp [hne, hinv.exact hw' hf hstale hpending]
  · exact (Effect.updateMem (Set.mem_insert n nodes) s _).trans heffect.effect

theorem crossProductLeft_retract (hid : Set.InjOn (fun f ↦ (base.heap f).id) R)
    (hok : ∀ f ∈ R, ∀ a, Ok (.mk a w f)) :
    let s' := crossProductLeft kb n emit c w .retract s
    CrossProductInv kb base c R stale pending (D \ {w}) (s'.mem n) ∧
      Below (childTokens (s'.mem n).leftToChildren) s'.mem ∧ Effect (insert n nodes) s s' := by
  by_cases hw : w ∈ D
  swap
  · have hnotin : w ∉ (s.mem n).crossProductJoin.left := fun h ↦ hw ((hinv.mem_left w).mp h)
    have hresult : crossProductLeft kb n emit c w .retract s = s := by
      simp [crossProductLeft, hnotin]
    rw [hresult, Set.sdiff_singleton_eq_self hw]
    exact ⟨hinv, hbelow, Effect.refl _ s⟩
  have hin : w ∈ (s.mem n).crossProductJoin.left := (hinv.mem_left w).mpr hw
  set s₁ := updateCrossProduct n (fun mem ↦ { mem with left := mem.left.erase w }) s with hs₁
  have hstate : JoinState Below n (childPairs (s.mem n).leftToChildren) s₁.mem :=
    JoinState.updateMem hemit hn ⟨hinv.children, rfl, hbelow⟩ fun _ ↦ rfl
  obtain ⟨hstate', heffect⟩ := retractFacts_spec kb (w := w) hemit hn (s := s₁) hbase
    hstate ((s.mem n).crossProductJoin.right.map Prod.snd)
    (fun f hf f' hpair heq ↦ hid (hinv.matched hpair).2 ((hinv.mem_facts f).mp hf) heq)
    fun f hf ↦ hok f ((hinv.mem_facts f).mp hf)
  have hresult : crossProductLeft kb n emit c w .retract s =
      retractFacts kb n emit w ((s.mem n).crossProductJoin.right.map Prod.snd) s₁ := by
    simp only [crossProductLeft, if_true, if_pos hin, hs₁]
  rw [hresult]
  have hmem : (s₁.mem n).crossProductJoin =
      { (s.mem n).crossProductJoin with left := (s.mem n).crossProductJoin.left.erase w } := by
    simp [hs₁, updateCrossProduct]
  have hpairs := hstate'.pairs_eq
  have hcross := heffect.crossProductJoin.trans hmem
  refine ⟨⟨?_, ?_, ?_, ?_, hstate'.children, ?_, ?_⟩, hstate'.below, ?_⟩
  · rw [hcross]
    exact hinv.left_nodup.erase w
  · intro w'
    simp [hcross, hinv.left_nodup.mem_erase_iff, hinv.mem_left, and_comm]
  · rw [hcross]
    exact hinv.right_unique
  · intro id f
    rw [hcross]
    exact hinv.mem_right id f
  · intro w' f hmem'
    rw [hpairs] at hmem'
    obtain ⟨hpair, hnot⟩ := hmem'
    refine ⟨⟨(hinv.matched hpair).1, ?_⟩, (hinv.matched hpair).2⟩
    rintro rfl
    exact hnot ⟨rfl, (hinv.mem_facts f).mpr (hinv.matched hpair).2⟩
  · rintro w' f ⟨hw', hne⟩ hf hstale hpending
    have hne : w' ≠ w := hne
    rw [hpairs]
    simp [hne, hinv.exact hw' hf hstale hpending]
  · exact (Effect.updateMem (Set.mem_insert n nodes) s _).trans heffect.effect

omit hbase hbelow in
/-- The old matches of the changed fact are retracted, from any state with these children. -/
theorem crossProduct_retractTokens (s₀ : Session) (hbase₀ : s₀.base = base)
    (hs₀ : JoinState Below n (childPairs (s.mem n).leftToChildren) s₀.mem)
    (hbridge : ∀ {D' mem}, (∀ a w, .mk a w p ∉ D') → Below D' mem → Below' D' mem)
    (hid : Set.InjOn (fun f ↦ (base.heap f).id) (insert p R))
    (hok : ∀ w ∈ D, ∀ a, Ok (.mk a w p)) :
    let s' := retractTokens kb n emit p (s.mem n).crossProductJoin.left s₀
    JoinState Below' n (childPairs (s.mem n).leftToChildren \ {q | q.2 = p}) s'.mem ∧
      JoinEffect n nodes s₀ s' := by
  obtain ⟨hs₁, heffect⟩ := retractTokens_spec kb hemit hn hbase₀ hs₀ (f := p)
    (s.mem n).crossProductJoin.left (fun w _ f' hpair heq ↦
      hid (Set.mem_insert_of_mem p (hinv.matched hpair).2) (Set.mem_insert p R) heq)
    fun w hw ↦ hok w ((hinv.mem_left w).mp hw)
  have hset : childPairs (s.mem n).leftToChildren \
        {q | q.1 ∈ (s.mem n).crossProductJoin.left ∧ q.2 = p} =
      childPairs (s.mem n).leftToChildren \ {q | q.2 = p} := by
    ext ⟨w, f⟩
    simp only [Set.mem_sdiff, Set.mem_ofPred_eq]
    refine and_congr_right fun hpair ↦ ?_
    simp [hinv.mem_left, (hinv.matched hpair).1]
  rw [hset] at hs₁
  exact ⟨hs₁.bridge hbridge fun w hw ↦ hw.2 rfl, heffect⟩

omit hemit hbase hbelow in
/-- The changed fact is entered and matched anew. -/
theorem crossProduct_assertTokens {s₁ : Session} (hemit' : EmitSpec base nodes Ok Below' emit)
    (hbase₁ : s₁.base = base)
    (hs₁ : JoinState Below' n (childPairs (s.mem n).leftToChildren \ {q | q.2 = p}) s₁.mem)
    (hcross : (s₁.mem n).crossProductJoin = (s.mem n).crossProductJoin)
    (hid : Set.InjOn (fun f ↦ (base.heap f).id) (insert p R)) (hp : p ∈ R')
    (hR' : ∀ f ≠ p, (f ∈ R' ↔ f ∈ R)) (hpending : ∀ f ≠ p, pending f → pending' f)
    (hok : ∀ w ∈ D, ∀ a, Ok (.mk a w p)) :
    let s' := assertTokens kb n emit c p (s.mem n).crossProductJoin.left
      (updateCrossProduct n (fun mem ↦ { mem with
        right := AssocMap.insert (base.heap p).id p mem.right }) s₁)
    CrossProductInv kb base c R' stale pending' D (s'.mem n) ∧
      Below' (childTokens (s'.mem n).leftToChildren) s'.mem ∧ Effect (insert n nodes) s₁ s' := by
  set s₂ := updateCrossProduct n (fun mem ↦ { mem with
    right := AssocMap.insert (base.heap p).id p mem.right }) s₁ with hs₂
  have hstate₂ : JoinState Below' n _ s₂.mem := JoinState.updateMem hemit' hn hs₁ fun _ ↦ rfl
  obtain ⟨hstate', heffect⟩ := assertTokens_spec kb (c := c) (f := p) hemit' hn (s := s₂)
    hbase₁ hstate₂ _ hinv.left_nodup (fun w _ hw ↦ hw.2 rfl) fun w hw ↦ hok w ((hinv.mem_left w).mp hw)
  have hmem : (s₂.mem n).crossProductJoin =
      { left := (s.mem n).crossProductJoin.left
        right := AssocMap.insert (base.heap p).id p (s.mem n).crossProductJoin.right } := by
    simp [hs₂, updateCrossProduct, hcross]
  have hcross' := heffect.crossProductJoin.trans hmem
  refine ⟨hinv.replace (by rw [hcross']) ?_ ?_ hstate'.children ?_ hR' hpending, hstate'.below, ?_⟩
  · rw [hcross']
    exact hinv.right_unique.insert _ _
  · intro id f
    simp only [hcross', AssocMap.mem_insert, hinv.mem_right]
    by_cases hfp : f = p
    · subst hfp
      simp only [hp, true_and, and_true]
      exact ⟨fun h ↦ h.elim (·.2.2) fun h ↦ h, .inr⟩
    · simp only [hfp, and_false, or_false, hR' f hfp]
      refine ⟨And.right, fun h ↦ ⟨?_, h⟩⟩
      rw [h.2]
      exact fun heq ↦ hfp (hid (Set.mem_insert_of_mem p h.1) (Set.mem_insert p R) heq)
  · rw [hstate'.pairs_eq]
    simp [hp, hinv.mem_left]
  · exact (Effect.updateMem (Set.mem_insert n nodes) s₁ _).trans heffect.effect

/-- A right activation brings the children up to date for the changed fact. -/
theorem crossProductRight_spec {type : PropagationType}
    (hemit' : EmitSpec base nodes Ok Below' emit)
    (hbridge : ∀ {D' mem}, (∀ a w, .mk a w p ∉ D') → Below D' mem → Below' D' mem)
    (hid : Set.InjOn (fun f ↦ (base.heap f).id) (insert p R)) (hchange : Change p R R' type)
    (hR' : ∀ f ≠ p, (f ∈ R' ↔ f ∈ R)) (hpending : ∀ f ≠ p, pending f → pending' f)
    (hok : ∀ w ∈ D, ∀ a, Ok (.mk a w p)) :
    let s' := crossProductRight kb n emit c p type s
    CrossProductInv kb base c R' stale pending' D (s'.mem n) ∧
      Below' (childTokens (s'.mem n).leftToChildren) s'.mem ∧ Effect (insert n nodes) s s' := by
  have hheap : s.heap = base.heap := by
    rw [← hbase]
    rfl
  have hcontains : AssocMap.contains (base.heap p).id (s.mem n).crossProductJoin.right = true ↔
      p ∈ R := by
    simp only [AssocMap.contains_iff, hinv.mem_right]
    refine ⟨?_, fun hp ↦ ⟨p, hp, rfl⟩⟩
    rintro ⟨f, hf, heq⟩
    rwa [hid (Set.mem_insert p R) (Set.mem_insert_of_mem p hf) heq]
  have hstate : JoinState Below n (childPairs (s.mem n).leftToChildren) s.mem :=
    ⟨hinv.children, rfl, hbelow⟩
  cases hchange with
  | assert hp hp' =>
    have hnone : ∀ w, (w, p) ∉ childPairs (s.mem n).leftToChildren :=
      fun w hw ↦ hp (hinv.matched hw).2
    have hset : childPairs (s.mem n).leftToChildren \ {q | q.2 = p} =
        childPairs (s.mem n).leftToChildren := by
      ext ⟨w, f⟩
      simp only [Set.mem_sdiff, Set.mem_ofPred_eq, and_iff_left_iff_imp]
      rintro hw rfl
      exact hnone w hw
    have hstate' := hstate.bridge hbridge hnone
    rw [← hset] at hstate'
    have hspec := crossProduct_assertTokens hn hinv hemit' hbase hstate' rfl hid hp' hR' hpending hok
    simpa [crossProductRight, hheap] using hspec
  | retract hp hp' =>
    set s₁ := updateCrossProduct n (fun mem ↦ { mem with
      right := AssocMap.erase (base.heap p).id mem.right }) s with hs₁
    obtain ⟨hstate', heffect⟩ := crossProduct_retractTokens hemit hn hinv s₁ hbase
      (JoinState.updateMem hemit hn hstate fun _ ↦ rfl) hbridge hid hok
    have hresult : crossProductRight kb n emit c p .retract s =
        retractTokens kb n emit p (s.mem n).crossProductJoin.left s₁ := by
      simp [crossProductRight, hheap, hcontains.mpr hp, hs₁]
    have hmem : (s₁.mem n).crossProductJoin =
        { left := (s.mem n).crossProductJoin.left
          right := AssocMap.erase (base.heap p).id (s.mem n).crossProductJoin.right } := by
      simp [hs₁, updateCrossProduct]
    have hcross' := heffect.crossProductJoin.trans hmem
    rw [hresult]
    refine ⟨hinv.replace (by rw [hcross']) ?_ ?_ hstate'.children ?_ hR' hpending, hstate'.below, ?_⟩
    · rw [hcross']
      exact hinv.right_unique.erase _
    · intro id f
      simp only [hcross', AssocMap.mem_erase, hinv.mem_right]
      by_cases hfp : f = p
      · subst hfp
        simp only [hp', false_and, iff_false]
        rintro ⟨hne, -, heq⟩
        exact hne heq
      · rw [hR' f hfp]
        refine ⟨And.right, fun h ↦ ⟨?_, h⟩⟩
        rw [h.2]
        exact fun heq ↦ hfp (hid (Set.mem_insert_of_mem p h.1) (Set.mem_insert p R) heq)
    · rw [hstate'.pairs_eq]
      simp [hp']
    · exact (Effect.updateMem (Set.mem_insert n nodes) s _).trans heffect.effect
  | modify hp hp' =>
    obtain ⟨hstate', heffect⟩ := crossProduct_retractTokens hemit hn hinv s hbase hstate hbridge hid
      hok
    have hspec := crossProduct_assertTokens hn hinv hemit' (heffect.effect.base.trans hbase)
      hstate' heffect.crossProductJoin hid hp' hR' hpending hok
    have hresult : crossProductRight kb n emit c p .modify s =
        assertTokens kb n emit c p (s.mem n).crossProductJoin.left
          (updateCrossProduct n (fun mem ↦ { mem with
            right := AssocMap.insert (base.heap p).id p mem.right })
            (retractTokens kb n emit p (s.mem n).crossProductJoin.left s)) := by
      simp [crossProductRight, hheap, hcontains.mpr hp]
    rw [hresult]
    exact ⟨hspec.1, hspec.2.1, heffect.effect.trans hspec.2.2⟩

end CrossProduct

end RulesForge
