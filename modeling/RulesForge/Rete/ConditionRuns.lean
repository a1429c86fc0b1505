import Mathlib.Logic.Relation
import RulesForge.Rete.JoinReadings

/-!
# Runs of a NOT or EXISTS node

A node on its own, with any children: its left and right memories are filled by activations in
any order, and between two activations facts are written in place. The conditions compare
fields, and the values compared are integers or texts; any of them may be missing.

A write must leave alone what the conditions read of the facts and the tokens in the memory,
but for the fact that the next activation is about (`WritesBeside`). The node then stays
**exact**: the ids kept for a token are those of the facts that match it, the index holds every
element once under its current key, and the children hold the tokens that pass
(`condition_exact`). It is not enough that the facts with the keys stay: `condition_key_fact`.
-/

namespace RulesForge

/-! ### Children -/

/-- The children of a node: how a token is handed to them, and what it means that they hold the
tokens of a set asserted and no others. The node's own memory is none of theirs. -/
structure Children (n : ℕ) where
  emit : Emission
  nodes : Set ℕ
  not_mem : n ∉ nodes
  Hold : Set TokenWME → (ℕ → NodeMemory) → Prop
  spec : ∀ base, EmitSpec base nodes (fun _ ↦ True) Hold emit
  unique : ∀ {D D' mem}, Hold D mem → Hold D' mem → D = D'

/-- A terminal node as the only child. -/
def Children.terminal (kb : KnowledgeBase) (rule : ℕ) (bindings : Bindings) {n m : ℕ}
    (hne : n ≠ m) : Children n where
  emit := terminalLeft kb (fun _ s ↦ s) m rule bindings
  nodes := {m}
  not_mem := hne
  Hold D mem := TerminalInv D (mem m)
  spec _ :=
    { assert := fun _ hinv hx _ ↦ terminalLeft_assert kb _ rule bindings hinv hx
      retract := fun hbase hinv _ ↦
        terminalLeft_retract kb rule bindings (fun _ _ _ ↦ rfl) hbase hinv
      congr := fun hmem hinv ↦ by rwa [hmem m rfl] }
  unique h h' := by
    ext w
    rw [← h.mem_terminal, h'.mem_terminal]

/-! ### Steps -/

section Steps

/-- The tokens and the facts in the memory. -/
def BetaConditionMem.tokens (mem : BetaConditionMem) : Set TokenWME :=
  {w | ∃ ids, (w, ids) ∈ mem.left}

def BetaConditionMem.facts (mem : BetaConditionMem) : Set FactPtr :=
  {f | ∃ id, (id, f) ∈ mem.right}

/-- A write in place. The ids of facts stay, what the conditions read of the facts in memory
stays but for the facts `changed`, and `keep` holds of the tokens in memory. -/
structure WritesBeside (keep : TokenWME → Heap → Heap → Prop) (c : JoinCondition)
    (mem : BetaConditionMem) (changed : Set FactPtr) (heap heap' : Heap) : Prop where
  id : ∀ f, (heap' f).id = (heap f).id
  token : ∀ w ∈ mem.tokens, keep w heap heap'
  fact : ∀ f ∈ mem.facts, f ∉ changed → c.factReading heap' f = c.factReading heap f

/-- What the conditions read through a token stays. -/
def KeepsReading (c : JoinCondition) (w : TokenWME) (heap heap' : Heap) : Prop :=
  c.tokenReading heap' w = c.tokenReading heap w

/-- The fact of a token that has its key stays. -/
def KeepsKeyFact (c : JoinCondition) (w : TokenWME) (heap heap' : Heap) : Prop :=
  ∀ key ∈ BetaNetworkBuilder.hashKey c.bindings c.joins, ∀ f ∈ w.getFactAtDepth key.1.2,
    heap' f = heap f

variable (kb : KnowledgeBase) (n : ℕ) (kind : ConditionKind) (c : JoinCondition) (d : ℕ)
  (children : Children n) (keep : TokenWME → Heap → Heap → Prop)

/-- An activation of the node, after a write. A token is asserted when it is not stored, and a
fact with the id of a stored one is that fact. -/
inductive ConditionStep : Session → Session → Prop
  | assert {s w heap} : WritesBeside keep c (s.mem n).betaCondition ∅ s.heap heap →
      w ∉ (s.mem n).betaCondition.tokens → d ≤ w.depth → IntsOrTexts (c.tokenReading heap w) →
      ConditionStep s (conditionLeft kb n children.emit kind c w .assert { s with heap })
  | retract {s w heap} : WritesBeside keep c (s.mem n).betaCondition ∅ s.heap heap →
      ConditionStep s (conditionLeft kb n children.emit kind c w .retract { s with heap })
  | right {s p heap} (type : PropagationType) :
      WritesBeside keep c (s.mem n).betaCondition {p} s.heap heap →
      (∀ f, ((heap p).id, f) ∈ (s.mem n).betaCondition.right → f = p) →
      IntsOrTexts (c.factReading heap p) →
      ConditionStep s (conditionRight kb n children.emit kind c p type { s with heap })

/-! ### Exactness -/

/-- The place of a stored element in its index: in the bucket of its key or among the elements
without one, once. A node without a key has no index. -/
structure Placed {α : Type} [DecidableEq α] (indexed : Bool) (key : Option ConstraintValue)
    (index : List (ConstraintValue × α)) (unindexed : List α) (a : α) : Prop where
  once : (index.map Prod.snd).count a + unindexed.count a = if indexed then 1 else 0
  bucket : ∀ k, (k, a) ∈ index ↔ key = some k
  unindexed : a ∈ unindexed ↔ key = none ∧ indexed = true

/-- The ids kept for the stored tokens are those of the stored facts that match. -/
def MatchesExact (mem : BetaConditionMem) (s : Session) : Prop :=
  ∀ w ids, (w, ids) ∈ mem.left → ids.Nodup ∧
    ∀ i, i ∈ ids ↔ ∃ f, (i, f) ∈ mem.right ∧ checkCondition kb c s w f = true

/-- What the memory of a node holds in every state of a run. -/
structure ConditionExact (s : Session) : Prop where
  matched : MatchesExact kb c (s.mem n).betaCondition s
  tokens : ∀ w ∈ (s.mem n).betaCondition.tokens,
    Placed c.isIndexed (conditionTokenKey c s.heap w) (s.mem n).betaCondition.leftIndex
      (s.mem n).betaCondition.leftUnindexed w
  facts : ∀ f ∈ (s.mem n).betaCondition.facts,
    Placed c.isIndexed (conditionFactKey c s.heap f) (s.mem n).betaCondition.rightIndex
      (s.mem n).betaCondition.rightUnindexed f
  children : children.Hold (passingTokens kind (s.mem n).betaCondition.left) s.mem

end Steps

/-! ### The invariant -/

section Invariant

variable {kb : KnowledgeBase} {n : ℕ} {kind : ConditionKind} {c : JoinCondition} {d : ℕ}
  {children : Children n} {s s' : Session} {w : TokenWME} {p f : FactPtr} {heap : Heap}
  {mem : BetaConditionMem}

theorem ConstraintValue.eq_of_canonical_eq {a b : ConstraintValue}
    (h : a.canonical = b.canonical) (hb : b.isIntOrText = true) : a = b := by
  rw [canonical_of_isIntOrText hb] at h
  subst h
  refine (canonical_of_isIntOrText ?_).symm
  cases a <;> first | rfl | cases hb

theorem eq_of_map_canonical_eq {x y : Option ConstraintValue}
    (h : x.map ConstraintValue.canonical = y.map ConstraintValue.canonical)
    (hy : ∀ v, y = some v → v.isIntOrText = true) : x = y := by
  cases x with
  | none =>
    cases y with
    | none => rfl
    | some b => simp at h
  | some a =>
    cases y with
    | none => simp at h
    | some b =>
      have hab : a.canonical = b.canonical := by simpa using h
      rw [ConstraintValue.eq_of_canonical_eq hab (hy b rfl)]

theorem isIntOrText_of_conditionTokenKey (h : IntsOrTexts (c.tokenReading heap w)) (v)
    (hv : conditionTokenKey c heap w = some v) : v.isIntOrText = true := by
  unfold conditionTokenKey at hv
  cases hkey : BetaNetworkBuilder.hashKey c.bindings c.joins with
  | none => simp [hkey] at hv
  | some key =>
    have hv' : tokenKey heap key.1 w = some v := by simpa [hkey] using hv
    exact h v (hv' ▸ tokenKey_mem_tokenReading hkey heap w)

theorem isIntOrText_of_conditionFactKey (h : IntsOrTexts (c.factReading heap f)) (v)
    (hv : conditionFactKey c heap f = some v) : v.isIntOrText = true := by
  unfold conditionFactKey at hv
  cases hkey : BetaNetworkBuilder.hashKey c.bindings c.joins with
  | none => simp [hkey] at hv
  | some key =>
    have hv' : getField heap f key.2 = some v := by simpa [hkey] using hv
    exact h v (hv' ▸ getField_mem_factReading hkey heap f)

/-- An indexed element is placed under its recorded key. -/
theorem IndexInv.placed {α : Type} [DecidableEq α] {indexed : Bool} {S : Set α}
    {keys : α → Option ConstraintValue} {index : List (ConstraintValue × α)} {unindexed : List α}
    (h : IndexInv indexed S keys index unindexed) {a : α} (ha : a ∈ S) :
    Placed indexed (keys a) index unindexed a where
  once := by
    have hindex : a ∈ index.map Prod.snd ↔ ∃ k, keys a = some k := by
      simp [h.mem_index, ha]
    rw [h.nodup.count, h.unindexed_nodup.count]
    cases hkeys : keys a with
    | some k =>
      have hnotin : a ∉ unindexed := fun hmem ↦ by simp [h.mem_unindexed, hkeys] at hmem
      rw [if_pos (hindex.mpr ⟨k, hkeys⟩), if_neg hnotin, (h.plain ha hkeys).2, if_pos rfl]
    | none =>
      have hnotin : a ∉ index.map Prod.snd := fun hmem ↦ by
        obtain ⟨k, hk⟩ := hindex.mp hmem
        rw [hkeys] at hk
        cases hk
      rw [if_neg hnotin, zero_add]
      simp [h.mem_unindexed, ha, hkeys]
  bucket k := by simp [h.mem_index, ha]
  unindexed := by simp [h.mem_unindexed, ha]

/-- What holds of the node between two activations. -/
structure ConditionNodeInv (kb : KnowledgeBase) (n : ℕ) (kind : ConditionKind) (c : JoinCondition)
    (d : ℕ) (children : Children n) (s : Session) : Prop where
  memory : ConditionInv kb s.base c (s.mem n).betaCondition.facts (fun _ ↦ False) (fun _ ↦ False)
    (s.mem n).betaCondition.tokens (s.mem n).betaCondition
  depth : ∀ w ∈ (s.mem n).betaCondition.tokens, d ≤ w.depth
  tokens : ∀ w ∈ (s.mem n).betaCondition.tokens, IntsOrTexts (c.tokenReading s.heap w)
  facts : ∀ f ∈ (s.mem n).betaCondition.facts, IntsOrTexts (c.factReading s.heap f)
  children : children.Hold (passingTokens kind (s.mem n).betaCondition.left) s.mem

variable {R : Set FactPtr}

theorem ConditionInv.facts_eq {base : Session} {stale : TokenWME → Prop}
    {pending : FactPtr → Prop} {D : Set TokenWME}
    (h : ConditionInv kb base c R stale pending D mem) : mem.facts = R := by
  ext f
  simp [BetaConditionMem.facts, h.mem_right]

theorem ConditionInv.tokens_eq {base : Session} {stale : TokenWME → Prop}
    {pending : FactPtr → Prop} {D : Set TokenWME}
    (h : ConditionInv kb base c R stale pending D mem) : mem.tokens = D :=
  Set.ext h.mem_left

/-- Stored facts are told apart by their ids. -/
theorem ConditionInv.injOn {base : Session} {stale : TokenWME → Prop}
    {pending : FactPtr → Prop} {D : Set TokenWME}
    (h : ConditionInv kb base c R stale pending D mem) :
    Set.InjOn (fun f ↦ (base.heap f).id) R := by
  intro f hf g hg heq
  have hf' := (h.mem_right (base.heap f).id f).mpr ⟨hf, rfl⟩
  have hg' := (h.mem_right (base.heap f).id g).mpr ⟨hg, heq⟩
  exact h.right_unique.eq_of_mem hf' hg'

/-- A token and a fact that match are looked up under each other's keys. -/
theorem compatible_of_checkCondition (hc : c.ComparesFields) (hbound : c.BoundBefore d)
    (hw : d ≤ w.depth) (htoken : IntsOrTexts (c.tokenReading s.heap w))
    (hfact : IntsOrTexts (c.factReading s.heap f)) (hcheck : checkCondition kb c s w f = true) :
    Compatible (currentLeftKey s.base c w) (currentRightKey s.base c f) := by
  cases hkey : BetaNetworkBuilder.hashKey c.bindings c.joins with
  | none =>
    have hnone : currentLeftKey s.base c w = none := by
      simp [currentLeftKey, conditionTokenKey, hkey]
    rw [hnone]
    exact compatible_none_left _
  | some key =>
    obtain ⟨l, r⟩ := key
    obtain ⟨join, hjoin, binding, -, hright, hlookup, -⟩ := CompiledNetwork.hashKey_mem hkey
    have hl : l.2 < w.depth := (hbound join hjoin binding l.1 l.2 hright hlookup).trans_le hw
    obtain ⟨v, hv, hv'⟩ := exists_key_of_checkCondition hc hkey hl htoken hfact hcheck
    have hleft : currentLeftKey s.base c w = some v.canonical := by
      simp only [currentLeftKey, conditionTokenKey, hkey, Option.bind_some]
      show (tokenKey s.heap l w).map ConstraintValue.canonical = some v.canonical
      rw [hv, Option.map_some]
    have hright : currentRightKey s.base c f = some v.canonical := by
      simp only [currentRightKey, conditionFactKey, hkey, Option.bind_some]
      show (getField s.heap f r).map ConstraintValue.canonical = some v.canonical
      rw [hv', Option.map_some]
    rw [hleft, hright]
    exact compatible_some.mpr rfl

/-- The node is exact where its invariant holds. -/
theorem ConditionNodeInv.exact (h : ConditionNodeInv kb n kind c d children s)
    (hc : c.ComparesFields) (hbound : c.BoundBefore d) : ConditionExact kb n kind c children s where
  matched := by
    intro w ids hmem
    refine ⟨h.memory.ids_nodup hmem, fun i ↦ ?_⟩
    have hw : w ∈ (s.mem n).betaCondition.tokens := ⟨ids, hmem⟩
    constructor
    · intro hi
      obtain ⟨f, hf, rfl⟩ := h.memory.ids_mem hmem hi
      exact ⟨f, (h.memory.mem_right _ _).mpr ⟨hf, rfl⟩,
        ((h.memory.exact hmem hf nofun nofun).mp hi).2⟩
    · rintro ⟨f, hf, hcheck⟩
      obtain ⟨hfR, rfl⟩ := (h.memory.mem_right _ _).mp hf
      exact (h.memory.exact hmem hfR nofun nofun).mpr ⟨compatible_of_checkCondition hc hbound
        (h.depth w hw) (h.tokens w hw) (h.facts f hfR) hcheck, hcheck⟩
  tokens := by
    intro w hw
    have hplaced := h.memory.left_index.placed hw
    have hkey : (s.mem n).betaCondition.leftKeys.lookup w = conditionTokenKey c s.heap w :=
      eq_of_map_canonical_eq (h.memory.left_current hw nofun)
        (isIntOrText_of_conditionTokenKey (h.tokens w hw))
    rwa [hkey] at hplaced
  facts := by
    intro f hf
    have hplaced := h.memory.right_index.placed hf
    have hkey : (s.mem n).betaCondition.rightKeys.lookup (s.base.heap f).id =
        conditionFactKey c s.heap f :=
      eq_of_map_canonical_eq (h.memory.right_current hf nofun)
        (isIntOrText_of_conditionFactKey (h.facts f hf))
    rwa [hkey] at hplaced
  children := h.children

/-! ### Writes -/

theorem conditionTokenKey_congr {heap' : Heap} (h : c.tokenReading heap' w = c.tokenReading heap w) :
    conditionTokenKey c heap' w = conditionTokenKey c heap w := by
  unfold conditionTokenKey
  cases hkey : BetaNetworkBuilder.hashKey c.bindings c.joins with
  | none => rfl
  | some key =>
    obtain ⟨join, hjoin, binding, -, hright, hlookup, -⟩ := CompiledNetwork.hashKey_mem hkey
    have hread := List.map_inj_left.mp h join hjoin
    simpa [JoinCondition.boundReading, hright, hlookup] using hread

theorem conditionFactKey_congr {heap' : Heap} (h : c.factReading heap' f = c.factReading heap f) :
    conditionFactKey c heap' f = conditionFactKey c heap f := by
  unfold conditionFactKey
  cases hkey : BetaNetworkBuilder.hashKey c.bindings c.joins with
  | none => rfl
  | some key =>
    obtain ⟨join, hjoin, -, -, -, -, hleft⟩ := CompiledNetwork.hashKey_mem hkey
    have hread := List.map_inj_left.mp h join hjoin
    simpa [hleft] using hread

/-- A write leaves the memory right but for the changed facts. -/
theorem ConditionNodeInv.write (h : ConditionNodeInv kb n kind c d children s)
    (hc : c.ComparesFields) (hbound : c.BoundBefore d) {changed : Set FactPtr}
    (hwrite : WritesBeside (KeepsReading c) c (s.mem n).betaCondition changed s.heap heap) :
    ConditionInv kb { s with heap }.base c (s.mem n).betaCondition.facts (fun _ ↦ False)
      (· ∈ changed) (s.mem n).betaCondition.tokens (s.mem n).betaCondition := by
  refine h.memory.rebase (fun f _ ↦ hwrite.id f) (fun w hw _ ↦ ?_) (fun f hf hf' ↦ ?_)
    fun w hw f hf _ hf' ↦ ?_
  · exact congrArg (Option.map ConstraintValue.canonical)
      (conditionTokenKey_congr (hwrite.token w hw))
  · exact congrArg (Option.map ConstraintValue.canonical)
      (conditionFactKey_congr (hwrite.fact f hf hf'))
  · exact checkCondition_congr_readings (s := s) hc hbound (h.depth w hw) (hwrite.token w hw)
      (hwrite.fact f hf hf') (h.facts f hf)

/-- The values read stay integers and texts. -/
theorem ConditionNodeInv.write_tokens (h : ConditionNodeInv kb n kind c d children s)
    {changed : Set FactPtr}
    (hwrite : WritesBeside (KeepsReading c) c (s.mem n).betaCondition changed s.heap heap) :
    ∀ w ∈ (s.mem n).betaCondition.tokens, IntsOrTexts (c.tokenReading heap w) := by
  intro w hw
  rw [hwrite.token w hw]
  exact h.tokens w hw

theorem ConditionNodeInv.write_facts (h : ConditionNodeInv kb n kind c d children s)
    {changed : Set FactPtr}
    (hwrite : WritesBeside (KeepsReading c) c (s.mem n).betaCondition changed s.heap heap) :
    ∀ f ∈ (s.mem n).betaCondition.facts, f ∉ changed → IntsOrTexts (c.factReading heap f) := by
  intro f hf hf'
  rw [hwrite.fact f hf hf']
  exact h.facts f hf

/-! ### The steps -/

/-- The node after a step, from what the step lemmas say of the memory and of the children. -/
theorem ConditionNodeInv.of_memory {base : Session} {D : Set TokenWME}
    (hmemory : ConditionInv kb base c R (fun _ ↦ False) (fun _ ↦ False) D (s.mem n).betaCondition)
    (hbase : s.base = base) (hdepth : ∀ w ∈ D, d ≤ w.depth)
    (htokens : ∀ w ∈ D, IntsOrTexts (c.tokenReading base.heap w))
    (hfacts : ∀ f ∈ R, IntsOrTexts (c.factReading base.heap f))
    (hchildren : children.Hold (passingTokens kind (s.mem n).betaCondition.left) s.mem) :
    ConditionNodeInv kb n kind c d children s := by
  subst hbase
  have hD := hmemory.tokens_eq
  have hR := hmemory.facts_eq
  subst hD hR
  exact ⟨hmemory, hdepth, htokens, hfacts, hchildren⟩

theorem ConditionNodeInv.assert (h : ConditionNodeInv kb n kind c d children s)
    (hc : c.ComparesFields) (hbound : c.BoundBefore d)
    (hwrite : WritesBeside (KeepsReading c) c (s.mem n).betaCondition ∅ s.heap heap)
    (hnew : w ∉ (s.mem n).betaCondition.tokens) (hdepth : d ≤ w.depth)
    (hvalues : IntsOrTexts (c.tokenReading heap w)) :
    ConditionNodeInv kb n kind c d children
      (conditionLeft kb n children.emit kind c w .assert { s with heap }) := by
  have hmemory := h.write hc hbound hwrite
  obtain ⟨hmemory', hhold, heffect⟩ := conditionLeft_assert (s := { s with heap }) (n := n)
    (children.spec _) children.not_mem rfl (hmemory.shrink (fun _ _ h ↦ h) fun _ _ h ↦ h)
    h.children trivial hnew hmemory.injOn fun k hk ↦
      ConstraintValue.isPlain_of_isIntOrText (isIntOrText_of_conditionTokenKey hvalues k hk)
  refine .of_memory hmemory' heffect.base ?_ ?_ ?_ hhold
  · intro w' hw'
    rcases Set.mem_insert_iff.mp hw' with rfl | hw'
    · exact hdepth
    · exact h.depth w' hw'
  · intro w' hw'
    rcases Set.mem_insert_iff.mp hw' with rfl | hw'
    · exact hvalues
    · exact h.write_tokens hwrite w' hw'
  · exact fun f hf ↦ h.write_facts hwrite f hf nofun

theorem ConditionNodeInv.retract (h : ConditionNodeInv kb n kind c d children s)
    (hc : c.ComparesFields) (hbound : c.BoundBefore d)
    (hwrite : WritesBeside (KeepsReading c) c (s.mem n).betaCondition ∅ s.heap heap) :
    ConditionNodeInv kb n kind c d children
      (conditionLeft kb n children.emit kind c w .retract { s with heap }) := by
  have hmemory := h.write hc hbound hwrite
  obtain ⟨hmemory', hhold, heffect⟩ := conditionLeft_retract (s := { s with heap }) (n := n)
    (w := w) (children.spec _) children.not_mem rfl
    (hmemory.shrink (fun _ _ h ↦ h) fun _ _ h ↦ h) h.children trivial
  refine .of_memory hmemory' heffect.base ?_ ?_ ?_ hhold
  · exact fun w' hw' ↦ h.depth w' hw'.1
  · exact fun w' hw' ↦ h.write_tokens hwrite w' hw'.1
  · exact fun f hf ↦ h.write_facts hwrite f hf nofun

/-- Retracting a fact that is not stored does nothing. -/
theorem conditionRight_retract_absent {emit : Emission}
    (hp : AssocMap.contains (s.heap p).id (s.mem n).betaCondition.right = false) :
    conditionRight kb n emit kind c p .retract s = s := by
  simp [conditionRight, factIds, hp]

/-- An assertion and a modification are handled alike. -/
theorem conditionRight_modify {emit : Emission} :
    conditionRight kb n emit kind c p .modify s = conditionRight kb n emit kind c p .assert s :=
  rfl

/-- A fact with the id of none of the others can be added to them. -/
theorem injOn_insert_of_forall (hR : Set.InjOn (fun f ↦ (heap f).id) R)
    (hp : ∀ g ∈ R, (heap g).id = (heap p).id → g = p) :
    Set.InjOn (fun f ↦ (heap f).id) (insert p R) := by
  intro f hf g hg heq
  rcases Set.mem_insert_iff.mp hf with hfp | hf' <;>
    rcases Set.mem_insert_iff.mp hg with hgp | hg'
  · rw [hfp, hgp]
  · exact hfp.trans (hp g hg' (hfp ▸ heq.symm)).symm
  · exact (hp f hf' (hgp ▸ heq)).trans hgp.symm
  · exact hR hf' hg' heq

/-- A right activation that changes the stored facts to `R'`. -/
theorem ConditionNodeInv.change (h : ConditionNodeInv kb n kind c d children s)
    (hc : c.ComparesFields) (hbound : c.BoundBefore d)
    (hwrite : WritesBeside (KeepsReading c) c (s.mem n).betaCondition {p} s.heap heap)
    (hid : ∀ f, ((heap p).id, f) ∈ (s.mem n).betaCondition.right → f = p)
    (hvalues : IntsOrTexts (c.factReading heap p)) (type : PropagationType) (R' : Set FactPtr)
    (hchange : Change p (s.mem n).betaCondition.facts R' type)
    (hR' : ∀ f ≠ p, f ∈ R' ↔ f ∈ (s.mem n).betaCondition.facts) :
    ConditionNodeInv kb n kind c d children
      (conditionRight kb n children.emit kind c p type { s with heap }) := by
  have hmemory := h.write hc hbound hwrite
  have hinj : Set.InjOn (fun f ↦ (heap f).id) (insert p (s.mem n).betaCondition.facts) :=
    injOn_insert_of_forall hmemory.injOn fun g hg heq ↦
      hid g ((hmemory.mem_right _ _).mpr ⟨hg, heq.symm⟩)
  obtain ⟨hmemory', hhold, heffect⟩ := conditionRight_spec (s := { s with heap }) (n := n) (p := p)
    (children.spec _) children.not_mem rfl hmemory h.children (fun _ _ ↦ trivial) hinj hchange hR'
    (fun f hf hf' ↦ show False from hf hf') fun k hk ↦
      ConstraintValue.isPlain_of_isIntOrText (isIntOrText_of_conditionFactKey hvalues k hk)
  refine .of_memory hmemory' heffect.base h.depth (h.write_tokens hwrite) ?_ hhold
  intro f hf
  by_cases hfp : f = p
  · exact hfp ▸ hvalues
  · exact h.write_facts hwrite f ((hR' f hfp).mp hf) hfp

theorem ConditionNodeInv.right (h : ConditionNodeInv kb n kind c d children s)
    (hc : c.ComparesFields) (hbound : c.BoundBefore d)
    (hwrite : WritesBeside (KeepsReading c) c (s.mem n).betaCondition {p} s.heap heap)
    (hid : ∀ f, ((heap p).id, f) ∈ (s.mem n).betaCondition.right → f = p)
    (hvalues : IntsOrTexts (c.factReading heap p)) (type : PropagationType) :
    ConditionNodeInv kb n kind c d children
      (conditionRight kb n children.emit kind c p type { s with heap }) := by
  have hchange := h.change hc hbound hwrite hid hvalues
  by_cases hp : p ∈ (s.mem n).betaCondition.facts
  · have hmodify := hchange .modify _ (.modify hp hp) fun _ _ ↦ Iff.rfl
    cases type with
    | assert => exact conditionRight_modify ▸ hmodify
    | modify => exact hmodify
    | retract =>
      refine hchange .retract ((s.mem n).betaCondition.facts \ {p}) (.retract hp (by simp)) ?_
      intro f hf
      simp [hf]
  · have hassert := hchange .assert (insert p (s.mem n).betaCondition.facts)
      (.assert hp (Set.mem_insert p _)) fun f hf ↦ by simp [hf]
    cases type with
    | assert => exact hassert
    | modify => exact conditionRight_modify ▸ hassert
    | retract =>
      have habsent : AssocMap.contains (heap p).id (s.mem n).betaCondition.right = false := by
        rw [Bool.eq_false_iff]
        intro hcontains
        obtain ⟨f, hf⟩ := AssocMap.contains_iff.mp hcontains
        exact hp ⟨_, hid f hf ▸ hf⟩
      rw [conditionRight_retract_absent habsent]
      refine .of_memory (h.write hc hbound hwrite |>.shrink (fun _ _ h ↦ h) ?_) rfl h.depth
        (h.write_tokens hwrite) (fun f hf ↦ h.write_facts hwrite f hf ?_) h.children
      · rintro f hf rfl
        exact hp hf
      · rintro rfl
        exact hp hf

theorem ConditionNodeInv.step (h : ConditionNodeInv kb n kind c d children s)
    (hc : c.ComparesFields) (hbound : c.BoundBefore d)
    (hstep : ConditionStep kb n kind c d children (KeepsReading c) s s') :
    ConditionNodeInv kb n kind c d children s' := by
  cases hstep with
  | assert hwrite hnew hdepth hvalues => exact h.assert hc hbound hwrite hnew hdepth hvalues
  | retract hwrite => exact h.retract hc hbound hwrite
  | right type hwrite hid hvalues => exact h.right hc hbound hwrite hid hvalues type

theorem ConditionNodeInv.start (hempty : (s.mem n).betaCondition = {})
    (hhold : children.Hold ∅ s.mem) : ConditionNodeInv kb n kind c d children s := by
  have hpassing : passingTokens kind (s.mem n).betaCondition.left = ∅ := by
    rw [hempty]
    ext w
    simp [passingTokens]
  refine .of_memory (hempty ▸ ConditionInv.empty) rfl ?_ ?_ ?_ (hpassing ▸ hhold)
  · exact fun w hw ↦ absurd hw (Set.notMem_empty w)
  · exact fun w hw ↦ absurd hw (Set.notMem_empty w)
  · exact fun f hf ↦ absurd hf (Set.notMem_empty f)

end Invariant

/-! ### Runs -/

section Runs

variable {kb : KnowledgeBase} {n : ℕ} {kind : ConditionKind} {c : JoinCondition} {d : ℕ}
  {children : Children n} {s s' : Session}

/-- A node that starts empty is exact after every run. -/
theorem condition_exact (hc : c.ComparesFields) (hbound : c.BoundBefore d)
    (hempty : (s.mem n).betaCondition = {}) (hhold : children.Hold ∅ s.mem)
    (hrun : Relation.ReflTransGen (ConditionStep kb n kind c d children (KeepsReading c)) s s') :
    ConditionExact kb n kind c children s' := by
  have hinv : ConditionNodeInv kb n kind c d children s' := by
    induction hrun with
    | refl => exact .start hempty hhold
    | tail _ hstep ih => exact ih.step hc hbound hstep
  exact hinv.exact hc hbound

end Runs

variable {keep : TokenWME → Heap → Heap → Prop}

theorem WritesBeside.refl {c : JoinCondition}
    {mem : BetaConditionMem} {changed : Set FactPtr} {heap : Heap}
    (hkeep : ∀ w, keep w heap heap) : WritesBeside keep c mem changed heap heap :=
  ⟨fun _ ↦ rfl, fun w _ ↦ hkeep w, fun _ _ _ ↦ rfl⟩

/-- `$o : Order() $p : Part() not Stock(order == $o.key, amount == $p.amount)`. -/
def stockJoin : JoinCondition where
  joins :=
    [{ leftField := "order", op := .eq, rightBoundField := some ("$o", "key") },
      { leftField := "amount", op := .eq, rightBoundField := some ("$p", "amount") }]
  bindings := [("$o", 0), ("$p", 1)]
  scalarFields := []

/-- The same without the order, and with an inequality. -/
def looseStockJoin : JoinCondition :=
  { stockJoin with
    joins := [{ leftField := "amount", op := .lt, rightBoundField := some ("$p", "amount") }] }

def stockBase : KnowledgeBase where
  rules := [{ name := "stock" }]
  network := {}
  runtime := noExpressions
  hashes := ⟨fun p ↦ p, fun w ↦ w.depth, fun rule ↦ rule⟩
  validate := fun _ ↦ true
  nestingLimit := 1

/-- An order, a part of some amount, and stock. -/
def stockHeap (part stock : ℤ) : Heap
  | 1 => { id := 1, fields := [("key", .int64 1)] }
  | 2 => { id := 2, fields := [("amount", .int64 part)] }
  | 3 => { id := 3, fields := [("order", .int64 1), ("amount", .int64 stock)] }
  | p => { id := p }

def stockToken : TokenWME := .mk 2 (.mk 1 .root 1) 2

def stockChildren : Children 0 := .terminal stockBase 0 [("$o", 0), ("$p", 1)] Nat.zero_ne_one

/-- The token has arrived. -/
def stockAsked (c : JoinCondition) : Session :=
  conditionLeft stockBase 0 stockChildren.emit .not c stockToken .assert { heap := stockHeap 5 5 }

/-- The stock has arrived. -/
def stockFound : Session :=
  conditionRight stockBase 0 stockChildren.emit .not stockJoin 3 .assert (stockAsked stockJoin)

theorem stockJoin_comparesFields : stockJoin.ComparesFields := by
  intro join hjoin
  simp only [stockJoin, List.mem_cons, List.not_mem_nil, or_false] at hjoin
  rcases hjoin with rfl | rfl
  · exact ⟨rfl, rfl, "$o", "key", 0, rfl, rfl⟩
  · exact ⟨rfl, rfl, "$p", "amount", 1, rfl, rfl⟩

theorem stockJoin_boundBefore : stockJoin.BoundBefore 2 := by
  intro join hjoin binding field idx hright hlookup
  simp only [stockJoin, List.mem_cons, List.not_mem_nil, or_false] at hjoin
  rcases hjoin with rfl | rfl <;> cases hright <;> cases hlookup <;> omega

/-- The token and the stock arrive. -/
theorem stockFound_run (hkeep : ∀ w heap, keep w heap heap) :
    Relation.ReflTransGen (ConditionStep stockBase 0 .not stockJoin 2 stockChildren keep)
      { heap := stockHeap 5 5 } stockFound := by
  have hnew : stockToken ∉ BetaConditionMem.tokens {} := by simp [BetaConditionMem.tokens]
  have hasked : ConditionStep stockBase 0 .not stockJoin 2 stockChildren keep
      { heap := stockHeap 5 5 } (stockAsked stockJoin) :=
    .assert (.refl fun w ↦ hkeep w _) hnew (by decide) (by decide +kernel)
  have hfound : ConditionStep stockBase 0 .not stockJoin 2 stockChildren keep
      (stockAsked stockJoin) stockFound := by
    have hright : ((stockAsked stockJoin).mem 0).betaCondition.right = [] := by decide +kernel
    refine .right .assert (.refl fun w ↦ hkeep w _) (fun f hf ↦ ?_) (by decide +kernel)
    rw [hright] at hf
    cases hf
  exact .tail (.single hasked) hfound

theorem stockFound_left :
    (stockFound.mem 0).betaCondition.left = [(stockToken, [3])] := by decide +kernel

theorem stockFound_right : (stockFound.mem 0).betaCondition.right = [(3, 3)] := by decide +kernel

/-- A write to the part or to the stock, as the node with the token and the stock sees it. -/
theorem stockFound_writes {part stock : ℤ}
    {changed : Set FactPtr} (hkeep : keep stockToken (stockHeap 5 5) (stockHeap part stock))
    (hchanged : 3 ∉ changed → stock = 5) :
    WritesBeside keep stockJoin (stockFound.mem 0).betaCondition changed stockFound.heap
      (stockHeap part stock) where
  id f := by
    show (stockHeap part stock f).id = (stockHeap 5 5 f).id
    unfold stockHeap
    split <;> rfl
  token := by
    rintro w ⟨ids, hmem⟩
    rw [stockFound_left, List.mem_singleton] at hmem
    cases hmem
    exact hkeep
  fact := by
    rintro f ⟨id, hmem⟩ hf
    rw [stockFound_right, List.mem_singleton] at hmem
    cases hmem
    rw [hchanged hf]
    rfl

theorem stockFound_ids {p : FactPtr} (hp : (3 : ℤ) = (stockHeap 5 5 p).id → p = 3) :
    ∀ f, ((stockHeap 5 5 p).id, f) ∈ (stockFound.mem 0).betaCondition.right → f = p := by
  intro f hf
  rw [stockFound_right, List.mem_singleton, Prod.mk.injEq] at hf
  rw [hf.2, hp hf.1.symm]

/-- The stock found is taken: its amount changes, and the node is told. -/
theorem condition_exact_stock :
    ConditionExact stockBase 0 .not stockJoin stockChildren
      (conditionRight stockBase 0 stockChildren.emit .not stockJoin 3 .modify
        { stockFound with heap := stockHeap 5 0 }) :=
  condition_exact stockJoin_comparesFields stockJoin_boundBefore rfl
    ⟨List.nodup_nil, by simp⟩
    (.tail (stockFound_run fun _ _ ↦ rfl)
      (.right .modify (stockFound_writes rfl fun h ↦ absurd rfl h)
        (stockFound_ids fun _ ↦ rfl) (by decide +kernel)))

/-- It is not enough that the facts with the keys of the stored tokens stay: here the part of a
stored token is changed, and the stock kept for the token does not match any more. A token of a
node without a key is in no place of the index. -/
theorem condition_key_fact :
    (stockJoin.ComparesFields ∧ stockJoin.BoundBefore 2 ∧
      ∃ s s', (s.mem 0).betaCondition = {} ∧ stockChildren.Hold ∅ s.mem ∧
        Relation.ReflTransGen (ConditionStep stockBase 0 .not stockJoin 2 stockChildren
          (KeepsKeyFact stockJoin)) s s' ∧
        ¬ MatchesExact stockBase stockJoin (s'.mem 0).betaCondition s') ∧
    (looseStockJoin.ComparesFields ∧ looseStockJoin.BoundBefore 2 ∧
      ∃ s s', (s.mem 0).betaCondition = {} ∧ stockChildren.Hold ∅ s.mem ∧
        Relation.ReflTransGen (ConditionStep stockBase 0 .not looseStockJoin 2 stockChildren
          (KeepsKeyFact looseStockJoin)) s s' ∧
        ∃ w ∈ (s'.mem 0).betaCondition.tokens,
          ((s'.mem 0).betaCondition.leftIndex.map Prod.snd).count w +
            (s'.mem 0).betaCondition.leftUnindexed.count w = 0) := by
  have hhold : stockChildren.Hold ∅ fun _ ↦ {} := ⟨List.nodup_nil, by simp⟩
  refine ⟨⟨stockJoin_comparesFields, stockJoin_boundBefore, { heap := stockHeap 5 5 },
    conditionRight stockBase 0 stockChildren.emit .not stockJoin 4 .assert
      { stockFound with heap := stockHeap 6 5 }, rfl, hhold, ?_, ?_⟩, ?_, ?_,
    { heap := stockHeap 5 5 }, stockAsked looseStockJoin, rfl, hhold, ?_, ?_⟩
  · refine .tail (stockFound_run fun _ _ _ _ _ _ ↦ rfl) (.right .assert
      (stockFound_writes ?_ fun _ ↦ rfl) (stockFound_ids (p := 4) nofun) (by decide +kernel))
    -- The key of the token is that of the order, which is not written.
    intro key hkey f hf
    have hkey' : (("key", 0), "order") = key := Option.some_inj.mp hkey
    subst hkey'
    have hf' : 1 = f := Option.some_inj.mp hf
    subst hf'
    rfl
  · intro hexact
    have hleft : ((conditionRight stockBase 0 stockChildren.emit .not stockJoin 4 .assert
        { stockFound with heap := stockHeap 6 5 }).mem 0).betaCondition.left =
          [(stockToken, [3])] := by decide +kernel
    have hright : ((conditionRight stockBase 0 stockChildren.emit .not stockJoin 4 .assert
        { stockFound with heap := stockHeap 6 5 }).mem 0).betaCondition.right =
          [(3, 3), (4, 4)] := by decide +kernel
    obtain ⟨f, hf, hcheck⟩ := ((hexact stockToken [3] (by simp [hleft])).2 3).mp (by simp)
    have hf' : f = 3 := by simpa [hright] using hf
    subst hf'
    revert hcheck
    decide +kernel
  · intro join hjoin
    obtain rfl := List.mem_singleton.mp hjoin
    exact ⟨rfl, rfl, "$p", "amount", 1, rfl, rfl⟩
  · intro join hjoin binding field idx hright hlookup
    obtain rfl := List.mem_singleton.mp hjoin
    cases hright
    cases hlookup
    omega
  · have hnew : stockToken ∉ BetaConditionMem.tokens {} := by simp [BetaConditionMem.tokens]
    exact .single (.assert (.refl fun _ _ _ _ _ ↦ rfl) hnew (by decide) (by decide +kernel))
  · refine ⟨stockToken, ⟨[], ?_⟩, by decide +kernel⟩
    have hleft : ((stockAsked looseStockJoin).mem 0).betaCondition.left = [(stockToken, [])] := by
      decide +kernel
    simp [hleft]

end RulesForge
