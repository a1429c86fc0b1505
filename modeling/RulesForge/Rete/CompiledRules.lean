import RulesForge.Rete.DirectEvaluation
import RulesForge.Rete.NetworkShape

/-!
# The nodes of plain rules

What the compilation of plain rules adds to a network: alpha nodes and joins whose tests are
constraints of the rules, and one terminal node for each condition group, in order
(`compileNetwork_groups`). A node is shared only with a node of the same tests, and two routes
never lead to one entry point.
-/

namespace RulesForge

open CompiledNetwork

/-! ### Sharing of plain nodes -/

section Sharing

variable {kind : ParsedConstraint → ValueKind} {own : String} {constraints : Set ParsedConstraint}

theorem eq_of_literalEquals {a b : ConstraintValue} {valueKind : ValueKind}
    (hb : b.hasKind valueKind = true) (h : literalEquals a b = true) : a = b := by
  cases b with
  | int64 j =>
    cases a with
    | int64 i => simpa [literalEquals] using h
    | double d => cases d <;> simp [literalEquals] at h
    | _ => simp [literalEquals] at h
  | string t =>
    cases a with
    | string s => simpa [literalEquals] using h
    | double d => cases d <;> simp [literalEquals] at h
    | _ => simp [literalEquals] at h
  | _ => cases valueKind <;> simp [ConstraintValue.hasKind] at hb

theorem ParsedConstraint.Plain.eq_of_equals {c c' : ParsedConstraint} (hc : c.Plain kind own)
    (h : c'.equals c = true) : c' = c := by
  simp only [ParsedConstraint.equals, Bool.and_eq_true, decide_eq_true_eq] at h
  obtain ⟨⟨⟨⟨⟨⟨⟨⟨hop, hleft⟩, hfield⟩, hbinding⟩, hliteral⟩, hright⟩, hlist⟩, harith⟩, htemporal⟩ := h
  have hlist' : c'.rightValueList = c.rightValueList := by
    rw [hc.rightValueList] at hlist ⊢
    cases hnone : c'.rightValueList with
    | none => rfl
    | some l => simp [hnone, optionEquals] at hlist
  have hliteral' : c'.rightLiteral = c.rightLiteral := by
    rcases hc.right with ⟨v, hv, hkind, -⟩ | ⟨-, -, -, -, hnone, -⟩
    · rw [hv] at hliteral ⊢
      cases hsome : c'.rightLiteral with
      | none => simp [hsome, optionEquals] at hliteral
      | some v' =>
        rw [hsome] at hliteral
        rw [eq_of_literalEquals hkind hliteral]
    · rw [hnone] at hliteral ⊢
      cases hsome : c'.rightLiteral with
      | none => rfl
      | some v' => simp [hsome, optionEquals] at hliteral
  obtain ⟨⟩ := c
  obtain ⟨⟩ := c'
  simp_all

theorem ParsedConstraint.Plain.eq_of_shared {c c' : ParsedConstraint} (hc : c.Plain kind own)
    (h : SharedConstraint c' c) : c' = c :=
  h.elim id hc.eq_of_equals

theorem eq_of_listEquals {l l' : List ParsedConstraint} (hl : ∀ c ∈ l, c.Plain kind own)
    (h : listEquals ParsedConstraint.equals l' l = true) : l' = l := by
  induction l generalizing l' with
  | nil =>
    cases l' with
    | nil => rfl
    | cons c' l' => simp [listEquals] at h
  | cons c l ih =>
    cases l' with
    | nil => simp [listEquals] at h
    | cons c' l' =>
      simp only [listEquals, Bool.and_eq_true] at h
      rw [(hl c List.mem_cons_self).eq_of_equals h.1,
        ih (fun c hc ↦ hl c (List.mem_cons_of_mem _ hc)) h.2]

theorem JoinCondition.Plain.eq_of_equals {condition condition' : JoinCondition}
    (hplain : condition.Plain kind constraints own) (h : condition'.equals condition = true) :
    condition' = condition := by
  simp only [JoinCondition.equals, Bool.and_eq_true, decide_eq_true_eq] at h
  obtain ⟨⟨hjoins, hbindings⟩, hfields⟩ := h
  have hjoins' := eq_of_listEquals (fun c hc ↦ (hplain c hc).1) hjoins
  obtain ⟨⟩ := condition
  obtain ⟨⟩ := condition'
  simp_all

/-- A node that is shared for a plain condition is the node asked for. -/
theorem eq_of_sharedKind {condition : JoinCondition} (hplain : condition.Plain kind constraints own)
    {k k' : NodeKind} (hk : k.joinCondition = some condition) (h : SharedKind k' k) : k' = k := by
  rcases h with rfl | h
  · rfl
  · cases k with
    | crossProductJoin c =>
      obtain rfl : c = condition := by simpa [NodeKind.joinCondition] using hk
      cases k' with
      | crossProductJoin c' =>
        have heq : c'.equals c = true := h
        rw [hplain.eq_of_equals heq]
      | _ => simp [NodeKind.equals] at h
    | hashedJoin c l r =>
      obtain rfl : c = condition := by simpa [NodeKind.joinCondition] using hk
      cases k' with
      | hashedJoin c' l' r' =>
        simp only [NodeKind.equals, Bool.and_eq_true, decide_eq_true_eq] at h
        rw [hplain.eq_of_equals h.1.1, h.1.2, h.2]
      | _ => simp [NodeKind.equals] at h
    | condition conditionKind c =>
      obtain rfl : c = condition := by simpa [NodeKind.joinCondition] using hk
      cases k' with
      | condition conditionKind' c' =>
        simp only [NodeKind.equals, Bool.and_eq_true, decide_eq_true_eq] at h
        rw [hplain.eq_of_equals h.2, h.1]
      | _ => simp [NodeKind.equals] at h
    | _ => simp [NodeKind.joinCondition] at hk

end Sharing

/-! ### What a step of the builder adds -/

namespace CompiledNetwork

variable {net net' : CompiledNetwork} {P : NodeKind → Prop}

/-- No two routes lead to one entry point. -/
def EntriesInjective (net : CompiledNetwork) : Prop :=
  ∀ {source type source' type' n}, net.entry source type = some n →
    net.entry source' type' = some n → source = source' ∧ type = type'

/-- The new nodes are of certain kinds, and entry points stay apart. -/
structure Adds (P : NodeKind → Prop) (net net' : CompiledNetwork) : Prop where
  kinds : ∀ n, net'.kind n = net.kind n ∨ P (net'.kind n)
  entries : net.EntriesInjective → net'.EntriesInjective

theorem Adds.refl (P : NodeKind → Prop) (net : CompiledNetwork) : Adds P net net :=
  ⟨fun _ ↦ .inl rfl, fun h ↦ h⟩

theorem Adds.trans {net'' : CompiledNetwork} (h : Adds P net net') (h' : Adds P net' net'') :
    Adds P net net'' where
  kinds n := by
    rcases h'.kinds n with heq | hP
    · rw [heq]
      exact h.kinds n
    · exact .inr hP
  entries hinj := h'.entries (h.entries hinj)

theorem Adds.mono {Q : NodeKind → Prop} (h : Adds P net net') (hPQ : ∀ k, P k → Q k) :
    Adds Q net net' :=
  ⟨fun n ↦ (h.kinds n).imp_right (hPQ _), h.entries⟩

theorem foldl_addChild_kind (parents : List ℕ) (child m : ℕ) (net : CompiledNetwork) :
    (parents.foldl (fun net p ↦ net.addChild p child) net).kind m = net.kind m := by
  induction parents generalizing net with
  | nil => rfl
  | cons p parents ih => rw [List.foldl_cons, ih, addChild_kind]

theorem createNode_kinds {k : NodeKind} (hk : P k) (m : ℕ) :
    (net.createNode k).2.kind m = net.kind m ∨ P ((net.createNode k).2.kind m) := by
  rw [createNode_kind]
  split
  · exact .inr hk
  · exact .inl rfl

theorem foldl_addChild_entry (parents : List ℕ) (child : ℕ) (source : Option String) (type : String)
    (net : CompiledNetwork) :
    (parents.foldl (fun net p ↦ net.addChild p child) net).entry source type =
      net.entry source type := by
  induction parents generalizing net with
  | nil => rfl
  | cons p parents ih =>
    rw [List.foldl_cons, ih]
    rfl

theorem entryPoint_adds (hnet : net.WellFormed) (source : Option String) (factType : String) :
    Adds P net (net.entryPoint source factType).2 := by
  unfold entryPoint
  cases hentry : net.entry source factType with
  | some n => exact Adds.refl P net
  | none =>
    dsimp only
    set created := (net.createNode .entryPoint).2 with hcreated
    have hold : ∀ source' type', created.entry source' type' = net.entry source' type' :=
      fun _ _ ↦ rfl
    have hentries : ∀ source' type', (created.setEntry source factType net.nodes.length).entry
        source' type' = if source' = source ∧ type' = factType then some net.nodes.length
          else net.entry source' type' := by
      intro source' type'
      rw [entry_setEntry, hold]
    refine ⟨fun n ↦ .inl ?_, fun hinj ↦ ?_⟩
    · have hkind : (created.setEntry source factType net.nodes.length).kind n = created.kind n := by
        cases source <;> rfl
      change (created.setEntry source factType net.nodes.length).kind n = net.kind n
      rw [hkind, hcreated, createNode_kind]
      split
      · next hn => rw [kind_of_le net (by omega)]
      · rfl
    · intro a ta b tb n ha hb
      change (created.setEntry source factType net.nodes.length).entry a ta = some n at ha
      change (created.setEntry source factType net.nodes.length).entry b tb = some n at hb
      rw [hentries] at ha hb
      split at ha
      · next hsame =>
        split at hb
        · next hsame' => exact ⟨hsame.1.trans hsame'.1.symm, hsame.2.trans hsame'.2.symm⟩
        · have hlt := hnet.entry_lt hb
          obtain rfl := Option.some.inj ha
          exact absurd hlt (lt_irrefl _)
      · split at hb
        · have hlt := hnet.entry_lt ha
          obtain rfl := Option.some.inj hb
          exact absurd hlt (lt_irrefl _)
        · exact hinj ha hb

theorem findOrCreateAlpha_adds (parent : ℕ) {c : ParsedConstraint} (hc : P (.alpha c)) :
    Adds P net (net.findOrCreateAlpha parent c).2 := by
  unfold findOrCreateAlpha
  split
  · exact Adds.refl P net
  · refine ⟨fun n ↦ ?_, fun hinj ↦ hinj⟩
    have hkind : ((net.createNode (.alpha c)).2.addChild parent net.nodes.length).kind n =
        (net.createNode (.alpha c)).2.kind n := addChild_kind _ _ _ _
    change ((net.createNode (.alpha c)).2.addChild parent net.nodes.length).kind n = net.kind n ∨
      P (((net.createNode (.alpha c)).2.addChild parent net.nodes.length).kind n)
    rw [hkind]
    exact createNode_kinds hc n

theorem buildAlphaChain_adds (cs : List ParsedConstraint) (hcs : ∀ c ∈ cs, P (.alpha c))
    (tail : ℕ) : Adds P net (net.buildAlphaChain tail cs).2 := by
  induction cs generalizing net tail with
  | nil => exact Adds.refl P net
  | cons c cs ih =>
    have hfirst : Adds P net (net.findOrCreateAlpha tail c).2 :=
      findOrCreateAlpha_adds tail (hcs c List.mem_cons_self)
    exact hfirst.trans (ih (fun c hc ↦ hcs c (List.mem_cons_of_mem _ hc)) _)

theorem findOrCreateBetaNode_adds (parents : List ℕ) {k : NodeKind} (hk : P k) :
    Adds P net (net.findOrCreateBetaNode parents k).2 := by
  unfold findOrCreateBetaNode
  dsimp only
  split
  · exact Adds.refl P net
  · set added := parents.foldl (fun net' p ↦ net'.addChild p (net.createNode k).1)
      (net.createNode k).2 with hadded
    have hkind : ∀ m, added.kind m = (net.createNode k).2.kind m :=
      fun m ↦ foldl_addChild_kind parents _ m _
    have hentry : ∀ source type, added.entry source type = net.entry source type :=
      fun source type ↦ foldl_addChild_entry parents _ source type _
    have hadds : Adds P net added := by
      refine ⟨fun n ↦ ?_, fun hinj {_ _ _ _ _} ha hb ↦ ?_⟩
      · rw [hkind]
        exact createNode_kinds hk n
      · rw [hentry] at ha hb
        exact hinj ha hb
    split
    · exact ⟨hadds.kinds, hadds.entries⟩
    · exact ⟨hadds.kinds, hadds.entries⟩

end CompiledNetwork

/-! ### The builder on plain patterns -/

/-- A kind of node whose tests are constraints of a set. -/
structure ReadsTests (constraints : Set ParsedConstraint) (k : NodeKind) : Prop where
  alpha : ∀ c, k = .alpha c → c ∈ constraints
  joins : ∀ condition, k.joinCondition = some condition → ∀ c ∈ condition.joins, c ∈ constraints

theorem readsTests_terminal (constraints : Set ParsedConstraint) (rule : ℕ) (bindings : Bindings) :
    ReadsTests constraints (.terminal rule bindings) where
  alpha c h := by cases h
  joins condition h := by cases h

/-- The kinds of node that the builder makes for constraints of a set. -/
structure TestsFrom (constraints : Set ParsedConstraint) (k : NodeKind) : Prop extends
    ReadsTests constraints k where
  terminal : ∀ rule bindings, k ≠ .terminal rule bindings

theorem normalizeInlineBoundField_nil (c : ParsedConstraint) :
    normalizeInlineBoundField [] c = c := by
  obtain ⟨fieldBinding, leftBinding, leftField, op, rightLiteral, rightBoundField⟩ := c
  cases leftBinding <;> cases rightBoundField <;> rfl

/-- Without inline variables a pattern's constraints are installed as they stand. -/
theorem installedTests_nil (pattern : ParsedPattern) :
    installedTests [] pattern.constraintRoot =
      ⟨pattern.constraints.filter (!·.isJoin), pattern.constraints.filter (·.isJoin)⟩ := by
  unfold installedTests ParsedPattern.constraints
  cases pattern.constraintRoot with
  | none => rfl
  | some tree =>
    have hid : normalizeInlineBoundField [] = id := funext normalizeInlineBoundField_nil
    simp [partitionConstraints_eq, hid]

namespace BetaNetworkBuilder

variable {kind : ParsedConstraint → ValueKind} {constraints : Set ParsedConstraint}
  {b b' : BetaNetworkBuilder}

/-- The builder between two plain patterns: no inline variables, and every variable stands for a
position of the token. -/
structure Simple (b : BetaNetworkBuilder) : Prop extends b.Valid where
  inline : b.inlineBindingToField = []
  lt : ∀ {name idx}, b.bindingToIdx.lookup name = some idx → idx < b.patternDepth

/-- The condition that a node is built from, under the variables in scope. -/
def plainCondition (pattern : ParsedPattern) (bindings : Bindings) : JoinCondition :=
  ⟨pattern.constraints.filter (·.isJoin), bindings, []⟩

theorem collectInlineBindings_none (b : BetaNetworkBuilder) {leaves : List ParsedConstraint}
    (h : ∀ c ∈ leaves, c.fieldBinding = none) : b.collectInlineBindings leaves = b := by
  unfold collectInlineBindings
  induction leaves with
  | nil => rfl
  | cons c leaves ih =>
    rw [List.foldl_cons, h c List.mem_cons_self]
    exact ih fun c hc ↦ h c (List.mem_cons_of_mem _ hc)

theorem createNodeForPattern_adds (hb : b.Valid) (pattern : ParsedPattern)
    {nodeKind : Bool → JoinCondition → NodeKind} {P : NodeKind → Prop}
    (halpha : ∀ c ∈ (installedTests b.inlineBindingToField pattern.constraintRoot).alphas,
      P (.alpha c))
    (hbeta : P (nodeKind b.lastNode.isSome (b.joinConditionOf pattern))) :
    Adds P b.network (b.createNodeForPattern pattern nodeKind).network := by
  have hentry : Adds P b.network (b.network.entryPoint pattern.source pattern.factType).2 :=
    entryPoint_adds hb.shape.wellFormed pattern.source pattern.factType
  exact (hentry.trans (buildAlphaChain_adds _ halpha _)).trans (findOrCreateBetaNode_adds _ hbeta)

/-- The node of one plain pattern. -/
structure PlainNode (b b' : BetaNetworkBuilder) (reader : ParsedPattern) (k : NodeKind) (n : ℕ) :
    Prop where
  last : b'.lastNode = some n
  node : PatternNode b'.network reader.source reader.factType
    (reader.constraints.filter (!·.isJoin)) b.lastNode k n

/-- What is built for a pattern of plain constraints, without inline variables in scope. -/
theorem createNodeForPattern_plain (hb : b.Valid) (hinline : b.inlineBindingToField = [])
    {reader : ParsedPattern} (hconstraints : ∀ c ∈ reader.constraints, c ∈ constraints)
    {nodeKind : Bool → JoinCondition → NodeKind} (hkind : BuildsBeta nodeKind)
    (hfrom : ∀ hasLast condition, (nodeKind hasLast condition).joinCondition = some condition) :
    let b' := b.createNodeForPattern reader nodeKind
    b'.Valid ∧ Grows b.network b'.network ∧ Adds (TestsFrom constraints) b.network b'.network ∧
      ∃ n, PlainNode b b' reader
        (nodeKind b.lastNode.isSome (plainCondition reader b.bindingToIdx)) n := by
  have hcondition : b.joinConditionOf reader = plainCondition reader b.bindingToIdx := by
    rw [joinConditionOf, hinline, installedTests_nil, plainCondition]
  obtain ⟨hvalid, hgrows, n, hlast, hnode⟩ := createNodeForPattern_spec hb reader hkind
  rw [hcondition, hinline, installedTests_nil] at hnode
  refine ⟨hvalid, hgrows, createNodeForPattern_adds hb reader ?_ ?_, n, hlast, hnode⟩
  · rw [hinline, installedTests_nil]
    intro c hc
    have hmem := hconstraints c (List.mem_of_mem_filter hc)
    refine ⟨⟨fun c' hc' ↦ ?_, nofun⟩, nofun⟩
    obtain rfl := NodeKind.alpha.inj hc'
    exact hmem
  · have hbeta := (hkind.pattern b.lastNode.isSome (b.joinConditionOf reader)).isBetaNode
    refine ⟨⟨fun c hk ↦ ?_, fun condition hk c hc ↦ ?_⟩, fun rule bindings hk ↦ ?_⟩
    · rw [hk] at hbeta
      cases hbeta
    · rw [hfrom, hcondition] at hk
      obtain rfl := Option.some.inj hk
      exact hconstraints c (List.mem_of_mem_filter hc)
    · rw [hk] at hbeta
      cases hbeta

theorem standardKind_joinCondition (hasLast : Bool) (condition : JoinCondition) :
    (standardKind hasLast condition).joinCondition = some condition := by
  unfold standardKind
  split <;> rfl

/-- What the builder does with one plain pattern. -/
inductive PlainStep (b b' : BetaNetworkBuilder) (pattern reader : ParsedPattern) (n : ℕ) : Prop
  | standard : pattern.type = .standard → reader = pattern →
      b'.patternDepth = b.patternDepth + 1 → b'.bindingToIdx = (b.bindPattern pattern).bindingToIdx →
      PlainNode b b' reader
        (standardKind b.lastNode.isSome (plainCondition reader b'.bindingToIdx)) n →
      PlainStep b b' pattern reader n
  | condition (conditionKind : ConditionKind) :
      pattern.type = (match conditionKind with | .not => .not | .exists => .exists) →
      pattern.nestedPatterns = [reader] →
      b'.patternDepth = b.patternDepth → b'.bindingToIdx = b.bindingToIdx →
      PlainNode b b' reader (.condition conditionKind (plainCondition reader b.bindingToIdx)) n →
      PlainStep b b' pattern reader n

theorem bindPattern_eq (b : BetaNetworkBuilder) (pattern : ParsedPattern) :
    (b.bindPattern pattern).network = b.network ∧ (b.bindPattern pattern).lastNode = b.lastNode ∧
      (b.bindPattern pattern).inlineBindingToField = b.inlineBindingToField ∧
      (b.bindPattern pattern).patternDepth = b.patternDepth := by
  unfold bindPattern
  split <;> exact ⟨rfl, rfl, rfl, rfl⟩

theorem Simple.addPattern (hb : b.Simple) {pattern reader : ParsedPattern}
    (hp : PlainElement kind pattern reader)
    (hconstraints : ∀ c ∈ reader.constraints, c ∈ constraints)
    (h : b.addPattern pattern = .ok b') :
    b'.Simple ∧ Grows b.network b'.network ∧ Adds (TestsFrom constraints) b.network b'.network ∧
      ∃ n, PlainStep b b' pattern reader n := by
  have hnone : ∀ c ∈ pattern.constraints, c.fieldBinding = none := by
    cases hp with
    | standard _ _ hplain => exact fun c hc ↦ (hplain.constraints c hc).fieldBinding
    | nested _ hroot _ _ _ => simp [ParsedPattern.constraints, hroot]
  have henter : b.enterPattern pattern = b.bindPattern pattern :=
    collectInlineBindings_none _ hnone
  obtain ⟨hnetwork, hlast, hinline, hdepth⟩ := b.bindPattern_eq pattern
  have hvalid : (b.bindPattern pattern).Valid := henter ▸ hb.toValid.enterPattern pattern
  have hempty : (b.bindPattern pattern).inlineBindingToField = [] := hinline.trans hb.inline
  rcases addPattern_cases h with ⟨htype, rfl⟩ | ⟨conditionKind, nested, rest, hnested, hbinding,
    htype, rfl⟩
  · obtain rfl : reader = pattern := by
      cases hp with
      | standard _ _ _ => rfl
      | nested hor _ _ _ _ => simp [htype] at hor
    rw [henter]
    obtain ⟨hvalid', hgrows, hadds, n, hnode⟩ := createNodeForPattern_plain hvalid hempty
      hconstraints buildsBeta_standardKind standardKind_joinCondition
    rw [hnetwork] at hgrows hadds
    refine ⟨⟨⟨hvalid'.shape, hvalid'.last⟩, hempty, fun {name idx} hlookup ↦ ?_⟩, hgrows, hadds, n,
      .standard htype rfl rfl rfl ⟨hnode.last, ?_⟩⟩
    · change idx < b.patternDepth + 1
      change (b.bindPattern reader).bindingToIdx.lookup name = some idx at hlookup
      unfold bindPattern at hlookup
      split at hlookup
      · exact (hb.lt hlookup).trans (Nat.lt_succ_self _)
      · by_cases hname : name = reader.binding
        · subst hname
          rw [SortedMap.lookup_insert_self] at hlookup
          obtain rfl := Option.some.inj hlookup
          exact Nat.lt_succ_self _
        · rw [SortedMap.lookup_insert_ne hname] at hlookup
          exact (hb.lt hlookup).trans (Nat.lt_succ_self _)
    · have hnode' := hnode.node
      rw [hlast] at hnode'
      exact hnode'
  · obtain ⟨rfl, hreader⟩ : nested = reader ∧ pattern.nestedPatterns = [reader] := by
      cases hp with
      | standard hstandard _ _ =>
        rw [hstandard] at htype
        cases conditionKind <;> cases htype
      | nested _ _ hlist _ _ =>
        rw [hlist] at hnested
        exact ⟨(List.cons.inj hnested).1.symm, hlist⟩
    have hsame : b.bindPattern pattern = b := by simp [bindPattern, hbinding]
    rw [henter, hsame]
    obtain ⟨hvalid', hgrows, hadds, n, hnode⟩ := createNodeForPattern_plain hb.toValid hb.inline
      hconstraints (buildsBeta_condition conditionKind) fun _ _ ↦ rfl
    exact ⟨⟨hvalid', hb.inline, hb.lt⟩, hgrows, hadds, n,
      .condition conditionKind htype hreader rfl rfl hnode⟩

variable (kind constraints) in
/-- A condition group of plain patterns with constraints of a set. -/
structure PlainGroup (group : List ParsedPattern) : Prop where
  nonempty : group ≠ []
  element : ∀ pattern ∈ group, ∃ reader, PlainElement kind pattern reader ∧
    ∀ c ∈ reader.constraints, c ∈ constraints

theorem simple_start {net : CompiledNetwork} (hshape : net.Shape) :
    Simple { network := net } where
  toValid := valid_start hshape
  inline := rfl
  lt h := by cases h

theorem Simple.foldlM {patterns : List ParsedPattern} (hb : b.Simple)
    (hpatterns : ∀ pattern ∈ patterns, ∃ reader, PlainElement kind pattern reader ∧
      ∀ c ∈ reader.constraints, c ∈ constraints)
    (h : patterns.foldlM BetaNetworkBuilder.addPattern b = .ok b') :
    b'.Simple ∧ Grows b.network b'.network ∧ Adds (TestsFrom constraints) b.network b'.network ∧
      (patterns ≠ [] → b'.lastNode.isSome = true) := by
  induction patterns generalizing b with
  | nil =>
    obtain rfl := Except.ok.inj h
    exact ⟨hb, Grows.refl _, Adds.refl _ _, fun hne ↦ absurd rfl hne⟩
  | cons pattern patterns ih =>
    rw [List.foldlM_cons] at h
    cases hadd : b.addPattern pattern with
    | error e =>
      rw [hadd] at h
      cases h
    | ok b₁ =>
      rw [hadd] at h
      obtain ⟨reader, hp, hconstraints⟩ := hpatterns pattern List.mem_cons_self
      obtain ⟨hb₁, hgrows₁, hadds₁, n, hstep⟩ := hb.addPattern hp hconstraints hadd
      obtain ⟨hb', hgrows, hadds, hlast⟩ :=
        ih hb₁ (fun p hmem ↦ hpatterns p (List.mem_cons_of_mem _ hmem)) h
      refine ⟨hb', hgrows₁.trans hgrows, hadds₁.trans hadds, fun _ ↦ ?_⟩
      cases patterns with
      | nil =>
        obtain rfl := Except.ok.inj h
        cases hstep with
        | standard _ _ _ _ hnode => simp [hnode.last]
        | condition _ _ _ _ _ hnode => simp [hnode.last]
      | cons p patterns => exact hlast (List.cons_ne_nil _ _)

end BetaNetworkBuilder

/-! ### Terminal nodes -/

/-- Whether a node ends a condition group of a rule. -/
def NodeKind.isTerminalOf (i : ℕ) : NodeKind → Bool
  | .terminal rule _ => decide (rule = i)
  | _ => false

namespace CompiledNetwork

variable {net net' : CompiledNetwork} {constraints : Set ParsedConstraint}

/-- The terminal nodes of a rule, in order. -/
def terminals (net : CompiledNetwork) (i : ℕ) : List ℕ :=
  (List.range net.nodes.length).filter fun n ↦ (net.kind n).isTerminalOf i

/-- The terminal nodes of a larger network: the old ones, and those among the new nodes. -/
theorem Grows.terminals_eq (h : Grows net net') (i : ℕ) :
    net'.terminals i = net.terminals i ++
      ((List.range (net'.nodes.length - net.nodes.length)).map (net.nodes.length + ·)).filter
        fun n ↦ (net'.kind n).isTerminalOf i := by
  have hlength : net'.nodes.length = net.nodes.length + (net'.nodes.length - net.nodes.length) := by
    have := h.length
    omega
  unfold terminals
  conv_lhs => rw [hlength]
  rw [List.range_add, List.filter_append]
  congr 1
  refine List.filter_congr fun n hn ↦ ?_
  rw [h.kind (List.mem_range.mp hn)]

theorem terminals_of_adds (h : Grows net net') (hadds : Adds (TestsFrom constraints) net net')
    (i : ℕ) : net'.terminals i = net.terminals i := by
  rw [h.terminals_eq, List.filter_eq_nil_iff.mpr, List.append_nil]
  intro n hn
  obtain ⟨m, -, rfl⟩ := List.mem_map.mp hn
  rcases hadds.kinds (net.nodes.length + m) with heq | hfrom
  · rw [heq, kind_of_le net (Nat.le_add_right _ _)]
    simp [NodeKind.isTerminalOf]
  · cases hkind : net'.kind (net.nodes.length + m) with
    | terminal rule bindings => exact absurd hkind (hfrom.terminal rule bindings)
    | _ => simp [NodeKind.isTerminalOf]

theorem NodeAdded.terminals_eq {k : NodeKind} {parents : List ℕ}
    (h : NodeAdded net net' k parents) (hgrows : Grows net net') (i : ℕ) :
    net'.terminals i =
      net.terminals i ++ if k.isTerminalOf i then [net.nodes.length] else [] := by
  have hone : net'.nodes.length - net.nodes.length = 1 := by
    have := h.length
    omega
  rw [hgrows.terminals_eq, hone]
  congr 1
  cases hk : k.isTerminalOf i <;> simp [h.kind, hk]

end CompiledNetwork

/-- The chain of a condition group that ends in a terminal node. -/
def GroupChain (net : CompiledNetwork) (n : ℕ) (group : List ParsedPattern) : Prop :=
  ∃ start b last, start.Shape ∧ BetaNetworkBuilder.build start group = .ok b ∧
    Grows b.network net ∧ b.lastNode = some last ∧ net.LeftEdge last n

theorem GroupChain.grows {net net' : CompiledNetwork} {n : ℕ} {group : List ParsedPattern}
    (h : GroupChain net n group) (hgrows : Grows net net') : GroupChain net' n group := by
  obtain ⟨start, b, last, hshape, hbuild, hb, hlast, hedge⟩ := h
  exact ⟨start, b, last, hshape, hbuild, hb.trans hgrows, hlast, hgrows.leftEdge hedge⟩

/-! ### Compilation -/

section Compilation

variable {kind : ParsedConstraint → ValueKind} {constraints : Set ParsedConstraint}
  {net net' : CompiledNetwork}

/-- The chains of the condition groups of one rule. -/
structure GroupsAdded (constraints : Set ParsedConstraint) (net net' : CompiledNetwork) (i : ℕ)
    (groups : List (List ParsedPattern)) : Prop where
  shape : net'.Shape
  grows : Grows net net'
  adds : Adds (ReadsTests constraints) net net'
  own : ∃ ns, net'.terminals i = net.terminals i ++ ns ∧ List.Forall₂ (GroupChain net') ns groups
  others : ∀ j, j ≠ i → net'.terminals j = net.terminals j

theorem compileGroup_added (hshape : net.Shape) {i : ℕ} {group : List ParsedPattern}
    (hgroup : BetaNetworkBuilder.PlainGroup kind constraints group)
    (h : compileGroup net i group = .ok net') : GroupsAdded constraints net net' i [group] := by
  obtain ⟨b, hbuild, hnet'⟩ := compileGroup_cases h
  obtain ⟨hb, hgrows, hadds, hsome⟩ :=
    (BetaNetworkBuilder.simple_start hshape).foldlM hgroup.element hbuild
  obtain ⟨last, hlast⟩ := Option.isSome_iff_exists.mp (hsome hgroup.nonempty)
  obtain ⟨hadded, hshape', hgrows'⟩ : NodeAdded b.network net' (.terminal i b.bindingToIdx)
      b.lastNode.toList ∧ net'.Shape ∧ Grows b.network net' :=
    hnet' ▸ terminal_spec hb.shape hb.last i b.bindingToIdx
  have hterminals : ∀ j, net'.terminals j = net.terminals j ++
      if (NodeKind.terminal i b.bindingToIdx).isTerminalOf j then [b.network.nodes.length]
        else [] := by
    intro j
    rw [hadded.terminals_eq hgrows', terminals_of_adds hgrows hadds]
  have hentry : ∀ source type, net'.entry source type = b.network.entry source type := by
    rw [hnet', hlast]
    exact fun _ _ ↦ rfl
  have hedge : net'.LeftEdge last b.network.nodes.length := by
    refine hadded.leftEdge_iff.mpr (.inr ⟨rfl, ?_, hb.last last hlast⟩)
    simp [hlast]
  refine ⟨hshape', hgrows.trans hgrows', (hadds.mono fun k hk ↦ hk.toReadsTests).trans ?_,
    ⟨[b.network.nodes.length], ?_, ?_⟩, fun j hj ↦ ?_⟩
  · refine ⟨fun n ↦ ?_, fun hinj {_ _ _ _ _} ha hc ↦ ?_⟩
    · rw [hadded.kind]
      split
      · exact .inr (readsTests_terminal constraints i b.bindingToIdx)
      · exact .inl rfl
    · rw [hentry] at ha hc
      exact hinj ha hc
  · simp [hterminals, NodeKind.isTerminalOf]
  · exact .cons ⟨net, b, last, hshape, hbuild, hgrows', hlast, hedge⟩ .nil
  · simp [hterminals, NodeKind.isTerminalOf, Ne.symm hj]

theorem compileGroups_added {groups : List (List ParsedPattern)} (hshape : net.Shape) {i : ℕ}
    (hgroups : ∀ group ∈ groups, BetaNetworkBuilder.PlainGroup kind constraints group)
    (h : groups.foldlM (compileGroup · i) net = .ok net') :
    GroupsAdded constraints net net' i groups := by
  induction groups generalizing net with
  | nil =>
    obtain rfl := Except.ok.inj h
    exact ⟨hshape, Grows.refl _, Adds.refl _ _, ⟨[], by simp, .nil⟩, fun _ _ ↦ rfl⟩
  | cons group groups ih =>
    rw [List.foldlM_cons] at h
    cases hfirst : compileGroup net i group with
    | error e =>
      rw [hfirst] at h
      cases h
    | ok net₁ =>
      rw [hfirst] at h
      have h₁ := compileGroup_added hshape (hgroups group List.mem_cons_self) hfirst
      have h₂ := ih h₁.shape (fun g hg ↦ hgroups g (List.mem_cons_of_mem _ hg)) h
      obtain ⟨ns₁, hns₁, hchains₁⟩ := h₁.own
      obtain ⟨ns₂, hns₂, hchains₂⟩ := h₂.own
      refine ⟨h₂.shape, h₁.grows.trans h₂.grows, h₁.adds.trans h₂.adds, ⟨ns₁ ++ ns₂, ?_, ?_⟩, ?_⟩
      · rw [hns₂, hns₁, List.append_assoc]
      · exact List.rel_append (hchains₁.imp fun n g hn ↦ hn.grows h₂.grows) hchains₂
      · exact fun j hj ↦ (h₂.others j hj).trans (h₁.others j hj)

end Compilation

/-- The condition groups for which a rule has nodes. -/
def ParsedRule.compiledGroups (rule : ParsedRule) : List (List ParsedPattern) :=
  if !rule.enabled || rule.hasNoConditions then [] else rule.conditionGroups

theorem compileRule_eq (net : CompiledNetwork) (rule : ℕ × ParsedRule) :
    compileRule net rule = rule.2.compiledGroups.foldlM (compileGroup · rule.1) net := by
  unfold compileRule ParsedRule.compiledGroups
  split <;> rfl

/-- The constraints of a list of rules. -/
def rulesConstraints (rules : List ParsedRule) : Set ParsedConstraint :=
  {c | ∃ rule ∈ rules, ∃ group ∈ rule.compiledGroups, ∃ pattern ∈ group,
    c ∈ pattern.allConstraints}

/-- Rules of plain condition groups. -/
structure PlainRules (kind : ParsedConstraint → ValueKind) (rules : List ParsedRule) : Prop where
  nonempty : ∀ rule ∈ rules, ∀ group ∈ rule.compiledGroups, group ≠ []
  element : ∀ rule ∈ rules, ∀ group ∈ rule.compiledGroups, ∀ pattern ∈ group,
    ∃ reader, PlainElement kind pattern reader

section Rules

variable {kind : ParsedConstraint → ValueKind} {net net' : CompiledNetwork}

theorem PlainRules.plainGroup {rules : List ParsedRule} (h : PlainRules kind rules)
    {rule : ParsedRule} (hrule : rule ∈ rules) {group : List ParsedPattern}
    (hgroup : group ∈ rule.compiledGroups) :
    BetaNetworkBuilder.PlainGroup kind (rulesConstraints rules) group := by
  refine ⟨h.nonempty rule hrule group hgroup, fun pattern hpattern ↦ ?_⟩
  obtain ⟨reader, hreader⟩ := h.element rule hrule group hgroup pattern hpattern
  refine ⟨reader, hreader, fun c hc ↦ ⟨rule, hrule, group, hgroup, pattern, hpattern, ?_⟩⟩
  rwa [hreader.allConstraints_eq]

theorem PlainRules.plain_of_mem {rules : List ParsedRule} (h : PlainRules kind rules)
    {c : ParsedConstraint} (hc : c ∈ rulesConstraints rules) : ∃ own, c.Plain kind own := by
  obtain ⟨rule, hrule, group, hgroup, pattern, hpattern, hc⟩ := hc
  obtain ⟨reader, hreader⟩ := h.element rule hrule group hgroup pattern hpattern
  rw [hreader.allConstraints_eq] at hc
  exact ⟨reader.binding, hreader.plain.constraints c hc⟩

/-- The chains of rules with different positions. -/
theorem compileRules_groups {constraints : Set ParsedConstraint} {rules : List (ℕ × ParsedRule)}
    (hshape : net.Shape) (hnodup : (rules.map Prod.fst).Nodup)
    (hfresh : ∀ rule ∈ rules, net.terminals rule.1 = [])
    (hplain : ∀ rule ∈ rules, ∀ group ∈ rule.2.compiledGroups,
      BetaNetworkBuilder.PlainGroup kind constraints group)
    (h : rules.foldlM compileRule net = .ok net') :
    Grows net net' ∧ Adds (ReadsTests constraints) net net' ∧
      (∀ rule ∈ rules,
        List.Forall₂ (GroupChain net') (net'.terminals rule.1) rule.2.compiledGroups) ∧
      ∀ j, j ∉ rules.map Prod.fst → net'.terminals j = net.terminals j := by
  induction rules generalizing net with
  | nil =>
    obtain rfl := Except.ok.inj h
    exact ⟨Grows.refl _, Adds.refl _ _, by simp, fun _ _ ↦ rfl⟩
  | cons rule rules ih =>
    rw [List.foldlM_cons, compileRule_eq] at h
    obtain ⟨hnotin, hnodup⟩ := List.nodup_cons.mp hnodup
    cases hfirst : rule.2.compiledGroups.foldlM (compileGroup · rule.1) net with
    | error e =>
      rw [hfirst] at h
      cases h
    | ok net₁ =>
      rw [hfirst] at h
      have h₁ := compileGroups_added hshape (hplain rule List.mem_cons_self) hfirst
      have hfresh₁ : ∀ r ∈ rules, net₁.terminals r.1 = [] := by
        intro r hr
        rw [h₁.others r.1 fun heq ↦ hnotin (heq ▸ List.mem_map_of_mem hr)]
        exact hfresh r (List.mem_cons_of_mem _ hr)
      obtain ⟨hgrows, hadds, hchains, hothers⟩ := ih h₁.shape hnodup hfresh₁
        (fun r hr ↦ hplain r (List.mem_cons_of_mem _ hr)) h
      refine ⟨h₁.grows.trans hgrows, h₁.adds.trans hadds, ?_, fun j hj ↦ ?_⟩
      · intro r hr
        rcases List.mem_cons.mp hr with rfl | hr
        · obtain ⟨ns, hns, hforall⟩ := h₁.own
          rw [hothers r.1 hnotin, hns, hfresh r List.mem_cons_self, List.nil_append]
          exact hforall.imp fun n g hn ↦ hn.grows hgrows
        · exact hchains r hr
      · rw [List.map_cons, List.mem_cons, not_or] at hj
        rw [hothers j hj.2, h₁.others j hj.1]

/-- What is known of the network of plain rules. -/
structure PlainNetwork (kind : ParsedConstraint → ValueKind) (rules : List ParsedRule)
    (net : CompiledNetwork) : Prop where
  plain : PlainRules kind rules
  shape : net.Shape
  entries : net.EntriesInjective
  tests : ∀ n, ReadsTests (rulesConstraints rules) (net.kind n)
  chains : ∀ {i rule}, rules[i]? = some rule →
    List.Forall₂ (GroupChain net) (net.terminals i) rule.compiledGroups

/-- The tests in the network of plain rules are constraints of the rules. -/
theorem PlainNetwork.mem_of_tests {rules : List ParsedRule} (h : PlainNetwork kind rules net)
    {c : ParsedConstraint} (hc : net.Tests c) : c ∈ rulesConstraints rules := by
  cases hc with
  | @alpha n c hkind => exact (h.tests n).alpha c hkind
  | @join n condition c hkind hc => exact (h.tests n).joins condition hkind c hc

/-- **One terminal node for each condition group** of a plain rule, at the end of its chain. -/
theorem compileNetwork_groups {rules : List ParsedRule} (hplain : PlainRules kind rules)
    (h : compileNetwork rules = .ok net) : PlainNetwork kind rules net := by
  have hmem : ∀ {rule : ℕ × ParsedRule}, rule ∈ rules.zipIdx.map Prod.swap ↔
      rules[rule.1]? = some rule.2 := by
    intro rule
    rw [← List.mk_mem_zipIdx_iff_getElem?]
    constructor
    · intro hrule
      obtain ⟨pair, hpair, rfl⟩ := List.mem_map.mp hrule
      exact hpair
    · exact fun hpair ↦ List.mem_map.mpr ⟨_, hpair, rfl⟩
  have hfirsts : ((rules.zipIdx.map Prod.swap).map Prod.fst).Nodup := by
    rw [List.map_map, show Prod.fst ∘ Prod.swap = (Prod.snd : ParsedRule × ℕ → ℕ) from rfl,
      List.zipIdx_map_snd]
    exact List.nodup_range'
  obtain ⟨-, hadds, hchains, -⟩ := compileRules_groups shape_empty hfirsts (fun _ _ ↦ rfl)
    (fun rule hrule group hgroup ↦
      hplain.plainGroup (List.mem_of_getElem? (hmem.mp hrule)) hgroup) h
  refine ⟨hplain, compileNetwork_shape h, hadds.entries ?_, fun n ↦ ?_, fun {i rule} hrule ↦ ?_⟩
  · intro source _ _ _ n hn
    cases source <;> cases hn
  · rcases hadds.kinds n with heq | hreads
    · refine ⟨fun c hk ↦ ?_, fun condition hk ↦ ?_⟩
      · cases heq.symm.trans hk
      · rw [heq] at hk
        cases hk
    · exact hreads
  · exact hchains (i, rule) (hmem.mpr hrule)

end Rules

end RulesForge
