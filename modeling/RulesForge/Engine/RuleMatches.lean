import RulesForge.Engine.Modification
import RulesForge.Rete.CompiledRules

/-!
# Delivered tuples and direct evaluation

The tuples delivered along the chain of a plain condition group are those that the direct
evaluation of the group lists (`GroupChain.delivered_iff`). The proof follows the builder pattern
by pattern: the tuples that the last node so far hands on (`Built`), each continued by what the
evaluation of the remaining patterns gives under the variables of the tuple, do not change from
one pattern to the next.
-/

namespace RulesForge

open CompiledNetwork

/-! ### The tuples that a node hands on -/

section Emitted

variable (kb : KnowledgeBase) (base : Session) (source : FactPtr → Option String)
  (facts : Set FactPtr)

/-- The tuples that a join or condition node hands on. -/
def Emitted (q : ℕ) (t : List FactPtr) : Prop :=
  match kb.network.kind q with
  | .condition kind _ =>
    Delivered kb base source facts kb.roots q t ∧
      kind.Holds (∃ f ∈ rightFacts kb base.heap source facts q, nodeTest kb base q (.ofFacts t) f)
  | _ => ∃ t' f, t = t' ++ [f] ∧ Delivered kb base source facts kb.roots q t' ∧
      f ∈ rightFacts kb base.heap source facts q ∧ nodeTest kb base q (.ofFacts t') f

/-- The tuples past the last node of the builder. -/
def Built (last : Option ℕ) (t : List FactPtr) : Prop :=
  match last with
  | none => t = []
  | some q => Emitted kb base source facts q t

variable {kb base source facts} {q n : ℕ} {t : List FactPtr}

theorem emitted_join_iff (hjoin : (kb.network.kind q).isJoin = true) :
    Emitted kb base source facts q t ↔ ∃ t' f, t = t' ++ [f] ∧
      Delivered kb base source facts kb.roots q t' ∧
      f ∈ rightFacts kb base.heap source facts q ∧ nodeTest kb base q (.ofFacts t') f := by
  unfold Emitted
  cases hkind : kb.network.kind q with
  | condition kind c => simp [hkind, NodeKind.isJoin] at hjoin
  | _ => exact Iff.rfl

variable (hnet : kb.network.WellFormed)
include hnet

theorem delivered_iff_emitted (hedge : kb.network.LeftEdge q n) :
    Delivered kb base source facts kb.roots n t ↔ Emitted kb base source facts q t := by
  constructor
  · intro h
    cases h with
    | root hn => exact absurd hedge ((hnet.mem_roots.mp hn).2 q)
    | @join q' _ t' f hedge' hjoin ht' hf htest =>
      obtain rfl := hnet.left_forest.parent_unique hedge hedge'
      exact (emitted_join_iff hjoin).mpr ⟨t', f, rfl, ht', hf, htest⟩
    | condition hedge' hkind ht hholds =>
      obtain rfl := hnet.left_forest.parent_unique hedge hedge'
      simp only [Emitted, hkind]
      exact ⟨ht, hholds⟩
  · have hbeta := hedge.2
    intro h
    cases hjoin : (kb.network.kind q).isJoin with
    | true =>
      obtain ⟨t', f, rfl, ht', hf, htest⟩ := (emitted_join_iff hjoin).mp h
      exact .join hedge hjoin ht' hf htest
    | false =>
      cases hkind : kb.network.kind q with
      | condition kind c =>
        simp only [Emitted, hkind] at h
        exact .condition hedge hkind h.1 h.2
      | crossProductJoin c => simp [hkind, NodeKind.isJoin] at hjoin
      | hashedJoin c l r => simp [hkind, NodeKind.isJoin] at hjoin
      | tokenNode node => exact absurd hkind (hnet.noTokenNode q node)
      | _ => simp [hkind, NodeKind.isBetaNode] at hbeta

/-- What is delivered to the node of a pattern is what the builder had before. -/
theorem delivered_iff_built {last : Option ℕ} (hleft : ∀ l ∈ last, kb.network.LeftEdge l n)
    (hroot : last = none → n ∈ kb.network.betaRootNodes) :
    Delivered kb base source facts kb.roots n t ↔ Built kb base source facts last t := by
  cases last with
  | some q => exact delivered_iff_emitted hnet (hleft q rfl)
  | none =>
    have hn := hroot rfl
    constructor
    · intro h
      cases h with
      | root _ => rfl
      | join hedge _ _ _ _ => exact absurd hedge ((hnet.mem_roots.mp hn).2 _)
      | condition hedge _ _ _ => exact absurd hedge ((hnet.mem_roots.mp hn).2 _)
    · rintro rfl
      exact .root hn

omit hnet in
theorem Emitted.facts_subset (h : Emitted kb base source facts q t) : ∀ f ∈ t, f ∈ facts := by
  unfold Emitted at h
  split at h
  · exact h.1.facts_subset
  · obtain ⟨t', f, rfl, ht', hf, -⟩ := h
    intro g hg
    rcases List.mem_append.mp hg with hg | hg
    · exact ht'.facts_subset g hg
    · rw [List.mem_singleton.mp hg]
      exact hf.1

omit hnet in
theorem Built.facts_subset {last : Option ℕ} (h : Built kb base source facts last t) :
    ∀ f ∈ t, f ∈ facts := by
  cases last with
  | none =>
    obtain rfl : t = [] := h
    simp
  | some q => exact Emitted.facts_subset h

end Emitted

/-! ### The facts on the right of a pattern's node -/

section Passing

variable {kb : KnowledgeBase} {heap : Heap} {source : FactPtr → Option String} {f : FactPtr}
  (hnet : kb.network.WellFormed)
include hnet

theorem passes_entry_iff {route : Option String} {factType : String} {e : ℕ}
    (hinj : kb.network.EntriesInjective) (he : kb.network.entry route factType = some e) :
    Passes kb heap source f e ↔ source f = route ∧ (heap f).type = factType := by
  constructor
  · intro h
    cases h with
    | entry h => exact hinj h he
    | alpha _ hkind _ _ =>
      rw [hnet.entry_kind he] at hkind
      cases hkind
    | beta _ hbeta _ =>
      rw [hnet.entry_kind he] at hbeta
      cases hbeta
  · rintro ⟨rfl, rfl⟩
    exact .entry he

theorem passes_alphaChain_iff {kind : ParsedConstraint → ValueKind} {own : String}
    {cs : List ParsedConstraint} (hcs : ∀ c ∈ cs, c.Plain kind own) {p t : ℕ}
    (hchain : kb.network.AlphaChain p cs t) :
    Passes kb heap source f t ↔
      Passes kb heap source f p ∧ ∀ c ∈ cs, checkConstraint kb.runtime heap c f = true := by
  induction hchain with
  | nil => simp
  | @cons p n t c c' cs hedge hkind hshared _ ih =>
    obtain rfl := (hcs c List.mem_cons_self).eq_of_shared hshared
    rw [ih fun c hc ↦ hcs c (List.mem_cons_of_mem _ hc), passes_alpha_iff hnet hedge hkind,
      List.forall_mem_cons, and_assoc]

end Passing

/-! ### One pattern -/

/-- A working memory for plain rules: the facts have addresses, and what the constraints read from
them is of the kind that they compare. -/
structure PlainState (kind : ParsedConstraint → ValueKind) (kb : KnowledgeBase) (base : Session)
    (facts : Set FactPtr) : Prop where
  network : PlainNetwork kind kb.rules kb.network
  nonzero : ∀ f ∈ facts, f ≠ 0
  kinds : ∀ f ∈ facts, ReadsKind kind (rulesConstraints kb.rules) base.heap f

section Pattern

variable {kind : ParsedConstraint → ValueKind} {kb : KnowledgeBase} {base : Session}
  {facts : Set FactPtr} (h : PlainState kind kb base facts) {b b' : BetaNetworkBuilder}
  (hshape : b'.network.Shape) (hgrows : Grows b'.network kb.network) {reader : ParsedPattern}
  (hreader : reader.Plain kind)
  (hconstraints : ∀ c ∈ reader.constraints, c ∈ rulesConstraints kb.rules) {k : NodeKind} {n : ℕ}
  (hnode : BetaNetworkBuilder.PlainNode b b' reader k n) {bindings : Bindings}
  (hcondition : k.joinCondition = some (BetaNetworkBuilder.plainCondition reader bindings))
include h hshape hgrows hreader hconstraints hnode hcondition

omit h hshape hgrows hnode hcondition in
theorem plainCondition_plain : (BetaNetworkBuilder.plainCondition reader bindings).Plain kind
    (rulesConstraints kb.rules) reader.binding := by
  intro c hc
  obtain ⟨hmem, hjoin⟩ := List.mem_filter.mp hc
  exact ⟨hreader.constraints c hmem, hjoin, hconstraints c hmem⟩

omit h in
theorem plainNode_kind : kb.network.kind n = k := by
  have hpattern := hgrows.patternNode hshape.wellFormed hnode.node
  exact eq_of_sharedKind (plainCondition_plain hreader hconstraints) hcondition hpattern.shared

omit hreader hconstraints hcondition in
theorem plainNode_delivered_iff {t : List FactPtr} :
    Delivered kb base (fun _ ↦ none) facts kb.roots n t ↔
      Built kb base (fun _ ↦ none) facts b.lastNode t := by
  have hpattern := hgrows.patternNode hshape.wellFormed hnode.node
  exact delivered_iff_built h.network.shape.wellFormed hpattern.left hpattern.root

omit hconstraints hcondition in
/-- The facts that the node of a pattern has on its right. -/
theorem plainNode_right_iff {f : FactPtr} :
    f ∈ rightFacts kb base.heap (fun _ ↦ none) facts n ↔ f ∈ facts ∧ reader.source = none ∧
      (base.heap f).type = reader.factType ∧
      ∀ c ∈ reader.constraints.filter (!·.isJoin),
        checkConstraint kb.runtime base.heap c f = true := by
  have hpattern := hgrows.patternNode hshape.wellFormed hnode.node
  have hnet := h.network.shape.wellFormed
  obtain ⟨entry, tail, hentry, hchain, hedge⟩ := hpattern.right
  have hplain : ∀ c ∈ reader.constraints.filter (!·.isJoin), c.Plain kind reader.binding :=
    fun c hc ↦ hreader.constraints c (List.mem_of_mem_filter hc)
  rw [rightFacts, Set.mem_ofPred_eq, passes_beta_iff hnet hedge hpattern.beta,
    passes_alphaChain_iff hnet hplain hchain, passes_entry_iff hnet h.network.entries hentry,
    and_assoc, eq_comm]

/-- The facts that match a tuple at the node of a pattern are those that the pattern accepts. -/
theorem plainNode_match_iff {t : List FactPtr} (ht : ∀ g ∈ t, g ∈ facts)
    (hlt : ∀ {name idx}, bindings.lookup name = some idx → name ≠ reader.binding → idx < t.length)
    {vars : Assignment}
    (hvars : ∀ name, name ≠ reader.binding → vars name = assignmentOf bindings t name)
    {f : FactPtr} :
    f ∈ rightFacts kb base.heap (fun _ ↦ none) facts n ∧ nodeTest kb base n (.ofFacts t) f ↔
      f ∈ facts ∧ reader.accepts base.heap vars f = true := by
  have hfacts := TokenWME.facts_ofFacts t
  rw [plainNode_right_iff h hshape hgrows hreader hnode, hreader.accepts_iff]
  simp only [and_assoc]
  refine and_congr_right fun hf ↦ and_congr_right fun _ ↦ and_congr_right fun _ ↦ ?_
  have hscope : InScope (BetaNetworkBuilder.plainCondition reader bindings).bindings reader.binding
      (.ofFacts t) := by
    refine ⟨?_, fun {name idx} hlookup hname ↦ ?_⟩
    · rw [hfacts]
      exact fun g hg ↦ h.nonzero g (ht g hg)
    · rw [← TokenWME.facts_length, hfacts]
      exact hlt hlookup hname
  have hkinds : ∀ g ∈ (TokenWME.ofFacts t).facts,
      ReadsKind kind (rulesConstraints kb.rules) base.heap g := by
    rw [hfacts]
    exact fun g hg ↦ h.kinds g (ht g hg)
  have hn : (kb.network.kind n).joinCondition =
      some (BetaNetworkBuilder.plainCondition reader bindings) := by
    rw [plainNode_kind hshape hgrows hreader hconstraints hnode hcondition]
    exact hcondition
  rw [nodeTest_iff_holds (plainCondition_plain hreader hconstraints) (h.kinds f hf) hkinds hscope
    h.network.shape.keysFromJoins hn, hfacts]
  have hholds : ∀ c ∈ reader.constraints,
      c.holds base.heap (assignmentOf bindings t) f = c.holds base.heap vars f :=
    fun c hc ↦ (hreader.constraints c hc).holds_congr (fun name hname ↦ (hvars name hname).symm) f
  constructor
  · rintro ⟨halpha, hjoin⟩ c hc
    cases hkind : c.isJoin with
    | true =>
      rw [← hholds c hc]
      exact hjoin c (List.mem_filter.mpr ⟨hc, hkind⟩)
    | false =>
      rw [← checkConstraint_eq_holds (hreader.constraints c hc) hkind (hconstraints c hc)
        (h.kinds f hf)]
      exact halpha c (List.mem_filter.mpr ⟨hc, by simp [hkind]⟩)
  · intro hall
    refine ⟨fun c hc ↦ ?_, fun c hc ↦ ?_⟩
    · obtain ⟨hc, hkind⟩ := List.mem_filter.mp hc
      rw [checkConstraint_eq_holds (hreader.constraints c hc) (by simpa using hkind)
        (hconstraints c hc) (h.kinds f hf) vars]
      exact hall c hc
    · have hc := List.mem_of_mem_filter hc
      change c.holds base.heap (assignmentOf bindings t) f = true
      rw [hholds c hc]
      exact hall c hc

end Pattern

/-! ### Condition groups -/

section Groups

variable {kind : ParsedConstraint → ValueKind} {kb : KnowledgeBase} {base : Session}
  {facts : List FactPtr} (h : PlainState kind kb base {f | f ∈ facts})
  {b b' : BetaNetworkBuilder} (hb : b.Simple)

/-- Tuples past the builder's last node are as long as the builder is deep. -/
def BuiltLength (kb : KnowledgeBase) (base : Session) (facts : List FactPtr)
    (b : BetaNetworkBuilder) : Prop :=
  ∀ t, Built kb base (fun _ ↦ none) {f | f ∈ facts} b.lastNode t → t.length = b.patternDepth

include h hb

/-- The tuples past the node of a standard pattern. -/
theorem built_standard_iff (hb' : b'.Simple) (hgrows : Grows b'.network kb.network)
    (hlength : BuiltLength kb base facts b) {pattern : ParsedPattern} (hplain : pattern.Plain kind)
    (hconstraints : ∀ c ∈ pattern.constraints, c ∈ rulesConstraints kb.rules)
    (hbindings : b'.bindingToIdx = (b.bindPattern pattern).bindingToIdx) {n : ℕ}
    (hnode : BetaNetworkBuilder.PlainNode b b' pattern (BetaNetworkBuilder.standardKind
      b.lastNode.isSome (BetaNetworkBuilder.plainCondition pattern b'.bindingToIdx)) n)
    {u : List FactPtr} :
    Built kb base (fun _ ↦ none) {f | f ∈ facts} b'.lastNode u ↔
      ∃ t f, u = t ++ [f] ∧ Built kb base (fun _ ↦ none) {f | f ∈ facts} b.lastNode t ∧
        f ∈ facts ∧ pattern.accepts base.heap (assignmentOf b.bindingToIdx t) f = true := by
  have hcondition := BetaNetworkBuilder.standardKind_joinCondition b.lastNode.isSome
    (BetaNetworkBuilder.plainCondition pattern b'.bindingToIdx)
  have hlookup : ∀ name, name ≠ pattern.binding →
      b'.bindingToIdx.lookup name = b.bindingToIdx.lookup name := by
    intro name hname
    rw [hbindings]
    unfold BetaNetworkBuilder.bindPattern
    split
    · rfl
    · exact SortedMap.lookup_insert_ne hname _ _
  have hkind := plainNode_kind hb'.shape hgrows hplain hconstraints hnode hcondition
  have hjoin : (kb.network.kind n).isJoin = true := by
    rw [hkind]
    unfold BetaNetworkBuilder.standardKind
    split <;> rfl
  rw [hnode.last, Built, emitted_join_iff hjoin]
  refine exists₂_congr fun t f ↦ and_congr_right fun _ ↦ ?_
  rw [plainNode_delivered_iff h hb'.shape hgrows hnode]
  refine and_congr_right fun ht ↦ ?_
  refine plainNode_match_iff h hb'.shape hgrows hplain hconstraints hnode hcondition
    ht.facts_subset (fun {name idx} hname hne ↦ ?_) fun name hne ↦ ?_
  · rw [hlength t ht]
    exact hb.lt (hlookup name hne ▸ hname)
  · rw [assignmentOf, assignmentOf, hlookup name hne]

/-- The tuples past the node of a NOT or an EXISTS. -/
theorem built_condition_iff (hb' : b'.Simple) (hgrows : Grows b'.network kb.network)
    (hlength : BuiltLength kb base facts b) {conditionKind : ConditionKind} {reader : ParsedPattern}
    (hplain : reader.Plain kind)
    (hconstraints : ∀ c ∈ reader.constraints, c ∈ rulesConstraints kb.rules) {n : ℕ}
    (hnode : BetaNetworkBuilder.PlainNode b b' reader
      (.condition conditionKind (BetaNetworkBuilder.plainCondition reader b.bindingToIdx)) n)
    {t : List FactPtr} :
    Built kb base (fun _ ↦ none) {f | f ∈ facts} b'.lastNode t ↔
      Built kb base (fun _ ↦ none) {f | f ∈ facts} b.lastNode t ∧ conditionKind.Holds
        (∃ f ∈ facts, reader.accepts base.heap (assignmentOf b.bindingToIdx t) f = true) := by
  have hkind := plainNode_kind hb'.shape hgrows hplain hconstraints hnode rfl
  rw [hnode.last]
  simp only [Built, Emitted, hkind]
  rw [plainNode_delivered_iff h hb'.shape hgrows hnode]
  refine and_congr_right fun ht ↦ ?_
  have hiff : (∃ f ∈ rightFacts kb base.heap (fun _ ↦ none) {f | f ∈ facts} n,
      nodeTest kb base n (.ofFacts t) f) ↔
      ∃ f ∈ facts, reader.accepts base.heap (assignmentOf b.bindingToIdx t) f = true := by
    refine exists_congr fun f ↦ ?_
    refine plainNode_match_iff h hb'.shape hgrows hplain hconstraints hnode rfl ht.facts_subset
      (fun {name idx} hname _ ↦ ?_) fun _ _ ↦ rfl
    rw [hlength t ht]
    exact hb.lt hname
  rw [hiff]

omit h in
/-- The variables of a tuple that a standard pattern has made longer by one fact. -/
theorem assignmentOf_bindPattern {pattern : ParsedPattern} {t : List FactPtr}
    (hlength : t.length = b.patternDepth) (f : FactPtr) :
    assignmentOf (b.bindPattern pattern).bindingToIdx (t ++ [f]) =
      pattern.bind (assignmentOf b.bindingToIdx t) f := by
  have hold : ∀ name, assignmentOf b.bindingToIdx (t ++ [f]) name =
      assignmentOf b.bindingToIdx t name := by
    intro name
    unfold assignmentOf
    cases hlookup : b.bindingToIdx.lookup name with
    | none => rfl
    | some idx =>
      have hlt : idx < t.length := hlength ▸ hb.lt hlookup
      simp [List.getElem?_append_left hlt]
  unfold BetaNetworkBuilder.bindPattern ParsedPattern.bind
  split
  · exact funext hold
  · funext name
    by_cases hname : name = pattern.binding
    · subst hname
      simp [assignmentOf, SortedMap.lookup_insert_self, ← hlength]
    · rw [Function.update_of_ne hname, ← hold, assignmentOf, assignmentOf,
        SortedMap.lookup_insert_ne hname]

/-- The tuples past a chain of nodes: those before it, continued as the evaluation of its
patterns says. -/
theorem built_foldlM_iff {patterns : List ParsedPattern}
    (hpatterns : ∀ pattern ∈ patterns, ∃ reader, PlainElement kind pattern reader ∧
      ∀ c ∈ reader.constraints, c ∈ rulesConstraints kb.rules)
    (hfold : patterns.foldlM BetaNetworkBuilder.addPattern b = .ok b')
    (hgrows : Grows b'.network kb.network) (hlength : BuiltLength kb base facts b)
    {u : List FactPtr} :
    Built kb base (fun _ ↦ none) {f | f ∈ facts} b'.lastNode u ↔ ∃ t t', u = t ++ t' ∧
      Built kb base (fun _ ↦ none) {f | f ∈ facts} b.lastNode t ∧
      t' ∈ evaluate base.heap facts patterns (assignmentOf b.bindingToIdx t) := by
  induction patterns generalizing b with
  | nil =>
    obtain rfl := Except.ok.inj hfold
    simp [evaluate]
  | cons pattern patterns ih =>
    rw [List.foldlM_cons] at hfold
    cases hadd : b.addPattern pattern with
    | error e =>
      rw [hadd] at hfold
      cases hfold
    | ok b₁ =>
      rw [hadd] at hfold
      obtain ⟨reader, hp, hconstraints⟩ := hpatterns pattern List.mem_cons_self
      have hrest := fun p hmem ↦ hpatterns p (List.mem_cons_of_mem _ hmem)
      obtain ⟨hb₁, -, -, n, hstep⟩ := hb.addPattern hp hconstraints hadd
      obtain ⟨-, hgrows₁, -, -⟩ := hb₁.foldlM hrest hfold
      have hgrows₁ := hgrows₁.trans hgrows
      have hreader := hp.plain
      cases hstep with
      | standard htype hsame hdepth hbindings hnode =>
        subst hsame
        have hbuilt := fun u ↦ built_standard_iff h hb hb₁ hgrows₁ hlength hreader hconstraints
          hbindings hnode (u := u)
        have hlength₁ : BuiltLength kb base facts b₁ := by
          intro u hu
          obtain ⟨t, f, rfl, ht, -, -⟩ := (hbuilt u).mp hu
          rw [List.length_append, hlength t ht, hdepth]
          rfl
        rw [ih hb₁ hrest hfold hlength₁]
        simp only [mem_evaluate_standard htype]
        constructor
        · rintro ⟨u₁, t', rfl, hu₁, ht'⟩
          obtain ⟨t, f, rfl, ht, hf, haccepts⟩ := (hbuilt u₁).mp hu₁
          rw [hbindings, assignmentOf_bindPattern hb (hlength t ht)] at ht'
          exact ⟨t, f :: t', by simp, ht, f, t', rfl, hf, haccepts, ht'⟩
        · rintro ⟨t, _, rfl, ht, f, t', rfl, hf, haccepts, ht'⟩
          refine ⟨t ++ [f], t', by simp, (hbuilt _).mpr ⟨t, f, rfl, ht, hf, haccepts⟩, ?_⟩
          rwa [hbindings, assignmentOf_bindPattern hb (hlength t ht)]
      | condition conditionKind htype hnested hdepth hbindings hnode =>
        have hbuilt := fun t ↦ built_condition_iff h hb hb₁ hgrows₁ hlength hreader hconstraints
          hnode (t := t)
        have hlength₁ : BuiltLength kb base facts b₁ := by
          intro t ht
          rw [hdepth]
          exact hlength t ((hbuilt t).mp ht).1
        rw [ih hb₁ hrest hfold hlength₁]
        simp only [mem_evaluate_condition htype hnested, hbuilt, hbindings, and_assoc]

omit hb in
/-- The tuples delivered to the end of a group's chain are those that its evaluation lists. -/
theorem GroupChain.delivered_iff {group : List ParsedPattern}
    (hgroup : BetaNetworkBuilder.PlainGroup kind (rulesConstraints kb.rules) group) {n : ℕ}
    (hchain : GroupChain kb.network n group) {t : List FactPtr} :
    Delivered kb base (fun _ ↦ none) {f | f ∈ facts} kb.roots n t ↔
      t ∈ evaluate base.heap facts group fun _ ↦ none := by
  obtain ⟨start, b, last, hshape, hbuild, hgrows, hlast, hedge⟩ := hchain
  have hstart : BuiltLength kb base facts { network := start } := by
    rintro t rfl
    rfl
  have hbuilt := built_foldlM_iff h (BetaNetworkBuilder.simple_start hshape) hgroup.element hbuild
    hgrows hstart (u := t)
  rw [hlast] at hbuilt
  rw [delivered_iff_emitted h.network.shape.wellFormed hedge]
  refine hbuilt.trans ⟨?_, fun ht ↦ ⟨[], t, rfl, rfl, ht⟩⟩
  rintro ⟨_, t', rfl, rfl, ht'⟩
  exact ht'

end Groups

/-! ### Runs -/

variable {kind : ParsedConstraint → ValueKind} {kb : KnowledgeBase} {steps : ℕ}

/-- The sessions of a client of plain rules that adds and retracts facts, with the facts that have
been in working memory so far: a fact is added when it has no id yet, or when it has been retracted
before. Facts outside of working memory may be written at will. -/
inductive PlainRun (kind : ParsedConstraint → ValueKind) (kb : KnowledgeBase) (steps : ℕ) :
    Set FactPtr → Session → Prop
  | start (heap) : PlainRun kind kb steps ∅ (newSession kb steps heap)
  | add {known s fact} : PlainRun kind kb steps known s → fact ∉ s.facts →
      (s.heap fact).id = 0 ∨ fact ∈ known →
      ReadsKind kind (rulesConstraints kb.rules) s.heap fact →
      PlainRun kind kb steps (known ∪ (addFact kb steps fact s).1.facts)
        (addFact kb steps fact s).1
  | retract {known s} (fact : FactPtr) : PlainRun kind kb steps known s →
      PlainRun kind kb steps known (retractFact kb (logicalRetract kb steps) fact s).1
  | write {known s fact fields} : PlainRun kind kb steps known s → fact ∉ s.facts →
      (∀ f ∈ s.facts, SameReads s.heap (writeFields fact fields s).heap f) →
      PlainRun kind kb steps known (writeFields fact fields s)

theorem ReadsKind.congr {constraints : Set ParsedConstraint} {heap heap' : Heap} {f : FactPtr}
    (hreads : ∀ name, getField heap' f name = getField heap f name)
    (h : ReadsKind kind constraints heap f) : ReadsKind kind constraints heap' f := by
  intro c hc
  simp only [hreads]
  exact h c hc

/-- A new id is an integer, and all other reads are as before. -/
theorem ReadsKind.of_fields {constraints : Set ParsedConstraint} {heap heap' : Heap} {f : FactPtr}
    (hfields : ∀ g, (heap' g).fields = (heap g).fields) (h : ReadsKind kind constraints heap f) :
    ReadsKind kind constraints heap' f := by
  have hread : ∀ {field valueKind},
      (∀ v, getField heap f field = some v → v.hasKind valueKind = true) →
      ∀ v, getField heap' f field = some v → v.hasKind valueKind = true := by
    intro field valueKind hold v hv
    by_cases hthis : field = "this"
    · subst hthis
      rw [getField, if_pos rfl] at hv
      obtain rfl := Option.some.inj hv
      have hid := hold (.int64 (heap f).id) rfl
      cases valueKind <;> exact hid
    · refine hold v ?_
      simpa only [getField, hthis, hfields, getFieldFrom_congr hfields, if_false] using hv
  intro c hc
  obtain ⟨hleft, hright⟩ := h c hc
  exact ⟨hread hleft, fun binding field v hbound ↦ hread (fun v ↦ hright binding field v hbound) v⟩

theorem PlainNetwork.sound (h : PlainNetwork kind kb.rules kb.network) : kb.Sound where
  wellFormed := h.shape.wellFormed
  keysFromJoins := h.shape.keysFromJoins
  localExpressions := by
    intro c hc expression hexpression
    obtain ⟨own, hplain⟩ := h.plain.plain_of_mem (h.mem_of_tests hc)
    rw [hplain.rightArithExpr] at hexpression
    cases hexpression

/-- Integers and texts are plain values. -/
theorem PlainNetwork.plainReads (h : PlainNetwork kind kb.rules kb.network) {heap : Heap}
    {f : FactPtr} (hkind : ReadsKind kind (rulesConstraints kb.rules) heap f) :
    PlainReads kb.network heap f := by
  have hplain : ∀ {v : ConstraintValue} {valueKind}, v.hasKind valueKind = true →
      v.isPlain = true := by
    intro v valueKind hv
    cases v with
    | int64 i => rfl
    | string s => rfl
    | _ => cases valueKind <;> cases hv
  intro field hfield v hv
  cases hfield with
  | @left c hc =>
    have hmem := h.mem_of_tests hc
    obtain ⟨own, hconstraint⟩ := h.plain.plain_of_mem hmem
    rw [hconstraint.left.alphaField_eq, or_self] at hv
    exact hplain ((hkind c hmem).1 v hv)
  | @right c binding _ hc hright =>
    have hmem := h.mem_of_tests hc
    obtain ⟨own, hconstraint⟩ := h.plain.plain_of_mem hmem
    rcases hconstraint.right with ⟨-, -, -, hnone⟩ | ⟨binding', field', hsome, -, -, hfield⟩
    · cases hnone.symm.trans hright
    · cases hsome.symm.trans hright
      rw [hfield.alphaField_eq, or_self] at hv
      exact hplain ((hkind c hmem).2 binding field v hright hv)

section Session

variable {source : FactPtr → Option String} {known : Set FactPtr} {s : Session}

variable (steps) in
/-- Adding a fact leaves the fields of every fact, and no other fact enters working memory. -/
theorem SessionInv.addFact_parts (hkb : kb.Sound) (h : SessionInv kb (fun _ ↦ none) known s)
    {fact : FactPtr} (hnew : fact ∉ s.facts) (hid : (s.heap fact).id = 0 ∨ fact ∈ known)
    (hplain : PlainReads kb.network s.heap fact) :
    let s' := (RulesForge.addFact kb steps fact s).1
    (∀ f, (s'.heap f).fields = (s.heap f).fields) ∧ s'.facts ⊆ insert fact s.facts := by
  intro s'
  rcases addFact_cases kb steps fact s with hs' | ⟨name, hname, hzero, hs' | hs'⟩
  · rw [show s' = s from hs']
    exact ⟨fun _ ↦ rfl, Set.subset_insert _ _⟩
  · rw [show s' = writeType fact name s from hs']
    exact ⟨fun f ↦ (writeType_heap fact f name s).1, Set.subset_insert _ _⟩
  · have hentered : Entered known fact name s (enterFact kb fact name s) := h.entered hnew hid
    obtain ⟨-, hbase⟩ := h.addEntered steps hkb (fun _ _ ↦ rfl) hzero hnew hid hname hplain
      (enterFact kb fact name s).transaction
    rw [← activateEntryPoint_eq] at hbase
    rw [← show s' = _ from hs'] at hbase
    refine ⟨fun f ↦ ?_, ?_⟩
    · rw [(base_parts hbase).1]
      exact hentered.fields f
    · rw [facts_of_base hbase]
      exact hentered.facts.subset

variable (steps) in
/-- Retracting a fact leaves the heap, and no fact enters working memory. -/
theorem SessionInv.retractFact_parts (hkb : kb.Sound) (h : SessionInv kb (fun _ ↦ none) known s)
    (fact : FactPtr) :
    let s' := (RulesForge.retractFact kb (logicalRetract kb steps) fact s).1
    s'.heap = s.heap ∧ s'.facts ⊆ s.facts := by
  intro s'
  have hs' : s' = (RulesForge.retractFact kb (logicalRetract kb steps) fact s).1 := rfl
  unfold RulesForge.retractFact at hs'
  split at hs'
  · rw [hs']
    exact ⟨rfl, subset_rfl⟩
  · split at hs'
    · rw [hs']
      exact ⟨rfl, subset_rfl⟩
    · cases hget : s.workingMemory.get (s.heap fact).id with
      | none =>
        rw [hget] at hs'
        rw [hs']
        exact ⟨rfl, subset_rfl⟩
      | some p =>
        rw [hget] at hs'
        cases htransaction : s.transaction with
        | some t =>
          rw [htransaction] at hs'
          rw [hs']
          exact ⟨rfl, subset_rfl⟩
        | none =>
          rw [htransaction] at hs'
          obtain ⟨-, hfacts, hheap, -⟩ :=
            h.removeFact steps hkb rfl ⟨_, h.get_eq_some_iff.mp hget⟩
          rw [hs']
          exact ⟨hheap, hfacts.subset.trans Set.sdiff_subset⟩

/-- **Every state of a run satisfies the invariant**, and what the constraints read stays of its
kind. -/
theorem PlainRun.inv (hnet : PlainNetwork kind kb.rules kb.network) (hkb : kb.Sound)
    (h : PlainRun kind kb steps known s) :
    SessionInv kb (fun _ ↦ none) known s ∧
      ∀ f ∈ s.facts, ReadsKind kind (rulesConstraints kb.rules) s.heap f := by
  induction h with
  | start heap =>
    have hinv : SessionInv kb (fun _ ↦ none) ∅ (newSession kb steps heap) :=
      newSession_inv hkb heap
    exact ⟨hinv, fun f hf ↦ absurd (hinv.known_facts hf) (Set.notMem_empty f)⟩
  | @add known s fact _ hnew hid hkind ih =>
    obtain ⟨hinv, hkinds⟩ := ih
    have hplain := hnet.plainReads hkind
    obtain ⟨hfields, hfacts⟩ := hinv.addFact_parts steps hkb hnew hid hplain
    refine ⟨hinv.addFact hkb (fun _ _ ↦ rfl) rfl hnew hid hplain, fun f hf ↦ ?_⟩
    rcases hfacts hf with rfl | hf
    · exact hkind.of_fields hfields
    · exact (hkinds f hf).of_fields hfields
  | retract fact _ ih =>
    obtain ⟨hinv, hkinds⟩ := ih
    obtain ⟨hheap, hfacts⟩ := hinv.retractFact_parts steps hkb fact
    refine ⟨hinv.retractFact hkb fact fun _ _ ↦ rfl, fun f hf ↦ ?_⟩
    rw [hheap]
    exact hkinds f (hfacts hf)
  | @write known s fact fields _ hnew hreads ih =>
    obtain ⟨hinv, hkinds⟩ := ih
    have hheap := fun f ↦ writeFields_heap fact f fields s
    refine ⟨hinv.of_reads hkb hnew rfl rfl rfl hinv.hint (fun f _ ↦ (hheap f).1)
      (fun f _ ↦ (hheap f).2) hreads, fun f hf ↦ ?_⟩
    exact (hkinds f hf).congr (hreads f hf).getField

/-- The facts of working memory are listed once. -/
theorem StoreInv.facts_nodup (h : StoreInv kb known s) :
    (s.workingMemory.facts.map Prod.snd).Nodup := by
  refine List.Nodup.map_on ?_ (List.Nodup.of_map _ h.unique)
  rintro ⟨id, f⟩ hf ⟨id', f'⟩ hf' rfl
  exact Prod.ext ((h.id_eq hf).symm.trans (h.id_eq hf')) rfl

/-- The memory of a terminal node, as a list of tuples, is the evaluation of its group. -/
theorem SessionInv.terminal_perm (hnet : PlainNetwork kind kb.rules kb.network) (hkb : kb.Sound)
    (h : SessionInv kb (fun _ ↦ none) known s)
    (hkinds : ∀ f ∈ s.facts, ReadsKind kind (rulesConstraints kb.rules) s.heap f) {n i : ℕ}
    {bindings : Bindings} (hn : kb.network.kind n = .terminal i bindings)
    {group : List ParsedPattern}
    (hgroup : BetaNetworkBuilder.PlainGroup kind (rulesConstraints kb.rules) group)
    (hchain : GroupChain kb.network n group) :
    ((s.mem n).terminal.map TokenWME.facts).Perm
      (evaluate s.heap (s.workingMemory.facts.map Prod.snd) group fun _ ↦ none) := by
  have hfacts : s.facts = {f | f ∈ s.workingMemory.facts.map Prod.snd} := by
    ext f
    simp [Session.facts]
  have hstate : PlainState kind kb s {f | f ∈ s.workingMemory.facts.map Prod.snd} := by
    rw [← hfacts]
    exact ⟨hnet, fun f hf ↦ (h.known_id f (h.known_facts hf)).1, hkinds⟩
  have hterminal := (h.settled.node n).2
  simp only [hn] at hterminal
  have hnodup : ((s.mem n).terminal.map TokenWME.facts).Nodup := by
    refine List.Nodup.map_on (fun w hw w' hw' heq ↦ ?_) hterminal.nodup
    exact h.settled.token_unique hkb.wellFormed ((hterminal.mem_terminal w).mp hw)
      ((hterminal.mem_terminal w').mp hw') heq
  refine (List.perm_ext_iff_of_nodup hnodup (evaluate_nodup h.facts_nodup _ _)).mpr fun t ↦ ?_
  rw [← hchain.delivered_iff hstate hgroup, ← hfacts,
    ← h.settled.exists_token_iff hkb.wellFormed hkb.localExpressions h.plain, List.mem_map]
  exact exists_congr fun w ↦ and_congr_left fun _ ↦ hterminal.mem_terminal w

/-- The terminal nodes of a rule in a session with exact memories. -/
theorem SessionInv.terminals_perm (hplain : PlainRules kind kb.rules) (hnet : PlainNetwork kind kb.rules kb.network)
    (hkb : kb.Sound) (h : SessionInv kb (fun _ ↦ none) known s)
    (hkinds : ∀ f ∈ s.facts, ReadsKind kind (rulesConstraints kb.rules) s.heap f) {i : ℕ}
    {rule : ParsedRule} (hrule : kb.rules[i]? = some rule) :
    List.Forall₂ (fun n group ↦ ((s.mem n).terminal.map TokenWME.facts).Perm
        (evaluate s.heap (s.workingMemory.facts.map Prod.snd) group fun _ ↦ none))
      (kb.network.terminals i) rule.compiledGroups := by
  have hgroups : ∀ group ∈ rule.compiledGroups,
      BetaNetworkBuilder.PlainGroup kind (rulesConstraints kb.rules) group :=
    fun group hgroup ↦ hplain.plainGroup (List.mem_of_getElem? hrule) hgroup
  have hterminals : ∀ n ∈ kb.network.terminals i,
      ∃ bindings, kb.network.kind n = .terminal i bindings := by
    intro n hn
    have hkind := List.of_mem_filter hn
    cases hn' : kb.network.kind n with
    | terminal j bindings =>
      obtain rfl : j = i := by simpa [hn', NodeKind.isTerminalOf] using hkind
      exact ⟨bindings, rfl⟩
    | _ => simp [hn', NodeKind.isTerminalOf] at hkind
  have hchains := (List.forall₂_and_left _ _).mpr ⟨hterminals, hnet.chains hrule⟩
  refine List.Forall₂.flip (((List.forall₂_and_left _ _).mpr ⟨hgroups, hchains.flip⟩).imp ?_)
  rintro group n ⟨hgroup, ⟨bindings, hn⟩, hchain⟩
  exact h.terminal_perm hnet hkb hkinds hn hgroup hchain

end Session

/-- **Terminal nodes hold the matches**: in every state of every run of additions and retractions,
the terminal nodes of a plain rule are, in order, those of its condition groups, and each holds
one token for every tuple of facts that the direct evaluation of its group on working memory
lists, and no other token. -/
theorem terminals_evaluate (kb : KnowledgeBase) (steps : ℕ) (kind : ParsedConstraint → ValueKind)
    (hcompile : compileNetwork kb.rules = .ok kb.network) (hplain : PlainRules kind kb.rules)
    {known : Set FactPtr} {s : Session} (hrun : PlainRun kind kb steps known s) {i : ℕ}
    {rule : ParsedRule} (hrule : kb.rules[i]? = some rule) :
    List.Forall₂ (fun n group ↦ ((s.mem n).terminal.map TokenWME.facts).Perm
        (evaluate s.heap (s.workingMemory.facts.map Prod.snd) group fun _ ↦ none))
      (kb.network.terminals i) rule.compiledGroups := by
  have hnet := compileNetwork_groups hplain hcompile
  have hkb := hnet.sound
  obtain ⟨hinv, hkinds⟩ := hrun.inv hnet hkb
  exact hinv.terminals_perm hplain hnet hkb hkinds hrule

/-! ### A rule with NOT and EXISTS -/

/-- The constraint `x > 0`. -/
def positiveX : ParsedConstraint :=
  { leftField := "x", op := .gt, rightLiteral := some (.int64 0) }

/-- `$a : A(x > 0), exists B(x == $a.x), not C(x == $a.x)`. -/
def guardedRule : ParsedRule :=
  { name := "guarded"
    conditionGroups :=
      [[{ binding := "$a", factType := "A", constraintRoot := some (.leaf positiveX) },
        { type := .exists
          nestedPatterns := [{ factType := "B", constraintRoot := some (.leaf sameX) }] },
        { type := .not
          nestedPatterns := [{ factType := "C", constraintRoot := some (.leaf sameX) }] }]] }

def guardedBase : KnowledgeBase :=
  { sameXBase with
    rules := [guardedRule]
    network := (compileNetwork [guardedRule]).toOption.getD {} }

/-- An `A` at address `1`, a `B` at address `2` and a `C` at every other address, all with
`x = 1`. -/
def guardedHeap : Heap := fun p ↦
  { type := if p = 1 then "A" else if p = 2 then "B" else "C", fields := [("x", .int64 1)] }

theorem positiveX_plain : positiveX.Plain (fun _ ↦ .int64) "$a" where
  comparison := trivial
  fieldBinding := rfl
  leftBinding := rfl
  rightValueList := rfl
  temporalConstraint := rfl
  rightArithExpr := rfl
  left := fun h ↦ by cases h
  right := .inl ⟨.int64 0, rfl, rfl, rfl⟩

theorem sameX_plain : sameX.Plain (fun _ ↦ .int64) "" where
  comparison := trivial
  fieldBinding := rfl
  leftBinding := rfl
  rightValueList := rfl
  temporalConstraint := rfl
  rightArithExpr := rfl
  left := fun h ↦ by cases h
  right := .inr ⟨"$a", "x", rfl, by decide, rfl, fun h ↦ by cases h⟩

/-- A pattern with one plain constraint. -/
theorem plain_of_leaf {pattern : ParsedPattern} {c : ParsedConstraint}
    (hroot : pattern.constraintRoot = some (.leaf c))
    (hc : c.Plain (fun _ ↦ .int64) pattern.binding) : pattern.Plain fun _ ↦ .int64 where
  conjunctive tree htree := by
    obtain rfl := Option.some.inj (hroot.symm.trans htree)
    exact .leaf c
  constraints c' hc' := by
    rw [ParsedPattern.constraints, hroot] at hc'
    rw [List.mem_singleton.mp hc']
    exact hc

theorem guardedRules_plain : PlainRules (fun _ ↦ .int64) guardedBase.rules where
  nonempty rule hrule group hgroup := by
    obtain rfl := List.mem_singleton.mp hrule
    obtain rfl := List.mem_singleton.mp hgroup
    exact List.cons_ne_nil _ _
  element rule hrule group hgroup pattern hpattern := by
    obtain rfl := List.mem_singleton.mp hrule
    obtain rfl := List.mem_singleton.mp hgroup
    simp only [List.mem_cons, List.not_mem_nil, or_false] at hpattern
    rcases hpattern with rfl | rfl | rfl
    · exact ⟨_, .standard rfl rfl (plain_of_leaf rfl positiveX_plain)⟩
    · exact ⟨_, .nested (.inr rfl) rfl rfl rfl (plain_of_leaf rfl sameX_plain)⟩
    · exact ⟨_, .nested (.inl rfl) rfl rfl rfl (plain_of_leaf rfl sameX_plain)⟩

theorem guarded_readsKind {heap : Heap} {f : FactPtr} (hx : getField heap f "x" = some (.int64 1)) :
    ReadsKind (fun _ ↦ .int64) (rulesConstraints guardedBase.rules) heap f := by
  have hread : ∀ v, getField heap f "x" = some v → v.hasKind .int64 = true := by
    intro v hv
    obtain rfl := Option.some.inj (hx.symm.trans hv)
    rfl
  rintro c ⟨rule, hrule, group, hgroup, pattern, hpattern, hc⟩
  obtain rfl := List.mem_singleton.mp hrule
  obtain rfl := List.mem_singleton.mp hgroup
  simp only [List.mem_cons, List.not_mem_nil, or_false] at hpattern
  have hc' : c = positiveX ∨ c = sameX := by
    rcases hpattern with rfl | rfl | rfl
    · exact .inl (List.mem_singleton.mp hc)
    · exact .inr (List.mem_singleton.mp hc)
    · exact .inr (List.mem_singleton.mp hc)
  rcases hc' with rfl | rfl
  · exact ⟨hread, fun _ _ _ hbound ↦ by cases hbound⟩
  · refine ⟨hread, fun binding field v hbound ↦ ?_⟩
    cases hbound
    exact hread v

/-- The session with the `A`, and the one with the `B` as well. -/
def loneSession : Session := (addFact guardedBase 1 1 (newSession guardedBase 1 guardedHeap)).1

def guardedSession : Session := (addFact guardedBase 1 2 loneSession).1

theorem guardedSession_run : PlainRun (fun _ ↦ .int64) guardedBase 1
    (∅ ∪ loneSession.facts ∪ guardedSession.facts) guardedSession := by
  have hempty : ∀ f, f ∉ (newSession guardedBase 1 guardedHeap).facts := by
    rintro f ⟨id, hid⟩
    have hstore : (newSession guardedBase 1 guardedHeap).workingMemory.facts = [] := rfl
    rw [hstore] at hid
    exact absurd hid List.not_mem_nil
  have hlone : 2 ∉ loneSession.facts := by
    rintro ⟨id, hid⟩
    have hstore : loneSession.workingMemory.facts = [(1, 1)] := rfl
    rw [hstore] at hid
    cases List.mem_singleton.mp hid
  exact .add (.add (.start guardedHeap) (hempty 1) (.inl rfl) (guarded_readsKind rfl)) hlone
    (.inl rfl) (guarded_readsKind rfl)

/-- The `A` is matched while there is a `B` and no `C`. -/
theorem terminals_evaluate_guarded :
    List.Forall₂ (fun n group ↦ ((guardedSession.mem n).terminal.map TokenWME.facts).Perm
        (evaluate guardedSession.heap (guardedSession.workingMemory.facts.map Prod.snd) group
          fun _ ↦ none))
      (guardedBase.network.terminals 0) guardedRule.compiledGroups ∧
    guardedBase.network.terminals 0 = [7] ∧
    (guardedSession.mem 7).terminal.map TokenWME.facts = [[1]] :=
  ⟨terminals_evaluate guardedBase 1 (fun _ ↦ .int64) rfl guardedRules_plain
    guardedSession_run rfl, by decide +kernel, by decide +kernel⟩

end RulesForge
