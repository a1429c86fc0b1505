import Mathlib.Logic.Relation
import RulesForge.Rete.Activation
import RulesForge.Rete.CompiledChains

/-!
# The depth of tokens

The builder counts the facts that a token will have at each node; the nodes build the tokens. The
runs below are those of any session over a compiled network: the session primes the roots, facts
reach the nodes from the right, nodes hand on tokens, and queries are executed. A node may hand on
**any token that its code can form** from a token it was given (`Emits`): which facts pass its tests,
what it has kept and what it has sent before is left open.

In every such run, each token given to the node of a pattern has the depth that the builder had
reached at the pattern, and a name stands for the fact that the pattern introducing it matched
(`token_depth`), when no query hands its arguments to a root.
-/

namespace RulesForge

/-! ### Runs -/

/-- What the nodes have been given so far, and the memories of the terminal nodes. A token is the
list of its facts. -/
structure NetworkState where
  left : ℕ → List (List FactPtr) := fun _ ↦ []
  right : ℕ → List FactPtr := fun _ ↦ []
  results : ℕ → List (List FactPtr) := fun _ ↦ []

namespace NetworkState

variable (net : QueryNetwork) (st : NetworkState)

/-- The memory of a terminal node after a token: a rule's terminal node drops what is retracted, a
query's all that is not asserted. -/
def remember (n : ℕ) (t : List FactPtr) (type : PropagationType) : List (List FactPtr) :=
  match net.kind n, type with
  | .rete (.terminal ..), .assert | .queryTerminal _, .assert => t :: st.results n
  | .rete (.terminal ..), .retract | .queryTerminal _, .retract | .queryTerminal _, .modify =>
    (st.results n).filter (· ≠ t)
  | _, _ => st.results n

/-- `left_activate` of a node. -/
def leftActivate (n : ℕ) (t : List FactPtr) (type : PropagationType) : NetworkState :=
  { st with
    left := Function.update st.left n (t :: st.left n)
    results := Function.update st.results n (st.remember net n t type) }

/-- `right_activate` of a node. -/
def rightActivate (n : ℕ) (fact : FactPtr) : NetworkState :=
  { st with right := Function.update st.right n (fact :: st.right n) }

/-- `QueryTerminalNode::clear_results`. -/
def clearResults (n : ℕ) : NetworkState :=
  { st with results := Function.update st.results n [] }

end NetworkState

/-- A row of a query's result: the facts of a token under the names of the query. -/
def queryRow (bindings : Bindings) (t : List FactPtr) (name : String) : Option FactPtr :=
  (bindings.lookup name).bind (t[·]?)

/-- What a node can hand on for a token it was given: the token with the facts that it matched. A
join adds a fact from its right, an accumulate node the result fact, an unnest node an item of the
collection, and a query call the outputs of a row. -/
inductive Emits (c : Compilation) (st : NetworkState) : ℕ → List FactPtr → List FactPtr → Prop
  | join {p k s f} : c.network.kind p = .rete k → k.isJoin = true → s ∈ st.left p →
      f ∈ st.right p → Emits c st p s [f]
  | condition {p k s} : c.network.kind p = .rete k → k.isCondition = true → s ∈ st.left p →
      Emits c st p s []
  | eval {p expression bindings fields s} :
      c.network.kind p = .eval expression bindings fields → s ∈ st.left p → Emits c st p s []
  | accumulate {p source type bindings joins s result} :
      c.network.kind p = .accumulate source type bindings joins → s ∈ st.left p →
      Emits c st p s [result]
  | unnest {p source type bindings constraints s idx owner item} :
      c.network.kind p = .unnest source type bindings constraints → s ∈ st.left p →
      bindings.lookup source.sourceBinding = some idx → s[idx]? = some owner →
      Emits c st p s [item]
  | queryCall {p call bindings outputs s q names t facts} :
      c.network.kind p = .queryCall call bindings outputs → s ∈ st.left p →
      c.queryNodes.lookup call.queryName = some q → c.network.kind q = .queryTerminal names →
      t ∈ st.left q → outputs.mapM (queryRow names t) = some facts → Emits c st p s facts

/-- One activation of a node. `admits` says which arguments queries are executed with, by the
application or by a query call. -/
inductive Activates (c : Compilation) (admits : String → List FactPtr → Prop) :
    NetworkState → NetworkState → Prop
  | prime {st n} : n ∈ c.network.betaRootNodes →
      Activates c admits st (st.leftActivate c.network n [] .assert)
  | right {st p n f} : p ∈ c.network.parents n → (c.network.kind p).isBetaNode = false →
      Activates c admits st (st.rightActivate n f)
  | left {st p n s facts type} : Emits c st p s facts → p ∈ c.network.parents n →
      Activates c admits st (st.leftActivate c.network n (s ++ facts) type)
  | executeQuery {st name i terminal n args} :
      c.parameterizedQueryInputs.lookup name = some i →
      c.network.kind i = .queryInput terminal → i ∈ c.network.parents n → admits name args →
      Activates c admits st ((st.clearResults terminal).leftActivate c.network n args .assert)

/-- The states of a session. -/
def RunState (c : Compilation) (admits : String → List FactPtr → Prop) (st : NetworkState) : Prop :=
  Relation.ReflTransGen (Activates c admits) {} st

/-- Queries are executed with as many arguments as they have parameters. -/
def Arity (ctx : BuildContext) (name : String) (args : List FactPtr) : Prop :=
  ∀ query ∈ ctx.queries, query.name = name → 0 < query.parameterCount →
    args.length = query.parameterCount

/-! ### The discipline -/

namespace Chain

/-- The facts that each pattern of a chain matched on the way to a token, with the arguments that it
started from. -/
structure MatchedBy (c : Compilation) (st : NetworkState) (X : Chain) (i : ℕ) (args : List FactPtr)
    (matched : List (List FactPtr)) : Prop where
  args_length : args.length = X.parameters.length
  length : matched.length = i
  emits : ∀ j P facts, X.placed[j]? = some P → matched[j]? = some facts →
    Emits c st P.node (args ++ (matched.take j).flatten) facts

/-- The names of a chain with the facts that its parameters and patterns matched. -/
def namedFacts (ctx : BuildContext) (X : Chain) (args : List FactPtr)
    (matched : List (List FactPtr)) : List (List (String × ℕ) × List FactPtr) :=
  (X.parameters.map (·.parameterName)).zip (args.map ([·])) ++
    (X.placed.map (·.element.introduces ctx)).zip matched

/-- **The discipline.** Every token given to the node of a pattern has the depth of the pattern, and
in the memory of the terminal node every name stands for the fact that was matched by the
pattern, parameter or query output introducing it. -/
structure Disciplined (ctx : BuildContext) (c : Compilation) (st : NetworkState) (X : Chain) :
    Prop where
  depth : ∀ P ∈ X.placed, ∀ t ∈ st.left P.node, t.length = P.depth
  bound : ∀ t ∈ st.results X.terminal, ∃ args matched,
    X.MatchedBy c st X.placed.length args matched ∧ t = args ++ matched.flatten ∧
      ∀ name idx, X.bindings.lookup name = some idx →
        ∃ fact, t[idx]? = some fact ∧ introducedFact name (X.namedFacts ctx args matched) = some fact

end Chain

/-! ### What is kept along a run -/

/-- The nodes have been given at least as much. -/
structure NetworkState.Le (st st' : NetworkState) : Prop where
  left : ∀ n, ∀ t ∈ st.left n, t ∈ st'.left n
  right : ∀ n, ∀ f ∈ st.right n, f ∈ st'.right n

theorem NetworkState.le_leftActivate (net : QueryNetwork) (st : NetworkState) (n : ℕ)
    (t : List FactPtr) (type : PropagationType) : st.Le (st.leftActivate net n t type) where
  left m s hs := by
    show s ∈ Function.update st.left n (t :: st.left n) m
    by_cases hm : m = n
    · subst hm
      rw [Function.update_self]
      exact List.mem_cons_of_mem _ hs
    · rwa [Function.update_of_ne hm]
  right _ _ h := h

theorem NetworkState.le_rightActivate (st : NetworkState) (n : ℕ) (fact : FactPtr) :
    st.Le (st.rightActivate n fact) where
  left _ _ h := h
  right m f hf := by
    show f ∈ Function.update st.right n (fact :: st.right n) m
    by_cases hm : m = n
    · subst hm
      rw [Function.update_self]
      exact List.mem_cons_of_mem _ hf
    · rwa [Function.update_of_ne hm]

theorem length_of_mapM {α β : Type} {f : α → Option β} {l : List α} {l' : List β}
    (h : l.mapM f = some l') : l'.length = l.length := by
  induction l generalizing l' with
  | nil => simp at h; simp [← h]
  | cons a l ih =>
    simp only [List.mapM_cons, Option.bind_eq_bind, Option.bind_eq_some_iff] at h
    obtain ⟨b, -, bs, hbs, hl'⟩ := h
    cases hl'
    simp [ih hbs]

section Runs

variable {ctx : BuildContext} {c : Compilation} {st st' : NetworkState} {X : Chain} {p i : ℕ}
  {s facts args : List FactPtr} {matched : List (List FactPtr)}

theorem Emits.mono (h : Emits c st p s facts) (hle : st.Le st') : Emits c st' p s facts := by
  cases h with
  | join hkind hjoin hs hf => exact .join hkind hjoin (hle.left _ _ hs) (hle.right _ _ hf)
  | condition hkind hcondition hs => exact .condition hkind hcondition (hle.left _ _ hs)
  | eval hkind hs => exact .eval hkind (hle.left _ _ hs)
  | accumulate hkind hs => exact .accumulate hkind (hle.left _ _ hs)
  | unnest hkind hs hidx howner => exact .unnest hkind (hle.left _ _ hs) hidx howner
  | queryCall hkind hs hq hterminal ht hrow =>
    exact .queryCall hkind (hle.left _ _ hs) hq hterminal (hle.left _ _ ht) hrow

theorem Emits.mem_left (h : Emits c st p s facts) : s ∈ st.left p := by
  cases h <;> assumption

/-- A node that hands on tokens is a beta node and no input node. -/
theorem Emits.kind (h : Emits c st p s facts) :
    (c.network.kind p).isBetaNode = true ∧ ∀ terminal, c.network.kind p ≠ .queryInput terminal := by
  cases h with
  | join hkind hjoin hs hf =>
    rename_i k f
    rw [hkind]
    cases k <;> simp_all [NodeKind.isJoin, QueryNodeKind.isBetaNode, NodeKind.isBetaNode]
  | condition hkind hcondition hs =>
    rename_i k
    rw [hkind]
    cases k <;> simp_all [NodeKind.isCondition, QueryNodeKind.isBetaNode, NodeKind.isBetaNode]
  | eval hkind => rw [hkind]; exact ⟨rfl, by simp⟩
  | accumulate hkind => rw [hkind]; exact ⟨rfl, by simp⟩
  | unnest hkind => rw [hkind]; exact ⟨rfl, by simp⟩
  | queryCall hkind => rw [hkind]; exact ⟨rfl, by simp⟩

theorem Chain.MatchedBy.mono (h : X.MatchedBy c st i args matched) (hle : st.Le st') :
    X.MatchedBy c st' i args matched :=
  ⟨h.args_length, h.length, fun j P facts hP hfacts ↦ (h.emits j P facts hP hfacts).mono hle⟩

/-- One more pattern of the chain. -/
theorem Chain.MatchedBy.snoc (h : X.MatchedBy c st i args matched) {P : Placement}
    (hP : X.placed[i]? = some P) (hemits : Emits c st P.node (args ++ matched.flatten) facts) :
    X.MatchedBy c st (i + 1) args (matched ++ [facts]) := by
  refine ⟨h.args_length, by simp [h.length], fun j Q facts' hQ hfacts' ↦ ?_⟩
  by_cases hj : j < matched.length
  · rw [List.getElem?_append_left hj] at hfacts'
    rw [List.take_append_of_le_length hj.le]
    exact h.emits j Q facts' hQ hfacts'
  · have hlt := (List.getElem?_eq_some_iff.mp hfacts').1
    simp only [List.length_append, List.length_singleton] at hlt
    obtain rfl : j = matched.length := by omega
    rw [h.length] at hQ
    cases hP.symm.trans hQ
    rw [List.getElem?_concat_length] at hfacts'
    cases hfacts'
    rw [List.take_left']
    · exact hemits
    · rfl

/-- What holds in every state of a session: each token that a node of a chain was given has come
down the chain. -/
structure DepthInv (c : Compilation) (st : NetworkState) : Prop where
  traced : ∀ X ∈ c.chains, ∀ i n, X.nodes[i]? = some n → ∀ t ∈ st.left n,
    ∃ args matched, X.MatchedBy c st i args matched ∧ t = args ++ matched.flatten
  results : ∀ n, ∀ t ∈ st.results n, t ∈ st.left n
  right : ∀ n, ∀ f ∈ st.right n, ∃ p ∈ c.network.parents n, (c.network.kind p).isBetaNode = false

theorem depthInv_start (c : Compilation) : DepthInv c {} :=
  ⟨fun X _ i n _ t ht ↦ by simp at ht, fun n t ht ↦ by simp at ht, fun n f hf ↦ by simp at hf⟩

theorem DepthInv.leftActivate (h : DepthInv c st) {n : ℕ} {t : List FactPtr}
    (type : PropagationType)
    (ht : ∀ X ∈ c.chains, ∀ i, X.nodes[i]? = some n →
      ∃ args matched, X.MatchedBy c st i args matched ∧ t = args ++ matched.flatten) :
    DepthInv c (st.leftActivate c.network n t type) := by
  have hle := st.le_leftActivate c.network n t type
  refine ⟨fun X hX i m hm s hs ↦ ?_, fun m s hs ↦ ?_, h.right⟩
  · change s ∈ Function.update st.left n (t :: st.left n) m at hs
    by_cases hmn : m = n
    · subst hmn
      rw [Function.update_self] at hs
      rcases List.mem_cons.mp hs with rfl | hs
      · obtain ⟨args, matched, hmatched, heq⟩ := ht X hX i hm
        exact ⟨args, matched, hmatched.mono hle, heq⟩
      · obtain ⟨args, matched, hmatched, heq⟩ := h.traced X hX i m hm s hs
        exact ⟨args, matched, hmatched.mono hle, heq⟩
    · rw [Function.update_of_ne hmn] at hs
      obtain ⟨args, matched, hmatched, heq⟩ := h.traced X hX i m hm s hs
      exact ⟨args, matched, hmatched.mono hle, heq⟩
  · change s ∈ Function.update st.results n (st.remember c.network n t type) m at hs
    by_cases hmn : m = n
    · subst hmn
      rw [Function.update_self] at hs
      have hcases : s = t ∨ s ∈ st.results m := by
        unfold NetworkState.remember at hs
        split at hs
        all_goals first
          | exact List.mem_cons.mp hs
          | exact .inr (List.mem_of_mem_filter hs)
          | exact .inr hs
      rcases hcases with rfl | hs
      · show s ∈ Function.update st.left m (s :: st.left m) m
        rw [Function.update_self]
        exact List.mem_cons_self
      · exact hle.left m s (h.results m s hs)
    · rw [Function.update_of_ne hmn] at hs
      exact hle.left m s (h.results m s hs)

variable (hc : c.Inv ctx)
include hc

/-- **The step lemma.** An activation of a node keeps the invariant. -/
theorem DepthInv.step (h : DepthInv c st) (hstep : Activates c (Arity ctx) st st') :
    DepthInv c st' := by
  cases hstep with
  | @prime n hroot =>
    refine h.leftActivate .assert fun X hX i hn ↦ ?_
    obtain ⟨rfl, hinput⟩ := (hc.chains X hX).1.root i n hn hroot
    exact ⟨[], [], ⟨by simp [hc.parameters X hX hinput], rfl, by simp⟩, rfl⟩
  | @right p n f hp hbeta =>
    have hle := st.le_rightActivate n f
    refine ⟨fun X hX i m hm t ht ↦ ?_, h.results, fun m g hg ↦ ?_⟩
    · obtain ⟨args, matched, hmatched, heq⟩ := h.traced X hX i m hm t ht
      exact ⟨args, matched, hmatched.mono hle, heq⟩
    · change g ∈ Function.update st.right n (f :: st.right n) m at hg
      by_cases hmn : m = n
      · subst hmn
        exact ⟨p, hp, hbeta⟩
      · rw [Function.update_of_ne hmn] at hg
        exact h.right m g hg
  | @left p n s facts type hemits hp =>
    refine h.leftActivate type fun X hX i hn ↦ ?_
    obtain ⟨hbeta, hnot⟩ := hemits.kind
    have hX' := (hc.chains X hX).1
    have hsource := hX'.fed i n hn p hp hbeta
    cases i with
    | zero => exact absurd (hX'.input p hsource).2 (hnot _)
    | succ j =>
      obtain ⟨P, hP, rfl⟩ := Option.map_eq_some_iff.mp hsource
      have hj : X.nodes[j]? = some P.node := by
        rw [Chain.nodes, List.getElem?_append_left]
        · rw [List.getElem?_map, hP]
          rfl
        · simpa using (List.getElem?_eq_some_iff.mp hP).1
      obtain ⟨args, matched, hmatched, rfl⟩ := h.traced X hX j P.node hj s hemits.mem_left
      exact ⟨args, matched ++ [facts], hmatched.snoc hP hemits, by simp⟩
  | @executeQuery name i terminal n args hname hkind hn hargs =>
    have hcleared : DepthInv c (st.clearResults terminal) := by
      refine ⟨fun X hX j m hm t ht ↦ ?_, fun m t ht ↦ ?_, h.right⟩
      · obtain ⟨args, matched, hmatched, heq⟩ := h.traced X hX j m hm t ht
        exact ⟨args, matched, hmatched.mono ⟨fun _ _ h ↦ h, fun _ _ h ↦ h⟩, heq⟩
      change t ∈ Function.update st.results terminal [] m at ht
      by_cases hm : m = terminal
      · rw [hm, Function.update_self] at ht
        simp at ht
      · rw [Function.update_of_ne hm] at ht
        exact h.results m t ht
    refine hcleared.leftActivate .assert fun X hX j hj ↦ ?_
    have hX' := (hc.chains X hX).1
    have hsource := hX'.fed j n hj i hn (by rw [hkind]; rfl)
    cases j with
    | zero =>
      obtain ⟨query, hquery, hqueryName, hcount, hlength⟩ := (hc.inputs name i hname).2 X hX hsource
      refine ⟨args, [], ⟨?_, rfl, by simp⟩, by simp⟩
      rw [hlength]
      exact hargs query hquery hqueryName hcount
    | succ j =>
      -- The node of a pattern is no input node.
      obtain ⟨P, hP, hnode⟩ := Option.map_eq_some_iff.mp hsource
      have hfits := hX'.fits P (List.mem_of_getElem? hP)
      rw [hnode, hkind] at hfits
      unfold ConditionElement.Fits at hfits
      cases hP : P.element.kind <;> simp [hP] at hfits

/-- The number of facts that a node adds is the width of its pattern. -/
theorem Emits.length_eq (h : DepthInv c st) (hX : X ∈ c.chains) {P : Placement} (hP : P ∈ X.placed)
    (hemits : Emits c st P.node s facts) : facts.length = P.element.width ctx := by
  have hX' := (hc.chains X hX).1
  have hfits := hX'.fits P hP
  unfold ConditionElement.Fits at hfits
  unfold ConditionElement.width ConditionElement.addsFactToToken ConditionElement.outputs
  cases hemits with
  | join hkind hjoin hs hf =>
    rename_i k f
    rw [hkind] at hfits
    cases hP' : P.element.kind with
    | «forall» =>
      obtain ⟨q, hq, hbeta⟩ := h.right P.node f hf
      rw [hX'.rightless P hP hP' q hq] at hbeta
      cases hbeta
    | standard => rfl
    | _ => cases k <;> simp_all [NodeKind.isJoin, NodeKind.isCondition]
  | condition hkind hcondition hs =>
    rename_i k
    rw [hkind] at hfits
    cases hP' : P.element.kind <;> cases k <;>
      simp_all [NodeKind.isJoin, NodeKind.isCondition]
  | eval hkind hs => rw [hkind] at hfits; cases hP' : P.element.kind <;> simp_all
  | accumulate hkind hs => rw [hkind] at hfits; cases hP' : P.element.kind <;> simp_all
  | unnest hkind hs hidx howner => rw [hkind] at hfits; cases hP' : P.element.kind <;> simp_all
  | queryCall hkind hs hq hterminal ht hrow =>
    rename_i call bindings outputs q names t
    have hlength : facts.length = outputs.length := length_of_mapM hrow
    rw [hkind] at hfits
    cases hP' : P.element.kind <;> simp_all

theorem DepthInv.run (hrun : RunState c (Arity ctx) st) : DepthInv c st := by
  induction hrun with
  | refl => exact depthInv_start c
  | tail _ hstep ih => exact ih.step hc hstep

/-- The facts that the patterns of a chain matched, counted. -/
theorem Chain.MatchedBy.length_flatten (h : DepthInv c st) (hX : X ∈ c.chains)
    (hmatched : X.MatchedBy c st i args matched) (hi : i ≤ X.placed.length) {j : ℕ} (hj : j ≤ i) :
    (matched.take j).flatten.length = patternsWidth ctx ((X.placed.map (·.element)).take j) := by
  have hlengths : (matched.take j).map List.length =
      ((X.placed.map (·.element)).take j).map (·.width ctx) := by
    refine List.ext_getElem ?_ fun k hk hk' ↦ ?_
    · simp [hmatched.length]
      omega
    · simp only [List.length_map, List.length_take] at hk
      have hk₁ : k < matched.length := by omega
      have hk₂ : k < X.placed.length := by rw [hmatched.length] at hk₁; omega
      simp only [List.getElem_map, List.getElem_take]
      exact Emits.length_eq hc h hX (List.getElem_mem hk₂)
        (hmatched.emits k _ _ (List.getElem?_eq_getElem hk₂) (List.getElem?_eq_getElem hk₁))
  rw [List.length_flatten, hlengths]
  rfl

omit hc in
theorem Chain.MatchedBy.flatten_namedFacts
    (hmatched : X.MatchedBy c st X.placed.length args matched) :
    ((X.namedFacts ctx args matched).map (·.2)).flatten = args ++ matched.flatten := by
  rw [Chain.namedFacts, List.map_append, List.map_snd_zip (by simp [hmatched.args_length]),
    List.map_snd_zip (by simp [hmatched.length]), List.flatten_append]
  congr 1
  clear hmatched
  induction args with
  | nil => rfl
  | cons a args ih => simpa using ih

/-- Every pattern matched enough facts for the names that it introduces. -/
theorem Chain.MatchedBy.inRange (h : DepthInv c st) (hX : X ∈ c.chains) (hrange : X.InRange ctx)
    (hmatched : X.MatchedBy c st X.placed.length args matched) :
    ∀ entry ∈ X.namedFacts ctx args matched, ∀ x ∈ entry.1, x.2 < entry.2.length := by
  rintro ⟨names, facts⟩ hentry x hx
  rcases List.mem_append.mp hentry with hentry | hentry
  · obtain ⟨hnames, hfacts⟩ := List.of_mem_zip hentry
    obtain ⟨e, -, rfl⟩ := List.mem_map.mp hnames
    obtain ⟨a, -, rfl⟩ := List.mem_map.mp hfacts
    unfold ConditionElement.parameterName at hx
    split at hx
    · simp at hx
    · rw [List.mem_singleton.mp hx]
      exact Nat.zero_lt_one
  · obtain ⟨j, hj⟩ := List.mem_iff_getElem?.mp hentry
    obtain ⟨hnames, hfacts⟩ := List.getElem?_zip_eq_some.mp hj
    rw [List.getElem?_map] at hnames
    obtain ⟨P, hP, rfl⟩ := Option.map_eq_some_iff.mp hnames
    have hmem := List.mem_of_getElem? hP
    show x.2 < facts.length
    rw [Emits.length_eq hc h hX hmem (hmatched.emits j P facts hP hfacts)]
    exact hrange P hmem x hx

omit hc in
theorem getElem?_atDepths (entries : List (List (String × ℕ) × List FactPtr)) (k : ℕ) :
    (atDepths entries)[k]? = (entries.map (·.1))[k]?.map
      (·, ((entries.map (·.2)).take k).flatten.length) := by
  simp only [atDepths, List.getElem?_map, List.getElem?_zipIdx, Nat.zero_add]
  cases entries[k]? <;> rfl

/-- The facts that a chain matched stand at the depths of its patterns. -/
theorem Chain.MatchedBy.atDepths_eq (h : DepthInv c st) (hX : X ∈ c.chains)
    (hmatched : X.MatchedBy c st X.placed.length args matched) :
    atDepths (X.namedFacts ctx args matched) =
      ChainBuilder.entries ctx X.parameters X.placed := by
  have hargs := hmatched.args_length
  have hlength := hmatched.length
  have hparameters : (X.parameters.map (·.parameterName)).length = (args.map ([·])).length := by
    simp [hargs]
  have hplaced : (X.placed.map (·.element.introduces ctx)).length = matched.length := by
    simp [hlength]
  have hfacts : (X.namedFacts ctx args matched).map (·.2) = args.map ([·]) ++ matched := by
    rw [Chain.namedFacts, List.map_append, List.map_snd_zip hparameters.ge,
      List.map_snd_zip hplaced.ge]
  have hnames : (X.namedFacts ctx args matched).map (·.1) =
      X.parameters.map (·.parameterName) ++ X.placed.map (·.element.introduces ctx) := by
    rw [Chain.namedFacts, List.map_append, List.map_fst_zip hparameters.le,
      List.map_fst_zip hplaced.le]
  refine List.ext_getElem? fun k ↦ ?_
  rw [getElem?_atDepths, hfacts, hnames]
  unfold ChainBuilder.entries
  by_cases hparameter : k < X.parameters.length
  · rw [List.getElem?_append_left (by simpa using hparameter),
      List.getElem?_append_left (by simpa using hparameter),
      List.take_append_of_le_length (by simp [hargs]; omega)]
    simp [← List.map_take, List.length_flatten, Function.comp_def, hargs, hparameter.le,
      List.getElem?_eq_getElem hparameter]
  · obtain ⟨j, rfl⟩ : ∃ j, k = X.parameters.length + j := ⟨k - X.parameters.length, by omega⟩
    rw [List.getElem?_append_right (by simp), List.getElem?_append_right (by simp)]
    simp only [List.length_map, List.length_zipIdx, Nat.add_sub_cancel_left, List.getElem?_map]
    cases hP : X.placed[j]? with
    | none => rfl
    | some P =>
      have hj := (List.getElem?_eq_some_iff.mp hP).1
      have hdepth := (hc.chains X hX).1.depth j P hP
      have htake : ((args.map ([·]) ++ matched).take (X.parameters.length + j)).flatten.length =
          X.parameters.length + (matched.take j).flatten.length := by
        have hlen : (args.map ([·])).length = X.parameters.length := by simp [hargs]
        rw [← hlen, List.take_length_add_append]
        simp [List.length_flatten, Function.comp_def]
      simp only [Option.map_some]
      rw [htake, hdepth, hmatched.length_flatten hc h hX le_rfl hj.le]

/-- A chain of a compiled network is disciplined. -/
theorem Chain.disciplined (h : DepthInv c st) (hX : X ∈ c.chains) : X.Disciplined ctx c st := by
  obtain ⟨hX', hrange⟩ := hc.chains X hX
  constructor
  · intro P hP t ht
    obtain ⟨i, hi⟩ := List.mem_iff_getElem?.mp hP
    have hlt := (List.getElem?_eq_some_iff.mp hi).1
    have hnode : X.nodes[i]? = some P.node := by
      rw [Chain.nodes, List.getElem?_append_left (by simpa using hlt), List.getElem?_map, hi]
      rfl
    obtain ⟨args, matched, hmatched, rfl⟩ := h.traced X hX i P.node hnode t ht
    have hcount := hmatched.length_flatten hc h hX hlt.le le_rfl
    rw [List.take_of_length_le hmatched.length.le] at hcount
    rw [List.length_append, hmatched.args_length, hcount, hX'.depth i P hi]
  · intro t ht
    have hnode : X.nodes[X.placed.length]? = some X.terminal := by
      rw [Chain.nodes, List.getElem?_append_right (by simp)]
      simp
    obtain ⟨args, matched, hmatched, rfl⟩ :=
      h.traced X hX _ X.terminal hnode t (h.results X.terminal t ht)
    refine ⟨args, matched, hmatched, rfl, fun name idx hidx ↦ ?_⟩
    rw [hX'.bindings, ← hmatched.atDepths_eq hc h hX] at hidx
    obtain ⟨fact, hfact, hintroduced⟩ :=
      getElem?_introducedAt (hmatched.inRange hc h hX hrange) hidx
    rw [hmatched.flatten_namedFacts] at hfact
    exact ⟨fact, hfact, hintroduced⟩

end Runs

/-- **Token depth.** In every state of a session over compiled rules and queries, when every query
with parameters has an empty body or begins with an unnest pattern, patterns that add no fact bind
no field, and queries are executed with as many arguments as they have parameters. -/
theorem token_depth {ctx : BuildContext} {rules : List RuleConditions} {c : Compilation}
    (hcompiled : Compilation.compileNetwork ctx rules = .ok c)
    (hrules : ∀ rule ∈ rules, rule.enabled = true →
      ∀ group ∈ rule.conditionGroups, ∀ e ∈ group, e.BindsOwnFact)
    (hqueries : ∀ query ∈ ctx.queries, query.EntersBelowRoots ∧
      ∀ e ∈ query.patterns.drop query.parameterCount, e.BindsOwnFact)
    {st : NetworkState} (hrun : RunState c (Arity ctx) st) :
    ∀ X ∈ c.chains, X.Disciplined ctx c st := by
  have hc := Compilation.inv_compileNetwork hrules hqueries hcompiled
  exact fun X hX ↦ X.disciplined hc (DepthInv.run hc hrun) hX

/-- A query with a parameter whose body unnests a collection of the parameter. -/
def unnestContext : BuildContext where
  queries := [{
    name := "items"
    parameterCount := 1
    patterns := [
      { binding := "$order", factType := "Order" },
      { kind := .unnest ⟨"$order", "items"⟩, binding := "$item", factType := "Item" }] }]

/-- The rule `$a : A() not B()`. -/
def unguardedRule : RuleConditions where
  conditionGroups :=
    [[{ binding := "$a", factType := "A" }, { kind := .not (some { factType := "B" }) }]]

/-- `token_depth` for a rule and the query over the items of an order, after the session is primed,
the query executed for the order 7, and its item 8 found. -/
theorem token_depth_unnest :
    ∃ c st, Compilation.compileNetwork unnestContext [unguardedRule] = .ok c ∧
      RunState c (Arity unnestContext) st ∧ st.results 6 = [[7, 8]] ∧
      ∀ X ∈ c.chains, X.Disciplined unnestContext c st := by
  have hcompiled : ∃ c, Compilation.compileNetwork unnestContext [unguardedRule] = .ok c ∧
      1 ∈ c.network.betaRootNodes ∧ c.parameterizedQueryInputs.lookup "items" = some 7 ∧
      c.network.kind 7 = .queryInput 6 ∧ 7 ∈ c.network.parents 5 ∧
      c.network.kind 5 = .unnest ⟨"$order", "items"⟩ "Item" [("$item", 1), ("$order", 0)] [] ∧
      5 ∈ c.network.parents 6 ∧ c.network.kind 6 = .queryTerminal [("$item", 1), ("$order", 0)] :=
    ⟨_, rfl, by decide, rfl, rfl, by decide, rfl, by decide, rfl⟩
  obtain ⟨c, hc, hroot, hinput, hkind, hedge, hunnest, hlast, hterminal⟩ := hcompiled
  have harity : Arity unnestContext "items" [7] := by
    simp [Arity, unnestContext]
  have hprimed : RunState c (Arity unnestContext) _ :=
    Relation.ReflTransGen.refl.tail (.prime hroot)
  have hexecuted := hprimed.tail (.executeQuery hinput hkind hedge harity)
  have hemits : Emits c (((({} : NetworkState).leftActivate c.network 1 [] .assert).clearResults
      6).leftActivate c.network 5 [7] .assert) 5 [7] [8] :=
    .unnest hunnest (by simp [NetworkState.leftActivate])
      (show List.lookup "$order" [("$item", 1), ("$order", 0)] = some 0 from rfl)
      (show ([7] : List FactPtr)[0]? = some 7 from rfl)
  have hitem : Activates c (Arity unnestContext) _
      (NetworkState.leftActivate c.network _ 6 ([7] ++ [8]) .assert) := .left hemits hlast
  have hrun := hexecuted.tail hitem
  refine ⟨c, _, hc, hrun, ?_, token_depth hc ?_ ?_ hrun⟩
  · simp [NetworkState.leftActivate, NetworkState.remember, NetworkState.clearResults, hterminal]
  · simp [unguardedRule, ConditionElement.BindsOwnFact, ConditionElement.leaves]
  · simp [unnestContext, ParsedQuery.EntersBelowRoots, ConditionElement.BindsOwnFact,
      ConditionElement.leaves]

/-- The query `byOwner(Person $p)` with the body `$a : A()`. -/
def parameterContext : BuildContext where
  queries := [{
    name := "byOwner"
    parameterCount := 1
    patterns := [{ binding := "$p", factType := "Person" }, { binding := "$a", factType := "A" }] }]

/-- **A root with a parameter.** The first node of such a query is primed with the empty token, and
the builder has counted the parameter. -/
theorem token_depth_parameter :
    ¬ ∀ (ctx : BuildContext) (rules : List RuleConditions) (c : Compilation),
      Compilation.compileNetwork ctx rules = .ok c → ∀ st, RunState c (Arity ctx) st →
        ∀ X ∈ c.chains, X.Disciplined ctx c st := by
  intro h
  have hcompiled : ∃ c, Compilation.compileNetwork parameterContext [] = .ok c ∧
      1 ∈ c.network.betaRootNodes ∧ ∃ X ∈ c.chains, ∃ P ∈ X.placed, P.depth = 1 ∧ P.node = 1 :=
    ⟨_, rfl, by decide, _, List.mem_cons_self, _, List.mem_cons_self, rfl, rfl⟩
  obtain ⟨c, hc, hroot, X, hX, P, hP, hdepth, hnode⟩ := hcompiled
  have hrun : RunState c (Arity parameterContext) _ :=
    Relation.ReflTransGen.refl.tail (.prime hroot)
  have hlength := (h parameterContext [] c hc _ hrun X hX).depth P hP []
    (by simp [hnode, NetworkState.leftActivate])
  rw [hdepth] at hlength
  cases hlength

end RulesForge
