import RulesForge.Rete.QueryNetworkShape

/-!
# The chains of a compiled knowledge base

What `compile_network` guarantees about every chain (`Chain.WellFormed`), and where the builder puts
each name: at the depth of the pattern that introduces it, counted from the facts that the
patterns before it add (`introducedAt`). A name that several patterns introduce is that of the last.

Two things are asked of the input. A query with parameters must not begin with a node that is also
a root (`ParsedQuery.EntersBelowRoots`), for its input node hands it tokens that hold the arguments.
And a pattern that adds no fact must not bind the fields of one (`ConditionElement.BindsOwnFact`).
-/

namespace RulesForge

open QueryNetwork

/-! ### Names -/

/-- The names that a pattern introduces, each with its place among the facts it adds. -/
def ConditionElement.introduces (ctx : BuildContext) (e : ConditionElement) :
    List (String × ℕ) :=
  (if e.binding = "" then [] else [(e.binding, 0)]) ++
    (e.leaves.filterMap (·.fieldBinding)).map (·, 0) ++ (e.outputs ctx).zipIdx

/-- The name of a parameter. -/
def ConditionElement.parameterName (e : ConditionElement) : List (String × ℕ) :=
  if e.binding = "" then [] else [(e.binding, 0)]

/-- The place of a name among those a pattern introduces; a later one counts. -/
def lastOffset (name : String) (names : List (String × ℕ)) : Option ℕ :=
  names.reverse.lookup name

/-- The index of a name in a token, from the names and the depth of each pattern. -/
def introducedAt (name : String) (entries : List (List (String × ℕ) × ℕ)) : Option ℕ :=
  entries.foldl (fun found entry ↦ ((lastOffset name entry.1).map (entry.2 + ·)).or found) none

/-- The fact of a name, from the names of each pattern and the facts that it matched. -/
def introducedFact (name : String) (entries : List (List (String × ℕ) × List FactPtr)) :
    Option FactPtr :=
  entries.foldl (fun found entry ↦
    match lastOffset name entry.1 with
    | some offset => entry.2[offset]?
    | none => found) none

/-- The entries of a list of matches, each at the number of facts before it. -/
def atDepths (entries : List (List (String × ℕ) × List FactPtr)) : List (List (String × ℕ) × ℕ) :=
  entries.zipIdx.map fun entry ↦
    (entry.1.1, ((entries.map (·.2)).take entry.2).flatten.length)

theorem mem_of_lastOffset {name : String} {names : List (String × ℕ)} {offset : ℕ}
    (h : lastOffset name names = some offset) : (name, offset) ∈ names := by
  have hmem : (name, offset) ∈ names.reverse := by
    unfold lastOffset at h
    obtain ⟨l₁, l₂, heq, -⟩ := List.lookup_eq_some_iff.mp h
    rw [heq]
    simp
  exact List.mem_reverse.mp hmem

theorem atDepths_concat (entries : List (List (String × ℕ) × List FactPtr))
    (entry : List (String × ℕ) × List FactPtr) :
    atDepths (entries ++ [entry]) =
      atDepths entries ++ [(entry.1, (entries.map (·.2)).flatten.length)] := by
  unfold atDepths
  rw [List.zipIdx_append, List.map_append]
  congr 1
  · refine List.map_congr_left fun e he ↦ ?_
    have hlt : e.2 < entries.length := by
      have := List.snd_lt_of_mem_zipIdx he
      omega
    rw [List.map_append, List.take_append_of_le_length (by simp; omega)]
  · simp

/-- **Depth and matched facts.** In the token that consists of the facts each pattern matched, the
fact at the index of a name is the one matched by the pattern that introduces it. -/
theorem getElem?_introducedAt {name : String}
    {entries : List (List (String × ℕ) × List FactPtr)}
    (hrange : ∀ entry ∈ entries, ∀ x ∈ entry.1, x.2 < entry.2.length) {idx : ℕ}
    (h : introducedAt name (atDepths entries) = some idx) :
    ∃ fact, (entries.map (·.2)).flatten[idx]? = some fact ∧
      introducedFact name entries = some fact := by
  induction entries using List.reverseRecOn generalizing idx with
  | nil => simp [introducedAt, atDepths] at h
  | append_singleton entries entry ih =>
    rw [atDepths_concat] at h
    simp only [introducedAt, List.foldl_append, List.foldl_cons, List.foldl_nil] at h
    have hflat : ((entries ++ [entry]).map (·.2)).flatten =
        (entries.map (·.2)).flatten ++ entry.2 := by
      simp
    rw [hflat]
    simp only [introducedFact, List.foldl_append, List.foldl_cons, List.foldl_nil]
    cases hoffset : lastOffset name entry.1 with
    | some offset =>
      simp only [hoffset, Option.map_some, Option.some_or, Option.some.injEq] at h
      have hlt := hrange entry (by simp) _ (mem_of_lastOffset hoffset)
      refine ⟨entry.2[offset], ?_, List.getElem?_eq_getElem hlt⟩
      rw [← h, List.getElem?_append_right (by omega), Nat.add_sub_cancel_left]
      exact List.getElem?_eq_getElem hlt
    | none =>
      simp only [hoffset, Option.map_none, Option.none_or] at h
      obtain ⟨fact, hfact, hintroduced⟩ :=
        ih (fun e he ↦ hrange e (List.mem_append_left _ he)) h
      refine ⟨fact, ?_, hintroduced⟩
      rw [List.getElem?_append_left (List.getElem?_eq_some_iff.mp hfact).1]
      exact hfact

/-- Inserting names one after the other, each at its place from a depth on. -/
def bindNames (depth : ℕ) (names : List (String × ℕ)) (bindings : Bindings) : Bindings :=
  names.foldl (fun m x ↦ SortedMap.insert x.1 (depth + x.2) m) bindings

theorem bindNames_append (depth : ℕ) (names names' : List (String × ℕ)) (bindings : Bindings) :
    bindNames depth (names ++ names') bindings =
      bindNames depth names' (bindNames depth names bindings) :=
  List.foldl_append

theorem lookup_bindNames (depth : ℕ) (names : List (String × ℕ)) (bindings : Bindings)
    (name : String) :
    (bindNames depth names bindings).lookup name =
      ((lastOffset name names).map (depth + ·)).or (bindings.lookup name) := by
  induction names using List.reverseRecOn with
  | nil => simp [bindNames, lastOffset]
  | append_singleton names x ih =>
    rw [bindNames_append]
    show (SortedMap.insert x.1 (depth + x.2) _).lookup name = _
    rw [SortedMap.lookup_insert, ih]
    unfold lastOffset
    rw [List.reverse_append]
    show _ = ((List.lookup name (x :: names.reverse)).map _).or _
    obtain ⟨key, offset⟩ := x
    by_cases hname : name = key
    · simp [hname]
    · simp [List.lookup_cons, hname, beq_eq_false_iff_ne.mpr hname]

namespace ChainBuilder

variable {ctx : BuildContext} {base start : ℕ} {b b' : ChainBuilder} {e : ConditionElement}

theorem bindingToIdx_collectInlineBindings (b : ChainBuilder) (leaves : List ParsedConstraint) :
    (b.collectInlineBindings leaves).bindingToIdx =
      bindNames b.patternDepth ((leaves.filterMap (·.fieldBinding)).map (·, 0)) b.bindingToIdx := by
  unfold collectInlineBindings
  induction leaves generalizing b with
  | nil => rfl
  | cons c leaves ih =>
    rw [List.foldl_cons]
    cases hbinding : c.fieldBinding with
    | none =>
      rw [List.filterMap_cons_none hbinding]
      exact ih b
    | some name =>
      rw [List.filterMap_cons_some hbinding]
      refine (ih _).trans ?_
      rfl

theorem bindingToIdx_bindPattern (b : ChainBuilder) (e : ConditionElement) :
    (b.bindPattern e).bindingToIdx = bindNames b.patternDepth
      ((if e.binding = "" then [] else [(e.binding, 0)]) ++
        (e.leaves.filterMap (·.fieldBinding)).map (·, 0)) b.bindingToIdx := by
  unfold bindPattern
  rw [bindingToIdx_collectInlineBindings, bindNames_append]
  split
  · rfl
  · rfl

theorem bindingToIdx_projectOutputs (b : ChainBuilder) (outputs : List String) :
    (b.projectOutputs outputs).bindingToIdx =
      bindNames b.patternDepth outputs.zipIdx b.bindingToIdx := by
  -- The counter of the fold and the places of the names run in step.
  have hfold (outputs : List String) (b : ChainBuilder) (depth k : ℕ)
      (hdepth : b.patternDepth = depth + k) :
      (b.projectOutputs outputs).bindingToIdx =
        bindNames depth (outputs.zipIdx k) b.bindingToIdx := by
    induction outputs generalizing b k with
    | nil => rfl
    | cons name outputs ih =>
      rw [List.zipIdx_cons]
      refine (ih { b.bind name b.patternDepth with patternDepth := b.patternDepth + 1 } (k + 1)
        (by show b.patternDepth + 1 = _; omega)).trans ?_
      show bindNames _ _ (SortedMap.insert name b.patternDepth b.bindingToIdx) = _
      rw [hdepth]
      rfl
  exact hfold outputs b b.patternDepth 0 rfl

/-- What the names of a pattern add to those in scope. -/
theorem bindingToIdx_addPattern (h : b.addPattern ctx e = .ok b') :
    b'.bindingToIdx = bindNames b.patternDepth (e.introduces ctx) b.bindingToIdx := by
  have hsame := sameNodes_bindPattern b e
  unfold addPattern at h
  split at h
  · cases h
  simp only at h
  split at h
  · cases h
  · cases h
    unfold advance ConditionElement.introduces
    rw [bindNames_append, ← bindingToIdx_bindPattern]
    cases hkind : e.kind with
    | queryCall call =>
      simp only [ConditionElement.outputs, hkind]
      rw [bindingToIdx_projectOutputs]
      show bindNames (b.bindPattern e).patternDepth _ _ = _
      rw [hsame.depth]
    | _ =>
      simp only [ConditionElement.outputs, hkind]
      split <;> rfl

/-- The node of a pattern is placed at the depth that the loop has reached. -/
theorem placed_addPattern (h : b.addPattern ctx e = .ok b') :
    ∃ P, b'.placed = b.placed ++ [P] ∧ P.depth = b.patternDepth := by
  have hsame := sameNodes_bindPattern b e
  unfold addPattern at h
  split at h
  · cases h
  simp only at h
  split at h
  · cases h
  · next n net hcreate =>
    cases h
    exact ⟨⟨e, (b.bindPattern e).patternDepth, n⟩,
      (advance_spec _ ctx e).2.1.trans (by rw [hsame.placed]), hsame.depth⟩

/-- The entries of the patterns placed so far. -/
def entries (ctx : BuildContext) (parameters : List ConditionElement) (placed : List Placement) :
    List (List (String × ℕ) × ℕ) :=
  parameters.zipIdx.map (fun e ↦ (e.1.parameterName, e.2)) ++
    placed.map fun P ↦ (P.element.introduces ctx, P.depth)

theorem introducedAt_concat (name : String) (entries : List (List (String × ℕ) × ℕ))
    (entry : List (String × ℕ) × ℕ) :
    introducedAt name (entries ++ [entry]) =
      ((lastOffset name entry.1).map (entry.2 + ·)).or (introducedAt name entries) := by
  simp [introducedAt]

/-- The parameters of a query only take places and names. -/
theorem foldl_addParameter (ctx : BuildContext) (parameters : List ConditionElement) (net : QueryNetwork)
    (isQuery : Bool) :
    let b := parameters.foldl addParameter { network := net, isQueryBuild := isQuery }
    b.network = net ∧ b.placed = [] ∧ b.patternDepth = parameters.length ∧
      ∀ name, b.bindingToIdx.lookup name = introducedAt name (entries ctx parameters []) := by
  induction parameters using List.reverseRecOn with
  | nil => exact ⟨rfl, rfl, rfl, fun _ ↦ rfl⟩
  | append_singleton parameters e ih =>
    rw [List.foldl_append]
    obtain ⟨hnetwork, hplaced, hdepth, hlookup⟩ := ih
    generalize parameters.foldl addParameter _ = b at hnetwork hplaced hdepth hlookup
    refine ⟨?_, ?_, ?_, fun name ↦ ?_⟩
    · show (b.addParameter e).network = net
      rw [← hnetwork]
      unfold addParameter
      split <;> rfl
    · show (b.addParameter e).placed = []
      rw [← hplaced]
      unfold addParameter
      split <;> rfl
    · show (b.addParameter e).patternDepth = _
      rw [List.length_append, ← hdepth]
      unfold addParameter
      split <;> rfl
    · have hentries : entries ctx (parameters ++ [e]) [] =
          entries ctx parameters [] ++ [(e.parameterName, parameters.length)] := by
        simp [entries, List.zipIdx_append]
      have hbindings : (b.addParameter e).bindingToIdx =
          bindNames b.patternDepth e.parameterName b.bindingToIdx := by
        unfold addParameter ConditionElement.parameterName
        split <;> rfl
      show (b.addParameter e).bindingToIdx.lookup name = _
      rw [hentries, introducedAt_concat, hbindings, lookup_bindNames, hlookup, hdepth]

/-- The rounds of the loop, one after the other. -/
theorem foldlM_addPattern {patterns parameters : List ConditionElement}
    (hb : b.Inv ctx base start)
    (hlookup : ∀ name,
      b.bindingToIdx.lookup name = introducedAt name (entries ctx parameters b.placed))
    (h : patterns.foldlM (fun b e ↦ b.addPattern ctx e) b = .ok b') :
    b'.Inv ctx base start ∧ Extends b.network b'.network ∧
      b'.placed.map (·.element) = b.placed.map (·.element) ++ patterns ∧
      ∀ name,
        b'.bindingToIdx.lookup name = introducedAt name (entries ctx parameters b'.placed) := by
  induction patterns generalizing b with
  | nil =>
    cases h
    exact ⟨hb, .refl _, by simp, hlookup⟩
  | cons e patterns ih =>
    rw [List.foldlM_cons] at h
    cases hadd : b.addPattern ctx e with
    | error message => rw [hadd] at h; cases h
    | ok b₁ =>
      rw [hadd] at h
      obtain ⟨hinv, hext, hplaced⟩ := hb.addPattern hadd
      obtain ⟨P, hP, hdepth⟩ := placed_addPattern hadd
      have hlookup₁ (name : String) : b₁.bindingToIdx.lookup name =
          introducedAt name (entries ctx parameters b₁.placed) := by
        have hentries : entries ctx parameters b₁.placed =
            entries ctx parameters b.placed ++ [(e.introduces ctx, b.patternDepth)] := by
          have helement : P.element = e := by
            rw [hP, List.map_append] at hplaced
            simpa using hplaced
          simp [entries, hP, helement, hdepth]
        rw [hentries, introducedAt_concat, bindingToIdx_addPattern hadd, lookup_bindNames, hlookup]
      obtain ⟨hinv', hext', hplaced', hlookup'⟩ := ih hinv hlookup₁ h
      refine ⟨hinv', hext.trans hext', ?_, hlookup'⟩
      rw [hplaced', hplaced, List.append_assoc]
      rfl

/-- **What `build` returns.** -/
theorem build_spec {net : QueryNetwork} {patterns : List ConditionElement} {isQuery : Bool}
    {count : ℕ} (hnet : net.Inv) (hcount : count ≤ patterns.length)
    (h : build ctx net patterns isQuery count = .ok b) :
    b.Inv ctx net.nodes.length count ∧ Extends net b.network ∧
      b.placed.map (·.element) = patterns.drop count ∧
      ∀ name, b.bindingToIdx.lookup name =
        introducedAt name (entries ctx (patterns.take count) b.placed) := by
  obtain ⟨hnetwork, hplaced, hdepth, hlookup⟩ :=
    foldl_addParameter ctx (patterns.take count) net isQuery
  unfold build at h
  generalize (patterns.take count).foldl addParameter _ = b₀ at h hnetwork hplaced hdepth hlookup
  rw [List.length_take, min_eq_left hcount] at hdepth
  have hb₀ : b₀.Inv ctx net.nodes.length count := by
    refine ⟨hnetwork ▸ hnet, by rw [hnetwork], ?_, ?_⟩
    · intro i P hP
      simp [hplaced] at hP
    · rw [hplaced, hdepth]
      rfl
  obtain ⟨hinv, hext, hmap, hbound⟩ := foldlM_addPattern hb₀ (by rw [hplaced]; exact hlookup) h
  refine ⟨hinv, hnetwork ▸ hext, ?_, hbound⟩
  rw [hmap, hplaced]
  rfl

end ChainBuilder

/-! ### Chains -/

/-- A pattern that adds no fact binds no field. -/
def ConditionElement.BindsOwnFact (e : ConditionElement) : Prop :=
  e.addsFactToToken = false → ∀ c ∈ e.leaves, c.fieldBinding = none

/-- A query without parameters, without a body, or with a body that begins with an unnest pattern:
the one node that is not a root when a chain begins with it. -/
def ParsedQuery.EntersBelowRoots (query : ParsedQuery) : Prop :=
  query.parameterCount = 0 ∨
    ∀ e ∈ (query.patterns.drop query.parameterCount).head?, ∃ source, e.kind = .unnest source

namespace Chain

/-- The nodes of a chain, with its terminal node last. -/
def nodes (X : Chain) : List ℕ := X.placed.map (·.node) ++ [X.terminal]

/-- The node whose tokens reach the `i`-th node. -/
def source (X : Chain) : ℕ → Option ℕ
  | 0 => X.input
  | i + 1 => X.placed[i]?.map (·.node)

/-- What is known of a chain: each of its nodes is fed by the one before it alone, the first one by
the input node or, as a root, by the session. -/
structure WellFormed (ctx : BuildContext) (net : QueryNetwork) (X : Chain) : Prop where
  lt : ∀ n ∈ X.nodes, n < net.nodes.length
  input : ∀ i, X.input = some i → i < net.nodes.length ∧ net.kind i = .queryInput X.terminal
  fed : ∀ i n, X.nodes[i]? = some n → ∀ p ∈ net.parents n, (net.kind p).isBetaNode = true →
    X.source i = some p
  root : ∀ i n, X.nodes[i]? = some n → n ∈ net.betaRootNodes → i = 0 ∧ X.input = none
  fits : ∀ P ∈ X.placed, P.element.Fits ctx (net.kind P.node)
  rightless : ∀ P ∈ X.placed, P.element.kind = .forall →
    ∀ p ∈ net.parents P.node, (net.kind p).isBetaNode = true
  depth : ∀ i P, X.placed[i]? = some P →
    P.depth = X.parameters.length + patternsWidth ctx ((X.placed.map (·.element)).take i)
  bindings : ∀ name, X.bindings.lookup name =
    introducedAt name (ChainBuilder.entries ctx X.parameters X.placed)

variable {ctx : BuildContext} {net net' : QueryNetwork} {X : Chain}

theorem mem_nodes_of_placed {P : Placement} (h : P ∈ X.placed) : P.node ∈ X.nodes :=
  List.mem_append_left _ (List.mem_map_of_mem h)

theorem WellFormed.mono (h : X.WellFormed ctx net) (hnet : net.Inv) (hext : Extends net net') :
    X.WellFormed ctx net' := by
  have hparents {n : ℕ} (hn : n ∈ X.nodes) : net'.parents n = net.parents n :=
    hext.parents_eq (h.lt n hn)
  have hkind {n p : ℕ} (hn : n ∈ X.nodes) (hp : p ∈ net'.parents n) : net'.kind p = net.kind p :=
    hext.kind_eq (hnet.parents_lt n p (hparents hn ▸ hp))
  refine ⟨fun n hn ↦ (h.lt n hn).trans_le hext.length_le, ?_, ?_, ?_, ?_, ?_, h.depth, h.bindings⟩
  · intro i hi
    obtain ⟨hlt, hkind⟩ := h.input i hi
    exact ⟨hlt.trans_le hext.length_le, by rw [hext.kind_eq hlt, hkind]⟩
  · intro i n hn p hp hbeta
    have hmem := List.mem_of_getElem? hn
    rw [hkind hmem hp] at hbeta
    exact h.fed i n hn p (hparents hmem ▸ hp) hbeta
  · intro i n hn hroot
    exact h.root i n hn (hext.roots n (h.lt n (List.mem_of_getElem? hn)) hroot)
  · intro P hP
    rw [hext.kind_eq (h.lt _ (mem_nodes_of_placed hP))]
    exact h.fits P hP
  · intro P hP hforall p hp
    rw [hkind (mem_nodes_of_placed hP) hp]
    exact h.rightless P hP hforall p (hparents (mem_nodes_of_placed hP) ▸ hp)

/-- A chain as `build` leaves it, with a terminal node below its last node. -/
theorem wellFormed_of_build {base : ℕ} {b : ChainBuilder} (parameters : List ConditionElement)
    (hb : b.Inv ctx base parameters.length)
    (hlookup : ∀ name, b.bindingToIdx.lookup name =
      introducedAt name (ChainBuilder.entries ctx parameters b.placed)) (kind : QueryNodeKind) :
    ({ parameters, placed := b.placed, bindings := b.bindingToIdx,
       terminal := b.network.nodes.length } : Chain).WellFormed ctx
      (b.network.createNode kind b.lastNode.toList).2 := by
  have hext := extends_createNode b.network kind b.lastNode.toList
  have hlength := createNode_length b.network kind b.lastNode.toList
  have hplaced (i : ℕ) (P : Placement) (hP : b.placed[i]? = some P) :=
    (hb.placed i P hP).mono hb.network hext
  have hmem {P : Placement} (hP : P ∈ b.placed) :
      ∃ i, PlacedAt ctx base parameters.length (b.network.createNode kind b.lastNode.toList).2
        b.placed i P := by
    obtain ⟨i, hi⟩ := List.mem_iff_getElem?.mp hP
    exact ⟨i, hplaced i P hi⟩
  -- The index of a node is that of a pattern, or the last one.
  have hindex (i n : ℕ) (hn : (b.placed.map (·.node) ++ [b.network.nodes.length])[i]? = some n) :
      (∃ P, b.placed[i]? = some P ∧ P.node = n) ∨
        i = b.placed.length ∧ n = b.network.nodes.length := by
    by_cases hi : i < b.placed.length
    · rw [List.getElem?_append_left (by simpa using hi), List.getElem?_map] at hn
      obtain ⟨P, hP, rfl⟩ := Option.map_eq_some_iff.mp hn
      exact .inl ⟨P, hP, rfl⟩
    · obtain ⟨hlt, hget⟩ := List.getElem?_eq_some_iff.mp hn
      simp only [List.length_append, List.length_map, List.length_singleton] at hlt
      obtain rfl : i = b.placed.length := by omega
      exact .inr ⟨rfl, by simpa using hget.symm⟩
  refine ⟨?_, by simp, ?_, ?_, ?_, ?_, ?_, hlookup⟩
  · intro n hn
    rcases List.mem_append.mp hn with hn | hn
    · obtain ⟨P, hP, rfl⟩ := List.mem_map.mp hn
      obtain ⟨i, h⟩ := hmem hP
      exact h.lt
    · rw [List.mem_singleton.mp hn, hlength]
      exact Nat.lt_succ_self _
  · intro i n hn p hp hbeta
    rcases hindex i n hn with ⟨P, hP, rfl⟩ | ⟨rfl, rfl⟩
    · obtain ⟨j, Q, rfl, hQ, rfl⟩ := (hplaced i P hP).fed p hp hbeta
      show b.placed[j]?.map (·.node) = _
      rw [hQ]
      rfl
    · rw [QueryNetwork.parents, createNode_self] at hp
      have hlast : b.lastNode = some p := Option.mem_toList.mp hp
      obtain ⟨Q, hQ, rfl⟩ := Option.map_eq_some_iff.mp hlast
      rw [List.getLast?_eq_getElem?] at hQ
      obtain ⟨j, hj⟩ : ∃ j, b.placed.length = j + 1 :=
        Nat.exists_eq_succ_of_ne_zero (by have := (List.getElem?_eq_some_iff.mp hQ).1; omega)
      show Chain.source _ b.placed.length = _
      rw [hj, Nat.add_sub_cancel] at hQ
      rw [hj]
      show b.placed[j]?.map (·.node) = _
      rw [hQ]
      rfl
  · intro i n hn hroot
    refine ⟨?_, rfl⟩
    rcases hindex i n hn with ⟨P, hP, rfl⟩ | ⟨rfl, rfl⟩
    · exact (hplaced i P hP).root hroot
    · have hroot' : b.network.nodes.length ∈ b.network.betaRootNodes := hroot
      exact absurd (hb.network.roots _ hroot').1 (lt_irrefl _)
  · intro P hP
    obtain ⟨i, h⟩ := hmem hP
    exact h.fits
  · intro P hP
    obtain ⟨i, h⟩ := hmem hP
    exact h.rightless
  · exact fun i P hP ↦ (hplaced i P hP).depth

end Chain

/-! ### The input node of a query -/

namespace QueryNetwork

variable {net : QueryNetwork} {i x n : ℕ}

theorem addChild_node (net : QueryNetwork) (i : ℕ) (hx : x < net.nodes.length) (n : ℕ) :
    (net.addChild i x).node n =
      if n = x then { net.node n with parents := net.parents n ++ [i] } else net.node n := by
  simp only [node, addChild, List.getElem?_modify, QueryNetwork.parents]
  by_cases hn : n = x
  · subst hn
    simp [List.getElem?_eq_getElem hx]
  · simp [hn, Ne.symm hn]

theorem addChild_kind (net : QueryNetwork) (i : ℕ) (hx : x < net.nodes.length) (n : ℕ) :
    (net.addChild i x).kind n = net.kind n := by
  unfold QueryNetwork.kind
  rw [addChild_node net i hx]
  split <;> rfl

theorem addChild_parents (net : QueryNetwork) (i : ℕ) (hx : x < net.nodes.length) (n : ℕ) :
    (net.addChild i x).parents n =
      if n = x then net.parents n ++ [i] else net.parents n := by
  unfold QueryNetwork.parents
  rw [addChild_node net i hx]
  split <;> rfl

theorem addChild_length (net : QueryNetwork) (i x : ℕ) :
    (net.addChild i x).nodes.length = net.nodes.length := by
  simp [addChild]

/-- An edge into a node that is neither a root nor shared. -/
theorem Inv.addChild (hnet : net.Inv) (hi : i < net.nodes.length) (hx : x < net.nodes.length)
    (hroot : x ∉ net.betaRootNodes) (hshared : (net.kind x).isShared = false) :
    (net.addChild i x).Inv := by
  have htail {n : ℕ} (h : net.IsTail n) : (net.addChild i x).IsTail n := by
    refine ⟨by rw [addChild_length]; exact h.1, ?_⟩
    rw [addChild_kind net i hx]
    exact h.2
  constructor
  · intro n p hp
    rw [addChild_length]
    rw [addChild_parents net i hx] at hp
    split at hp
    · rcases List.mem_append.mp hp with hp | hp
      · exact hnet.parents_lt n p hp
      · rw [List.mem_singleton.mp hp]
        exact hi
    · exact hnet.parents_lt n p hp
  · intro n hn
    obtain ⟨hlt, hbeta⟩ := hnet.roots n hn
    refine ⟨by rw [addChild_length]; exact hlt, fun p hp ↦ ?_⟩
    have hne : n ≠ x := fun h ↦ hroot (h ▸ hn)
    rw [addChild_parents net i hx, if_neg hne] at hp
    rw [addChild_kind net i hx]
    exact hbeta p hp
  · intro entry hentry
    obtain ⟨htail', hnode⟩ := hnet.alphas entry hentry
    have hne : entry.2.2 ≠ x := by
      rintro rfl
      rw [kind, hnode] at hshared
      cases hshared
    exact ⟨htail htail', by rw [addChild_node net i hx, if_neg hne]; exact hnode⟩
  · exact fun factType n h ↦ htail (hnet.entries factType n h)
  · exact fun name types h factType n h' ↦ htail (hnet.named name types h factType n h')
  · intro entry hentry
    obtain ⟨hlt, hkind, hcached, hparents⟩ := hnet.betas entry hentry
    have hne : entry.2.2 ≠ x := by
      rintro rfl
      rw [hkind, hcached] at hshared
      cases hshared
    refine ⟨by rw [addChild_length]; exact hlt, ?_, hcached, fun p ↦ ?_⟩
    · rw [addChild_kind net i hx, hkind]
    · rw [addChild_parents net i hx, if_neg hne]
      exact hparents p

theorem Extends.addChild {net' : QueryNetwork} (h : Extends net net')
    (hx : x < net'.nodes.length) (hnew : net.nodes.length ≤ x) : Extends net (net'.addChild i x) where
  length_le := by rw [addChild_length]; exact h.length_le
  node_eq n hn := by
    rw [addChild_node net' i hx, if_neg (by omega)]
    exact h.node_eq n hn
  roots := h.roots

end QueryNetwork

variable {ctx : BuildContext}

/-- The first node of a chain gets the input node of its query as a further parent. -/
theorem Chain.WellFormed.addInput {net : QueryNetwork} {X : Chain} {i x : ℕ}
    (h : X.WellFormed ctx net) (hnone : X.input = none) (hx : X.nodes[0]? = some x)
    (honly : ∀ j, X.nodes[j]? = some x → j = 0) (hroot : x ∉ net.betaRootNodes)
    (hi : i < net.nodes.length) (hkind : net.kind i = .queryInput X.terminal) :
    Chain.WellFormed ctx (net.addChild i x) { X with input := some i } := by
  have hlt := h.lt x (List.mem_of_getElem? hx)
  have hparents (n : ℕ) : (net.addChild i x).parents n =
      if n = x then net.parents n ++ [i] else net.parents n := addChild_parents net i hlt n
  refine ⟨?_, ?_, ?_, ?_, ?_, ?_, h.depth, h.bindings⟩
  · intro n hn
    rw [addChild_length]
    exact h.lt n hn
  · intro j hj
    cases hj
    rw [addChild_length, addChild_kind net i hlt]
    exact ⟨hi, hkind⟩
  · intro j n hn p hp hbeta
    rw [addChild_kind net i hlt] at hbeta
    rw [hparents] at hp
    by_cases hnx : n = x
    · subst hnx
      obtain rfl := honly j hn
      rw [if_pos rfl] at hp
      rcases List.mem_append.mp hp with hp | hp
      · have hsource := h.fed 0 n hn p hp hbeta
        change X.input = some p at hsource
        rw [hnone] at hsource
        cases hsource
      · rw [List.mem_singleton.mp hp]
        rfl
    · rw [if_neg hnx] at hp
      cases j with
      | zero =>
        have : some n = some x := hn.symm.trans hx
        exact absurd (Option.some.inj this) hnx
      | succ j => exact h.fed (j + 1) n hn p hp hbeta
  · intro j n hn hroot'
    have hj := (h.root j n hn hroot').1
    subst hj
    have : some n = some x := hn.symm.trans hx
    cases this
    exact absurd hroot' hroot
  · intro P hP
    rw [addChild_kind net i hlt]
    exact h.fits P hP
  · intro P hP hforall p hp
    rw [addChild_kind net i hlt]
    rw [hparents] at hp
    split at hp
    · rcases List.mem_append.mp hp with hp | hp
      · exact h.rightless P hP hforall p hp
      · rw [List.mem_singleton.mp hp, hkind]
        rfl
    · exact h.rightless P hP hforall p hp

/-! ### Compilation -/

/-- The patterns that a chain was built from bind what they add. -/
def Chain.InRange (ctx : BuildContext) (X : Chain) : Prop :=
  ∀ P ∈ X.placed, ∀ x ∈ P.element.introduces ctx, x.2 < P.element.width ctx

namespace Compilation

/-- What holds of a compilation so far. -/
structure Inv (ctx : BuildContext) (c : Compilation) : Prop where
  network : c.network.Inv
  chains : ∀ X ∈ c.chains, X.WellFormed ctx c.network ∧ X.InRange ctx
  inputs : ∀ name i, c.parameterizedQueryInputs.lookup name = some i →
    i < c.network.nodes.length ∧ ∀ X ∈ c.chains, X.input = some i →
      ∃ query ∈ ctx.queries, query.name = name ∧ 0 < query.parameterCount ∧
        X.parameters.length = query.parameterCount
  parameters : ∀ X ∈ c.chains, X.input = none → X.parameters = []

variable {ctx : BuildContext} {c c' : Compilation}

theorem inv_empty (ctx : BuildContext) : Inv ctx {} :=
  ⟨QueryNetwork.inv_empty, by simp, by simp, by simp⟩

end Compilation

/-- A pattern that the builder accepts binds its name only when it adds a fact. -/
theorem ChainBuilder.binding_of_addPattern {b b' : ChainBuilder}
    {e : ConditionElement} (h : b.addPattern ctx e = .ok b') :
    e.binding = "" ∨ e.addsFactToToken = true := by
  unfold addPattern at h
  split at h
  · cases h
  · next hnot =>
    by_cases hbinding : e.binding = ""
    · exact .inl hbinding
    · refine .inr ?_
      by_contra hadds
      exact hnot ⟨hbinding, Bool.not_eq_true _ ▸ hadds⟩

theorem ConditionElement.lt_width {e : ConditionElement}
    (hbinding : e.binding = "" ∨ e.addsFactToToken = true) (hown : e.BindsOwnFact) :
    ∀ x ∈ e.introduces ctx, x.2 < e.width ctx := by
  intro x hx
  unfold introduces at hx
  rcases List.mem_append.mp hx with hx | hx
  · cases hadds : e.addsFactToToken with
    | true =>
      have hzero : x.2 = 0 := by
        rcases List.mem_append.mp hx with hx | hx
        · split at hx
          · simp at hx
          · rw [List.mem_singleton.mp hx]
        · obtain ⟨name, -, rfl⟩ := List.mem_map.mp hx
          rfl
      simp [width, hadds, hzero]
    | false =>
      rcases List.mem_append.mp hx with hx | hx
      · rcases hbinding with hbinding | hbinding
        · simp [hbinding] at hx
        · rw [hadds] at hbinding
          cases hbinding
      · obtain ⟨name, hname, -⟩ := List.mem_map.mp hx
        obtain ⟨c, hc, hbinds⟩ := List.mem_filterMap.mp hname
        rw [hown hadds c hc] at hbinds
        cases hbinds
  · have hlt := List.snd_lt_of_mem_zipIdx hx
    have hadds : e.addsFactToToken = false := by
      unfold outputs at hlt
      unfold addsFactToToken
      cases hkind : e.kind <;> simp_all
    simpa [width, hadds] using hlt

theorem ChainBuilder.binding_of_foldlM {b b' : ChainBuilder}
    {patterns : List ConditionElement}
    (h : patterns.foldlM (fun b e ↦ b.addPattern ctx e) b = .ok b') :
    ∀ e ∈ patterns, e.binding = "" ∨ e.addsFactToToken = true := by
  induction patterns generalizing b with
  | nil => simp
  | cons e patterns ih =>
    rw [List.foldlM_cons] at h
    cases hadd : b.addPattern ctx e with
    | error message => rw [hadd] at h; cases h
    | ok b₁ =>
      rw [hadd] at h
      intro e' he'
      rcases List.mem_cons.mp he' with rfl | he'
      · exact binding_of_addPattern hadd
      · exact ih h e' he'

/-- The chain of a builder whose patterns bind what they add. -/
theorem ChainBuilder.inRange_of_build {net : QueryNetwork} {b : ChainBuilder}
    {patterns : List ConditionElement} {isQuery : Bool} {count : ℕ}
    (h : build ctx net patterns isQuery count = .ok b)
    (hplaced : b.placed.map (·.element) = patterns.drop count)
    (hown : ∀ e ∈ patterns.drop count, e.BindsOwnFact) :
    ∀ P ∈ b.placed, ∀ x ∈ P.element.introduces ctx, x.2 < P.element.width ctx := by
  intro P hP
  have hmem : P.element ∈ patterns.drop count := hplaced ▸ List.mem_map_of_mem hP
  exact ConditionElement.lt_width (binding_of_foldlM h P.element hmem) (hown P.element hmem)

namespace Compilation

variable {ctx : BuildContext} {c c' : Compilation}

/-- One more chain over a network that has grown. -/
theorem Inv.append (hc : c.Inv ctx) {X : Chain} (hnet : c'.network.Inv)
    (hchains : c'.chains = c.chains ++ [X]) (hext : Extends c.network c'.network)
    (hX : X.WellFormed ctx c'.network) (hrange : X.InRange ctx)
    (hparameters : X.input = none → X.parameters = [])
    (hinputs : ∀ name i, c'.parameterizedQueryInputs.lookup name = some i →
      i < c'.network.nodes.length ∧ ∀ Y ∈ c.chains ++ [X], Y.input = some i →
        ∃ query ∈ ctx.queries, query.name = name ∧ 0 < query.parameterCount ∧
          Y.parameters.length = query.parameterCount) : c'.Inv ctx := by
  refine ⟨hnet, fun Y hY ↦ ?_, hchains ▸ hinputs, fun Y hY ↦ ?_⟩
  · rcases List.mem_append.mp (hchains ▸ hY) with hY | hY
    · exact ⟨(hc.chains Y hY).1.mono hc.network hext, (hc.chains Y hY).2⟩
    · rw [List.mem_singleton.mp hY]
      exact ⟨hX, hrange⟩
  · rcases List.mem_append.mp (hchains ▸ hY) with hY | hY
    · exact hc.parameters Y hY
    · rw [List.mem_singleton.mp hY]
      exact hparameters

/-- A chain without an input node says nothing about the input nodes. -/
theorem Inv.inputs_append (hc : c.Inv ctx) {X : Chain} {net : QueryNetwork}
    (hext : Extends c.network net) (hX : X.input = none) (name : String) (i : ℕ)
    (hi : c.parameterizedQueryInputs.lookup name = some i) :
    i < net.nodes.length ∧ ∀ Y ∈ c.chains ++ [X], Y.input = some i →
      ∃ query ∈ ctx.queries, query.name = name ∧ 0 < query.parameterCount ∧
        Y.parameters.length = query.parameterCount := by
  obtain ⟨hlt, hchains⟩ := hc.inputs name i hi
  refine ⟨hlt.trans_le hext.length_le, fun Y hY hinput ↦ ?_⟩
  rcases List.mem_append.mp hY with hY | hY
  · exact hchains Y hY hinput
  · rw [List.mem_singleton.mp hY, hX] at hinput
    cases hinput

theorem Inv.compileGroup (hc : c.Inv ctx) {rule : ℕ} {group : List ConditionElement}
    (hown : ∀ e ∈ group, e.BindsOwnFact) (h : compileGroup ctx rule c group = .ok c') :
    c'.Inv ctx := by
  unfold Compilation.compileGroup at h
  split at h
  · cases h
  · next b hbuild =>
    cases h
    obtain ⟨hb, hext, hplaced, hlookup⟩ := ChainBuilder.build_spec hc.network (by simp) hbuild
    have hlast (p : ℕ) (hp : p ∈ b.lastNode.toList) : p < b.network.nodes.length :=
      (ChainBuilder.lastNode_spec hb (Option.mem_toList.mp hp)).1
    have hext' := hext.trans
      (extends_createNode b.network (.rete (.terminal rule b.bindingToIdx)) b.lastNode.toList)
    exact hc.append (hb.network.createNode _ hlast) rfl hext'
      (Chain.wellFormed_of_build [] hb hlookup _)
      (ChainBuilder.inRange_of_build hbuild hplaced hown) (fun _ ↦ rfl)
      (hc.inputs_append hext' rfl)

theorem Inv.compileRule (hc : c.Inv ctx) {rule : ℕ × RuleConditions}
    (hown : rule.2.enabled = true → ∀ group ∈ rule.2.conditionGroups, ∀ e ∈ group, e.BindsOwnFact)
    (h : compileRule ctx c rule = .ok c') : c'.Inv ctx := by
  unfold Compilation.compileRule at h
  split at h
  · cases h
    exact hc
  · next hskip =>
    have henabled : rule.2.enabled = true := by
      cases hrule : rule.2.enabled with
      | true => rfl
      | false => simp [hrule] at hskip
    replace hown := hown henabled
    generalize rule.2.conditionGroups = groups at h hown
    induction groups generalizing c with
    | nil =>
      cases h
      exact hc
    | cons group groups ih =>
      rw [List.foldlM_cons] at h
      cases hgroup : Compilation.compileGroup ctx rule.1 c group with
      | error message => rw [hgroup] at h; cases h
      | ok c₁ =>
        rw [hgroup] at h
        exact ih (hc.compileGroup (hown group List.mem_cons_self) hgroup) h
          fun group hgroup ↦ hown group (List.mem_cons_of_mem _ hgroup)

/-- The node that the input of a query feeds: it is new, no root, not shared, and comes once. -/
theorem firstNode_spec {query : ParsedQuery} {b : ChainBuilder} {base : ℕ}
    (hb : b.Inv ctx base query.parameterCount)
    (hplaced : b.placed.map (·.element) = query.patterns.drop query.parameterCount)
    (hcount : query.parameterCount ≠ 0) (hquery : query.EntersBelowRoots) {x : ℕ}
    (hx : b.firstNode.getD b.network.nodes.length = x) :
    base ≤ x ∧ x ∉ b.network.betaRootNodes ∧
      (x < b.network.nodes.length → (b.network.kind x).isShared = false) ∧
      (b.placed.map (·.node) ++ [b.network.nodes.length])[0]? = some x ∧
      ∀ j, (b.placed.map (·.node) ++ [b.network.nodes.length])[j]? = some x → j = 0 := by
  cases hhead : b.placed with
  | nil =>
    simp only [ChainBuilder.firstNode, hhead, List.head?_nil, Option.map_none,
      Option.getD_none] at hx
    subst hx
    refine ⟨hb.base_le, fun hroot ↦ absurd (hb.network.roots _ hroot).1 (lt_irrefl _),
      fun h ↦ absurd h (lt_irrefl _), rfl, fun j hj ↦ ?_⟩
    have := (List.getElem?_eq_some_iff.mp hj).1
    simp at this
    omega
  | cons P rest =>
    have hP : b.placed[0]? = some P := by rw [hhead]; rfl
    have hat := hb.placed 0 P hP
    simp only [ChainBuilder.firstNode, hhead, List.head?_cons, Option.map_some,
      Option.getD_some] at hx
    subst hx
    obtain ⟨source, hsource⟩ : ∃ source, P.element.kind = .unnest source := by
      refine hquery.resolve_left hcount P.element ?_
      rw [← hplaced, hhead]
      rfl
    obtain ⟨hbase, hroot⟩ := hat.fresh source hsource
    refine ⟨hbase, hroot, fun _ ↦ ?_, rfl, fun j hj ↦ ?_⟩
    · have hfits := hat.fits
      unfold ConditionElement.Fits at hfits
      rw [hsource] at hfits
      cases hkind : b.network.kind P.node <;> simp_all [QueryNodeKind.isShared]
    · -- A later node has the node before it as a left parent, and the first one has none.
      by_contra hne
      obtain ⟨k, rfl⟩ := Nat.exists_eq_succ_of_ne_zero hne
      rw [← hhead] at hj
      by_cases hk : k + 1 < b.placed.length
      · rw [List.getElem?_append_left (by simpa using hk), List.getElem?_map] at hj
        obtain ⟨Q, hQ, hnode⟩ := Option.map_eq_some_iff.mp hj
        obtain ⟨R, hR⟩ : ∃ R, b.placed[k]? = some R :=
          ⟨_, List.getElem?_eq_getElem (by omega)⟩
        have hlinked := (hb.placed (k + 1) Q hQ).linked k R rfl hR
        rw [hnode] at hlinked
        obtain ⟨m, -, hm, -⟩ := hat.fed R.node hlinked (hb.placed k R hR).fits.isBetaNode
        omega
      · have hlast := (List.getElem?_eq_some_iff.mp hj).1
        simp only [List.length_append, List.length_map, List.length_singleton] at hlast
        rw [List.getElem?_append_right (by simp; omega)] at hj
        have hzero : k + 1 - (b.placed.map (·.node)).length = 0 := by simp; omega
        rw [hzero] at hj
        have heq : b.network.nodes.length = P.node := Option.some.inj hj
        exact absurd hat.lt (by omega)

/-- One more chain with an input node above its first node. -/
theorem Inv.appendQuery (hc : c.Inv ctx) {query : ParsedQuery} (hmem : query ∈ ctx.queries)
    (hcount : 0 < query.parameterCount) {net : QueryNetwork} {X : Chain} {x : ℕ} (hnet : net.Inv)
    (hext : Extends c.network net) (hX : X.WellFormed ctx net) (hnone : X.input = none)
    (hrange : X.InRange ctx) (hparameters : X.parameters.length = query.parameterCount)
    (hbase : c.network.nodes.length ≤ x) (hroot : x ∉ net.betaRootNodes)
    (hshared : (net.kind x).isShared = false) (hfirst : X.nodes[0]? = some x)
    (honly : ∀ j, X.nodes[j]? = some x → j = 0) (queryNodes : List (String × ℕ)) :
    Inv ctx
      { network := (net.createNode (.queryInput X.terminal) []).2.addChild net.nodes.length x
        queryNodes := queryNodes
        parameterizedQueryInputs :=
          SortedMap.insert query.name net.nodes.length c.parameterizedQueryInputs
        chains := c.chains ++ [{ X with input := some net.nodes.length }] } := by
  have hlt := hX.lt x (List.mem_of_getElem? hfirst)
  have hstep := extends_createNode net (.queryInput X.terminal) []
  have hself := createNode_self net (.queryInput X.terminal) []
  have hlength := createNode_length net (.queryInput X.terminal) []
  have hi : net.nodes.length < (net.createNode (.queryInput X.terminal) []).2.nodes.length := by
    omega
  have hx := hlt.trans_le hstep.length_le
  refine hc.append ?_ rfl ((hext.trans hstep).addChild hx hbase)
    ((hX.mono hnet hstep).addInput hnone hfirst honly hroot hi (congrArg QueryNode.kind hself))
    hrange (fun h ↦ by cases h) ?_
  · refine (hnet.createNode _ (by simp)).addChild hi hx hroot ?_
    rw [hstep.kind_eq hlt]
    exact hshared
  intro name i h
  have hle := hext.length_le
  simp only [addChild_length, hlength]
  rw [SortedMap.lookup_insert] at h
  split at h
  · next hname =>
    cases h
    refine ⟨Nat.lt_succ_self _, fun Y hY hinput ↦ ?_⟩
    rcases List.mem_append.mp hY with hY | hY
    · have := ((hc.chains Y hY).1.input _ hinput).1
      omega
    · rw [List.mem_singleton.mp hY]
      exact ⟨query, hmem, hname.symm, hcount, hparameters⟩
  · obtain ⟨hold, hchains⟩ := hc.inputs name i h
    refine ⟨by omega, fun Y hY hinput ↦ ?_⟩
    rcases List.mem_append.mp hY with hY | hY
    · exact hchains Y hY hinput
    · rw [List.mem_singleton.mp hY] at hinput
      have : net.nodes.length = i := Option.some.inj hinput
      omega

theorem Inv.compileQuery (hc : c.Inv ctx) {query : ParsedQuery} (hmem : query ∈ ctx.queries)
    (hquery : query.EntersBelowRoots)
    (hown : ∀ e ∈ query.patterns.drop query.parameterCount, e.BindsOwnFact)
    (h : compileQuery ctx c query = .ok c') : c'.Inv ctx := by
  unfold Compilation.compileQuery at h
  split at h
  · cases h
  next b hbuild =>
  obtain ⟨hb, hext, hplaced, hlookup⟩ :=
    ChainBuilder.build_spec hc.network query.parameterCount_le hbuild
  have hlast (p : ℕ) (hp : p ∈ b.lastNode.toList) : p < b.network.nodes.length :=
    (ChainBuilder.lastNode_spec hb (Option.mem_toList.mp hp)).1
  have hlength : (query.patterns.take query.parameterCount).length = query.parameterCount := by
    rw [List.length_take, min_eq_left query.parameterCount_le]
  have hinv := hb.network.createNode (.queryTerminal b.bindingToIdx) hlast
  have hext' := hext.trans
    (extends_createNode b.network (.queryTerminal b.bindingToIdx) b.lastNode.toList)
  have hX := Chain.wellFormed_of_build (query.patterns.take query.parameterCount)
    (hlength.symm ▸ hb) hlookup (.queryTerminal b.bindingToIdx)
  have hrange := ChainBuilder.inRange_of_build hbuild hplaced hown
  simp only at h
  split at h
  · next hzero =>
    cases h
    refine hc.append hinv rfl hext' hX hrange (fun _ ↦ ?_) (hc.inputs_append hext' rfl)
    show query.patterns.take query.parameterCount = []
    rw [hzero]
    rfl
  · next hcount =>
    cases h
    obtain ⟨hbase, hroot, hshared, hfirst, honly⟩ := firstNode_spec hb hplaced hcount hquery rfl
    refine hc.appendQuery hmem (Nat.pos_of_ne_zero hcount) hinv hext' hX rfl hrange hlength hbase
      hroot ?_ hfirst honly _
    by_cases hx : b.firstNode.getD b.network.nodes.length < b.network.nodes.length
    · rw [(extends_createNode b.network _ _).kind_eq hx]
      exact hshared hx
    · have hlt := hX.lt _ (List.mem_of_getElem? hfirst)
      have heq : b.firstNode.getD b.network.nodes.length = b.network.nodes.length := by
        rw [createNode_length] at hlt
        omega
      rw [heq, QueryNetwork.kind, createNode_self]
      rfl

/-- **What compilation guarantees**, of rules and queries that bind what they add and of queries
whose input is not a root as well. -/
theorem inv_compileNetwork {rules : List RuleConditions}
    (hrules : ∀ rule ∈ rules, rule.enabled = true →
      ∀ group ∈ rule.conditionGroups, ∀ e ∈ group, e.BindsOwnFact)
    (hqueries : ∀ query ∈ ctx.queries, query.EntersBelowRoots ∧
      ∀ e ∈ query.patterns.drop query.parameterCount, e.BindsOwnFact)
    (h : compileNetwork ctx rules = .ok c) : c.Inv ctx := by
  unfold compileNetwork at h
  split at h
  · cases h
  next c₁ hcompiled =>
  have hindexed (indexed : List (ℕ × RuleConditions)) (hsub : ∀ rule ∈ indexed, rule.2 ∈ rules)
      (c₀ : Compilation) (hc₀ : c₀.Inv ctx)
      (h : indexed.foldlM (compileRule ctx) c₀ = .ok c₁) : c₁.Inv ctx := by
    induction indexed generalizing c₀ with
    | nil =>
      cases h
      exact hc₀
    | cons rule indexed ih =>
      rw [List.foldlM_cons] at h
      cases hrule : compileRule ctx c₀ rule with
      | error message => rw [hrule] at h; cases h
      | ok c₂ =>
        rw [hrule] at h
        exact ih (fun rule hrule ↦ hsub rule (List.mem_cons_of_mem _ hrule)) c₂
          (hc₀.compileRule (hrules _ (hsub rule List.mem_cons_self)) hrule) h
  have hc₁ : c₁.Inv ctx := by
    refine hindexed _ (fun rule hrule ↦ ?_) _ (inv_empty ctx) hcompiled
    obtain ⟨x, hx, rfl⟩ := List.mem_map.mp hrule
    exact List.fst_mem_of_mem_zipIdx hx
  -- The queries that are still to come are among those of the context.
  have hqueue (queries : List ParsedQuery) (hsub : ∀ query ∈ queries, query ∈ ctx.queries)
      (c₁ : Compilation) (hc₁ : c₁.Inv ctx)
      (h : queries.foldlM (compileQuery ctx) c₁ = .ok c) : c.Inv ctx := by
    induction queries generalizing c₁ with
    | nil =>
      cases h
      exact hc₁
    | cons query queries ih =>
      rw [List.foldlM_cons] at h
      cases hquery : compileQuery ctx c₁ query with
      | error message => rw [hquery] at h; cases h
      | ok c₂ =>
        rw [hquery] at h
        have hmem := hsub query List.mem_cons_self
        obtain ⟨henters, hown⟩ := hqueries query hmem
        exact ih (fun query hquery ↦ hsub query (List.mem_cons_of_mem _ hquery)) c₂
          (hc₁.compileQuery hmem henters hown hquery) h
  exact hqueue ctx.queries (fun _ h ↦ h) c₁ hc₁ h

end Compilation

end RulesForge
