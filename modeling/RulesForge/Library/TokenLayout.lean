import Mathlib.Data.List.Chain

/-!
# Tokens and the white space between them

A **reader** takes one token after another off a text. It passes over blanks, and where a spelling
of a token is followed by a letter that does not **extend** it, it reads the token and goes on
behind the spelling.

A **layout** of a sequence of tokens is a text of spellings with blanks before, between and after
them, where there may be none. If no token can be extended by the one after it, every layout is
read as the sequence (`Layout.tokens_eq`), and only then (`isChain_of_layouts`).
-/

namespace RulesForge

/-- What is read off texts, and how the tokens may be spelled. -/
structure TokenReader (τ : Type) where
  next : List Char → Option (τ × List Char)
  blank : Char → Bool
  Spells : τ → List Char → Prop
  Extends : τ → Char → Prop
  next_shorter : ∀ {text t rest}, next text = some (t, rest) → rest.length < text.length
  next_blanks : ∀ {text}, (∀ c ∈ text, blank c = true) → next text = none
  next_blank : ∀ {c text}, blank c = true → next (c :: text) = next text
  spelling_ne_nil : ∀ {t spelling}, Spells t spelling → spelling ≠ []
  next_spelling : ∀ {t spelling rest}, Spells t spelling → (∀ c ∈ rest.head?, ¬Extends t c) →
    next (spelling ++ rest) = some (t, rest)
  blank_space : blank ' ' = true
  not_extends_blank : ∀ {t c}, blank c = true → ¬Extends t c

namespace TokenReader

variable {τ : Type} (reader : TokenReader τ)

/-- The tokens of a text, up to a number. -/
def readTokens : ℕ → List Char → List τ
  | 0, _ => []
  | fuel + 1, text =>
    match reader.next text with
    | none => []
    | some (t, rest) => t :: readTokens fuel rest

/-- The tokens of a text. -/
def tokens (text : List Char) : List τ := reader.readTokens text.length text

/-- Blanks, a spelling of the first token, and a layout of the others. -/
inductive Layout : List τ → List Char → Prop where
  | nil {blanks : List Char} (hblanks : ∀ c ∈ blanks, reader.blank c = true) : Layout [] blanks
  | cons {blanks spelling text : List Char} {t : τ} {ts : List τ}
      (hblanks : ∀ c ∈ blanks, reader.blank c = true) (hspells : reader.Spells t spelling)
      (rest : Layout ts text) : Layout (t :: ts) (blanks ++ (spelling ++ text))

/-- No spelling of the second token extends the first one. -/
def Apart (t t' : τ) : Prop :=
  ∀ spelling, reader.Spells t' spelling → ∀ c ∈ spelling.head?, ¬reader.Extends t c

variable {reader} {text rest spelling blanks : List Char} {t t' : τ} {ts : List τ} {fuel : ℕ}

/-- The length of the text suffices. -/
theorem readTokens_eq_tokens (h : text.length ≤ fuel) :
    reader.readTokens fuel text = reader.tokens text := by
  suffices hall : ∀ fuel fuel' text, text.length ≤ fuel → text.length ≤ fuel' →
      reader.readTokens fuel text = reader.readTokens fuel' text from hall _ _ _ h le_rfl
  intro fuel
  induction fuel with
  | zero =>
    intro fuel' text hfuel hfuel'
    obtain rfl : text = [] := List.length_eq_zero_iff.mp (Nat.le_zero.mp hfuel)
    cases fuel' with
    | zero => rfl
    | succ fuel' =>
      rw [readTokens, readTokens, reader.next_blanks fun _ hc ↦ absurd hc List.not_mem_nil]
  | succ fuel ih =>
    intro fuel' text hfuel hfuel'
    cases hnext : reader.next text with
    | none =>
      cases fuel' with
      | zero => rw [readTokens, readTokens, hnext]
      | succ fuel' => rw [readTokens, readTokens, hnext]
    | some read =>
      obtain ⟨t, rest⟩ := read
      have hshorter := reader.next_shorter hnext
      cases fuel' with
      | zero => omega
      | succ fuel' =>
        rw [readTokens, readTokens, hnext]
        exact congrArg (t :: ·) (ih fuel' rest (by omega) (by omega))

theorem tokens_of_next (h : reader.next text = some (t, rest)) :
    reader.tokens text = t :: reader.tokens rest := by
  have hshorter := reader.next_shorter h
  rw [← readTokens_eq_tokens (Nat.le_succ text.length), readTokens, h]
  exact congrArg (t :: ·) (readTokens_eq_tokens hshorter.le)

theorem tokens_of_none (h : reader.next text = none) : reader.tokens text = [] := by
  rw [← readTokens_eq_tokens (Nat.le_succ text.length), readTokens, h]

/-- Every token has been read off a part of the text. -/
theorem exists_next_of_mem_tokens (h : t ∈ reader.tokens text) :
    ∃ text rest, reader.next text = some (t, rest) := by
  suffices hall : ∀ fuel text, t ∈ reader.readTokens fuel text →
      ∃ text rest, reader.next text = some (t, rest) from hall _ _ h
  intro fuel
  induction fuel with
  | zero => exact fun _ hmem ↦ absurd hmem List.not_mem_nil
  | succ fuel ih =>
    intro text hmem
    rw [readTokens] at hmem
    cases hnext : reader.next text with
    | none =>
      rw [hnext] at hmem
      exact absurd hmem List.not_mem_nil
    | some read =>
      obtain ⟨t', rest⟩ := read
      rw [hnext] at hmem
      rcases List.mem_cons.mp hmem with rfl | hmem
      · exact ⟨text, rest, hnext⟩
      · exact ih rest hmem

theorem next_append_blanks (h : ∀ c ∈ blanks, reader.blank c = true) :
    reader.next (blanks ++ text) = reader.next text := by
  induction blanks with
  | nil => rfl
  | cons c blanks ih =>
    rw [List.cons_append, reader.next_blank (h c List.mem_cons_self)]
    exact ih fun d hd ↦ h d (List.mem_cons_of_mem c hd)

theorem tokens_append_blanks (h : ∀ c ∈ blanks, reader.blank c = true) :
    reader.tokens (blanks ++ text) = reader.tokens text := by
  have hnext : reader.next (blanks ++ text) = reader.next text := next_append_blanks h
  cases hread : reader.next text with
  | none => rw [tokens_of_none hread, tokens_of_none (hnext.trans hread)]
  | some read => rw [tokens_of_next hread, tokens_of_next (hnext.trans hread)]

/-- The text behind a token begins with a blank or with the next token. -/
theorem Layout.not_extends (h : reader.Layout ts text)
    (hapart : ∀ t' ∈ ts.head?, reader.Apart t t') : ∀ c ∈ text.head?, ¬reader.Extends t c := by
  intro c hc
  cases h with
  | nil hblanks => exact reader.not_extends_blank (hblanks c (List.mem_of_mem_head? hc))
  | @cons blanks spelling text t' ts hblanks hspells rest =>
    cases blanks with
    | nil =>
      refine hapart t' rfl spelling hspells c ?_
      obtain ⟨d, tail, rfl⟩ := List.exists_cons_of_ne_nil (reader.spelling_ne_nil hspells)
      exact hc
    | cons d blanks =>
      cases hc
      exact reader.not_extends_blank (hblanks _ List.mem_cons_self)

/-- **A layout is read as the tokens** if each is apart from the next. -/
theorem Layout.tokens_eq (h : reader.Layout ts text) (hapart : ts.IsChain reader.Apart) :
    reader.tokens text = ts := by
  induction h with
  | nil hblanks => exact tokens_of_none (reader.next_blanks hblanks)
  | @cons blanks spelling text t ts hblanks hspells rest ih =>
    rw [List.isChain_cons] at hapart
    rw [tokens_append_blanks hblanks,
      tokens_of_next (reader.next_spelling hspells (rest.not_extends hapart.1)), ih hapart.2]

/-- A blank before a layout. -/
theorem Layout.blank (h : reader.Layout ts text) : reader.Layout ts (' ' :: text) := by
  have hspace : ∀ {blanks : List Char}, (∀ c ∈ blanks, reader.blank c = true) →
      ∀ c ∈ ' ' :: blanks, reader.blank c = true := by
    intro blanks hblanks c hc
    rcases List.mem_cons.mp hc with rfl | hc
    · exact reader.blank_space
    · exact hblanks c hc
  cases h with
  | nil hblanks => exact .nil (hspace hblanks)
  | cons hblanks hspells rest => exact .cons (hspace hblanks) hspells rest

theorem exists_layout (hspelled : ∀ t ∈ ts, ∃ spelling, reader.Spells t spelling) :
    ∃ text, reader.Layout ts text := by
  induction ts with
  | nil => exact ⟨[], .nil fun _ hc ↦ absurd hc List.not_mem_nil⟩
  | cons t ts ih =>
    obtain ⟨spelling, hspells⟩ := hspelled t List.mem_cons_self
    obtain ⟨text, hlayout⟩ := ih fun t' ht' ↦ hspelled t' (List.mem_cons_of_mem t ht')
    exact ⟨_, .cons (fun _ hc ↦ absurd hc List.not_mem_nil) hspells hlayout⟩

/-- A token that is extended is not read as it is. -/
def ReadsOn (reader : TokenReader τ) (t : τ) : Prop :=
  ∀ spelling c rest rest', reader.Spells t spelling → reader.Extends t c →
    reader.next (spelling ++ c :: rest) ≠ some (t, rest')

/-- **Only then.** Where every layout is read as the tokens, each of them is apart from the next,
if it would be read on otherwise. -/
theorem isChain_of_layouts (hspelled : ∀ t ∈ ts, ∃ spelling, reader.Spells t spelling)
    (hextended : ts.IsChain fun t t' ↦ reader.Apart t t' ∨ reader.ReadsOn t)
    (h : ∀ text, reader.Layout ts text → reader.tokens text = ts) :
    ts.IsChain reader.Apart := by
  induction ts with
  | nil => exact .nil
  | cons t ts ih =>
    obtain ⟨spelling, hspells⟩ := hspelled t List.mem_cons_self
    have hnone : ∀ c ∈ ([] : List Char), reader.blank c = true :=
      fun _ hc ↦ absurd hc List.not_mem_nil
    have hrest : ∀ t' ∈ ts, ∃ spelling, reader.Spells t' spelling :=
      fun t' ht' ↦ hspelled t' (List.mem_cons_of_mem t ht')
    rw [List.isChain_cons] at hextended ⊢
    constructor
    · -- the two tokens next to each other
      intro t' ht' spelling' hspells' c hc hextends
      rcases hextended.1 t' ht' with hapart | hnext
      · exact hapart spelling' hspells' c hc hextends
      cases ts with
      | nil => contradiction
      | cons t'' ts =>
        cases ht'
        obtain ⟨text, hlayout⟩ := @exists_layout _ reader ts
          fun t' ht' ↦ hrest t' (List.mem_cons_of_mem _ ht')
        have hread := h _ (.cons hnone hspells (.cons hnone hspells' hlayout))
        obtain ⟨d, tail, rfl⟩ := List.exists_cons_of_ne_nil (reader.spelling_ne_nil hspells')
        cases hc
        cases hfirst : reader.next (spelling ++ c :: (tail ++ text)) with
        | none =>
          have hnil := tokens_of_none hfirst
          exact List.cons_ne_nil _ _ (hread.symm.trans hnil)
        | some read =>
          obtain ⟨t₁, rest'⟩ := read
          have hcons := hread.symm.trans (tokens_of_next hfirst)
          cases List.head_eq_of_cons_eq hcons
          exact hnext spelling c (tail ++ text) rest' hspells hextends hfirst
    · -- a blank behind the first token leaves the layouts of the others
      refine ih hrest hextended.2 fun text hlayout ↦ ?_
      have hread := h _ (.cons hnone hspells hlayout.blank)
      have hnext : reader.next (spelling ++ ' ' :: text) = some (t, ' ' :: text) := by
        refine reader.next_spelling hspells fun c hc ↦ ?_
        cases hc
        exact reader.not_extends_blank reader.blank_space
      have htail := List.tail_eq_of_cons_eq ((tokens_of_next hnext).symm.trans hread)
      rwa [← List.singleton_append, tokens_append_blanks fun c hc ↦ ?_] at htail
      rw [List.mem_singleton.mp hc]
      exact reader.blank_space

end TokenReader

end RulesForge
