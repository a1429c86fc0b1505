import Mathlib.Data.List.Chain
import Mathlib.Data.List.Flatten

/-!
# Messages in a buffer

A **framing** puts messages one after another, each behind a header of its own. The messages of a
buffer lie in **regions**, which are known from the lengths of the messages alone
(`Framing.regionsFrom`), follow one another and are told apart.

An **enumerator** gives from a state the next item and the state after it, or nothing.
-/

namespace RulesForge

/-! ### Enumerators -/

section Enumerators

variable {σ α : Type} {next : σ → Option (α × σ)} {s s' : σ} {a : α} {as bs : List α}

/-- What an enumerator gives until it gives nothing. -/
inductive Enumerates (next : σ → Option (α × σ)) : σ → List α → Prop
  | done {s : σ} (h : next s = none) : Enumerates next s []
  | item {s s' : σ} {a : α} {as : List α} (h : next s = some (a, s'))
      (rest : Enumerates next s' as) : Enumerates next s (a :: as)

/-- An enumeration is determined by the state it begins in. -/
theorem Enumerates.unique (has : Enumerates next s as) (hbs : Enumerates next s bs) : as = bs := by
  induction has generalizing bs with
  | done h =>
    cases hbs with
    | done => rfl
    | item h' =>
      rw [h] at h'
      contradiction
  | item h _ ih =>
    cases hbs with
    | done h' =>
      rw [h] at h'
      contradiction
    | item h' rest =>
      rw [h] at h'
      cases h'
      rw [ih rest]

/-- An enumerator that stays where it is has no end. -/
theorem not_enumerates_of_stays (h : next s = some (a, s)) : ¬Enumerates next s as := by
  induction as with
  | nil =>
    rintro ⟨hdone⟩
    rw [h] at hdone
    contradiction
  | cons b as ih =>
    intro hitems
    cases hitems with
    | item hitem rest =>
      -- the state after the item is the one before it
      rw [h] at hitem
      cases hitem
      exact ih rest

end Enumerators

/-! ### Regions -/

/-- A part of a buffer. -/
structure Region where
  start : ℕ
  length : ℕ
  deriving DecidableEq

namespace Region

variable {β : Type}

def stop (region : Region) : ℕ := region.start + region.length

def slice (buf : List β) (region : Region) : List β :=
  (buf.drop region.start).take region.length

def Before (region region' : Region) : Prop := region.stop ≤ region'.start

instance : IsTrans Region Before where
  trans region region' region'' h h' := by
    have hlength : region'.start ≤ region'.stop := Nat.le_add_right _ _
    exact (h.trans hlength).trans h'

end Region

/-! ### Framings -/

/-- How a message is put into a buffer. -/
structure Framing (β : Type) where
  IsMessage : List β → Prop
  headerLength : ℕ
  header : List β → List β
  length_header : ∀ message, (header message).length = headerLength

namespace Framing

variable {β : Type} (framing : Framing β) {message : List β} {messages : List (List β)}
  {front rest buf : List β} {start : ℕ}

def frame (message : List β) : List β := framing.header message ++ message

/-- No whole message is left. -/
def IsIncomplete (rest : List β) : Prop :=
  ∀ message more, framing.IsMessage message → rest ≠ framing.frame message ++ more

/-- A buffer holds messages one after another, and what may be left of another one. -/
def Holds (buf : List β) (messages : List (List β)) : Prop :=
  (∀ message ∈ messages, framing.IsMessage message) ∧
    ∃ rest, framing.IsIncomplete rest ∧ buf = messages.flatMap framing.frame ++ rest

def regionsFrom (start : ℕ) : List (List β) → List Region
  | [] => []
  | message :: messages =>
    ⟨start + framing.headerLength, message.length⟩ ::
      regionsFrom (start + framing.headerLength + message.length) messages

/-- A region comes right behind another one, with a header between them. -/
def Follows (region region' : Region) : Prop :=
  region'.start = region.stop + framing.headerLength

variable {framing}

theorem Follows.before {region region' : Region} (h : framing.Follows region region') :
    region.Before region' := by
  show region.stop ≤ region'.start
  rw [h]
  exact Nat.le_add_right _ _

theorem isChain_regionsFrom {region : Region} (h : region.stop = start) :
    List.IsChain framing.Follows (region :: framing.regionsFrom start messages) := by
  induction messages generalizing region start with
  | nil => exact .singleton _
  | cons message messages ih =>
    refine .cons_cons ?_ (ih rfl)
    show start + framing.headerLength = region.stop + framing.headerLength
    rw [h]

/-- Regions that follow one another are disjoint. -/
theorem pairwise_of_isChain {regions : List Region} (h : regions.IsChain framing.Follows) :
    regions.Pairwise Region.Before :=
  (h.imp fun _ _ ↦ Follows.before).pairwise

/-- The regions of the messages hold the messages. -/
theorem map_slice_regionsFrom (h : front.length = start) :
    (framing.regionsFrom start messages).map
      (Region.slice (front ++ messages.flatMap framing.frame ++ rest)) = messages := by
  induction messages generalizing front start with
  | nil => rfl
  | cons message messages ih =>
    have hstart : (front ++ framing.header message).length = start + framing.headerLength := by
      rw [List.length_append, h, framing.length_header]
    have hfront : (front ++ framing.header message ++ message).length =
        start + framing.headerLength + message.length := by
      rw [List.length_append, hstart]
    have hbuf : front ++ (message :: messages).flatMap framing.frame ++ rest =
        front ++ framing.header message ++ message ++ messages.flatMap framing.frame ++ rest := by
      simp only [List.flatMap_cons, frame, List.append_assoc]
    rw [hbuf, regionsFrom, List.map_cons, ih hfront]
    congr 1
    -- the message stands behind its header
    rw [Region.slice, ← hstart]
    simp only [List.append_assoc]
    rw [← List.append_assoc front, List.drop_left, List.take_left]

end Framing

end RulesForge
