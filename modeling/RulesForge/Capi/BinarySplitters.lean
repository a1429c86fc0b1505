import RulesForge.Library.Framing
import Mathlib.Algebra.Group.Nat.Defs
import Mathlib.Logic.Relation

/-!
# Message splitters

The built-in splitters of `capi/binary_splitters.c`, and what their contract in
`capi/binary_codec.h` asks for: `next` gives the messages of a buffer one after another until it
gives none.

The splitter of messages of a fixed size does so. The one of messages with their length in front
has no state: it gives the first message for ever, and takes the end of a message for another one
when header and message are longer than `2^32` together.
-/

namespace RulesForge

/-! ### Splitters -/

/-- A buffer, whose length is a `size_t`. -/
structure Buffer where
  bytes : List UInt8
  length_lt : bytes.length < 2 ^ 64

/-- Offsets and lengths that are written on failure too are left out. -/
structure BinaryMessageSplitter where
  State : Type
  next : State → List UInt8 → Option (Region × State)
  reset : State → State
  state : State

/-- The four bytes in front, as a little-endian number. -/
def msgSize (buf : List UInt8) : ℕ :=
  (buf.getD 0 0).toNat + 2 ^ 8 * (buf.getD 1 0).toNat + 2 ^ 16 * (buf.getD 2 0).toNat +
    2 ^ 24 * (buf.getD 3 0).toNat

/-- `binary_splitter_length_prefixed`. -/
def binarySplitterLengthPrefixed (buf : List UInt8) : Option Region :=
  if buf.length < 4 then none
  -- the sum is taken on 32 bits
  else if buf.length < (4 + msgSize buf) % 2 ^ 32 then none
  else some ⟨4, msgSize buf⟩

structure BinaryFixedSizeSplitterState where
  messageSize : ℕ
  currentOffset : ℕ

/-- `binary_splitter_fixed_size`. -/
def binarySplitterFixedSize (st : BinaryFixedSizeSplitterState) (buf : List UInt8) :
    Option (Region × BinaryFixedSizeSplitterState) :=
  if st.currentOffset ≥ buf.length then none
  else
    let remaining := buf.length - st.currentOffset
    if remaining < st.messageSize then none
    else
      some (⟨st.currentOffset, st.messageSize⟩,
        { st with currentOffset := (st.currentOffset + st.messageSize) % 2 ^ 64 })

/-- `binary_splitter_fixed_size_reset`. -/
def binarySplitterFixedSizeReset (st : BinaryFixedSizeSplitterState) :
    BinaryFixedSizeSplitterState :=
  { st with currentOffset := 0 }

/-- The two splitters with their states. -/
inductive BuiltinSplitter where
  | lengthPrefixed
  | fixedSize (messageSize currentOffset : ℕ) (pos : 0 < messageSize)

namespace BuiltinSplitter

def splitter : BuiltinSplitter → BinaryMessageSplitter
  | lengthPrefixed =>
    { State := Unit
      next := fun _ buf ↦ (binarySplitterLengthPrefixed buf).map (·, ())
      reset := id
      state := () }
  | fixedSize messageSize currentOffset _ =>
    { State := BinaryFixedSizeSplitterState
      next := binarySplitterFixedSize
      reset := binarySplitterFixedSizeReset
      state := ⟨messageSize, currentOffset⟩ }

end BuiltinSplitter

/-! ### What a splitter is for -/

/-- Messages with four bytes for their length in front. -/
def lengthPrefixedFraming : Framing UInt8 where
  IsMessage message := message.length < 2 ^ 32
  headerLength := 4
  header message :=
    [UInt8.ofNat message.length, UInt8.ofNat (message.length / 2 ^ 8),
      UInt8.ofNat (message.length / 2 ^ 16), UInt8.ofNat (message.length / 2 ^ 24)]
  length_header _ := rfl

/-- Messages of one size, without a header. -/
def fixedSizeFraming (messageSize : ℕ) : Framing UInt8 where
  IsMessage message := message.length = messageSize
  headerLength := 0
  header _ := []
  length_header _ := rfl

def BuiltinSplitter.framing : BuiltinSplitter → Framing UInt8
  | lengthPrefixed => lengthPrefixedFraming
  | fixedSize messageSize _ _ => fixedSizeFraming messageSize

namespace BinaryMessageSplitter

/-- The states of a splitter over one buffer, from a reset on. -/
def Reaches (splitter : BinaryMessageSplitter) (buf : List UInt8) (st : splitter.State) : Prop :=
  Relation.ReflTransGen (fun st st' ↦ ∃ region, splitter.next st buf = some (region, st'))
    (splitter.reset splitter.state) st

/-- **The contract of a splitter** on a buffer: regions lie in the buffer, and they are, up to an
end, those of the messages that the buffer holds. -/
structure Splits (splitter : BinaryMessageSplitter) (framing : Framing UInt8)
    (buf : List UInt8) : Prop where
  inside : ∀ st st' region, splitter.Reaches buf st → splitter.next st buf = some (region, st') →
    region.start + region.length ≤ buf.length
  enumerates : ∃ regions,
    Enumerates (splitter.next · buf) (splitter.reset splitter.state) regions ∧
      regions.Pairwise Region.Before ∧
      List.IsChain framing.Follows (⟨0, 0⟩ :: regions) ∧
      ∀ messages, framing.Holds buf messages → regions.map (Region.slice buf) = messages

end BinaryMessageSplitter

/-! ### Messages of one size -/

section FixedSize

variable {n : ℕ} {buf front rest : List UInt8} {messages messages' : List (List UInt8)}

theorem length_lt_of_isIncomplete (h : (fixedSizeFraming n).IsIncomplete rest) :
    rest.length < n := by
  by_contra hlong
  refine h (rest.take n) (rest.drop n) ?_ (List.take_append_drop n rest).symm
  exact List.length_take_of_le (by omega)

/-- Whatever a buffer is, it holds messages. -/
theorem exists_holds_fixedSize (hpos : 0 < n) (buf : List UInt8) :
    ∃ messages, (fixedSizeFraming n).Holds buf messages := by
  induction hlength : buf.length using Nat.strong_induction_on generalizing buf with
  | _ length ih =>
    by_cases hlong : n ≤ buf.length
    · -- a message is taken off the front
      have hless : (buf.drop n).length < length := by
        rw [List.length_drop]
        omega
      obtain ⟨messages, hmessages, rest, hrest, hdrop⟩ := ih _ hless (buf.drop n) rfl
      refine ⟨buf.take n :: messages, ?_, rest, hrest, ?_⟩
      · rintro message (- | ⟨_, hmessage⟩)
        · exact List.length_take_of_le hlong
        · exact hmessages message hmessage
      · rw [List.flatMap_cons, List.append_assoc, ← hdrop]
        exact (List.take_append_drop n buf).symm
    · refine ⟨[], fun _ hmessage ↦ absurd hmessage List.not_mem_nil, buf, ?_, rfl⟩
      rintro message more hmessage rfl
      apply hlong
      show n ≤ (message ++ more).length
      rw [List.length_append, show message.length = n from hmessage]
      exact Nat.le_add_right _ _

/-- The calls give the regions of the messages that are left. -/
theorem enumerates_fixedSize (hpos : 0 < n) (hlength : buf.length < 2 ^ 64)
    (hmessages : ∀ message ∈ messages, (fixedSizeFraming n).IsMessage message)
    (hrest : (fixedSizeFraming n).IsIncomplete rest)
    (hbuf : buf = front ++ messages.flatMap (fixedSizeFraming n).frame ++ rest) :
    Enumerates (binarySplitterFixedSize · buf) ⟨n, front.length⟩
      ((fixedSizeFraming n).regionsFrom front.length messages) := by
  induction messages generalizing front with
  | nil =>
    refine .done ?_
    have hleft := length_lt_of_isIncomplete hrest
    have hsum : buf.length = front.length + rest.length := by
      rw [hbuf, List.flatMap_nil, List.append_nil, List.length_append]
    show binarySplitterFixedSize ⟨n, front.length⟩ buf = none
    unfold binarySplitterFixedSize
    simp only [hsum, Nat.add_sub_cancel_left, if_pos hleft, ite_self]
  | cons message messages ih =>
    have hmessage : message.length = n := hmessages message List.mem_cons_self
    have hnext : buf = front ++ message ++ messages.flatMap (fixedSizeFraming n).frame ++ rest := by
      rw [hbuf, List.flatMap_cons]
      show front ++ (message ++ _) ++ rest = _
      simp only [List.append_assoc]
    have hrun := ih (fun message' hmem ↦ hmessages message' (List.mem_cons_of_mem _ hmem)) hnext
    have hsum : front.length + n ≤ buf.length := by
      rw [hnext]
      simp only [List.length_append, hmessage]
      omega
    rw [List.length_append, hmessage] at hrun
    rw [Framing.regionsFrom, hmessage]
    refine .item ?_ hrun
    show binarySplitterFixedSize ⟨n, front.length⟩ buf = _
    unfold binarySplitterFixedSize
    have hmore : ¬front.length ≥ buf.length := by omega
    have hwhole : ¬buf.length - front.length < n := by omega
    have hoffset : (front.length + n) % 2 ^ 64 = front.length + n := Nat.mod_eq_of_lt (by omega)
    simp only [if_neg hmore, if_neg hwhole, hoffset]
    rfl

/-- **Messages of a fixed size** are split as they should be. -/
theorem splits_fixedSize (hpos : 0 < n) (offset : ℕ) (hlength : buf.length < 2 ^ 64) :
    (BuiltinSplitter.fixedSize n offset hpos).splitter.Splits (fixedSizeFraming n) buf where
  inside := by
    rintro st st' region - hnext
    change binarySplitterFixedSize st buf = some (region, st') at hnext
    unfold binarySplitterFixedSize at hnext
    obtain ⟨hmore, hnext⟩ := Option.ite_none_left_eq_some.mp hnext
    obtain ⟨hwhole, hnext⟩ := Option.ite_none_left_eq_some.mp hnext
    cases hnext
    show st.currentOffset + st.messageSize ≤ buf.length
    omega
  enumerates := by
    obtain ⟨messages, hmessages, rest, hrest, hbuf⟩ := exists_holds_fixedSize hpos buf
    have hrun : ∀ messages' rest', (∀ message ∈ messages', (fixedSizeFraming n).IsMessage message) →
        (fixedSizeFraming n).IsIncomplete rest' →
        buf = messages'.flatMap (fixedSizeFraming n).frame ++ rest' →
        Enumerates (binarySplitterFixedSize · buf) ⟨n, 0⟩
          ((fixedSizeFraming n).regionsFrom 0 messages') := fun messages' rest' hm hr hb ↦
      @enumerates_fixedSize n buf [] rest' messages' hpos hlength hm hr hb
    have hchain : List.IsChain (fixedSizeFraming n).Follows
        (⟨0, 0⟩ :: (fixedSizeFraming n).regionsFrom 0 messages) :=
      Framing.isChain_regionsFrom rfl
    refine ⟨_, hrun messages rest hmessages hrest hbuf, ?_, hchain, ?_⟩
    · exact (List.pairwise_cons.mp (Framing.pairwise_of_isChain hchain)).2
    · rintro messages' ⟨hmessages', rest', hrest', hbuf'⟩
      -- other messages would be enumerated too
      rw [(hrun messages rest hmessages hrest hbuf).unique
        (hrun messages' rest' hmessages' hrest' hbuf')]
      have hslices := @Framing.map_slice_regionsFrom _ (fixedSizeFraming n) messages' [] rest' 0 rfl
      rwa [List.nil_append, ← hbuf'] at hslices

end FixedSize

/-! ### Messages with their length in front -/

section LengthPrefixed

variable {buf message more : List UInt8}

theorem msgSize_header (hmessage : message.length < 2 ^ 32) :
    msgSize (lengthPrefixedFraming.frame message ++ more) = message.length := by
  show (UInt8.ofNat message.length).toNat + 2 ^ 8 * (UInt8.ofNat (message.length / 2 ^ 8)).toNat +
    2 ^ 16 * (UInt8.ofNat (message.length / 2 ^ 16)).toNat +
    2 ^ 24 * (UInt8.ofNat (message.length / 2 ^ 24)).toNat = message.length
  simp only [UInt8.toNat_ofNat']
  omega

/-- A whole message in front is found. -/
theorem binarySplitterLengthPrefixed_frame (hmessage : message.length < 2 ^ 32) :
    (binarySplitterLengthPrefixed (lengthPrefixedFraming.frame message ++ more)).isSome = true := by
  have hlength : (lengthPrefixedFraming.frame message ++ more).length =
      4 + message.length + more.length := by
    rw [List.length_append, Framing.frame, List.length_append, Framing.length_header]
    rfl
  unfold binarySplitterLengthPrefixed
  rw [msgSize_header hmessage, if_neg (by omega), if_neg (by omega)]
  rfl

/-- No message is found when the first one is not whole, and its end is known. -/
theorem binarySplitterLengthPrefixed_eq_none_iff :
    binarySplitterLengthPrefixed buf = none ↔
      buf.length < 4 ∨ msgSize buf < 2 ^ 32 - 4 ∧ buf.length < 4 + msgSize buf := by
  have hsize : msgSize buf < 2 ^ 32 := by
    have hbyte : ∀ i, (buf.getD i 0).toNat < 256 := fun i ↦ (buf.getD i 0).toNat_lt
    have h0 := hbyte 0
    have h1 := hbyte 1
    have h2 := hbyte 2
    have h3 := hbyte 3
    rw [msgSize]
    omega
  unfold binarySplitterLengthPrefixed
  by_cases hshort : buf.length < 4
  · rw [if_pos hshort]
    exact iff_of_true rfl (.inl hshort)
  · rw [if_neg hshort]
    by_cases hcut : buf.length < (4 + msgSize buf) % 2 ^ 32
    · rw [if_pos hcut]
      -- a sum that wraps around is less than four
      exact iff_of_true rfl (.inr (by omega))
    · rw [if_neg hcut]
      exact iff_of_false (Option.some_ne_none _) (by omega)

/-- **Messages with their length in front** are split as they should be only where there is none
to be found. -/
theorem splits_lengthPrefixed_iff :
    BuiltinSplitter.lengthPrefixed.splitter.Splits lengthPrefixedFraming buf ↔
      buf.length < 4 ∨ msgSize buf < 2 ^ 32 - 4 ∧ buf.length < 4 + msgSize buf := by
  rw [← binarySplitterLengthPrefixed_eq_none_iff]
  have hnext : ∀ st, BuiltinSplitter.lengthPrefixed.splitter.next st buf =
      (binarySplitterLengthPrefixed buf).map (·, ()) := fun _ ↦ rfl
  constructor
  · rintro ⟨-, regions, hregions, -⟩
    cases hfound : binarySplitterLengthPrefixed buf with
    | none => rfl
    | some region =>
      -- the state after the first message is the one before it
      refine absurd hregions (not_enumerates_of_stays (a := region) ?_)
      show (binarySplitterLengthPrefixed buf).map (·, ()) = some (region, ())
      rw [hfound]
      rfl
  · intro hnone
    refine ⟨?_, [], .done ?_, .nil, .singleton _, ?_⟩
    · rintro st st' region - hfound
      rw [hnext, hnone] at hfound
      contradiction
    · rw [hnext, hnone]
      rfl
    · rintro messages ⟨hmessages, rest, -, hbuf⟩
      cases messages with
      | nil => rfl
      | cons message messages =>
        have hfound := @binarySplitterLengthPrefixed_frame message
          (messages.flatMap lengthPrefixedFraming.frame ++ rest)
          (hmessages message List.mem_cons_self)
        rw [List.flatMap_cons, List.append_assoc] at hbuf
        rw [← hbuf, hnone] at hfound
        contradiction

end LengthPrefixed

/-! ### The built-in splitters -/

/-- The buffers that a splitter can come to the end of. -/
def BuiltinSplitter.ComesToEnd : BuiltinSplitter → List UInt8 → Prop
  | lengthPrefixed, buf =>
    buf.length < 4 ∨ msgSize buf < 2 ^ 32 - 4 ∧ buf.length < 4 + msgSize buf
  | fixedSize _ _ _, _ => True

/-- **The built-in splitters** keep the contract on every buffer if messages have a fixed size, and
else on those in which the first message is not whole. -/
theorem BuiltinSplitter.splits_iff (builtin : BuiltinSplitter) (buf : Buffer) :
    builtin.splitter.Splits builtin.framing buf.bytes ↔ builtin.ComesToEnd buf.bytes := by
  cases builtin with
  | lengthPrefixed => exact splits_lengthPrefixed_iff
  | fixedSize messageSize currentOffset pos =>
    exact iff_of_true (splits_fixedSize pos currentOffset buf.length_lt) trivial

/-- The only message of a buffer is found again and again, and one that is said to be of almost
`2^32` bytes is found in a buffer of four. -/
theorem endless_messages :
    ¬BuiltinSplitter.lengthPrefixed.splitter.Splits lengthPrefixedFraming [1, 0, 0, 0, 7] ∧
    binarySplitterLengthPrefixed [255, 255, 255, 255] = some ⟨4, 2 ^ 32 - 1⟩ := by
  refine ⟨?_, by decide⟩
  rintro ⟨-, regions, hregions, -⟩
  exact not_enumerates_of_stays (a := ⟨4, 1⟩) rfl hregions

end RulesForge
