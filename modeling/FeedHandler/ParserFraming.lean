import FeedHandler.ParserFields
import Mathlib.Data.List.Forall2

/-!
# Framing of the byte stream and agreement with the golden model

Whole messages in, one word out for each message of a known type, in order, and
the stream read to its last byte.  A word carries the fields of its message
narrowed to the book's widths; the narrowing is where the hardware and the golden
model part company.
-/

namespace FeedHandler.Parser

open Bits

/-! ### Framing -/

theorem recvBytes_append (l rest : List (BitVec 8)) :
    recvBytes l.length (l ++ rest) = some (l, rest) := by
  induction l with
  | nil => rfl
  | cons byte l ih => simp [recvBytes, ih]

section Builds

variable (tick : TickSize)

/-- A message at the head of the stream is parsed and leaves the rest of the stream
    in frame, whatever its type. -/
theorem feedParserAt_cons (m : RawMsg) (rest : List (BitVec 8)) :
    feedParserAt tick (encodeMsg m ++ rest) =
      { words := (parseMsgAt tick (encodeMsg m)).toList ++ (feedParserAt tick rest).words
        pending := (feedParserAt tick rest).pending } := by
  have hne : encodeMsg m ++ rest ≠ [] := by simp [encodeMsg]
  have hrecv : recvBytes RAW_MSG_BYTES (encodeMsg m ++ rest) = some (encodeMsg m, rest) := by
    rw [← length_encodeMsg m]
    exact recvBytes_append _ _
  rw [feedParserAt, if_neg hne]
  split
  · rename_i hnone
    rw [hrecv] at hnone
    exact absurd hnone (by simp)
  · rename_i buf rest' hsome
    rw [hrecv] at hsome
    obtain ⟨rfl, rfl⟩ := Prod.mk.inj (Option.some.inj hsome)
    rfl

/-- **Whole messages at the head of the stream**: the words of the known ones, in order, and
    then what becomes of the other bytes. -/
theorem feedParserAt_flatMap_append (msgs : List RawMsg) (bytes : List (BitVec 8)) :
    feedParserAt tick (msgs.flatMap encodeMsg ++ bytes) =
      { words := ((msgs.filter RawMsg.known).map fun m => packNorm (m.normAt tick)) ++
          (feedParserAt tick bytes).words
        pending := (feedParserAt tick bytes).pending } := by
  induction msgs with
  | nil => rfl
  | cons m msgs ih =>
    rw [List.flatMap_cons, List.append_assoc, feedParserAt_cons, ih, parseMsgAt_encodeMsg]
    cases hknown : m.known <;> simp [hknown]

theorem feedParserAt_nil : feedParserAt tick [] = { words := [], pending := [] } := by
  rw [feedParserAt, if_pos rfl]

end Builds

@[simp] theorem feedParser_nil : feedParser [] = { words := [], pending := [] } :=
  feedParserAt_nil _

/-- **The whole stream**: the words are those of the known messages, in order, and no
    byte is left. -/
theorem feedParser_flatMap (msgs : List RawMsg) :
    feedParser (msgs.flatMap encodeMsg) =
      { words := (msgs.filter RawMsg.known).map fun m => packNorm m.norm, pending := [] } := by
  have hrun := feedParserAt_flatMap_append defaultTickSize msgs []
  rw [feedParserAt_nil, List.append_nil, List.append_nil] at hrun
  exact hrun

/-! ### What a word carries -/

/-- The word is that of the message: price in ticks and size narrowed to 32 bits, a
    delete with size 0, the low bit of the side byte, the sequence number, and padding 0,
    all at the slices of the order book. -/
structure Carries (tick_size : Nat) (m : RawMsg) (w : AxisWord) : Prop where
  price : (OrderBook.decode (bookWord w) true).price.toNat =
    m.price_raw.toNat / tick_size % 2 ^ 32
  size : (OrderBook.decode (bookWord w) true).size.toNat =
    if m.msg_type = DELETE then 0 else m.size_raw.toNat % 2 ^ 32
  side : (OrderBook.decode (bookWord w) true).side.toNat = m.side.toNat % 2
  seqNum : (OrderBook.decode (bookWord w) true).seqNum = m.seq_num
  padding : w.extractLsb' 97 31 = 0

section Fields

variable (tick : TickSize) (m : RawMsg)

theorem toNat_normAt_price :
    (m.normAt tick).price.toNat = m.price_raw.toNat / tick.value.toNat % 2 ^ 32 :=
  (BitVec.toNat_setWidth _ _).trans (congrArg (· % 2 ^ 32) (toNat_priceTicks tick _))

theorem toNat_normAt_side : (m.normAt tick).side.toNat = m.side.toNat % 2 := by
  have hone : (1 : BitVec 8).toNat = 2 ^ 1 - 1 := rfl
  rw [RawMsg.normAt, BitVec.toNat_setWidth, BitVec.toNat_and, hone,
    Nat.and_two_pow_sub_one_eq_mod]
  omega

theorem toNat_normAt_size :
    (m.normAt tick).size.toNat =
      if m.msg_type = DELETE then 0 else m.size_raw.toNat % 2 ^ 32 := by
  unfold RawMsg.normAt
  split_ifs
  · rfl
  · rw [BitVec.toNat_setWidth]

theorem carries_packNorm : Carries tick.value.toNat m (packNorm (m.normAt tick)) := by
  obtain ⟨hdecode, hpadding⟩ := decode_packNorm (m.normAt tick)
  refine ⟨?_, ?_, ?_, ?_, hpadding⟩ <;> rw [hdecode]
  · exact toNat_normAt_price tick m
  · exact toNat_normAt_size tick m
  · exact toNat_normAt_side tick m
  · rfl

theorem toNat_norm_price : m.norm.price.toNat = m.price_raw.toNat / TICK_SIZE % 2 ^ 32 :=
  toNat_normAt_price defaultTickSize m

theorem toNat_norm_side : m.norm.side.toNat = m.side.toNat % 2 :=
  toNat_normAt_side defaultTickSize m

theorem toNat_norm_size :
    m.norm.size.toNat = if m.msg_type = DELETE then 0 else m.size_raw.toNat % 2 ^ 32 :=
  toNat_normAt_size defaultTickSize m

end Fields

/-- **Framing and field decoding over the whole stream.**  The parser reads the
    concatenated encodings of any messages to the last byte and emits, in order, one
    word for each message of a known type and none for any other, carrying that
    message. -/
theorem feedParser_carries (msgs : List RawMsg) :
    (feedParser (msgs.flatMap encodeMsg)).pending = [] ∧
      List.Forall₂ (Carries 100) (msgs.filter RawMsg.known)
        (feedParser (msgs.flatMap encodeMsg)).words := by
  rw [feedParser_flatMap]
  refine ⟨rfl, ?_⟩
  rw [List.forall₂_map_right_iff, List.forall₂_same]
  exact fun m _ => carries_packNorm defaultTickSize m

/-- A bid, a better bid, an ask, the delete of the first bid. -/
def fourMessages : List RawMsg :=
  [⟨ADD, 0, 1, 650000, 5⟩, ⟨UPDATE, 0, 2, 650100, 7⟩, ⟨ADD, 1, 3, 650300, 4⟩,
    ⟨DELETE, 0, 4, 650000, 0⟩]

example : (feedParser (fourMessages.flatMap encodeMsg)).words.length = 4 := by
  rw [feedParser_flatMap]
  rfl

/-! ### Agreement with the golden model -/

/-- The message the order book decodes from what the parser emits for `m`. -/
def booked (m : RawMsg) : Option (MarketMsg 32 32) :=
  (feedParser (encodeMsg m)).words.head?.map fun w => OrderBook.decode (bookWord w) true

def Deletes (m : RawMsg) : Prop := m.msg_type = DELETE ∨ m.size_raw.toNat = 0

instance (m : RawMsg) : Decidable (Deletes m) := inferInstanceAs (Decidable (_ ∨ _))

/-- The booked message does what the golden model does on the wire message: the same
    price in ticks, a delete exactly when the golden model deletes, otherwise the same
    size, and so the same effect on every golden book. -/
structure Agrees (m : RawMsg) (msg : MarketMsg 32 32) : Prop where
  ticks : msg.price.toNat = m.price_raw.toNat / TICK_SIZE
  delete : msg.size = 0 ↔ Deletes m
  size : ¬ Deletes m → msg.size.toNat = m.size_raw.toNat
  effect : ∀ ref : OrderBookRef,
    ref.apply UPDATE msg.side.toNat (msg.price.toNat * TICK_SIZE) msg.size.toNat =
      ref.apply m.msg_type m.side.toNat m.price_raw.toNat m.size_raw.toNat

/-- The order book gets a message for `m` and it agrees. -/
def Normalizes (m : RawMsg) : Prop := ∃ msg, booked m = some msg ∧ Agrees m msg

/-- The ticks fit a 32-bit price and the size, where it counts, a 32-bit size. -/
def Fits (m : RawMsg) : Prop :=
  m.price_raw.toNat / TICK_SIZE < 2 ^ 32 ∧ (m.msg_type = DELETE ∨ m.size_raw.toNat < 2 ^ 32)

instance (m : RawMsg) : Decidable (Fits m) := inferInstanceAs (Decidable (_ ∧ _))

theorem booked_of_known {m : RawMsg} (hknown : m.known = true) :
    booked m = some
      { price := m.norm.price
        size := m.norm.size
        side := m.norm.side
        seqNum := m.norm.seq_num
        valid := true } := by
  have hrun := feedParser_flatMap [m]
  rw [List.flatMap_singleton] at hrun
  rw [booked, hrun, List.filter_cons_of_pos hknown]
  exact congrArg some (decode_packNorm m.norm).1

theorem toNat_norm_size_of_fits {m : RawMsg} (hfits : Fits m) :
    m.norm.size.toNat = if m.msg_type = DELETE then 0 else m.size_raw.toNat := by
  rw [toNat_norm_size]
  split_ifs with htype
  · rfl
  · exact Nat.mod_eq_of_lt (hfits.2.resolve_left htype)

theorem norm_size_eq_zero_iff {m : RawMsg} (hfits : Fits m) :
    m.norm.size.toNat = 0 ↔ Deletes m := by
  rw [toNat_norm_size_of_fits hfits, Deletes]
  split_ifs with htype <;> simp [htype]

theorem agrees_of_fits {m : RawMsg} (hside : m.side.toNat ≤ 1) (hfits : Fits m) :
    Agrees m
      { price := m.norm.price
        size := m.norm.size
        side := m.norm.side
        seqNum := m.norm.seq_num
        valid := true } := by
  have hticks : m.norm.price.toNat = m.price_raw.toNat / TICK_SIZE := by
    rw [toNat_norm_price, Nat.mod_eq_of_lt hfits.1]
  have hzero := norm_size_eq_zero_iff hfits
  have hsize : ¬ Deletes m → m.norm.size.toNat = m.size_raw.toNat := by
    intro hkeeps
    rw [toNat_norm_size_of_fits hfits, if_neg fun htype => hkeeps (Or.inl htype)]
  refine ⟨hticks, ?_, hsize, ?_⟩
  · rw [← hzero]
    exact ⟨fun h => congrArg BitVec.toNat h, fun h => BitVec.eq_of_toNat_eq h⟩
  · intro ref
    have hbook : m.norm.side.toNat = m.side.toNat := by
      rw [toNat_norm_side]
      omega
    have hback : m.norm.price.toNat * TICK_SIZE / TICK_SIZE = m.price_raw.toNat / TICK_SIZE := by
      rw [Nat.mul_div_cancel _ (by decide), hticks]
    have hsame : ∀ book : Dict Nat Nat,
        OrderBookRef.applyTo book UPDATE (m.price_raw.toNat / TICK_SIZE) m.norm.size.toNat =
          OrderBookRef.applyTo book m.msg_type (m.price_raw.toNat / TICK_SIZE)
            m.size_raw.toNat := by
      intro book
      have hnot : ¬ UPDATE = DELETE := by decide
      unfold OrderBookRef.applyTo
      simp only [hnot, false_or]
      change (if m.norm.size.toNat = 0 then _ else _) = if Deletes m then _ else _
      by_cases hdeletes : Deletes m
      · rw [if_pos hdeletes, if_pos (hzero.mpr hdeletes)]
      · rw [if_neg hdeletes, if_neg fun h => hdeletes (hzero.mp h), hsize hdeletes]
    simp only [OrderBookRef.apply, hbook, hback, hsame]

theorem fits_of_agrees {m : RawMsg} (hknown : m.known = true) (h : Normalizes m) : Fits m := by
  rcases h with ⟨msg, hbooked, hagrees⟩
  rw [booked_of_known hknown, Option.some.injEq] at hbooked
  subst hbooked
  have hticks : m.norm.price.toNat = m.price_raw.toNat / TICK_SIZE := hagrees.ticks
  refine ⟨hticks ▸ m.norm.price.isLt, ?_⟩
  by_cases hdeletes : Deletes m
  · exact hdeletes.imp_right fun hzero => by omega
  · have hsize : m.norm.size.toNat = m.size_raw.toNat := hagrees.size hdeletes
    exact Or.inr (hsize ▸ m.norm.size.isLt)

/-- The booked prices of two messages are ordered as the wire prices are. -/
def InOrder (m₁ m₂ : RawMsg) : Prop :=
  ∀ msg₁ msg₂, booked m₁ = some msg₁ → booked m₂ = some msg₂ →
    m₁.price_raw ≤ m₂.price_raw → msg₁.price ≤ msg₂.price

theorem inOrder_of_fits {m₁ m₂ : RawMsg} (hknown₁ : m₁.known = true) (hknown₂ : m₂.known = true)
    (hfits₁ : Fits m₁) (hfits₂ : Fits m₂) : InOrder m₁ m₂ := by
  intro msg₁ msg₂ h₁ h₂ hle
  rw [booked_of_known hknown₁, Option.some.injEq] at h₁
  rw [booked_of_known hknown₂, Option.some.injEq] at h₂
  subst h₁ h₂
  rw [BitVec.le_def] at hle ⊢
  change m₁.norm.price.toNat ≤ m₂.norm.price.toNat
  rw [toNat_norm_price, toNat_norm_price, Nat.mod_eq_of_lt hfits₁.1, Nat.mod_eq_of_lt hfits₂.1]
  exact Nat.div_le_div_right hle

/-- A bid at 4294.967296 dollars: `2 ^ 32` ticks. -/
def dearBid : RawMsg :=
  { msg_type := ADD, side := 0, seq_num := 1, price_raw := 429496729600, size_raw := 1 }

/-- **The narrowing shows.**  The parser turns a price of `2 ^ 32` ticks into 0. -/
theorem dearBid_not_normalized :
    dearBid.known = true ∧ dearBid.side.toNat ≤ 1 ∧ ¬ Normalizes dearBid := by
  refine ⟨by decide, by decide, fun h => ?_⟩
  have hfits : Fits dearBid := fits_of_agrees (by decide) h
  exact absurd hfits (by decide)

/-- **When the fields agree.**  Two messages are normalized as the golden model reads
    them, and in price order, exactly when the prices of both have fewer than `2 ^ 32`
    ticks and their sizes, except a delete's, are below `2 ^ 32`. -/
theorem normalizes_in_order_iff {m₁ m₂ : RawMsg} (hknown₁ : m₁.known = true)
    (hknown₂ : m₂.known = true) (hside₁ : m₁.side.toNat ≤ 1) (hside₂ : m₂.side.toNat ≤ 1) :
    (Normalizes m₁ ∧ Normalizes m₂ ∧ InOrder m₁ m₂) ↔ Fits m₁ ∧ Fits m₂ := by
  constructor
  · rintro ⟨h₁, h₂, -⟩
    exact ⟨fits_of_agrees hknown₁ h₁, fits_of_agrees hknown₂ h₂⟩
  · rintro ⟨hfits₁, hfits₂⟩
    exact ⟨⟨_, booked_of_known hknown₁, agrees_of_fits hside₁ hfits₁⟩,
      ⟨_, booked_of_known hknown₂, agrees_of_fits hside₂ hfits₂⟩,
      inOrder_of_fits hknown₁ hknown₂ hfits₁ hfits₂⟩

/-- Two bids a dollar apart, at 30 dollars. -/
theorem normalizes_in_order_bids :
    (Normalizes { dearBid with price_raw := 3000050000 } ∧
      Normalizes { dearBid with price_raw := 3100050000 } ∧
      InOrder { dearBid with price_raw := 3000050000 } { dearBid with price_raw := 3100050000 }) ↔
    Fits { dearBid with price_raw := 3000050000 } ∧
      Fits { dearBid with price_raw := 3100050000 } :=
  normalizes_in_order_iff (by decide) (by decide) (by decide) (by decide)

end FeedHandler.Parser
