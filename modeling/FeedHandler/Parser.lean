import FeedHandler.Bits
import FeedHandler.OrderBook
import FeedHandler.OrderBookRef

/-!
# The feed parser

`feed_parser` of `parser.cpp` with the word layouts of `msg_types.h`: 22 bytes a
message, little-endian fields, ticks by a reciprocal multiply at the tick size 100 and
by a division at any other, one packed word for each message of a known type.  `ap_uint<n>` is `BitVec n`; every operation has the
width it has in the source, and an assignment to a narrower type keeps the low
bits.
-/

namespace FeedHandler.Parser

open Bits

def RAW_MSG_BYTES : Nat := 22

/-- The bytes `'A'`, `'U'` and (`DELETE`) `'D'`. -/
def ADD : BitVec 8 := 0x41#8
def UPDATE : BitVec 8 := 0x55#8

structure RawMsg where
  msg_type : BitVec 8
  side : BitVec 8
  seq_num : BitVec 32
  price_raw : BitVec 64
  size_raw : BitVec 64
deriving DecidableEq, Repr

structure NormMsg where
  price : BitVec 32
  size : BitVec 32
  side : BitVec 1
  seq_num : BitVec 32
deriving DecidableEq, Repr

/-- AXI-Stream word carrying one normalized message. -/
abbrev AxisWord := BitVec 128

/-- `struct.pack("<cBIQQ", ...)` of the feed adapter. -/
def encodeMsg (m : RawMsg) : List (BitVec 8) :=
  [m.msg_type, m.side] ++ bytesLE 4 m.seq_num ++ bytesLE 8 m.price_raw ++ bytesLE 8 m.size_raw

def packNorm (m : NormMsg) : AxisWord :=
  let w : AxisWord := 0
  let w := setRange w 0 m.price
  let w := setRange w 32 m.size
  let w := setRange w 64 m.side
  setRange w 65 m.seq_num

/-- Receive exactly `n` bytes from the stream; `none` while fewer are there, when the
    read blocks. -/
def recvBytes : Nat → List (BitVec 8) → Option (List (BitVec 8) × List (BitVec 8))
  | 0, stream => some ([], stream)
  | _ + 1, [] => none
  | n + 1, byte :: stream => (recvBytes n stream).map fun (buf, rest) => (byte :: buf, rest)

/-- Reconstruct a little-endian 32-bit word from 4 bytes. -/
def le32 (buf : List (BitVec 8)) : BitVec 32 :=
  (buf.getD 0 0).setWidth 32 |||
    ((buf.getD 1 0).setWidth 32 <<< 8) |||
    ((buf.getD 2 0).setWidth 32 <<< 16) |||
    ((buf.getD 3 0).setWidth 32 <<< 24)

/-- Reconstruct a little-endian 64-bit word from 8 bytes. -/
def le64 (buf : List (BitVec 8)) : BitVec 64 :=
  let lo := (le32 buf).setWidth 64
  let hi := (le32 (buf.drop 4)).setWidth 64
  lo ||| (hi <<< 32)

/-- The intermediate values of `parser_div100`, each in its declared width; `diff` and
    `sum` are the signed results of `x - t` and of adding its half to `t`. -/
structure Div100 where
  hh : BitVec 64
  hl : BitVec 64
  lh : BitVec 64
  ll : BitVec 64
  mid : BitVec 66
  t : BitVec 64
  diff : BitVec 65
  sum : BitVec 66
  q : BitVec 64

/-- The two halves of `M'`. -/
def mh : BitVec 32 := 0x47AE147A#32
def ml : BitVec 32 := 0xE147AE15#32

def div100Steps (x : BitVec 64) : Div100 :=
  let xh := x.extractLsb' 32 32
  let xl := x.extractLsb' 0 32
  let hh := xh.setWidth 64 * mh.setWidth 64
  let hl := xh.setWidth 64 * ml.setWidth 64
  let lh := xl.setWidth 64 * mh.setWidth 64
  let ll := xl.setWidth 64 * ml.setWidth 64
  let mid := hl.setWidth 66 + lh.setWidth 66 + (ll >>> 32).setWidth 66
  let t := hh + (mid >>> 32).setWidth 64
  let diff := x.setWidth 65 - t.setWidth 65
  let sum := t.setWidth 66 + (diff.sshiftRight 1).signExtend 66
  let q := (sum.sshiftRight 6).setWidth 64
  { hh, hl, lh, ll, mid, t, diff, sum, q }

def parserDiv100 (x : BitVec 64) : BitVec 64 := (div100Steps x).q

/-- A `TICK_SIZE` that the parser can be built for: a division by 0 is not defined. -/
structure TickSize where
  value : BitVec 64
  ne_zero : value ≠ 0#64

/-- The `TICK_SIZE` of `parser.h`. -/
def defaultTickSize : TickSize := ⟨100#64, by decide⟩

/-- The price in ticks, as the preprocessor selects it: the reciprocal at 100, a division
    at any other tick size. -/
def priceTicks (tick : TickSize) (price_r : BitVec 64) : BitVec 64 :=
  if tick.value = 100#64 then parserDiv100 price_r else price_r / tick.value

/-- One pass of the loop of a parser built for `tick`: the word written for the message in
    `buf`, if any. -/
def parseMsgAt (tick : TickSize) (buf : List (BitVec 8)) : Option AxisWord :=
  let msg_type := buf.getD 0 0
  let side_raw := buf.getD 1 0
  let seq := le32 (buf.drop 2)
  let price_r := le64 (buf.drop 6)
  let size_r := le64 (buf.drop 14)
  let price_ticks := (priceTicks tick price_r).setWidth 32
  let size_norm := if msg_type = DELETE then 0 else size_r.setWidth 32
  if msg_type = ADD ∨ msg_type = UPDATE ∨ msg_type = DELETE then
    some (packNorm
      { price := price_ticks
        size := size_norm
        side := (side_raw &&& 1).setWidth 1
        seq_num := seq })
  else none

/-- What a run of the parser has done when it stops: the words written, and the bytes
    of a message whose rest has not arrived (none when the stream was read to its end). -/
structure ParserRun where
  words : List AxisWord
  pending : List (BitVec 8)
deriving DecidableEq, Repr

theorem length_rest (n : Nat) (stream : List (BitVec 8)) :
    ∀ run ∈ recvBytes n stream, run.2.length + n = stream.length := by
  induction n generalizing stream with
  | zero => simp [recvBytes]
  | succ n ih =>
    cases stream with
    | nil => simp [recvBytes]
    | cons byte stream =>
      intro run hrun
      simp only [recvBytes, Option.mem_def, Option.map_eq_some_iff] at hrun
      rcases hrun with ⟨⟨buf, rest⟩, hrecv, rfl⟩
      have hlen := ih stream _ hrecv
      simp only [List.length_cons] at hlen ⊢
      omega

/-- Process messages until the input stream is empty. -/
def feedParserAt (tick : TickSize) (stream : List (BitVec 8)) : ParserRun :=
  if stream = [] then { words := [], pending := [] }
  else match _hrecv : recvBytes RAW_MSG_BYTES stream with
    | none => { words := [], pending := stream }
    | some (buf, rest) =>
      let run := feedParserAt tick rest
      { run with words := (parseMsgAt tick buf).toList ++ run.words }
termination_by stream.length
decreasing_by
  have hlen := length_rest _ _ _ _hrecv
  simp only [RAW_MSG_BYTES] at hlen
  omega

/-- `feed_parser` as the block design builds it. -/
def feedParser (stream : List (BitVec 8)) : ParserRun := feedParserAt defaultTickSize stream

end FeedHandler.Parser
