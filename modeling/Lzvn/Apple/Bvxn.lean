/-
`src/apple/bvxn.rs`: the `bvxn` block, its one-shot encoder and decoder, the incremental encoder, and the incremental
decoder over the raw one. A `u32` that is read from a header is a number below 2^32, so `as usize` keeps it on every width.

The one addition that a header can make overflow is `HEADER_LEN + header.payload_bytes`: it is `Usize.add`. The counter of
what is fed behind the end of the block can wrap, as in `Raw.Stream`: `feed` takes the exact sum, and `feedOn u` the one of a
build without overflow checks. The other sums are of offsets and lengths in memory and are taken in ℕ.
-/
import Lzvn.Core.LittleEndian
import Lzvn.Raw.Encode
import Lzvn.Raw.StreamRound

namespace Lzvn.Apple

open Lzvn.Core
open Lzvn.Raw (RawDecoder)

/-- `u32::from_le_bytes(src[start..stop])`, and `u64` with eight bytes -/
def fromLeBytes (src : List UInt8) (start stop : ℕ) : Except Stop ℕ := do
  let bytes ← slice src start stop
  return leValue bytes

namespace Bvxn

/-- `HEADER_LEN` -/
def headerLen : ℕ := 12

/-- `BVXN_MAGIC` -/
def bvxnMagic : ℕ := 0x6E787662

/-- `BvxnHeader` -/
structure BvxnHeader where
  rawBytes : ℕ
  payloadBytes : ℕ
deriving DecidableEq, Repr

def parseHeader (src : List UInt8) : Except Stop BvxnHeader := do
  if src.length < headerLen then fail (.truncatedInput src.length)
  let magic ← fromLeBytes src 0 4
  if magic ≠ bvxnMagic then fail (.unsupportedBlockMagic magic)
  let rawBytes ← fromLeBytes src 4 8
  let payloadBytes ← fromLeBytes src 8 12
  return ⟨rawBytes, payloadBytes⟩

def encode (src : List UInt8) : Except Stop (List UInt8) := do
  if u32Max < src.length then fail (.sizeOverflow src.length u32Max "raw block")
  let payload ← Raw.encode src
  if u32Max < payload.length then fail (.sizeOverflow payload.length u32Max "bvxn payload")
  return leBytes 4 bvxnMagic ++ leBytes 4 src.length ++ leBytes 4 payload.length ++ payload

def splitBlock (u : Usize) (src : List UInt8) : Except Stop (BvxnHeader × List UInt8) := do
  let header ← parseHeader src
  let totalLen ← u.add headerLen header.payloadBytes
  if src.length < totalLen then fail (.truncatedInput src.length)
  if src.length > totalLen then fail (.trailingData (src.length - totalLen))
  let payload ← slice src headerLen totalLen
  return (header, payload)

def decode (u : Usize) (src : List UInt8) : Except Stop (List UInt8) := do
  let (header, payload) ← splitBlock u src
  Raw.decode u payload header.rawBytes

def decodeInto (u : Usize) (src : List UInt8) : Rust (List UInt8) ℕ := do
  let (header, payload) ← splitBlock u src
  let written ← Raw.decodeInto payload
  if written ≠ header.rawBytes then throw (.err (.sizeMismatch header.rawBytes written))
  return written

end Bvxn

/-! ## The incremental encoder -/

/-- `BvxnEncoder` -/
abbrev BvxnEncoder := StreamEncoder

namespace BvxnEncoder

def encodeInto : Rust (BvxnEncoder × List UInt8) StreamProgress := StreamEncoder.encodeInto Bvxn.encode

def machine : Machine BvxnEncoder Call Reply := coder StreamEncoder.feed StreamEncoder.finishInput encodeInto

end BvxnEncoder

/-! ## The incremental decoder -/

open Bvxn

/-- `BvxnDecoder` -/
structure BvxnDecoder where
  input : List UInt8
  inputOffset : ℕ
  inputBase : ℕ
  header : Option BvxnHeader
  payloadRemaining : ℕ
  raw : RawDecoder
  finishedInput : Bool
  finished : Bool
  trailingAfterFinish : ℕ
deriving DecidableEq, Repr

namespace BvxnDecoder

def new : BvxnDecoder := ⟨[], 0, 0, none, 0, .new, false, false, 0⟩

/-- `feed`; `count` is the sum in `self.trailing_after_finish += input.len()` -/
def feedWith (count : ℕ → ℕ → ℕ) (input : List UInt8) (self : BvxnDecoder) : BvxnDecoder :=
  if input = [] then self
  else if self.finished then { self with trailingAfterFinish := count self.trailingAfterFinish input.length }
  else { self with input := self.input ++ input }

/-- `feed` with the exact sum -/
abbrev feed (input : List UInt8) (self : BvxnDecoder) : BvxnDecoder := feedWith (· + ·) input self

/-- `feed` on a machine of width `u`, where the sum wraps -/
abbrev feedOn (u : Usize) (input : List UInt8) (self : BvxnDecoder) : BvxnDecoder := feedWith u.wrappingAdd input self

def finishInput (self : BvxnDecoder) : BvxnDecoder := { self with finishedInput := true }

def isFinished (self : BvxnDecoder) : Bool := self.finished

def availableInput (self : BvxnDecoder) : ℕ := self.input.length - self.inputOffset

def absoluteOffset (self : BvxnDecoder) : ℕ := self.inputBase + self.inputOffset

def compactInputIfNecessary : Rust BvxnDecoder Unit := do
  let self ← get
  if self.inputOffset ≠ 0 ∧ (self.inputOffset = self.input.length ∨ self.inputOffset * 2 ≥ self.input.length) then
    let input ← slice self.input self.inputOffset self.input.length
    set { self with input, inputBase := self.inputBase + self.inputOffset, inputOffset := 0 }

/-- the first `if` in `pump_payload` -/
def feedPayload : Rust BvxnDecoder Unit := do
  let self ← get
  let toFeed := min self.availableInput self.payloadRemaining
  if toFeed ≠ 0 then
    let start := self.inputOffset
    let stop := start + toFeed
    let bytes ← slice self.input start stop
    let payloadRemaining ← sub self.payloadRemaining toFeed
    set { self with raw := self.raw.feed bytes, inputOffset := stop, payloadRemaining }
    compactInputIfNecessary

def pumpPayload : Rust BvxnDecoder Unit := do
  feedPayload
  let self ← get
  if self.payloadRemaining = 0 then
    set { self with raw := self.raw.finishInput }
    if self.availableInput ≠ 0 then throw (.err (.trailingData self.availableInput))

/-- the `if self.header.is_none()` in `decode_into`; `false` asks for more input -/
def takeHeader : Rust BvxnDecoder Bool := do
  let self ← get
  if self.header.isSome then return true
  else if self.availableInput < headerLen then
    if self.finishedInput then throw (.err (.truncatedInput self.absoluteOffset))
    else return false
  else
    let bytes ← slice self.input self.inputOffset (self.inputOffset + headerLen)
    let header ← parseHeader bytes
    set { self with
      header := some header
      payloadRemaining := header.payloadBytes
      inputOffset := self.inputOffset + headerLen }
    compactInputIfNecessary
    return true

/-- the end of `decode_into`, on the progress of the raw decoder -/
def settle (progress : StreamProgress) : Rust BvxnDecoder StreamProgress := do
  let self ← get
  match self.header with
  | none => throw .panic
  | some header =>
    let expected := header.rawBytes
    let actual := self.raw.totalOutput
    if actual > expected then throw (.err (.sizeMismatch expected actual))
    else
      match progress.status with
      | .needInput =>
        if self.payloadRemaining ≠ 0 ∧ self.finishedInput ∧ self.availableInput = 0 then
          throw (.err (.truncatedInput self.absoluteOffset))
        else return progress
      | .needOutput => return progress
      | .finished =>
        if actual ≠ expected then throw (.err (.sizeMismatch expected actual))
        else
          set { self with finished := true }
          if self.availableInput ≠ 0 then throw (.err (.trailingData self.availableInput))
          else return progress

/-- the decoder and the caller's buffer -/
abbrev Target := BvxnDecoder × List UInt8

def onDecoder {α : Type} (m : Rust BvxnDecoder α) : Rust Target α := zoom Prod.fst (fun self t => (self, t.2)) m

def onRaw {α : Type} (m : Rust RawDecoder.Target α) : Rust Target α :=
  zoom (fun t => (t.1.raw, t.2)) (fun r t => ({ t.1 with raw := r.1 }, r.2)) m

/-- `decode_into` behind the header -/
def decodePayload : Rust Target StreamProgress := do
  onDecoder pumpPayload
  let progress ← onRaw RawDecoder.decodeInto
  onDecoder (settle progress)

def decodeInto : Rust Target StreamProgress := do
  let (self, _) ← get
  if self.trailingAfterFinish ≠ 0 then throw (.err (.trailingData self.trailingAfterFinish))
  else if self.finished then return ⟨0, .finished⟩
  else
    let parsed ← onDecoder takeHeader
    if parsed then decodePayload else return ⟨0, .needInput⟩

def machine : Machine BvxnDecoder Call Reply := coder feed finishInput decodeInto

/-- the decoder on a machine of width `u`; the raw decoder inside is fed the payload only, and counts it exactly -/
def machineOn (u : Usize) : Machine BvxnDecoder Call Reply := coder (feedOn u) finishInput decodeInto

end BvxnDecoder

end Lzvn.Apple
