/-
`src/raw/stream.rs`: the incremental decoder and encoder. `RawDecoder` is the source's structure. The `loop` of `decode_into` is the
`Loop` whose body is `round`, on the decoder and the locals of the call. A round that goes on has consumed input or cleared
pending work (`round_falls`), so a call ends.

Two fields are sums over all that was ever fed. `trailing_after_finish` counts what came behind the end, and `decode_into`
compares it with 0: `feed` takes the exact sum, and `feedOn u` the one that a build without overflow checks takes on width
`u`, which wraps once more than `usize::MAX` bytes came behind the end. `input_base` counts what was consumed and is read for
the positions in errors only; it is taken in ℕ, and is exact up to `usize::MAX` consumed bytes (`Raw.StreamCounter`).
-/
import Lzvn.Core.Loop
import Lzvn.Raw.Opcode
import Lzvn.Raw.Decode
import Lzvn.Raw.Encode
import Lzvn.StreamEncoder

namespace Lzvn.Raw

open Lzvn.Core

/-- `INPUT_COMPACT_THRESHOLD` -/
def inputCompactThreshold : ℕ := 4096

/-- `Pending`; `copy` is the field `match` -/
structure Pending where
  literal : ℕ
  copy : ℕ
  distance : ℕ
deriving DecidableEq, Repr

def Pending.isEmpty (p : Pending) : Prop := p.literal = 0 ∧ p.copy = 0

instance (p : Pending) : Decidable p.isEmpty := by unfold Pending.isEmpty; infer_instance

/-- `RawDecoder` -/
structure RawDecoder where
  input : List UInt8
  inputOffset : ℕ
  inputBase : ℕ
  history : List UInt8
  previousDistance : ℕ
  pending : Pending
  finishedInput : Bool
  finished : Bool
  eosPadding : ℕ
  trailingAfterFinish : ℕ
deriving DecidableEq, Repr

namespace RawDecoder

def new : RawDecoder := ⟨[], 0, 0, [], 0, ⟨0, 0, 0⟩, false, false, 0, 0⟩

/-- `feed`; `count` is the sum in `self.trailing_after_finish += input.len()` -/
def feedWith (count : ℕ → ℕ → ℕ) (input : List UInt8) (self : RawDecoder) : RawDecoder :=
  if input = [] then self
  else if self.finished then
    -- `saturating_add` in the source: a sum that saturates is beyond `MAX_EOS_PADDING` all the same
    if input.all (· = 0) ∧ self.eosPadding + input.length ≤ maxEosPadding then
      { self with eosPadding := self.eosPadding + input.length }
    else { self with trailingAfterFinish := count self.trailingAfterFinish input.length }
  else { self with input := self.input ++ input }

/-- `feed` with the exact sum -/
abbrev feed (input : List UInt8) (self : RawDecoder) : RawDecoder := feedWith (· + ·) input self

/-- `feed` on a machine of width `u`, where the sum wraps -/
abbrev feedOn (u : Usize) (input : List UInt8) (self : RawDecoder) : RawDecoder := feedWith u.wrappingAdd input self

def finishInput (self : RawDecoder) : RawDecoder := { self with finishedInput := true }

def totalOutput (self : RawDecoder) : ℕ := self.history.length

def isFinished (self : RawDecoder) : Bool := self.finished

def availableInput (self : RawDecoder) : ℕ := self.input.length - self.inputOffset

def absoluteOffset (self : RawDecoder) : ℕ := self.inputBase + self.inputOffset

def compactInput : Rust RawDecoder Unit := do
  let self ← get
  if self.inputOffset = 0 then return ()
  let input ← slice self.input self.inputOffset self.input.length
  set { self with input, inputBase := self.inputBase + self.inputOffset, inputOffset := 0 }

def compactInputIfNecessary : Rust RawDecoder Unit := do
  let self ← get
  if self.pending.isEmpty ∧ (self.inputOffset = self.input.length ∨ self.inputOffset ≥ inputCompactThreshold ∨
      self.inputOffset * 2 ≥ self.input.length) then
    compactInput

def prepareLiteralOnly (opcodeLen literalLen : ℕ) : Rust RawDecoder Unit :=
  modify fun self => { self with inputOffset := self.inputOffset + opcodeLen, pending := ⟨literalLen, 0, 0⟩ }

def validateDistance (distance available : ℕ) : Rust RawDecoder Unit := do
  if distance = 0 ∨ distance > available then throw (.err (.invalidMatchDistance distance available))

def prepareMatchOnly (opcodeLen matchLen distance : ℕ) : Rust RawDecoder Unit := do
  validateDistance distance (← get).history.length
  modify fun self => { self with
    inputOffset := self.inputOffset + opcodeLen
    previousDistance := distance
    pending := ⟨0, matchLen, distance⟩ }
  compactInputIfNecessary

def prepareLiteralAndMatch (opcodeLen literalLen matchLen distance : ℕ) : Rust RawDecoder Unit := do
  validateDistance distance ((← get).history.length + literalLen)
  modify fun self => { self with
    inputOffset := self.inputOffset + opcodeLen
    previousDistance := distance
    pending := ⟨literalLen, matchLen, distance⟩ }

def ensureBuffered (needed : ℕ) : Rust RawDecoder Bool := do
  let self ← get
  if self.availableInput ≥ needed then return true
  if self.finishedInput then throw (.err (.truncatedInput self.absoluteOffset))
  return false

def consumeEos : Rust RawDecoder Unit := do
  modify fun self => { self with inputOffset := self.inputOffset + 1 }
  let self ← get
  let padding ← slice self.input self.inputOffset self.input.length
  if padding.any (· ≠ 0) then throw (.err (.trailingData padding.length))
  if padding.length > maxEosPadding then throw (.err (.trailingData (padding.length - maxEosPadding)))
  set { self with eosPadding := padding.length, inputOffset := self.input.length }
  compactInput

/-! ## `decode_into` -/

/-- the decoder and the slice of the caller's buffer that a helper writes to -/
abbrev Target := RawDecoder × List UInt8

def onDecoder {α : Type} (m : Rust RawDecoder α) : Rust Target α := zoom Prod.fst (fun self t => (self, t.2)) m

def copyPendingLiteral : Rust Target ℕ := do
  let (self, dst) ← get
  let count := min self.pending.literal dst.length
  let start := self.inputOffset
  let stop := start + count
  let bytes ← slice self.input start stop
  let dst ← copyFromSlice dst 0 count bytes
  let literal ← sub self.pending.literal count
  set ({ self with
    history := self.history ++ bytes
    inputOffset := stop
    pending := { self.pending with literal } }, dst)
  onDecoder compactInputIfNecessary
  return count

/-- one round of the `for` in `copy_pending_match`, on the history and the buffer -/
def copySlot (distance : ℕ) (s : List UInt8 × List UInt8) (i : ℕ) : Except Stop (List UInt8 × List UInt8) := do
  let j ← sub s.1.length distance
  let byte ← index s.1 j
  let dst ← setIndex s.2 i byte
  return (s.1 ++ [byte], dst)

/-- the `for` in `copy_pending_match` -/
def copySlots (distance count : ℕ) (s : List UInt8 × List UInt8) : Except Stop (List UInt8 × List UInt8) :=
  (List.range count).foldlM (copySlot distance) s

def copyPendingMatch : Rust Target ℕ := do
  let (self, dst) ← get
  let count := min self.pending.copy dst.length
  let (history, dst) ← copySlots self.pending.distance count (self.history, dst)
  let copy ← sub self.pending.copy count
  set ({ self with history, pending := { self.pending with copy } }, dst)
  return count

/-- the decoder and the locals of `decode_into` -/
structure Locals where
  self : RawDecoder
  dst : List UInt8
  written : ℕ
deriving DecidableEq, Repr

def onSelf {α : Type} (m : Rust RawDecoder α) : Rust Locals α := zoom Locals.self (fun self c => { c with self }) m

/-- `m` writes to `&mut dst[written..]` -/
def onRest {α : Type} (m : Rust Target α) : Rust Locals α := do
  let c ← get
  let _ ← slice c.dst c.written c.dst.length
  zoom (fun c => (c.self, c.dst.drop c.written))
    (fun t c => { c with self := t.1, dst := c.dst.take c.written ++ t.2 }) m

/-- one round of the `loop` in `decode_into`: `none` goes round again, and a status leaves with what was written -/
def round : Rust Locals (Option StreamStatus) := do
  let c ← get
  if c.written = c.dst.length then return some .needOutput
  else if c.self.pending.literal ≠ 0 then
    let count ← onRest copyPendingLiteral
    modify fun c => { c with written := c.written + count }
    if (← get).self.pending.literal ≠ 0 then return some .needOutput
    else return none
  else if c.self.pending.copy ≠ 0 then
    let count ← onRest copyPendingMatch
    modify fun c => { c with written := c.written + count }
    if (← get).self.pending.copy ≠ 0 then return some .needOutput
    else
      onSelf <| modify fun self => { self with pending := { self.pending with distance := 0 } }
      return none
  else if c.self.availableInput = 0 then
    onSelf compactInput
    if c.self.finishedInput then
      throw (.err (.truncatedInput (← get).self.absoluteOffset))
    else return some .needInput
  else
    let self := c.self
    let opcode ← index self.input self.inputOffset
    match classify opcode with
    | none => throw (.err (.invalidOpcode self.absoluteOffset opcode))
    | some .smallDistance =>
      if !(← onSelf (ensureBuffered 2)) then return some .needInput
      let literalLen := (opcode >>> 6).toNat
      if !(← onSelf (ensureBuffered (2 + literalLen))) then return some .needInput
      let matchLen := ((opcode >>> 3) &&& 0x07).toNat + 3
      let second ← index self.input (self.inputOffset + 1)
      let distance := ((opcode &&& 0x07).toNat <<< 8) ||| second.toNat
      onSelf (prepareLiteralAndMatch 2 literalLen matchLen distance)
      return none
    | some .mediumDistance =>
      if !(← onSelf (ensureBuffered 3)) then return some .needInput
      let literalLen := ((opcode >>> 3) &&& 0x03).toNat
      if !(← onSelf (ensureBuffered (3 + literalLen))) then return some .needInput
      let second ← index self.input (self.inputOffset + 1)
      let third ← index self.input (self.inputOffset + 2)
      let matchLen := (((opcode &&& 0x07).toNat <<< 2) ||| (second.toNat &&& 0x03)) + 3
      let distance := (second.toNat >>> 2) ||| (third.toNat <<< 6)
      onSelf (prepareLiteralAndMatch 3 literalLen matchLen distance)
      return none
    | some .largeDistance =>
      if !(← onSelf (ensureBuffered 3)) then return some .needInput
      let literalLen := (opcode >>> 6).toNat
      if !(← onSelf (ensureBuffered (3 + literalLen))) then return some .needInput
      let matchLen := ((opcode >>> 3) &&& 0x07).toNat + 3
      let second ← index self.input (self.inputOffset + 1)
      let third ← index self.input (self.inputOffset + 2)
      let distance := second.toNat + 256 * third.toNat
      onSelf (prepareLiteralAndMatch 3 literalLen matchLen distance)
      return none
    | some .previousDistance =>
      let literalLen := (opcode >>> 6).toNat
      if !(← onSelf (ensureBuffered (1 + literalLen))) then return some .needInput
      let matchLen := ((opcode >>> 3) &&& 0x07).toNat + 3
      onSelf (prepareLiteralAndMatch 1 literalLen matchLen self.previousDistance)
      return none
    | some .smallLiteral =>
      let literalLen := (opcode &&& 0x0F).toNat
      if !(← onSelf (ensureBuffered (1 + literalLen))) then return some .needInput
      onSelf (prepareLiteralOnly 1 literalLen)
      return none
    | some .largeLiteral =>
      if !(← onSelf (ensureBuffered 2)) then return some .needInput
      let second ← index self.input (self.inputOffset + 1)
      let literalLen := second.toNat + 16
      if !(← onSelf (ensureBuffered (2 + literalLen))) then return some .needInput
      onSelf (prepareLiteralOnly 2 literalLen)
      return none
    | some .smallMatch =>
      onSelf (prepareMatchOnly 1 (opcode &&& 0x0F).toNat self.previousDistance)
      return none
    | some .largeMatch =>
      if !(← onSelf (ensureBuffered 2)) then return some .needInput
      let second ← index self.input (self.inputOffset + 1)
      let matchLen := second.toNat + 16
      onSelf (prepareMatchOnly 2 matchLen self.previousDistance)
      return none
    | some .nop =>
      onSelf (modify fun self => { self with inputOffset := self.inputOffset + 1 })
      onSelf compactInputIfNecessary
      return none
    | some .eos =>
      onSelf consumeEos
      onSelf (modify fun self => { self with finished := true })
      return some .finished

end RawDecoder

/-! ## The incremental encoder -/

/-- `RawEncoder` -/
abbrev RawEncoder := StreamEncoder

namespace RawEncoder

def encodeInto : Rust (RawEncoder × List UInt8) StreamProgress := StreamEncoder.encodeInto encode

def machine : Machine RawEncoder Call Reply := coder StreamEncoder.feed StreamEncoder.finishInput encodeInto

end RawEncoder

end Lzvn.Raw
