/-
`src/raw/encode.rs`: emitting instructions, and the loop of `Encoder::finish`. The `while` loops are loops of
`Core.Loop`: `literalsLoop`, `chunksLoop` and `loop`, whose rounds advance `position` past a byte or past a match
(`round_goes`).

The emitters take what their `as u8` and `as u16` do as a parameter, `Casts`. Those of the source are the ones with
`Casts.wrapping`.
-/
import Lzvn.Raw.BestMatch

namespace Lzvn.Raw

open Lzvn.Core

/-- `EOS` -/
def eos : List UInt8 := [0x06, 0, 0, 0, 0, 0, 0, 0]

/-- `MAX_INLINE_LITERAL` -/
def maxInlineLiteral : ℕ := 3

/-- `MAX_LITERAL_LEN` -/
def maxLiteralLen : ℕ := 271

/-- `MAX_MATCH_LEN` -/
def maxMatchLen : ℕ := 271

/-- `MAX_MEDIUM_DISTANCE` -/
def maxMediumDistance : ℕ := 0x3FFF

/-- `MAX_MEDIUM_MATCH` -/
def maxMediumMatch : ℕ := 34

/-- `max_short_match` -/
def maxShortMatch (inlineLiterals : ℕ) : Except Stop ℕ := sub 10 (inlineLiterals * 2)

/-! ## Casts -/

/-- what the `as u8` and the `as u16` of the emitters do; `low` is the `distance as u8` in `emit_small_distance` -/
structure Casts where
  u8 : ℕ → Except Stop UInt8
  u16 : ℕ → Except Stop UInt16
  low : ℕ → Except Stop UInt8

/-- the casts of the source, which keep the low bits -/
def Casts.wrapping : Casts where
  u8 n := .ok (UInt8.ofNat n)
  u16 n := .ok (UInt16.ofNat n)
  low n := .ok (UInt8.ofNat n)

namespace Encoder

variable {src : List UInt8}

/-! ## Emitting instructions -/

/-- `self.output.push(..)` and `self.output.extend_from_slice(..)` -/
def extend (bytes : List UInt8) : Rust (Encoder src) Unit := modify fun e => { e with output := e.output ++ bytes }

/-- the length of a chunk in `emit_literals` and `emit_match_chunks` -/
def chunkLen (length maxLen : ℕ) : ℕ := if length ≤ 15 then length else min length maxLen

theorem chunkLen_pos {length maxLen : ℕ} (h : 0 < length) (hmax : 0 < maxLen) : 0 < chunkLen length maxLen := by
  unfold chunkLen
  split_ifs <;> omega

theorem chunkLen_le (length maxLen : ℕ) : chunkLen length maxLen ≤ length := by
  unfold chunkLen
  split_ifs <;> omega

section
variable (casts : Casts)

/-- the header that `emit_literals` and `emit_match_chunks` write for a chunk -/
def chunkHeaderWith (base : UInt8) (length : ℕ) : Except Stop (List UInt8) := do
  if length ≤ 15 then return [base ||| (← casts.u8 length)]
  let extra ← sub length 16
  return [base, ← casts.u8 extra]

/-- one round of the `while` in `emit_literals`, on the output and the literals left -/
def literalsRoundWith : Rust (List UInt8 × List UInt8) (Option Unit) := do
  let (output, literals) ← get
  if literals.isEmpty then return some ()
  else
    let n := chunkLen literals.length maxLiteralLen
    let header ← chunkHeaderWith casts 0xE0 n
    let chunk ← slice literals 0 n
    let rest ← slice literals n literals.length
    set (output ++ header ++ chunk, rest)
    return none

theorem literalsRoundWith_falls (s s' : List UInt8 × List UInt8) (h : (literalsRoundWith casts).run s = .ok none s') :
    s'.2.length < s.2.length := by
  obtain ⟨output, literals⟩ := s
  simp only [literalsRoundWith, EStateM.run_bind, EStateM.run_get] at h
  split_ifs at h with hemp
  · cases h
  · simp only [run_bind_ok, run_lift_eq_ok] at h
    obtain ⟨header, _, ⟨-, rfl⟩, chunk, _, ⟨-, rfl⟩, rest, _, ⟨hrest, rfl⟩, _, _, hset, hlast⟩ := h
    cases hset
    cases hlast
    have hne : 0 < literals.length := List.length_pos_iff.2 (by simpa using hemp)
    have hpos := chunkLen_pos hne (show 0 < maxLiteralLen by decide)
    have hle := chunkLen_le literals.length maxLiteralLen
    rw [slice_eq hle le_rfl] at hrest
    cases hrest
    dsimp only
    rw [List.length_take, List.length_drop]
    omega

def literalsLoopWith : Loop (List UInt8 × List UInt8) (EStateM.Result Stop (List UInt8 × List UInt8) Unit) :=
  Loop.ofMonadic (literalsRoundWith casts) (fun s => s.2.length) (literalsRoundWith_falls casts)

def emitLiteralsWith (literals : List UInt8) : Rust (Encoder src) Unit := do
  let self ← get
  match (literalsLoopWith casts).run (self.output, literals) with
  | .ok _ (output, _) => modify fun e => { e with output }
  | .error e _ => throw e

def emitSmallDistanceWith (literals : List UInt8) (matchLen distance : ℕ) : Rust (Encoder src) Unit := do
  debugAssert (distance < maxShortDistance)
  let limit ← maxShortMatch literals.length
  debugAssert (minMatchLen ≤ matchLen ∧ matchLen ≤ limit)
  let code ← sub matchLen minMatchLen
  let opcode := ((← casts.u8 literals.length) <<< 6) ||| ((← casts.u8 code) <<< 3) ||| (← casts.u8 (distance >>> 8))
  extend ([opcode, ← casts.low distance] ++ literals)

def emitMediumDistanceWith (literals : List UInt8) (matchLen distance : ℕ) : Rust (Encoder src) Unit := do
  debugAssert (distance ≤ maxMediumDistance)
  debugAssert (minMatchLen ≤ matchLen ∧ matchLen ≤ maxMediumMatch)
  let code ← sub matchLen minMatchLen
  let matchCode ← casts.u8 code
  let opcode := (0xA0 : UInt8) ||| ((← casts.u8 literals.length) <<< 3) ||| (matchCode >>> 2)
  let packed := ((← casts.u16 distance) <<< 2) ||| (matchCode.toUInt16 &&& 0x03)
  extend ([opcode, packed.toUInt8, (packed >>> 8).toUInt8] ++ literals)

def emitLargeDistanceWith (literals : List UInt8) (matchLen distance : ℕ) : Rust (Encoder src) Unit := do
  let limit ← maxShortMatch literals.length
  debugAssert (minMatchLen ≤ matchLen ∧ matchLen ≤ limit)
  let code ← sub matchLen minMatchLen
  let opcode := ((← casts.u8 literals.length) <<< 6) ||| ((← casts.u8 code) <<< 3) ||| 7
  let field ← casts.u16 distance
  extend ([opcode, field.toUInt8, (field >>> 8).toUInt8] ++ literals)

def emitPreviousDistanceWith (literals : List UInt8) (matchLen : ℕ) : Rust (Encoder src) Unit := do
  let self ← get
  debugAssert (self.previousDistance ≠ 0)
  let limit ← maxShortMatch literals.length
  debugAssert (minMatchLen ≤ matchLen ∧ matchLen ≤ limit)
  let code ← sub matchLen minMatchLen
  let opcode := ((← casts.u8 literals.length) <<< 6) ||| ((← casts.u8 code) <<< 3) ||| 6
  extend ([opcode] ++ literals)

/-- one round of the `while` in `emit_match_chunks`, on the output and the length left -/
def chunksRoundWith : Rust (List UInt8 × ℕ) (Option Unit) := do
  let (output, matchLen) ← get
  if matchLen > 0 then
    let n := chunkLen matchLen maxMatchLen
    let header ← chunkHeaderWith casts 0xF0 n
    let rest ← sub matchLen n
    set (output ++ header, rest)
    return none
  else return some ()

theorem chunksRoundWith_falls (s s' : List UInt8 × ℕ) (h : (chunksRoundWith casts).run s = .ok none s') :
    s'.2 < s.2 := by
  obtain ⟨output, matchLen⟩ := s
  simp only [chunksRoundWith, EStateM.run_bind, EStateM.run_get] at h
  split_ifs at h with hpos
  · simp only [run_bind_ok, run_lift_eq_ok] at h
    obtain ⟨header, _, ⟨-, rfl⟩, rest, _, ⟨hrest, rfl⟩, _, _, hset, hlast⟩ := h
    cases hset
    cases hlast
    have hlow := chunkLen_pos hpos (show 0 < maxMatchLen by decide)
    have hle := chunkLen_le matchLen maxMatchLen
    rw [sub_eq hle] at hrest
    cases hrest
    dsimp only
    omega
  · cases h

def chunksLoopWith : Loop (List UInt8 × ℕ) (EStateM.Result Stop (List UInt8 × ℕ) Unit) :=
  Loop.ofMonadic (chunksRoundWith casts) (fun s => s.2) (chunksRoundWith_falls casts)

def emitMatchChunksWith (matchLen : ℕ) : Rust (Encoder src) Unit := do
  let self ← get
  match (chunksLoopWith casts).run (self.output, matchLen) with
  | .ok _ (output, _) => modify fun e => { e with output }
  | .error e _ => throw e

/-- the instruction with an explicit distance in `emit_match_with_literals`; the length of the match that it leaves -/
def emitFirstWith (literals : List UInt8) (matchLen distance shortMatchLimit : ℕ) : Rust (Encoder src) ℕ := do
  if distance ≤ maxMediumDistance ∧ matchLen > shortMatchLimit then
    let initialMatch := min matchLen maxMediumMatch
    emitMediumDistanceWith casts literals initialMatch distance
    sub matchLen initialMatch
  else if distance < maxShortDistance then
    let initialMatch := min matchLen shortMatchLimit
    emitSmallDistanceWith casts literals initialMatch distance
    sub matchLen initialMatch
  else
    let initialMatch := min matchLen shortMatchLimit
    emitLargeDistanceWith casts literals initialMatch distance
    sub matchLen initialMatch

def emitMatchWithLiteralsWith (literals : List UInt8) (matchLen distance : ℕ) : Rust (Encoder src) Unit := do
  let inlineStart := literals.length - maxInlineLiteral
  let before ← slice literals 0 inlineStart
  emitLiteralsWith casts before
  let inlineLiterals ← slice literals inlineStart literals.length
  let inlineLen := inlineLiterals.length
  let shortMatchLimit ← maxShortMatch inlineLen
  let self ← get
  if distance = self.previousDistance ∧ inlineLen = 0 then
    emitMatchChunksWith casts matchLen
  else if distance = self.previousDistance then
    let initialMatch := min matchLen shortMatchLimit
    emitPreviousDistanceWith casts inlineLiterals initialMatch
    let matchLen ← sub matchLen initialMatch
    modify fun e => { e with previousDistance := distance }
    emitMatchChunksWith casts matchLen
  else
    let matchLen ← emitFirstWith casts inlineLiterals matchLen distance shortMatchLimit
    modify fun e => { e with previousDistance := distance }
    emitMatchChunksWith casts matchLen

end

/-! ### The emitters of the source -/

abbrev chunkHeader : UInt8 → ℕ → Except Stop (List UInt8) := chunkHeaderWith .wrapping

abbrev literalsRound : Rust (List UInt8 × List UInt8) (Option Unit) := literalsRoundWith .wrapping

theorem literalsRound_falls (s s' : List UInt8 × List UInt8) (h : literalsRound.run s = .ok none s') :
    s'.2.length < s.2.length := literalsRoundWith_falls .wrapping s s' h

abbrev literalsLoop : Loop (List UInt8 × List UInt8) (EStateM.Result Stop (List UInt8 × List UInt8) Unit) :=
  literalsLoopWith .wrapping

abbrev emitLiterals (literals : List UInt8) : Rust (Encoder src) Unit := emitLiteralsWith .wrapping literals

def emitLiteralsFromSource (start stop : ℕ) : Rust (Encoder src) Unit := do
  let literals ← slice src start stop
  emitLiterals literals

abbrev emitSmallDistance (literals : List UInt8) (matchLen distance : ℕ) : Rust (Encoder src) Unit :=
  emitSmallDistanceWith .wrapping literals matchLen distance

abbrev emitMediumDistance (literals : List UInt8) (matchLen distance : ℕ) : Rust (Encoder src) Unit :=
  emitMediumDistanceWith .wrapping literals matchLen distance

abbrev emitLargeDistance (literals : List UInt8) (matchLen distance : ℕ) : Rust (Encoder src) Unit :=
  emitLargeDistanceWith .wrapping literals matchLen distance

abbrev emitPreviousDistance (literals : List UInt8) (matchLen : ℕ) : Rust (Encoder src) Unit :=
  emitPreviousDistanceWith .wrapping literals matchLen

abbrev chunksRound : Rust (List UInt8 × ℕ) (Option Unit) := chunksRoundWith .wrapping

theorem chunksRound_falls (s s' : List UInt8 × ℕ) (h : chunksRound.run s = .ok none s') : s'.2 < s.2 :=
  chunksRoundWith_falls .wrapping s s' h

abbrev chunksLoop : Loop (List UInt8 × ℕ) (EStateM.Result Stop (List UInt8 × ℕ) Unit) := chunksLoopWith .wrapping

abbrev emitMatchChunks (matchLen : ℕ) : Rust (Encoder src) Unit := emitMatchChunksWith .wrapping matchLen

abbrev emitFirst (literals : List UInt8) (matchLen distance shortMatchLimit : ℕ) : Rust (Encoder src) ℕ :=
  emitFirstWith .wrapping literals matchLen distance shortMatchLimit

abbrev emitMatchWithLiterals (literals : List UInt8) (matchLen distance : ℕ) : Rust (Encoder src) Unit :=
  emitMatchWithLiteralsWith .wrapping literals matchLen distance

def emitMatch (nextMatch : Match) : Rust (Encoder src) Unit := do
  let self ← get
  let literals ← slice src self.literalStart self.position
  emitMatchWithLiterals literals nextMatch.length nextMatch.distance

/-! ## The loop of `finish` -/

/-- one round of the `while` in `Encoder::finish` -/
def round : Rust (Encoder src) (Option Unit) := do
  let self ← get
  if self.position < src.length then
    match ← self.findMatch self.position with
    | none =>
      insertPosition self.position
      modify fun e => { e with position := self.position + 1 }
      return none
    | some nextMatch =>
      emitMatch nextMatch
      let matchEnd := self.position + nextMatch.length
      (List.range' self.position nextMatch.length).forM insertPosition
      modify fun e => { e with position := matchEnd, literalStart := matchEnd }
      return none
  else return some ()

/-- what a round that goes on does: it steps over one byte, or it emits a match and steps over its bytes -/
theorem round_goes {e e' : Encoder src} (h : round.run e = .ok none e') :
    e.position < src.length ∧
      ((e.findMatch e.position = .ok none ∧ ∃ e1, (insertPosition e.position).run e = .ok () e1 ∧
          e' = { e1 with position := e.position + 1 }) ∨
        ∃ m e1 e2, e.findMatch e.position = .ok (some m) ∧ (emitMatch m).run e = .ok () e1 ∧
          ((List.range' e.position m.length).forM insertPosition).run e1 = .ok () e2 ∧
          e' = { e2 with position := e.position + m.length, literalStart := e.position + m.length }) := by
  obtain ⟨r, hr, -⟩ := findMatch_spec e e.position
  simp only [round, EStateM.run_bind, EStateM.run_get] at h
  split_ifs at h with hlt
  · refine ⟨hlt, ?_⟩
    simp only [EStateM.run_bind, hr, run_lift_ok] at h
    cases r with
    | none =>
      simp only [run_bind_ok, EStateM.run_modify] at h
      obtain ⟨_, e1, hinsert, _, _, hset, hlast⟩ := h
      cases hset
      cases hlast
      exact .inl ⟨hr, e1, hinsert, rfl⟩
    | some m =>
      simp only [run_bind_ok, EStateM.run_modify] at h
      obtain ⟨_, e1, hemit, _, e2, hinsert, _, _, hset, hlast⟩ := h
      cases hset
      cases hlast
      exact .inr ⟨m, e1, e2, hr, hemit, hinsert, rfl⟩
  · cases h

/-- a round that goes on moves `position` forward -/
theorem round_falls (e e' : Encoder src) (h : round.run e = .ok none e') :
    src.length - e'.position < src.length - e.position := by
  obtain ⟨hlt, ⟨-, e1, -, rfl⟩ | ⟨m, e1, e2, hfind, -, -, rfl⟩⟩ := round_goes h
  · exact Nat.sub_succ_lt_self _ _ hlt
  · have hmin := (findMatch_isMatch hfind).length_min
    unfold minMatchLen at hmin
    dsimp only
    omega

/-- the `while` in `Encoder::finish` -/
def loop : Loop (Encoder src) (EStateM.Result Stop (Encoder src) Unit) :=
  Loop.ofMonadic round (fun e => src.length - e.position) round_falls

def runLoop : Rust (Encoder src) Unit := loop.run

def finish : Rust (Encoder src) (List UInt8) := do
  runLoop
  let self ← get
  emitLiteralsFromSource self.literalStart src.length
  extend eos
  let self ← get
  return self.output

end Encoder

/-- `encode` -/
def encode (src : List UInt8) : Except Stop (List UInt8) :=
  match Encoder.finish.run (Encoder.new src) with
  | .ok output _ => .ok output
  | .error e _ => .error e

end Lzvn.Raw
