/-
What `emit_match_with_literals` writes, executed by the decoder, and its casts.

- `emitMatchWithLiteralsWith_exact`: casts that panic where a bit is lost give the same as those of the source, which keep
  the low bits, but for the low byte of a small distance, whose other bits are in the opcode.
- `emission_is_one_step`: from every decoder state the bytes of one emission are one step.
-/
import Lzvn.Raw.RoundTrip

namespace Lzvn.Raw

open Lzvn.Core Lzvn.Core.Lz77

/-! ## Casts -/

namespace Casts

def exact8 (n : ℕ) : Except Stop UInt8 := if n < 2 ^ 8 then .ok (UInt8.ofNat n) else .error .panic

def exact16 (n : ℕ) : Except Stop UInt16 := if n < 2 ^ 16 then .ok (UInt16.ofNat n) else .error .panic

/-- casts that panic where a bit is lost -/
def exact : Casts := ⟨exact8, exact16, exact8⟩

/-- casts that panic where a bit is lost, other than a bit of the distance in `emit_small_distance` -/
def exactButLow : Casts := { exact with low := wrapping.low }

theorem exact8_ok {n : ℕ} (h : n < 2 ^ 8) : exactButLow.u8 n = .ok (UInt8.ofNat n) := if_pos h

theorem exact16_ok {n : ℕ} (h : n < 2 ^ 16) : exactButLow.u16 n = .ok (UInt16.ofNat n) := if_pos h

theorem low_ok (n : ℕ) : exactButLow.low n = .ok (UInt8.ofNat n) := rfl

end Casts

namespace Encoder

variable {src : List UInt8}

/-! ## Exact casts -/

theorem chunkHeaderWith_exact {base : UInt8} {n : ℕ} (h : n ≤ 271) :
    chunkHeaderWith .exactButLow base n = chunkHeader base n := by
  unfold chunkHeader chunkHeaderWith
  split_ifs with hshort
  · rw [Casts.exact8_ok (by omega)]
    rfl
  · rw [sub_eq (by omega), except_ok_bind, Casts.exact8_ok (by omega)]
    rfl

theorem literalsRoundWith_exact : literalsRoundWith .exactButLow = literalsRound := by
  have hmax (n : ℕ) : chunkLen n maxLiteralLen ≤ 271 := chunkLen_max n
  unfold literalsRound literalsRoundWith
  simp only [chunkHeaderWith_exact (hmax _)]

theorem chunksRoundWith_exact : chunksRoundWith .exactButLow = chunksRound := by
  have hmax (n : ℕ) : chunkLen n maxMatchLen ≤ 271 := chunkLen_max n
  unfold chunksRound chunksRoundWith
  simp only [chunkHeaderWith_exact (hmax _)]

theorem emitLiteralsWith_exact (e : Encoder src) (literals : List UInt8) :
    (emitLiteralsWith .exactButLow literals).run e = (emitLiterals literals).run e := by
  rw [emitLiteralsWith, literalsLoopWith, Loop.ofMonadic_congr literalsRoundWith_exact _ literalsRound_falls]
  rfl

theorem emitMatchChunksWith_exact (e : Encoder src) (matchLen : ℕ) :
    (emitMatchChunksWith .exactButLow matchLen).run e = (emitMatchChunks matchLen).run e := by
  rw [emitMatchChunksWith, chunksLoopWith, Loop.ofMonadic_congr chunksRoundWith_exact _ chunksRound_falls]
  rfl

variable {l : List UInt8} {matchLen distance : ℕ}

theorem emitSmallDistanceWith_exact (e : Encoder src) (hl : l.length ≤ 3) (hd : distance < maxShortDistance)
    (h3 : 3 ≤ matchLen) (hm : matchLen ≤ 10 - l.length * 2) :
    (emitSmallDistanceWith .exactButLow l matchLen distance).run e = (emitSmallDistance l matchLen distance).run e := by
  have hd' : distance < 0x600 := hd
  have hhigh : distance >>> 8 = distance / 256 := Nat.shiftRight_eq_div_pow distance 8
  simp only [emitSmallDistanceWith, Casts.wrapping, maxShortMatch_ok hl, debugAssert_ok hd, hhigh,
    debugAssert_ok (show minMatchLen ≤ matchLen ∧ matchLen ≤ 10 - l.length * 2 from ⟨h3, hm⟩),
    sub_eq (show minMatchLen ≤ matchLen from h3), EStateM.run_bind, run_lift_ok, Casts.low_ok,
    Casts.exact8_ok (show l.length < 2 ^ 8 by omega), Casts.exact8_ok (show distance / 256 < 2 ^ 8 by omega),
    Casts.exact8_ok (show matchLen - minMatchLen < 2 ^ 8 by omega)]

theorem emitMediumDistanceWith_exact (e : Encoder src) (hl : l.length ≤ 3) (hd : distance ≤ maxMediumDistance)
    (h3 : 3 ≤ matchLen) (hm : matchLen ≤ maxMediumMatch) :
    (emitMediumDistanceWith .exactButLow l matchLen distance).run e = (emitMediumDistance l matchLen distance).run e := by
  have hd' : distance ≤ 0x3FFF := hd
  have hm' : matchLen ≤ 34 := hm
  simp only [emitMediumDistanceWith, Casts.wrapping, debugAssert_ok hd,
    debugAssert_ok (show minMatchLen ≤ matchLen ∧ matchLen ≤ maxMediumMatch from ⟨h3, hm⟩),
    sub_eq (show minMatchLen ≤ matchLen from h3), EStateM.run_bind, run_lift_ok,
    Casts.exact8_ok (show l.length < 2 ^ 8 by omega), Casts.exact16_ok (show distance < 2 ^ 16 by omega),
    Casts.exact8_ok (show matchLen - minMatchLen < 2 ^ 8 by omega)]

theorem emitLargeDistanceWith_exact (e : Encoder src) (hl : l.length ≤ 3) (hd : distance ≤ maxDistance)
    (h3 : 3 ≤ matchLen) (hm : matchLen ≤ 10 - l.length * 2) :
    (emitLargeDistanceWith .exactButLow l matchLen distance).run e = (emitLargeDistance l matchLen distance).run e := by
  have hd' : distance ≤ 0xFFFF := hd
  simp only [emitLargeDistanceWith, Casts.wrapping, maxShortMatch_ok hl,
    debugAssert_ok (show minMatchLen ≤ matchLen ∧ matchLen ≤ 10 - l.length * 2 from ⟨h3, hm⟩),
    sub_eq (show minMatchLen ≤ matchLen from h3), EStateM.run_bind, run_lift_ok,
    Casts.exact8_ok (show l.length < 2 ^ 8 by omega), Casts.exact16_ok (show distance < 2 ^ 16 by omega),
    Casts.exact8_ok (show matchLen - minMatchLen < 2 ^ 8 by omega)]

theorem emitPreviousDistanceWith_exact (e : Encoder src) (hl : l.length ≤ 3) (hd : e.previousDistance ≠ 0)
    (h3 : 3 ≤ matchLen) (hm : matchLen ≤ 10 - l.length * 2) :
    (emitPreviousDistanceWith .exactButLow l matchLen).run e = (emitPreviousDistance l matchLen).run e := by
  simp only [emitPreviousDistanceWith, Casts.wrapping, maxShortMatch_ok hl, debugAssert_ok hd,
    debugAssert_ok (show minMatchLen ≤ matchLen ∧ matchLen ≤ 10 - l.length * 2 from ⟨h3, hm⟩),
    sub_eq (show minMatchLen ≤ matchLen from h3), EStateM.run_bind, EStateM.run_get, run_lift_ok,
    Casts.exact8_ok (show l.length < 2 ^ 8 by omega), Casts.exact8_ok (show matchLen - minMatchLen < 2 ^ 8 by omega)]

theorem emitFirstWith_exact (e : Encoder src) (hl : l.length ≤ 3) (h3 : 3 ≤ matchLen) (hd : distance ≤ maxDistance) :
    (emitFirstWith .exactButLow l matchLen distance (10 - l.length * 2)).run e =
      (emitFirst l matchLen distance (10 - l.length * 2)).run e := by
  have hshort : 3 ≤ min matchLen (10 - l.length * 2) := by omega
  unfold emitFirst emitFirstWith
  split_ifs with hmedium hsmall
  · have hmin : 3 ≤ min matchLen maxMediumMatch := by unfold maxMediumMatch; omega
    simp only [EStateM.run_bind, emitMediumDistanceWith_exact e hl hmedium.1 hmin (min_le_right _ _)]
  · simp only [EStateM.run_bind, emitSmallDistanceWith_exact e hl hsmall hshort (min_le_right _ _)]
  · simp only [EStateM.run_bind, emitLargeDistanceWith_exact e hl hd hshort (min_le_right _ _)]

/-- **No cast loses a bit**, other than that of the low byte of a small distance. -/
theorem emitMatchWithLiteralsWith_exact (e : Encoder src) (literals : List UInt8) (h3 : 3 ≤ matchLen) (h1 : 1 ≤ distance)
    (hd : distance ≤ maxDistance) : (emitMatchWithLiteralsWith .exactButLow literals matchLen distance).run e =
      (emitMatchWithLiterals literals matchLen distance).run e := by
  set k := literals.length - maxInlineLiteral with hk
  have hk3 : (literals.drop k).length ≤ 3 := by rw [List.length_drop, hk, maxInlineLiteral]; omega
  have hhead : slice literals 0 k = .ok (literals.take k) := slice_eq (Nat.zero_le _) (Nat.sub_le _ _)
  have htail : slice literals k literals.length = .ok (literals.drop k) := by
    rw [slice_eq (Nat.sub_le _ _) le_rfl, List.take_of_length_le (by rw [List.length_drop])]
  obtain ⟨before, hbefore, -⟩ := emitLiterals_spec e (literals.take k)
  simp only [emitMatchWithLiteralsWith, ← hk, EStateM.run_bind, hhead, run_lift_ok,
    emitLiteralsWith_exact, hbefore, htail, maxShortMatch_ok hk3, EStateM.run_get]
  split_ifs with hsame hprev
  · exact emitMatchChunksWith_exact _ _
  · have hmin : 3 ≤ min matchLen (10 - (literals.drop k).length * 2) := by omega
    have hne : (e.append before).previousDistance ≠ 0 := by
      rw [← hprev]
      omega
    simp only [EStateM.run_bind, emitPreviousDistanceWith_exact _ hk3 hne hmin (min_le_right _ _),
      emitMatchChunksWith_exact]
  · simp only [EStateM.run_bind, emitFirstWith_exact _ hk3 h3 hd, emitMatchChunksWith_exact]

end Encoder

/-! ## Executing a list of instructions -/

namespace Decoder

/-- `d'` is `d` behind the instruction bytes `bytes`, which have appended `literals` and then `matchLen` bytes, each equal to
the one `distance` before it -/
structure OneStep (bytes literals : List UInt8) (matchLen distance : ℕ) (d d' : Decoder) : Prop where
  src : d'.src = d.src
  consumed : d'.input = d.input + bytes.length
  output : d'.output = d.output + literals.length + matchLen
  length : d'.dst.length = d.dst.length
  before : d'.dst.take d.output = d.dst.take d.output
  appended : (d'.dst.drop d.output).take literals.length = literals
  copied : ∀ i < matchLen,
    d'.dst[d.output + literals.length + i]? = d'.dst[d.output + literals.length + i - distance]?
  behind : d'.dst.drop d'.output = d.dst.drop d'.output
  previous : d'.previousDistance = distance

/-- a decoder in front of its output and the rest of its buffer -/
theorem eq_ofCursor (d : Decoder) (h : d.output ≤ d.dst.length) : d = ofCursor d.src (d.dst.drop d.output)
    ⟨d.input, d.src.drop d.input, ⟨d.dst.take d.output, d.previousDistance⟩⟩ := by
  obtain ⟨src, dst, input, output, previous⟩ := d
  simp only [ofCursor, List.take_append_drop, List.length_take, min_eq_left h]

theorem oneStep_ofCursor {src rest bytes tail literals : List UInt8} {c : Cursor} {matchLen distance : ℕ}
    (h1 : 1 ≤ distance) (hreach : distance ≤ c.win.out.length + literals.length)
    (hroom : literals.length + matchLen ≤ rest.length) :
    let out := copyBack (c.win.out ++ literals) distance matchLen
    OneStep bytes literals matchLen distance (ofCursor src rest c)
      (ofCursor src (rest.drop (out.length - c.win.out.length)) ⟨c.pos + bytes.length, tail, ⟨out, distance⟩⟩) := by
  intro out
  have hreach' : distance ≤ (c.win.out ++ literals).length := by rwa [List.length_append]
  have hlen : out.length = c.win.out.length + literals.length + matchLen := by
    rw [copyBack_length matchLen h1 hreach', List.length_append]
  obtain ⟨copied, hout⟩ : c.win.out ++ literals <+: out := le_copyBack _ _ _
  have hspec := copyBack_spec matchLen h1 hreach'
  rw [List.length_append] at hspec
  constructor
  · rfl
  · rfl
  · exact hlen
  · simp only [ofCursor_dst, List.length_append, List.length_drop]
    omega
  · simp only [ofCursor_dst, ofCursor_output, List.take_left, ← hout, List.append_assoc]
  · simp only [ofCursor_dst, ofCursor_output, ← hout, List.append_assoc, List.drop_left, List.take_left]
  · intro i hi
    simp only [ofCursor_dst, ofCursor_output]
    rw [List.getElem?_append_left (by omega), List.getElem?_append_left (by omega)]
    exact hspec i hi
  · simp only [ofCursor_dst, ofCursor_output, List.drop_left]
    rw [List.drop_append, List.drop_eq_nil_of_le (show c.win.out.length ≤ out.length by omega), List.nil_append]
  · rfl

end Decoder

open Encoder Decoder

/-- **One emission is one step.** The bytes that `emit_match_with_literals` appends, executed from any decoder state with the
encoder's previous distance, with room, and with a reach of `distance`, are consumed exactly, append the literals and the match,
and leave `distance` as the previous distance on both sides. No `debug_assert` fails, and no cast loses a bit other than one
of the low byte of a small distance. -/
theorem emission_is_one_step {src : List UInt8} (e : Encoder src) (literals : List UInt8) {matchLen distance : ℕ}
    (h3 : 3 ≤ matchLen) (h1 : 1 ≤ distance) (hd : distance ≤ 0xFFFF) :
    ∃ bytes, (emitMatchWithLiterals literals matchLen distance).run e =
        .ok () { e with output := e.output ++ bytes, previousDistance := distance } ∧
      (emitMatchWithLiteralsWith .exactButLow literals matchLen distance).run e =
        (emitMatchWithLiterals literals matchLen distance).run e ∧
      ∀ (d : Decoder) (tail : List UInt8), d.src.drop d.input = bytes ++ tail → d.previousDistance = e.previousDistance →
        d.output + literals.length + matchLen ≤ d.dst.length → distance ≤ d.output + literals.length →
        ∃ d', Relation.ReflTransGen Goes d d' ∧ OneStep bytes literals matchLen distance d d' := by
  obtain ⟨bytes, hrun, hcodes⟩ := emitMatchWithLiterals_spec e literals h3 h1 hd
  refine ⟨bytes, hrun, emitMatchWithLiteralsWith_exact e literals h3 h1 hd, ?_⟩
  intro d tail hsrc hprev hroom hreach
  have hle : d.output ≤ d.dst.length := by omega
  have hout : (d.dst.take d.output).length = d.output := by rw [List.length_take, min_eq_left hle]
  have hreach' : distance ≤ (d.dst.take d.output).length + literals.length := by rwa [hout]
  have hlen : (copyBack (d.dst.take d.output ++ literals) distance matchLen).length =
      d.output + literals.length + matchLen := by
    rw [copyBack_length matchLen h1 (by rwa [List.length_append]), List.length_append, hout]
  have hcode := hcodes ⟨d.dst.take d.output, d.previousDistance⟩ hprev hreach'
  rw [eq_ofCursor d hle]
  refine ⟨_, goes_codes hcode rfl hsrc ?_, oneStep_ofCursor h1 hreach' ?_⟩
  · dsimp only
    rw [hlen, hout, List.length_drop]
    omega
  · rw [List.length_drop]
    omega

/-- one literal, and three copies of it -/
theorem literal_and_copies : ∃ d', Relation.ReflTransGen Goes ⟨[0x40, 0x01, 0x61], [0, 0, 0, 0], 0, 0, 0⟩ d' ∧
    OneStep [0x40, 0x01, 0x61] [0x61] 3 1 ⟨[0x40, 0x01, 0x61], [0, 0, 0, 0], 0, 0, 0⟩ d' := by
  obtain ⟨bytes, hrun, -, hstep⟩ := emission_is_one_step (new []) [0x61] (show 3 ≤ 3 by decide) (show 1 ≤ 1 by decide)
    (by decide)
  have hemit : (emitMatchWithLiterals [0x61] 3 1).run (new []) =
      .ok () (((new []).append [0x40, 0x01, 0x61]).withDistance 1) := rfl
  rw [hemit] at hrun
  obtain rfl : [0x40, 0x01, 0x61] = bytes := congrArg Encoder.output (EStateM.Result.ok.inj hrun).2
  exact hstep ⟨[0x40, 0x01, 0x61], [0, 0, 0, 0], 0, 0, 0⟩ [] rfl rfl (by decide) (by decide)

/-- A distance of 256 in the small form has a low byte that loses a bit: exact casts panic, where the source goes on. -/
theorem small_distance_loses_bits : (emitMatchWithLiteralsWith .exact [] 3 256).run (new []) = .error .panic (new []) ∧
    (emitMatchWithLiterals [] 3 256).run (new []) = .ok () (((new []).append [0x01, 0x00]).withDistance 256) :=
  ⟨rfl, rfl⟩

end Lzvn.Raw
