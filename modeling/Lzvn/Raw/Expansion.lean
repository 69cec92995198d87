/-
How much longer than its input an encoded stream can be.

Lengths are counted in sixteenths of a byte: a literal pays 17, one more than it takes, and sixteen of them pay for the
header of a literal run. Every match that the finder returns takes less than the bytes it repeats (`emitFirst_length`),
which pays for the header of the literals before it.

- `emitLiterals_length`, `emitMatchWithLiterals_length`: what is appended.
- `Paid`, `round_paid`: the output is paid for by the source before `literal_start`.
- `encode_length`: the length of an encoded stream.
-/
import Lzvn.Raw.RoundTrip

namespace Lzvn.Raw

open Lzvn.Core

namespace Encoder

variable {src : List UInt8} {e e' : Encoder src} {l : List UInt8} {matchLen distance : ℕ}

/-! ## Single instructions -/

theorem extend_length {bytes : List UInt8} (h : (extend bytes).run e = .ok () e') :
    e'.output.length = e.output.length + bytes.length := by
  rw [run_extend] at h
  cases h
  rw [append_output, List.length_append]

theorem emitSmallDistance_length (h : (emitSmallDistance l matchLen distance).run e = .ok () e') :
    e'.output.length = e.output.length + (2 + l.length) := by
  simp only [emitSmallDistanceWith, Casts.wrapping, run_ok_bind, run_bind_ok, run_lift_eq_ok] at h
  obtain ⟨_, _, ⟨-, rfl⟩, _, _, ⟨-, rfl⟩, _, _, ⟨-, rfl⟩, _, _, ⟨-, rfl⟩, h⟩ := h
  rw [extend_length h, List.length_append]
  rfl

theorem emitMediumDistance_length (h : (emitMediumDistance l matchLen distance).run e = .ok () e') :
    e'.output.length = e.output.length + (3 + l.length) := by
  simp only [emitMediumDistanceWith, Casts.wrapping, run_ok_bind, run_bind_ok, run_lift_eq_ok] at h
  obtain ⟨_, _, ⟨-, rfl⟩, _, _, ⟨-, rfl⟩, _, _, ⟨-, rfl⟩, h⟩ := h
  rw [extend_length h, List.length_append]
  rfl

theorem emitLargeDistance_length (h : (emitLargeDistance l matchLen distance).run e = .ok () e') :
    e'.output.length = e.output.length + (3 + l.length) := by
  simp only [emitLargeDistanceWith, Casts.wrapping, run_ok_bind, run_bind_ok, run_lift_eq_ok] at h
  obtain ⟨_, _, ⟨-, rfl⟩, _, _, ⟨-, rfl⟩, _, _, ⟨-, rfl⟩, h⟩ := h
  rw [extend_length h, List.length_append]
  rfl

theorem emitPreviousDistance_length (h : (emitPreviousDistance l matchLen).run e = .ok () e') :
    e'.output.length = e.output.length + (1 + l.length) := by
  simp only [emitPreviousDistanceWith, Casts.wrapping, run_ok_bind, run_bind_ok, run_lift_eq_ok] at h
  obtain ⟨_, _, hget, _, _, ⟨-, rfl⟩, _, _, ⟨-, rfl⟩, _, _, ⟨-, rfl⟩, _, _, ⟨-, rfl⟩, h⟩ := h
  cases hget
  rw [extend_length h, List.length_append]
  rfl

/-! ## Chunks -/

theorem chunkHeader_length {base : UInt8} {n : ℕ} {header : List UInt8} (h : chunkHeader base n = .ok header) :
    header.length = if n ≤ 15 then 1 else 2 := by
  unfold chunkHeader chunkHeaderWith at h
  by_cases hshort : n ≤ 15
  · rw [if_pos hshort] at h
    cases h
    rw [if_pos hshort]
    rfl
  · rw [if_neg hshort, sub_eq (by omega)] at h
    cases h
    rw [if_neg hshort]
    rfl

/-- what literals pay, in sixteenths: one more than they take, and a byte for the first header -/
def price (literals : List UInt8) : ℕ := 17 * literals.length + if literals = [] then 0 else 16

theorem price_nil : price [] = 0 := rfl

theorem price_le (literals : List UInt8) : price literals ≤ 17 * literals.length + 16 := by
  unfold price
  split_ifs <;> omega

/-- a round of `emit_literals` is paid for by its chunk -/
theorem literalsRound_paid {s s' : List UInt8 × List UInt8} {a : Option Unit} (h : literalsRound.run s = .ok a s') :
    16 * s'.1.length + price s'.2 ≤ 16 * s.1.length + price s.2 := by
  obtain ⟨output, literals⟩ := s
  simp only [literalsRoundWith, EStateM.run_bind, EStateM.run_get] at h
  split_ifs at h with hemp
  · cases h
    exact le_rfl
  · simp only [run_bind_ok, run_lift_eq_ok] at h
    obtain ⟨header, _, ⟨hheader, rfl⟩, chunk, _, ⟨hchunk, rfl⟩, rest, _, ⟨hrest, rfl⟩, _, _, h1, h2⟩ := h
    cases h1
    cases h2
    have hne : literals ≠ [] := by simpa using hemp
    set n := chunkLen literals.length maxLiteralLen with hn
    have hle : n ≤ literals.length := chunkLen_le ..
    rw [slice_eq (Nat.zero_le n) hle] at hchunk
    rw [slice_eq hle le_rfl] at hrest
    cases hchunk
    cases hrest
    have hsize : n = literals.length ∧ n ≤ 15 ∨ 16 ≤ n ∧ n ≤ literals.length ∧ (n < literals.length → n = 271) := by
      rw [hn, chunkLen, maxLiteralLen]
      split_ifs <;> omega
    have hheader := chunkHeader_length hheader
    dsimp only
    rw [List.take_of_length_le (List.length_drop ..).le]
    simp only [price, hne, if_false, List.length_append, List.length_take, List.length_drop, List.drop_zero,
      List.drop_eq_nil_iff, hheader]
    split_ifs <;> omega

theorem emitLiterals_length (h : (emitLiterals l).run e = .ok () e') :
    16 * e'.output.length ≤ 16 * e.output.length + price l := by
  simp only [emitLiteralsWith, EStateM.run_bind, EStateM.run_get] at h
  cases hrun : literalsLoop.run (e.output, l) with
  | ok a s' =>
    rw [hrun] at h
    cases h
    have hpaid := Loop.ofMonadic_le literalsRound _ literalsRound_falls (fun s => 16 * s.1.length + price s.2)
      (fun s a s' => literalsRound_paid) hrun
    exact le_trans (Nat.le_add_right _ _) hpaid
  | error err s' =>
    rw [hrun] at h
    cases h

/-- a round of `emit_match_chunks` takes no more than its chunk repeats -/
theorem chunksRound_paid {s s' : List UInt8 × ℕ} {a : Option Unit} (h : chunksRound.run s = .ok a s') :
    s'.1.length + s'.2 ≤ s.1.length + s.2 := by
  obtain ⟨output, left⟩ := s
  simp only [chunksRoundWith, EStateM.run_bind, EStateM.run_get] at h
  split_ifs at h with hpos
  · simp only [run_bind_ok, run_lift_eq_ok] at h
    obtain ⟨header, _, ⟨hheader, rfl⟩, rest, _, ⟨hrest, rfl⟩, _, _, h1, h2⟩ := h
    cases h1
    cases h2
    have hlow := chunkLen_pos hpos (show 0 < maxMatchLen by decide)
    have hle := chunkLen_le left maxMatchLen
    have hheader := chunkHeader_length hheader
    rw [sub_eq hle] at hrest
    cases hrest
    rw [List.length_append, hheader]
    dsimp only
    split_ifs <;> omega
  · cases h
    exact le_rfl

/-- `emit_match_chunks` takes no more than the bytes it repeats -/
theorem emitMatchChunks_length (h : (emitMatchChunks matchLen).run e = .ok () e') :
    e'.output.length ≤ e.output.length + matchLen := by
  simp only [emitMatchChunksWith, EStateM.run_bind, EStateM.run_get] at h
  cases hrun : chunksLoop.run (e.output, matchLen) with
  | ok a s' =>
    rw [hrun] at h
    cases h
    have hpaid := Loop.ofMonadic_le chunksRound _ chunksRound_falls (fun s => s.1.length + s.2)
      (fun s a s' => chunksRound_paid) hrun
    exact le_trans (Nat.le_add_right _ _) hpaid
  | error err s' =>
    rw [hrun] at h
    cases h

/-! ## A whole match -/

/-- the instruction with the distance takes less than it stands for -/
theorem emitFirst_length {left : ℕ} (hl : l.length ≤ 3) (h3 : 3 ≤ matchLen)
    (h4 : maxShortDistance ≤ distance → 4 ≤ matchLen)
    (h : (emitFirst l matchLen distance (10 - l.length * 2)).run e = .ok left e') :
    e'.output.length + left < e.output.length + l.length + matchLen := by
  unfold emitFirst emitFirstWith at h
  split_ifs at h with hmedium hsmall
  · simp only [run_bind_ok, run_lift_eq_ok, sub_eq (min_le_left _ _)] at h
    obtain ⟨_, e1, hemit, hleft, rfl⟩ := h
    cases hleft
    rw [emitMediumDistance_length hemit, maxMediumMatch]
    omega
  · simp only [run_bind_ok, run_lift_eq_ok, sub_eq (min_le_left _ _)] at h
    obtain ⟨_, e1, hemit, hleft, rfl⟩ := h
    cases hleft
    rw [emitSmallDistance_length hemit]
    omega
  · simp only [run_bind_ok, run_lift_eq_ok, sub_eq (min_le_left _ _)] at h
    obtain ⟨_, e1, hemit, hleft, rfl⟩ := h
    cases hleft
    have := h4 (not_lt.1 hsmall)
    rw [emitLargeDistance_length hemit]
    omega

/-- **A match with its literals** is paid for by the bytes it stands for. -/
theorem emitMatchWithLiterals_length {literals : List UInt8} (h3 : 3 ≤ matchLen)
    (h4 : distance ≠ e.previousDistance → maxShortDistance ≤ distance → 4 ≤ matchLen)
    (h : (emitMatchWithLiterals literals matchLen distance).run e = .ok () e') :
    16 * e'.output.length ≤ 16 * e.output.length + 17 * (literals.length + matchLen) := by
  set k := literals.length - maxInlineLiteral with hk
  have hk3 : literals.length - k ≤ 3 := by rw [hk, maxInlineLiteral]; omega
  have hlen : (literals.drop k).length = literals.length - k := List.length_drop ..
  have hfront : (literals.take k).length = k := by rw [List.length_take]; omega
  have hhead : slice literals 0 k = .ok (literals.take k) := slice_eq (Nat.zero_le _) (Nat.sub_le _ _)
  have htail : slice literals k literals.length = .ok (literals.drop k) := by
    rw [slice_eq (Nat.sub_le _ _) le_rfl, List.take_of_length_le (by rw [List.length_drop])]
  obtain ⟨before, hbefore, -⟩ := emitLiterals_spec e (literals.take k)
  have hpaid := emitLiterals_length hbefore
  simp only [emitMatchWithLiteralsWith, ← hk, EStateM.run_bind, hhead, run_lift_ok, hbefore, htail,
    maxShortMatch_ok (hlen ▸ hk3 : (literals.drop k).length ≤ 3), EStateM.run_get] at h
  have hprice := price_le (literals.take k)
  rw [hfront] at hprice
  split_ifs at h with hsame hprev
  · -- no inline literals, so no literals at all
    have hnone : literals = [] := by
      have hzero := hsame.2
      rw [hlen, hk, maxInlineLiteral] at hzero
      exact List.eq_nil_of_length_eq_zero (by omega)
    have hchunks := emitMatchChunks_length h
    rw [hnone, List.take_nil, price_nil] at hpaid
    omega
  · simp only [run_bind_ok, run_lift_eq_ok, sub_eq (min_le_left _ _), EStateM.run_modify] at h
    obtain ⟨_, e1, hemit, _, _, ⟨hleft, rfl⟩, _, _, hset, h⟩ := h
    cases hleft
    cases hset
    have hchunks := emitMatchChunks_length h
    rw [emitPreviousDistance_length hemit] at hchunks
    omega
  · simp only [run_bind_ok, EStateM.run_modify] at h
    obtain ⟨left, e1, hemit, _, _, hset, h⟩ := h
    cases hset
    have hchunks := emitMatchChunks_length h
    have hfirst := emitFirst_length (hlen ▸ hk3) h3 (h4 hprev) hemit
    dsimp only at hchunks
    omega

/-! ## The whole stream -/

theorem matchIsWorthwhile_length {m : Match} (h : e.matchIsWorthwhile m = true) :
    m.distance ≠ e.previousDistance → maxShortDistance ≤ m.distance → 4 ≤ m.length := by
  intro hprev hfar
  rw [matchIsWorthwhile, if_neg (by simp [hprev, hfar])] at h
  exact of_decide_eq_true h

/-- the output is paid for by the source before `literal_start` -/
def Paid (e : Encoder src) : Prop := 16 * e.output.length ≤ 17 * e.literalStart

/-- a round of `finish` pays for what it emits -/
theorem round_paid (hI : Inv e) (hpaid : Paid e) (h : round.run e = .ok none e') : Paid e' := by
  obtain ⟨-, ⟨-, e1, hinsert, rfl⟩ | ⟨m, e1, e2, hfind, hemit, hinsert, rfl⟩⟩ := round_goes h
  · rw [run_insertPosition] at hinsert
    cases hinsert
    exact hpaid
  · have hm := findMatch_isMatch hfind
    rw [run_insertPositions] at hinsert
    cases hinsert
    simp only [emitMatch, EStateM.run_bind, EStateM.run_get, slice_eq hI.literalStart_le hI.position_le,
      run_lift_ok] at hemit
    have hlen := emitMatchWithLiterals_length hm.length_min
      (matchIsWorthwhile_length (findMatch_worthwhile hfind)) hemit
    rw [List.length_take, List.length_drop] at hlen
    have hle := hI.literalStart_le
    unfold Paid at hpaid ⊢
    dsimp only
    omega

theorem head_paid (h : loop.Head (new src) e) : Inv e ∧ Paid e :=
  head_rule (Nat.zero_le _) (fun _ _ hI hpaid hround => round_paid hI hpaid hround) h

/-- the capacity that `Encoder::new` asks for -/
def capacity (src : List UInt8) : ℕ := src.length + src.length / 16 + eos.length

end Encoder

open Encoder in
/-- an encoded stream takes at most 17 sixteenths of its source, and nine bytes more -/
theorem encode_pays (src : List UInt8) : ∃ bytes, encode src = .ok bytes ∧ 16 * bytes.length ≤ 17 * src.length + 144 := by
  obtain ⟨e, hloop, hhead⟩ := run_runLoop src
  obtain ⟨hI, hpaid⟩ := head_paid hhead
  unfold Paid at hpaid
  obtain ⟨bytes, hemit, -⟩ := emitLiterals_spec e (src.drop e.literalStart)
  have hlast := (emitLiterals_length hemit).trans (Nat.add_le_add_left (price_le _) _)
  rw [append_output, List.length_append, List.length_drop] at hlast
  have hle := le_trans hI.literalStart_le hI.position_le
  refine ⟨_, encode_eq hloop hI hemit, ?_⟩
  rw [List.length_append, List.length_append, show eos.length = 8 from rfl]
  omega

open Encoder in
/-- **Bounded expansion.** An encoded stream is at most a sixteenth and nine bytes longer than its input, one byte more than
the encoder reserves. -/
theorem encode_length (src : List UInt8) : ∃ bytes, encode src = .ok bytes ∧
    bytes.length ≤ src.length + src.length / 16 + 9 ∧ bytes.length ≤ capacity src + 1 := by
  obtain ⟨bytes, hencode, hpaid⟩ := encode_pays src
  have hbound : bytes.length ≤ src.length + src.length / 16 + 9 := by omega
  exact ⟨bytes, hencode, hbound, hbound⟩

end Lzvn.Raw
