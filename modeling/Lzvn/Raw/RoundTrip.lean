/-
The encoder against the grammar, and the raw round trip.

Every function that emits has one lemma here: it appends instructions whose meaning is the step the encoder intends.
`Inv` says that the output so far is a list of instructions for the part of the source before `literal_start`, with the
encoder's own previous distance; a round of `finish` keeps it, since the match it emits repeats bytes of the source.

- `emitLiterals_spec`, `emitMatchChunks_spec`, `emitMatchWithLiterals_spec`, `emitMatch_spec`: what is emitted.
- `round_inv`: a round never panics and keeps `Inv`.
- `encode_spec`: `encode` returns a list of instructions for its input, and the end marker.
- `raw_round_trip`: `decode` gives the input back.
-/
import Lzvn.Raw.DecodeGrammar
import Lzvn.Raw.Encode

namespace Lzvn.Raw

open Lzvn.Core Lzvn.Core.Lz77

namespace Encoder

variable {src : List UInt8}

/-! ## Opcodes -/

/-- the opcode with `k` inline literals, match code `c` and low bits `h` -/
def shortOpcode (k c h : ℕ) : UInt8 := (UInt8.ofNat k <<< 6) ||| (UInt8.ofNat c <<< 3) ||| UInt8.ofNat h

theorem shortOpcode_fields : ∀ k < 4, ∀ c < 8, ∀ h < 8, (shortOpcode k c h).toNat / 64 = k ∧
    (shortOpcode k c h).toNat / 8 % 8 = c ∧ (shortOpcode k c h).toNat % 8 = h := by
  decide +kernel

/-- the kinds of the opcodes that the three short emitters write -/
theorem shortOpcode_kind : ∀ k < 4, ∀ c < 8 - 2 * k,
    (∀ h < 6, classify (shortOpcode k c h) = some .smallDistance) ∧
    classify (shortOpcode k c 7) = some .largeDistance ∧
    (0 < k → classify (shortOpcode k c 6) = some .previousDistance) := by
  decide +kernel

/-- the opcode with `k` inline literals and match code `c` of the medium distance -/
def mediumOpcode (k c : ℕ) : UInt8 := (0xA0 : UInt8) ||| (UInt8.ofNat k <<< 3) ||| (UInt8.ofNat c >>> 2)

theorem mediumOpcode_fields : ∀ k < 4, ∀ c < 32, classify (mediumOpcode k c) = some .mediumDistance ∧
    (mediumOpcode k c).toNat / 8 % 4 = k ∧ (mediumOpcode k c).toNat % 8 = c / 4 := by
  decide +kernel

/-- the field of the medium distance -/
theorem medium_packed {distance c : ℕ} (hd : distance ≤ maxMediumDistance) (hc : c < 32) :
    ((UInt16.ofNat distance <<< 2) ||| ((UInt8.ofNat c).toUInt16 &&& 0x03)).toNat = distance * 4 + c % 4 := by
  unfold maxMediumDistance at hd
  have h1 : (UInt16.ofNat distance <<< 2).toNat = distance <<< 2 := by
    have hshift : (2 : UInt16).toNat % 16 = 2 := rfl
    rw [UInt16.toNat_shiftLeft, UInt16.toNat_ofNat', hshift, Nat.mod_eq_of_lt (show distance < 2 ^ 16 by omega),
      Nat.shiftLeft_eq]
    omega
  have h2 : ((UInt8.ofNat c).toUInt16 &&& 0x03).toNat = c % 4 := by
    rw [UInt16.toNat_and, UInt8.toNat_toUInt16, UInt8.toNat_ofNat', Nat.mod_eq_of_lt (by omega)]
    exact Nat.and_two_pow_sub_one_eq_mod c 2
  rw [UInt16.toNat_or, h1, h2]
  exact shl_or (k := 2) (Nat.mod_lt _ (by decide))

/-- the two bytes of a `u16` -/
theorem field_bytes (x : UInt16) : x.toUInt8.toNat = x.toNat % 256 ∧ (x >>> 8).toUInt8.toNat = x.toNat / 256 := by
  have hx := x.toNat_lt
  refine ⟨UInt16.toNat_toUInt8 x, ?_⟩
  have hshift : (8 : UInt16).toNat % 16 = 8 := rfl
  rw [UInt16.toNat_toUInt8, UInt16.toNat_shiftRight, hshift, Nat.shiftRight_eq_div_pow]
  omega

/-! ## Single instructions -/

/-- the encoder with `bytes` appended to its output -/
def append (e : Encoder src) (bytes : List UInt8) : Encoder src := { e with output := e.output ++ bytes }

@[simp] theorem append_output (e : Encoder src) (bytes : List UInt8) : (e.append bytes).output = e.output ++ bytes := rfl
@[simp] theorem append_literalStart (e : Encoder src) (bytes : List UInt8) :
    (e.append bytes).literalStart = e.literalStart := rfl
@[simp] theorem append_position (e : Encoder src) (bytes : List UInt8) : (e.append bytes).position = e.position := rfl
@[simp] theorem append_previousDistance (e : Encoder src) (bytes : List UInt8) :
    (e.append bytes).previousDistance = e.previousDistance := rfl
@[simp] theorem append_append (e : Encoder src) (a b : List UInt8) : (e.append a).append b = e.append (a ++ b) := by
  simp [append]

/-- the encoder with another previous distance -/
def withDistance (e : Encoder src) (distance : ℕ) : Encoder src := { e with previousDistance := distance }

theorem run_setDistance (e : Encoder src) (distance : ℕ) :
    EStateM.run (modify fun e : Encoder src => { e with previousDistance := distance } : Rust (Encoder src) Unit) e =
      .ok () (e.withDistance distance) := rfl

@[simp] theorem run_extend (e : Encoder src) (bytes : List UInt8) :
    (extend bytes).run e = .ok () (e.append bytes) := rfl

theorem maxShortMatch_ok {k : ℕ} (hk : k ≤ 3) : maxShortMatch k = .ok (10 - k * 2) := sub_eq (by omega)

theorem debugAssert_ok {c : Prop} [Decidable c] (h : c) : debugAssert c = .ok () := if_pos h

theorem emitSmallDistance_spec (e : Encoder src) {l : List UInt8} {matchLen distance : ℕ} (hl : l.length ≤ 3)
    (hd : distance < maxShortDistance) (h3 : 3 ≤ matchLen) (hm : matchLen ≤ 10 - l.length * 2) :
    ∃ bytes, (emitSmallDistance l matchLen distance).run e = .ok () (e.append bytes) ∧
      Encodes bytes ⟨l, some (matchLen, .explicit distance)⟩ := by
  have hd' : distance < 0x600 := hd
  have hhi : distance >>> 8 = distance / 256 := Nat.shiftRight_eq_div_pow distance 8
  obtain ⟨h64, h8, hlow⟩ := shortOpcode_fields l.length (by omega) (matchLen - 3) (by omega) (distance / 256) (by omega)
  obtain ⟨hkind, -, -⟩ := shortOpcode_kind l.length (by omega) (matchLen - 3) (by omega)
  refine ⟨shortOpcode l.length (matchLen - 3) (distance / 256) :: [UInt8.ofNat distance] ++ l, ?_, _, _, _, rfl,
    hkind (distance / 256) (by omega), by decide, rfl, ?_⟩
  · simp only [emitSmallDistanceWith, Casts.wrapping, maxShortMatch_ok hl, debugAssert_ok hd,
      debugAssert_ok (show minMatchLen ≤ matchLen ∧ matchLen ≤ 10 - l.length * 2 from ⟨h3, hm⟩),
      sub_eq (show minMatchLen ≤ matchLen from h3), EStateM.run_bind, run_lift_ok, run_extend, hhi]
    rfl
  · simp [announces, fields, byteOr0, h64, h8, hlow]
    omega

theorem emitLargeDistance_spec (e : Encoder src) {l : List UInt8} {matchLen distance : ℕ} (hl : l.length ≤ 3)
    (hd : distance ≤ maxDistance) (h3 : 3 ≤ matchLen) (hm : matchLen ≤ 10 - l.length * 2) :
    ∃ bytes, (emitLargeDistance l matchLen distance).run e = .ok () (e.append bytes) ∧
      Encodes bytes ⟨l, some (matchLen, .explicit distance)⟩ := by
  have hd' : distance ≤ 0xFFFF := hd
  obtain ⟨h64, h8, -⟩ := shortOpcode_fields l.length (by omega) (matchLen - 3) (by omega) 7 (by decide)
  obtain ⟨-, hkind, -⟩ := shortOpcode_kind l.length (by omega) (matchLen - 3) (by omega)
  obtain ⟨hlow, hhigh⟩ := field_bytes (UInt16.ofNat distance)
  refine ⟨shortOpcode l.length (matchLen - 3) 7 :: [(UInt16.ofNat distance).toUInt8,
    (UInt16.ofNat distance >>> 8).toUInt8] ++ l, ?_, _, _, _, rfl, hkind, by decide, rfl, ?_⟩
  · simp only [emitLargeDistanceWith, Casts.wrapping, maxShortMatch_ok hl,
      debugAssert_ok (show minMatchLen ≤ matchLen ∧ matchLen ≤ 10 - l.length * 2 from ⟨h3, hm⟩),
      sub_eq (show minMatchLen ≤ matchLen from h3), EStateM.run_bind, run_lift_ok, run_extend]
    rfl
  · rw [UInt16.toNat_ofNat', Nat.mod_eq_of_lt (show distance < 2 ^ 16 by omega)] at hlow hhigh
    simp only [announces, fields, byteOr0, List.getElem?_cons_zero, List.getElem?_cons_succ, Option.getD_some, h64, h8,
      hlow, hhigh, Prod.mk.injEq, Option.some.injEq, Reach.explicit.injEq, true_and]
    omega

theorem emitPreviousDistance_spec (e : Encoder src) {l : List UInt8} {matchLen : ℕ} (hpos : 0 < l.length)
    (hl : l.length ≤ 3) (hd : e.previousDistance ≠ 0) (h3 : 3 ≤ matchLen) (hm : matchLen ≤ 10 - l.length * 2) :
    ∃ bytes, (emitPreviousDistance l matchLen).run e = .ok () (e.append bytes) ∧
      Encodes bytes ⟨l, some (matchLen, .last)⟩ := by
  obtain ⟨h64, h8, -⟩ := shortOpcode_fields l.length (by omega) (matchLen - 3) (by omega) 6 (by decide)
  obtain ⟨-, -, hkind⟩ := shortOpcode_kind l.length (by omega) (matchLen - 3) (by omega)
  refine ⟨shortOpcode l.length (matchLen - 3) 6 :: [] ++ l, ?_, _, _, _, rfl, hkind hpos, by decide, rfl, ?_⟩
  · simp only [emitPreviousDistanceWith, Casts.wrapping, maxShortMatch_ok hl, debugAssert_ok hd,
      debugAssert_ok (show minMatchLen ≤ matchLen ∧ matchLen ≤ 10 - l.length * 2 from ⟨h3, hm⟩),
      sub_eq (show minMatchLen ≤ matchLen from h3), EStateM.run_bind, EStateM.run_get, run_lift_ok, run_extend]
    rfl
  · simp [announces, fields, byteOr0, h64, h8]
    omega

theorem emitMediumDistance_spec (e : Encoder src) {l : List UInt8} {matchLen distance : ℕ} (hl : l.length ≤ 3)
    (hd : distance ≤ maxMediumDistance) (h3 : 3 ≤ matchLen) (hm : matchLen ≤ maxMediumMatch) :
    ∃ bytes, (emitMediumDistance l matchLen distance).run e = .ok () (e.append bytes) ∧
      Encodes bytes ⟨l, some (matchLen, .explicit distance)⟩ := by
  have hm' : matchLen ≤ 34 := hm
  obtain ⟨hkind, hk, hc⟩ := mediumOpcode_fields l.length (by omega) (matchLen - 3) (by omega)
  set packed := (UInt16.ofNat distance <<< 2) ||| ((UInt8.ofNat (matchLen - 3)).toUInt16 &&& 0x03) with hp
  have hpacked : packed.toNat = distance * 4 + (matchLen - 3) % 4 := medium_packed hd (by omega)
  obtain ⟨hlow, hhigh⟩ := field_bytes packed
  refine ⟨mediumOpcode l.length (matchLen - 3) :: [packed.toUInt8, (packed >>> 8).toUInt8] ++ l, ?_, _, _, _, rfl, hkind,
    by decide, rfl, ?_⟩
  · simp only [emitMediumDistanceWith, Casts.wrapping, debugAssert_ok hd,
      debugAssert_ok (show minMatchLen ≤ matchLen ∧ matchLen ≤ maxMediumMatch from ⟨h3, hm⟩),
      sub_eq (show minMatchLen ≤ matchLen from h3), EStateM.run_bind, run_lift_ok, run_extend]
    rfl
  · simp only [announces, fields, byteOr0, List.getElem?_cons_zero, List.getElem?_cons_succ, Option.getD_some, hk, hc,
      hlow, hhigh, hpacked, Prod.mk.injEq, Option.some.injEq, Reach.explicit.injEq, true_and]
    omega

/-! ## Chunks -/

theorem chunkLen_max (length : ℕ) : chunkLen length 271 ≤ 271 := by
  unfold chunkLen
  split_ifs <;> omega

theorem literalOpcode_fields : ∀ n < 16, 0 < n →
    classify (0xE0 ||| UInt8.ofNat n) = some .smallLiteral ∧ (0xE0 ||| UInt8.ofNat n).toNat % 16 = n := by
  decide +kernel

theorem matchOpcode_fields : ∀ n < 16, 0 < n →
    classify (0xF0 ||| UInt8.ofNat n) = some .smallMatch ∧ (0xF0 ||| UInt8.ofNat n).toNat % 16 = n := by
  decide +kernel

theorem literalHeader_spec {l : List UInt8} (hpos : 0 < l.length) (hmax : l.length ≤ 271) :
    ∃ header, chunkHeader 0xE0 l.length = .ok header ∧ Encodes (header ++ l) ⟨l, none⟩ := by
  unfold chunkHeader chunkHeaderWith
  by_cases h : l.length ≤ 15
  · obtain ⟨hkind, hlow⟩ := literalOpcode_fields l.length (by omega) hpos
    refine ⟨_, if_pos h, _, [], _, rfl, hkind, by decide, rfl, ?_⟩
    simp only [announces, fields, byteOr0, List.getElem?_cons_zero, Option.getD_some, hlow]
  · rw [if_neg h, sub_eq (by omega)]
    refine ⟨_, rfl, 0xE0, [UInt8.ofNat (l.length - 16)], .largeLiteral, rfl, by decide, by decide, rfl, ?_⟩
    simp [announces, fields, byteOr0]
    omega

theorem matchHeader_spec {n : ℕ} (hpos : 0 < n) (hmax : n ≤ 271) :
    ∃ header, chunkHeader 0xF0 n = .ok header ∧ Encodes header ⟨[], some (n, .last)⟩ := by
  unfold chunkHeader chunkHeaderWith
  by_cases h : n ≤ 15
  · obtain ⟨hkind, hlow⟩ := matchOpcode_fields n (by omega) hpos
    refine ⟨_, if_pos h, _, [], _, by simp, hkind, by decide, rfl, ?_⟩
    simp only [announces, fields, byteOr0, List.getElem?_cons_zero, Option.getD_some, hlow, List.length_nil]
  · rw [if_neg h, sub_eq (by omega)]
    refine ⟨_, rfl, 0xF0, [UInt8.ofNat (n - 16)], .largeMatch, by simp, by decide, by decide, rfl, ?_⟩
    simp [announces, fields, byteOr0]
    omega

/-- a round of `emit_literals` writes one chunk -/
theorem run_literalsRound (output l : List UInt8) : l = [] ∧ literalsRound.run (output, l) = .ok (some ()) (output, l) ∨
    ∃ chunk, literalsRound.run (output, l) = .ok none (output ++ chunk, l.drop (chunkLen l.length maxLiteralLen)) ∧
      Encodes chunk ⟨l.take (chunkLen l.length maxLiteralLen), none⟩ := by
  cases l with
  | nil => exact .inl ⟨rfl, rfl⟩
  | cons b tail =>
    right
    set l := b :: tail with hl
    set n := chunkLen l.length maxLiteralLen with hn
    have hle : n ≤ l.length := chunkLen_le ..
    have hpos : 0 < n := chunkLen_pos (by simp [hl]) (by decide)
    have hlen : (l.take n).length = n := by rw [List.length_take]; omega
    obtain ⟨header, hh, henc⟩ := literalHeader_spec (l := l.take n) (by omega) (by rw [hlen]; exact chunkLen_max _)
    rw [hlen] at hh
    refine ⟨_, ?_, henc⟩
    have hne : l.isEmpty = false := rfl
    simp only [literalsRoundWith, EStateM.run_bind, EStateM.run_get, hne, Bool.false_eq_true, ite_false, ← hn, hh,
      run_lift_ok, slice_eq (Nat.zero_le n) hle, slice_eq hle le_rfl, EStateM.run_set, EStateM.run_pure,
      List.drop_zero, Nat.sub_zero, List.append_assoc]
    rw [List.take_of_length_le (List.length_drop ..).le]

/-- `emit_literals` appends its literals -/
theorem emitLiterals_spec (e : Encoder src) (literals : List UInt8) :
    ∃ bytes, (emitLiterals literals).run e = .ok () (e.append bytes) ∧
      ∀ w, Codes bytes w ⟨w.out ++ literals, w.last⟩ := by
  have hloop : ∃ bytes rest, literalsLoop.run (e.output, literals) = .ok () (e.output ++ bytes, rest) ∧
      ∀ w, Codes bytes w ⟨w.out ++ literals, w.last⟩ := by
    refine Loop.ofMonadic_rule literalsRound _ literalsRound_falls
      (fun s r => ∃ bytes rest, r = .ok () (s.1 ++ bytes, rest) ∧ ∀ w, Codes bytes w ⟨w.out ++ s.2, w.last⟩)
      (fun s a s' h => ?_) (fun s e s' h => ?_) (fun s s' r h ih => ?_) (e.output, literals)
    all_goals rcases run_literalsRound s.1 s.2 with ⟨hnil, hrun⟩ | ⟨chunk, hrun, henc⟩ <;> rw [hrun] at h <;> cases h
    · exact ⟨[], s.2, by simp, fun w => by simpa [hnil] using Codes.refl w⟩
    · obtain ⟨bytes, rest, rfl, hcodes⟩ := ih
      refine ⟨chunk ++ bytes, rest, by simp, ?_⟩
      intro w
      have hfirst := Codes.single henc (apply_literals w _)
      simpa using hfirst.trans (hcodes _)
  obtain ⟨bytes, rest, hrun, hcodes⟩ := hloop
  refine ⟨bytes, ?_, hcodes⟩
  simp only [emitLiteralsWith, EStateM.run_bind, EStateM.run_get, hrun]
  rfl

/-- a round of `emit_match_chunks` writes one chunk -/
theorem run_chunksRound (output : List UInt8) (n : ℕ) : n = 0 ∧ chunksRound.run (output, n) = .ok (some ()) (output, n) ∨
    ∃ chunk, chunksRound.run (output, n) = .ok none (output ++ chunk, n - chunkLen n maxMatchLen) ∧
      Encodes chunk ⟨[], some (chunkLen n maxMatchLen, .last)⟩ := by
  by_cases hpos : 0 < n
  · right
    obtain ⟨header, hh, henc⟩ := matchHeader_spec (chunkLen_pos hpos (show 0 < maxMatchLen by decide)) (chunkLen_max n)
    refine ⟨header, ?_, henc⟩
    simp only [chunksRoundWith, EStateM.run_bind, EStateM.run_get, hpos, gt_iff_lt, ite_true, hh, run_lift_ok,
      sub_eq (chunkLen_le n maxMatchLen), EStateM.run_set, EStateM.run_pure]
  · exact .inl ⟨by omega, by simp [chunksRoundWith, hpos]⟩

/-- `emit_match_chunks` copies from the last distance -/
theorem emitMatchChunks_spec (e : Encoder src) (matchLen : ℕ) :
    ∃ bytes, (emitMatchChunks matchLen).run e = .ok () (e.append bytes) ∧ ∀ w : Window UInt8, 1 ≤ w.last →
      w.last ≤ w.out.length → Codes bytes w ⟨copyBack w.out w.last matchLen, w.last⟩ := by
  have hloop : ∃ bytes rest, chunksLoop.run (e.output, matchLen) = .ok () (e.output ++ bytes, rest) ∧
      ∀ w : Window UInt8, 1 ≤ w.last → w.last ≤ w.out.length → Codes bytes w ⟨copyBack w.out w.last matchLen, w.last⟩ := by
    refine Loop.ofMonadic_rule chunksRound _ chunksRound_falls
      (fun s r => ∃ bytes rest, r = .ok () (s.1 ++ bytes, rest) ∧ ∀ w : Window UInt8, 1 ≤ w.last →
        w.last ≤ w.out.length → Codes bytes w ⟨copyBack w.out w.last s.2, w.last⟩)
      (fun s a s' h => ?_) (fun s e s' h => ?_) (fun s s' r h ih => ?_) (e.output, matchLen)
    all_goals rcases run_chunksRound s.1 s.2 with ⟨hzero, hrun⟩ | ⟨chunk, hrun, henc⟩ <;> rw [hrun] at h <;> cases h
    · exact ⟨[], s.2, by simp, fun w _ _ => by simpa [hzero, copyBack] using Codes.refl w⟩
    · obtain ⟨bytes, rest, rfl, hcodes⟩ := ih
      refine ⟨chunk ++ bytes, rest, by simp, ?_⟩
      intro w h1 h2
      have hle := chunkLen_le s.2 maxMatchLen
      have hfirst := Codes.single henc (apply_copy (l := []) (r := .last) h1 (by simpa [Reach.resolve] using h2))
      have hlast : (Reach.last).resolve w.last = w.last := rfl
      rw [List.append_nil, hlast] at hfirst
      have hlen : (copyBack w.out w.last (chunkLen s.2 maxMatchLen)).length = w.out.length + chunkLen s.2 maxMatchLen :=
        copyBack_length _ h1 h2
      have hrest := hcodes ⟨copyBack w.out w.last (chunkLen s.2 maxMatchLen), w.last⟩ h1 (by dsimp only; omega)
      rw [copyBack_split hle h1 h2]
      exact hfirst.trans hrest
  obtain ⟨bytes, rest, hrun, hcodes⟩ := hloop
  refine ⟨bytes, ?_, hcodes⟩
  simp only [emitMatchChunksWith, EStateM.run_bind, EStateM.run_get, hrun]
  rfl

/-! ## A whole match -/

/-- an instruction that copies `n` bytes, and chunks that copy the rest -/
theorem codes_match {first chunks l : List UInt8} {n m d : ℕ} {r : Reach} {w : Window UInt8}
    (hr : r.resolve w.last = d) (h1 : 1 ≤ d) (h2 : d ≤ w.out.length + l.length) (hn : n ≤ m)
    (hfirst : Encodes first ⟨l, some (n, r)⟩) (hchunks : ∀ w : Window UInt8, 1 ≤ w.last → w.last ≤ w.out.length →
      Codes chunks w ⟨copyBack w.out w.last (m - n), w.last⟩) :
    Codes (first ++ chunks) w ⟨copyBack (w.out ++ l) d m, d⟩ := by
  subst hr
  have h2' : r.resolve w.last ≤ (w.out ++ l).length := by simpa using h2
  have hlen := copyBack_length n h1 h2'
  have hrest := hchunks ⟨copyBack (w.out ++ l) (r.resolve w.last) n, r.resolve w.last⟩ h1 (by dsimp only; omega)
  rw [copyBack_split hn h1 h2']
  exact (Codes.single hfirst (apply_copy h1 h2)).trans hrest

theorem emitFirst_spec (e : Encoder src) {l : List UInt8} {matchLen distance : ℕ} (hl : l.length ≤ 3)
    (h3 : 3 ≤ matchLen) (hd : distance ≤ maxDistance) :
    ∃ bytes n, (emitFirst l matchLen distance (10 - l.length * 2)).run e = .ok (matchLen - n) (e.append bytes) ∧
      n ≤ matchLen ∧ Encodes bytes ⟨l, some (n, .explicit distance)⟩ := by
  unfold emitFirst emitFirstWith
  split_ifs with hmedium hsmall
  · have hmin : 3 ≤ min matchLen maxMediumMatch := by unfold maxMediumMatch; omega
    obtain ⟨bytes, hrun, henc⟩ := emitMediumDistance_spec e hl hmedium.1 hmin (min_le_right _ _)
    refine ⟨bytes, _, ?_, min_le_left _ _, henc⟩
    rw [EStateM.run_bind, hrun, sub_eq (min_le_left _ _)]
    rfl
  · have hmin : 3 ≤ min matchLen (10 - l.length * 2) := by omega
    obtain ⟨bytes, hrun, henc⟩ := emitSmallDistance_spec e hl hsmall hmin (min_le_right _ _)
    refine ⟨bytes, _, ?_, min_le_left _ _, henc⟩
    rw [EStateM.run_bind, hrun, sub_eq (min_le_left _ _)]
    rfl
  · have hmin : 3 ≤ min matchLen (10 - l.length * 2) := by omega
    obtain ⟨bytes, hrun, henc⟩ := emitLargeDistance_spec e hl hd hmin (min_le_right _ _)
    refine ⟨bytes, _, ?_, min_le_left _ _, henc⟩
    rw [EStateM.run_bind, hrun, sub_eq (min_le_left _ _)]
    rfl

/-- **Emitting a match with its literals** appends a program for one step, from any window with the encoder's previous
distance, and leaves the step's distance as the previous one. No `debug_assert` fails. -/
theorem emitMatchWithLiterals_spec (e : Encoder src) (literals : List UInt8) {matchLen distance : ℕ} (h3 : 3 ≤ matchLen)
    (h1 : 1 ≤ distance) (hd : distance ≤ maxDistance) :
    ∃ bytes, (emitMatchWithLiterals literals matchLen distance).run e =
        .ok () ((e.append bytes).withDistance distance) ∧
      ∀ w : Window UInt8, w.last = e.previousDistance → distance ≤ w.out.length + literals.length →
        Codes bytes w ⟨copyBack (w.out ++ literals) distance matchLen, distance⟩ := by
  set k := literals.length - maxInlineLiteral with hk
  have hk3 : literals.length - k ≤ 3 := by rw [hk]; unfold maxInlineLiteral; omega
  set l := literals.drop k with hl
  have hlen : l.length = literals.length - k := by rw [hl, List.length_drop]
  have hsplit (w : Window UInt8) : w.out ++ literals = w.out ++ literals.take k ++ l := by
    rw [List.append_assoc, hl, List.take_append_drop]
  have hreach {w : Window UInt8} (h2 : distance ≤ w.out.length + literals.length) :
      distance ≤ (w.out ++ literals.take k).length + l.length := by
    rw [List.length_append, List.length_take, hlen]; omega
  obtain ⟨before, hbefore, hcodes⟩ := emitLiterals_spec e (literals.take k)
  have hhead : slice literals 0 k = .ok (literals.take k) := slice_eq (Nat.zero_le _) (Nat.sub_le _ _)
  have htail : slice literals k literals.length = .ok l := by
    rw [slice_eq (Nat.sub_le _ _) le_rfl, hl, List.take_of_length_le (by rw [List.length_drop])]
  simp only [emitMatchWithLiteralsWith, ← hk, EStateM.run_bind, hhead, run_lift_ok, hbefore, htail,
    maxShortMatch_ok (hlen ▸ hk3 : l.length ≤ 3), EStateM.run_get]
  split_ifs with hsame hprev
  · -- no inline literals: the chunks copy everything
    obtain ⟨chunks, hchunks, hcopy⟩ := emitMatchChunks_spec (e.append before) matchLen
    refine ⟨before ++ chunks, ?_, ?_⟩
    · have hd' : distance = e.previousDistance := hsame.1
      rw [hchunks, append_append, hd']
      rfl
    · intro w hw h2
      have hnil : l = [] := List.eq_nil_of_length_eq_zero hsame.2
      have hlast : w.last = distance := hw.trans hsame.1.symm
      have hrest := hcopy ⟨w.out ++ literals.take k, w.last⟩ (hlast.ge.trans' h1) (by
        have := hreach h2
        rwa [hnil, List.length_nil, Nat.add_zero, ← hlast] at this)
      rw [hsplit w, hnil, List.append_nil, ← hlast]
      exact (hcodes w).trans hrest
  · -- the last distance again, behind inline literals
    have hmin : 3 ≤ min matchLen (10 - l.length * 2) := by omega
    obtain ⟨first, hfirst, henc⟩ := emitPreviousDistance_spec (e.append before)
      (Nat.pos_of_ne_zero fun h => hsame ⟨hprev, h⟩) (by omega) (by rw [← hprev]; omega) hmin (min_le_right _ _)
    obtain ⟨chunks, hchunks, hcopy⟩ := emitMatchChunks_spec
      (((e.append before).append first).withDistance distance) (matchLen - min matchLen (10 - l.length * 2))
    refine ⟨before ++ (first ++ chunks), ?_, ?_⟩
    · simp only [EStateM.run_bind, hfirst, sub_eq (min_le_left matchLen (10 - l.length * 2)), run_lift_ok,
        run_setDistance, hchunks]
      simp [append, withDistance]
    · intro w hw h2
      rw [hsplit w]
      exact (hcodes w).trans
        (codes_match (r := .last) (hw.trans hprev.symm) h1 (hreach h2) (min_le_left _ _) henc hcopy)
  · -- an explicit distance
    obtain ⟨first, n, hfirst, hn, henc⟩ := emitFirst_spec (e.append before) (l := l) (by omega) h3 hd
    obtain ⟨chunks, hchunks, hcopy⟩ := emitMatchChunks_spec
      (((e.append before).append first).withDistance distance) (matchLen - n)
    refine ⟨before ++ (first ++ chunks), ?_, ?_⟩
    · simp only [EStateM.run_bind, hfirst, run_setDistance, hchunks]
      simp [append, withDistance]
    · intro w hw h2
      rw [hsplit w]
      exact (hcodes w).trans (codes_match (r := .explicit distance) rfl h1 (hreach h2) hn henc hcopy)

/-! ## The loop of `finish` -/

/-- the output so far is a program for the source before `literal_start` -/
structure Inv (e : Encoder src) : Prop where
  literalStart_le : e.literalStart ≤ e.position
  position_le : e.position ≤ src.length
  codes : Codes e.output Window.init ⟨src.take e.literalStart, e.previousDistance⟩

theorem inv_new : Inv (new src) := ⟨le_rfl, Nat.zero_le _, Codes.refl _⟩

/-- a match repeats bytes of the source, so copying it extends the source's prefix -/
theorem copyBack_match {p : ℕ} {m : Match} (hm : IsMatch src p m) :
    copyBack (src.take p) m.distance m.length = src.take (p + m.length) := by
  have hp : p ≤ src.length := le_trans (Nat.le_add_right _ _) hm.length_le
  have hlen : (src.take p).length = p := by rw [List.length_take]; omega
  have hreach : m.distance ≤ (src.take p).length := by rw [hlen]; exact hm.distance_le
  refine ((eq_copyBack_iff hm.distance_pos hreach).2 ⟨List.take_prefix_take_left (Nat.le_add_right _ _), ?_, ?_⟩).symm
  · rw [List.length_take, hlen]
    have := hm.length_le
    omega
  · intro i hi
    have hd := hm.distance_pos
    rw [hlen, List.getElem?_take_of_lt (by omega), List.getElem?_take_of_lt (by omega)]
    exact hm.same i hi

/-- emitting a match appends a program for the source up to the match's end -/
theorem emitMatch_spec {e : Encoder src} (h : Inv e) {m : Match} (hm : IsMatch src e.position m) :
    ∃ bytes, (emitMatch m).run e = .ok () ((e.append bytes).withDistance m.distance) ∧
      Codes (e.output ++ bytes) Window.init ⟨src.take (e.position + m.length), m.distance⟩ := by
  obtain ⟨bytes, hemit, hcodes⟩ := emitMatchWithLiterals_spec e
    ((src.drop e.literalStart).take (e.position - e.literalStart)) hm.length_min hm.distance_pos hm.distance_max
  refine ⟨bytes, ?_, ?_⟩
  · simp only [emitMatch, EStateM.run_bind, EStateM.run_get, slice_eq h.literalStart_le h.position_le, run_lift_ok]
    exact hemit
  · have htake : src.take e.literalStart ++ (src.drop e.literalStart).take (e.position - e.literalStart) =
        src.take e.position := by
      rw [← List.take_add, Nat.add_sub_cancel' h.literalStart_le]
    have hstep := hcodes ⟨src.take e.literalStart, e.previousDistance⟩ rfl (by
      have := hm.distance_le
      have := h.literalStart_le
      have := h.position_le
      simp only [List.length_take, List.length_drop]
      omega)
    rw [htake, copyBack_match hm] at hstep
    exact h.codes.trans hstep

/-- **A round of `finish`** never panics and keeps the invariant. -/
theorem round_inv {e : Encoder src} (h : Inv e) :
    (e.position < src.length → ∃ e', round.run e = .ok none e' ∧ Inv e') ∧
    (e.position = src.length → round.run e = .ok (some ()) e) := by
  constructor
  · intro hlt
    obtain ⟨r, hr, hmatch⟩ := findMatch_spec e e.position
    simp only [round, EStateM.run_bind, EStateM.run_get, hlt, ite_true, hr, run_lift_ok]
    cases r with
    | none =>
      simp only [EStateM.run_bind, run_insertPosition, EStateM.run_modify, EStateM.run_pure]
      exact ⟨_, rfl, le_trans h.literalStart_le (Nat.le_succ _), hlt, h.codes⟩
    | some m =>
      have hm := hmatch m rfl
      obtain ⟨bytes, hemit, hcodes⟩ := emitMatch_spec h hm
      simp only [EStateM.run_bind, hemit, run_insertPositions, EStateM.run_modify, EStateM.run_pure]
      exact ⟨_, rfl, le_rfl, hm.length_le, hcodes⟩
  · intro heq
    simp [round, heq]

theorem round_cases {e e' : Encoder src} {a : Option Unit} (hI : Inv e) (h : round.run e = .ok a e') :
    a = none ∧ Inv e' ∨ a = some () ∧ e' = e := by
  rcases Nat.lt_or_eq_of_le hI.position_le with hlt | heq
  · obtain ⟨e1, hgo, hI'⟩ := (round_inv hI).1 hlt
    rw [hgo] at h
    cases h
    exact .inl ⟨rfl, hI'⟩
  · rw [(round_inv hI).2 heq] at h
    cases h
    exact .inr ⟨rfl, rfl⟩

/-- what every round keeps holds at every head of the loop, beside `Inv` -/
theorem head_rule {I : Encoder src → Prop} (start : I (new src))
    (step : ∀ e e', Inv e → I e → round.run e = .ok none e' → I e') {e : Encoder src} (h : loop.Head (new src) e) :
    Inv e ∧ I e := by
  refine loop.head_inv (I := fun e => Inv e ∧ I e) ?_ h ⟨inv_new, start⟩
  intro e e' hI hbody
  have hround : round.run e = .ok none e' := Loop.flow_again.1 hbody
  rcases round_cases hI.1 hround with ⟨-, hI'⟩ | ⟨hsome, -⟩
  · exact ⟨hI', step e e' hI.1 hI.2 hround⟩
  · cases hsome

theorem head_keeps {e : Encoder src} (h : loop.Head (new src) e) : Inv e :=
  (head_rule (I := fun _ => True) trivial (fun _ _ _ _ _ => trivial) h).1

/-- the loop ends with a program for the source before the last literals -/
theorem run_runLoop (src : List UInt8) : ∃ e : Encoder src, runLoop.run (new src) = .ok () e ∧ loop.Head (new src) e := by
  obtain ⟨e, hhead, hleave⟩ := loop.run_head (new src)
  have hI := head_keeps hhead
  refine ⟨e, ?_, hhead⟩
  rcases Nat.lt_or_eq_of_le hI.position_le with hlt | heq
  · obtain ⟨e1, hgo, -⟩ := (round_inv hI).1 hlt
    have hagain : loop.body e = .again e1 := Loop.flow_again.2 hgo
    rw [hagain] at hleave
    cases hleave
  · have hend : loop.body e = .leave (.ok () e) := Loop.flow_leave_ok.2 ((round_inv hI).2 heq)
    rw [hend] at hleave
    exact (Flow.leave.inj hleave).symm

end Encoder

/-! ## The round trip -/

open Encoder in
/-- what `finish` returns behind its loop -/
theorem encode_eq {src bytes : List UInt8} {e : Encoder src} (hloop : runLoop.run (new src) = .ok () e) (hI : Inv e)
    (hemit : (emitLiterals (src.drop e.literalStart)).run e = .ok () (e.append bytes)) :
    encode src = .ok (e.output ++ bytes ++ eos) := by
  have hle := le_trans hI.literalStart_le hI.position_le
  have hslice : slice src e.literalStart src.length = .ok (src.drop e.literalStart) := by
    rw [slice_eq hle le_rfl, List.take_of_length_le (by rw [List.length_drop])]
  have hsource : (emitLiteralsFromSource e.literalStart src.length).run e = .ok () (e.append bytes) := by
    simp only [emitLiteralsFromSource, EStateM.run_bind, hslice, run_lift_ok]
    exact hemit
  have hfinish : finish.run (new src) = .ok (e.output ++ bytes ++ eos) ((e.append bytes).append eos) := by
    simp only [finish, EStateM.run_bind, hloop, EStateM.run_get, hsource, run_extend, EStateM.run_pure, append_output]
  rw [encode, hfinish]

open Encoder in
/-- **The encoder returns a program for its input**, and the end marker. -/
theorem encode_spec (src : List UInt8) :
    ∃ body w, encode src = .ok (body ++ eos) ∧ Codes body Window.init w ∧ w.out = src := by
  obtain ⟨e, hloop, hhead⟩ := run_runLoop src
  have hI := head_keeps hhead
  obtain ⟨bytes, hemit, hcodes⟩ := emitLiterals_spec e (src.drop e.literalStart)
  exact ⟨e.output ++ bytes, ⟨src.take e.literalStart ++ src.drop e.literalStart, e.previousDistance⟩,
    encode_eq hloop hI hemit, hI.codes.trans (hcodes _), List.take_append_drop _ _⟩

theorem encode_isStream {src bytes : List UInt8} (h : encode src = .ok bytes) : IsStream bytes src := by
  obtain ⟨body, w, he, ⟨steps, hp, hr⟩, hw⟩ := encode_spec src
  rw [h] at he
  cases he
  exact ⟨body, steps, 7, w, rfl, le_rfl, hp, hr, hw⟩

/-- **Raw round trip.** `encode` never panics, and `decode` gives its input back. -/
theorem raw_round_trip (u : Usize) (src : Slice u) :
    ∃ bytes, encode src.bytes = .ok bytes ∧ decode u bytes src.bytes.length = .ok src.bytes := by
  obtain ⟨body, w, he, -, -⟩ := encode_spec src.bytes
  exact ⟨_, he, decode_ok_iff.2 ⟨src.length_le, encode_isStream he, rfl⟩⟩

end Lzvn.Raw
