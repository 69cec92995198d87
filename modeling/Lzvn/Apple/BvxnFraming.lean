/-
The framing of `bvxn` blocks: two lengths that must agree with the payload, and no bytes before or behind them.

- `encode_ok_iff`: what `encode` returns, and when.
- `IsBlock.eq_of_le`: no block begins with another one.
- `framing_exact`: `decode` inverts `encode`, accepts exactly the frames, and rejects what is cut off or added.
-/
import Lzvn.Apple.BvxnGrammar
import Lzvn.Raw.RoundTrip

namespace Lzvn.Apple.Bvxn

open Lzvn.Core
open Lzvn.Raw (IsStream)

/-- the header and the payload of a source, as long as `u32` can count both -/
theorem encode_ok_iff {src b : List UInt8} : encode src = .ok b ↔ ∃ p, Raw.encode src = .ok p ∧
    src.length ≤ u32Max ∧ p.length ≤ u32Max ∧ b = (BvxnHeader.mk src.length p.length).bytes ++ p := by
  obtain ⟨body, w, he, -, -⟩ := Raw.encode_spec src
  rw [encode, he]
  simp only [Except.ok.injEq, exists_eq_left', except_ok_bind]
  by_cases hsrc : u32Max < src.length
  · rw [if_pos hsrc]
    refine iff_of_false (fun h => by cases h) ?_
    intro h
    exact absurd h.1 (not_le.2 hsrc)
  · rw [if_neg hsrc]
    by_cases hp : u32Max < (body ++ Raw.eos).length
    · rw [if_pos hp]
      refine iff_of_false (fun h => by cases h) ?_
      intro h
      exact absurd h.2.1 (not_le.2 hp)
    · rw [if_neg hp]
      constructor
      · intro h
        cases h
        exact ⟨not_lt.1 hsrc, not_lt.1 hp, rfl⟩
      · intro h
        rcases h with ⟨-, -, rfl⟩
        rfl

/-- what is encoded is a block -/
theorem encode_isBlock {src b : List UInt8} (h : encode src = .ok b) : IsBlock b src := by
  obtain ⟨p, hp, hsrc, hlen, rfl⟩ := encode_ok_iff.1 h
  rw [u32Max] at hsrc hlen
  exact ⟨p, rfl, by omega, by omega, Raw.encode_isStream hp⟩

/-- a block that begins with a block is that block -/
theorem IsBlock.eq_of_le {a b v w : List UInt8} (ha : IsBlock a v) (hb : IsBlock b w) (h : a <+: b) : a = b := by
  obtain ⟨more, rfl⟩ := h
  obtain ⟨header, hp, hlen, -, -⟩ := isBlock_iff.1 ha
  obtain ⟨htotal, -, -⟩ := hb.front hp
  have hmore : more.length = 0 := by omega
  rw [List.eq_nil_of_length_eq_zero hmore, List.append_nil]

/-- 64 bits can count and allocate the lengths of every block -/
theorem decode_bits64_ok_iff {b v : List UInt8} : decode .bits64 b = .ok v ↔ IsBlock b v := by
  rw [decode_ok_iff, and_iff_left_iff_imp]
  intro h
  obtain ⟨p, rfl, hv, hp, -⟩ := h
  rw [List.length_append, length_bytes, headerLen]
  simp only [Usize.max, Usize.isizeMax, Usize.bits]
  omega

theorem decode_bits64_ne_panic (b : List UInt8) : decode .bits64 b ≠ .error .panic := by
  intro h
  obtain ⟨header, hp, hsize⟩ := decode_panic_iff.1 h
  obtain ⟨-, -, hraw, hpayload⟩ := parseHeader_ok_iff.1 hp
  simp only [headerLen, Usize.max, Usize.isizeMax, Usize.bits] at hsize
  omega

/-- what is no block is rejected -/
theorem decode_bits64_error {b : List UInt8} (h : ∀ v, ¬ IsBlock b v) : ∃ e, decode .bits64 b = .error (.err e) := by
  cases hd : decode .bits64 b with
  | ok v => exact absurd (decode_bits64_ok_iff.1 hd) (h v)
  | error e =>
    cases e with
    | panic => exact absurd hd (decode_bits64_ne_panic b)
    | err e => exact ⟨e, rfl⟩

/-- **Framing is exact and inverts encoding.** What `encode` returns decodes to its source. `decode` accepts exactly the
magic, the two lengths, and a payload of the one length that decodes to contents of the other. An accepted block without
its last bytes, or with bytes behind it, is rejected. -/
theorem framing_exact (b : List UInt8) :
    (∀ src, encode src = .ok b → decode .bits64 b = .ok src) ∧
    (∀ v, decode .bits64 b = .ok v ↔ ∃ p, b = leBytes 4 bvxnMagic ++ leBytes 4 v.length ++ leBytes 4 p.length ++ p ∧
      v.length ≤ u32Max ∧ p.length ≤ u32Max ∧ Raw.decode .bits64 p v.length = .ok v) ∧
    ∀ v, decode .bits64 b = .ok v → ∀ b', b' ≠ b → b' <+: b ∨ b <+: b' → ∃ e, decode .bits64 b' = .error (.err e) := by
  refine ⟨?_, ?_, ?_⟩
  · intro src h
    exact decode_bits64_ok_iff.2 (encode_isBlock h)
  · intro v
    rw [decode_bits64_ok_iff, IsBlock]
    refine exists_congr ?_
    intro p
    refine and_congr_right' ?_
    have hu32 (n : ℕ) : n < 256 ^ 4 ↔ n ≤ u32Max := by
      rw [u32Max]
      omega
    rw [hu32, hu32, Raw.decode_ok_iff]
    constructor
    · intro h
      rcases h with ⟨hv, hp, hs⟩
      refine ⟨hv, hp, ?_, hs, rfl⟩
      rw [u32Max] at hv
      simp only [Usize.isizeMax, Usize.bits]
      omega
    · intro h
      rcases h with ⟨hv, hp, -, hs, -⟩
      exact ⟨hv, hp, hs⟩
  · intro v hv b' hne hcut
    have hblock : IsBlock b v := decode_bits64_ok_iff.1 hv
    refine decode_bits64_error ?_
    intro w hw
    rcases hcut with hle | hle
    · exact hne (hw.eq_of_le hblock hle)
    · exact hne (hblock.eq_of_le hw hle).symm

/-- the block of the source's examples, whole and without its last byte -/
theorem hello_framed : encode hello = .ok helloBlock ∧ decode .bits64 helloBlock = .ok hello ∧
    ∃ e, decode .bits64 helloBlock.dropLast = .error (.err e) := by
  have he : encode hello = .ok helloBlock := by decide +kernel
  have hd := (framing_exact helloBlock).1 hello he
  exact ⟨he, hd, (framing_exact helloBlock).2.2 hello hd _ (by decide) (.inl (List.dropLast_prefix _))⟩

end Lzvn.Apple.Bvxn
