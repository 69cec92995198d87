/-
The three one-shot decoders write into the caller's buffer, and matches read from it. What they return and write depends on
nothing that was in the buffer before.

- `Fills m w`: into every buffer that is long enough `m` writes `w` and nothing else; it finds every other too small.
- `fills_raw`, `fills_bvxn`, `fills_decmpfs`: a decoder that returns `Ok` once fills every buffer with the same bytes.
- `decoders_ignore_buffer`: the two-run statement, for all three decoders.
-/
import Lzvn.Apple.DecmpfsGrammar

namespace Lzvn.Apple

open Lzvn.Core
open Lzvn.Raw (IsStream Cursor scan)

/-! ## Filling a buffer -/

/-- `m` writes `w` at the front of every buffer that is long enough, and finds every other too small -/
def Fills (u : Usize) (m : Rust (List UInt8) ℕ) (w : List UInt8) : Prop := ∀ dst : Slice u,
  if w.length ≤ dst.bytes.length then m.run dst.bytes = .ok w.length (w ++ dst.bytes.drop w.length)
  else ∃ written capacity dst', m.run dst.bytes = .error (.err (.outputTooSmall written capacity)) dst'

/-- a run of `m` that returns `Ok(n)` into one buffer says what `m` does with every other: it writes the same `n` bytes and
leaves the rest as it was, or the buffer is too small -/
def IgnoresBuffer (u : Usize) (m : Rust (List UInt8) ℕ) : Prop :=
  ∀ (dst : Slice u) (n : ℕ) (after : List UInt8), m.run dst.bytes = .ok n after → ∀ other : Slice u,
    (n ≤ other.bytes.length → ∃ after', m.run other.bytes = .ok n after' ∧ after'.length = other.bytes.length ∧
      after'.take n = after.take n ∧ after'.drop n = other.bytes.drop n) ∧
    (other.bytes.length < n → ∃ written capacity after',
      m.run other.bytes = .error (.err (.outputTooSmall written capacity)) after')

/-- a decoder that fills buffers ignores what is in them -/
theorem ignoresBuffer {u : Usize} {m : Rust (List UInt8) ℕ}
    (h : ∀ (dst : Slice u) n after, m.run dst.bytes = .ok n after → ∃ w, Fills u m w) : IgnoresBuffer u m := by
  intro dst n after hrun other
  obtain ⟨w, hw⟩ := h dst n after hrun
  have hdst := hw dst
  have hother := hw other
  rw [hrun] at hdst
  split_ifs at hdst
  · cases hdst
    refine ⟨?_, ?_⟩
    · intro hle
      rw [if_pos hle] at hother
      refine ⟨_, hother, ?_, ?_, List.drop_left⟩
      · rw [List.length_append, List.length_drop]
        omega
      · rw [List.take_left, List.take_left]
    · intro hlt
      rwa [if_neg (not_le.2 hlt)] at hother
  · obtain ⟨_, _, _, hdst⟩ := hdst
    cases hdst

/-! ## The decoders -/

theorem fills_raw {src out : List UInt8} (h : IsStream src out) (u : Usize) : Fills u (Raw.decodeInto src) out := by
  intro dst
  split_ifs with hle
  · exact Raw.decodeInto_ok_iff.2 ⟨out, h, rfl, hle, rfl⟩
  · obtain ⟨⟨t, v⟩, hs⟩ : ∃ r, scan (Cursor.start src) = r := ⟨_, rfl⟩
    rw [Raw.isStream_iff_scan, hs] at h
    obtain ⟨rfl, -, rfl⟩ := h
    obtain ⟨dst', hd⟩ := Raw.decodeInto_run src dst.bytes hs
    have hroom : ¬ Raw.room t .eos ≤ dst.bytes.length := hle
    rw [if_neg hroom] at hd
    obtain ⟨written, capacity, hd⟩ := hd
    exact ⟨written, capacity, dst', hd⟩

theorem fills_bvxn {u : Usize} {b dst after : List UInt8} {n : ℕ} (h : (Bvxn.decodeInto u b).run dst = .ok n after) :
    ∃ w, Fills u (Bvxn.decodeInto u b) w := by
  obtain ⟨⟨header, payload⟩, s, hlift, hrest⟩ := run_bind_ok.1 h
  obtain ⟨hsplit, rfl⟩ := run_lift_eq_ok.1 hlift
  obtain ⟨written, t, hraw, hchecked⟩ := run_bind_ok.1 hrest
  obtain ⟨w, hstream, rfl, -, -⟩ := Raw.decodeInto_ok_iff.1 hraw
  split_ifs at hchecked with hsize
  · cases hchecked
  refine ⟨w, ?_⟩
  intro other
  have hother := fills_raw hstream u other
  simp only [Bvxn.decodeInto, EStateM.run_bind, hsplit, run_lift_ok]
  split_ifs at hother ⊢ with hle
  · simp only [hother, if_neg hsize]
    rfl
  · obtain ⟨written, capacity, dst', hother⟩ := hother
    exact ⟨written, capacity, dst', by rw [hother]⟩

theorem fills_decmpfs {u : Usize} {xattr : List UInt8} {fork : Option (List UInt8)} {dst : Slice u} {after : List UInt8}
    {n : ℕ} (h : (Decmpfs.decodeInto u xattr fork).run dst.bytes = .ok n after) :
    ∃ w, Fills u (Decmpfs.decodeInto u xattr fork) w := by
  obtain ⟨⟨header, payload⟩, s, hlift, hrest⟩ := run_bind_ok.1 h
  obtain ⟨hsplit, rfl⟩ := run_lift_eq_ok.1 hlift
  simp only [EStateM.run_bind, EStateM.run_get] at hrest
  by_cases hshort : dst.bytes.length < header.uncompressedSize
  · rw [if_pos hshort] at hrest
    cases hrest
  rw [if_neg hshort, EStateM.run_bind] at hrest
  have hyields (other : Slice u) (hle : header.uncompressedSize ≤ other.bytes.length) :=
    Decmpfs.decodeBody_yields payload fork (hle.trans_lt (other.length_le.trans_lt (Decmpfs.isizeMax_lt u))) hle
  -- the run says that something of the declared length is held, and what is held is what every run writes
  obtain ⟨w, hw, hholds⟩ : ∃ w, w.length = header.uncompressedSize ∧
      Decmpfs.Holds header.compressionType payload fork w := by
    have hy := hyields dst (not_lt.1 hshort)
    cases hr : (Decmpfs.decodeBody u header payload fork).run dst.bytes with
    | error e part => rw [hr] at hrest; cases hrest
    | ok written part =>
      rw [hr] at hrest hy
      dsimp only at hrest
      split_ifs at hrest with hsize
      · cases hrest
      rw [not_not] at hsize
      rw [Decmpfs.Yields, if_pos hsize] at hy
      obtain ⟨w, hw, hh, -⟩ := hy
      exact ⟨w, hw, hh⟩
  refine ⟨w, ?_⟩
  intro other
  by_cases hle : w.length ≤ other.bytes.length
  · rw [if_pos hle]
    have hlong : ¬ other.bytes.length < header.uncompressedSize := by omega
    have hy := hyields other (not_lt.1 hlong)
    simp only [Decmpfs.decodeInto, EStateM.run_bind, hsplit, run_lift_ok, EStateM.run_get]
    rw [if_neg hlong, EStateM.run_bind]
    cases hr : (Decmpfs.decodeBody u header payload fork).run other.bytes with
    | error e part => rw [hr] at hy; exact absurd hholds (hy.2 w hw)
    | ok written part =>
      rw [hr, Decmpfs.Yields] at hy
      dsimp only
      split_ifs at hy with hsize
      · obtain ⟨w', hw', hh', rfl⟩ := hy
        rw [if_neg (not_not.2 hsize), hsize, hholds.unique hh' (hw.trans hw'.symm), hw']
        rfl
      · exact absurd hholds (hy w hw)
  · rw [if_neg hle]
    refine ⟨0, other.bytes.length, other.bytes, ?_⟩
    simp only [Decmpfs.decodeInto, EStateM.run_bind, hsplit, run_lift_ok, EStateM.run_get]
    rw [if_pos (by omega)]
    rfl

/-- **Decoding ignores what is in the caller's buffer.** When one of the three decoders returns `Ok(n)` into one buffer, it
writes the same `n` bytes to every buffer of at least that length and leaves what is behind them as it was, and it returns
`OutputTooSmall` for every other buffer. -/
theorem decoders_ignore_buffer (u : Usize) (src : List UInt8) (fork : Option (List UInt8)) :
    IgnoresBuffer u (Raw.decodeInto src) ∧ IgnoresBuffer u (Bvxn.decodeInto u src) ∧
      IgnoresBuffer u (Decmpfs.decodeInto u src fork) := by
  refine ⟨?_, ?_, ?_⟩
  · refine ignoresBuffer ?_
    intro dst n after h
    obtain ⟨w, hw, -⟩ := Raw.decodeInto_ok_iff.1 h
    exact ⟨w, fills_raw hw u⟩
  · exact ignoresBuffer fun dst n after h => fills_bvxn h
  · exact ignoresBuffer fun dst n after h => fills_decmpfs h

end Lzvn.Apple
