/-
Buffers that hold exactly the output, after all input: neither incremental decoder ever reports `Finished`.
`RawDecoder::decode_into` asks whether the buffer is full before it looks at anything else, so a call that delivers the
last byte, or gets an empty buffer, answers `NeedOutput`; the EOS opcode is only looked at with room to spare.

- `raw_fills`, `bvxn_fills`: every buffer is filled and answered by `NeedOutput`, and the outputs are the whole meaning.
- `exact_fit_never_finishes`: so for every accepted stream and block, however it is fed.
-/
import Lzvn.Apple.BvxnRuns

namespace Lzvn.Apple

open Lzvn.Core
open Lzvn.Raw (RawDecoder Cursor IsStream scan)

theorem raw_fills {src out : List UInt8} (hs : IsStream src out) (chunks bufs : List (List UInt8))
    (hsrc : chunks.flatten = src) (hbufs : (bufs.map List.length).sum = out.length) :
    (∀ r ∈ RawDecoder.machine.replies (RawDecoder.machine.run .new (feedAll chunks)) (bufs.map .produce),
      ∃ n dst, r = .progress ⟨n, .needOutput⟩ dst) ∧
    outputs (RawDecoder.machine.replies (RawDecoder.machine.run .new (feedAll chunks)) (bufs.map .produce)) = out := by
  obtain ⟨heos, hpad, hout⟩ := Raw.isStream_iff_scan.1 hs
  refine fills_exactly (J := fun (s : RawDecoder) q => s.Tracks q ∧ s.finished = false ∧ s.history = [])
    (K := fun s h => s.Tracks src ∧ s.finished = false ∧ s.finishedInput = true ∧ s.history = h)
    ⟨RawDecoder.tracks_new, rfl, rfl⟩ ?_ (fun s h => ⟨RawDecoder.tracks_finishInput h.1, h.2.1, rfl, h.2.2⟩) ?_ ?_
    hsrc hbufs
  · intro s q input h
    rcases h with ⟨h, hf, hh⟩
    refine ⟨RawDecoder.tracks_feed h input, ?_⟩
    rw [RawDecoder.feed_running hf]
    exact ⟨hf, hh⟩
  · intro s h h
    rcases h with ⟨htracks, -, -, rfl⟩
    rw [← hout]
    exact htracks.history_le
  · intro s h dst h hle
    rcases h with ⟨htracks, hf, hlast, rfl⟩
    have hstep : RawDecoder.Outcome s src dst _ _ (answer RawDecoder.decodeInto s dst) :=
      RawDecoder.step_outcome htracks (t := (scan (Cursor.start src)).1) (v := (scan (Cursor.start src)).2) rfl dst
    generalize answer RawDecoder.decodeInto s dst = x at hstep
    cases hstep with
    | needOutput after input hist le written unfinished =>
      refine ⟨_, rfl, ?_, after, unfinished, input.trans hlast, hist⟩
      rw [hist, List.length_append, Nat.add_left_cancel_iff] at written
      exact written
    | needInput _ _ _ _ _ more => rw [hlast] at more; cases more
    | finished after input hist all _ _ room =>
      have := room hf
      rw [all, hout] at this
      omega
    | failed error => rw [heos, Raw.streamError, Raw.finishError_none.2 hpad] at error; cases error

theorem bvxn_fills {b v : List UInt8} (hb : Bvxn.IsBlock b v) (chunks bufs : List (List UInt8))
    (hfeed : chunks.flatten = b) (hbufs : (bufs.map List.length).sum = v.length) :
    (∀ r ∈ BvxnDecoder.machine.replies (BvxnDecoder.machine.run .new (feedAll chunks)) (bufs.map .produce),
      ∃ n dst, r = .progress ⟨n, .needOutput⟩ dst) ∧
    outputs (BvxnDecoder.machine.replies (BvxnDecoder.machine.run .new (feedAll chunks)) (bufs.map .produce)) = v := by
  obtain ⟨header, -, -, hs, -⟩ := Bvxn.isBlock_iff.1 hb
  obtain ⟨-, -, hout⟩ := Raw.isStream_iff_scan.1 hs
  have hwhole : Bvxn.IsBlock (b ++ []) v := by rwa [List.append_nil]
  refine fills_exactly (J := fun (s : BvxnDecoder) q => s.Tracks q ∧ s.finished = false ∧ s.raw.history = [])
    (K := fun s h => s.Tracks b ∧ s.finished = false ∧ s.finishedInput = true ∧ s.raw.history = h)
    ⟨BvxnDecoder.tracks_new, rfl, rfl⟩ ?_ (fun s h => ⟨BvxnDecoder.tracks_finishInput h.1, h.2.1, rfl, h.2.2⟩) ?_ ?_
    hfeed hbufs
  · intro s q input h
    rcases h with ⟨h, hf, hh⟩
    obtain ⟨hfeedf, hraw, -⟩ := BvxnDecoder.feed_keeps input s
    exact ⟨BvxnDecoder.tracks_feed h input, hfeedf.trans hf, by rw [hraw]; exact hh⟩
  · intro s h h
    rcases h with ⟨htracks, hf, -, rfl⟩
    rw [← hout]
    exact htracks.history_le hf
  · intro s h dst h hle
    rcases h with ⟨htracks, hf, hlast, rfl⟩
    have hstep : BvxnDecoder.Outcome s b dst (answer BvxnDecoder.decodeInto s dst) := BvxnDecoder.step_outcome htracks dst
    generalize answer BvxnDecoder.decodeInto s dst = x at hstep
    cases hstep with
    | needOutput after input hist written unfinished =>
      refine ⟨_, rfl, ?_, after, unfinished, input.trans hlast, hist⟩
      rw [hist, List.length_append, Nat.add_left_cancel_iff] at written
      exact written
    | needInput _ _ _ more => rw [hlast] at more; cases more
    | finished done input hist all room =>
      have := room hf
      rw [all [] v hwhole] at this
      omega
    | failed bad => exact absurd rfl (bad [] v hwhole).2

/-- **Buffers of exactly the decoded length never suffice.** After all of an accepted stream or block, in any chunks, and
the end of the input, buffers that hold exactly its contents receive all of it, and every call answers `NeedOutput`. -/
theorem exact_fit_never_finishes (u : Usize) (chunks bufs : List (List UInt8)) (out : List UInt8)
    (hbufs : (bufs.map List.length).sum = out.length) :
    (Raw.decode u chunks.flatten out.length = .ok out →
      (∀ r ∈ RawDecoder.machine.replies (RawDecoder.machine.run .new (feedAll chunks)) (bufs.map .produce),
        ∃ n dst, r = .progress ⟨n, .needOutput⟩ dst) ∧
      outputs (RawDecoder.machine.replies (RawDecoder.machine.run .new (feedAll chunks)) (bufs.map .produce)) = out) ∧
    (Bvxn.decode u chunks.flatten = .ok out →
      (∀ r ∈ BvxnDecoder.machine.replies (BvxnDecoder.machine.run .new (feedAll chunks)) (bufs.map .produce),
        ∃ n dst, r = .progress ⟨n, .needOutput⟩ dst) ∧
      outputs (BvxnDecoder.machine.replies (BvxnDecoder.machine.run .new (feedAll chunks)) (bufs.map .produce)) = out) :=
  ⟨fun h => raw_fills (Raw.decode_ok_iff.1 h).2.1 chunks bufs rfl hbufs,
    fun h => bvxn_fills (Bvxn.decode_ok_iff.1 h).1 chunks bufs rfl hbufs⟩

/-- a stream of one literal and a block of five, each into buffers of one and of five bytes -/
theorem exact_fit_literals :
    (∀ r ∈ RawDecoder.machine.replies (RawDecoder.machine.run .new (feedAll [[0xE1], [0x61, 0x06]])) [.produce [0]],
      ∃ n dst, r = .progress ⟨n, .needOutput⟩ dst) ∧
    ∀ r ∈ BvxnDecoder.machine.replies (BvxnDecoder.machine.run .new (feedAll [helloBlock]))
        [.produce [0, 0], .produce [0, 0, 0]],
      ∃ n dst, r = .progress ⟨n, .needOutput⟩ dst :=
  ⟨((exact_fit_never_finishes .bits64 [[0xE1], [0x61, 0x06]] [[0]] [0x61] rfl).1 (by decide +kernel)).1,
    ((exact_fit_never_finishes .bits64 [helloBlock] [[0, 0], [0, 0, 0]] hello rfl).2 (by decide +kernel)).1⟩

/-- The one literal is delivered and nothing is left to deliver, but the call asks for more output, and so does every later
call with the empty rest of the buffer. One-shot decoding into the same buffer returns `Ok`. -/
theorem exact_fit_needs_output :
    RawDecoder.machine.replies .new [.feed [0xE1, 0x61, 0x06], .finishInput, .produce [0], .produce []] =
      [.done, .done, .progress ⟨1, .needOutput⟩ [0x61], .progress ⟨0, .needOutput⟩ []] ∧
    (Raw.decodeInto [0xE1, 0x61, 0x06]).run [0] = .ok 1 [0x61] :=
  ⟨by decide +kernel, rfl⟩

end Lzvn.Apple
