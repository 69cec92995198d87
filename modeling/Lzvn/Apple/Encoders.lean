/-
The incremental encoders against the one-shot encoders.

- `encoders_agree`: `RawEncoder` and `BvxnEncoder` hand out what `encode` gives for all that was fed.
- `raw_streamed_round_trip`: what `RawEncoder` has handed out at `Finished` decodes to what was fed.
-/
import Lzvn.Apple.BvxnFraming

namespace Lzvn.Apple

open Lzvn.Core Lzvn.StreamEncoder
open Lzvn.Raw (RawEncoder)

/-- **The incremental encoders agree with the one-shot encoders**, whatever feeds and buffers come before `finish_input` and
whatever buffers come behind it. The raw encoder never fails. -/
theorem encoders_agree {pre : List Call} (hopen : .finishInput ∉ pre) (bufs : List (List UInt8)) :
    Agrees RawEncoder.machine (Raw.encode (fed pre)) pre bufs ∧ (∃ out, Raw.encode (fed pre) = .ok out) ∧
      Agrees BvxnEncoder.machine (Bvxn.encode (fed pre)) pre bufs := by
  obtain ⟨body, w, hencode, -, -⟩ := Raw.encode_spec (fed pre)
  exact ⟨agrees hopen bufs, ⟨_, hencode⟩, agrees hopen bufs⟩

/-- two feeds with a buffer in between, and buffers of three bytes -/
theorem hello_agrees :
    let pre : List Call := [.feed [0x68, 0x65], .produce [0, 0], .feed [0x6C, 0x6C, 0x6F]]
    let bufs : List (List UInt8) := [[], [0, 0, 0], [0, 0, 0]]
    Agrees RawEncoder.machine (Raw.encode (fed pre)) pre bufs ∧ (∃ out, Raw.encode (fed pre) = .ok out) ∧
      Agrees BvxnEncoder.machine (Bvxn.encode (fed pre)) pre bufs :=
  encoders_agree (by simp) _

/-- **Streamed round trip.** Once `Finished` is reported, what was handed out decodes to what was fed. -/
theorem raw_streamed_round_trip (u : Usize) {pre : List Call} (hopen : .finishInput ∉ pre) (bufs : List (List UInt8))
    {dst dst' : List UInt8} {s : RawEncoder} {p : StreamProgress} (hlen : (fed pre).length ≤ u.isizeMax)
    (hlast : RawEncoder.machine.step (RawEncoder.machine.run .new (calls pre bufs)) (.produce dst) = (s, .progress p dst'))
    (hfinished : p.status = .finished) :
    Raw.decode u (outputs (RawEncoder.machine.replies .new (calls pre (bufs ++ [dst])))) (fed pre).length =
      .ok (fed pre) := by
  obtain ⟨bytes, hencode, hdecode⟩ := Raw.raw_round_trip u ⟨fed pre, hlen⟩
  have hagrees : Agrees RawEncoder.machine (Raw.encode (fed pre)) pre bufs := agrees hopen bufs
  obtain ⟨s', p', dst'', hstep, -, hwhole, -⟩ := hagrees.ends bytes dst hencode
  rw [hlast] at hstep
  cases hstep
  rw [hwhole.1 hfinished]
  exact hdecode

end Lzvn.Apple
