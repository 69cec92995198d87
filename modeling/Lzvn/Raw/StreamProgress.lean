/-
The incremental raw decoder makes progress, from every state with its offsets in range.

- `Answered`: what a call may answer. It asks for output when the buffer is full, and for input when there is room,
  nothing is pending and the unread input is a part of one instruction.
- `loop_terminates`: the loop of one call ends.
- `answer_answered`: every call answers so.
- `caller_ends`: a caller that does what the decoder asks for ends.
-/
import Lzvn.Raw.StreamRuns

namespace Lzvn.Raw

open Lzvn.Core Lzvn.Core.Lz77

namespace RawDecoder

/-! ## One call -/

/-- what a call with buffer `dst` answers, with the raw decoder and the end of the input as they are behind it -/
def Answered (raw : RawDecoder) (finishedInput : Bool) (dst : List UInt8) (r : Reply) : Prop :=
  match r with
  | .done => False
  | .failed e => e ≠ .panic
  | .progress p _ =>
    match p.status with
    | .needOutput => p.written = dst.length
    | .needInput => p.written < dst.length ∧ raw.pending.isEmpty ∧ finishedInput = false ∧ raw.unread.length ≤ 272 ∧
        ∃ more s, more ≠ [] ∧ Encodes (raw.unread ++ more) s
    | .finished => True

/-- The `loop` of `decode_into` ends: its rounds are at most three for every unread byte, and the pending work. -/
theorem loop_terminates (c : Locals) : (Loop.iterate (Loop.flow round) (measure c + 1) c).isSome :=
  loop.iterate_isSome _ c (Nat.lt_succ_self _)

/-- **Every call** makes progress: it fills the buffer, or uses up the input to a part of an instruction, or ends. -/
theorem answer_answered {s : RawDecoder} (hs : s.Ok) (dst : List UInt8) :
    Answered (answer decodeInto s dst).1 (answer decodeInto s dst).1.finishedInput dst (answer decodeInto s dst).2 := by
  by_cases htrail : s.trailingAfterFinish = 0
  · cases hfin : s.finished with
    | true =>
      rw [answer_finished htrail hfin]
      trivial
    | false =>
      obtain ⟨c, delta, hadv, hend⟩ := loop_ends (c := ⟨s, dst, 0⟩) hs (Nat.zero_le _)
      have hlen : c.dst.length = dst.length := hadv.length_dst
      rw [answer_running htrail hfin]
      generalize loop.run ⟨s, dst, 0⟩ = r at hend
      cases hend with
      | needOutput full => exact full.trans hlen
      | needInput room idle short more =>
        exact ⟨room.trans_eq hlen, idle, more, length_le_of_short short, fetch_short_iff.1 short⟩
      | truncated => simp [Answered]
      | invalidOpcode => simp [Answered]
      | badDistance => simp [Answered]
      | finished => trivial
      | trailing => simp [Answered]
  · rw [answer_trailing htrail]
    simp [Answered]

/-- what a call that asks for something has delivered -/
theorem answer_delivers {s s' : RawDecoder} (hs : s.Ok) {dst dst' : List UInt8} {p : StreamProgress}
    (h : answer decodeInto s dst = (s', .progress p dst')) (hasks : p.status ≠ .finished) :
    s.finished = false ∧ Continues s s' (dst'.take p.written) ∧
      (p.status = .needOutput → s'.history.length = s.history.length + dst.length) ∧
      (p.status = .needInput → s.finishedInput = false) := by
  have hstep : Produces s dst (answer decodeInto s dst) := step_produces hs dst
  rw [h] at hstep
  cases hstep with
  | finished => exact absurd rfl hasks
  | progress _ hf _ ha =>
    cases ha with
    | needOutput full _ after =>
      rw [List.take_left]
      refine ⟨hf, after, fun _ => ?_, fun hst => (by cases hst)⟩
      rw [after.history, List.length_append, full]
    | needInput _ _ after _ _ more =>
      rw [List.take_left]
      exact ⟨hf, after, fun hst => (by cases hst), fun _ => more⟩
    | finished => exact absurd rfl hasks

/-! ## Callers -/

/-- the output still to come from the buffered input and the chunks, the chunks, and the end of the input -/
def remaining (c : Caller RawDecoder) : ℕ :=
  ((scan (c.coder.resume.more c.chunks.flatten)).1.win.out.length - c.coder.history.length) + c.chunks.length +
    if c.coder.finishedInput then 0 else 1

theorem history_le_scan (s : RawDecoder) (more : List UInt8) :
    s.history.length ≤ (scan (s.resume.more more)).1.win.out.length := by
  exact ((history_le_resume s).trans (le_scan (s.resume.more more))).length_le

/-- more input uses up a chunk, or the end of the input -/
theorem supply_remaining {c : Caller RawDecoder} (hs : c.coder.Ok) (hf : c.coder.finished = false)
    (hopen : c.coder.finishedInput = false) :
    (Caller.supply machine c).coder.Ok ∧ remaining (Caller.supply machine c) < remaining c := by
  obtain ⟨s, chunks, calls⟩ := c
  dsimp only at hs hf hopen
  cases chunks with
  | nil =>
    refine ⟨⟨hs.offset_le, hs.literal_le, hs.reach⟩, ?_⟩
    have hresume : (finishInput s).resume = s.resume := rfl
    show remaining ⟨finishInput s, [], calls⟩ < remaining ⟨s, [], calls⟩
    simp only [remaining, hresume, hopen]
    simp [finishInput]
  | cons input chunks =>
    refine ⟨ok_feed hs input, ?_⟩
    show remaining ⟨feed input s, chunks, calls⟩ < remaining ⟨s, input :: chunks, calls⟩
    simp only [remaining, feed_running hf, resume_feed hs, Cursor.more_more, List.flatten_cons, List.length_cons]
    omega

/-- a round that goes on lowers what remains -/
theorem round_remaining {buffers : ℕ → List UInt8} (hbuffers : ∀ i, buffers i ≠ []) {c c' : Caller RawDecoder}
    (hs : c.coder.Ok) (h : Caller.round machine buffers c = .again c') : c'.coder.Ok ∧ remaining c' < remaining c := by
  obtain ⟨s, p, dst, hstep, hgoes⟩ := Caller.round_again h
  have hasks : p.status ≠ .finished := by
    rcases hgoes with ⟨hstatus, -⟩ | ⟨hstatus, -⟩ <;> rw [hstatus] <;> simp
  have hanswer : answer decodeInto c.coder (buffers c.calls) = (s, .progress p dst) := hstep
  obtain ⟨hf, hcont, houtput, hinput⟩ := answer_delivers hs hanswer hasks
  have hscan := hcont.scan c.chunks.flatten
  have hroom := List.length_pos_iff.2 (hbuffers c.calls)
  have hgrows : c.coder.history.length ≤ s.history.length := by
    rw [hcont.history, List.length_append]
    exact Nat.le_add_right _ _
  have hbound := history_le_scan s c.chunks.flatten
  rcases hgoes with ⟨hstatus, rfl⟩ | ⟨hstatus, rfl⟩
  · refine ⟨hcont.ok, ?_⟩
    have hwritten := houtput hstatus
    rw [hscan] at hbound
    simp only [remaining, hscan, hcont.keeps.finishedInput]
    omega
  · have hopen : s.finishedInput = false := hcont.keeps.finishedInput.trans (hinput hstatus)
    obtain ⟨hok, hlt⟩ := supply_remaining (c := ⟨s, c.chunks, c.calls + 1⟩) hcont.ok (hcont.keeps.finished.trans hf) hopen
    refine ⟨hok, hlt.trans_le ?_⟩
    simp only [remaining, hscan, hcont.keeps.finishedInput]
    omega

/-- **A caller that does what the decoder asks for ends**, whatever buffers with room it uses. -/
theorem caller_ends {buffers : ℕ → List UInt8} (hbuffers : ∀ i, buffers i ≠ []) (c : Caller RawDecoder)
    (hs : c.coder.Ok) : (Loop.iterate (Caller.round machine buffers) (remaining c + 1) c).isSome := by
  refine Loop.iterate_ends (I := fun c k => c.coder.Ok ∧ remaining c = k) ?_ ⟨hs, rfl⟩
  intro c k c' h hround
  rcases h with ⟨hok, rfl⟩
  obtain ⟨hok', hlt⟩ := round_remaining hbuffers hok hround
  exact ⟨_, hlt, hok', rfl⟩

end RawDecoder

end Lzvn.Raw
