/-
Both incremental decoders make progress, from every reachable state.

- `Passes`: a call of the `bvxn` decoder behind the header passes on what the raw decoder inside it delivers, as long as that
  is no more than the header declares.
- `answer_answered`: every call of the `bvxn` decoder answers as the raw decoder does.
- `caller_ends`: so a caller that does what it asks for ends: the header bounds the output.
- `decoders_progress`: both decoders.
-/
import Lzvn.Apple.BvxnSafety
import Lzvn.Raw.StreamProgress

namespace Lzvn.Apple

open Lzvn.Core Lzvn.Apple.Bvxn
open Lzvn.Raw (RawDecoder)
open Lzvn.Raw.RawDecoder (Answered)

namespace BvxnDecoder

/-! ## One call -/

/-- what a call with buffer `dst` makes of the raw decoder's answer, once the header is read -/
inductive Passes (s : BvxnDecoder) (dst : List UInt8) : BvxnDecoder × Reply → Prop where
  | progress {s' : BvxnDecoder} {raw : RawDecoder} {header : BvxnHeader} {p : StreamProgress} {dst' : List UInt8}
    (ok : raw.Ok) (history : raw.history = s.raw.history)
    (inner : answer RawDecoder.decodeInto raw dst = (s'.raw, .progress p dst')) (known : s'.header = some header)
    (fits : s'.raw.totalOutput ≤ header.rawBytes) (input : s'.finishedInput = s.finishedInput)
    (more : p.status = .needInput → s.finishedInput = false) : Passes s dst (s', .progress p dst')
  | failed {s' : BvxnDecoder} {e : Stop} (err : e ≠ .panic) : Passes s dst (s', .failed e)

/-- feeding the raw decoder and ending its input delivers nothing -/
theorem Feeds.close_history {s s' : BvxnDecoder} (h : Feeds s s') : s'.close.raw.history = s.raw.history := by
  have hfeed : s'.raw.history = s.raw.history := by
    rw [h.raw, RawDecoder.feed_history]
  exact s'.close_cases (fun r => r.history = s.raw.history) hfeed fun _ => hfeed

theorem decodePayload_passes {s : BvxnDecoder} {q : List UInt8} {header : BvxnHeader} (h : Safe s q)
    (hk : s.header = some header) (dst : List UInt8) : Passes s dst (answer decodePayload s dst) := by
  obtain ⟨s1, hfeeds, hpump⟩ := run_pumpPayload h.offset_le
  have hk1 : s1.header = some header := hfeeds.header.trans hk
  by_cases hextra : s1.payloadRemaining = 0 ∧ s1.availableInput ≠ 0
  · rw [if_pos hextra] at hpump
    rw [answer_pumpPayload_error hpump]
    exact .failed (by simp)
  rw [if_neg hextra] at hpump
  obtain ⟨rawCalls, haccounts⟩ :=
    (close_safe (hfeeds.safe h hk) (Option.isSome_iff_exists.2 ⟨header, hk1⟩)).inner
  have hok : s1.close.raw.Ok := by
    rw [haccounts.raw]
    exact RawDecoder.run_ok rawCalls
  have hnever := (RawDecoder.step_ok hok (.produce dst)).2
  change (replied (RawDecoder.decodeInto.run (s1.close.raw, dst))).2 ≠ _ at hnever
  rw [answer_decodePayload hpump]
  cases hrun : RawDecoder.decodeInto.run (s1.close.raw, dst) with
  | error e t =>
    rw [hrun] at hnever
    refine .failed ?_
    rintro rfl
    exact hnever rfl
  | ok progress t =>
    have hinner : answer RawDecoder.decodeInto s1.close.raw dst = (t.1, .progress progress t.2) := by
      rw [answer, hrun]
      rfl
    dsimp only
    rw [run_settle (s := { s1.close with raw := t.1 }) hk1 (hfeeds.read hextra)]
    by_cases hlong : header.rawBytes < t.1.totalOutput
    · rw [if_pos hlong]
      exact .failed (by simp)
    rw [if_neg hlong]
    have hpasses {s' : BvxnDecoder} (hraw : s'.raw = t.1) (hheader : s'.header = some header)
        (hinput : s'.finishedInput = s1.finishedInput)
        (hmore : progress.status = .needInput → s1.finishedInput = false) :
        Passes s dst (s', .progress progress t.2) := by
      refine .progress hok hfeeds.close_history (hraw ▸ hinner) hheader ?_ (hinput.trans hfeeds.finishedInput) ?_
      · rw [hraw]
        exact not_lt.1 hlong
      · rw [← hfeeds.finishedInput]
        exact hmore
    cases hstatus : progress.status with
    | needInput =>
      dsimp only
      split_ifs with hmissing
      · exact .failed (by simp)
      · refine hpasses rfl hk1 rfl fun _ => ?_
        -- the raw decoder asks for input, so its payload has not ended
        have hraw := (RawDecoder.answer_delivers hok hinner (by rw [hstatus]; simp)).2.2.2 hstatus
        have hopen : s1.payloadRemaining ≠ 0 := by
          intro hzero
          rw [close_finishedInput s1 hzero] at hraw
          cases hraw
        rw [Bool.eq_false_iff]
        exact fun hlast => hmissing ⟨hopen, hlast⟩
    | needOutput =>
      refine hpasses rfl hk1 rfl ?_
      rw [hstatus]
      intro h
      cases h
    | finished =>
      dsimp only
      split_ifs
      · exact .failed (by simp)
      · refine hpasses rfl hk1 rfl ?_
        rw [hstatus]
        intro h
        cases h

/-- what a call with buffer `dst` answers -/
inductive Answers (s : BvxnDecoder) (dst : List UInt8) : BvxnDecoder × Reply → Prop where
  | passes {s1 : BvxnDecoder} {x : BvxnDecoder × Reply} (h : Passes s1 dst x) (history : s1.raw.history = s.raw.history)
    (input : s1.finishedInput = s.finishedInput) : Answers s dst x
  | waits (raw : s.raw = .new) (more : s.finishedInput = false) : Answers s dst (s, .progress ⟨0, .needInput⟩ dst)
  | done : Answers s dst (s, .progress ⟨0, .finished⟩ dst)
  | failed {e : Stop} (err : e ≠ .panic) : Answers s dst (s, .failed e)

theorem decodeInto_answers {s : BvxnDecoder} {q : List UInt8} (h : Safe s q) (dst : List UInt8) :
    Answers s dst (answer decodeInto s dst) := by
  by_cases htrail : s.trailingAfterFinish = 0
  · cases hfin : s.finished with
    | true =>
      rw [answer_finished htrail hfin]
      exact .done
    | false =>
      cases hk : s.header with
      | some header =>
        rw [answer_known htrail hfin hk]
        exact .passes (decodePayload_passes h hk dst) rfl rfl
      | none =>
        obtain ⟨hraw, htake⟩ := h.takeHeader hk hfin htrail
        rw [answer_waiting htrail hfin]
        by_cases hshort : q.length < headerLen
        · rw [if_pos hshort] at htake
          by_cases hlast : s.finishedInput = true
          · rw [htake, if_pos hlast]
            exact .failed (by simp)
          · rw [htake, if_neg hlast]
            exact .waits hraw (Bool.eq_false_iff.2 hlast)
        · rw [if_neg hshort] at htake
          cases hp : parseHeader q with
          | error e =>
            rw [hp] at htake
            dsimp only at htake
            rw [htake]
            refine .failed ?_
            rintro rfl
            exact parseHeader_ne_panic q hp
          | ok header =>
            rw [hp] at htake
            obtain ⟨s', htake, hread, hraw', hinput⟩ := htake
            rw [htake]
            exact .passes (decodePayload_passes (hread.safe (hraw'.trans hraw)) hread.known dst) (by rw [hraw']) hinput
  · rw [answer_trailing htrail]
    exact .failed (by simp)

/-- **Every call** makes progress: it fills the buffer, or uses up the input to a part of an instruction, or ends. -/
theorem answer_answered {s : BvxnDecoder} {q : List UInt8} (h : Safe s q) {dst : List UInt8} (hne : dst ≠ []) :
    Answered (answer decodeInto s dst).1.raw (answer decodeInto s dst).1.finishedInput dst (answer decodeInto s dst).2 := by
  have hanswers := decodeInto_answers h dst
  generalize answer decodeInto s dst = x at hanswers
  cases hanswers with
  | passes hpasses history input =>
    cases hpasses with
    | failed err => exact err
    | @progress s' raw header p dst' ok _ inner _ _ hinput more =>
      have hraw := RawDecoder.answer_answered ok dst
      rw [inner] at hraw
      unfold Answered at hraw ⊢
      dsimp only at hraw ⊢
      cases hstatus : p.status with
      | needOutput =>
        rw [hstatus] at hraw
        exact hraw
      | needInput =>
        rw [hstatus] at hraw
        exact ⟨hraw.1, hraw.2.1, hinput.trans (more hstatus), hraw.2.2.2⟩
      | finished => trivial
  | waits raw more =>
    have hshort : Raw.fetch s.raw.unread = .short := by rw [raw]; rfl
    refine ⟨List.length_pos_iff.2 hne, ?_, more, Raw.length_le_of_short hshort, Raw.fetch_short_iff.1 hshort⟩
    rw [raw]
    exact ⟨rfl, rfl⟩
  | done => trivial
  | failed err => exact err

/-! ## Callers -/

/-- the output that a header can still allow, the chunks, and the end of the input -/
def remaining (c : Caller BvxnDecoder) : ℕ :=
  (256 ^ 4 - c.coder.raw.history.length) + c.chunks.length + if c.coder.finishedInput then 0 else 1

/-- more input uses up a chunk, or the end of the input -/
theorem supply_remaining {c : Caller BvxnDecoder} {q : List UInt8} (h : Safe c.coder q)
    (hopen : c.coder.finishedInput = false) : (∃ q', Safe (Caller.supply machine c).coder q') ∧
      remaining (Caller.supply machine c) < remaining c := by
  obtain ⟨s, chunks, calls⟩ := c
  dsimp only at h hopen
  cases chunks with
  | nil =>
    refine ⟨⟨_, (step_safe h .finishInput).1⟩, ?_⟩
    show remaining ⟨finishInput s, [], calls⟩ < remaining ⟨s, [], calls⟩
    simp only [remaining, finishInput, hopen]
    simp
  | cons input chunks =>
    refine ⟨⟨_, (step_safe h (.feed input)).1⟩, ?_⟩
    obtain ⟨-, hraw, hinput⟩ := feed_keeps input s
    show remaining ⟨feed input s, chunks, calls⟩ < remaining ⟨s, input :: chunks, calls⟩
    simp only [remaining, hraw, hinput, List.length_cons]
    omega

/-- a round that goes on lowers what remains -/
theorem round_remaining {buffers : ℕ → List UInt8} (hbuffers : ∀ i, buffers i ≠ []) {c c' : Caller BvxnDecoder}
    {q : List UInt8} (h : Safe c.coder q) (hround : Caller.round machine buffers c = .again c') :
    (∃ q', Safe c'.coder q') ∧ remaining c' < remaining c := by
  obtain ⟨s, p, dst, hstep, hgoes⟩ := Caller.round_again hround
  have hsafe := (decodeInto_safe h (buffers c.calls)).1
  have hanswers := decodeInto_answers h (buffers c.calls)
  have hanswer : answer decodeInto c.coder (buffers c.calls) = (s, .progress p dst) := hstep
  have hroom := List.length_pos_iff.2 (hbuffers c.calls)
  rw [hanswer] at hanswers hsafe
  have hasks : p.status ≠ .finished := by
    rcases hgoes with ⟨hstatus, -⟩ | ⟨hstatus, -⟩ <;> rw [hstatus] <;> simp
  -- a call asks for input, or it has filled the buffer with output that the header allows
  obtain ⟨hinput, hgrows, houtput, hmore⟩ : s.finishedInput = c.coder.finishedInput ∧
      c.coder.raw.history.length ≤ s.raw.history.length ∧
      (p.status = .needOutput → c.coder.raw.history.length < s.raw.history.length ∧ s.raw.history.length < 256 ^ 4) ∧
      (p.status = .needInput → c.coder.finishedInput = false) := by
    cases hanswers with
    | waits _ more => exact ⟨rfl, le_rfl, fun hst => (by cases hst), fun _ => more⟩
    | done => exact absurd rfl hasks
    | passes hpasses history input =>
      cases hpasses with
      | @progress _ raw header _ _ ok hist inner known fits hinput more =>
        obtain ⟨-, hcont, hfull, -⟩ := RawDecoder.answer_delivers ok inner hasks
        obtain ⟨rawCalls, haccounts⟩ := hsafe.inner
        obtain ⟨-, -, hsize, -⟩ := parseHeader_ok_iff.1 (haccounts.parsed header known)
        rw [hist, history] at hfull
        refine ⟨hinput.trans input, ?_, ?_, ?_⟩
        · rw [hcont.history, hist, history, List.length_append]
          exact Nat.le_add_right _ _
        · intro hstatus
          have hlen := hfull hstatus
          exact ⟨by omega, lt_of_le_of_lt fits hsize⟩
        · rw [← input]
          exact more
  rcases hgoes with ⟨hstatus, rfl⟩ | ⟨hstatus, rfl⟩
  · obtain ⟨hlt, hbound⟩ := houtput hstatus
    refine ⟨⟨q, hsafe⟩, ?_⟩
    simp only [remaining, hinput]
    omega
  · have hopen : s.finishedInput = false := hinput.trans (hmore hstatus)
    obtain ⟨hok, hlt⟩ := supply_remaining (c := ⟨s, c.chunks, c.calls + 1⟩) hsafe hopen
    refine ⟨hok, hlt.trans_le ?_⟩
    simp only [remaining, hinput]
    omega

/-- **A caller that does what the decoder asks for ends**, whatever buffers with room it uses. -/
theorem caller_ends {buffers : ℕ → List UInt8} (hbuffers : ∀ i, buffers i ≠ []) (c : Caller BvxnDecoder)
    {q : List UInt8} (h : Safe c.coder q) :
    (Loop.iterate (Caller.round machine buffers) (remaining c + 1) c).isSome := by
  refine Loop.iterate_ends (I := fun c k => (∃ q, Safe c.coder q) ∧ remaining c = k) ?_ ⟨⟨q, h⟩, rfl⟩
  intro c k c' hI hround
  rcases hI with ⟨⟨q, hsafe⟩, rfl⟩
  obtain ⟨hsafe', hlt⟩ := round_remaining hbuffers hsafe hround
  exact ⟨_, hlt, hsafe', rfl⟩

end BvxnDecoder

/-- **Callers of the incremental decoders make progress and end.** The loop of a call ends. From every reachable state a call
with room that asks for output has filled its buffer; one that asks for input has room left, nothing pending, an input that
has not ended, and only a part of one instruction unread. From every reachable state a caller that retries for output, feeds
its chunks one by one and ends the input when it is asked for more, and stops at `Finished` and at errors, ends, and the
number of its calls is bounded whatever its buffers are. -/
theorem decoders_progress :
    (∀ c, ∃ n, (Loop.iterate (Loop.flow RawDecoder.round) n c).isSome) ∧
    (∀ calls dst, dst ≠ [] →
      let x := RawDecoder.machine.step (RawDecoder.machine.run .new calls) (.produce dst)
      let y := BvxnDecoder.machine.step (BvxnDecoder.machine.run .new calls) (.produce dst)
      Answered x.1 x.1.finishedInput dst x.2 ∧ Answered y.1.raw y.1.finishedInput dst y.2) ∧
    ∀ calls chunks, ∃ n, ∀ buffers : ℕ → List UInt8, (∀ i, buffers i ≠ []) →
      (Loop.iterate (Caller.round RawDecoder.machine buffers) n ⟨RawDecoder.machine.run .new calls, chunks, 0⟩).isSome ∧
      (Loop.iterate (Caller.round BvxnDecoder.machine buffers) n
        ⟨BvxnDecoder.machine.run .new calls, chunks, 0⟩).isSome := by
  refine ⟨fun c => ⟨_, RawDecoder.loop_terminates c⟩, ?_, ?_⟩
  · intro calls dst hne
    exact ⟨RawDecoder.answer_answered (RawDecoder.run_ok calls) dst,
      BvxnDecoder.answer_answered (BvxnDecoder.run_safe calls) hne⟩
  · intro calls chunks
    set raw : Caller RawDecoder := ⟨RawDecoder.machine.run .new calls, chunks, 0⟩ with hraw
    set bvxn : Caller BvxnDecoder := ⟨BvxnDecoder.machine.run .new calls, chunks, 0⟩ with hbvxn
    refine ⟨max (RawDecoder.remaining raw + 1) (BvxnDecoder.remaining bvxn + 1), fun buffers hbuffers => ⟨?_, ?_⟩⟩
    · exact Loop.iterate_isSome_mono (RawDecoder.caller_ends hbuffers raw (RawDecoder.run_ok calls)) (le_max_left _ _)
    · exact Loop.iterate_isSome_mono (BvxnDecoder.caller_ends hbuffers bvxn (BvxnDecoder.run_safe calls)) (le_max_right _ _)

/-- the block in one chunk, into buffers of one byte -/
theorem hello_ends : ∃ n,
    (Loop.iterate (Caller.round BvxnDecoder.machine fun _ => [0]) n ⟨.new, [helloBlock], 0⟩).isSome ∧
    Answered (BvxnDecoder.machine.step .new (.produce [0])).1.raw false [0]
      (BvxnDecoder.machine.step .new (.produce [0])).2 := by
  obtain ⟨-, hcalls, hcallers⟩ := decoders_progress
  obtain ⟨n, hn⟩ := hcallers [] [helloBlock]
  exact ⟨n, (hn (fun _ => [0]) fun _ => by simp).2, (hcalls [] [0] (by simp)).2⟩

end Lzvn.Apple
