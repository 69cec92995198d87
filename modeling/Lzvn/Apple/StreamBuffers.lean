/-
The incremental coders only write to the caller's buffer, and to the front of it that they report. What they reply in a whole
run depends on the lengths of the buffers alone.

- `Alike`, `answer_alike`: `bvxn` decoders that no call tells apart, whatever is in its buffer.
- `coders_ignore_buffers`: two runs whose buffers have the same lengths, on each of the four coders.
- `coders_frame`: no call writes behind what it reports.
-/
import Lzvn.Apple.BvxnErrors
import Lzvn.EncoderRuns
import Lzvn.Raw.StreamWindow

namespace Lzvn.Apple

open Lzvn.Core Lzvn.Apple.Bvxn
open Lzvn.Raw (RawDecoder RawEncoder)

namespace BvxnDecoder

/-- decoders that stand at the same place of the same bytes, around raw decoders that no call tells apart -/
structure Alike (s s' : BvxnDecoder) : Prop where
  unread : s.unread = s'.unread
  absoluteOffset : s.absoluteOffset = s'.absoluteOffset
  header : s.header = s'.header
  payloadRemaining : s.payloadRemaining = s'.payloadRemaining
  finishedInput : s.finishedInput = s'.finishedInput
  finished : s.finished = s'.finished
  trailingAfterFinish : s.trailingAfterFinish = s'.trailingAfterFinish
  raw : s.raw.Alike s'.raw
  history : s.raw.history = s'.raw.history

theorem Alike.availableInput {s s' : BvxnDecoder} (h : Alike s s') : s.availableInput = s'.availableInput := by
  rw [← length_unread, ← length_unread, h.unread]

theorem Alike.with_raw {s s' : BvxnDecoder} (h : Alike s s') {r r' : RawDecoder} (hr : r.Alike r') (hh : r.history = r'.history) :
    Alike { s with raw := r } { s' with raw := r' } :=
  { h with raw := hr, history := hh }

/-- feeding what is there and closing -/
theorem Alike.feeds {s s' s1 s1' : BvxnDecoder} (h : Alike s s') (hf : Feeds s s1) (hf' : Feeds s' s1') :
    Alike s1.close s1'.close := by
  have htake : s.unread.take s.payloadRemaining = s'.unread.take s'.payloadRemaining := by rw [h.unread, h.payloadRemaining]
  have hremaining : s1.payloadRemaining = s1'.payloadRemaining := by
    have h1 := hf.payloadRemaining
    have h2 := hf'.payloadRemaining
    have h3 := h.payloadRemaining
    rw [htake] at h1
    omega
  have hraw : s1.raw.Alike s1'.raw := by
    rw [hf.raw, hf'.raw, htake]
    exact h.raw.feed _
  have hhistory : s1.raw.history = s1'.raw.history := by
    rw [hf.raw, hf'.raw, RawDecoder.feed_history, RawDecoder.feed_history, h.history]
  have hclosed : s1.close.raw.Alike s1'.close.raw ∧ s1.close.raw.history = s1'.close.raw.history := by
    simp only [close, ← hremaining]
    split_ifs
    · exact ⟨hraw.finishInput, hhistory⟩
    · exact ⟨hraw, hhistory⟩
  refine ⟨?_, ?_, ?_, hremaining, ?_, ?_, ?_, hclosed.1, hclosed.2⟩
  · exact hf.unread.trans ((congrArg₂ _ h.payloadRemaining h.unread).trans hf'.unread.symm)
  · rw [show s1.close.absoluteOffset = s1.absoluteOffset from rfl, hf.absoluteOffset, h.absoluteOffset, htake]
    exact hf'.absoluteOffset.symm
  · exact hf.header.trans (h.header.trans hf'.header.symm)
  · exact hf.finishedInput.trans (h.finishedInput.trans hf'.finishedInput.symm)
  · exact hf.finished.trans (h.finished.trans hf'.finished.symm)
  · exact hf.trailingAfterFinish.trans (h.trailingAfterFinish.trans hf'.trailingAfterFinish.symm)

/-- `settle` does the same to decoders that are alike -/
theorem settle_alike {s s' : BvxnDecoder} {header : BvxnHeader} (h : Alike s s') (hk : s.header = some header)
    (hread : s.availableInput = 0) (p : StreamProgress) :
    match (settle p).run s, (settle p).run s' with
    | .ok p1 t, .ok p2 t' => p1 = p ∧ p2 = p ∧ Alike t t'
    | .error e t, .error e' t' => e = e' ∧ Alike t t'
    | _, _ => False := by
  have htotal : s.raw.totalOutput = s'.raw.totalOutput := congrArg List.length h.history
  have hended : Alike { s with finished := true } { s' with finished := true } := { h with finished := rfl }
  rw [run_settle hk hread, run_settle (h.header ▸ hk) (h.availableInput ▸ hread), ← htotal, ← h.absoluteOffset]
  by_cases hlong : header.rawBytes < s.raw.totalOutput
  · rw [if_pos hlong, if_pos hlong]
    exact ⟨rfl, h⟩
  rw [if_neg hlong, if_neg hlong]
  cases p.status with
  | needInput =>
    dsimp only
    rw [← h.payloadRemaining, ← h.finishedInput]
    split_ifs
    · exact ⟨rfl, h⟩
    · exact ⟨rfl, rfl, h⟩
  | needOutput => exact ⟨rfl, rfl, h⟩
  | finished =>
    dsimp only
    split_ifs
    · exact ⟨rfl, h⟩
    · exact ⟨rfl, rfl, hended⟩

/-- a call behind the header leaves decoders alike, whatever is in the buffer -/
theorem decodePayload_alike {s s' : BvxnDecoder} {q : List UInt8} {header : BvxnHeader} (h : Alike s s') (hs : Safe s q)
    (hs' : Safe s' q) (hk : s.header = some header) {dst dst' : List UInt8} (hlen : dst.length = dst'.length) :
    Alike (answer decodePayload s dst).1 (answer decodePayload s' dst').1 ∧
      (answer decodePayload s dst).2.Matches (answer decodePayload s' dst').2 := by
  obtain ⟨s1, hfeeds, hpump⟩ := run_pumpPayload hs.offset_le
  obtain ⟨s1', hfeeds', hpump'⟩ := run_pumpPayload hs'.offset_le
  have h1 := h.feeds hfeeds hfeeds'
  have hav : s1.availableInput = s1'.availableInput := h1.availableInput
  have hrem : s1.payloadRemaining = s1'.payloadRemaining := h1.payloadRemaining
  have hk1 : s1.close.header = some header := hfeeds.header.trans hk
  rw [← hav, ← hrem] at hpump'
  by_cases hextra : s1.payloadRemaining = 0 ∧ s1.availableInput ≠ 0
  · rw [if_pos hextra] at hpump hpump'
    rw [answer_pumpPayload_error hpump, answer_pumpPayload_error hpump']
    exact ⟨h1, rfl⟩
  rw [if_neg hextra] at hpump hpump'
  obtain ⟨hraw, hmatches, out, hout, hout'⟩ := RawDecoder.answer_alike h1.raw hlen
  have hhist := hout.trans ((congrArg (· ++ out) h1.history).trans hout'.symm)
  rw [answer_decodePayload hpump, answer_decodePayload hpump']
  unfold answer at hraw hmatches hhist
  cases hrun : RawDecoder.decodeInto.run (s1.close.raw, dst) with
  | error e t =>
    cases hrun' : RawDecoder.decodeInto.run (s1'.close.raw, dst') with
    | ok p' t' =>
      rw [hrun, hrun'] at hmatches
      cases hmatches
    | error e' t' =>
      rw [hrun, hrun'] at hraw hmatches hhist
      exact ⟨h1.with_raw hraw hhist, hmatches⟩
  | ok p t =>
    cases hrun' : RawDecoder.decodeInto.run (s1'.close.raw, dst') with
    | error e' t' =>
      rw [hrun, hrun'] at hmatches
      cases hmatches
    | ok p' t' =>
      obtain ⟨r, d⟩ := t
      obtain ⟨r', d'⟩ := t'
      rw [hrun, hrun'] at hraw hmatches hhist
      change r.Alike r' at hraw
      change r.history = r'.history at hhist
      obtain ⟨rfl, htake⟩ := hmatches
      have hsettle := settle_alike (h1.with_raw hraw hhist) hk1 (hfeeds.read hextra) p
      dsimp only at hsettle ⊢
      generalize (settle p).run { s1.close with raw := r } = x at hsettle ⊢
      generalize (settle p).run { s1'.close with raw := r' } = x' at hsettle ⊢
      cases x with
      | ok p1 s2 =>
        cases x' with
        | ok p2 s2' =>
          obtain ⟨rfl, rfl, hafter⟩ := hsettle
          exact ⟨hafter, rfl, htake⟩
        | error e' s2' => exact False.elim hsettle
      | error e s2 =>
        cases x' with
        | ok p2 s2' => exact False.elim hsettle
        | error e' s2' =>
          obtain ⟨rfl, hafter⟩ := hsettle
          exact ⟨hafter, rfl⟩

/-- a call leaves decoders alike, whatever is in the buffer -/
theorem answer_alike {s s' : BvxnDecoder} {q : List UInt8} (h : Alike s s') (hs : Safe s q) (hs' : Safe s' q)
    {dst dst' : List UInt8} (hlen : dst.length = dst'.length) :
    Alike (answer decodeInto s dst).1 (answer decodeInto s' dst').1 ∧
      (answer decodeInto s dst).2.Matches (answer decodeInto s' dst').2 := by
  by_cases htrail : s.trailingAfterFinish = 0
  · have htrail' := h.trailingAfterFinish.symm.trans htrail
    cases hfin : s.finished with
    | true =>
      rw [answer_finished htrail hfin, answer_finished htrail' (h.finished.symm.trans hfin)]
      exact ⟨h, rfl, rfl⟩
    | false =>
      have hfin' := h.finished.symm.trans hfin
      cases hk : s.header with
      | some header =>
        rw [answer_known htrail hfin hk, answer_known htrail' hfin' (h.header.symm.trans hk)]
        exact decodePayload_alike h hs hs' hk hlen
      | none =>
        obtain ⟨hraw, htake⟩ := hs.takeHeader hk hfin htrail
        obtain ⟨hraw', htake'⟩ := hs'.takeHeader (h.header.symm.trans hk) hfin' htrail'
        rw [answer_waiting htrail hfin, answer_waiting htrail' hfin']
        rw [← h.finishedInput] at htake'
        by_cases hshort : q.length < headerLen
        · rw [if_pos hshort] at htake htake'
          rw [htake, htake']
          split_ifs
          · exact ⟨h, rfl⟩
          · exact ⟨h, rfl, rfl⟩
        · rw [if_neg hshort] at htake htake'
          cases hp : parseHeader q with
          | error e =>
            rw [hp] at htake htake'
            dsimp only at htake htake'
            rw [htake, htake']
            exact ⟨h, rfl⟩
          | ok header =>
            rw [hp] at htake htake'
            obtain ⟨s0, htake, hread, hraw0, hin⟩ := htake
            obtain ⟨s0', htake', hread', hraw0', hin'⟩ := htake'
            rw [htake, htake']
            have hbudget := hread.budget
            have hbudget' := hread'.budget
            have h0 : Alike s0 s0' := by
              refine ⟨hread.payload.symm.trans hread'.payload, hread.position.trans hread'.position.symm,
                hread.known.trans hread'.known.symm, by omega, hin.trans hin'.symm,
                hread.unfinished.trans hread'.unfinished.symm, hread.clean.trans hread'.clean.symm, ?_, ?_⟩
              · rw [hraw0, hraw0']
                exact h.raw
              · rw [hraw0, hraw0', h.history]
            exact decodePayload_alike h0 (hread.safe (hraw0.trans hraw)) (hread'.safe (hraw0'.trans hraw')) hread.known hlen
  · rw [answer_trailing htrail, answer_trailing (h.trailingAfterFinish ▸ htrail), h.trailingAfterFinish]
    exact ⟨h, rfl⟩

theorem Alike.feed {s s' : BvxnDecoder} (h : Alike s s') (hs : s.inputOffset ≤ s.input.length)
    (hs' : s'.inputOffset ≤ s'.input.length) (input : List UInt8) : Alike (feed input s) (feed input s') := by
  unfold BvxnDecoder.feed feedWith
  by_cases hnil : input = []
  · rwa [if_pos hnil, if_pos hnil]
  rw [if_neg hnil, if_neg hnil]
  by_cases hfin : s.finished = true
  · have htrailing : s.trailingAfterFinish + input.length = s'.trailingAfterFinish + input.length := by
      rw [h.trailingAfterFinish]
    rw [if_pos hfin, if_pos (h.finished ▸ hfin)]
    exact { h with trailingAfterFinish := htrailing }
  · have hunread : (s.input ++ input).drop s.inputOffset = (s'.input ++ input).drop s'.inputOffset := by
      rw [List.drop_append_of_le_length hs, List.drop_append_of_le_length hs']
      exact congrArg (· ++ input) h.unread
    rw [if_neg hfin, if_neg (h.finished ▸ hfin)]
    exact { h with unread := hunread }

/-- **Calls that match** leave decoders alike, and get replies that match. -/
theorem step_alike {s s' : BvxnDecoder} {q : List UInt8} (h : Alike s s') (hs : Safe s q) (hs' : Safe s' q) {c c' : Call}
    (hc : c.Matches c') :
    Alike (machine.step s c).1 (machine.step s' c').1 ∧ (machine.step s c).2.Matches (machine.step s' c').2 := by
  cases c with
  | feed input =>
    cases hc
    exact ⟨h.feed hs.offset_le hs'.offset_le input, rfl⟩
  | finishInput =>
    cases hc
    exact ⟨{ h with finishedInput := rfl }, rfl⟩
  | produce dst =>
    cases c' with
    | feed input => cases hc
    | finishInput => cases hc
    | produce dst' => exact answer_alike h hs hs' hc

theorem alike_new : Alike new new :=
  ⟨rfl, rfl, rfl, rfl, rfl, rfl, rfl, RawDecoder.alike_new, rfl⟩

/-- runs of calls that match -/
theorem run_matches {calls calls' : List Call} (h : List.Forall₂ Call.Matches calls calls') :
    List.Forall₂ Reply.Matches (machine.replies new calls) (machine.replies new calls') := by
  refine (machine.relates machine (fun s s' => Alike s s' ∧ ∃ q, Safe s q ∧ Safe s' q) (fun s s' c c' hr hc => ?_) h
    ⟨alike_new, [], safe_new, safe_new⟩).2
  obtain ⟨halike, q, hs, hs'⟩ := hr
  obtain ⟨hafter, hmatches⟩ := step_alike halike hs hs' hc
  have haccepted : q ++ c'.accepted s'.finished = q ++ c.accepted s.finished := by
    rw [halike.finished, Call.accepted, Call.accepted, hc.fed_eq]
  have hnext := (step_safe hs' c').1
  rw [haccepted] at hnext
  exact ⟨⟨hafter, _, (step_safe hs c).1, hnext⟩, hmatches⟩

end BvxnDecoder

/-! ## The four coders -/

/-- **The incremental coders ignore what is in the caller's buffers.** Two runs whose calls differ in the contents of their buffers
only get the same replies, with the same output in front of the buffers. -/
theorem coders_ignore_buffers {calls calls' : List Call} (h : List.Forall₂ Call.Matches calls calls') :
    List.Forall₂ Reply.Matches (RawDecoder.machine.replies .new calls) (RawDecoder.machine.replies .new calls') ∧
    List.Forall₂ Reply.Matches (BvxnDecoder.machine.replies .new calls) (BvxnDecoder.machine.replies .new calls') ∧
    List.Forall₂ Reply.Matches (RawEncoder.machine.replies .new calls) (RawEncoder.machine.replies .new calls') ∧
    List.Forall₂ Reply.Matches (BvxnEncoder.machine.replies .new calls) (BvxnEncoder.machine.replies .new calls') :=
  ⟨RawDecoder.run_matches h, BvxnDecoder.run_matches h, StreamEncoder.run_matches Raw.encode h,
    StreamEncoder.run_matches Bvxn.encode h⟩

/-- other bytes in the buffer of a decoder that was fed a stream -/
theorem buffers_ignored : List.Forall₂ Reply.Matches
    (RawDecoder.machine.replies .new [.feed [0xE1, 0x61, 0x06], .produce [7, 9]])
    (RawDecoder.machine.replies .new [.feed [0xE1, 0x61, 0x06], .produce [0, 0]]) := by
  have hcalls : List.Forall₂ Call.Matches [.feed [0xE1, 0x61, 0x06], .produce [7, 9]] [.feed [0xE1, 0x61, 0x06], .produce [0, 0]] := by
    simp [Call.Matches]
  exact (coders_ignore_buffers hcalls).1

/-- **No call writes behind what it reports.** From every reachable state of the four coders, a call that reports progress has
written its output to the front of the buffer, and left the rest as it was. -/
theorem coders_frame (calls : List Call) (dst : List UInt8) :
    (RawDecoder.machine.step (RawDecoder.machine.run .new calls) (.produce dst)).2.Frames dst ∧
    (BvxnDecoder.machine.step (BvxnDecoder.machine.run .new calls) (.produce dst)).2.Frames dst ∧
    (RawEncoder.machine.step (RawEncoder.machine.run .new calls) (.produce dst)).2.Frames dst ∧
    (BvxnEncoder.machine.step (BvxnEncoder.machine.run .new calls) (.produce dst)).2.Frames dst :=
  ⟨RawDecoder.step_frames (RawDecoder.run_ok calls) dst, BvxnDecoder.step_frames (BvxnDecoder.run_safe calls) dst,
    StreamEncoder.run_frames Raw.encode calls dst, StreamEncoder.run_frames Bvxn.encode calls dst⟩

end Lzvn.Apple
