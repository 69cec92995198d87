/-
Incremental decoding agrees with one-shot decoding.

A driver feeds a stream in chunks, calls `decode_into` with nonempty buffers in between and after the end of the input,
and stops at the first error, or at `Finished` once everything has been fed.

- `drive_agrees`: a driver that ended has seen what the scan of the whole stream says.
- `drive_ends`: a driver with enough buffers ends.
- `incremental_agrees`: a driver ends in `Finished`, with the same output, exactly when one-shot decoding returns `Ok`, and
  else in the same error.
-/
import Lzvn.Raw.StreamRuns

namespace Lzvn.Raw

open Lzvn.Core Lzvn.Core.Lz77

namespace RawDecoder

/-! ## What a driver sees -/

/-- more input does not change the error of a scan that stopped -/
theorem streamError_more {t : Cursor} {v : Verdict} {e : Error} (hv : v ≠ .short) (h : streamError t v = some e)
    (hb : v = .eos → t.bytes ≠ []) (tail : List UInt8) : ∃ e', streamError (t.more tail) v = some e' ∧ e'.same e := by
  cases v with
  | short => exact absurd rfl hv
  | invalidOpcode op => exact ⟨e, h, Error.same_refl e⟩
  | badDistance s => exact ⟨e, h, Error.same_refl e⟩
  | eos =>
    have hbad : ¬ padOk (t.bytes.drop 1) := by
      intro hp
      rw [← finishError_none] at hp
      simp only [streamError, hp] at h
      cases h
    obtain ⟨n, hn⟩ := finishError_some hbad
    have hdrop : (t.more tail).bytes.drop 1 = t.bytes.drop 1 ++ tail :=
      List.drop_append_of_le_length (List.length_pos_iff.2 (hb rfl))
    have hbad' : ¬ padOk (t.bytes.drop 1 ++ tail) := by
      intro hp
      exact hbad (padOk_append.1 hp).1
    obtain ⟨m, hm⟩ := finishError_some hbad'
    refine ⟨.trailingData m, by rw [streamError, hdrop, hm], ?_⟩
    simp only [streamError, hn, Option.some.injEq] at h
    exact .inr ⟨_, _, rfl, h.symm⟩

/-- what one-shot decoding says of a stream whose scan stops at `t` with `v`: the last reply of a driver, and all output -/
def Agrees (t : Cursor) (v : Verdict) (last : Reply) (out : List UInt8) : Prop :=
  match streamError t v with
  | none => last.isFinished = true ∧ out = t.win.out
  | some e => ∃ e', last = .failed (.err e') ∧ e.same e'

theorem feed_keeps (input : List UInt8) (s : RawDecoder) :
    (feed input s).history = s.history ∧ (feed input s).finishedInput = s.finishedInput := by
  refine ⟨feed_history input s, ?_⟩
  unfold feed feedWith
  split_ifs <;> rfl

/-- a reply that ends the driver is what the scan of the whole stream says -/
theorem answer_agrees {src q : List UInt8} {s : RawDecoder} {calls : List Call} (h : Tracks s q) (dst : List UInt8)
    (hsrc : q ++ fed calls = src) (hlast : s.finishedInput = true → fed calls = []) :
    (untilFed (answer decodeInto s dst).2 calls = false ∧ Tracks (answer decodeInto s dst).1 q ∧
        (answer decodeInto s dst).1.finishedInput = s.finishedInput ∧
        (answer decodeInto s dst).1.history = s.history ++ (answer decodeInto s dst).2.output) ∨
      untilFed (answer decodeInto s dst).2 calls = true ∧
        Agrees (scan (Cursor.start src)).1 (scan (Cursor.start src)).2 (answer decodeInto s dst).2
          (s.history ++ (answer decodeInto s dst).2.output) := by
  have hout := step_outcome h (t := (scan (Cursor.start q)).1) (v := (scan (Cursor.start q)).2) rfl dst
  change Outcome _ _ _ _ _ (answer decodeInto s dst) at hout
  generalize answer decodeInto s dst = x at hout
  cases hout with
  | needOutput after input out => exact .inl ⟨rfl, after, input, out⟩
  | needInput after input out => exact .inl ⟨rfl, after, input, out⟩
  | finished after input out all eos pad =>
    cases hstop : calls.any Call.isFeed with
    | true => exact .inl ⟨by rw [untilFed, hstop]; rfl, after, input, out⟩
    | false =>
      obtain rfl : q = src := by rw [← hsrc, fed_eq_nil hstop, List.append_nil]
      refine .inr ⟨by rw [untilFed, hstop]; rfl, ?_⟩
      rw [Agrees, eos, streamError, finishError_none.2 pad]
      exact ⟨rfl, out.symm.trans all⟩
  | @failed s' e e' error same last =>
    refine .inr ⟨rfl, ?_⟩
    unfold Agrees
    have hmore := scan_more (Cursor.start q) (fed calls)
    by_cases hv : (scan (Cursor.start q)).2 = .short
    · obtain rfl : q = src := by rw [← hsrc, hlast (last hv), List.append_nil]
      rw [error]
      exact ⟨e', rfl, same⟩
    · have hb : (scan (Cursor.start q)).2 = .eos → (scan (Cursor.start q)).1.bytes ≠ [] := by
        intro heos
        rw [scan_eos_bytes heos]
        simp
      obtain ⟨e'', he'', hsame⟩ := streamError_more hv error hb (fed calls)
      rw [if_neg hv] at hmore
      have hstart : scan (Cursor.start src) =
          ((scan (Cursor.start q)).1.more (fed calls), (scan (Cursor.start q)).2) := by
        rw [← hmore, ← hsrc]
        rfl
      rw [hstart, he'']
      exact ⟨e', rfl, Error.same_trans hsame same⟩

/-- **A driver that ended** has seen what the scan of the whole stream says. -/
theorem drive_agrees (src : List UInt8) (calls : List Call) (s : RawDecoder) (q : List UInt8) (h : Tracks s q)
    (hsrc : q ++ fed calls = src) (hlast : s.finishedInput = true → fed calls = [])
    (hfin : ∀ a b, calls = a ++ .finishInput :: b → fed b = []) :
    EndsWith s.history (Agrees (scan (Cursor.start src)).1 (scan (Cursor.start src)).2)
      (machine.drive untilFed s calls) :=
  drive_rule Tracks history finishedInput (fun _ _ _ => True) (fun _ => rfl)
    (fun s _ input h => ⟨tracks_feed h input, feed_keeps input s⟩)
    (fun _ _ h => ⟨tracks_finishInput h, rfl⟩) (fun _ _ dst _ h hsrc hlast _ => answer_agrees h dst hsrc hlast)
    calls s q h hsrc hlast hfin fun _ _ _ _ => trivial

/-! ## Drivers end -/

/-- after the end of the input a buffer is filled, or the driver ends -/
theorem progresses (src : List UInt8) : Progresses decodeInto untilFed
    fun s k => Tracks s src ∧ s.finishedInput = true ∧ s.history.length = k := by
  intro s k dst bufs h hne
  rcases h with ⟨h, hlast, rfl⟩
  have hout := step_outcome h (t := (scan (Cursor.start src)).1) (v := (scan (Cursor.start src)).2) rfl dst
  change Outcome _ _ _ _ _ (answer decodeInto s dst) at hout
  generalize answer decodeInto s dst = x at hout
  cases hout with
  | needOutput after input out le written =>
    have hpos : 0 < dst.length := List.length_pos_iff.2 hne
    exact .inr ⟨_, by dsimp only; omega, after, input.trans hlast, rfl⟩
  | needInput _ _ _ _ _ more => rw [hlast] at more; cases more
  | finished => exact .inl (by rw [untilFed, no_feed_buffers]; rfl)
  | failed => exact .inl rfl

/-- **A driver with enough buffers ends.** -/
theorem drive_ends {src : List UInt8} (schedule : Schedule src)
    (hlen : (scan (Cursor.start src)).1.win.out.length < schedule.post.length) :
    (machine.drive untilFed new schedule.calls).2 = true := by
  refine schedule.drive_ends Tracks (fun _ => rfl) (fun s q input h => tracks_feed h input) (fun s q dst calls h => ?_)
    (fun s h => ⟨_, tracks_finishInput h, rfl, rfl⟩) (fun s k h => h.2.2 ▸ h.1.history_le.length_le) (progresses src) new tracks_new
    hlen
  have hout := step_outcome h (t := (scan (Cursor.start q)).1) (v := (scan (Cursor.start q)).2) rfl dst
  change Outcome _ _ _ _ _ (answer decodeInto s dst) at hout
  generalize answer decodeInto s dst = x at hout
  cases hout with
  | needOutput after => exact .inr after
  | needInput after => exact .inr after
  | finished after => exact .inr after
  | failed => exact .inl rfl

/-- **Incremental decoding agrees with one-shot decoding.** For every way to feed `src` and to draw its output, a driver
with enough buffers ends. It ends in `Finished` exactly when one-shot decoding into a large enough buffer returns `Ok`,
with the same output, and else in the same error, up to the number of trailing bytes. -/
theorem incremental_agrees (src : List UInt8) : ∃ enough, ∀ (schedule : Schedule src) (dst : List UInt8),
    enough ≤ dst.length →
    (enough ≤ schedule.post.length → (machine.drive untilFed new schedule.calls).2 = true) ∧
    ((machine.drive untilFed new schedule.calls).2 = true →
      ∃ last, (machine.drive untilFed new schedule.calls).1.getLast? = some last ∧
        match (Raw.decodeInto src).run dst with
        | .ok n dst' =>
          last.isFinished = true ∧ outputs (machine.drive untilFed new schedule.calls).1 = dst'.take n
        | .error (.err e) _ => ∃ e', last = .failed (.err e') ∧ e.same e'
        | .error .panic _ => False) := by
  obtain ⟨⟨t, v⟩, hscan⟩ : ∃ r, scan (Cursor.start src) = r := ⟨_, rfl⟩
  refine ⟨room t v + 1, fun schedule dst hdst => ⟨?_, ?_⟩⟩
  · intro hpost
    refine drive_ends schedule ?_
    have := out_le_room t v
    rw [hscan]
    dsimp only
    omega
  · intro hended
    obtain ⟨last, hlast, hm⟩ := drive_agrees src schedule.calls new [] tracks_new schedule.fed_calls (by simp [new])
      (fun _ _ => schedule.fed_behind) hended
    refine ⟨last, hlast, ?_⟩
    obtain ⟨dst', hone⟩ := decodeInto_run src dst hscan
    rw [if_pos (by omega)] at hone
    obtain ⟨hone, rfl⟩ := hone
    rw [hscan] at hm
    rw [hone]
    unfold Agrees at hm
    dsimp only at hm
    cases he : streamError t v with
    | none =>
      rw [he] at hm
      refine ⟨hm.1, ?_⟩
      rw [List.take_left]
      exact hm.2
    | some e => rw [he] at hm; exact hm

end RawDecoder

end Lzvn.Raw
