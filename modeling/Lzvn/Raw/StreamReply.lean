/-
The incremental decoder against the plainest one there could be: a session that keeps everything it was ever fed, and at each
call decodes all of it anew from the start.

- `Answers.reply_eq`: the reply to a call, from the output still to come and how the scan ends.
- `Session`: the plain decoder.
- `run_refines`: the decoder of the code replies as the plain one does, in every run that feeds no more than `usize::MAX` bytes
  and in which no call meets an EOS opcode with bad padding buffered behind it.
-/
import Lzvn.Raw.StreamAgrees
import Lzvn.Raw.StreamErrors

namespace Lzvn.Raw

open Lzvn.Core Lzvn.Core.Lz77

namespace RawDecoder

/-- how a call goes on once all output is out -/
inductive Ending where
  | needInput
  | finished
  | failed (e : Error)
deriving DecidableEq, Repr

/-- the ending of a scan that stopped at `t` with `v`; a part of an instruction is an error once the input has ended -/
def ending (finishedInput : Bool) (t : Cursor) (v : Verdict) : Ending :=
  match streamError t v with
  | none => .finished
  | some e => if v = .short ∧ finishedInput = false then .needInput else .failed e

/-- the reply to a call that has room for `left`, all of the output -/
def Ending.reply (left dst : List UInt8) : Ending → Reply
  | .needInput => .progress ⟨left.length, .needInput⟩ (left ++ dst.drop left.length)
  | .finished => .progress ⟨left.length, .finished⟩ (left ++ dst.drop left.length)
  | .failed e => .failed (.err e)

/-- the reply to a call with `left` still to come in front of the ending -/
def replyTo (left : List UInt8) (e : Ending) (dst : List UInt8) : Reply :=
  if dst.length ≤ left.length then .progress ⟨dst.length, .needOutput⟩ (left.take dst.length) else e.reply left dst

variable {s s' : RawDecoder} {dst : List UInt8} {t : Cursor} {v : Verdict}
  {r : EStateM.Result Stop Target StreamProgress}

/-- **The reply to a call** is made of the output still to come and the ending. -/
theorem Answers.reply_eq (h : Answers s dst t v r) :
    (replied r).2 = replyTo (t.win.out.drop s.history.length) (ending s.finishedInput t v) dst := by
  have all {delta : List UInt8} (room : delta.length < dst.length) (out : s.history ++ delta = t.win.out) (e : Ending) :
      replyTo (t.win.out.drop s.history.length) e dst = e.reply delta dst := by
    rw [← out, List.drop_left, replyTo, if_neg (not_le.2 room)]
  cases h with
  | @needOutput _ delta full out =>
    obtain ⟨rest, out⟩ := out
    rw [← out, List.append_assoc, List.drop_left, replyTo, if_pos (by rw [List.length_append]; omega), ← full,
      List.take_left, full, List.drop_length, List.append_nil]
    rfl
  | needInput room out _ _ short more =>
    rw [all room out, ending, short, more]
    rfl
  | finished room out _ eos pad =>
    rw [all room out, ending, eos, streamError, pad]
    rfl
  | rejected room out _ _ last error =>
    have hnot : ¬ (v = .short ∧ s.finishedInput = false) := by
      rintro ⟨hv, hopen⟩
      rw [last hv] at hopen
      cases hopen
    rw [all room out, ending, error]
    simp only [if_neg hnot]
    rfl
  | trailing room out _ eos error =>
    rw [all room out, ending, eos, streamError, error]
    rfl

/-- what a call leaves behind: the EOS opcode is met when there is room for more than all of the output -/
theorem Answers.after (h : Answers s dst t v r) :
    if (t.win.out.drop s.history.length).length < dst.length ∧ v = .eos then
      match finishError (t.bytes.drop 1) with
      | none => Finishes s (replied r).1 (t.win.out.drop s.history.length) (t.bytes.drop 1)
      | some _ => Skips s (replied r).1 (t.win.out.drop s.history.length) t
    else Continues s (replied r).1 ((t.win.out.drop s.history.length).take dst.length) := by
  have all {delta : List UInt8} (out : s.history ++ delta = t.win.out) : t.win.out.drop s.history.length = delta := by
    rw [← out, List.drop_left]
  have goesOn {delta : List UInt8} (room : delta.length < dst.length) (hv : v ≠ .eos)
      (out : s.history ++ delta = t.win.out) {s1 : RawDecoder} (after : Continues s s1 delta) :
      if (t.win.out.drop s.history.length).length < dst.length ∧ v = .eos then
        match finishError (t.bytes.drop 1) with
        | none => Finishes s s1 (t.win.out.drop s.history.length) (t.bytes.drop 1)
        | some _ => Skips s s1 (t.win.out.drop s.history.length) t
      else Continues s s1 ((t.win.out.drop s.history.length).take dst.length) := by
    rw [all out, if_neg fun hend => hv hend.2, List.take_of_length_le room.le]
    exact after
  cases h with
  | @needOutput _ delta full out after =>
    obtain ⟨rest, out⟩ := out
    rw [List.append_assoc] at out
    rw [all out, if_neg (by rw [List.length_append]; omega), ← full, List.take_left]
    exact after
  | needInput room out after _ short => exact goesOn room (by simp [short]) out after
  | rejected room out after notEos => exact goesOn room notEos out after
  | finished room out after eos pad =>
    rw [all out, if_pos ⟨room, eos⟩, pad]
    exact after
  | trailing room out after eos error =>
    rw [all out, if_pos ⟨room, eos⟩, error]
    exact after

/-- what a call delivers, whether it fails or not -/
theorem Answers.history_eq (h : Answers s dst t v r) :
    (replied r).1.history = s.history ++ (t.win.out.drop s.history.length).take dst.length := by
  have hafter := h.after
  split_ifs at hafter with hend
  · rw [List.take_of_length_le hend.1.le]
    cases hpad : finishError (t.bytes.drop 1) with
    | none => rw [hpad] at hafter; exact hafter.history
    | some e => rw [hpad] at hafter; exact hafter.history
  · exact hafter.history

theorem ending_finished_iff {finishedInput : Bool} :
    ending finishedInput t v = .finished ↔ v = .eos ∧ finishError (t.bytes.drop 1) = none := by
  unfold ending
  cases v with
  | eos =>
    rw [streamError]
    cases finishError (t.bytes.drop 1) <;> simp
  | short => cases finishedInput <;> simp [streamError]
  | invalidOpcode op => simp [streamError]
  | badDistance s => simp [streamError]

/-- what a call leaves of the flags -/
theorem Answers.flags (h : Answers s dst t v r) (hf : s.finished = false) :
    (replied r).1.finishedInput = s.finishedInput ∧
      ((replied r).1.finished = true ↔
        (t.win.out.drop s.history.length).length < dst.length ∧ ending s.finishedInput t v = .finished) := by
  have hafter := h.after
  rw [ending_finished_iff, ← and_assoc]
  split_ifs at hafter with hend
  · cases hpad : finishError (t.bytes.drop 1) with
    | none =>
      rw [hpad] at hafter
      exact ⟨hafter.finishedInput, by simp only [hafter.finished, hend.1, hend.2, and_self]⟩
    | some e =>
      rw [hpad] at hafter
      exact ⟨hafter.keeps.finishedInput, by simp [hafter.keeps.finished, hf]⟩
  · exact ⟨hafter.keeps.finishedInput, by simp only [hafter.keeps.finished, hf, hend, false_and, Bool.false_eq_true]⟩

/-- a call that reports progress adds its output to the history and writes it to the front of the buffer -/
theorem step_progress {s s' : RawDecoder} (hs : s.Ok) {dst dst' : List UInt8} {p : StreamProgress}
    (h : machine.step s (.produce dst) = (s', .progress p dst')) : ∃ out, out.length = p.written ∧
      out.length ≤ dst.length ∧ dst' = out ++ dst.drop out.length ∧ s'.history = s.history ++ out := by
  have hp := step_produces hs dst
  rw [h] at hp
  cases hp with
  | finished => exact ⟨[], rfl, Nat.zero_le _, rfl, (List.append_nil _).symm⟩
  | progress _ _ _ ha =>
    cases ha with
    | @needOutput _ delta full _ after => exact ⟨delta, rfl, full.le, rfl, after.history⟩
    | @needInput _ delta room _ after => exact ⟨delta, rfl, room.le, rfl, after.history⟩
    | @finished _ delta room _ after => exact ⟨delta, rfl, room.le, rfl, after.history⟩

theorem step_frames {s : RawDecoder} (hs : s.Ok) (dst : List UInt8) : (machine.step s (.produce dst)).2.Frames dst := by
  rcases hx : machine.step s (.produce dst) with ⟨s', r⟩
  cases r with
  | done => trivial
  | failed => trivial
  | progress p dst' =>
    obtain ⟨out, hlen, hle, hdst, -⟩ := step_progress hs hx
    exact ⟨out, hlen, hle, hdst⟩

/-- output is only added -/
theorem step_history_le {s : RawDecoder} (hs : s.Ok) (dst : List UInt8) :
    s.history <+: (machine.step s (.produce dst)).1.history := by
  have hp := step_produces hs dst
  generalize machine.step s (.produce dst) = x at hp ⊢
  cases hp with
  | trailing => exact List.prefix_refl _
  | finished => exact List.prefix_refl _
  | progress _ _ _ ha =>
    have hhist := ha.history_eq
    exact hhist ▸ List.prefix_append _ _
  | failed _ _ _ ha =>
    have hhist := ha.history_eq
    exact hhist ▸ List.prefix_append _ _

/-! ## The plain decoder -/

/-- a decoder that keeps all of its input and how many bytes of output it has delivered -/
structure Session where
  input : List UInt8
  delivered : ℕ
  finishedInput : Bool
  finished : Bool
deriving DecidableEq, Repr

namespace Session

def new : Session := ⟨[], 0, false, false⟩

/-- decode everything from the start, and deliver what comes behind the bytes that are already out -/
def decodeInto (self : Session) (dst : List UInt8) : Session × Reply :=
  let (t, v) := scan (Cursor.start self.input)
  let e := ending self.finishedInput t v
  if self.finished then (self, e.reply [] dst)
  else
    let left := t.win.out.drop self.delivered
    ({ self with
      delivered := self.delivered + (left.take dst.length).length
      finished := left.length < dst.length ∧ e = .finished }, replyTo left e dst)

def machine : Machine Session Call Reply where
  step self
    | .feed input => ({ self with input := self.input ++ input }, .done)
    | .finishInput => ({ self with finishedInput := true }, .done)
    | .produce dst => self.decodeInto dst

/-- a call that decodes keeps the input -/
theorem decodeInto_keeps (self : Session) (dst : List UInt8) :
    (self.decodeInto dst).1.input = self.input ∧ (self.decodeInto dst).1.finishedInput = self.finishedInput := by
  unfold decodeInto
  split_ifs <;> exact ⟨rfl, rfl⟩

/-- a call with buffer `dst` meets an EOS opcode with bad padding in the input -/
def Trips (self : Session) (dst : List UInt8) : Prop :=
  self.finished = false ∧ (scan (Cursor.start self.input)).2 = .eos ∧
    ¬ padOk ((scan (Cursor.start self.input)).1.bytes.drop 1) ∧
    (scan (Cursor.start self.input)).1.win.out.length < self.delivered + dst.length

instance (self : Session) (dst : List UInt8) : Decidable (self.Trips dst) :=
  inferInstanceAs (Decidable (_ ∧ _ ∧ _ ∧ _))

end Session

/-- the session that a decoder of the code stands for -/
structure Stands (s : RawDecoder) (p : Session) : Prop where
  tracks : Tracks s p.input
  delivered : s.history.length = p.delivered
  finishedInput : s.finishedInput = p.finishedInput
  finished : s.finished = p.finished

/-- a call that trips a decoder trips its session -/
theorem Stands.trips {p : Session} (h : Stands s p) (ht : Trips s (.produce dst)) : p.Trips dst := by
  obtain ⟨-, unfinished, eos, bad, room⟩ := ht
  cases h.tracks with
  | finished _ done =>
    rw [unfinished] at done
    cases done
  | running _ _ _ hscan =>
    have hresume := hscan []
    rw [Cursor.more_nil, List.append_nil] at hresume
    rw [hresume] at eos bad room
    exact ⟨h.finished.symm.trans unfinished, eos, bad, h.delivered ▸ room⟩

/-- a finished decoder answers by the padding -/
theorem Stands.finished_reply {p : Session} (h : Stands s p) (hf : s.finished = true) (dst : List UInt8) :
    Stands (machine.step s (.produce dst)).1 (p.decodeInto dst).1 ∧
      Agree (machine.step s (.produce dst)).2 (p.decodeInto dst).2 := by
  have hdone : p.finished = true := h.finished.symm.trans hf
  cases h.tracks with
  | running _ unfinished => rw [hf] at unfinished; cases unfinished
  | @finished t _ _ scan _ clean bad =>
    have hplain : p.decodeInto dst = (p, (ending p.finishedInput t .eos).reply [] dst) := by
      rw [Session.decodeInto, scan]
      simp only [hdone, ite_true]
    rw [hplain]
    by_cases htrail : s.trailingAfterFinish = 0
    · have hstep : machine.step s (.produce dst) = (s, .progress ⟨0, .finished⟩ dst) := answer_finished htrail hf dst
      obtain ⟨hpad, -⟩ := clean htrail
      rw [hstep, ending, streamError, finishError_none.2 hpad]
      exact ⟨h, .of_eq rfl⟩
    · have hstep : machine.step s (.produce dst) = (s, .failed (.err (.trailingData s.trailingAfterFinish))) :=
        answer_trailing htrail dst
      obtain ⟨n, hn⟩ := finishError_some (bad htrail)
      rw [hstep, ending, streamError, hn]
      exact ⟨h, .inr ⟨_, _, rfl, rfl⟩⟩

/-- **Every call** that does not trip keeps a decoder in step with its session. -/
theorem step_stands {p : Session} (h : Stands s p) (c : Call) (ht : ¬ Trips s c) :
    Stands (machine.step s c).1 (Session.machine.step p c).1 ∧
      Agree (machine.step s c).2 (Session.machine.step p c).2 := by
  have htracks := step_tracks h.tracks ht
  cases c with
  | feed input =>
    obtain ⟨hhist, hopen⟩ := feed_keeps input s
    have hfin : (feed input s).finished = s.finished := feed_finished input s
    exact ⟨⟨htracks, (congrArg _ hhist).trans h.delivered, hopen.trans h.finishedInput, hfin.trans h.finished⟩, .of_eq rfl⟩
  | finishInput =>
    have hnil : p.input ++ Call.finishInput.fed = p.input := List.append_nil _
    rw [hnil] at htracks
    exact ⟨⟨htracks, h.delivered, rfl, h.finished⟩, .of_eq rfl⟩
  | produce dst =>
    have hnil : p.input ++ (Call.produce dst).fed = p.input := List.append_nil _
    rw [hnil] at htracks
    cases hf : s.finished with
    | true => exact h.finished_reply hf dst
    | false =>
      have hdone : p.finished = false := h.finished.symm.trans hf
      rcases hq : scan (Cursor.start p.input) with ⟨t, v⟩
      have running : s.trailingAfterFinish = 0 ∧ scan s.resume = (t, v) := by
        cases h.tracks with
        | running _ _ clean scan =>
          have hscan := scan []
          rw [Cursor.more_nil, List.append_nil] at hscan
          exact ⟨clean, hscan.trans hq⟩
        | finished _ done => rw [hf] at done; cases done
      have ha := decodeInto_answers h.tracks.ok running.1 hf running.2 dst
      have hstep : machine.step s (.produce dst) = replied (decodeInto.run (s, dst)) := rfl
      have hplain : Session.machine.step p (.produce dst) = ({ p with
          delivered := p.delivered + ((t.win.out.drop p.delivered).take dst.length).length
          finished := (t.win.out.drop p.delivered).length < dst.length ∧ ending p.finishedInput t v = .finished },
          replyTo (t.win.out.drop p.delivered) (ending p.finishedInput t v) dst) := by
        show p.decodeInto dst = _
        rw [Session.decodeInto, hq]
        simp only [hdone, Bool.false_eq_true, ite_false]
      obtain ⟨hopen, hfin⟩ := ha.flags hf
      have hreply := ha.reply_eq
      have hhist := ha.history_eq
      rw [hstep] at htracks
      rw [hstep, hplain]
      generalize replied (decodeInto.run (s, dst)) = x at htracks hopen hfin hreply hhist ⊢
      refine ⟨⟨htracks, ?_, hopen.trans h.finishedInput, ?_⟩, .of_eq ?_⟩
      · rw [hhist, List.length_append, h.delivered]
      · rw [Bool.eq_iff_iff, hfin, decide_eq_true_iff, h.delivered, h.finishedInput]
      · rw [hreply, h.delivered, h.finishedInput]

/-- **The decoder refines the plain one.** In every run that feeds no more than `usize::MAX` bytes and in which no call trips, it
replies as a decoder does that keeps all of its input and decodes it anew at each call. So the calls before matter only by what
they fed, whether they ended the input, how many bytes they delivered and whether one of them met the end marker. -/
theorem run_refines (u : Usize) (calls : List Call) (hlen : (fed calls).length ≤ u.max)
    (h : (machineOn u).Along (fun s c => ¬ Trips s c) new calls) :
    List.Forall₂ Agree ((machineOn u).replies new calls) (Session.machine.replies Session.new calls) := by
  rw [(run_on_eq calls hlen).2]
  rw [along_on_iff calls hlen] at h
  exact (machine.simulates Session.machine Stands (fun _ _ c hs ht => step_stands hs c ht) calls
    ⟨tracks_new, rfl, rfl, rfl⟩ h).2

/-- the hypotheses hold of a run that feeds in two parts, draws byte by byte and meets the end -/
theorem two_feeds_refine : List.Forall₂ Agree
    ((machineOn .bits64).replies new
      [.feed [0xE2, 0x61], .produce [0], .feed [0x62, 0x06], .produce [0], .produce [0, 0], .produce []])
    (Session.machine.replies Session.new
      [.feed [0xE2, 0x61], .produce [0], .feed [0x62, 0x06], .produce [0], .produce [0, 0], .produce []]) :=
  run_refines .bits64 _ (by decide) (by decide +kernel)

end RawDecoder

end Lzvn.Raw
