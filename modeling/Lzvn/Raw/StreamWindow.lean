/-
How much of its history the incremental decoder needs. The code keeps all of its output; the distances of the format do not
reach back more than 65,535 bytes, and what stands in front of that many never decides a reply.

- `Near`, `run_near`: the distances of a decoder, in every run.
- `scan_shares`: scans from windows that share their last 65,535 bytes.
- `Alike`, `step_alike`: decoders that no call tells apart.
- `window_suffices`: any other history of the same length with the same end gives the same replies.
-/
import Lzvn.Core.Maintains
import Lzvn.Core.Reach
import Lzvn.Raw.Concat
import Lzvn.Raw.StreamReply

namespace Lzvn.Raw

open Lzvn.Core Lzvn.Core.Lz77

/-- the furthest that an instruction reaches back -/
def maxReach : ℕ := 65535

/-- the distance that an instruction gives has at most sixteen bits -/
theorem Encodes.within {bytes : List UInt8} {s : Step UInt8} (h : Encodes bytes s) : s.Within maxReach := by
  obtain ⟨op, header, kind, -, -, -, -, hann⟩ := h
  intro n e hcopy
  have h1 := byteOr0_lt (op :: header) 1
  have h2 := byteOr0_lt (op :: header) 2
  rw [announces, hcopy] at hann
  generalize byteOr0 (op :: header) 1 = second at hann h1
  generalize byteOr0 (op :: header) 2 = third at hann h2
  unfold maxReach
  cases kind <;> simp only [fields, Prod.mk.injEq, Option.some.injEq, Reach.explicit.injEq, reduceCtorEq, and_false] at hann <;>
    omega

/-- scans that stop at one place with one verdict, with the same output behind `out` and `out'` -/
def ScansAlike (out out' : List UInt8) (x y : Cursor × Verdict) : Prop :=
  ∃ pos bytes w w' v l, x = (⟨pos, bytes, w⟩, v) ∧ y = (⟨pos, bytes, w'⟩, v) ∧ w.out = out ++ l ∧ w'.out = out' ++ l ∧
    Shares maxReach w w'

/-- some of the output that is still to come may be taken for history -/
theorem ScansAlike.behind {out out' a : List UInt8} {x y : Cursor × Verdict} (h : ScansAlike out out' x y)
    (hle : out ++ a <+: x.1.win.out) : ScansAlike (out ++ a) (out' ++ a) x y := by
  obtain ⟨pos, bytes, w, w', v, l, rfl, rfl, hout, hout', hshares⟩ := h
  obtain ⟨m, hm⟩ := hle
  have hl : l = a ++ m := by
    have hsame : out ++ l = out ++ (a ++ m) := by rw [← hout, ← List.append_assoc, hm]
    exact List.append_cancel_left hsame
  refine ⟨pos, bytes, w, w', v, m, rfl, rfl, hm.symm, ?_, hshares⟩
  rw [hout', hl, List.append_assoc]

theorem ScansAlike.front {out out' a : List UInt8} {x y : Cursor × Verdict} (h : ScansAlike (out ++ a) (out' ++ a) x y) :
    ScansAlike out out' x y := by
  obtain ⟨pos, bytes, w, w', v, l, hx, hy, hout, hout', hshares⟩ := h
  exact ⟨pos, bytes, w, w', v, a ++ l, hx, hy, hout.trans (List.append_assoc _ _ _), hout'.trans (List.append_assoc _ _ _),
    hshares⟩

/-- **Scans from windows that share their end** go through the same instructions. -/
theorem scan_shares (pos : ℕ) (bytes : List UInt8) {w w' : Window UInt8} (h : Shares maxReach w w') :
    ScansAlike w.out w'.out (scan ⟨pos, bytes, w⟩) (scan ⟨pos, bytes, w'⟩) := by
  induction hn : bytes.length using Nat.strong_induction_on generalizing pos bytes w w' with
  | _ n ih =>
    subst hn
    have stop {v : Verdict} (h1 : scanRound ⟨pos, bytes, w⟩ = .leave (⟨pos, bytes, w⟩, v))
        (h2 : scanRound ⟨pos, bytes, w'⟩ = .leave (⟨pos, bytes, w'⟩, v)) :
        ScansAlike w.out w'.out (scan ⟨pos, bytes, w⟩) (scan ⟨pos, bytes, w'⟩) :=
      ⟨pos, bytes, w, w', v, [], scan_leave h1, scan_leave h2, (List.append_nil _).symm, (List.append_nil _).symm, h⟩
    cases hf : fetch bytes with
    | short => exact stop (v := .short) (by simp only [scanRound, hf]) (by simp only [scanRound, hf])
    | invalid op => exact stop (v := .invalidOpcode op) (by simp only [scanRound, hf]) (by simp only [scanRound, hf])
    | eos => exact stop (v := .eos) (by simp only [scanRound, hf]) (by simp only [scanRound, hf])
    | instr k s =>
      obtain ⟨hpos, hle, henc⟩ := fetch_encodes hf
      rcases apply_shares h henc.within with ⟨h1, h2⟩ | ⟨w1, w1', l, h1, h2, hout, hout', hshares⟩
      · exact stop (v := .badDistance s) (by simp only [scanRound, hf, h1]) (by simp only [scanRound, hf, h2])
      · obtain ⟨pos', bytes', w2, w2', v, l', hs, hs', hout2, hout2', hshares2⟩ :=
          ih (bytes.drop k).length (by rw [List.length_drop]; omega) (pos + k) (bytes.drop k) hshares rfl
        have hgo : scan ⟨pos, bytes, w⟩ = scan ⟨pos + k, bytes.drop k, w1⟩ := scan_instr hf h1
        have hgo' : scan ⟨pos, bytes, w'⟩ = scan ⟨pos + k, bytes.drop k, w1'⟩ := scan_instr hf h2
        refine ⟨pos', bytes', w2, w2', v, l ++ l', hgo.trans hs, hgo'.trans hs', ?_, ?_, hshares2⟩
        · rw [hout2, hout, List.append_assoc]
        · rw [hout2', hout', List.append_assoc]

theorem streamError_shares {pos : ℕ} {bytes : List UInt8} {w w' : Window UInt8} (h : Shares maxReach w w') (v : Verdict) :
    streamError ⟨pos, bytes, w⟩ v = streamError ⟨pos, bytes, w'⟩ v := by
  have hlen := h.length_eq
  have hlast : w.last = w'.last := by
    obtain ⟨_, _, _, -, -, -, -, hlast, -⟩ := h
    exact hlast
  cases v with
  | badDistance s => simp only [streamError, Step.distance, hlen, hlast]
  | _ => rfl

namespace RawDecoder

/-! ## Distances -/

/-- the distances of the decoder are in reach -/
def Near (s : RawDecoder) : Prop := s.previousDistance ≤ maxReach ∧ s.pending.distance ≤ maxReach

/-- a computed value leaves the state alone -/
theorem endState_lift {σ α : Type} (x : Except Stop α) (s : σ) :
    endState (EStateM.run (liftM x : EStateM Stop σ α) s) = s := by
  cases x <;> rfl

theorem compactInput_near : Maintains Near compactInput :=
  .get_bind fun _ hs => .ite (fun _ => .pure _) fun _ => .read_bind (endState_lift _) fun _ => .set hs

theorem compactInputIfNecessary_near : Maintains Near compactInputIfNecessary :=
  .get_bind fun _ _ => .ite (fun _ => compactInput_near) fun _ => .pure _

theorem validateDistance_near (distance available : ℕ) : Maintains Near (validateDistance distance available) :=
  .ite (fun _ => .throw _) fun _ => .pure _

theorem prepareLiteralOnly_near (h k : ℕ) : Maintains Near (prepareLiteralOnly h k) :=
  .modify fun _ hs => ⟨hs.1, Nat.zero_le _⟩

theorem prepareMatchOnly_near (h m : ℕ) {d : ℕ} (hd : d ≤ maxReach) : Maintains Near (prepareMatchOnly h m d) := by
  refine .get_bind fun s _ => .bind (validateDistance_near _ _) fun _ => ?_
  exact .bind (.modify fun _ _ => ⟨hd, hd⟩) fun _ => compactInputIfNecessary_near

theorem prepareLiteralAndMatch_near (h k m : ℕ) {d : ℕ} (hd : d ≤ maxReach) :
    Maintains Near (prepareLiteralAndMatch h k m d) :=
  .get_bind fun _ _ => .bind (validateDistance_near _ _) fun _ => .modify fun _ _ => ⟨hd, hd⟩

theorem ensureBuffered_near (needed : ℕ) : Maintains Near (ensureBuffered needed) :=
  .get_bind fun _ _ => .ite (fun _ => .pure _) fun _ => .ite (fun _ => .throw _) fun _ => .pure _

theorem consumeEos_near : Maintains Near consumeEos := by
  refine .bind (.modify fun _ hs => hs) fun _ => .get_bind fun s hs => .read_bind (endState_lift _) fun padding => ?_
  refine .ite (fun _ => .throw _) fun _ => .ite (fun _ => .throw _) fun _ => ?_
  exact .bind (.set hs) fun _ => compactInput_near

theorem copyPendingLiteral_near : Maintains (fun t : Target => t.1.Near) copyPendingLiteral := by
  refine .get_bind fun t ht => .read_bind (endState_lift _) fun bytes => .read_bind (endState_lift _) fun dst => ?_
  refine .read_bind (endState_lift _) fun literal => .bind (.set ht) fun _ => ?_
  refine .bind (fun t ht => ?_) fun _ => .pure _
  have hkeep := compactInputIfNecessary_near t.1 ht
  rw [onDecoder, run_zoom]
  cases hrun : compactInputIfNecessary.run t.1 <;> rwa [hrun] at hkeep

theorem copyPendingMatch_near : Maintains (fun t : Target => t.1.Near) copyPendingMatch :=
  .get_bind fun _ ht => .read_bind (endState_lift _) fun _ => .read_bind (endState_lift _) fun _ =>
    .bind (.set ht) fun _ => .pure _

/-- the locals of a call, on a decoder with its distances in reach -/
def NearLocals (c : Locals) : Prop := c.self.Near

theorem onSelf_near {α : Type} {m : Rust RawDecoder α} (h : Maintains Near m) : Maintains NearLocals (onSelf m) := by
  intro c hc
  have hkeep := h c.self hc
  rw [run_onSelf]
  cases hrun : m.run c.self <;> rwa [hrun] at hkeep

theorem onRest_near {α : Type} {m : Rust Target α} (h : Maintains (fun t : Target => t.1.Near) m) :
    Maintains NearLocals (onRest m) := by
  refine .get_bind fun _ _ => .read_bind (endState_lift _) fun _ => fun c hc => ?_
  have hkeep := h (c.self, c.dst.drop c.written) hc
  rw [run_zoom]
  cases hrun : m.run (c.self, c.dst.drop c.written) <;> rwa [hrun] at hkeep

/-- an arm that waits for more bytes or goes on -/
theorem ensure_near (needed : ℕ) {rest : Rust Locals (Option StreamStatus)} (h : Maintains NearLocals rest) :
    Maintains NearLocals (do
      if !(← onSelf (ensureBuffered needed)) then return some .needInput
      rest) :=
  .bind (onSelf_near (ensureBuffered_near needed)) fun _ => .ite (fun _ => .pure _) fun _ => h

/-- an arm that prepares an instruction -/
theorem prepare_near {m : Rust RawDecoder Unit} (h : Maintains Near m) :
    Maintains NearLocals (do onSelf m; return none : Rust Locals (Option StreamStatus)) :=
  .bind (onSelf_near h) fun _ => .pure _

/-- **One round** keeps the distances in reach: those in the input are, and the last one was. -/
theorem round_near : Maintains NearLocals round := by
  refine .get_bind fun c hc => .ite (fun _ => .pure _) fun _ => .ite (fun _ => ?_) fun _ => .ite (fun _ => ?_) fun _ =>
    .ite (fun _ => ?_) fun _ => ?_
  · refine .bind (onRest_near copyPendingLiteral_near) fun _ => .bind (.modify fun _ h => h) fun _ => ?_
    exact .get_bind fun _ _ => .ite (fun _ => .pure _) fun _ => .pure _
  · refine .bind (onRest_near copyPendingMatch_near) fun _ => .bind (.modify fun _ h => h) fun _ => ?_
    refine .get_bind fun _ _ => .ite (fun _ => .pure _) fun _ => .bind (onSelf_near (.modify fun _ h => ?_)) fun _ => .pure _
    exact ⟨h.1, Nat.zero_le _⟩
  · refine .bind (onSelf_near compactInput_near) fun _ => .ite (fun _ => ?_) fun _ => .pure _
    exact .get_bind fun _ _ => .throw _
  · refine .read_bind (endState_lift _) fun opcode => ?_
    cases classify opcode with
    | none => exact .throw _
    | some kind =>
      cases kind with
      | smallDistance =>
        refine ensure_near _ (ensure_near _ (.read_bind (endState_lift _) fun second => prepare_near ?_))
        refine prepareLiteralAndMatch_near _ _ _ ?_
        have := second.toNat_lt
        rw [byte_and7, shl_or (by omega), maxReach]
        omega
      | mediumDistance =>
        refine ensure_near _ (ensure_near _ (.read_bind (endState_lift _) fun second =>
          .read_bind (endState_lift _) fun third => prepare_near (prepareLiteralAndMatch_near _ _ _ ?_)))
        have := second.toNat_lt
        have := third.toNat_lt
        rw [medium_distance, maxReach]
        omega
      | largeDistance =>
        refine ensure_near _ (ensure_near _ (.read_bind (endState_lift _) fun second =>
          .read_bind (endState_lift _) fun third => prepare_near (prepareLiteralAndMatch_near _ _ _ ?_)))
        have := second.toNat_lt
        have := third.toNat_lt
        rw [maxReach]
        omega
      | previousDistance => exact ensure_near _ (prepare_near (prepareLiteralAndMatch_near _ _ _ hc.1))
      | smallLiteral => exact ensure_near _ (prepare_near (prepareLiteralOnly_near _ _))
      | largeLiteral =>
        exact ensure_near _ (.read_bind (endState_lift _) fun _ => ensure_near _ (prepare_near (prepareLiteralOnly_near _ _)))
      | smallMatch => exact prepare_near (prepareMatchOnly_near _ _ hc.1)
      | largeMatch => exact ensure_near _ (.read_bind (endState_lift _) fun _ => prepare_near (prepareMatchOnly_near _ _ hc.1))
      | nop => exact .bind (onSelf_near (.modify fun _ h => h)) fun _ => prepare_near compactInputIfNecessary_near
      | eos =>
        exact .bind (onSelf_near consumeEos_near) fun _ => .bind (onSelf_near (.modify fun _ h => h)) fun _ => .pure _

/-- **The distances of a decoder are in reach** in every run. -/
theorem run_near (calls : List Call) : (machine.run new calls).Near := by
  refine machine.run_inv Near (fun s c hs => ?_) new ⟨Nat.zero_le _, Nat.zero_le _⟩ calls
  cases c with
  | feed input =>
    show (feed input s).Near
    unfold feed feedWith
    split_ifs <;> exact hs
  | finishInput => exact hs
  | produce dst =>
    show (answer decodeInto s dst).1.Near
    by_cases htrail : s.trailingAfterFinish = 0
    · cases hf : s.finished with
      | true => rwa [answer_finished htrail hf]
      | false =>
        have hloop := Maintains.loop round_near measure round_falls ⟨s, dst, 0⟩ hs
        rw [answer_running htrail hf]
        change NearLocals (endState (loop.run ⟨s, dst, 0⟩)) at hloop
        cases hrun : loop.run ⟨s, dst, 0⟩ <;> rwa [hrun] at hloop
    · rwa [answer_trailing htrail]

/-! ## Decoders that no call tells apart -/

/-- what a decoder keeps beside its buffer, its history and its pending work -/
def flags (s : RawDecoder) : Bool × Bool × ℕ × ℕ := (s.finishedInput, s.finished, s.eosPadding, s.trailingAfterFinish)

theorem Keeps.flags_eq {s s' : RawDecoder} (h : Keeps s s') : s'.flags = s.flags := by
  simp only [flags, h.finishedInput, h.finished, h.eosPadding, h.trailingAfterFinish]

/-- decoders with the same flags, and the same scan in front of whatever is still to be fed -/
structure Alike (s s' : RawDecoder) : Prop where
  ok : s.Ok
  ok' : s'.Ok
  flags : s.flags = s'.flags
  scans : s.finished = false → ∀ more,
    ScansAlike s.history s'.history (scan (s.resume.more more)) (scan (s'.resume.more more))

/-- decoders that have finished are alike when their flags are the same -/
theorem Alike.of_finished {s s' : RawDecoder} (hs : s.Ok) (hs' : s'.Ok) (h : s.flags = s'.flags)
    (hf : s.finished = true) : Alike s s' :=
  ⟨hs, hs', h, fun hrun => absurd (hf.symm.trans hrun) (by simp)⟩

theorem feed_flags {s : RawDecoder} (h : s.finished = true) {input : List UInt8} (hne : input ≠ []) :
    (feed input s).flags = if input.all (· = 0) ∧ s.eosPadding + input.length ≤ maxEosPadding then
        (s.finishedInput, true, s.eosPadding + input.length, s.trailingAfterFinish)
      else (s.finishedInput, true, s.eosPadding, s.trailingAfterFinish + input.length) := by
  unfold feed feedWith
  rw [if_neg hne, if_pos h]
  split_ifs <;> simp only [flags, h]

theorem Alike.feed {s s' : RawDecoder} (h : Alike s s') (input : List UInt8) :
    Alike (feed input s) (feed input s') := by
  have hflags := h.flags
  simp only [RawDecoder.flags, Prod.mk.injEq] at hflags
  obtain ⟨hopen, hfin, hpad, htrail⟩ := hflags
  by_cases hnil : input = []
  · subst hnil
    exact h
  cases hf : s.finished with
  | false =>
    have hf' : s'.finished = false := hfin.symm.trans hf
    have hok := ok_feed h.ok input
    have hok' := ok_feed h.ok' input
    rw [feed_running hf] at hok ⊢
    rw [feed_running hf'] at hok' ⊢
    refine ⟨hok, hok', h.flags, fun _ more => ?_⟩
    rw [resume_feed h.ok, resume_feed h.ok', Cursor.more_more, Cursor.more_more]
    exact h.scans hf _
  | true =>
    have hf' : s'.finished = true := hfin.symm.trans hf
    have hsame : (RawDecoder.feed input s).flags = (RawDecoder.feed input s').flags := by
      rw [feed_flags hf hnil, feed_flags hf' hnil, hopen, hpad, htrail]
    refine .of_finished (ok_feed h.ok input) (ok_feed h.ok' input) hsame ?_
    have hflag : (RawDecoder.feed input s).flags.2.1 = true := by
      rw [feed_flags hf hnil]
      split_ifs <;> rfl
    exact hflag

/-- what a call with a buffer leaves is alike -/
theorem Alike.after {s s' s1 s1' : RawDecoder} {pos : ℕ} {bytes left dst : List UInt8} {w w' : Window UInt8} {v : Verdict}
    (h : Alike s s') (hf : s.finished = false) (hw : w.out = s.history ++ left) (hw' : w'.out = s'.history ++ left)
    (hshares : Shares maxReach w w')
    (ha : if left.length < dst.length ∧ v = .eos then
        match finishError (bytes.drop 1) with
        | none => Finishes s s1 left (bytes.drop 1)
        | some _ => Skips s s1 left ⟨pos, bytes, w⟩
      else Continues s s1 (left.take dst.length))
    (ha' : if left.length < dst.length ∧ v = .eos then
        match finishError (bytes.drop 1) with
        | none => Finishes s' s1' left (bytes.drop 1)
        | some _ => Skips s' s1' left ⟨pos, bytes, w'⟩
      else Continues s' s1' (left.take dst.length)) : Alike s1 s1' := by
  split_ifs at ha ha' with hend
  · cases hpad : finishError (bytes.drop 1) with
    | none =>
      rw [hpad] at ha ha'
      refine .of_finished ha.ok ha'.ok ?_ ha.finished
      have hflags := h.flags
      simp only [RawDecoder.flags, Prod.mk.injEq] at hflags ⊢
      rw [ha.finishedInput, ha'.finishedInput, ha.finished, ha'.finished, ha.eosPadding, ha'.eosPadding,
        ha.trailingAfterFinish, ha'.trailingAfterFinish]
      exact ⟨hflags.1, rfl, rfl, hflags.2.2.2⟩
    | some e =>
      rw [hpad] at ha ha'
      refine ⟨ha.ok, ha'.ok, ha.keeps.flags_eq.trans (h.flags.trans ha'.keeps.flags_eq.symm), fun _ more => ?_⟩
      rw [ha.resume, ha'.resume, ha.history, ha'.history, ← hw, ← hw']
      exact scan_shares _ _ hshares
  · refine ⟨ha.ok, ha'.ok, ha.keeps.flags_eq.trans (h.flags.trans ha'.keeps.flags_eq.symm), fun _ more => ?_⟩
    rw [ha.scan, ha'.scan, ha.history, ha'.history]
    refine (h.scans hf more).behind ?_
    -- what is out stays in front of whatever the scan goes on to
    rw [← ha.history, ← ha.scan]
    exact (history_le_resume s1).trans (le_scan (s1.resume.more more))

/-- replies that are made of the same output and the same ending -/
theorem replyTo_matches {dst dst' : List UInt8} (hlen : dst.length = dst'.length) (left : List UInt8) (e : Ending) :
    (replyTo left e dst).Matches (replyTo left e dst') := by
  unfold replyTo
  rw [hlen]
  split_ifs with hroom
  · exact ⟨rfl, rfl⟩
  · cases e with
    | failed e => rfl
    | _ => exact ⟨rfl, by rw [List.take_left, List.take_left]⟩

/-- a call with a buffer leaves alike decoders alike, whatever is in the buffer, and adds the same output to their histories -/
theorem answer_alike {s s' : RawDecoder} (h : Alike s s') {dst dst' : List UInt8} (hlen : dst.length = dst'.length) :
    Alike (answer decodeInto s dst).1 (answer decodeInto s' dst').1 ∧
      (answer decodeInto s dst).2.Matches (answer decodeInto s' dst').2 ∧
      ∃ out, (answer decodeInto s dst).1.history = s.history ++ out ∧ (answer decodeInto s' dst').1.history = s'.history ++ out := by
  have hflags := h.flags
  simp only [RawDecoder.flags, Prod.mk.injEq] at hflags
  obtain ⟨hopen, hfin, hpad, htrail⟩ := hflags
  by_cases hbad : s.trailingAfterFinish = 0
  · cases hf : s.finished with
    | true =>
      rw [answer_finished hbad hf, answer_finished (htrail.symm.trans hbad) (hfin.symm.trans hf)]
      exact ⟨h, ⟨rfl, rfl⟩, [], (List.append_nil _).symm, (List.append_nil _).symm⟩
    | false =>
      obtain ⟨pos, bytes, w, w', v, left, hscan, hscan', hout, hout', hshares⟩ := h.scans hf []
      rw [Cursor.more_nil] at hscan hscan'
      have ha := decodeInto_answers h.ok hbad hf hscan dst
      have ha' := decodeInto_answers h.ok' (htrail.symm.trans hbad) (hfin.symm.trans hf) hscan' dst'
      have hreply := ha.reply_eq
      have hreply' := ha'.reply_eq
      have hafter := ha.after
      have hafter' := ha'.after
      have hhist := ha.history_eq
      have hhist' := ha'.history_eq
      dsimp only at hreply hreply' hafter hafter' hhist hhist'
      rw [hout, List.drop_left] at hreply hafter hhist
      rw [hout', List.drop_left] at hreply' hafter' hhist'
      rw [← hlen] at hafter' hhist'
      refine ⟨h.after hf hout hout' hshares hafter hafter', ?_, _, hhist, hhist'⟩
      have hending : ending s'.finishedInput ⟨pos, bytes, w'⟩ v = ending s.finishedInput ⟨pos, bytes, w⟩ v := by
        rw [ending, ending, streamError_shares hshares, hopen]
      rw [answer, answer, hreply, hreply', hending]
      exact replyTo_matches hlen _ _
  · rw [answer_trailing hbad, answer_trailing (htrail ▸ hbad), htrail]
    exact ⟨h, rfl, [], (List.append_nil _).symm, (List.append_nil _).symm⟩

theorem Alike.finishInput {s s' : RawDecoder} (h : Alike s s') : Alike s.finishInput s'.finishInput := by
  have hflags := h.flags
  simp only [RawDecoder.flags, Prod.mk.injEq] at hflags
  obtain ⟨-, hfin, hpad, htrail⟩ := hflags
  refine ⟨⟨h.ok.offset_le, h.ok.literal_le, h.ok.reach⟩, ⟨h.ok'.offset_le, h.ok'.literal_le, h.ok'.reach⟩, ?_, h.scans⟩
  show (true, s.finished, s.eosPadding, s.trailingAfterFinish) = (true, s'.finished, s'.eosPadding, s'.trailingAfterFinish)
  rw [hfin, hpad, htrail]

/-- **Every call** leaves alike decoders alike, and gets the same reply from them. -/
theorem step_alike {s s' : RawDecoder} (h : Alike s s') (c : Call) :
    Alike (machine.step s c).1 (machine.step s' c).1 ∧ (machine.step s c).2 = (machine.step s' c).2 := by
  cases c with
  | feed input => exact ⟨h.feed input, rfl⟩
  | finishInput => exact ⟨h.finishInput, rfl⟩
  | produce dst =>
    obtain ⟨hafter, hmatches, -⟩ := answer_alike h (Eq.refl dst.length)
    exact ⟨hafter, hmatches.eq (step_frames h.ok dst) (step_frames h.ok' dst)⟩

/-! ## Another history -/

/-- the history behind a window with another front of the same length -/
theorem shares_history {h h' : List UInt8} (hlen : h'.length = h.length)
    (hend : h'.drop (h'.length - maxReach) = h.drop (h.length - maxReach)) {d : ℕ} (hd : d ≤ maxReach) :
    Shares maxReach ⟨h, d⟩ ⟨h', d⟩ := by
  refine ⟨h.take (h.length - maxReach), h'.take (h'.length - maxReach), h.drop (h.length - maxReach),
    (List.take_append_drop _ _).symm, ?_, ?_, ?_, rfl, hd⟩
  · rw [← hend, List.take_append_drop]
  · rw [List.length_take, List.length_take, hlen]
  · rw [List.length_drop]
    by_cases hle : h.length ≤ maxReach
    · left
      rw [Nat.sub_eq_zero_of_le hle, List.take_zero]
    · right
      omega

/-- a decoder with another history of the same length and with the same end -/
theorem alike_history {s : RawDecoder} (hs : s.Ok) (hnear : s.Near) {h : List UInt8} (hlen : h.length = s.history.length)
    (hend : h.drop (h.length - maxReach) = s.history.drop (s.history.length - maxReach)) :
    Alike s { s with history := h } := by
  have hs' : ({ s with history := h } : RawDecoder).Ok := by
    refine ⟨hs.offset_le, hs.literal_le, fun hne => ?_⟩
    show 1 ≤ s.pending.distance ∧ s.pending.distance ≤ h.length + s.pending.literal
    rw [hlen]
    exact hs.reach hne
  refine ⟨hs, hs', rfl, fun _ more => ?_⟩
  have hlits := (shares_history hlen hend hnear.1).append (s.unread.take s.pending.literal) hnear.1
  have hlen' : (s.history ++ s.unread.take s.pending.literal).length = s.history.length + s.pending.literal := by
    have := hs.literal_le
    rw [List.length_append, List.length_take, length_unread]
    omega
  -- the pending work is out of both histories
  obtain ⟨m, hout, hout', hshares⟩ : ∃ m, s.resume.win.out = s.history ++ m ∧
      ({ s with history := h } : RawDecoder).resume.win.out = h ++ m ∧
      Shares maxReach s.resume.win ({ s with history := h } : RawDecoder).resume.win := by
    by_cases hcopy : s.pending.copy = 0
    · refine ⟨s.unread.take s.pending.literal, ?_, ?_, ?_⟩
      · simp only [resume, hcopy, copyBack]
      · simp only [resume, unread, hcopy, copyBack]
      · simp only [resume, unread, hcopy, copyBack]
        exact hlits
    · obtain ⟨h1, h2⟩ := hs.reach hcopy
      obtain ⟨m, hm, hm'⟩ := hlits.copyBack s.pending.copy h1 hnear.2 (h2.trans hlen'.ge)
      dsimp only at hm hm'
      refine ⟨s.unread.take s.pending.literal ++ m, ?_, ?_, ?_⟩
      · rw [resume, hm, List.append_assoc]
      · simp only [resume]
        exact hm'.trans (List.append_assoc _ _ _)
      · simp only [resume]
        rw [hm]
        refine Eq.mp (congrArg (fun l => Shares maxReach _ ⟨l, _⟩) hm'.symm) ?_
        exact hlits.append m hnear.1
  have hscans := scan_shares s.resume.pos (s.resume.bytes ++ more) hshares
  rw [hout, hout'] at hscans
  exact hscans.front

theorem alike_new : Alike new new := alike_history ok_new ⟨Nat.zero_le _, Nat.zero_le _⟩ rfl rfl

/-- runs of calls that match -/
theorem run_matches {calls calls' : List Call} (h : List.Forall₂ Call.Matches calls calls') :
    List.Forall₂ Reply.Matches (machine.replies new calls) (machine.replies new calls') := by
  refine (machine.relates machine Alike (fun s s' c c' hs hc => ?_) h alike_new).2
  cases c with
  | feed input =>
    cases hc
    exact ⟨hs.feed input, rfl⟩
  | finishInput =>
    cases hc
    exact ⟨hs.finishInput, rfl⟩
  | produce dst =>
    cases c' with
    | feed input => cases hc
    | finishInput => cases hc
    | produce dst' =>
      obtain ⟨hafter, hmatches, -⟩ := answer_alike hs hc
      exact ⟨hafter, hmatches⟩

/-- **The last 65,535 bytes of the history suffice.** Wherever a run has come to, any other history of the same length
that ends with the same 65,535 bytes gives the same replies to all calls that follow. -/
theorem window_suffices (calls later : List Call) (h : List UInt8)
    (hlen : h.length = (machine.run new calls).history.length)
    (hend : h.drop (h.length - maxReach) =
      (machine.run new calls).history.drop ((machine.run new calls).history.length - maxReach)) :
    machine.replies { machine.run new calls with history := h } later = machine.replies (machine.run new calls) later :=
  (machine.replies_eq Alike (fun _ _ c hs => step_alike hs c) later
    (alike_history (run_ok calls) (run_near calls) hlen hend)).symm

/-- a decoder that was fed what `encode` returns, and called with a buffer of the length of the source -/
theorem run_encoded (src dst : List UInt8) (h : dst.length = src.length) :
    (machine.run new [.feed (encodedBody src ++ eos), .produce dst]).history = src := by
  obtain ⟨w, -, hcodes, hw⟩ := encodedBody_codes src
  set s := feed (encodedBody src ++ eos) new with hs
  have hfed : s = { new with input := encodedBody src ++ eos } := feed_running rfl _
  have hresume : s.resume = Cursor.start (encodedBody src ++ eos) := by
    rw [resume_empty (by rw [hfed]; exact ⟨rfl, rfl⟩), hfed]
    rfl
  have heos : scanRound ⟨0 + (encodedBody src).length, eos, w⟩ = .leave (⟨0 + (encodedBody src).length, eos, w⟩, .eos) := rfl
  have hscan : scan s.resume = (⟨0 + (encodedBody src).length, eos, w⟩, .eos) := by
    rw [hresume]
    exact (scan_codes hcodes 0 eos).trans (scan_leave heos)
  have hhist := (decodeInto_answers (s := s) (ok_feed ok_new _) (by rw [hfed]; rfl) (by rw [hfed]; rfl) hscan dst).history_eq
  have hnew : s.history = [] := by rw [hfed]; rfl
  dsimp only at hhist
  rw [hnew, hw, List.nil_append, List.length_nil, List.drop_zero, List.take_of_length_le h.ge] at hhist
  exact hhist

/-- one byte past the reach: the first byte of the history may be any other -/
theorem first_byte_forgotten : ∃ calls, (machine.run new calls).history = 0 :: List.replicate maxReach 0 ∧
    ∀ later, machine.replies { machine.run new calls with history := 1 :: List.replicate maxReach 0 } later =
      machine.replies (machine.run new calls) later := by
  have hhist := run_encoded (0 :: List.replicate maxReach 0) (0 :: List.replicate maxReach 0) rfl
  refine ⟨_, hhist, fun later => window_suffices _ later _ ?_ ?_⟩
  · rw [hhist, List.length_cons, List.length_cons]
  · have hlen : (List.replicate maxReach (0 : UInt8)).length + 1 - maxReach = 1 := by
      rw [List.length_replicate, Nat.add_sub_cancel_left]
    rw [hhist, List.length_cons, List.length_cons, hlen]
    rfl

end RawDecoder

end Lzvn.Raw
