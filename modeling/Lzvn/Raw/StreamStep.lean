/-
What one call of `RawDecoder::decode_into` does, in terms of the scan of the grammar.

`Advances c c' delta` says that `c'` is `c` further on in the same call: `delta` has been written to the buffer and to
the history, and the cursor behind the pending work still scans the same. `Ends c r` says how a call may end at `c`.

- `round_goes`, `loop_ends`: a round advances or ends, so a call advances and then ends. No round panics.
- `decodeInto_answers`: with `t` where the scan from the decoder's cursor stops and `v` why, a call either fills its buffer
  with output that `t` has, or delivers all of `t`'s output and answers `v`.
-/
import Lzvn.Raw.StreamRound

namespace Lzvn.Raw

open Lzvn.Core Lzvn.Core.Lz77

namespace RawDecoder

/-- `c'` is `c` with `delta` delivered -/
structure Advances (c c' : Locals) (delta : List UInt8) : Prop where
  written : c'.written = c.written + delta.length
  written_le : c'.written ≤ c.dst.length
  dst : c'.dst = c.dst.take c.written ++ delta ++ c.dst.drop (c.written + delta.length)
  history : c'.self.history = c.self.history ++ delta
  ok : c'.self.Ok
  keeps : Keeps c.self c'.self
  scan : ∀ more, scan (c'.self.resume.more more) = scan (c.self.resume.more more)

theorem Advances.refl {c : Locals} (hs : c.self.Ok) (hw : c.written ≤ c.dst.length) : Advances c c [] :=
  ⟨by simp, hw, by simp, by simp, hs, .refl _, fun _ => rfl⟩

theorem Advances.length_dst {c c' : Locals} {delta : List UInt8} (h : Advances c c' delta) :
    c'.dst.length = c.dst.length := by
  have hw := h.written
  have hle := h.written_le
  rw [h.dst]
  simp only [List.length_append, List.length_take, List.length_drop]
  omega

theorem Advances.trans {c c' c'' : Locals} {a b : List UInt8} (h1 : Advances c c' a) (h2 : Advances c' c'' b) :
    Advances c c'' (a ++ b) := by
  have hw1 := h1.written
  have hle := h1.written_le
  have hw2 := h2.written
  have hle2 := h2.written_le
  rw [h1.length_dst] at hle2
  have htake : (c.dst.take c.written ++ a).length = c'.written := by
    rw [List.length_append, List.length_take]; omega
  refine ⟨by rw [List.length_append]; omega, hle2, ?_, by rw [h2.history, h1.history, List.append_assoc], h2.ok,
    h1.keeps.trans h2.keeps, fun more => (h2.scan more).trans (h1.scan more)⟩
  rw [h2.dst, h1.dst, List.take_left' htake, ← htake, List.drop_length_add_append, List.drop_drop, List.length_append]
  simp only [List.append_assoc, Nat.add_assoc]

/-- how a call may end at `c` -/
inductive Ends (c : Locals) : EStateM.Result Stop Locals StreamStatus → Prop where
  | needOutput (full : c.written = c.dst.length) : Ends c (.ok .needOutput c)
  | needInput (room : c.written < c.dst.length) (idle : c.self.pending.isEmpty)
    (short : fetch c.self.unread = .short) (more : c.self.finishedInput = false) : Ends c (.ok .needInput c)
  | truncated (room : c.written < c.dst.length) (idle : c.self.pending.isEmpty)
    (short : fetch c.self.unread = .short) (last : c.self.finishedInput = true) :
    Ends c (.error (.err (.truncatedInput c.self.absoluteOffset)) c)
  | invalidOpcode {op : UInt8} (room : c.written < c.dst.length) (idle : c.self.pending.isEmpty)
    (invalid : fetch c.self.unread = .invalid op) :
    Ends c (.error (.err (.invalidOpcode c.self.absoluteOffset op)) c)
  | badDistance {n : ℕ} {s : Step UInt8} (room : c.written < c.dst.length) (idle : c.self.pending.isEmpty)
    (instr : fetch c.self.unread = .instr n s) (bad : c.self.window.apply s = none) :
    Ends c (.error (.err (.invalidMatchDistance (s.distance c.self.window)
      (c.self.history.length + s.literals.length))) c)
  | finished (room : c.written < c.dst.length) (idle : c.self.pending.isEmpty) (eos : fetch c.self.unread = .eos)
    (pad : finishError (c.self.unread.drop 1) = none) :
    Ends c (.ok .finished { c with self := { c.self with
      input := []
      inputBase := c.self.inputBase + c.self.input.length
      inputOffset := 0
      eosPadding := (c.self.unread.drop 1).length
      finished := true } })
  | trailing {e : Error} (room : c.written < c.dst.length) (idle : c.self.pending.isEmpty)
    (eos : fetch c.self.unread = .eos) (pad : finishError (c.self.unread.drop 1) = some e) :
    Ends c (.error (.err e) { c with self := { c.self with inputOffset := c.self.inputOffset + 1 } })

/-! ## One round -/

theorem run_onRest {α : Type} {m : Rust Target α} {c : Locals} (h : c.written ≤ c.dst.length) :
    EStateM.run (onRest m) c = match m.run (c.self, c.dst.drop c.written) with
      | .ok a t => .ok a { c with self := t.1, dst := c.dst.take c.written ++ t.2 }
      | .error e t => .error e { c with self := t.1, dst := c.dst.take c.written ++ t.2 } := by
  simp only [onRest, EStateM.run_bind, EStateM.run_get, slice_eq h le_rfl, run_lift_ok, run_zoom]
  cases m.run (c.self, c.dst.drop c.written) <;> rfl

variable {c : Locals}

/-- delivering `delta` from pending work -/
theorem advances_deliver {s' : RawDecoder} (delta : List UInt8) (hw : c.written + delta.length ≤ c.dst.length)
    (hresume : s'.resume = c.self.resume) (hok : s'.Ok) (hkeeps : Keeps c.self s')
    (hhist : s'.history = c.self.history ++ delta) :
    Advances c ⟨s', c.dst.take c.written ++ (delta ++ (c.dst.drop c.written).drop delta.length),
      c.written + delta.length⟩ delta :=
  ⟨rfl, hw, by rw [List.drop_drop, List.append_assoc], hhist, hok, hkeeps, fun more => by rw [hresume]⟩

/-- a round with pending literals -/
theorem round_literal (hs : c.self.Ok) (hw : c.written < c.dst.length) (hlit : c.self.pending.literal ≠ 0) :
    ∃ c' delta, Advances c c' delta ∧ (round.run c = .ok none c' ∨
      round.run c = .ok (some .needOutput) c' ∧ c'.written = c'.dst.length) := by
  set rest := c.dst.drop c.written with hrest
  set count := min c.self.pending.literal rest.length with hcount
  have hrestlen : rest.length = c.dst.length - c.written := List.length_drop
  obtain ⟨s', hrun, hc⟩ := run_copyPendingLiteral hs rest
  have hlen : (c.self.unread.take count).length = count := by
    have := hs.literal_le
    rw [List.length_take, length_unread]; omega
  have hkeeps : Keeps c.self (c.self.deliverLiteral count) := ⟨⟨0, by simp [deliverLiteral]⟩, rfl, rfl, rfl, rfl⟩
  have hadv := advances_deliver (c.self.unread.take count) (by omega)
    (hc.resume_eq.trans (resume_deliverLiteral c.self (min_le_left _ _)))
    (hc.ok (ok_deliverLiteral hs (min_le_left _ _))) (hkeeps.trans hc.keeps) hc.history_eq
  rw [hlen] at hadv
  have hpend : s'.pending.literal = c.self.pending.literal - count := by rw [hc.pending_eq]; rfl
  refine ⟨_, _, hadv, ?_⟩
  simp only [round, EStateM.run_bind, EStateM.run_get, hw.ne, ite_false, hlit, ne_eq, not_false_eq_true, ite_true,
    run_onRest hw.le, ← hrest, hrun, EStateM.run_modify, ← hcount]
  split_ifs with hmore
  · exact .inl rfl
  · right
    refine ⟨rfl, ?_⟩
    rw [hpend] at hmore
    simp only [List.length_append, List.length_take, List.length_drop, hlen]
    omega

/-- a round with a pending copy -/
theorem round_copy (hs : c.self.Ok) (hw : c.written < c.dst.length) (hlit : c.self.pending.literal = 0)
    (hcopy : c.self.pending.copy ≠ 0) : ∃ c' delta, Advances c c' delta ∧ (round.run c = .ok none c' ∨
      round.run c = .ok (some .needOutput) c' ∧ c'.written = c'.dst.length) := by
  set rest := c.dst.drop c.written with hrest
  set count := min c.self.pending.copy rest.length with hcount
  have hrestlen : rest.length = c.dst.length - c.written := List.length_drop
  have hrun := run_copyPendingMatch hs hlit hcopy rest
  obtain ⟨h1, h2⟩ := hs.reach hcopy
  rw [hlit, Nat.add_zero] at h2
  set delta := (copyBack c.self.history c.self.pending.distance count).drop c.self.history.length with hdelta
  have hlen : delta.length = count := by rw [hdelta, List.length_drop, copyBack_length count h1 h2]; omega
  have hhist : copyBack c.self.history c.self.pending.distance count = c.self.history ++ delta := by
    obtain ⟨t, ht⟩ := le_copyBack c.self.history c.self.pending.distance count
    rw [hdelta, ← ht, List.drop_left]
  have hkeeps : Keeps c.self (c.self.deliverCopy count) := ⟨⟨0, by simp [deliverCopy]⟩, rfl, rfl, rfl, rfl⟩
  by_cases hmore : c.self.pending.copy - count = 0
  · set s' : RawDecoder := { c.self.deliverCopy count with
      pending := { (c.self.deliverCopy count).pending with distance := 0 } } with hs'
    have hempty : s'.pending.copy = 0 := hmore
    have hresume : s'.resume = c.self.resume := by
      rw [← resume_deliverCopy hs hlit (min_le_left c.self.pending.copy rest.length), ← hcount]
      simp [hs', resume, unread, absoluteOffset, deliverCopy, hmore, copyBack]
    have hadv := advances_deliver delta (by omega) hresume
      ⟨hs.offset_le, hs.literal_le, fun h => absurd hempty h⟩ (hkeeps.trans ⟨⟨0, by simp [hs']⟩, rfl, rfl, rfl, rfl⟩) hhist
    refine ⟨_, _, hadv, .inl ?_⟩
    simp only [round, EStateM.run_bind, EStateM.run_get, hw.ne, ite_false, hlit, hcopy, ne_eq, not_true_eq_false,
      not_false_eq_true, ite_true, run_onRest hw.le, ← hrest, hrun, EStateM.run_modify, ← hcount]
    have hcond : ¬¬ (c.self.deliverCopy count).pending.copy = 0 := not_not.2 hmore
    rw [if_neg hcond, hlen]
    rfl
  · have hadv := advances_deliver delta (by omega) (resume_deliverCopy hs hlit (min_le_left _ _))
      (ok_deliverCopy hs hlit count) hkeeps hhist
    refine ⟨_, _, hadv, .inr ⟨?_, ?_⟩⟩
    · simp only [round, EStateM.run_bind, EStateM.run_get, hw.ne, ite_false, hlit, hcopy, ne_eq, not_true_eq_false,
        not_false_eq_true, ite_true, run_onRest hw.le, ← hrest, hrun, EStateM.run_modify, ← hcount]
      have hcond : ¬ (c.self.deliverCopy count).pending.copy = 0 := hmore
      rw [if_pos hcond, hlen]
      rfl
    · simp only [List.length_append, List.length_take, List.length_drop, hlen]
      omega

/-- past an instruction the scan goes on the same -/
theorem advances_execute {s' : RawDecoder} {n : ℕ} {step : Step UInt8} {w : Window UInt8} (hw : c.written ≤ c.dst.length)
    (hp : c.self.pending.isEmpty) (hf : fetch c.self.unread = .instr n step) (ht : c.self.window.apply step = some w)
    (h : Executes c.self s' n w) : Advances c { c with self := s' } [] := by
  refine ⟨by simp, hw, by simp, by simp [h.history], h.ok, h.keeps, ?_⟩
  intro more
  have hf' : fetch (c.self.resume.more more).bytes = .instr n step := by
    rw [resume_empty hp, Cursor.more_bytes, fetch_append (by simp [hf]), hf]
  have ht' : (c.self.resume.more more).win.apply step = some w := by rw [resume_empty hp]; exact ht
  obtain ⟨-, hle, -⟩ := fetch_encodes hf
  rw [scan_instr hf' ht', h.resume, resume_empty hp]
  simp only [Cursor.more, List.drop_append_of_le_length hle]

/-- what a round may do at `c` -/
def Goes (c : Locals) (r : EStateM.Result Stop Locals (Option StreamStatus)) : Prop :=
  (∃ c' delta, Advances c c' delta ∧ r = .ok none c') ∨
  (∃ c' delta status c'', Advances c c' delta ∧ r = .ok (some status) c'' ∧ Ends c' (.ok status c'')) ∨
  ∃ e c' c'' delta, Advances c c' delta ∧ r = .error e c'' ∧ Ends c' (.error e c'')

theorem goes_instruction (hs : c.self.Ok) (hw : c.written < c.dst.length) (hp : c.self.pending.isEmpty)
    {r : EStateM.Result Stop Locals (Option StreamStatus)} (h : Instruction c r (fetch c.self.unread)) : Goes c r := by
  have hrefl := Advances.refl hs hw.le
  cases hf : fetch c.self.unread with
  | short =>
    rw [hf] at h
    obtain ⟨s', hc, rfl⟩ := h
    have hadv : Advances c { c with self := s' } [] :=
      ⟨by simp, hw.le, by simp, by simp [hc.history_eq], hc.ok hs, hc.keeps, fun more => by rw [hc.resume_eq]⟩
    have hidle : s'.pending.isEmpty := by rw [hc.pending_eq]; exact hp
    have hshort : fetch s'.unread = .short := by rw [hc.unread_eq, hf]
    have hflag := hc.keeps.finishedInput
    cases hlast : c.self.finishedInput with
    | true =>
      rw [← hc.absoluteOffset_eq]
      exact .inr (.inr ⟨_, _, _, _, hadv, rfl, .truncated hw hidle hshort (hflag.trans hlast)⟩)
    | false => exact .inr (.inl ⟨_, _, _, _, hadv, rfl, .needInput hw hidle hshort (hflag.trans hlast)⟩)
  | invalid op =>
    rw [hf] at h
    exact .inr (.inr ⟨_, _, _, _, hrefl, h, .invalidOpcode hw hp hf⟩)
  | eos =>
    rw [hf] at h
    simp only [Instruction] at h
    cases he : finishError (c.self.unread.drop 1) with
    | some e =>
      rw [he] at h
      exact .inr (.inr ⟨_, _, _, _, hrefl, h, .trailing hw hp hf he⟩)
    | none =>
      rw [he] at h
      exact .inr (.inl ⟨_, _, _, _, hrefl, h, .finished hw hp hf he⟩)
  | instr n step =>
    rw [hf] at h
    simp only [Instruction] at h
    cases ht : c.self.window.apply step with
    | none =>
      rw [ht] at h
      exact .inr (.inr ⟨_, _, _, _, hrefl, h, .badDistance hw hp hf ht⟩)
    | some w =>
      rw [ht] at h
      obtain ⟨s', hr, hexec⟩ := h
      exact .inl ⟨_, _, advances_execute hw.le hp hf ht hexec, hr⟩

/-- **One round** advances or ends the call. -/
theorem round_goes (hs : c.self.Ok) (hw : c.written ≤ c.dst.length) : Goes c (round.run c) := by
  rcases hw.eq_or_lt with hfull | hlt
  · exact .inr (.inl ⟨c, [], _, c, .refl hs hw, by simp [round, hfull], .needOutput hfull⟩)
  have deliver (h : ∃ c' delta, Advances c c' delta ∧ (round.run c = .ok none c' ∨
      round.run c = .ok (some .needOutput) c' ∧ c'.written = c'.dst.length)) : Goes c (round.run c) := by
    obtain ⟨c', delta, hadv, hrun | ⟨hrun, hfull⟩⟩ := h
    · exact .inl ⟨c', delta, hadv, hrun⟩
    · exact .inr (.inl ⟨c', delta, _, c', hadv, hrun, .needOutput hfull⟩)
  by_cases hlit : c.self.pending.literal = 0
  · by_cases hcopy : c.self.pending.copy = 0
    · exact goes_instruction hs hlt ⟨hlit, hcopy⟩ (run_instruction hs ⟨hlit, hcopy⟩ hlt.ne)
    · exact deliver (round_copy hs hlt hlit hcopy)
  · exact deliver (round_literal hs hlt hlit)

/-- **A call advances and then ends.** -/
theorem loop_ends (hs : c.self.Ok) (hw : c.written ≤ c.dst.length) :
    ∃ c' delta, Advances c c' delta ∧ Ends c' (loop.run c) := by
  refine Loop.ofMonadic_rule round measure round_falls (fun c r => c.self.Ok → c.written ≤ c.dst.length →
    ∃ c' delta, Advances c c' delta ∧ Ends c' r) (fun c status c' h hs hw => ?_) (fun c e c' h hs hw => ?_)
    (fun c c' r h ih hs hw => ?_) c hs hw
  all_goals
    rcases round_goes hs hw with ⟨c1, delta, hadv, hrun⟩ | ⟨c1, delta, status', c2, hadv, hrun, hend⟩ |
      ⟨e', c1, c2, delta, hadv, hrun, hend⟩ <;> rw [hrun] at h <;> cases h
  · exact ⟨_, _, hadv, hend⟩
  · exact ⟨_, _, hadv, hend⟩
  · obtain ⟨c2, delta', hadv', hend⟩ := ih hadv.ok (by rw [hadv.length_dst]; exact hadv.written_le)
    exact ⟨c2, _, hadv.trans hadv', hend⟩

/-! ## One call -/

/-- `s'` is `s` with `delta` delivered, still on the same scan -/
structure Continues (s s' : RawDecoder) (delta : List UInt8) : Prop where
  history : s'.history = s.history ++ delta
  ok : s'.Ok
  keeps : Keeps s s'
  scan : ∀ more, scan (s'.resume.more more) = scan (s.resume.more more)

/-- `s'` is `s` with `delta` delivered and the EOS opcode behind it, with `padding` buffered -/
structure Finishes (s s' : RawDecoder) (delta padding : List UInt8) : Prop where
  history : s'.history = s.history ++ delta
  ok : s'.Ok
  finished : s'.finished = true
  eosPadding : s'.eosPadding = padding.length
  trailingAfterFinish : s'.trailingAfterFinish = s.trailingAfterFinish
  finishedInput : s'.finishedInput = s.finishedInput

/-- `s'` is `s` with `delta` delivered and the cursor moved past the EOS opcode at `t`, not finished -/
structure Skips (s s' : RawDecoder) (delta : List UInt8) (t : Cursor) : Prop where
  history : s'.history = s.history ++ delta
  ok : s'.Ok
  keeps : Keeps s s'
  resume : s'.resume = ⟨t.pos + 1, t.bytes.drop 1, t.win⟩

/-- the answers to a call with buffer `dst`, when the scan from the cursor of `s` stops at `t` with `v` -/
inductive Answers (s : RawDecoder) (dst : List UInt8) (t : Cursor) (v : Verdict) :
    EStateM.Result Stop Target StreamProgress → Prop where
  | needOutput {s' : RawDecoder} {delta : List UInt8} (full : delta.length = dst.length)
    (out : s.history ++ delta <+: t.win.out) (after : Continues s s' delta) :
    Answers s dst t v (.ok ⟨delta.length, .needOutput⟩ (s', delta ++ dst.drop delta.length))
  | needInput {s' : RawDecoder} {delta : List UInt8} (room : delta.length < dst.length)
    (out : s.history ++ delta = t.win.out) (after : Continues s s' delta) (idle : s'.pending.isEmpty) (short : v = .short)
    (more : s.finishedInput = false) :
    Answers s dst t v (.ok ⟨delta.length, .needInput⟩ (s', delta ++ dst.drop delta.length))
  | finished {s' : RawDecoder} {delta : List UInt8} (room : delta.length < dst.length)
    (out : s.history ++ delta = t.win.out) (after : Finishes s s' delta (t.bytes.drop 1)) (eos : v = .eos)
    (pad : finishError (t.bytes.drop 1) = none) :
    Answers s dst t v (.ok ⟨delta.length, .finished⟩ (s', delta ++ dst.drop delta.length))
  | rejected {s' : RawDecoder} {delta : List UInt8} {e : Error} (room : delta.length < dst.length)
    (out : s.history ++ delta = t.win.out) (after : Continues s s' delta) (notEos : v ≠ .eos)
    (last : v = .short → s.finishedInput = true) (error : streamError t v = some e) :
    Answers s dst t v (.error (.err e) (s', delta ++ dst.drop delta.length))
  | trailing {s' : RawDecoder} {delta : List UInt8} {e : Error} (room : delta.length < dst.length)
    (out : s.history ++ delta = t.win.out) (after : Skips s s' delta t) (eos : v = .eos)
    (error : finishError (t.bytes.drop 1) = some e) :
    Answers s dst t v (.error (.err e) (s', delta ++ dst.drop delta.length))

/-- **One call of `decode_into`** on a decoder that has not finished. It never panics. -/
theorem decodeInto_answers {s : RawDecoder} (hs : s.Ok) (htrail : s.trailingAfterFinish = 0) (hfin : s.finished = false)
    {t : Cursor} {v : Verdict} (hscan : scan s.resume = (t, v)) (dst : List UInt8) :
    Answers s dst t v (decodeInto.run (s, dst)) := by
  obtain ⟨c, delta, hadv, hend⟩ := loop_ends (c := ⟨s, dst, 0⟩) hs (Nat.zero_le _)
  have hcont : Continues s c.self delta := ⟨hadv.history, hadv.ok, hadv.keeps, hadv.scan⟩
  have hwritten : c.written = delta.length := by rw [hadv.written]; simp
  have hlen : c.dst.length = dst.length := hadv.length_dst
  have hdst : c.dst = delta ++ dst.drop delta.length := by rw [hadv.dst]; simp
  have hscan' : scan c.self.resume = (t, v) := by
    have := hadv.scan []
    rw [Cursor.more_nil, Cursor.more_nil] at this
    exact this.trans hscan
  rw [run_decodeInto htrail hfin]
  generalize hr : loop.run ⟨s, dst, 0⟩ = r at hend
  have stop (v' : Verdict) (idle : c.self.pending.isEmpty) (h : scanRound c.self.resume = .leave (c.self.resume, v')) :
      t = ⟨c.self.absoluteOffset, c.self.unread, c.self.window⟩ ∧ v = v' := by
    rw [scan_leave h, resume_empty idle] at hscan'
    exact ⟨(congrArg Prod.fst hscan').symm, (congrArg Prod.snd hscan').symm⟩
  cases hend with
  | needOutput full =>
    dsimp only
    rw [hwritten, hdst]
    refine .needOutput (by omega) ?_ hcont
    have hle := le_scan c.self.resume
    rw [hscan'] at hle
    rw [← hadv.history]
    exact (history_le_resume c.self).trans hle
  | needInput room idle short more =>
    obtain ⟨rfl, rfl⟩ := stop .short idle (by rw [resume_empty idle, scanRound]; simp only [short])
    dsimp only
    rw [hwritten, hdst]
    exact .needInput (by omega) hadv.history.symm hcont idle rfl (hadv.keeps.finishedInput.symm.trans more)
  | truncated room idle short last =>
    obtain ⟨rfl, rfl⟩ := stop .short idle (by rw [resume_empty idle, scanRound]; simp only [short])
    dsimp only
    rw [hdst]
    exact .rejected (by omega) hadv.history.symm hcont (by simp) (fun _ => hadv.keeps.finishedInput.symm.trans last) rfl
  | @invalidOpcode op room idle invalid =>
    obtain ⟨rfl, rfl⟩ := stop (.invalidOpcode op) idle (by rw [resume_empty idle, scanRound]; simp only [invalid])
    dsimp only
    rw [hdst]
    exact .rejected (by omega) hadv.history.symm hcont (by simp) (by simp) rfl
  | @badDistance n step room idle instr bad =>
    obtain ⟨rfl, rfl⟩ := stop (.badDistance step) idle
      (by rw [resume_empty idle, scanRound]; simp only [instr, bad])
    dsimp only
    rw [hdst]
    exact .rejected (by omega) hadv.history.symm hcont (by simp) (by simp) rfl
  | finished room idle eos pad =>
    obtain ⟨rfl, rfl⟩ := stop .eos idle (by rw [resume_empty idle, scanRound]; simp only [eos])
    dsimp only
    rw [hwritten, hdst]
    refine .finished (by omega) hadv.history.symm ⟨hadv.history, ⟨?_, ?_, ?_⟩, rfl, rfl, hadv.keeps.trailingAfterFinish,
      hadv.keeps.finishedInput⟩ rfl pad
    · exact le_rfl
    · simp [idle.1]
    · exact fun h => absurd idle.2 h
  | @trailing e room idle eos pad =>
    obtain ⟨rfl, rfl⟩ := stop .eos idle (by rw [resume_empty idle, scanRound]; simp only [eos])
    dsimp only
    rw [hdst]
    obtain ⟨tail, htail⟩ := fetch_eos_iff.1 eos
    have hlen1 : c.self.inputOffset + 1 ≤ c.self.input.length := by
      have := congrArg List.length htail
      rw [length_unread, availableInput, List.length_cons] at this
      omega
    refine .trailing (by omega) hadv.history.symm ⟨hadv.history, ⟨hlen1, ?_, fun h => absurd idle.2 h⟩,
      ⟨hadv.keeps.input, hadv.keeps.finishedInput, hadv.keeps.finished, hadv.keeps.eosPadding,
        hadv.keeps.trailingAfterFinish⟩, ?_⟩ rfl pad
    · rw [idle.1]
      exact Nat.zero_le _
    · rw [resume_empty (by exact idle)]
      simp [absoluteOffset, unread, window, Nat.add_assoc]

end RawDecoder

end Lzvn.Raw
