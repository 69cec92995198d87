/-
How much consumed input the incremental raw decoder holds back when it asks for more.

The code has a chance to compact its buffer behind a literal-only instruction, behind a nop and where the buffer is
used up. A `Backlog` goes over the instructions of the buffer by that rule alone, with no window and no output: what the
last chance has left, and the match-carrying instructions behind it.

- `round_same`: a round leaves alone where the backlog of the buffer ends.
- `step_needsInput_iff`: when a call asks for input. `step_offset`: the offset that such a call leaves.
- `below_threshold_iff`: the offset stays below `inputCompactThreshold` exactly when no call that asks for input has too
  large a backlog (`Hoards`).
-/
import Lzvn.Raw.StreamRuns

namespace Lzvn.Raw

open Lzvn.Core Lzvn.Core.Lz77

/-! ## The backlog of a buffer -/

/-- consumed bytes that a buffer holds, in front of the bytes still to come -/
structure Backlog where
  /-- what the last chance to compact has left -/
  left : ℕ
  /-- the bytes consumed behind it -/
  behind : ℕ
  bytes : List UInt8
deriving DecidableEq, Repr

namespace Backlog

/-- past an instruction of `n` bytes that means `step`; there is a chance to compact unless it carries a match -/
def pass (b : Backlog) (n : ℕ) (step : Step UInt8) : Backlog :=
  if step.copy = none then
    ⟨RawDecoder.trimmed (b.left + b.behind + n) (b.left + b.behind + b.bytes.length), 0, b.bytes.drop n⟩
  else ⟨b.left, b.behind + n, b.bytes.drop n⟩

theorem pass_bytes (b : Backlog) (n : ℕ) (step : Step UInt8) : (b.pass n step).bytes = b.bytes.drop n := by
  unfold pass
  split_ifs <;> rfl

def round (b : Backlog) : Flow Backlog Backlog :=
  match fetch b.bytes with
  | .instr n step => .again (b.pass n step)
  | _ => .leave b

theorem round_again {b b' : Backlog} (h : b.round = .again b') :
    ∃ n step, fetch b.bytes = .instr n step ∧ b' = b.pass n step := by
  unfold round at h
  split at h
  · rename_i n step hf
    cases h
    exact ⟨n, step, hf, rfl⟩
  · cases h

theorem round_leave {b r : Backlog} (h : b.round = .leave r) : r = b ∧ ∀ n step, fetch b.bytes ≠ .instr n step := by
  unfold round at h
  split at h
  · cases h
  · rename_i hf
    cases h
    exact ⟨rfl, hf⟩

def loop : Loop Backlog Backlog where
  body := round
  bound b := b.bytes.length
  falls := by
    intro b b' h
    obtain ⟨n, step, hf, rfl⟩ := round_again h
    obtain ⟨h0, hn, -⟩ := fetch_encodes hf
    rw [pass_bytes, List.length_drop]
    omega

/-- past all whole instructions of the buffer -/
def rest (b : Backlog) : Backlog := loop.run b

theorem rest_instr {b : Backlog} {n : ℕ} {step : Step UInt8} (hf : fetch b.bytes = .instr n step) :
    b.rest = (b.pass n step).rest := by
  refine loop.run_again ?_
  show b.round = _
  simp only [round, hf]

theorem rest_stop {b : Backlog} (h : ∀ n step, fetch b.bytes ≠ .instr n step) : b.rest = b := by
  refine loop.run_leave ?_
  show b.round = _
  unfold round
  split
  · rename_i n step hf
    exact absurd hf (h n step)
  · rfl

/-- the offset that is left when the code asks for more input: a buffer that is used up is compacted -/
def offset (b : Backlog) : ℕ := if b.bytes = [] then 0 else b.left + b.behind

theorem offset_lt_iff (b : Backlog) :
    b.offset < inputCompactThreshold ↔ ¬ (b.bytes ≠ [] ∧ inputCompactThreshold ≤ b.left + b.behind) := by
  unfold offset
  split_ifs with h
  · exact iff_of_true (by decide) (fun hne => hne.1 h)
  · rw [not_and, not_le]
    exact ⟨fun hlt _ => hlt, fun himp => himp h⟩

/-- as many consumed bytes in front of the same bytes -/
def Same (a b : Backlog) : Prop := a.left + a.behind = b.left + b.behind ∧ a.bytes = b.bytes

theorem Same.pass {a b : Backlog} (h : Same a b) (n : ℕ) (step : Step UInt8) : Same (a.pass n step) (b.pass n step) := by
  obtain ⟨hsum, hbytes⟩ := h
  unfold Backlog.pass
  rw [hsum, hbytes]
  split_ifs
  · exact ⟨rfl, rfl⟩
  · refine ⟨?_, rfl⟩
    dsimp only
    omega

theorem Same.rest {a b : Backlog} (h : Same a b) : Same a.rest b.rest := by
  refine loop.run_rule (fun a r => ∀ b, Same a b → Same r b.rest) ?_ ?_ a b h
  · intro a r hleave b hab
    obtain ⟨rfl, hstop⟩ := round_leave hleave
    rw [rest_stop (by rwa [← hab.2])]
    exact hab
  · intro a a' r hagain ih b hab
    obtain ⟨n, step, hf, rfl⟩ := round_again hagain
    rw [rest_instr (by rwa [← hab.2])]
    exact ih _ (hab.pass n step)

end Backlog

namespace RawDecoder

/-- the backlog of a decoder, with its pending literals counted as consumed -/
def backlog (s : RawDecoder) : Backlog :=
  if s.pending.literal ≠ 0 ∧ s.pending.copy = 0 then
    ⟨trimmed (s.inputOffset + s.pending.literal) s.input.length, 0, s.resume.bytes⟩
  else ⟨s.inputOffset, s.pending.literal, s.resume.bytes⟩

/-! ## One round -/

variable {c c' : Locals}

theorem backlog_idle {s : RawDecoder} (h : s.pending.literal = 0) : s.backlog = ⟨s.inputOffset, 0, s.unread⟩ := by
  unfold backlog
  rw [if_neg (fun hne => hne.1 h), h]
  simp only [resume, h, List.drop_zero]

theorem length_input {s : RawDecoder} (hs : s.Ok) : s.input.length = s.inputOffset + s.unread.length := by
  have hoff := hs.offset_le
  rw [length_unread, availableInput]
  omega

/-- the last pending literals are delivered: the chance to compact is that of the backlog -/
theorem same_literal (hlit : c.self.pending.literal ≠ 0) {count : ℕ} {dst : List UInt8}
    (hrun : copyPendingLiteral.run (c.self, c.dst.drop c.written) = .ok count (c'.self, dst))
    (hdone : c'.self.pending.literal = 0) : Backlog.Same c'.self.backlog c.self.backlog := by
  obtain ⟨hcount, hle, hcompact⟩ := copyPendingLiteral_delivers hrun
  obtain ⟨s1, hrun1, hc⟩ := run_compactInputIfNecessary (s := c.self.deliverLiteral count) hle
  have hself : s1 = c'.self := by
    rw [hrun1] at hcompact
    cases hcompact
    rfl
  subst hself
  have hmin : count ≤ c.self.pending.literal := by rw [hcount]; exact min_le_left _ _
  have hall : count = c.self.pending.literal := by
    have hleft : c.self.pending.literal - count = 0 := by rw [← hdone, hc.pending_eq]; rfl
    omega
  have hbytes : c'.self.unread = c.self.resume.bytes := by
    rw [← resume_deliverLiteral c.self hmin, ← hc.resume_eq]
    simp only [resume, hdone, List.drop_zero]
  rw [backlog_idle hdone, backlog, hbytes]
  by_cases hcopy : c.self.pending.copy = 0
  · have hidle : (c.self.deliverLiteral count).pending.isEmpty := ⟨by rw [← hc.pending_eq]; exact hdone, hcopy⟩
    rw [if_pos ⟨hlit, hcopy⟩, compactInputIfNecessary_idle hle hidle hcompact, ← hall]
    exact ⟨rfl, rfl⟩
  · have hbusy : ¬ (c.self.deliverLiteral count).pending.isEmpty := fun hempty => hcopy hempty.2
    have hsame := run_compactInputIfNecessary_busy hbusy
    rw [hcompact, EStateM.Result.ok.injEq] at hsame
    have hoffset : c'.self.inputOffset = c.self.inputOffset + count := by rw [hsame.2]; rfl
    rw [if_neg (fun hne => hcopy hne.2), hoffset, hall]
    exact ⟨rfl, rfl⟩

/-- a round without pending work passes one instruction -/
theorem same_instruction (hs : c.self.Ok) (hp : c.self.pending.isEmpty) (hw : c.written ≠ c.dst.length)
    (hrun : round.run c = .ok none c') : Backlog.Same c'.self.backlog.rest c.self.backlog.rest := by
  obtain ⟨hinstr, hmoves, -⟩ := run_dispatch hs hp hw
  obtain ⟨n, step, hf, hmove⟩ := hmoves c' hrun
  obtain ⟨-, hn, -⟩ := fetch_encodes hf
  have hbytes : c'.self.resume.bytes = c.self.unread.drop n := by
    rw [hrun, hf] at hinstr
    obtain ⟨-, w, -, hexec⟩ := hinstr.of_instr
    rw [hexec.resume, resume_empty hp]
  have hrest : c.self.backlog.rest = (Backlog.pass ⟨c.self.inputOffset, 0, c.self.unread⟩ n step).rest := by
    rw [backlog_idle hp.1]
    exact Backlog.rest_instr hf
  rw [hrest]
  apply Backlog.Same.rest
  unfold Backlog.pass
  rw [Nat.add_zero, ← length_input hs]
  cases hmove with
  | @pending h k m d last hself hsize hcopy hbusy =>
    have hlit : c'.self.pending.literal = k := by rw [hself]; rfl
    have hm : c'.self.pending.copy = m := by rw [hself]; rfl
    have hoffset : c'.self.inputOffset = c.self.inputOffset + h := by rw [hself]; rfl
    have hinput : c'.self.input = c.self.input := by rw [hself]; rfl
    rw [backlog, hlit, hm, hoffset, hinput, hbytes, Nat.add_assoc, hsize]
    by_cases hm0 : m = 0
    · have hk : k ≠ 0 := hbusy.resolve_right (not_not.2 hm0)
      rw [if_pos ⟨hk, hm0⟩, if_pos (hcopy.1 hm0)]
      exact ⟨rfl, rfl⟩
    · rw [if_neg (fun hne => hm0 hne.2), if_neg (fun hnone => hm0 (hcopy.2 hnone))]
      refine ⟨?_, rfl⟩
      dsimp only
      omega
  | nothing hcopy hidle hoffset =>
    have hunread : c'.self.unread = c.self.unread.drop n := by rw [← hbytes, resume_empty hidle]
    rw [backlog_idle hidle.1, hunread, hoffset, if_pos hcopy]
    exact ⟨rfl, rfl⟩

/-- **A round that goes on** leaves alone where the backlog ends. -/
theorem round_same (hs : c.self.Ok) (hrun : round.run c = .ok none c') :
    Backlog.Same c'.self.backlog.rest c.self.backlog.rest := by
  cases round_again hrun with
  | literal hlit hcopy hdone => exact (same_literal hlit hcopy hdone).rest
  | @copy count s dst hlit hcopy hmatch hdone hself =>
    rw [run_copyPendingMatch hs hlit hcopy] at hmatch
    cases hmatch
    rw [backlog_idle hlit, hself, backlog_idle (by exact hlit)]
    exact ⟨rfl, rfl⟩
  | instruction _ hp hw => exact same_instruction hs hp hw hrun

/-! ## Calls that ask for input -/

theorem round_needInput (hs : c.self.Ok) (hw : c.written ≤ c.dst.length)
    (hrun : round.run c = .ok (some .needInput) c') : c.self.pending.isEmpty ∧ c.written ≠ c.dst.length := by
  rcases hw.eq_or_lt with hfull | hlt
  · rw [round, run_bind_ok] at hrun
    obtain ⟨_, _, h0, hrun⟩ := hrun
    cases h0
    rw [if_pos hfull] at hrun
    cases hrun
  have busy (h : ∃ c1 delta, Advances c c1 delta ∧ (round.run c = .ok none c1 ∨
      round.run c = .ok (some .needOutput) c1 ∧ c1.written = c1.dst.length)) : False := by
    rcases h with ⟨_, _, -, h | ⟨h, -⟩⟩
    · rw [h] at hrun
      cases hrun
    · rw [h] at hrun
      cases hrun
  refine ⟨⟨?_, ?_⟩, hlt.ne⟩
  · by_contra hlit
    exact busy (round_literal hs hlt hlit)
  · by_contra hcopy
    by_cases hlit : c.self.pending.literal = 0
    · exact busy (round_copy hs hlt hlit hcopy)
    · exact busy (round_literal hs hlt hlit)

/-- a round that asks for input leaves the offset of the backlog -/
theorem round_offset (hs : c.self.Ok) (hw : c.written ≤ c.dst.length)
    (hrun : round.run c = .ok (some .needInput) c') : c'.self.inputOffset = c.self.backlog.rest.offset := by
  obtain ⟨hp, hne⟩ := round_needInput hs hw hrun
  obtain ⟨hinstr, -, hwaits⟩ := run_dispatch hs hp hne
  have hshort : ∀ n step, fetch c.self.unread ≠ .instr n step := by
    intro n step hf
    rw [hrun, hf] at hinstr
    exact absurd hinstr.of_instr.1 (Option.some_ne_none _)
  have hrest : c.self.backlog.rest = ⟨c.self.inputOffset, 0, c.self.unread⟩ := by
    rw [backlog_idle hp.1]
    exact Backlog.rest_stop hshort
  rw [hwaits c' hrun, hrest]
  rfl

/-- a call that asks for input leaves the offset of the backlog that it began with -/
theorem loop_offset (hs : c.self.Ok) (hw : c.written ≤ c.dst.length) (hrun : loop.run c = .ok .needInput c') :
    c'.self.inputOffset = c.self.backlog.rest.offset := by
  have hall : c.self.Ok → c.written ≤ c.dst.length → ∀ c', loop.run c = .ok .needInput c' →
      c'.self.inputOffset = c.self.backlog.rest.offset := by
    refine Loop.ofMonadic_rule round measure round_falls (fun c r => c.self.Ok → c.written ≤ c.dst.length →
      ∀ c', r = .ok .needInput c' → c'.self.inputOffset = c.self.backlog.rest.offset) ?_ ?_ ?_ c
    · intro c status c1 h hs hw c' heq
      cases heq
      exact round_offset hs hw h
    · intro c e c1 h hs hw c' heq
      cases heq
    · intro c c1 r h ih hs hw c' heq
      rcases round_goes hs hw with ⟨c2, delta, hadv, h2⟩ | ⟨c2, delta, status, c3, -, h2, -⟩ |
        ⟨e, c2, c3, delta, -, h2, -⟩
      · rw [h] at h2
        cases h2
        have hle : c1.written ≤ c1.dst.length := by
          rw [hadv.length_dst]
          exact hadv.written_le
        obtain ⟨hsum, hbytes⟩ := round_same hs h
        rw [ih hadv.ok hle c' heq, Backlog.offset, Backlog.offset, hsum, hbytes]
      · rw [h] at h2
        cases h2
      · rw [h] at h2
        cases h2
  exact hall hs hw c' hrun

/-- the reply asks for more input -/
def NeedsInput : Reply → Prop
  | .progress p _ => p.status = .needInput
  | _ => False

/-- a call asks for input when all output up to where the buffer breaks off an instruction fits, with room to spare -/
def Starves (s : RawDecoder) (dst : List UInt8) : Prop :=
  s.trailingAfterFinish = 0 ∧ s.finished = false ∧ s.finishedInput = false ∧ (scan s.resume).2 = .short ∧
    (scan s.resume).1.win.out.length < s.history.length + dst.length

theorem step_needsInput_iff {s : RawDecoder} (hs : s.Ok) (dst : List UInt8) :
    NeedsInput (machine.step s (.produce dst)).2 ↔ Starves s dst := by
  have h := step_produces hs dst
  generalize machine.step s (.produce dst) = x at h
  cases h with
  | trailing hne => exact iff_of_false id (fun h => hne h.1)
  | finished _ hf =>
    refine iff_of_false (fun h => (by cases h)) ?_
    intro h
    rw [h.2.1] at hf
    cases hf
  | @progress t v p s' dst' hc hf hscan ha =>
    cases ha with
    | needOutput full out after =>
      refine iff_of_false (fun h => (by cases h)) ?_
      intro h
      have hlen := out.length_le
      have hlt := h.2.2.2.2
      rw [hscan] at hlt
      rw [List.length_append, full] at hlen
      exact absurd hlt (not_lt.2 hlen)
    | needInput room out after idle short more =>
      refine iff_of_true rfl ⟨hc, hf, more, by rw [hscan, short], ?_⟩
      rw [hscan, ← out, List.length_append]
      exact Nat.add_lt_add_left room _
    | finished room out after eos pad =>
      refine iff_of_false (fun h => (by cases h)) ?_
      intro h
      have hshort := h.2.2.2.1
      rw [hscan, eos] at hshort
      cases hshort
  | @failed t v e s' dst' hc hf hscan ha =>
    refine iff_of_false id ?_
    intro h
    obtain ⟨-, -, hmore, hshort, -⟩ := h
    rw [hscan] at hshort
    cases ha with
    | rejected room out after notEos last he =>
      rw [last hshort] at hmore
      cases hmore
    | trailing room out after eos he =>
      rw [eos] at hshort
      cases hshort

/-- **A call that asks for input** leaves the offset of the backlog. -/
theorem step_offset {s : RawDecoder} (hs : s.Ok) {dst : List UInt8} (h : NeedsInput (machine.step s (.produce dst)).2) :
    (machine.step s (.produce dst)).1.inputOffset = s.backlog.rest.offset := by
  obtain ⟨htrail, hfin, -, -, -⟩ := (step_needsInput_iff hs dst).1 h
  have hstep : machine.step s (.produce dst) = _ := answer_running htrail hfin dst
  rw [hstep] at h ⊢
  cases hrun : loop.run ⟨s, dst, 0⟩ with
  | ok status c =>
    rw [hrun] at h
    obtain rfl : status = .needInput := h
    exact loop_offset (c := ⟨s, dst, 0⟩) hs (Nat.zero_le _) hrun
  | error e c =>
    rw [hrun] at h
    cases h

/-! ## Runs -/

/-- the call asks for input with an unfinished instruction in the buffer, behind too many consumed bytes: the
match-carrying instructions since the last chance to compact, with what that chance has left -/
def Hoards (s : RawDecoder) : Call → Prop
  | .produce dst => Starves s dst ∧ s.backlog.rest.bytes ≠ [] ∧
      inputCompactThreshold ≤ s.backlog.rest.left + s.backlog.rest.behind
  | _ => False

theorem step_below_iff {s : RawDecoder} (hs : s.Ok) (c : Call) :
    (NeedsInput (machine.step s c).2 → (machine.step s c).1.inputOffset < inputCompactThreshold) ↔ ¬ Hoards s c := by
  cases c with
  | feed input => exact iff_of_true False.elim id
  | finishInput => exact iff_of_true False.elim id
  | produce dst =>
    by_cases h : NeedsInput (machine.step s (.produce dst)).2
    · have hoards : Hoards s (.produce dst) ↔ s.backlog.rest.bytes ≠ [] ∧
          inputCompactThreshold ≤ s.backlog.rest.left + s.backlog.rest.behind :=
        and_iff_right ((step_needsInput_iff hs dst).1 h)
      rw [forall_prop_of_true h, step_offset hs h, Backlog.offset_lt_iff, hoards]
    · exact iff_of_true (fun hn => absurd hn h) (fun hoards => h ((step_needsInput_iff hs dst).2 hoards.1))

/-- **Consumed input is not retained past the threshold** in a run exactly when no call of it hoards. -/
theorem below_threshold_iff (calls : List Call) :
    (∀ a c b, calls = a ++ c :: b → NeedsInput (machine.step (machine.run new a) c).2 →
      (machine.run new (a ++ [c])).inputOffset < inputCompactThreshold) ↔
        machine.Along (fun s c => ¬ Hoards s c) new calls := by
  rw [machine.along_iff]
  constructor
  · intro h a c b hab
    have hstep := h a c b hab
    rw [machine.run_snoc] at hstep
    exact (step_below_iff (run_ok a) c).1 hstep
  · intro h a c b hab
    rw [machine.run_snoc]
    exact (step_below_iff (run_ok a) c).2 (h a c b hab)

/-- `count` copies of one instruction: the literal `a` and a match of three bytes from one back -/
def copies (count : ℕ) : List UInt8 := (List.replicate count [0x40, 0x01, 0x61]).flatten

theorem copies_succ (count : ℕ) (tail : List UInt8) :
    copies (count + 1) ++ tail = [0x40, 0x01, 0x61] ++ (copies count ++ tail) := by
  rw [copies, List.replicate_succ, List.flatten_cons, List.append_assoc]
  rfl

theorem fetch_copies (count : ℕ) (tail : List UInt8) :
    fetch (copies (count + 1) ++ tail) = .instr 3 ⟨[0x61], some (3, .explicit 1)⟩ := by
  have hone : fetch [0x40, 0x01, 0x61] = .instr 3 ⟨[0x61], some (3, .explicit 1)⟩ := by decide
  rw [copies_succ, fetch_append (by rw [hone]; exact Fetch.noConfusion), hone]

theorem scan_copies (count pos : ℕ) (w : Window UInt8) :
    (scan ⟨pos, copies count ++ [0x40], w⟩).2 = .short ∧
      (scan ⟨pos, copies count ++ [0x40], w⟩).1.win.out.length = w.out.length + 4 * count := by
  induction count generalizing pos w with
  | zero =>
    have hleave : scan ⟨pos, [0x40], w⟩ = (⟨pos, [0x40], w⟩, .short) := scan_leave rfl
    exact ⟨congrArg Prod.snd hleave, congrArg (fun r => r.1.win.out.length) hleave⟩
  | succ count ih =>
    obtain ⟨w', hw⟩ : ∃ w', w.apply ⟨[0x61], some (3, .explicit 1)⟩ = some w' :=
      ⟨_, if_pos ⟨le_rfl, by rw [List.length_append]; exact Nat.le_add_left _ _⟩⟩
    have hlen := apply_length hw
    have hdrop : (copies (count + 1) ++ [0x40]).drop 3 = copies count ++ [0x40] := by rw [copies_succ]; rfl
    rw [scan_instr (fetch_copies count [0x40]) hw, hdrop]
    obtain ⟨hshort, hout⟩ := ih (pos + 3) w'
    refine ⟨hshort, ?_⟩
    rw [hout, hlen]
    show w.out.length + 4 + 4 * count = _
    omega

theorem rest_copies (count left behind : ℕ) :
    Backlog.rest ⟨left, behind, copies count ++ [0x40]⟩ = ⟨left, behind + 3 * count, [0x40]⟩ := by
  induction count generalizing behind with
  | zero => exact Backlog.rest_stop (fun n step hf => (by cases hf))
  | succ count ih =>
    have hdrop : (copies (count + 1) ++ [0x40]).drop 3 = copies count ++ [0x40] := by rw [copies_succ]; rfl
    rw [Backlog.rest_instr (fetch_copies count [0x40]), Backlog.pass, if_neg (Option.some_ne_none _), hdrop, ih]
    congr 1
    dsimp only
    omega

/-- a stream of match-carrying instructions that breaks off: the buffer keeps all of them -/
theorem copies_retained (count : ℕ) {dst : List UInt8} (hroom : dst.length = 4 * count + 1) :
    NeedsInput (machine.step (machine.run new [.feed (copies count ++ [0x40])]) (.produce dst)).2 ∧
      (machine.run new [.feed (copies count ++ [0x40]), .produce dst]).inputOffset = 3 * count := by
  set s : RawDecoder := { new with input := copies count ++ [0x40] } with hs
  have hrun : machine.run new [.feed (copies count ++ [0x40])] = s := feed_running rfl _
  have hok : s.Ok := by
    rw [← hrun]
    exact run_ok _
  have hresume : s.resume = ⟨0, copies count ++ [0x40], ⟨[], 0⟩⟩ := resume_empty ⟨rfl, rfl⟩
  obtain ⟨hshort, hout⟩ := scan_copies count 0 ⟨[], 0⟩
  have hneeds : NeedsInput (machine.step s (.produce dst)).2 := by
    refine (step_needsInput_iff hok _).2 ⟨rfl, rfl, rfl, by rw [hresume]; exact hshort, ?_⟩
    rw [hresume, hout, hroom]
    show 0 + 4 * count < 0 + (4 * count + 1)
    omega
  have hbacklog : s.backlog = ⟨0, 0, copies count ++ [0x40]⟩ := backlog_idle rfl
  have hoffset := step_offset hok hneeds
  rw [hbacklog, rest_copies, Backlog.offset, if_neg (List.cons_ne_nil _ _)] at hoffset
  rw [hrun, Machine.run_cons]
  refine ⟨hneeds, ?_⟩
  show (machine.step (machine.run new [.feed (copies count ++ [0x40])]) _).1.inputOffset = _
  rw [hrun, hoffset]
  dsimp only
  omega

theorem copies_past_threshold {count : ℕ} {dst : List UInt8} (hroom : dst.length = 4 * count + 1)
    (hcount : inputCompactThreshold ≤ 3 * count) :
    NeedsInput (machine.step (machine.run new [.feed (copies count ++ [0x40])]) (.produce dst)).2 ∧
      ¬ (machine.run new [.feed (copies count ++ [0x40]), .produce dst]).inputOffset < inputCompactThreshold := by
  obtain ⟨hneeds, hoffset⟩ := copies_retained count hroom
  refine ⟨hneeds, ?_⟩
  rw [hoffset]
  exact not_lt.2 hcount

/-- The decoder asks for more input with 4098 consumed bytes in its buffer: behind a match it never compacts. -/
theorem match_stream_retained :
    NeedsInput (machine.step (machine.run new [.feed (copies 1366 ++ [0x40])]) (.produce (List.replicate 5465 0))).2 ∧
      ¬ (machine.run new [.feed (copies 1366 ++ [0x40]), .produce (List.replicate 5465 0)]).inputOffset <
        inputCompactThreshold :=
  copies_past_threshold List.length_replicate (by decide)

end RawDecoder

end Lzvn.Raw
