/-
Runs of the incremental raw decoder.

`Tracks s q` relates a state to the bytes `q` fed so far: the cursor of a running decoder scans what is left of `q`, and a
finished decoder stands behind the EOS opcode of `q` and has counted its padding.

- `step_ok`, `run_ok`: `Ok` holds in every reachable state, and no call panics.
- `tracks_feed`: feeding keeps `Tracks`.
- `step_outcome`: a decoder fed `q` answers by the scan of `q`, and keeps `Tracks` unless it fails.
-/
import Lzvn.Raw.StreamStep

namespace Lzvn.Raw

open Lzvn.Core Lzvn.Core.Lz77

namespace RawDecoder

/-! ## Steps -/

/-- how a decoder answers a call with buffer `dst` -/
inductive Produces (s : RawDecoder) (dst : List UInt8) : RawDecoder × Reply → Prop where
  | trailing (h : s.trailingAfterFinish ≠ 0) : Produces s dst (s, .failed (.err (.trailingData s.trailingAfterFinish)))
  | finished (h : s.trailingAfterFinish = 0) (hf : s.finished = true) : Produces s dst (s, .progress ⟨0, .finished⟩ dst)
  | progress {t : Cursor} {v : Verdict} {p : StreamProgress} {s' : RawDecoder} {dst' : List UInt8}
    (h : s.trailingAfterFinish = 0) (hf : s.finished = false) (hscan : scan s.resume = (t, v))
    (ha : Answers s dst t v (.ok p (s', dst'))) : Produces s dst (s', .progress p dst')
  | failed {t : Cursor} {v : Verdict} {e : Stop} {s' : RawDecoder} {dst' : List UInt8}
    (h : s.trailingAfterFinish = 0) (hf : s.finished = false) (hscan : scan s.resume = (t, v))
    (ha : Answers s dst t v (.error e (s', dst'))) : Produces s dst (s', .failed e)

theorem answer_trailing {s : RawDecoder} (h : s.trailingAfterFinish ≠ 0) (dst : List UInt8) :
    answer decodeInto s dst = (s, .failed (.err (.trailingData s.trailingAfterFinish))) := by
  have hrun : decodeInto.run (s, dst) = .error (.err (.trailingData s.trailingAfterFinish)) (s, dst) := by
    simp [decodeInto, EStateM.run, h]
  rw [answer, hrun, replied]

theorem answer_finished {s : RawDecoder} (h : s.trailingAfterFinish = 0) (hf : s.finished = true) (dst : List UInt8) :
    answer decodeInto s dst = (s, .progress ⟨0, .finished⟩ dst) := by
  have hrun : decodeInto.run (s, dst) = .ok ⟨0, .finished⟩ (s, dst) := by
    simp [decodeInto, EStateM.run, h, hf]
  rw [answer, hrun, replied]

theorem answer_running {s : RawDecoder} (h : s.trailingAfterFinish = 0) (hf : s.finished = false) (dst : List UInt8) :
    answer decodeInto s dst = match loop.run ⟨s, dst, 0⟩ with
      | .ok status c => (c.self, .progress ⟨c.written, status⟩ c.dst)
      | .error e c => (c.self, .failed e) := by
  rw [answer, run_decodeInto h hf]
  cases loop.run ⟨s, dst, 0⟩ <;> rfl

theorem step_produces {s : RawDecoder} (hs : s.Ok) (dst : List UInt8) :
    Produces s dst (machine.step s (.produce dst)) := by
  show Produces s dst (answer decodeInto s dst)
  by_cases h : s.trailingAfterFinish = 0
  · cases hf : s.finished with
    | true =>
      rw [answer_finished h hf]
      exact .finished h hf
    | false =>
      have ha := decodeInto_answers hs h hf (t := (scan s.resume).1) (v := (scan s.resume).2) rfl dst
      rw [answer]
      cases hrun : decodeInto.run (s, dst) with
      | ok p t =>
        rw [hrun] at ha
        exact .progress h hf rfl ha
      | error e t =>
        rw [hrun] at ha
        exact .failed h hf rfl ha
  · rw [answer_trailing h]
    exact .trailing h

/-! ## Feeding -/

theorem feed_running {s : RawDecoder} (h : s.finished = false) (input : List UInt8) :
    feed input s = { s with input := s.input ++ input } := by
  unfold feed feedWith
  split_ifs with h1 h2
  · simp [h1]
  · rw [h] at h2; cases h2
  · rw [h] at h2; cases h2
  · rfl

theorem feed_history (input : List UInt8) (s : RawDecoder) : (feed input s).history = s.history := by
  unfold feed feedWith
  split_ifs <;> rfl

theorem feed_finished (input : List UInt8) (s : RawDecoder) : (feed input s).finished = s.finished := by
  unfold feed feedWith
  split_ifs <;> rfl

theorem resume_feed {s : RawDecoder} (hs : s.Ok) (input : List UInt8) :
    ({ s with input := s.input ++ input } : RawDecoder).resume = s.resume.more input := by
  have hunread : ({ s with input := s.input ++ input } : RawDecoder).unread = s.unread ++ input :=
    List.drop_append_of_le_length hs.offset_le
  have hlit : s.pending.literal ≤ s.unread.length := by rw [length_unread]; exact hs.literal_le
  simp only [resume, hunread, Cursor.more, List.drop_append_of_le_length hlit, List.take_append_of_le_length hlit]
  rfl

theorem ok_feed {s : RawDecoder} (hs : s.Ok) (input : List UInt8) : (feed input s).Ok := by
  have hoff := hs.offset_le
  have hlit := hs.literal_le
  unfold availableInput at hlit
  unfold feed feedWith
  split_ifs
  · exact hs
  · exact ⟨hs.offset_le, hs.literal_le, hs.reach⟩
  · exact ⟨hs.offset_le, hs.literal_le, hs.reach⟩
  · refine ⟨?_, ?_, hs.reach⟩
    · simp only [List.length_append]; omega
    · simp only [availableInput, List.length_append]; omega

theorem ok_new : new.Ok := ⟨le_rfl, le_rfl, by simp [new]⟩

theorem Answers.ok {s : RawDecoder} {dst : List UInt8} {t : Cursor} {v : Verdict}
    {r : EStateM.Result Stop Target StreamProgress} (h : Answers s dst t v r) :
    match r with
    | .ok _ (s', _) => s'.Ok
    | .error e (s', _) => s'.Ok ∧ e ≠ .panic := by
  cases h with
  | needOutput _ _ after => exact after.ok
  | needInput _ _ after => exact after.ok
  | finished _ _ after => exact after.ok
  | rejected _ _ after => exact ⟨after.ok, by simp⟩
  | trailing _ _ after => exact ⟨after.ok, by simp⟩

/-- **Every call** keeps the offsets and the pending work inside the buffers, and does not panic. -/
theorem step_ok {s : RawDecoder} (hs : s.Ok) (c : Call) :
    (machine.step s c).1.Ok ∧ (machine.step s c).2 ≠ .failed .panic := by
  cases c with
  | feed input => exact ⟨ok_feed hs input, by simp [machine, coder]⟩
  | finishInput => exact ⟨⟨hs.offset_le, hs.literal_le, hs.reach⟩, by simp [machine, coder]⟩
  | produce dst =>
    have h := step_produces hs dst
    generalize machine.step s (.produce dst) = x at h
    cases h with
    | trailing => exact ⟨hs, by simp⟩
    | finished => exact ⟨hs, by simp⟩
    | progress _ _ _ ha => exact ⟨ha.ok, by simp⟩
    | failed _ _ _ ha =>
      refine ⟨ha.ok.1, ?_⟩
      rw [ne_eq, Reply.failed.injEq]
      exact ha.ok.2

theorem run_ok (calls : List Call) : (machine.run new calls).Ok :=
  machine.run_inv Ok (fun _ c hs => (step_ok hs c).1) new ok_new calls

/-! ## The bytes fed so far -/

/-- `s` is where a decoder stands that was fed `q` and has not failed on it -/
inductive Tracks (s : RawDecoder) (q : List UInt8) : Prop where
  | running (ok : s.Ok) (unfinished : s.finished = false) (clean : s.trailingAfterFinish = 0)
    (scan : ∀ more, scan (s.resume.more more) = scan (Cursor.start (q ++ more)))
  | finished {t : Cursor} (ok : s.Ok) (done : s.finished = true) (scan : scan (Cursor.start q) = (t, .eos))
    (out : s.history = t.win.out)
    (clean : s.trailingAfterFinish = 0 → padOk (t.bytes.drop 1) ∧ s.eosPadding = (t.bytes.drop 1).length)
    (bad : s.trailingAfterFinish ≠ 0 → ¬ padOk (t.bytes.drop 1))

theorem Tracks.ok {s : RawDecoder} {q : List UInt8} (h : Tracks s q) : s.Ok := by
  cases h with
  | running ok => exact ok
  | finished ok => exact ok

/-- a decoder has delivered a prefix of what the scan of its input gives -/
theorem Tracks.history_le {s : RawDecoder} {q : List UInt8} (h : Tracks s q) :
    s.history <+: (scan (Cursor.start q)).1.win.out := by
  cases h with
  | running ok unfinished clean hscan =>
    have hresume := hscan []
    rw [Cursor.more_nil, List.append_nil] at hresume
    rw [← hresume]
    exact (history_le_resume s).trans (le_scan s.resume)
  | finished ok done hscan out =>
    rw [hscan, out]

theorem tracks_new : Tracks new [] :=
  .running ok_new rfl rfl fun _ => rfl

/-- the padding behind the EOS opcode once `input` has arrived too -/
theorem scan_eos_more {q : List UInt8} {t : Cursor} (h : scan (Cursor.start q) = (t, .eos)) (input : List UInt8) :
    scan (Cursor.start (q ++ input)) = (t.more input, .eos) ∧
      (t.more input).bytes.drop 1 = t.bytes.drop 1 ++ input := by
  have hmore := scan_more (Cursor.start q) input
  rw [h, if_neg (by simp)] at hmore
  have hb := scan_eos_bytes (c := Cursor.start q) (by rw [h])
  rw [h] at hb
  refine ⟨hmore, ?_⟩
  rw [Cursor.more_bytes]
  exact List.drop_append_of_le_length (by rw [hb]; simp)

theorem tracks_feed {s : RawDecoder} {q : List UInt8} (h : Tracks s q) (input : List UInt8) :
    Tracks (feed input s) (q ++ input) := by
  cases h with
  | running ok unfinished clean hscan =>
    have hok := ok_feed ok input
    rw [feed_running unfinished] at hok ⊢
    refine .running hok unfinished clean ?_
    intro more
    rw [resume_feed ok, Cursor.more_more, hscan, List.append_assoc]
  | @finished t ok done hscan out clean bad =>
    obtain ⟨hscan', hpad⟩ := scan_eos_more hscan input
    have hok := ok_feed ok input
    unfold feed feedWith at hok ⊢
    rw [if_pos done] at hok ⊢
    split_ifs at hok ⊢ with hnil hzero
    · subst hnil
      rw [List.append_nil]
      exact .finished ok done hscan out clean bad
    · rw [List.all_eq_true] at hzero
      simp only [decide_eq_true_eq] at hzero
      refine .finished hok done hscan' out ?_ ?_
      · intro hc
        obtain ⟨hp, hlen⟩ := clean hc
        have hle : (t.bytes.drop 1).length + input.length ≤ 7 := by rw [← hlen]; exact hzero.2
        rw [hpad, List.length_append]
        exact ⟨padOk_append.2 ⟨hp, hzero.1, hle⟩, by dsimp only; omega⟩
      · intro hb
        rw [hpad]
        exact fun hp => bad hb (padOk_append.1 hp).1
    · refine .finished hok done hscan' out ?_ ?_
      · intro hc
        have hlen : 0 < input.length := List.length_pos_iff.2 hnil
        dsimp only at hc
        omega
      · intro _
        rw [hpad]
        intro hp
        obtain ⟨hp1, hz, hle⟩ := padOk_append.1 hp
        by_cases hc : s.trailingAfterFinish = 0
        · refine hzero ⟨?_, ?_⟩
          · simpa using hz
          · rw [(clean hc).2]
            exact hle
        · exact bad hc hp1

theorem tracks_finishInput {s : RawDecoder} {q : List UInt8} (h : Tracks s q) : Tracks (finishInput s) q := by
  cases h with
  | running ok unfinished clean hscan =>
    exact .running ⟨ok.offset_le, ok.literal_le, ok.reach⟩ unfinished clean hscan
  | finished ok done hscan out clean bad =>
    exact .finished ⟨ok.offset_le, ok.literal_le, ok.reach⟩ done hscan out clean bad

/-- bad padding is trailing data -/
theorem finishError_some {padding : List UInt8} (h : ¬ padOk padding) :
    ∃ n, finishError padding = some (.trailingData n) := by
  cases he : finishError padding with
  | none => exact absurd (finishError_none.1 he) h
  | some e =>
    unfold finishError at he
    split_ifs at he <;> cases he <;> exact ⟨_, rfl⟩

/-- the call meets an EOS opcode with bad padding buffered behind it -/
def Trips (s : RawDecoder) : Call → Prop
  | .produce dst =>
    s.trailingAfterFinish = 0 ∧ s.finished = false ∧ (scan s.resume).2 = .eos ∧
      ¬ padOk ((scan s.resume).1.bytes.drop 1) ∧
      (scan s.resume).1.win.out.length < s.history.length + dst.length
  | _ => False

instance (s : RawDecoder) : ∀ c, Decidable (Trips s c)
  | .produce _ => show Decidable (_ ∧ _ ∧ _ ∧ _ ∧ _) from inferInstance
  | .feed _ => show Decidable False from inferInstance
  | .finishInput => show Decidable False from inferInstance

/-- what a decoder fed `q` answers, when the scan of `q` stops at `t` with `v` -/
inductive Outcome (s : RawDecoder) (q dst : List UInt8) (t : Cursor) (v : Verdict) : RawDecoder × Reply → Prop where
  | needOutput {s' : RawDecoder} {dst' : List UInt8} (after : Tracks s' q) (input : s'.finishedInput = s.finishedInput)
    (out : s'.history = s.history ++ dst'.take dst.length) (le : s'.history <+: t.win.out)
    (written : s'.history.length = s.history.length + dst.length) (unfinished : s'.finished = false) :
    Outcome s q dst t v (s', .progress ⟨dst.length, .needOutput⟩ dst')
  | needInput {s' : RawDecoder} {n : ℕ} {dst' : List UInt8} (after : Tracks s' q)
    (input : s'.finishedInput = s.finishedInput) (out : s'.history = s.history ++ dst'.take n)
    (all : s'.history = t.win.out) (short : v = .short) (more : s.finishedInput = false)
    (unfinished : s'.finished = false) :
    Outcome s q dst t v (s', .progress ⟨n, .needInput⟩ dst')
  | finished {s' : RawDecoder} {n : ℕ} {dst' : List UInt8} (after : Tracks s' q)
    (input : s'.finishedInput = s.finishedInput) (out : s'.history = s.history ++ dst'.take n)
    (all : s'.history = t.win.out) (eos : v = .eos) (pad : padOk (t.bytes.drop 1))
    (room : s.finished = false → s'.history.length < s.history.length + dst.length) :
    Outcome s q dst t v (s', .progress ⟨n, .finished⟩ dst')
  | failed {s' : RawDecoder} {e e' : Error} (error : streamError t v = some e) (same : e.same e')
    (last : v = .short → s.finishedInput = true) (after : ¬ Trips s (.produce dst) → Tracks s' q) :
    Outcome s q dst t v (s', .failed (.err e'))

/-- **A call on a decoder fed `q`** answers by the scan of `q`. -/
theorem step_outcome {s : RawDecoder} {q : List UInt8} (h : Tracks s q) {t : Cursor} {v : Verdict}
    (hq : scan (Cursor.start q) = (t, v)) (dst : List UInt8) :
    Outcome s q dst t v (machine.step s (.produce dst)) := by
  have hstep := step_produces h.ok dst
  generalize machine.step s (.produce dst) = x at hstep
  cases h with
  | running ok unfinished clean hscan =>
    have hresume := hscan []
    rw [Cursor.more_nil, List.append_nil, hq] at hresume
    have tracks {s' : RawDecoder} {delta : List UInt8} (after : Continues s s' delta) : Tracks s' q :=
      .running after.ok (after.keeps.finished.trans unfinished) (after.keeps.trailingAfterFinish.trans clean)
        fun more => (after.scan more).trans (hscan more)
    cases hstep with
    | trailing hne => exact absurd clean hne
    | finished _ hf => rw [unfinished] at hf; cases hf
    | progress _ _ hscan' ha =>
      rw [hresume] at hscan'
      cases hscan'
      cases ha with
      | needOutput full out after =>
        rw [full]
        refine .needOutput (tracks after) after.keeps.finishedInput ?_ ?_ ?_ (after.keeps.finished.trans unfinished)
        · rw [← full, List.take_left]; exact after.history
        · rw [after.history]; exact out
        · rw [after.history, List.length_append, full]
      | needInput _ out after _ short more =>
        refine .needInput (tracks after) after.keeps.finishedInput ?_ (after.history.trans out) short more
          (after.keeps.finished.trans unfinished)
        rw [List.take_left]; exact after.history
      | finished room out after eos pad =>
        subst eos
        refine .finished ?_ after.finishedInput ?_ (after.history.trans out) rfl (finishError_none.1 pad) ?_
        · exact .finished after.ok after.finished hq (after.history.trans out)
            (fun _ => ⟨finishError_none.1 pad, after.eosPadding⟩)
            fun hbad => absurd (after.trailingAfterFinish.trans clean) hbad
        · rw [List.take_left]; exact after.history
        · intro _
          rw [after.history, List.length_append]; omega
    | failed _ _ hscan' ha =>
      rw [hresume] at hscan'
      cases hscan'
      cases ha with
      | rejected _ _ after _ last error => exact .failed error (Error.same_refl _) last fun _ => tracks after
      | trailing room out _ eos error =>
        subst eos
        refine .failed error (Error.same_refl _) (by simp) fun ht => absurd ⟨clean, unfinished, by rw [hresume], ?_, ?_⟩ ht
        · rw [hresume]
          exact fun hp => by rw [finishError_none.2 hp] at error; cases error
        · rw [hresume, ← out, List.length_append]
          omega
  | finished ok done hscan out clean bad =>
    rw [hq] at hscan
    cases hscan
    cases hstep with
    | trailing hne =>
      obtain ⟨n, hn⟩ := finishError_some (bad hne)
      exact .failed hn (.inr ⟨_, _, rfl, rfl⟩) (by simp) fun _ => .finished ok done hq out clean bad
    | finished hc _ =>
      refine .finished (.finished ok done hq out clean bad) rfl (by simp) out rfl (clean hc).1 ?_
      intro hf
      rw [done] at hf
      cases hf
    | progress _ hf => rw [done] at hf; cases hf
    | failed _ hf => rw [done] at hf; cases hf

end RawDecoder

end Lzvn.Raw
