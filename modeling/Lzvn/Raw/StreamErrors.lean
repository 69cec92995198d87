/-
Errors of the incremental raw decoder, over runs of calls in any order.

- `no_output_lost_iff`: the bytes reported by successful calls add up to `total_output` after every call exactly when no
  call meets an error behind output that it has just written (`Loses`): such a call drops its count.
- `rejection_persists`: in a run where no call meets an EOS opcode with bad padding behind it (`Trips`) or brings the counter
  of what was fed behind the end back to 0 (`Wraps`), a rejected stream stays rejected and `Finished` is reported for accepted
  streams only. `consume_eos` moves the cursor before it fails, so after a call that trips the decoder goes on inside the
  padding.
-/
import Lzvn.Raw.StreamCounter

namespace Lzvn.Raw

open Lzvn.Core Lzvn.Core.Lz77

namespace RawDecoder

/-! ## Output behind an error -/

/-- the bytes that a list of replies reports as written -/
def reported (replies : List Reply) : ℕ := (replies.map Reply.written).sum

/-- the call meets an error behind output that it has written -/
def Loses (s : RawDecoder) : Call → Prop
  | .produce dst =>
    s.trailingAfterFinish = 0 ∧ s.finished = false ∧
      s.history.length < (scan s.resume).1.win.out.length ∧
      (scan s.resume).1.win.out.length < s.history.length + dst.length ∧
      ((scan s.resume).2 = .short → s.finishedInput = true) ∧ streamError (scan s.resume).1 (scan s.resume).2 ≠ none
  | _ => False

/-- a call reports all of its output exactly when it does not lose any -/
theorem step_reported {s : RawDecoder} (hs : s.Ok) (c : Call) :
    (machine.step s c).1.totalOutput = s.totalOutput + (machine.step s c).2.written ↔ ¬ Loses s c := by
  cases c with
  | feed input =>
    simp [machine, coder, totalOutput, feed_history, Reply.written, Loses]
  | finishInput => simp [machine, coder, totalOutput, finishInput, Reply.written, Loses]
  | produce dst =>
    have h := step_produces hs dst
    generalize machine.step s (.produce dst) = x at h
    cases h with
    | trailing hne => simp [Reply.written, Loses, hne]
    | finished _ hf => simp [Reply.written, Loses, hf]
    | @progress t v p s' dst' hc hf hscan ha =>
      have keeps {delta : List UInt8} (hh : s'.history = s.history ++ delta) (hp : p.written = delta.length) :
          s'.totalOutput = s.totalOutput + (Reply.progress p dst').written := by
        simp only [totalOutput, hh, List.length_append, Reply.written, hp]
      cases ha with
      | needOutput full out after =>
        refine ⟨fun _ hl => ?_, fun _ => keeps after.history rfl⟩
        have hlen := out.length_le
        simp only [Loses, hscan, List.length_append] at hl hlen
        omega
      | needInput room out after idle short more =>
        refine ⟨fun _ hl => ?_, fun _ => keeps after.history rfl⟩
        simp only [Loses, hscan] at hl
        rw [hl.2.2.2.2.1 short] at more
        cases more
      | finished room out after eos pad =>
        refine ⟨fun _ hl => ?_, fun _ => keeps after.history rfl⟩
        simp only [Loses, hscan, eos, streamError, pad] at hl
        exact hl.2.2.2.2.2 rfl
    | @failed t v e s' dst' hc hf hscan ha =>
      have lost {delta : List UInt8} {e' : Error} (hh : s'.history = s.history ++ delta) (out : s.history ++ delta = t.win.out)
          (room : delta.length < dst.length) (hlast : v = .short → s.finishedInput = true)
          (he : streamError t v = some e') : s'.totalOutput = s.totalOutput + 0 ↔ ¬ Loses s (.produce dst) := by
        simp only [Loses, hscan, hc, hf, iff_true_intro hlast, he, totalOutput, hh, ← out, List.length_append]
        simp only [ne_eq, reduceCtorEq, not_false_eq_true, and_true, true_and]
        omega
      cases ha with
      | rejected room out after _ hlast he => exact lost after.history out room hlast he
      | trailing room out after eos he =>
        subst eos
        exact lost after.history out room (by simp) he

/-- **No output is lost** in a run exactly when no call of it meets an error behind output that it has written. -/
theorem no_output_lost_iff (calls : List Call) :
    (∀ a b, calls = a ++ b → (machine.run new a).totalOutput = reported (machine.replies new a)) ↔
      machine.Along (fun s c => ¬ Loses s c) new calls := by
  rw [machine.along_iff]
  have snoc (a : List Call) (c : Call) : reported (machine.replies new (a ++ [c])) =
      reported (machine.replies new a) + (machine.step (machine.run new a) c).2.written := by
    rw [machine.replies_snoc]
    simp [reported]
  constructor
  · intro h a c b hab
    have h1 := h a (c :: b) hab
    have h2 := h (a ++ [c]) b (by rw [hab, List.append_assoc]; rfl)
    rw [machine.run_snoc, snoc, ← h1] at h2
    exact (step_reported (run_ok a) c).1 h2
  · intro h a
    induction a using List.reverseRecOn with
    | nil => exact fun _ _ => rfl
    | append_singleton a c ih =>
      intro b hab
      rw [machine.run_snoc, snoc, ← ih (c :: b) (by rw [hab, List.append_assoc]; rfl)]
      exact (step_reported (run_ok a) c).2 (h a c b (by rw [hab, List.append_assoc]; rfl))

/-- A literal is written and then the opcode behind it is invalid: the call drops its count of one byte. In two calls of
one byte each, the byte is reported. -/
theorem literal_before_invalid_opcode_lost :
    (machine.run new [.feed [0xE1, 0x61, 0x1E], .produce (List.replicate 10 0)]).totalOutput = 1 ∧
      reported (machine.replies new [.feed [0xE1, 0x61, 0x1E], .produce (List.replicate 10 0)]) = 0 ∧
      reported (machine.replies new [.feed [0xE1, 0x61, 0x1E], .produce [0], .produce [0]]) = 1 := by
  decide +kernel

/-! ## Rejected streams -/

/-- the errors that reject a stream -/
def rejects : Error → Bool
  | .invalidOpcode _ _ => true
  | .invalidMatchDistance _ _ => true
  | .trailingData _ => true
  | _ => false

/-- a decoder that can only fail: bytes came behind the end, or all output is out and the next instruction is bad -/
def Stuck (s : RawDecoder) : Prop :=
  s.trailingAfterFinish ≠ 0 ∨ s.finished = false ∧ s.history = (scan s.resume).1.win.out ∧
    (scan s.resume).2 ≠ .short ∧ (scan s.resume).2 ≠ .eos

theorem stuck_feed {s : RawDecoder} (hs : s.Ok) (h : Stuck s) (input : List UInt8) : Stuck (feed input s) := by
  rcases h with hne | ⟨hf, hout, hshort, heos⟩
  · left
    unfold feed feedWith
    split_ifs
    · exact hne
    · exact hne
    · dsimp only; omega
    · exact hne
  · right
    have hmore := scan_more s.resume input
    rw [if_neg hshort] at hmore
    rw [feed_running hf, resume_feed hs, hmore]
    exact ⟨hf, hout, hshort, heos⟩

/-- a call that leaves the scan and delivers nothing leaves the decoder stuck -/
theorem stuck_continues {s s' : RawDecoder} (hf : s.finished = false) (hout : s.history = (scan s.resume).1.win.out)
    (hshort : (scan s.resume).2 ≠ .short) (heos : (scan s.resume).2 ≠ .eos) (h : Continues s s' []) : Stuck s' := by
  have hscan := h.scan []
  rw [Cursor.more_nil, Cursor.more_nil] at hscan
  right
  rw [hscan]
  exact ⟨h.keeps.finished.trans hf, by rw [h.history, List.append_nil]; exact hout, hshort, heos⟩

/-- **A stuck decoder stays stuck**, and every call with a nonempty buffer fails. -/
theorem step_stuck {s : RawDecoder} (hs : s.Ok) (h : Stuck s) (c : Call) : Stuck (machine.step s c).1 ∧
    ∀ dst, c = .produce dst → dst ≠ [] → ∃ e, (machine.step s c).2 = .failed (.err e) := by
  cases c with
  | feed input => exact ⟨stuck_feed hs h input, by simp⟩
  | finishInput => exact ⟨h, by simp⟩
  | produce dst =>
    suffices hstep : Stuck (machine.step s (.produce dst)).1 ∧
        (dst ≠ [] → ∃ e, (machine.step s (.produce dst)).2 = .failed (.err e)) by
      exact ⟨hstep.1, fun d hd => by cases hd; exact hstep.2⟩
    have hprod := step_produces hs dst
    generalize machine.step s (.produce dst) = x at hprod
    cases hprod with
    | trailing hne => exact ⟨.inl hne, fun _ => ⟨_, rfl⟩⟩
    | finished hc hf =>
      rcases h with hne | ⟨hf', -⟩
      · exact absurd hc hne
      · rw [hf] at hf'; cases hf'
    | progress hc hf hscan ha =>
      obtain ⟨-, hout, hshort, heos⟩ := h.resolve_left (not_not.2 hc)
      rw [hscan] at hout hshort heos
      cases ha with
      | @needOutput _ delta full out after =>
        have hnil : delta = [] := by
          have := out.length_le
          rw [List.length_append, ← hout] at this
          exact List.eq_nil_of_length_eq_zero (by omega)
        subst hnil
        refine ⟨stuck_continues hf (by rw [hscan]; exact hout) (by rw [hscan]; exact hshort)
          (by rw [hscan]; exact heos) after, fun hne => ?_⟩
        exact absurd (List.eq_nil_of_length_eq_zero full.symm) hne
      | needInput _ _ _ _ short => exact absurd short hshort
      | finished _ _ _ eos => exact absurd eos heos
    | failed hc hf hscan ha =>
      obtain ⟨-, hout, hshort, heos⟩ := h.resolve_left (not_not.2 hc)
      rw [hscan] at hout hshort heos
      cases ha with
      | @rejected _ delta _ _ out after =>
        have hnil : delta = [] := by
          have := congrArg List.length out
          rw [List.length_append, ← hout] at this
          exact List.eq_nil_of_length_eq_zero (by omega)
        subst hnil
        exact ⟨stuck_continues hf (by rw [hscan]; exact hout) (by rw [hscan]; exact hshort)
          (by rw [hscan]; exact heos) after, fun _ => ⟨_, rfl⟩⟩
      | trailing _ _ _ eos => exact absurd eos heos

/-- a rejected stream leaves the decoder stuck, unless the call tripped -/
theorem step_rejects {s : RawDecoder} (hs : s.Ok) {dst : List UInt8} (ht : ¬ Trips s (.produce dst)) {e : Error}
    (hr : (machine.step s (.produce dst)).2 = .failed (.err e)) (he : rejects e = true) :
    Stuck (machine.step s (.produce dst)).1 := by
  have hprod := step_produces hs dst
  generalize machine.step s (.produce dst) = x at hprod hr
  cases hprod with
  | trailing hne => exact .inl hne
  | finished => cases hr
  | progress => cases hr
  | @failed t v _ s' _ hc hf hscan ha =>
    cases hr
    cases ha with
    | rejected room out after notEos last error =>
      have hscan' := after.scan []
      rw [Cursor.more_nil, Cursor.more_nil, hscan] at hscan'
      right
      rw [hscan']
      refine ⟨after.keeps.finished.trans hf, after.history.trans out, fun hshort => ?_, notEos⟩
      dsimp only at hshort
      subst hshort
      cases error
      cases he
    | trailing room out after eos error =>
      subst eos
      refine absurd ⟨hc, hf, by rw [hscan], ?_, ?_⟩ ht
      · rw [hscan]
        intro hp
        rw [finishError_none.2 hp] at error
        cases error
      · rw [hscan, ← out, List.length_append]
        omega

/-! ### The errors of a call -/

/-- the errors that the raw decoder raises -/
def raises : Error → Bool
  | .truncatedInput _ => true
  | .invalidOpcode _ _ => true
  | .invalidMatchDistance _ _ => true
  | .trailingData _ => true
  | _ => false

theorem finishError_raises {padding : List UInt8} {e : Error} (h : finishError padding = some e) : ∃ n, e = .trailingData n := by
  unfold finishError at h
  split_ifs at h <;> cases h <;> exact ⟨_, rfl⟩

theorem streamError_raises {t : Cursor} {v : Verdict} {e : Error} (h : streamError t v = some e) : raises e = true := by
  cases v with
  | eos =>
    obtain ⟨n, rfl⟩ := finishError_raises h
    rfl
  | short => cases h; rfl
  | invalidOpcode op => cases h; rfl
  | badDistance s => cases h; rfl

theorem step_raises {s : RawDecoder} (hs : s.Ok) {dst : List UInt8} {e : Error}
    (h : (machine.step s (.produce dst)).2 = .failed (.err e)) : raises e = true := by
  have hp := step_produces hs dst
  generalize machine.step s (.produce dst) = x at hp h
  cases hp with
  | trailing => cases h; rfl
  | finished => cases h
  | progress => cases h
  | failed _ _ _ ha =>
    cases h
    cases ha with
    | rejected _ _ _ _ _ error => exact streamError_raises error
    | trailing _ _ _ _ error =>
      obtain ⟨n, rfl⟩ := finishError_raises error
      rfl

/-- a call that trips reports trailing data -/
theorem trips_reply {s : RawDecoder} (hs : s.Ok) {dst : List UInt8} (ht : Trips s (.produce dst)) {e : Error}
    (h : (machine.step s (.produce dst)).2 = .failed (.err e)) : ∃ n, e = .trailingData n := by
  obtain ⟨-, -, heos, -⟩ := ht
  have hp := step_produces hs dst
  generalize machine.step s (.produce dst) = x at hp h
  cases hp with
  | trailing => cases h; exact ⟨_, rfl⟩
  | finished => cases h
  | progress => cases h
  | failed _ _ hscan ha =>
    cases h
    rw [hscan] at heos
    cases ha with
    | rejected _ _ _ notEos => exact absurd heos notEos
    | trailing _ _ _ _ error => exact finishError_raises error

/-- an invalid opcode and an invalid distance leave the decoder stuck, in whatever state the call was made -/
theorem stuck_of_invalid {s : RawDecoder} (hs : s.Ok) {dst : List UInt8} {e : Error}
    (h : (machine.step s (.produce dst)).2 = .failed (.err e)) (he : rejects e = true) (hne : ∀ n, e ≠ .trailingData n) :
    Stuck (machine.step s (.produce dst)).1 := by
  refine step_rejects hs (fun ht => ?_) h he
  obtain ⟨n, hn⟩ := trips_reply hs ht h
  exact hne n hn

/-- a stuck decoder reports progress only for an empty buffer, and asks for output then -/
theorem stuck_reply {s s' : RawDecoder} (hs : s.Ok) (h : Stuck s) {dst dst' : List UInt8} {p : StreamProgress}
    (hstep : machine.step s (.produce dst) = (s', .progress p dst')) : dst = [] ∧ p.status = .needOutput := by
  have hnil : dst = [] := by
    by_contra hne
    obtain ⟨e, he⟩ := (step_stuck hs h (.produce dst)).2 dst rfl hne
    rw [hstep] at he
    cases he
  refine ⟨hnil, ?_⟩
  subst hnil
  have hp := step_produces hs []
  rw [hstep] at hp
  cases hp with
  | finished hc hf =>
    rcases h with hne | ⟨hf', -⟩
    · exact absurd hc hne
    · rw [hf] at hf'
      cases hf'
  | progress _ _ _ ha =>
    cases ha with
    | needOutput => rfl
    | needInput room => exact absurd room (Nat.not_lt_zero _)
    | finished room => exact absurd room (Nat.not_lt_zero _)

/-- `Finished` leaves the decoder finished -/
theorem step_finished {s s' : RawDecoder} (hs : s.Ok) {dst dst' : List UInt8} {p : StreamProgress}
    (hstep : machine.step s (.produce dst) = (s', .progress p dst')) (hp : p.status = .finished) : s'.finished = true := by
  have hprod := step_produces hs dst
  rw [hstep] at hprod
  cases hprod with
  | finished _ hf => exact hf
  | progress _ _ _ ha =>
    cases ha with
    | needOutput => cases hp
    | needInput => cases hp
    | finished _ _ after => exact after.finished

/-! ### Rejection persists -/

/-- a call that does not trip keeps `Tracks`, also when it fails -/
theorem step_tracks {s : RawDecoder} {q : List UInt8} (h : Tracks s q) {c : Call} (ht : ¬ Trips s c) :
    Tracks (machine.step s c).1 (q ++ c.fed) := by
  cases c with
  | feed input => exact tracks_feed h input
  | finishInput =>
    show Tracks _ (q ++ [])
    rw [List.append_nil]
    exact tracks_finishInput h
  | produce dst =>
    show Tracks _ (q ++ [])
    rw [List.append_nil]
    have hout := step_outcome h (t := (scan (Cursor.start q)).1) (v := (scan (Cursor.start q)).2) rfl dst
    generalize machine.step s (.produce dst) = x at hout
    cases hout with
    | needOutput after => exact after
    | needInput after => exact after
    | finished after => exact after
    | failed _ _ _ after => exact after ht

theorem run_tracks (calls : List Call) (s : RawDecoder) (q : List UInt8) (h : Tracks s q)
    (ht : machine.Along (fun s c => ¬ Trips s c) s calls) : Tracks (machine.run s calls) (q ++ fed calls) := by
  induction calls generalizing s q with
  | nil => simpa [fed, Machine.run] using h
  | cons c calls ih =>
    have := ih _ _ (step_tracks h ht.1) ht.2
    rwa [List.append_assoc] at this

theorem run_stuck (calls : List Call) (s : RawDecoder) (h : s.Ok ∧ Stuck s) :
    (machine.run s calls).Ok ∧ Stuck (machine.run s calls) :=
  machine.run_inv (fun s => s.Ok ∧ Stuck s) (fun _ c hs => ⟨(step_ok hs.1 c).1, (step_stuck hs.1 hs.2 c).1⟩) s h calls

/-- behind a call that rejects the stream and does not trip, every call with a nonempty buffer fails -/
theorem rejected_fails {a b : List Call} {dst dst' : List UInt8} {e : Error} (ht : ¬ Trips (machine.run new a) (.produce dst))
    (hr : (machine.step (machine.run new a) (.produce dst)).2 = .failed (.err e)) (he : rejects e = true) (hne : dst' ≠ []) :
    ∃ e', (machine.step (machine.run new (a ++ .produce dst :: b)) (.produce dst')).2 = .failed (.err e') := by
  have hstuck := run_stuck b _ ⟨(step_ok (run_ok a) (.produce dst)).1, step_rejects (run_ok a) ht hr he⟩
  rw [machine.run_append, machine.run_cons]
  exact (step_stuck hstuck.1 hstuck.2 (.produce dst')).2 dst' rfl hne

/-- `Finished` is reported for accepted streams only, if no call has tripped -/
theorem finished_accepted {a : List Call} {dst dst' : List UInt8} {n : ℕ} (ht : machine.Along (fun s c => ¬ Trips s c) new a)
    (hr : (machine.step (machine.run new a) (.produce dst)).2 = .progress ⟨n, .finished⟩ dst') :
    ∃ len, ∀ whole : List UInt8, len ≤ whole.length → ∃ whole', (Raw.decodeInto (fed a)).run whole = .ok len whole' := by
  have htracks := run_tracks a new [] tracks_new ht
  have hout := step_outcome htracks (t := (scan (Cursor.start (fed a))).1) (v := (scan (Cursor.start (fed a))).2) rfl dst
  generalize machine.step (machine.run new a) (.produce dst) = x at hout hr
  cases hout with
  | needOutput => cases hr
  | needInput => cases hr
  | finished after input out all eos pad =>
    have hstream := isStream_iff_scan.2 ⟨eos, pad, rfl⟩
    exact ⟨_, fun whole hlen => ⟨_, decodeInto_ok_iff.2 ⟨_, hstream, rfl, hlen, rfl⟩⟩⟩
  | failed => cases hr

theorem same_rejects {e e' : Error} (h : e.same e') : rejects e = rejects e' := by
  rcases h with rfl | ⟨m, n, rfl, rfl⟩ <;> rfl

/-- a decoder of width `u` trips where the one with the exact counter does -/
theorem Residue.trips {u : Usize} {s t : RawDecoder} (h : Residue u s t) {c : Call} (ht : Trips t c) : Trips s c := by
  cases c with
  | produce dst =>
    obtain rfl := h.same ht.1
    exact ht
  | feed input => exact ht
  | finishInput => exact ht

/-- **A rejected stream stays rejected**, and `Finished` is reported for accepted streams only, on a machine of any width, in
every run in which no call meets an EOS opcode with bad padding behind it or brings the counter of trailing bytes to 0. -/
theorem rejection_persists (u : Usize) (calls : List Call)
    (h : (machineOn u).Along (fun s c => ¬ Trips s c ∧ ¬ Wraps u s c) new calls) :
    (∀ a dst b e, calls = a ++ .produce dst :: b →
      ((machineOn u).step ((machineOn u).run new a) (.produce dst)).2 = .failed (.err e) → rejects e = true →
      ∀ b1 dst' b2, b = b1 ++ .produce dst' :: b2 → dst' ≠ [] → ∃ e',
        ((machineOn u).step ((machineOn u).run new (a ++ .produce dst :: b1)) (.produce dst')).2 = .failed (.err e')) ∧
    (∀ a dst b n dst', calls = a ++ .produce dst :: b →
      ((machineOn u).step ((machineOn u).run new a) (.produce dst)).2 = .progress ⟨n, .finished⟩ dst' →
      ∃ len, ∀ whole : List UInt8, len ≤ whole.length →
        ∃ whole', (Raw.decodeInto (fed a)).run whole = .ok len whole') := by
  have before {a b : List Call} {c : Call} (hab : calls = a ++ c :: b) :
      (machineOn u).Along (fun s c => ¬ Trips s c ∧ ¬ Wraps u s c) new a := by
    rw [hab] at h
    exact h.of_append
  -- the decoder with the exact counter is called in the same state, but for the counter, and gives the same reply
  have counted {a b : List Call} {dst : List UInt8} (hab : calls = a ++ .produce dst :: b) :
      Residue u ((machineOn u).run new a) (machine.run new a) ∧
        Agree ((machineOn u).step ((machineOn u).run new a) (.produce dst)).2
          (machine.step (machine.run new a) (.produce dst)).2 := by
    have hresidue := run_residue a ((before hab).imp fun _ _ hc => hc.2)
    exact ⟨hresidue, (hresidue.produce dst).2⟩
  have untripped {s t : RawDecoder} {c : Call} (hr : Residue u s t) (hc : ¬ Trips s c ∧ ¬ Wraps u s c) : ¬ Trips t c :=
    fun ht => hc.1 (hr.trips ht)
  constructor
  · intro a dst b e hab hr he b1 dst' b2 hb hne
    obtain ⟨hresidue, hagree⟩ := counted hab
    have ht := untripped hresidue (((machineOn u).along_iff _ _ _).1 h a _ b hab)
    rw [hr] at hagree
    obtain ⟨e1, hr1, hsame⟩ := hagree.failed
    obtain ⟨e2, hr2⟩ := rejected_fails (b := b1) ht hr1 ((same_rejects hsame).symm.trans he) hne
    have hab' : calls = (a ++ .produce dst :: b1) ++ .produce dst' :: b2 := by rw [hab, hb, List.append_assoc]; rfl
    obtain ⟨-, hagree'⟩ := counted hab'
    rw [hr2] at hagree'
    obtain ⟨e', hr', -⟩ := hagree'.symm.failed
    exact ⟨e', hr'⟩
  · intro a dst b n dst' hab hr
    have ht : machine.Along (fun s c => ¬ Trips s c) new a :=
      (machineOn u).along_simulates machine (P := fun s c => ¬ Trips s c ∧ ¬ Wraps u s c) (Residue u)
        (fun _ _ c hst hc => ⟨(step_residue hst c hc.2).1, untripped hst hc⟩) a (residue_new u) (before hab)
    obtain ⟨-, hagree⟩ := counted hab
    rw [hr] at hagree
    exact finished_accepted ht hagree.progress

/-- the hypothesis holds of a run that rejects an opcode and is called again -/
theorem rejection_persists_invalid_opcode : ∃ e',
    ((machineOn .bits64).step ((machineOn .bits64).run new ([.feed [0x1E]] ++ .produce [0] :: [.feed [0x06], .finishInput]))
      (.produce [0])).2 = .failed (.err e') :=
  (rejection_persists .bits64 [.feed [0x1E], .produce [0], .feed [0x06], .finishInput, .produce [0]] (by decide +kernel)).1
    [.feed [0x1E]] [0] [.feed [0x06], .finishInput, .produce [0]] (.invalidOpcode 0 0x1E) rfl (by decide +kernel) rfl
    [.feed [0x06], .finishInput] [0] [] rfl (by simp)

/-- The padding behind the EOS opcode is bad and rejected; the next call takes it for an EOS opcode and finishes. -/
theorem bad_padding_then_finished :
    (machineOn .bits64).replies new [.feed [0x06, 0x06], .produce [0], .produce [0]] =
      [.done, .failed (.err (.trailingData 1)), .progress ⟨0, .finished⟩ [0]] ∧
    (Raw.decodeInto [0x06, 0x06]).run [0] = .error (.err (.trailingData 1)) [0] :=
  ⟨by decide +kernel, rfl⟩

end RawDecoder

end Lzvn.Raw
