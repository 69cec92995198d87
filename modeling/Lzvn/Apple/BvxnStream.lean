/-
Incremental decoding of `bvxn` blocks by drivers, as in `Raw.StreamAgrees`.

- `drive_ends`: a driver with enough buffers ends.
- `block_streams`: on a valid block, a driver that stops at the first `Finished` sees no error, and the block's contents.
- `incremental_verdict`: a driver that feeds everything ends in `Finished` exactly when one-shot decoding returns `Ok`,
  unless a call was early: `decode_into` takes the end of the raw stream for the end of the block, also when declared
  payload bytes are still to come.
-/
import Lzvn.Apple.BvxnRuns

namespace Lzvn.Apple

open Lzvn.Core Lzvn.Apple.Bvxn
open Lzvn.Raw (Cursor IsStream scan)

namespace BvxnDecoder

/-! ## Drivers end -/

/-- `s` was fed `q` and has not failed, or has finished -/
def Live (s : BvxnDecoder) (q : List UInt8) : Prop := s.finished = true ∨ Tracks s q

/-- a finished decoder stays as it is, and says so or fails -/
theorem answer_done {s : BvxnDecoder} (h : s.finished = true) (dst : List UInt8) :
    (answer decodeInto s dst).1 = s ∧
      ((answer decodeInto s dst).2.isFailed = true ∨ (answer decodeInto s dst).2.isFinished = true) := by
  by_cases hclean : s.trailingAfterFinish = 0
  · rw [answer_finished hclean h]
    exact ⟨rfl, .inr rfl⟩
  · rw [answer_trailing hclean]
    exact ⟨rfl, .inl rfl⟩

theorem answer_live {s : BvxnDecoder} {q : List UInt8} (h : Live s q) (dst : List UInt8) :
    (answer decodeInto s dst).2.isFailed = true ∨ Live (answer decodeInto s dst).1 q := by
  rcases h with hf | h
  · exact .inr (.inl (by rwa [(answer_done hf dst).1]))
  · have hout : Outcome s q dst (answer decodeInto s dst) := step_outcome h dst
    generalize answer decodeInto s dst = x at hout
    cases hout with
    | needInput after => exact .inr (.inr after)
    | needOutput after => exact .inr (.inr after)
    | finished done => exact .inr (.inl done)
    | failed => exact .inl rfl

/-- **A driver with enough buffers ends**, if it stops at errors, and at `Finished` after the last feed. -/
theorem drive_ends {b : List UInt8} {stop : Reply → List Call → Bool} (hdone : ∀ calls, stop .done calls = false)
    (hfailed : ∀ r calls, r.isFailed = true → stop r calls = true)
    (hfinished : ∀ r (bufs : List (List UInt8)), r.isFinished = true → stop r (bufs.map .produce) = true)
    (schedule : Schedule b)
    (hlen : (scan (Cursor.start (b.drop headerLen))).1.win.out.length < schedule.post.length) :
    (machine.drive stop new schedule.calls).2 = true := by
  refine schedule.drive_ends (I := fun s k => s.finishedInput = true ∧ (s.finished = true ∧ k = 0 ∨
      Tracks s b ∧ s.finished = false ∧ s.raw.history.length = k)) Live hdone ?_
    (fun s q dst calls h => (answer_live h dst).imp_left (hfailed _ _)) ?_ ?_ ?_ new (.inr tracks_new) hlen
  · intro s q input h
    rcases h with hf | h
    · exact .inl ((feed_keeps input s).1.trans hf)
    · exact .inr (tracks_feed h input)
  · intro s h
    rcases h with hf | h
    · exact ⟨0, rfl, .inl ⟨hf, rfl⟩⟩
    · cases hf : s.finished with
      | true => exact ⟨0, rfl, .inl ⟨hf, rfl⟩⟩
      | false => exact ⟨_, rfl, .inr ⟨tracks_finishInput h, hf, rfl⟩⟩
  · intro s k h
    rcases h with ⟨-, ⟨-, rfl⟩ | ⟨h, hf, rfl⟩⟩
    · exact Nat.zero_le _
    · exact (h.history_le hf).length_le
  · intro s k dst bufs h hne
    rcases h with ⟨hlast, ⟨hf, -⟩ | ⟨h, hf, rfl⟩⟩
    · exact .inl ((answer_done hf dst).2.elim (hfailed _ _) (hfinished _ _))
    · have hout : Outcome s b dst (answer decodeInto s dst) := step_outcome h dst
      generalize answer decodeInto s dst = x at hout
      cases hout with
      | needInput after input out more => rw [hlast] at more; cases more
      | needOutput after input out written unfinished =>
        have hpos : 0 < dst.length := List.length_pos_iff.2 hne
        exact .inr ⟨_, by dsimp only; omega, input.trans hlast, .inr ⟨after, unfinished, rfl⟩⟩
      | finished => exact .inl (hfinished _ _ rfl)
      | failed => exact .inl (hfailed _ _ rfl)

/-! ## Valid blocks -/

/-- **A driver on the way through a valid block** sees no error, and ends in `Finished` with the contents. -/
theorem drive_streams {b v : List UInt8} (calls : List Call) (s : BvxnDecoder) (q : List UInt8) (h : Tracks s q)
    (hb : IsBlock b v) (hsrc : q ++ fed calls = b) (hlast : s.finishedInput = true → fed calls = [])
    (hfin : ∀ x y, calls = x ++ .finishInput :: y → fed y = []) :
    (∀ r ∈ (machine.drive untilFinished s calls).1, r.isFailed = false) ∧
    EndsWith s.raw.history (fun last out => last.isFinished = true ∧ out = v) (machine.drive untilFinished s calls) := by
  have hends : EndsWith s.raw.history (fun last out => last.isFinished = true ∧ out = v)
      (machine.drive untilFinished s calls) := by
    refine drive_rule Tracks (fun s => s.raw.history) finishedInput (fun _ _ _ => True) (fun _ => rfl)
      (fun s _ input h => ⟨tracks_feed h input, congrArg _ (feed_keeps input s).2.1, (feed_keeps input s).2.2⟩)
      (fun _ _ h => ⟨tracks_finishInput h, rfl⟩) ?_ calls s q h hsrc hlast hfin fun _ _ _ _ => trivial
    rintro s q dst calls h rfl hlast -
    have hout : Outcome s q dst (answer decodeInto s dst) := step_outcome h dst
    generalize answer decodeInto s dst = x at hout
    cases hout with
    | needInput after input out => exact .inl ⟨rfl, after, input, out⟩
    | needOutput after input out => exact .inl ⟨rfl, after, input, out⟩
    | finished done input out all => exact .inr ⟨rfl, rfl, out.symm.trans (all _ v hb)⟩
    | failed bad =>
      obtain ⟨hf, hmore⟩ := bad _ v hb
      exact absurd (hlast hf) hmore
  refine ⟨?_, hends⟩
  intro r hr
  rcases machine.drive_replies hr with ⟨rest, hgoes⟩ | ⟨hended, hlast⟩
  · exact (Bool.or_eq_false_iff.1 hgoes).1
  · obtain ⟨last, hget, hfinished, -⟩ := hends hended
    obtain rfl := Option.some.inj (hlast.symm.trans hget)
    cases r with
    | failed e => cases hfinished
    | done => rfl
    | progress p dst => rfl

/-- **Every valid block streams to its contents.** A driver that stops at the first `Finished` sees no error; with more
buffers than there is output it ends, and then in `Finished`, with the contents of the block. -/
theorem block_streams (u : Usize) (b v : List UInt8) (h : decode u b = .ok v) (schedule : Schedule b) :
    (∀ r ∈ (machine.drive untilFinished new schedule.calls).1, r.isFailed = false) ∧
    (v.length < schedule.post.length → (machine.drive untilFinished new schedule.calls).2 = true) ∧
    ((machine.drive untilFinished new schedule.calls).2 = true →
      ∃ last, (machine.drive untilFinished new schedule.calls).1.getLast? = some last ∧ last.isFinished = true ∧
        outputs (machine.drive untilFinished new schedule.calls).1 = v) := by
  obtain ⟨hb, -, -⟩ := decode_ok_iff.1 h
  obtain ⟨hclean, hends⟩ := drive_streams schedule.calls new [] tracks_new hb schedule.fed_calls (by simp [new])
    (fun _ _ => schedule.fed_behind)
  refine ⟨hclean, fun hlen => ?_, hends⟩
  refine drive_ends (fun _ => rfl) (fun r calls hr => by rw [untilFinished, hr]; rfl)
    (fun r bufs hr => by rw [untilFinished, hr, Bool.or_true]) schedule ?_
  obtain ⟨_, -, -, hs, -⟩ := isBlock_iff.1 hb
  rw [(Raw.isStream_iff_scan.1 hs).2.2]
  exact hlen

/-- the block comes in two chunks, and in one after a first call -/
def helloSchedule : Schedule helloBlock where
  pre := [.feed (helloBlock.take 9), .produce [0], .feed (helloBlock.drop 9)]
  post := [[0, 0], [0], [0], [0], [0], [0, 0]]
  fed_pre := by decide
  pre_open := by simp
  pre_buffers := by simp
  post_buffers := by simp

theorem hello_streams : (machine.drive untilFinished new helloSchedule.calls).2 = true ∧
    ∃ last, (machine.drive untilFinished new helloSchedule.calls).1.getLast? = some last ∧ last.isFinished = true ∧
      outputs (machine.drive untilFinished new helloSchedule.calls).1 = hello := by
  have h := block_streams .bits64 helloBlock hello (by decide +kernel) helloSchedule
  exact ⟨h.2.1 (by decide), h.2.2 (h.2.1 (by decide))⟩

/-! ## Every input -/

/-- what the block that a driver fed makes of its last reply and of all output -/
def Agrees (b : List UInt8) (last : Reply) (out : List UInt8) : Prop :=
  (last.isFinished = true → IsBlock b out) ∧ ∀ v, IsBlock b v → last.isFinished = true

/-- **A driver that ended without an early call** has seen whether it was fed a block. -/
theorem drive_agrees {b : List UInt8} (calls : List Call) (s : BvxnDecoder) (q : List UInt8) (h : Tracks s q)
    (hb : q ++ fed calls = b) (hlast : s.finishedInput = true → fed calls = [])
    (hfin : ∀ x y, calls = x ++ .finishInput :: y → fed y = [])
    (hearly : ∀ x dst y, machine.made untilFed s calls = x ++ .produce dst :: y →
      ¬ Early (q ++ fed x) (machine.run s x).raw.totalOutput dst) :
    EndsWith s.raw.history (Agrees b) (machine.drive untilFed s calls) := by
  refine drive_rule Tracks (fun s => s.raw.history) finishedInput (fun s q dst => ¬ Early q s.raw.totalOutput dst)
    (fun _ => rfl)
    (fun s _ input h => ⟨tracks_feed h input, congrArg _ (feed_keeps input s).2.1, (feed_keeps input s).2.2⟩)
    (fun _ _ h => ⟨tracks_finishInput h, rfl⟩) ?_ calls s q h hb hlast hfin hearly
  rintro s q dst calls h rfl hlast hearly
  have hout : Outcome s q dst (answer decodeInto s dst) := step_outcome h dst
  generalize answer decodeInto s dst = x at hout
  cases hout with
  | needInput after input out => exact .inl ⟨rfl, after, input, out⟩
  | needOutput after input out => exact .inl ⟨rfl, after, input, out⟩
  | finished done input out all room after =>
    obtain ⟨after, hblock⟩ := after hearly
    cases hstop : calls.any Call.isFeed with
    | true => exact .inl ⟨by rw [untilFed, hstop]; rfl, after, input, out⟩
    | false =>
      refine .inr ⟨by rw [untilFed, hstop]; rfl, ?_⟩
      rw [fed_eq_nil hstop, List.append_nil]
      exact ⟨fun _ => by rw [out] at hblock; exact hblock, fun _ _ => rfl⟩
  | failed bad =>
    refine .inr ⟨rfl, fun hf => (by cases hf), ?_⟩
    intro v hv
    obtain ⟨hf, hmore⟩ := bad _ v hv
    exact absurd (hlast hf) hmore

/-- one-shot decoding can count and allocate the lengths that the header of `b` declares -/
def Addressable (u : Usize) (b : List UInt8) : Prop :=
  ∀ header, parseHeader b = .ok header → headerLen + header.payloadBytes ≤ u.max ∧ header.rawBytes ≤ u.isizeMax

/-- 64 bits are enough for every header -/
theorem addressable_bits64 (b : List UInt8) : Addressable .bits64 b := by
  intro header h
  obtain ⟨-, -, hr, hp⟩ := parseHeader_ok_iff.1 h
  simp only [headerLen, Usize.max, Usize.isizeMax, Usize.bits]
  omega

/-- **Incremental decoding gives the one-shot verdict** when no call is early: a driver that feeds all of `b` and has
enough buffers ends, and it ends in `Finished` exactly when `decode` returns `Ok`. -/
theorem incremental_verdict (u : Usize) (b : List UInt8) (hb : Addressable u b) : ∃ enough, ∀ schedule : Schedule b,
    (∀ x dst y, machine.made untilFed new schedule.calls = x ++ .produce dst :: y →
      ¬ Early (fed x) (machine.run new x).raw.totalOutput dst) →
    (enough ≤ schedule.post.length → (machine.drive untilFed new schedule.calls).2 = true) ∧
    ((machine.drive untilFed new schedule.calls).2 = true →
      ∃ last, (machine.drive untilFed new schedule.calls).1.getLast? = some last ∧
        (last.isFinished = true ↔ ∃ v, decode u b = .ok v)) := by
  refine ⟨(scan (Cursor.start (b.drop headerLen))).1.win.out.length + 1, fun schedule hearly => ⟨?_, ?_⟩⟩
  · intro hlen
    exact drive_ends (fun _ => rfl) (fun r calls hr => by rw [untilFed, hr]; rfl)
      (fun r bufs hr => by rw [untilFed, hr, no_feed_buffers]; simp) schedule hlen
  · intro hended
    obtain ⟨last, hlast, hfinished, hblock⟩ := drive_agrees schedule.calls new [] tracks_new schedule.fed_calls
      (by simp [new]) (fun _ _ => schedule.fed_behind) hearly hended
    refine ⟨last, hlast, fun hf => ⟨_, decode_ok_iff.2 ⟨hfinished hf, ?_⟩⟩, fun ⟨v, hv⟩ => hblock v (decode_ok_iff.1 hv).1⟩
    obtain ⟨header, hp, hlen, -, hv⟩ := isBlock_iff.1 (hfinished hf)
    rw [hlen, hv]
    exact hb header hp

/-- a call on all of the declared payload is not early -/
theorem not_early_whole {q dst : List UInt8} {header : BvxnHeader} {n : ℕ} (hp : parseHeader q = .ok header)
    (hlen : headerLen + header.payloadBytes ≤ q.length) : ¬ Early q n dst := by
  rintro ⟨header', v, hp', hlt, -⟩
  obtain rfl : header = header' := Except.ok.inj (hp.symm.trans hp')
  omega

/-- a call in front of the EOS opcode is not early -/
theorem not_early_open {q dst : List UInt8} {n : ℕ} (h : (scan (Cursor.start (q.drop headerLen))).2 ≠ .eos) :
    ¬ Early q n dst := by
  rintro ⟨header, v, -, -, hs, -⟩
  exact h (Raw.isStream_iff_scan.1 hs).1

/-- the block is cut behind its literals, with a call in between -/
def cutSchedule : Schedule helloBlock where
  pre := [.feed (helloBlock.take 18), .produce [0], .feed (helloBlock.drop 18)]
  post := [[0, 0], [0], [0, 0]]
  fed_pre := by decide
  pre_open := by simp
  pre_buffers := by simp
  post_buffers := by simp

/-- no call is early when the EOS opcode comes with all of its padding -/
theorem hello_verdict : ∃ last, (machine.drive untilFed new cutSchedule.calls).1.getLast? = some last ∧
    (last.isFinished = true ↔ ∃ v, decode .bits64 helloBlock = .ok v) := by
  obtain ⟨_, h⟩ := incremental_verdict .bits64 helloBlock (addressable_bits64 _)
  refine (h cutSchedule fun x dst y hx => ?_).2 (by decide +kernel)
  have hmade : machine.made untilFed new cutSchedule.calls = cutSchedule.calls := by decide +kernel
  rw [hmade] at hx
  rcases x with _ | ⟨c1, _ | ⟨c2, _ | ⟨c3, _ | ⟨c4, x⟩⟩⟩⟩
  · cases hx
  · cases hx
    exact not_early_open (by decide +kernel)
  · cases hx
  · cases hx
  · obtain ⟨rfl, rfl, rfl, rfl, hrest⟩ : Call.feed (helloBlock.take 18) = c1 ∧ Call.produce [0] = c2 ∧
        Call.feed (helloBlock.drop 18) = c3 ∧ Call.finishInput = c4 ∧
        cutSchedule.post.map Call.produce = x ++ .produce dst :: y := by
      simpa [Schedule.calls, cutSchedule] using hx
    obtain ⟨bufs, _, -, rfl, -⟩ := List.map_eq_append_iff.1 hrest
    have hfed : fed (.feed (helloBlock.take 18) :: .produce [0] :: .feed (helloBlock.drop 18) :: .finishInput ::
        bufs.map Call.produce) = helloBlock := by
      have hbufs := fed_buffers bufs
      unfold fed at hbufs ⊢
      simp only [List.flatMap_cons, hbufs]
      decide
    have hparsed : parseHeader helloBlock = .ok ⟨5, 14⟩ := by decide +kernel
    rw [hfed]
    exact not_early_whole hparsed (by decide)

/-- The padding behind the EOS opcode is still to come when a call meets the opcode: the block is reported as finished. Then
the padding is rejected as trailing data, and without it the truncated block is accepted. -/
theorem missing_padding_finished :
    machine.drive untilFed new [.feed (helloBlock.take 19), .produce (List.replicate 6 0), .feed (helloBlock.drop 19),
        .finishInput, .produce [0]] =
      ([.done, .progress ⟨5, .finished⟩ (hello ++ [0]), .done, .done, .failed (.err (.trailingData 7))], true) ∧
    decode .bits64 helloBlock = .ok hello ∧
    machine.drive untilFed new [.feed (helloBlock.take 19), .finishInput, .produce (List.replicate 6 0)] =
      ([.done, .done, .progress ⟨5, .finished⟩ (hello ++ [0])], true) ∧
    decode .bits64 (helloBlock.take 19) = .error (.err (.truncatedInput 19)) := by
  refine ⟨?_, ?_, ?_, ?_⟩ <;> decide +kernel

end BvxnDecoder

end Lzvn.Apple
