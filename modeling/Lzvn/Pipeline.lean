/-
An encoder with a decoder behind it. The encoder is fed and drawn from in any order, and what it hands out is fed to the
decoder, in any pieces and with buffers anywhere in between, up to the first `Finished`.

- `Streams`: what a caller relies on, of a decoder and an input that decodes to `v`. `raw_streams`, `bvxn_streams`: it holds of
  every stream and of every block.
- `Piped`: the decoder is behind the encoder. Where the two are called in turns, their calls up to any moment are piped.
- `pipelines_safe`: the decoder does not fail, what it gives is a front of what the encoder takes, and at its end all of it.
-/
import Lzvn.Apple.BvxnErrors
import Lzvn.Apple.BvxnStream
import Lzvn.EncoderRuns

namespace Lzvn.Pipeline

open Lzvn.Core Lzvn.Apple
open Lzvn.Raw (RawDecoder RawEncoder IsStream)

section
variable {σ : Type} {feed : List UInt8 → σ → σ} {finishInput : σ → σ} {produce : Rust (σ × List UInt8) StreamProgress}
  {T : σ → List UInt8 → Prop} {history : σ → List UInt8} {closed : σ → Bool} {input v : List UInt8}

/-- what a call gives a caller that has got `history s` and is to get `v` -/
inductive Delivers (T : σ → List UInt8 → Prop) (history : σ → List UInt8) (closed : σ → Bool) (v : List UInt8) (s : σ)
    (q dst : List UInt8) : σ × Reply → Prop where
  | needInput {s' : σ} {n : ℕ} {dst' : List UInt8} (after : T s' q) (more : closed s = false) (same : closed s' = closed s)
    (out : history s' = history s ++ dst'.take n) (framed : n ≤ dst'.length) (le : history s' <+: v) :
    Delivers T history closed v s q dst (s', .progress ⟨n, .needInput⟩ dst')
  | needOutput {s' : σ} {n : ℕ} {dst' : List UInt8} (after : T s' q) (same : closed s' = closed s)
    (out : history s' = history s ++ dst'.take n) (framed : n ≤ dst'.length) (full : n = dst.length)
    (le : history s' <+: v) : Delivers T history closed v s q dst (s', .progress ⟨n, .needOutput⟩ dst')
  | finished {s' : σ} {n : ℕ} {dst' : List UInt8} (all : history s ++ dst'.take n = v) (framed : n ≤ dst'.length) :
    Delivers T history closed v s q dst (s', .progress ⟨n, .finished⟩ dst')

/-- a decoder on an input that decodes to `v`: `T` relates it to what it was fed, and `closed` says whether its input has ended -/
structure Streams (feed : List UInt8 → σ → σ) (finishInput : σ → σ) (produce : Rust (σ × List UInt8) StreamProgress)
    (T : σ → List UInt8 → Prop) (history : σ → List UInt8) (closed : σ → Bool) (input v : List UInt8) : Prop where
  feed : ∀ s q bytes, T s q → T (feed bytes s) (q ++ bytes) ∧ history (feed bytes s) = history s ∧
    closed (feed bytes s) = closed s
  finishInput : ∀ s q, T s q → T (finishInput s) q ∧ history (finishInput s) = history s ∧ closed (finishInput s) = true
  produce : ∀ s q more dst, T s q → q ++ more = input → (closed s = true → more = []) →
    Delivers T history closed v s q dst (answer produce s dst)

/-- a driver that had `before` has got no error and a front of `v`, and all of `v` when it ended -/
structure Delivered (v before : List UInt8) (x : List Reply × Bool) : Prop where
  clean : ∀ r ∈ x.1, r.isFailed = false
  front : before ++ outputs x.1 <+: v
  whole : x.2 = true → before ++ outputs x.1 = v

/-- a call that does not end the driver, in front of the calls behind it -/
theorem Delivered.next {before : List UInt8} {M : Machine σ Call Reply} {s s' : σ} {r : Reply} {c : Call} {calls : List Call}
    (hstep : M.step s c = (s', r)) (hgo : untilFinished r calls = false)
    (h : Delivered v (before ++ r.output) (M.drive untilFinished s' calls)) :
    Delivered v before (M.drive untilFinished s (c :: calls)) := by
  rw [M.drive_next (by rwa [hstep]), hstep]
  refine ⟨?_, ?_, ?_⟩
  · intro r' hr'
    rcases List.mem_cons.1 hr' with rfl | hr'
    · exact (Bool.or_eq_false_iff.1 hgo).1
    · exact h.clean r' hr'
  · have := h.front
    rwa [List.append_assoc] at this
  · intro hx
    have := h.whole hx
    rwa [List.append_assoc] at this

/-- **A driver that is fed a part of the input**, and all of it in front of `finish_input`, gets no error. What it gets is a
front of the contents, and all of them when it ends. -/
theorem Streams.drive_safe (h : Streams feed finishInput produce T history closed input v) (calls : List Call) {s : σ}
    {q more : List UInt8} (hs : T s q) (hle : history s <+: v) (hsrc : q ++ fed calls ++ more = input)
    (hclosed : closed s = true → fed calls ++ more = [])
    (hend : ∀ a b, calls = a ++ .finishInput :: b → fed b ++ more = []) :
    Delivered v (history s) ((coder feed finishInput produce).drive untilFinished s calls) := by
  induction calls generalizing s q with
  | nil => exact ⟨fun r hr => (by cases hr), (List.append_nil _).symm ▸ hle, fun hx => (by cases hx)⟩
  | cons c calls ih =>
    have hend' : ∀ a b, calls = a ++ .finishInput :: b → fed b ++ more = [] :=
      fun a b hab => hend (c :: a) b (by rw [hab]; rfl)
    cases c with
    | feed bytes =>
      obtain ⟨hs', hhist, hopen⟩ := h.feed s q bytes hs
      refine Delivered.next rfl rfl (?_ : Delivered v (history s ++ []) _)
      rw [List.append_nil, ← hhist]
      refine ih hs' (hhist.symm ▸ hle) ?_ ?_ hend'
      · rw [← hsrc]
        simp [Lzvn.fed, Call.fed]
      · intro hc
        have hnone := hclosed (hopen ▸ hc)
        rw [Lzvn.fed, List.flatMap_cons, List.append_assoc] at hnone
        exact (List.append_eq_nil_iff.1 hnone).2
    | finishInput =>
      obtain ⟨hs', hhist, -⟩ := h.finishInput s q hs
      refine Delivered.next rfl rfl (?_ : Delivered v (history s ++ []) _)
      rw [List.append_nil, ← hhist]
      exact ih hs' (hhist.symm ▸ hle) hsrc (fun _ => hend [] calls rfl) hend'
    | produce dst =>
      have hdelivers := h.produce s q (fed calls ++ more) dst hs (by rw [← hsrc, fed_produce, List.append_assoc]) hclosed
      generalize hanswer : answer produce s dst = x at hdelivers
      have hstep : (coder feed finishInput produce).step s (.produce dst) = x := hanswer
      cases hdelivers with
      | needInput after _ same out _ le =>
        exact Delivered.next hstep rfl (out ▸ ih after le hsrc (fun hc => hclosed (same ▸ hc)) hend')
      | needOutput after same out _ _ le =>
        exact Delivered.next hstep rfl (out ▸ ih after le hsrc (fun hc => hclosed (same ▸ hc)) hend')
      | @finished s' n dst' all _ =>
        have hends : untilFinished ((coder feed finishInput produce).step s (.produce dst)).2 calls = true := by
          rw [hstep]
          rfl
        have hall : history s ++ outputs [.progress ⟨n, .finished⟩ dst'] = v := by
          rwa [outputs, List.flatMap_singleton]
        rw [Machine.drive_final _ hends, hstep]
        exact ⟨fun r hr => (by rw [List.mem_singleton.1 hr]; rfl), hall ▸ List.prefix_rfl, fun _ => hall⟩

end

/-! ## The two formats -/

/-- the raw decoder on a stream -/
theorem raw_streams {src v : List UInt8} (h : IsStream src v) : Streams RawDecoder.feed RawDecoder.finishInput
    RawDecoder.decodeInto RawDecoder.Tracks RawDecoder.history RawDecoder.finishedInput src v where
  feed s _ bytes hs := ⟨RawDecoder.tracks_feed hs bytes, RawDecoder.feed_keeps bytes s⟩
  finishInput _ _ hs := ⟨RawDecoder.tracks_finishInput hs, rfl, rfl⟩
  produce s q more dst hs hsrc hlast := by
    subst hsrc
    obtain ⟨hle, hfront⟩ := h.front
    have hout := RawDecoder.step_outcome hs (t := (Raw.scan (.start q)).1) (v := (Raw.scan (.start q)).2) rfl dst
    have hframes := RawDecoder.step_frames hs.ok dst
    change RawDecoder.Outcome _ _ _ _ _ (answer RawDecoder.decodeInto s dst) at hout
    change (answer RawDecoder.decodeInto s dst).2.Frames dst at hframes
    generalize answer RawDecoder.decodeInto s dst = x at hout hframes
    cases hout with
    | needInput after input out all _ open_ =>
      exact .needInput after open_ input out hframes.output_eq.2 (all ▸ hle)
    | needOutput after input out le => exact .needOutput after input out hframes.output_eq.2 rfl (le.trans hle)
    | finished after input out all eos =>
      rcases hfront with hshort | ⟨-, -, hwhole⟩
      · rw [eos] at hshort
        cases hshort
      · exact .finished (out.symm.trans (all.trans hwhole)) hframes.output_eq.2
    | failed error _ last =>
      rcases hfront with hshort | ⟨heos, hpad, -⟩
      · rw [hlast (last hshort), List.append_nil, Raw.isStream_iff_scan, hshort] at h
        cases h.1
      · rw [heos, Raw.streamError, Raw.finishError_none.2 hpad] at error
        cases error

/-- what an unfinished decoder has delivered of a block that begins with what it was fed -/
theorem bvxn_history_le {s : BvxnDecoder} {q more v : List UInt8} (h : BvxnDecoder.Tracks s q) (hf : s.finished = false)
    (hb : Bvxn.IsBlock (q ++ more) v) : s.raw.history <+: v := by
  cases h with
  | waiting _ _ _ _ raw =>
    rw [raw]
    exact List.nil_prefix
  | reading h =>
    obtain ⟨-, hs, -⟩ := hb.front h.parsed
    exact ((BvxnDecoder.Tracks.reading h).history_le hf).trans hs.front.1
  | finished done =>
    rw [hf] at done
    cases done

/-- the `bvxn` decoder on a block -/
theorem bvxn_streams {b v : List UInt8} (h : Bvxn.IsBlock b v) : Streams BvxnDecoder.feed BvxnDecoder.finishInput
    BvxnDecoder.decodeInto (fun s q => BvxnDecoder.Tracks s q ∧ ∃ accepted, BvxnDecoder.Safe s accepted) (fun s => s.raw.history)
    BvxnDecoder.finishedInput b v where
  feed s _ bytes := by
    rintro ⟨hs, accepted, hsafe⟩
    obtain ⟨-, hraw, hinput⟩ := BvxnDecoder.feed_keeps bytes s
    exact ⟨⟨BvxnDecoder.tracks_feed hs bytes, _, BvxnDecoder.feed_safe hsafe bytes⟩, congrArg _ hraw, hinput⟩
  finishInput s _ := by
    rintro ⟨hs, accepted, hsafe⟩
    exact ⟨⟨BvxnDecoder.tracks_finishInput hs, _, (BvxnDecoder.step_safe hsafe .finishInput).1⟩, rfl, rfl⟩
  produce s q more dst := by
    rintro ⟨hs, accepted, hsafe⟩ rfl hlast
    have hout : BvxnDecoder.Outcome s q dst (answer BvxnDecoder.decodeInto s dst) := BvxnDecoder.step_outcome hs dst
    have hnext := (BvxnDecoder.decodeInto_safe hsafe dst).1
    have hframes : (answer BvxnDecoder.decodeInto s dst).2.Frames dst := BvxnDecoder.step_frames hsafe dst
    generalize answer BvxnDecoder.decodeInto s dst = x at hout hnext hframes
    cases hout with
    | needInput after input out open_ unfinished =>
      exact .needInput ⟨after, _, hnext⟩ open_ input out hframes.output_eq.2 (bvxn_history_le after unfinished h)
    | needOutput after input out _ unfinished =>
      exact .needOutput ⟨after, _, hnext⟩ input out hframes.output_eq.2 rfl (bvxn_history_le after unfinished h)
    | finished _ _ out all => exact .finished (out.symm.trans (all _ v h)) hframes.output_eq.2
    | failed bad =>
      obtain ⟨hended, hmore⟩ := bad _ v h
      exact absurd (hlast hended) hmore

/-! ## An encoder and a decoder -/

/-- a decoder whose calls feed the output in `replies`, and end the input when the encoder has finished and all of it is fed -/
structure Piped (replies : List Reply) (calls : List Call) : Prop where
  front : fed calls <+: outputs replies
  ended : ∀ a b, calls = a ++ .finishInput :: b →
    replies.any Reply.isFinished = true ∧ fed calls = outputs replies ∧ fed b = []

/-- a decoder that is fed the front of an input, and ends it behind all of it -/
theorem Streams.piped_safe {σ : Type} {feed : List UInt8 → σ → σ} {finishInput : σ → σ}
    {produce : Rust (σ × List UInt8) StreamProgress} {T : σ → List UInt8 → Prop} {history : σ → List UInt8} {closed : σ → Bool}
    {out v : List UInt8} (h : Streams feed finishInput produce T history closed out v) {new : σ} (hnew : T new [])
    (hempty : history new = []) (hopen : closed new = false) {room : ℕ} {replies : List Reply} {calls : List Call}
    (hands : StreamEncoder.Hands out room replies) (hp : Piped replies calls) :
    Delivered v [] ((coder feed finishInput produce).drive untilFinished new calls) := by
  obtain ⟨houtputs, hfinished⟩ := hands
  obtain ⟨more, hmore⟩ := hp.front.trans (houtputs ▸ List.take_prefix room out)
  rw [← hempty]
  refine h.drive_safe calls hnew (hempty ▸ List.nil_prefix) hmore (fun hc => ?_) (fun a b hab => ?_)
  · rw [hopen] at hc
    cases hc
  · obtain ⟨hall, hfed, hb⟩ := hp.ended a b hab
    rw [houtputs, List.take_of_length_le (hfinished hall)] at hfed
    rw [hb, List.nil_append]
    exact List.append_cancel_left (hmore.trans (hfed.symm.trans (List.append_nil _).symm))

/-- **Pipelines are safe.** Whatever the calls on an encoder and on a decoder that is fed its output, the decoder gets no
error up to its first `Finished`; what it gives is a front of the bytes that the encoder has taken, and with `Finished` it is
all of them. -/
theorem pipelines_safe (encoderCalls decoderCalls : List Call) :
    (Piped (RawEncoder.machine.replies .new encoderCalls) decoderCalls →
      Delivered (StreamEncoder.counted false encoderCalls) []
        (RawDecoder.machine.drive untilFinished .new decoderCalls)) ∧
    ((∃ b, Bvxn.encode (StreamEncoder.counted false encoderCalls) = .ok b) →
      Piped (BvxnEncoder.machine.replies .new encoderCalls) decoderCalls →
      Delivered (StreamEncoder.counted false encoderCalls) []
        (BvxnDecoder.machine.drive untilFinished .new decoderCalls)) := by
  constructor
  · intro hp
    obtain ⟨body, w, he, -, -⟩ := Raw.encode_spec (StreamEncoder.counted false encoderCalls)
    exact (raw_streams (Raw.encode_isStream he)).piped_safe RawDecoder.tracks_new rfl rfl
      (StreamEncoder.run_hands encoderCalls he) hp
  · rintro ⟨b, he⟩ hp
    exact (bvxn_streams (Bvxn.encode_isBlock he)).piped_safe ⟨BvxnDecoder.tracks_new, [], BvxnDecoder.safe_new⟩ rfl rfl
      (StreamEncoder.run_hands encoderCalls he) hp

/-- one byte: the encoding is handed out in two parts, and each of them is fed before the next call -/
theorem one_byte_piped : Delivered [0x61] [] (RawDecoder.machine.drive untilFinished .new
    [.feed [0xE1, 0x61, 0x06, 0], .produce [0, 0], .feed [0, 0, 0, 0, 0, 0], .finishInput, .produce [0, 0]]) := by
  refine (pipelines_safe [.feed [0x61], .finishInput, .produce (List.replicate 4 0), .produce (List.replicate 8 0)] _).1 ?_
  refine ⟨by decide +kernel, ?_⟩
  intro a b hab
  have hb : fed b = [] := by
    rcases a with _ | ⟨c1, _ | ⟨c2, _ | ⟨c3, _ | ⟨c4, _ | ⟨c5, a⟩⟩⟩⟩⟩ <;> simp at hab
    rw [← hab.2.2.2]
    rfl
  exact ⟨by decide +kernel, by decide +kernel, hb⟩

end Lzvn.Pipeline
