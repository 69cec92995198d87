/-
`tests/proptest.rs`: the drivers that drain the incremental coders in chunks of any size, and the stream properties.

A drain is a `loop` of the test, so it is run for a number of rounds here, `none` when they do not suffice. The two nested
loops of a decoder drain are one: `atHead` says that the outer one is at its head. Each round allocates its buffer of
`output_chunk` zeros, which panics beyond `isize::MAX`.

- `drainDecoder_returns`, `drainEncoder_returns`: every drain ends, with the output of the one-shot coder.
- `rawStreamMatchesOneShot_passes`, `bvxnStreamMatchesOneShot_passes`: the properties hold of all data, all chunks and all
  buffers of at most `isize::MAX` bytes.
-/
import Lzvn.Fuzz
import Lzvn.Pipeline

namespace Lzvn.Proptest

open Lzvn.Core Lzvn.Apple
open Lzvn.Fuzz (assert expect)
open Lzvn.Pipeline (Streams raw_streams bvxn_streams)
open Lzvn.Raw (RawDecoder RawEncoder IsStream)

/-! ## The drains -/

/-- a test that may run out of rounds -/
abbrev Test := ExceptT Stop Option

/-- a `loop` that is given `rounds` rounds -/
def loop {τ α : Type} (rounds : ℕ) (round : Rust τ (Option α)) (s : τ) : Test α :=
  (Loop.iterate (Loop.flow round) rounds s).map fun
    | .ok a _ => .ok a
    | .error e _ => .error e

section
variable {σ : Type} (u : Usize) (feed : List UInt8 → σ → σ) (finishInput : σ → σ)
  (produce : Rust (σ × List UInt8) StreamProgress) (input : List UInt8) (inputChunk outputChunk : ℕ)

/-- a call with a buffer of zeros, and what it has written goes to the output -/
def draw : Rust (σ × List UInt8) StreamProgress := do
  let (coder, output) ← get
  let chunk ← u.zeros outputChunk
  match produce.run (coder, chunk) with
  | .ok progress (coder, chunk) =>
    let bytes ← slice chunk 0 progress.written
    set (coder, output ++ bytes)
    return progress
  | .error _ _ => throw .panic

/-- the `loop` of an encoder drain -/
def encoderRound : Rust (σ × List UInt8) (Option (List UInt8)) := do
  let progress ← draw u produce outputChunk
  let (_, encoded) ← get
  return if progress.status = .finished then some encoded else none

/-- the locals of a decoder drain -/
structure Drain (σ : Type) where
  decoder : σ
  decoded : List UInt8
  offset : ℕ
  finishedInput : Bool
  atHead : Bool

/-- the `if` at the head of the outer `loop` -/
def supply : Rust (Drain σ) Unit := do
  let c ← get
  if c.offset < input.length then
    -- the sum fits: `offset` is 0 here, or `input_chunk` is less than the length of the input
    let stop := min (c.offset + inputChunk) input.length
    let bytes ← slice input c.offset stop
    set { c with decoder := feed bytes c.decoder, offset := stop }
  else if !c.finishedInput then
    set { c with decoder := finishInput c.decoder, finishedInput := true }

/-- the two `loop`s of a decoder drain -/
def decoderRound : Rust (Drain σ) (Option (List UInt8)) := do
  if (← get).atHead then
    supply feed finishInput input inputChunk
    modify fun c => { c with atHead := false }
    return none
  else
    let progress ← zoom (fun c : Drain σ => (c.decoder, c.decoded)) (fun t c => { c with decoder := t.1, decoded := t.2 })
      (draw u produce outputChunk)
    match progress.status with
    | .needOutput => return none
    | .needInput =>
      modify fun c => { c with atHead := true }
      return none
    | .finished => return some (← get).decoded

def drainDecoder (new : σ) (rounds : ℕ) : Test (List UInt8) :=
  loop rounds (decoderRound u feed finishInput produce input inputChunk outputChunk) ⟨new, [], 0, false, true⟩

end

def drainEncoder (u : Usize) (encodeInto : Rust (StreamEncoder × List UInt8) StreamProgress) (input : List UInt8)
    (inputChunk outputChunk rounds : ℕ) : Test (List UInt8) :=
  let encoder := (Decmpfs.chunks inputChunk input).foldl (fun encoder chunk => encoder.feed chunk) StreamEncoder.new
  loop rounds (encoderRound u encodeInto outputChunk) (encoder.finishInput, [])

def drainRawEncoder (u : Usize) : List UInt8 → ℕ → ℕ → ℕ → Test (List UInt8) := drainEncoder u RawEncoder.encodeInto

def drainBvxnEncoder (u : Usize) : List UInt8 → ℕ → ℕ → ℕ → Test (List UInt8) := drainEncoder u BvxnEncoder.encodeInto

def drainRawDecoder (u : Usize) (input : List UInt8) (inputChunk outputChunk : ℕ) : ℕ → Test (List UInt8) :=
  drainDecoder u RawDecoder.feed RawDecoder.finishInput RawDecoder.decodeInto input inputChunk outputChunk .new

def drainBvxnDecoder (u : Usize) (input : List UInt8) (inputChunk outputChunk : ℕ) : ℕ → Test (List UInt8) :=
  drainDecoder u BvxnDecoder.feed BvxnDecoder.finishInput BvxnDecoder.decodeInto input inputChunk outputChunk .new

/-! ## The properties -/

/-- `raw_stream_matches_one_shot` -/
def rawStreamMatchesOneShot (u : Usize) (data : List UInt8) (inputChunk outputChunk rounds : ℕ) : Test Unit := do
  let expectedEncoded ← Raw.encode data
  let streamedEncoded ← drainRawEncoder u data inputChunk outputChunk rounds
  assert (streamedEncoded = expectedEncoded)
  let streamedDecoded ← drainRawDecoder u expectedEncoded inputChunk outputChunk rounds
  assert (streamedDecoded = data)

/-- `bvxn_stream_matches_one_shot` -/
def bvxnStreamMatchesOneShot (u : Usize) (data : List UInt8) (inputChunk outputChunk rounds : ℕ) : Test Unit := do
  let expectedEncoded ← expect (Bvxn.encode data)
  let streamedEncoded ← drainBvxnEncoder u data inputChunk outputChunk rounds
  assert (streamedEncoded = expectedEncoded)
  let streamedDecoded ← drainBvxnDecoder u expectedEncoded inputChunk outputChunk rounds
  assert (streamedDecoded = data)

/-! ## Drains end -/

/-- with enough rounds the test returns `a` -/
def Returns {α : Type} (t : ℕ → Test α) (a : α) : Prop := ∃ enough, ∀ rounds, enough ≤ rounds → t rounds = pure a

/-- a loop returns `a` when its rounds lower a number, and leave with `a` -/
theorem loop_returns {τ α : Type} {round : Rust τ (Option α)} {I : τ → ℕ → Prop} {a : α}
    (hround : ∀ s k, I s k → (∃ s', round.run s = .ok (some a) s') ∨
      ∃ s', round.run s = .ok none s' ∧ ∃ k', k' < k ∧ I s' k') {s : τ} {k : ℕ} (h : I s k) :
    Returns (fun rounds => loop rounds round s) a := by
  obtain ⟨r, hr, s', rfl⟩ : ∃ r, Loop.iterate (Loop.flow round) (k + 1) s = some r ∧ ∃ s', r = .ok a s' := by
    refine Loop.iterate_returns (I := I) (fun s k h => ?_) h
    rcases hround s k h with ⟨s', hleave⟩ | ⟨s', hagain, hfalls⟩
    · rw [Loop.flow_leave_ok.2 hleave]
      exact ⟨s', rfl⟩
    · rw [Loop.flow_again.2 hagain]
      exact hfalls
  refine ⟨k + 1, fun rounds hle => ?_⟩
  show (Loop.iterate (Loop.flow round) rounds s).map _ = _
  rw [Loop.iterate_mono _ _ _ _ _ hr hle]
  rfl

section
variable {σ : Type} {u : Usize} {feed : List UInt8 → σ → σ} {finishInput : σ → σ}
  {produce : Rust (σ × List UInt8) StreamProgress}

theorem run_draw {s s' : σ} (output : List UInt8) {dst : List UInt8} {p : StreamProgress} {n : ℕ}
    (hroom : n ≤ u.isizeMax) (h : answer produce s (List.replicate n 0) = (s', .progress p dst))
    (hle : p.written ≤ dst.length) : (draw u produce n).run (s, output) = .ok p (s', output ++ dst.take p.written) := by
  have hrun : produce.run (s, List.replicate n 0) = .ok p (s', dst) := by
    unfold answer at h
    cases hr : produce.run (s, List.replicate n 0) with
    | ok p' t =>
      rw [hr] at h
      cases h
      rfl
    | error e t =>
      rw [hr] at h
      cases h
  have hslice : slice dst 0 p.written = .ok (dst.take p.written) := slice_eq (Nat.zero_le _) hle
  have hzeros : u.zeros n = .ok (List.replicate n 0) := if_pos hroom
  simp only [draw, EStateM.run_bind, EStateM.run_get, hzeros, hrun, hslice, run_lift_ok, EStateM.run_set]
  rfl

/-! ### Encoders -/

theorem foldl_feed (chunks : List (List UInt8)) (q : List UInt8) :
    chunks.foldl (fun encoder chunk => encoder.feed chunk) (⟨q, [], 0, false, false⟩ : StreamEncoder) =
      ⟨q ++ chunks.flatten, [], 0, false, false⟩ := by
  induction chunks generalizing q with
  | nil => rw [List.flatten_nil, List.append_nil]; rfl
  | cons chunk chunks ih =>
    rw [List.foldl_cons, StreamEncoder.feed_gathering, ih, List.flatten_cons, List.append_assoc]

/-- **An encoder drain** ends with what the one-shot encoder gives. -/
theorem drainEncoder_returns {encode : List UInt8 → Except Stop (List UInt8)} {input out : List UInt8}
    {inputChunk outputChunk : ℕ} (hinput : 0 < inputChunk) (houtput : 0 < outputChunk) (hroom : outputChunk ≤ u.isizeMax)
    (h : encode input = .ok out) : Returns (drainEncoder u (StreamEncoder.encodeInto encode) input inputChunk outputChunk) out := by
  refine loop_returns (I := fun s k => ∃ room, StreamEncoder.Draining encode out room s.1 ∧ s.2 = out.take room ∧
    out.length - room = k) ?_ (k := out.length) ⟨0, ?_, rfl, rfl⟩
  · intro s k hI
    obtain ⟨encoder, encoded⟩ := s
    obtain ⟨room, hdraining, hfront, rfl⟩ := hI
    dsimp only at hdraining hfront
    subst hfront
    obtain ⟨n, s', hn, hanswer, hnext, -⟩ := StreamEncoder.answer_draining hdraining (List.replicate outputChunk 0)
    rw [List.length_replicate] at hn hanswer hnext
    have hlen : ((out.drop room).take n).length = n := by
      rw [List.length_take, List.length_drop]
      omega
    have hdraw := run_draw (out.take room) hroom hanswer (by rw [List.length_append, hlen]; exact Nat.le_add_right _ _)
    have hwritten : out.take room ++ ((out.drop room).take n ++ (List.replicate outputChunk 0).drop n).take n =
        out.take (room + outputChunk) := by
      rw [List.take_left' hlen, hn, min_comm, ← List.length_drop, ← List.take_eq_take_min, ← List.take_add]
    rw [hwritten] at hdraw
    simp only [encoderRound, EStateM.run_bind, hdraw, EStateM.run_get]
    by_cases hall : out.length ≤ room + outputChunk
    · refine .inl ⟨(s', out), ?_⟩
      rw [if_pos hall, List.take_of_length_le hall]
      rfl
    · refine .inr ⟨(s', out.take (room + outputChunk)), ?_, _, ?_, room + outputChunk, hnext, rfl, rfl⟩
      · rw [if_neg hall]
        rfl
      · omega
  · rw [show StreamEncoder.new = ⟨[], [], 0, false, false⟩ from rfl, foldl_feed, Decmpfs.flatten_chunks hinput]
    exact ⟨rfl, h, fun hp => (by cases hp), (Nat.zero_min _).symm⟩

/-! ### Decoders -/

variable {T : σ → List UInt8 → Prop} {history : σ → List UInt8} {closed : σ → Bool} {input v : List UInt8}

/-- a drain in front of one of its rounds -/
structure Draining (T : σ → List UInt8 → Prop) (history : σ → List UInt8) (closed : σ → Bool) (input : List UInt8)
    (c : Drain σ) : Prop where
  tracks : T c.decoder (input.take c.offset)
  offset_le : c.offset ≤ input.length
  decoded : history c.decoder = c.decoded
  closed : closed c.decoder = c.finishedInput
  ended : c.finishedInput = true → c.offset = input.length
  wants : c.atHead = true → c.finishedInput = false

/-- the output and the input that are left, and the end of the input -/
def left (input v : List UInt8) (c : Drain σ) : ℕ :=
  (v.length - c.decoded.length) + 2 * ((input.length - c.offset) + if c.finishedInput then 0 else 1) + if c.atHead then 0 else 1

/-- more input is fed, or the input ends -/
theorem supply_draining {inputChunk : ℕ} (hinput : 0 < inputChunk) (h : Streams feed finishInput produce T history closed input v)
    {c : Drain σ} (hc : Draining T history closed input c) (hhead : c.atHead = true) :
    ∃ c', (supply feed finishInput input inputChunk).run c = .ok () c' ∧
      Draining T history closed input { c' with atHead := false } ∧ left input v { c' with atHead := false } < left input v c := by
  have hopen := hc.wants hhead
  have hle := hc.offset_le
  simp only [supply, EStateM.run_bind, EStateM.run_get]
  by_cases hmore : c.offset < input.length
  · set stop := min (c.offset + inputChunk) input.length with hstop
    have hslice : slice input c.offset stop = .ok ((input.drop c.offset).take (stop - c.offset)) :=
      slice_eq (by omega) (by omega)
    obtain ⟨htracks, hhist, hclosed⟩ := h.feed _ _ ((input.drop c.offset).take (stop - c.offset)) hc.tracks
    rw [← List.take_add, Nat.add_sub_cancel' (by omega)] at htracks
    rw [if_pos hmore]
    simp only [EStateM.run_bind, hslice, run_lift_ok, EStateM.run_set]
    refine ⟨_, rfl, ⟨htracks, min_le_right _ _, hhist.trans hc.decoded, hclosed.trans hc.closed, fun he => ?_,
      fun hw => (by cases hw)⟩, ?_⟩
    · rw [hopen] at he
      cases he
    · simp only [left, hopen, hhead, Bool.false_eq_true, if_false, if_true]
      omega
  · have hend : c.offset = input.length := le_antisymm hle (not_lt.1 hmore)
    obtain ⟨htracks, hhist, hclosed⟩ := h.finishInput _ _ hc.tracks
    rw [if_neg hmore, hopen]
    refine ⟨_, rfl, ⟨htracks, hle, hhist.trans hc.decoded, hclosed, fun _ => hend, fun hw => (by cases hw)⟩, ?_⟩
    simp only [left, hopen, hhead, Bool.false_eq_true, if_false, if_true]
    omega

/-- a call inside of the inner loop goes round with less left, or gives the rest of the output -/
theorem round_draining {outputChunk : ℕ} (houtput : 0 < outputChunk) (hroom : outputChunk ≤ u.isizeMax) (inputChunk : ℕ)
    (h : Streams feed finishInput produce T history closed input v) {c : Drain σ} (hc : Draining T history closed input c)
    (hhead : c.atHead = false) :
    (∃ c', (decoderRound u feed finishInput produce input inputChunk outputChunk).run c = .ok (some v) c') ∨
      ∃ c', (decoderRound u feed finishInput produce input inputChunk outputChunk).run c = .ok none c' ∧
        Draining T history closed input c' ∧ left input v c' < left input v c := by
  have hdelivers := h.produce c.decoder (input.take c.offset) (input.drop c.offset) (List.replicate outputChunk 0) hc.tracks
    (List.take_append_drop _ _) (fun hend => by
      rw [hc.closed] at hend
      rw [hc.ended hend, List.drop_length])
  generalize hanswer : answer produce c.decoder (List.replicate outputChunk 0) = x at hdelivers
  simp only [decoderRound, EStateM.run_bind, EStateM.run_get, hhead, Bool.false_eq_true, if_false]
  cases hdelivers with
  | @needInput s' n dst' after more same out framed _ =>
    have hfalse : c.finishedInput = false := hc.closed.symm.trans more
    simp only [EStateM.run_bind, run_zoom, run_draw _ hroom hanswer framed]
    refine .inr ⟨_, rfl, ⟨after, hc.offset_le, ?_, same.trans hc.closed, hc.ended, fun _ => hfalse⟩, ?_⟩
    · rw [out, hc.decoded]
    · simp only [left, hhead, List.length_append, Bool.false_eq_true, if_false, if_true]
      omega
  | @needOutput s' n dst' after same out framed full le =>
    have hwritten : (dst'.take n).length = outputChunk := by
      rw [List.length_take, min_eq_left framed, full, List.length_replicate]
    rw [hc.decoded] at out
    have hfits := le.length_le
    rw [out, List.length_append, hwritten] at hfits
    simp only [run_zoom, run_draw _ hroom hanswer framed]
    refine .inr ⟨_, rfl, ⟨after, hc.offset_le, out, same.trans hc.closed, hc.ended, hc.wants⟩, ?_⟩
    simp only [left, hhead, List.length_append, hwritten]
    omega
  | @finished s' n dst' all framed =>
    rw [hc.decoded] at all
    simp only [EStateM.run_bind, run_zoom, run_draw _ hroom hanswer framed]
    exact .inl ⟨_, by rw [← all]; rfl⟩

/-- **A decoder drain** ends with what its input decodes to. -/
theorem drainDecoder_returns {inputChunk outputChunk : ℕ} (hinput : 0 < inputChunk) (houtput : 0 < outputChunk)
    (hroom : outputChunk ≤ u.isizeMax) (h : Streams feed finishInput produce T history closed input v) {new : σ} (hnew : T new []) (hempty : history new = [])
    (hopen : closed new = false) :
    Returns (drainDecoder u feed finishInput produce input inputChunk outputChunk new) v := by
  refine loop_returns (I := fun c k => Draining T history closed input c ∧ left input v c = k) ?_
    ⟨⟨hnew, Nat.zero_le _, hempty, hopen, fun he => (by cases he), fun _ => rfl⟩, rfl⟩
  intro c k hI
  rcases hI with ⟨hc, rfl⟩
  cases hhead : c.atHead with
  | true =>
    obtain ⟨c', hsupply, hnext, hlt⟩ := supply_draining hinput h hc hhead
    refine .inr ⟨{ c' with atHead := false }, ?_, _, hlt, hnext, rfl⟩
    simp only [decoderRound, EStateM.run_bind, EStateM.run_get, hhead, if_true, hsupply]
    rfl
  | false =>
    rcases round_draining houtput hroom inputChunk h hc hhead with hleave | ⟨c', hagain, hnext, hlt⟩
    · exact .inl hleave
    · exact .inr ⟨c', hagain, _, hlt, hnext, rfl⟩

end

/-! ## The two formats -/

section
variable {u : Usize} {inputChunk outputChunk : ℕ} (hinput : 0 < inputChunk) (houtput : 0 < outputChunk)
  (hroom : outputChunk ≤ u.isizeMax)
include hinput houtput hroom

/-- **The raw decoder drains every stream** to its contents, in chunks of any size. -/
theorem drainRawDecoder_returns {src v : List UInt8} (h : IsStream src v) :
    Returns (drainRawDecoder u src inputChunk outputChunk) v :=
  drainDecoder_returns hinput houtput hroom (raw_streams h) RawDecoder.tracks_new rfl rfl

/-- **The `bvxn` decoder drains every block** to its contents, in chunks of any size. -/
theorem drainBvxnDecoder_returns {b v : List UInt8} (h : Bvxn.IsBlock b v) :
    Returns (drainBvxnDecoder u b inputChunk outputChunk) v :=
  drainDecoder_returns hinput houtput hroom (bvxn_streams h) ⟨BvxnDecoder.tracks_new, [], BvxnDecoder.safe_new⟩ rfl rfl

end

/-- what both properties check: the encoder drains to `encoded`, and the decoder drains that to the data -/
theorem matches_returns {drainEncoder drainDecoder : ℕ → Test (List UInt8)} {encoded data : List UInt8}
    (hencoder : Returns drainEncoder encoded) (hdecoder : Returns drainDecoder data) :
    Returns (fun rounds => do
      let streamedEncoded ← drainEncoder rounds
      assert (streamedEncoded = encoded)
      let streamedDecoded ← drainDecoder rounds
      assert (streamedDecoded = data)) () := by
  obtain ⟨n, hn⟩ := hencoder
  obtain ⟨m, hm⟩ := hdecoder
  refine ⟨max n m, fun rounds hle => ?_⟩
  simp only [hn rounds (le_of_max_le_left hle), hm rounds (le_of_max_le_right hle), pure_bind, assert, if_true]
  rfl

/-- **Every stream and every block drains** to what one-shot decoding gives, whatever chunks it is fed in and whatever buffers
with room its output is drawn into, up to `isize::MAX` bytes. -/
theorem decoders_drain (u : Usize) {inputChunk outputChunk : ℕ} (hinput : 0 < inputChunk) (houtput : 0 < outputChunk)
    (hroom : outputChunk ≤ u.isizeMax) :
    (∀ src v, Raw.decode u src v.length = .ok v → Returns (drainRawDecoder u src inputChunk outputChunk) v) ∧
    ∀ b v, Bvxn.decode u b = .ok v → Returns (drainBvxnDecoder u b inputChunk outputChunk) v :=
  ⟨fun _ _ h => drainRawDecoder_returns hinput houtput hroom (Raw.decode_ok_iff.1 h).2.1,
    fun _ _ h => drainBvxnDecoder_returns hinput houtput hroom (Bvxn.decode_ok_iff.1 h).1⟩

/-- the block in chunks of five bytes, into buffers of three -/
theorem hello_drains : Returns (drainBvxnDecoder .bits64 helloBlock 5 3) hello :=
  (decoders_drain .bits64 (by decide) (by decide) (by decide)).2 helloBlock hello (by decide +kernel)

/-- **`raw_stream_matches_one_shot` holds** of all data, all chunks and all buffers of at most `isize::MAX` bytes. -/
theorem rawStreamMatchesOneShot_passes (u : Usize) (data : List UInt8) {inputChunk outputChunk : ℕ} (hinput : 0 < inputChunk)
    (houtput : 0 < outputChunk) (hroom : outputChunk ≤ u.isizeMax) :
    Returns (rawStreamMatchesOneShot u data inputChunk outputChunk) () := by
  obtain ⟨body, w, he, -, -⟩ := Raw.encode_spec data
  have hmatches := matches_returns (drainEncoder_returns hinput houtput hroom he)
    (drainRawDecoder_returns hinput houtput hroom (Raw.encode_isStream he))
  obtain ⟨enough, henough⟩ := hmatches
  refine ⟨enough, fun rounds hle => ?_⟩
  rw [← henough rounds hle, rawStreamMatchesOneShot, he]
  rfl

/-- chunks of one byte -/
theorem rawStreamMatchesOneShot_bytes : Returns (rawStreamMatchesOneShot .bits64 hello 1 1) () :=
  rawStreamMatchesOneShot_passes .bits64 hello Nat.one_pos Nat.one_pos (by decide)

/-- **`bvxn_stream_matches_one_shot` holds** of all chunks and all buffers of at most `isize::MAX` bytes, and of exactly the data
that `encode` takes. -/
theorem bvxnStreamMatchesOneShot_passes (u : Usize) (data : List UInt8) {inputChunk outputChunk : ℕ} (hinput : 0 < inputChunk)
    (houtput : 0 < outputChunk) (hroom : outputChunk ≤ u.isizeMax) :
    Returns (bvxnStreamMatchesOneShot u data inputChunk outputChunk) () ↔ ∃ b, Bvxn.encode data = .ok b := by
  constructor
  · rintro ⟨enough, henough⟩
    have hpass := henough enough le_rfl
    cases he : Bvxn.encode data with
    | ok b => exact ⟨b, rfl⟩
    | error e =>
      rw [bvxnStreamMatchesOneShot, he] at hpass
      cases hpass
  · rintro ⟨b, he⟩
    obtain ⟨enough, henough⟩ := matches_returns (drainEncoder_returns hinput houtput hroom he)
      (drainBvxnDecoder_returns hinput houtput hroom (Bvxn.encode_isBlock he))
    refine ⟨enough, fun rounds hle => ?_⟩
    rw [← henough rounds hle, bvxnStreamMatchesOneShot, he]
    rfl

/-- chunks of one byte -/
theorem bvxnStreamMatchesOneShot_bytes :
    Returns (bvxnStreamMatchesOneShot .bits64 hello 1 1) () ↔ ∃ b, Bvxn.encode hello = .ok b :=
  bvxnStreamMatchesOneShot_passes .bits64 hello Nat.one_pos Nat.one_pos (by decide)

end Lzvn.Proptest
