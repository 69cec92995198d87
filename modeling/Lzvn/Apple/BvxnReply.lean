/-
The incremental `bvxn` decoder against the plainest one there could be, as in `Raw.StreamReply`: a session that keeps what it was
fed up to its first `Finished` and counts what comes behind it, and at each call parses the header and decodes the payload anew.

- `Session`: the plain decoder, over the plain raw decoder.
- `Settles.stands`: what a call makes of the payload, in both decoders.
- `replies_as_session`: the decoder of the code replies as the plain one does, in every run that feeds no more than `usize::MAX`
  bytes and in which no call meets an EOS opcode with bad padding behind it.
-/
import Lzvn.Apple.BvxnCounter

namespace Lzvn.Apple

open Lzvn.Core Lzvn.Apple.Bvxn
open Lzvn.Raw (RawDecoder)
open Lzvn.Raw.RawDecoder (Agree)

namespace BvxnDecoder

/-! ## The plain decoder -/

/-- a decoder that keeps what it is fed before it reports `Finished`, and counts what it is fed behind that; and how many bytes
it has delivered and whether the stream in the payload has ended -/
structure Session where
  input : List UInt8
  delivered : ℕ
  ended : Bool
  finishedInput : Bool
  finished : Bool
  trailing : ℕ
deriving DecidableEq, Repr

namespace Session

def new : Session := ⟨[], 0, false, false, false, 0⟩

def feed (input : List UInt8) (self : Session) : Session :=
  if self.finished then { self with trailing := self.trailing + input.length }
  else { self with input := self.input ++ input }

/-- the plain raw decoder on the payload, which ends where the header says -/
def payload (self : Session) (header : BvxnHeader) : RawDecoder.Session :=
  ⟨self.input.drop headerLen, self.delivered, self.input.length = headerLen + header.payloadBytes, self.ended⟩

/-- what the progress of the payload becomes -/
def settle (self : Session) (header : BvxnHeader) (p : StreamProgress) (dst : List UInt8) : Session × Reply :=
  if header.rawBytes < self.delivered then (self, .failed (.err (.sizeMismatch header.rawBytes self.delivered)))
  else match p.status with
    | .needInput =>
      if self.finishedInput then (self, .failed (.err (.truncatedInput self.input.length))) else (self, .progress p dst)
    | .needOutput => (self, .progress p dst)
    | .finished =>
      if self.delivered ≠ header.rawBytes then (self, .failed (.err (.sizeMismatch header.rawBytes self.delivered)))
      else ({ self with finished := true }, .progress p dst)

/-- decode the payload from the start, unless there is more input than the header declares -/
def decodePayload (self : Session) (header : BvxnHeader) (dst : List UInt8) : Session × Reply :=
  if headerLen + header.payloadBytes < self.input.length then
    (self, .failed (.err (.trailingData (self.input.length - (headerLen + header.payloadBytes)))))
  else
    let (payload, reply) := (self.payload header).decodeInto dst
    let self := { self with delivered := payload.delivered, ended := payload.finished }
    match reply with
    | .progress p dst => self.settle header p dst
    | reply => (self, reply)

def decodeInto (self : Session) (dst : List UInt8) : Session × Reply :=
  if self.trailing ≠ 0 then (self, .failed (.err (.trailingData self.trailing)))
  else if self.finished then (self, .progress ⟨0, .finished⟩ dst)
  else if self.input.length < headerLen then
    (self, if self.finishedInput then .failed (.err (.truncatedInput 0)) else .progress ⟨0, .needInput⟩ dst)
  else match parseHeader self.input with
    | .ok header => self.decodePayload header dst
    | .error e => (self, .failed e)

def machine : Machine Session Call Reply where
  step self
    | .feed input => (self.feed input, .done)
    | .finishInput => ({ self with finishedInput := true }, .done)
    | .produce dst => self.decodeInto dst

/-- the call decodes the payload, and meets an EOS opcode with bad padding in it -/
def Trips (self : Session) : Call → Prop
  | .produce dst => self.trailing = 0 ∧ self.finished = false ∧ ∃ header ∈ (parseHeader self.input).toOption,
      self.input.length ≤ headerLen + header.payloadBytes ∧ (self.payload header).Trips dst
  | _ => False

instance (self : Session) : ∀ c, Decidable (Trips self c)
  | .produce _ => show Decidable (_ ∧ _ ∧ ∃ header ∈ _, _ ∧ _) from inferInstance
  | .feed _ => show Decidable False from inferInstance
  | .finishInput => show Decidable False from inferInstance

end Session

/-! ## Sessions of the code's decoder -/

/-- the session that a decoder of the code stands for; the raw decoder inside stands for one on the bytes it was fed -/
structure Stands (s : BvxnDecoder) (p : Session) : Prop where
  safe : Safe s p.input
  raw : s.raw.Stands ⟨(p.input.take s.absoluteOffset).drop headerLen, p.delivered, s.raw.finishedInput, p.ended⟩
  closed : s.raw.finishedInput = true → s.header ≠ none ∧ s.payloadRemaining = 0
  finishedInput : s.finishedInput = p.finishedInput
  finished : s.finished = p.finished
  trailing : s.trailingAfterFinish = p.trailing

theorem stands_new : Stands new .new :=
  ⟨safe_new, ⟨RawDecoder.tracks_new, rfl, rfl, rfl⟩, fun h => (by cases h), rfl, rfl, rfl⟩

variable {s s' s0 s1 : BvxnDecoder} {p : Session} {q dst : List UInt8} {header : BvxnHeader}

theorem feed_stands (h : Stands s p) (input : List UInt8) : Stands (feed input s) (p.feed input) := by
  have hsafe := feed_safe h.safe input
  have hposition := h.safe.position_le
  by_cases hf : s.finished = true
  · have hp : p.finished = true := h.finished.symm.trans hf
    rw [if_pos hf, List.append_nil] at hsafe
    rw [Session.feed, if_pos hp]
    by_cases hnil : input = []
    · subst hnil
      have hsame : feed [] s = s := if_pos rfl
      rw [hsame]
      exact { h with }
    · have hfeed : feed input s = { s with trailingAfterFinish := s.trailingAfterFinish + input.length } := by
        rw [feed, feedWith, if_neg hnil, if_pos hf]
      rw [hfeed] at hsafe ⊢
      exact { h with safe := hsafe, trailing := congrArg (· + input.length) h.trailing }
  · have hp : p.finished ≠ true := h.finished ▸ hf
    rw [if_neg hf] at hsafe
    rw [feed_running (Bool.eq_false_iff.2 hf)] at hsafe ⊢
    rw [Session.feed, if_neg hp]
    refine ⟨hsafe, ?_, h.closed, h.finishedInput, h.finished, h.trailing⟩
    show s.raw.Stands ⟨((p.input ++ input).take s.absoluteOffset).drop headerLen, _, _, _⟩
    rw [List.take_append_of_le_length hposition]
    exact h.raw

/-! ## The payload -/

/-- what the raw decoder was fed, with the payload bytes that are there -/
theorem Feeds.taken (hf : Feeds s s') (h : Safe s q) (hle : headerLen ≤ s.absoluteOffset) :
    (q.take s'.absoluteOffset).drop headerLen =
      (q.take s.absoluteOffset).drop headerLen ++ s.unread.take s.payloadRemaining := by
  have htaken : (q.drop s.absoluteOffset).take (s.unread.take s.payloadRemaining).length =
      s.unread.take s.payloadRemaining := by
    rw [← h.unread, List.length_take, ← List.take_eq_take_min]
  have hposition := h.position_le
  have hfront : headerLen ≤ (q.take s.absoluteOffset).length := by
    rw [List.length_take]
    omega
  rw [hf.absoluteOffset, List.take_add, htaken, List.drop_append_of_le_length hfront]

/-- feeding the payload and ending it keeps the raw decoder in step with its session -/
theorem Feeds.close_stands (hf : Feeds s0 s1) {payload : List UInt8} {delivered : ℕ} {ended : Bool}
    (h : s0.raw.Stands ⟨payload, delivered, s0.raw.finishedInput, ended⟩)
    (hclosed : s0.raw.finishedInput = true → s0.payloadRemaining = 0) :
    s1.close.raw.Stands ⟨payload ++ s0.unread.take s0.payloadRemaining, delivered, s1.payloadRemaining = 0, ended⟩ := by
  have hfed := (RawDecoder.step_stands h (.feed (s0.unread.take s0.payloadRemaining)) not_false).1
  have hremaining := hf.payloadRemaining
  change (s0.raw.feed _).Stands _ at hfed
  rw [← hf.raw] at hfed
  by_cases hzero : s1.payloadRemaining = 0
  · have hend := (RawDecoder.step_stands hfed .finishInput not_false).1
    simp only [close, hzero, if_true, decide_true]
    exact hend
  · have hopen : s0.raw.finishedInput = false := by
      rw [Bool.eq_false_iff]
      intro hlast
      have := hclosed hlast
      omega
    rw [hopen] at hfed
    simp only [close, hzero, if_false, decide_false]
    exact hfed

/-- what is known when the raw decoder is called: it was fed all of the payload that is there, and told the end -/
structure Ready (s1 : BvxnDecoder) (p : Session) (header : BvxnHeader) : Prop where
  raw : s1.raw.Stands (p.payload header)
  known : s1.header = some header
  position : s1.absoluteOffset = p.input.length
  closed : s1.raw.finishedInput = true → s1.payloadRemaining = 0
  finishedInput : s1.finishedInput = p.finishedInput
  trailing : s1.trailingAfterFinish = p.trailing

/-- the raw decoder's call, in both decoders: the states that it leaves stand for each other, and the replies agree -/
theorem Ready.step (h : Ready s1 p header) (ht : ¬ (p.payload header).Trips dst) {r : RawDecoder} {y : Reply}
    (inner : answer RawDecoder.decodeInto s1.raw dst = (r, y)) :
    r.Stands ((p.payload header).decodeInto dst).1 ∧ Agree y ((p.payload header).decodeInto dst).2 := by
  have hstep := RawDecoder.step_stands h.raw (.produce dst) fun htrips => ht (h.raw.trips htrips)
  rw [show RawDecoder.machine.step s1.raw (.produce dst) = (r, y) from inner] at hstep
  exact hstep

/-- the session behind the raw decoder's call -/
def Session.decoded (p : Session) (header : BvxnHeader) (dst : List UInt8) : Session :=
  { p with
    delivered := ((p.payload header).decodeInto dst).1.delivered
    ended := ((p.payload header).decodeInto dst).1.finished }

/-- a decoder that the raw decoder's call leaves stands for the session that it leaves -/
theorem Ready.stands (h : Ready s1 p header) {r : RawDecoder} (hr : r.Stands ((p.payload header).decodeInto dst).1)
    (finished : Bool) (hsafe : Safe { s1 with raw := r, finished := finished } p.input) :
    Stands { s1 with raw := r, finished := finished } { p.decoded header dst with finished := finished } := by
  obtain ⟨hinput, hopen⟩ := (p.payload header).decodeInto_keeps dst
  have hfed : (p.input.take s1.absoluteOffset).drop headerLen = (p.payload header).input := by
    rw [h.position, List.take_length]
    rfl
  refine ⟨hsafe, ?_, fun hlast => ⟨by simp [h.known], h.closed ?_⟩, h.finishedInput, rfl, h.trailing⟩
  · show r.Stands ⟨(p.input.take s1.absoluteOffset).drop headerLen, _, _, _⟩
    rw [hfed, ← hinput, hr.finishedInput]
    exact hr
  · rw [h.raw.finishedInput, ← hopen, ← hr.finishedInput]
    exact hlast

/-- where a decoder stands that knows the header: before the end of the payload by the bytes that remain of it -/
theorem Safe.position (h : Safe s q) (hk : s.header = some header) : headerLen ≤ s.absoluteOffset ∧
    s.absoluteOffset + s.payloadRemaining = headerLen + header.payloadBytes ∧
    s.absoluteOffset + s.availableInput = q.length := by
  obtain ⟨rawCalls, haccounts⟩ := h.inner
  obtain ⟨hheader, hpayload⟩ := haccounts.payload header hk
  have hbudget := haccounts.budget header hk
  have hposition := h.position_le
  have havailable := length_unread s
  rw [hpayload, List.length_drop, List.length_take] at hbudget
  rw [h.unread, List.length_drop] at havailable
  omega

/-- reading the header and feeding the payload that is there changes nothing of the session -/
theorem Reads.fed (h : Stands s p) (reads : Reads s s0 p.input) (hk : s0.header = some header) (feeds : Feeds s0 s1) :
    s1.close.raw.Stands
      ⟨(p.input.take s1.absoluteOffset).drop headerLen, p.delivered, s1.payloadRemaining = 0, p.ended⟩ := by
  have hraw := h.raw
  rw [← reads.raw, ← reads.taken] at hraw
  rw [feeds.taken reads.safe (reads.safe.position hk).1]
  refine feeds.close_stands hraw fun hlast => ?_
  rw [reads.raw] at hlast
  obtain ⟨hknown, hzero⟩ := h.closed hlast
  rw [reads.known.resolve_left hknown]
  exact hzero

theorem Reads.stands (h : Stands s p) (reads : Reads s s0 p.input) (hk : s0.header = some header) (feeds : Feeds s0 s1)
    (safe : Safe s1.close p.input) : Stands s1.close p := by
  have hfed := reads.fed h hk feeds
  refine ⟨safe, ?_, fun hlast => ?_, ?_, ?_, ?_⟩
  · rw [hfed.finishedInput]
    exact hfed
  · rw [hfed.finishedInput, decide_eq_true_iff] at hlast
    have hknown : s1.close.header = some header := feeds.header.trans hk
    exact ⟨by simp [hknown], hlast⟩
  · exact (feeds.finishedInput.trans reads.finishedInput).trans h.finishedInput
  · exact (feeds.finished.trans (reads.finished.trans reads.running.symm)).trans h.finished
  · exact (feeds.trailingAfterFinish.trans (reads.clean0.trans reads.clean.symm)).trans h.trailing

theorem Reads.ready (h : Stands s p) (reads : Reads s s0 p.input) (hk : s0.header = some header) (feeds : Feeds s0 s1)
    (safe : Safe s1.close p.input) (hread : s1.close.availableInput = 0) : Ready s1.close p header := by
  have hknown : s1.close.header = some header := feeds.header.trans hk
  obtain ⟨-, hremaining, havailable⟩ := safe.position hknown
  have hfed := reads.fed h hk feeds
  have hstands := reads.stands h hk feeds safe
  rw [hread, Nat.add_zero] at havailable
  have hlast : (s1.payloadRemaining = 0) = (p.input.length = headerLen + header.payloadBytes) := by
    have hclose : s1.close.payloadRemaining = s1.payloadRemaining := rfl
    rw [eq_iff_iff]
    omega
  have htake : p.input.take s1.absoluteOffset = p.input := List.take_of_length_le havailable.ge
  simp only [hlast, htake] at hfed
  exact ⟨hfed, hknown, havailable, fun hl => (hstands.closed hl).2, hstands.finishedInput, hstands.trailing⟩

/-- below the declared length, a session answers by the progress of its payload -/
theorem Session.decodePayload_progress (hle : p.input.length ≤ headerLen + header.payloadBytes) {progress : StreamProgress}
    {dst' : List UInt8} (h : ((p.payload header).decodeInto dst).2 = .progress progress dst') :
    p.decodePayload header dst = (p.decoded header dst).settle header progress dst' := by
  rw [decodePayload, if_neg (not_lt.2 hle)]
  dsimp only
  rw [h]
  rfl

theorem Session.decodePayload_failed (hle : p.input.length ≤ headerLen + header.payloadBytes) {e : Stop}
    (h : ((p.payload header).decodeInto dst).2 = .failed e) :
    p.decodePayload header dst = (p.decoded header dst, .failed e) := by
  rw [decodePayload, if_neg (not_lt.2 hle)]
  dsimp only
  rw [h]
  rfl

theorem agree_failed {e : Stop} {r : Reply} (h : Agree (.failed e) r) : ∃ e', r = .failed e' := by
  cases r with
  | failed e' => exact ⟨e', rfl⟩
  | done => cases e <;> cases h
  | progress => cases e <;> cases h

/-- **What a call makes of the payload**, in both decoders. -/
theorem Settles.stands {x : BvxnDecoder × Reply} (h : Settles header s1 dst x) (hs : Stands s1 p)
    (hk : s1.header = some header) (hready : s1.availableInput = 0 → Ready s1 p header) (hsafe : Safe x.1 p.input)
    (ht : p.input.length ≤ headerLen + header.payloadBytes → ¬ (p.payload header).Trips dst)
    (hopen : ∀ progress dst', x.2 = .progress progress dst' → progress.status = .needInput → s1.finishedInput = false) :
    Stands x.1 (p.decodePayload header dst).1 ∧ Agree x.2 (p.decodePayload header dst).2 := by
  obtain ⟨-, hremaining, havailable⟩ := hs.safe.position hk
  -- the raw decoder inside is called, and both decoders go on from its reply
  have called (hread : s1.availableInput = 0) {r : RawDecoder} {y : Reply}
      (inner : answer RawDecoder.decodeInto s1.raw dst = (r, y)) :
      p.input.length ≤ headerLen + header.payloadBytes ∧ (p.decoded header dst).delivered = r.totalOutput ∧
        (∀ finished, Safe { s1 with raw := r, finished := finished } p.input →
          Stands { s1 with raw := r, finished := finished } { p.decoded header dst with finished := finished }) ∧
        Agree y ((p.payload header).decodeInto dst).2 := by
    have hle : p.input.length ≤ headerLen + header.payloadBytes := by omega
    obtain ⟨hr, hagree⟩ := (hready hread).step (ht hle) inner
    exact ⟨hle, hr.delivered.symm, (hready hread).stands hr, hagree⟩
  have unfinished : { p.decoded header dst with finished := s1.finished } = p.decoded header dst := by
    rw [hs.finished]
    rfl
  cases h with
  | extra fed bytes =>
    have hlong : headerLen + header.payloadBytes < p.input.length := by omega
    have hcount : s1.availableInput = p.input.length - (headerLen + header.payloadBytes) := by omega
    rw [Session.decodePayload, if_pos hlong, hcount]
    exact ⟨hs, .of_eq rfl⟩
  | failed read inner =>
    obtain ⟨hle, -, hstands, hagree⟩ := called read inner
    obtain ⟨e', he'⟩ := agree_failed hagree
    rw [he'] at hagree
    rw [Session.decodePayload_failed hle he']
    exact ⟨unfinished ▸ hstands s1.finished hsafe, hagree⟩
  | tooLong read inner long =>
    obtain ⟨hle, hdelivered, hstands, hagree⟩ := called read inner
    rw [Session.decodePayload_progress hle hagree.progress, Session.settle, hdelivered, if_pos long]
    exact ⟨unfinished ▸ hstands s1.finished hsafe, .of_eq rfl⟩
  | tooShort read inner ends short =>
    obtain ⟨hle, hdelivered, hstands, hagree⟩ := called read inner
    rw [Session.decodePayload_progress hle hagree.progress, Session.settle, hdelivered]
    simp only [ends, if_pos short]
    split_ifs <;> exact ⟨unfinished ▸ hstands s1.finished hsafe, .of_eq rfl⟩
  | truncated read inner fits asks last =>
    obtain ⟨hle, hdelivered, hstands, hagree⟩ := called read inner
    have hended : (p.decoded header dst).finishedInput = true := hs.finishedInput.symm.trans last
    have hposition : s1.absoluteOffset = (p.decoded header dst).input.length := by
      rw [read, Nat.add_zero] at havailable
      exact havailable
    rw [Session.decodePayload_progress hle hagree.progress, Session.settle, hdelivered, if_neg (not_lt.2 fits), asks,
      hposition]
    simp only [if_pos hended]
    exact ⟨unfinished ▸ hstands s1.finished hsafe, .of_eq rfl⟩
  | @progress r progress dst' read inner fits goesOn =>
    obtain ⟨hle, hdelivered, hstands, hagree⟩ := called read inner
    rw [Session.decodePayload_progress hle hagree.progress, Session.settle, hdelivered, if_neg (not_lt.2 fits)]
    cases hstatus : progress.status with
    | needInput =>
      have hmore : (p.decoded header dst).finishedInput ≠ true := by
        rw [Bool.eq_false_iff.symm]
        exact hs.finishedInput.symm.trans (hopen progress dst' rfl hstatus)
      simp only [if_neg hmore]
      exact ⟨unfinished ▸ hstands s1.finished hsafe, .of_eq rfl⟩
    | needOutput => exact ⟨unfinished ▸ hstands s1.finished hsafe, .of_eq rfl⟩
    | finished => exact absurd hstatus goesOn
  | finished read inner ends all =>
    obtain ⟨hle, hdelivered, hstands, hagree⟩ := called read inner
    rw [← hdelivered] at all
    rw [Session.decodePayload_progress hle hagree.progress, Session.settle, if_neg (not_lt.2 all.le)]
    simp only [ends, if_neg (not_not.2 all)]
    exact ⟨hstands true hsafe, .of_eq rfl⟩

/-! ## Every call -/

/-- a call that asks for input comes in front of the end of the input -/
theorem asks_open (h : Safe s q) {progress : StreamProgress} {dst' : List UInt8}
    (hstep : machine.step s (.produce dst) = (s', .progress progress dst')) (hasks : progress.status = .needInput) :
    s.finishedInput = false := by
  have hanswers := decodeInto_answers h dst
  rw [show answer decodeInto s dst = (s', .progress progress dst') from hstep] at hanswers
  cases hanswers with
  | waits _ more => exact more
  | done => cases hasks
  | passes hpasses _ input =>
    cases hpasses with
    | progress _ _ _ _ _ _ more => exact input ▸ more hasks

theorem decodeInto_stands (h : Stands s p) (dst : List UInt8) (ht : ¬ p.Trips (.produce dst)) :
    Stands (machine.step s (.produce dst)).1 (p.decodeInto dst).1 ∧
      Agree (machine.step s (.produce dst)).2 (p.decodeInto dst).2 := by
  have hcalls := step_calls h.safe dst
  have hsafe : Safe (machine.step s (.produce dst)).1 p.input := (decodeInto_safe h.safe dst).1
  have hasks : ∀ progress dst', (machine.step s (.produce dst)).2 = .progress progress dst' →
      progress.status = .needInput → s.finishedInput = false := by
    intro progress dst' hx hstatus
    have hstep : machine.step s (.produce dst) = ((machine.step s (.produce dst)).1, .progress progress dst') :=
      Prod.ext rfl hx
    exact asks_open h.safe hstep hstatus
  have hclean : s.trailingAfterFinish = 0 → ¬ p.trailing ≠ 0 := fun hc => not_not.2 (h.trailing.symm.trans hc)
  have hrunning : s.finished = false → ¬ p.finished = true := fun hf => by rw [← h.finished, hf]; exact Bool.false_ne_true
  generalize machine.step s (.produce dst) = x at hcalls hsafe hasks ⊢
  unfold Session.decodeInto
  cases hcalls with
  | trailing hne =>
    rw [if_pos (h.trailing ▸ hne), h.trailing]
    exact ⟨h, .of_eq rfl⟩
  | finished clean hf =>
    rw [if_neg (hclean clean), if_pos (h.finished.symm.trans hf)]
    exact ⟨h, .of_eq rfl⟩
  | needHeader clean running short =>
    have hopen : ¬ p.finishedInput = true := by
      rw [← h.finishedInput, hasks _ _ rfl rfl]
      exact Bool.false_ne_true
    rw [if_neg (hclean clean), if_neg (hrunning running), if_pos short, if_neg hopen]
    exact ⟨h, .of_eq rfl⟩
  | noHeader clean running short last =>
    rw [if_neg (hclean clean), if_neg (hrunning running), if_pos short, if_pos (h.finishedInput.symm.trans last)]
    exact ⟨h, .of_eq rfl⟩
  | badHeader clean running unknown bad whole =>
    rw [if_neg (hclean clean), if_neg (hrunning running), if_neg (not_lt.2 whole), bad]
    exact ⟨h, .of_eq rfl⟩
  | @settles s0 s1 header _ reads hk feeds safe hsettles =>
    have hknown : s1.close.header = some header := feeds.header.trans hk
    obtain ⟨rawCalls, haccounts⟩ := safe.inner
    have hparsed := haccounts.parsed header hknown
    rw [if_neg (hclean reads.clean), if_neg (hrunning reads.running), if_neg (not_lt.2 (parseHeader_length hparsed)), hparsed]
    refine hsettles.stands (reads.stands h hk feeds safe) hknown (reads.ready h hk feeds safe) hsafe ?_ ?_
    · intro hle htrips
      refine ht ⟨not_not.1 (hclean reads.clean), Bool.eq_false_iff.2 (hrunning reads.running), header, ?_, hle, htrips⟩
      rw [hparsed]
      rfl
    · intro progress dst' hx hstatus
      exact (feeds.finishedInput.trans reads.finishedInput).trans (hasks progress dst' hx hstatus)

/-- **Every call** that does not trip keeps a decoder in step with its session. -/
theorem session_step (h : Stands s p) (c : Call) (ht : ¬ p.Trips c) :
    Stands (machine.step s c).1 (Session.machine.step p c).1 ∧
      Agree (machine.step s c).2 (Session.machine.step p c).2 := by
  cases c with
  | feed input => exact ⟨feed_stands h input, .of_eq rfl⟩
  | finishInput =>
    have hsafe := (step_safe h.safe .finishInput).1
    rw [show Call.finishInput.accepted s.finished = [] by cases s.finished <;> rfl, List.append_nil] at hsafe
    exact ⟨⟨hsafe, h.raw, h.closed, rfl, h.finished, h.trailing⟩, .of_eq rfl⟩
  | produce dst => exact decodeInto_stands h dst ht

/-- **The decoder of blocks refines the plain one.** In every run in which no call trips, also in runs that fail, it replies as
a decoder does that keeps what it is fed up to its first `Finished`, and parses and decodes it anew at each call. So the calls
before matter only by the bytes that they fed in front of that, how many behind it, whether they ended the input, how many bytes
they delivered, and whether the stream in the payload has ended. -/
theorem replies_as_session (u : Usize) (calls : List Call) (hlen : (fed calls).length ≤ u.max)
    (h : Session.machine.Along (fun p c => ¬ p.Trips c) .new calls) :
    List.Forall₂ Agree ((machineOn u).replies new calls) (Session.machine.replies .new calls) := by
  rw [(run_on_eq calls hlen).2]
  exact (Session.machine.simulates machine (fun p s => Stands s p) (Q := fun r' r => Agree r r')
    (fun _ _ c hs ht => session_step hs c ht) calls stands_new h).2.flip

/-- the hypotheses hold of a run that cuts the block inside the payload, and goes on behind its end -/
theorem cut_block_refined : List.Forall₂ Agree
    ((machineOn .bits64).replies new [.feed (helloBlock.take 15), .produce [0], .feed (helloBlock.drop 15), .finishInput,
      .produce (List.replicate 6 0), .feed [1], .produce []])
    (Session.machine.replies .new [.feed (helloBlock.take 15), .produce [0], .feed (helloBlock.drop 15), .finishInput,
      .produce (List.replicate 6 0), .feed [1], .produce []]) :=
  replies_as_session .bits64 _ (by decide) (by decide +kernel)

end BvxnDecoder

end Lzvn.Apple
