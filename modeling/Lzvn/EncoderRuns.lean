/-
The incremental encoders in every order of calls. A caller is to feed everything, to end the input and then to draw, but
nothing enforces that: `feed` is taken at any time, also behind `finish_input` and between two buffers.

- `Session`: the plain encoder. It takes input up to the first buffer behind `finish_input` that it can serve, and encodes
  all of it anew for each buffer.
- `encoders_refine`: the encoders of the code reply as the plain one does, in every order of calls.
- `encoders_any_order`: so the output is the encoding of the bytes that count, as far as the buffers have room.
-/
import Lzvn.Apple.BvxnFraming

namespace Lzvn.StreamEncoder

open Lzvn.Core Lzvn.Apple
open Lzvn.Raw (RawEncoder)

variable {encode : List UInt8 → Except Stop (List UInt8)}

/-! ## The plain encoder -/

/-- the input that counts, and how many bytes of its encoding are out; a sealed session takes no more input -/
structure Session where
  input : List UInt8
  finishedInput : Bool
  isSealed : Bool
  delivered : ℕ
deriving DecidableEq, Repr

namespace Session

def new : Session := ⟨[], false, false, 0⟩

def feed (input : List UInt8) (self : Session) : Session :=
  if self.isSealed then self else { self with input := self.input ++ input }

/-- encode everything, and hand out what comes behind the bytes that are already out -/
def encodeInto (encode : List UInt8 → Except Stop (List UInt8)) (self : Session) (dst : List UInt8) : Session × Reply :=
  if !self.finishedInput then (self, .progress ⟨0, .needInput⟩ dst)
  else
    match encode self.input with
    | .error e => (self, .failed e)
    | .ok out =>
      let left := out.drop self.delivered
      let taken := left.take dst.length
      ({ self with isSealed := true, delivered := self.delivered + taken.length },
        .progress ⟨taken.length, if left.length ≤ dst.length then .finished else .needOutput⟩ (taken ++ dst.drop taken.length))

def machine (encode : List UInt8 → Except Stop (List UInt8)) : Machine Session Call Reply where
  step self
    | .feed input => (self.feed input, .done)
    | .finishInput => ({ self with finishedInput := true }, .done)
    | .produce dst => self.encodeInto encode dst

end Session

/-- a call hands out the front of what is left, and writes nothing behind it -/
theorem Session.encodeInto_frames (encode : List UInt8 → Except Stop (List UInt8)) (p : Session) (dst : List UInt8) :
    (p.encodeInto encode dst).2.Frames dst := by
  unfold encodeInto
  split_ifs
  · exact ⟨[], rfl, Nat.zero_le _, rfl⟩
  · cases encode p.input with
    | error e => trivial
    | ok out => exact ⟨_, rfl, List.length_take_le _ _, rfl⟩

/-- calls that match leave the same session, and get replies that match -/
theorem Session.step_matches (encode : List UInt8 → Except Stop (List UInt8)) (p : Session) {c c' : Call} (h : c.Matches c') :
    ((machine encode).step p c).1 = ((machine encode).step p c').1 ∧
      ((machine encode).step p c).2.Matches ((machine encode).step p c').2 := by
  cases c with
  | feed input =>
    cases h
    exact ⟨rfl, rfl⟩
  | finishInput =>
    cases h
    exact ⟨rfl, rfl⟩
  | produce dst =>
    cases c' with
    | feed input => cases h
    | finishInput => cases h
    | produce dst' =>
      have hlen : dst.length = dst'.length := h
      show (p.encodeInto encode dst).1 = (p.encodeInto encode dst').1 ∧
        (p.encodeInto encode dst).2.Matches (p.encodeInto encode dst').2
      unfold encodeInto
      rw [hlen]
      split_ifs
      · exact ⟨rfl, rfl, rfl⟩
      · cases encode p.input with
        | error e => exact ⟨rfl, rfl⟩
        | ok out => exact ⟨rfl, rfl, by rw [List.take_left, List.take_left]⟩

/-- the session that an encoder of the code stands for -/
structure Stands (encode : List UInt8 → Except Stop (List UInt8)) (s : StreamEncoder) (p : Session) : Prop where
  finishedInput : s.finishedInput = p.finishedInput
  prepared : s.prepared = p.isSealed
  offset : s.outputOffset = p.delivered
  gathering : p.isSealed = false → s.input = p.input ∧ p.delivered = 0
  sealed_ : p.isSealed = true → p.finishedInput = true ∧ encode p.input = .ok s.encoded ∧ p.delivered ≤ s.encoded.length

theorem stands_new : Stands encode new Session.new :=
  ⟨rfl, rfl, rfl, fun _ => ⟨rfl, rfl⟩, fun h => (by cases h)⟩

/-- feeds are taken until the session is sealed, and forgotten from then on -/
theorem feed_stands {s : StreamEncoder} {p : Session} (h : Stands encode s p) (input : List UInt8) :
    Stands encode (feed input s) (p.feed input) := by
  obtain ⟨q, closed, isSealed, delivered⟩ := p
  obtain ⟨hclosed, hprepared, hoffset, hgathering, hsealed⟩ := h
  unfold feed Session.feed
  cases isSealed with
  | true =>
    rw [if_pos rfl]
    split_ifs
    · exact ⟨hclosed, hprepared, hoffset, hgathering, hsealed⟩
    · exact ⟨hclosed, hprepared, hoffset, fun h => (by cases h), hsealed⟩
  | false =>
    obtain ⟨hinput, hzero⟩ := hgathering rfl
    rw [if_neg Bool.false_ne_true]
    split_ifs with hnil
    · exact ⟨hclosed, hprepared, hoffset, fun _ => ⟨by rw [hnil, List.append_nil]; exact hinput, hzero⟩, fun h => (by cases h)⟩
    · exact ⟨hclosed, hprepared, hoffset, fun _ => ⟨congrArg (· ++ input) hinput, hzero⟩, fun h => (by cases h)⟩

/-- a buffer takes the next of the encoded bytes -/
theorem drain_reply {s : StreamEncoder} (h : s.outputOffset ≤ s.encoded.length) (dst : List UInt8) :
    let left := s.encoded.drop s.outputOffset
    let taken := left.take dst.length
    replied (drain.run (s, dst)) = ({ s with outputOffset := s.outputOffset + taken.length },
      .progress ⟨taken.length, if left.length ≤ dst.length then .finished else .needOutput⟩ (taken ++ dst.drop taken.length)) := by
  intro left taken
  have hleft : left.length = s.encoded.length - s.outputOffset := List.length_drop
  have htaken : taken.length = min (s.encoded.length - s.outputOffset) dst.length := by
    rw [List.length_take, hleft, min_comm]
  have htake : left.take taken.length = taken := by
    rw [List.length_take, ← List.take_eq_take_min]
  have hstatus : s.outputOffset + taken.length = s.encoded.length ↔ left.length ≤ dst.length := by omega
  rw [drain_run h dst htaken, htake]
  simp only [hstatus, replied]

theorem answer_prepared {s s' : StreamEncoder} {dst : List UInt8} (h : (prepare encode).run (s, dst) = .ok true (s', dst)) :
    answer (encodeInto encode) s dst = replied (drain.run (s', dst)) := by
  rw [answer, encodeInto, EStateM.run_bind, h]
  rfl

theorem encodeInto_stands {s : StreamEncoder} {p : Session} (h : Stands encode s p) (dst : List UInt8) :
    Stands encode (answer (encodeInto encode) s dst).1 (p.encodeInto encode dst).1 ∧
      (answer (encodeInto encode) s dst).2 = (p.encodeInto encode dst).2 := by
  obtain ⟨input, encoded, offset, closed, prepared⟩ := s
  obtain ⟨q, closed', isSealed, delivered⟩ := p
  obtain ⟨hclosed, hprepared, hoffset, hgathering, hsealed⟩ := h
  dsimp only at hclosed hprepared hoffset hgathering hsealed
  subst hclosed hprepared hoffset
  -- what both do once the encoding is there
  have serves {out : List UInt8} (he : encode q = .ok out) (hle : offset ≤ out.length) {s : StreamEncoder}
      (hs : s.encoded = out ∧ s.outputOffset = offset ∧ s.finishedInput = true ∧ s.prepared = true) :
      Stands encode (replied (drain.run (s, dst))).1 ((⟨q, true, prepared, offset⟩ : Session).encodeInto encode dst).1 ∧
        (replied (drain.run (s, dst))).2 = ((⟨q, true, prepared, offset⟩ : Session).encodeInto encode dst).2 := by
    obtain ⟨rfl, rfl, hc, hp⟩ := hs
    rw [drain_reply hle]
    simp only [Session.encodeInto, he, Bool.not_true, Bool.false_eq_true, if_false]
    refine ⟨⟨hc, hp, rfl, fun hf => (by cases hf), fun _ => ⟨rfl, he, ?_⟩⟩, trivial⟩
    simp only [List.length_take, List.length_drop]
    omega
  cases prepared with
  | true =>
    obtain ⟨rfl, he, hle⟩ := hsealed rfl
    have hprepared : (prepare encode).run (⟨input, encoded, offset, true, true⟩, dst) =
        .ok true (⟨input, encoded, offset, true, true⟩, dst) := rfl
    rw [answer_prepared hprepared]
    exact serves he hle ⟨rfl, rfl, rfl, rfl⟩
  | false =>
    obtain ⟨rfl, rfl⟩ := hgathering rfl
    cases closed with
    | false => exact ⟨⟨rfl, rfl, rfl, fun _ => ⟨rfl, rfl⟩, fun h => (by cases h)⟩, rfl⟩
    | true =>
      cases he : encode input with
      | error e =>
        have hanswer := answer_failing (s := ⟨input, encoded, 0, true, false⟩) rfl rfl he dst
        rw [hanswer]
        simp only [Session.encodeInto, he]
        exact ⟨⟨rfl, rfl, rfl, fun _ => ⟨rfl, rfl⟩, fun h => (by cases h)⟩, rfl⟩
      | ok out =>
        have hprepare : (prepare encode).run (⟨input, encoded, 0, true, false⟩, dst) = .ok true (⟨input, out, 0, true, true⟩, dst) := by
          simp only [prepare, EStateM.run_bind, EStateM.run_get, he]
          rfl
        rw [answer_prepared hprepare]
        exact serves he (Nat.zero_le _) ⟨rfl, rfl, rfl, rfl⟩

/-- **Every call** keeps an encoder in step with its session. -/
theorem step_stands {s : StreamEncoder} {p : Session} (h : Stands encode s p) (c : Call) :
    Stands encode ((machine encode).step s c).1 ((Session.machine encode).step p c).1 ∧
      ((machine encode).step s c).2 = ((Session.machine encode).step p c).2 := by
  cases c with
  | feed input => exact ⟨feed_stands h input, rfl⟩
  | finishInput =>
    refine ⟨⟨rfl, h.prepared, h.offset, h.gathering, fun hs => ?_⟩, rfl⟩
    obtain ⟨-, hencodes, hle⟩ := h.sealed_ hs
    exact ⟨rfl, hencodes, hle⟩
  | produce dst => exact encodeInto_stands h dst

theorem run_stands (encode : List UInt8 → Except Stop (List UInt8)) (calls : List Call) :
    Stands encode ((machine encode).run new calls) ((Session.machine encode).run Session.new calls) ∧
      List.Forall₂ Eq ((machine encode).replies new calls) ((Session.machine encode).replies Session.new calls) :=
  (machine encode).simulates (Session.machine encode) (P := fun _ _ => True) (Stands encode)
    (fun _ _ c hs _ => step_stands hs c) calls stands_new (((machine encode).along_iff _ _ _).2 fun _ _ _ _ => trivial)

theorem replies_eq_session (encode : List UInt8 → Except Stop (List UInt8)) (calls : List Call) :
    (machine encode).replies new calls = (Session.machine encode).replies Session.new calls :=
  List.forall₂_eq_eq_eq ▸ (run_stands encode calls).2

/-- **The encoders refine the plain one.** In every order of calls they reply as an encoder does that keeps the input it has taken
up to the first buffer that it serves, and encodes it anew for each buffer. -/
theorem encoders_refine (calls : List Call) :
    RawEncoder.machine.replies .new calls = (Session.machine Raw.encode).replies .new calls ∧
    BvxnEncoder.machine.replies .new calls = (Session.machine Bvxn.encode).replies .new calls :=
  ⟨replies_eq_session Raw.encode calls, replies_eq_session Bvxn.encode calls⟩

/-- runs of calls that match -/
theorem run_matches (encode : List UInt8 → Except Stop (List UInt8)) {calls calls' : List Call}
    (h : List.Forall₂ Call.Matches calls calls') :
    List.Forall₂ Reply.Matches ((machine encode).replies new calls) ((machine encode).replies new calls') := by
  rw [replies_eq_session, replies_eq_session]
  refine ((Session.machine encode).relates (Session.machine encode) Eq (fun p p' c c' hp hc => ?_) h rfl).2
  subst hp
  exact Session.step_matches encode p hc

/-- a call in a run writes to the front of its buffer only -/
theorem run_frames (encode : List UInt8 → Except Stop (List UInt8)) (calls : List Call) (dst : List UInt8) :
    ((machine encode).step ((machine encode).run new calls) (.produce dst)).2.Frames dst := by
  rw [(step_stands (run_stands encode calls).1 (.produce dst)).2]
  exact Session.encodeInto_frames encode _ dst

/-! ## What comes out -/

/-- the bytes that count: those that are fed before the first buffer behind `finish_input` -/
def counted : Bool → List Call → List UInt8
  | _, [] => []
  | closed, .feed input :: calls => input ++ counted closed calls
  | _, .finishInput :: calls => counted true calls
  | closed, .produce _ :: calls => if closed then [] else counted closed calls

/-- the room of the buffers behind `finish_input` -/
def offered : Bool → List Call → ℕ
  | _, [] => 0
  | closed, .feed _ :: calls => offered closed calls
  | _, .finishInput :: calls => offered true calls
  | closed, .produce dst :: calls => (if closed then dst.length else 0) + offered closed calls

theorem outputs_cons (r : Reply) (rs : List Reply) : outputs (r :: rs) = r.output ++ outputs rs := rfl

theorem drop_length_take (l : List UInt8) (n : ℕ) : l.drop (l.take n).length = l.drop n := by
  rcases le_total n l.length with hle | hle
  · rw [List.length_take, min_eq_left hle]
  · rw [List.take_of_length_le hle, List.drop_length, List.drop_eq_nil_of_le hle]

/-- a session with the encoding at hand gives the next of its bytes -/
theorem Session.encodeInto_output {q out : List UInt8} (he : encode q = .ok out) (isSealed : Bool) (n : ℕ) (dst : List UInt8) :
    ∃ m, (⟨q, true, isSealed, n⟩ : Session).encodeInto encode dst = (⟨q, true, true, m⟩,
        ((⟨q, true, isSealed, n⟩ : Session).encodeInto encode dst).2) ∧
      ((⟨q, true, isSealed, n⟩ : Session).encodeInto encode dst).2.output = (out.drop n).take dst.length ∧
      out.drop m = (out.drop n).drop dst.length ∧
      (((⟨q, true, isSealed, n⟩ : Session).encodeInto encode dst).2.isFinished = true → (out.drop n).length ≤ dst.length) := by
  refine ⟨n + ((out.drop n).take dst.length).length, ?_, ?_, ?_, ?_⟩
  · simp only [encodeInto, he, Bool.not_true, Bool.false_eq_true, if_false]
  · simp only [encodeInto, he, Bool.not_true, Bool.false_eq_true, if_false, Reply.output]
    exact List.take_left
  · rw [← List.drop_drop, drop_length_take]
  · simp only [encodeInto, he, Bool.not_true, Bool.false_eq_true, if_false, Reply.isFinished]
    intro hstatus
    by_contra hlong
    rw [if_neg hlong] at hstatus
    cases hstatus

/-- the outputs of a session that has `out` left, when there is room for `room` bytes; it finishes when that is all -/
def Hands (out : List UInt8) (room : ℕ) (rs : List Reply) : Prop :=
  outputs rs = out.take room ∧ (rs.any Reply.isFinished = true → out.length ≤ room)

/-- a call that hands out what it has room for, in front of the others -/
theorem Hands.cons {out : List UInt8} {m n : ℕ} {r : Reply} {rs : List Reply} (hout : r.output = out.take m)
    (hfin : r.isFinished = true → out.length ≤ m) (h : Hands (out.drop m) n rs) : Hands out (m + n) (r :: rs) := by
  refine ⟨by rw [outputs_cons, hout, h.1, ← List.take_add], ?_⟩
  intro hany
  rw [List.any_cons, Bool.or_eq_true] at hany
  rcases hany with hhead | htail
  · exact (hfin hhead).trans (Nat.le_add_right _ _)
  · have := h.2 htail
    rw [List.length_drop] at this
    omega

/-- a sealed session hands out the bytes that are left -/
theorem hands_sealed {q out : List UInt8} (he : encode q = .ok out) (calls : List Call) (n : ℕ) :
    Hands (out.drop n) (offered true calls) ((Session.machine encode).replies ⟨q, true, true, n⟩ calls) := by
  induction calls generalizing n with
  | nil => exact ⟨rfl, fun h => (by cases h)⟩
  | cons c calls ih =>
    cases c with
    | feed input => exact ih n
    | finishInput => exact ih n
    | produce dst =>
      obtain ⟨m, hstep, houtput, hleft, hlast⟩ := Session.encodeInto_output he true n dst
      have hreplies : (Session.machine encode).replies ⟨q, true, true, n⟩ (.produce dst :: calls) =
          (Session.encodeInto encode ⟨q, true, true, n⟩ dst).2 :: (Session.machine encode).replies ⟨q, true, true, m⟩ calls := by
        rw [Machine.replies, show (Session.machine encode).step ⟨q, true, true, n⟩ (.produce dst) = _ from hstep]
      rw [hreplies, offered, if_pos rfl]
      exact Hands.cons houtput hlast (hleft ▸ ih m)

/-- a session that gathers hands out nothing before it is sealed, and the encoding of the bytes that count then -/
theorem hands_gathering (calls : List Call) (q : List UInt8) (closed : Bool) {out : List UInt8}
    (he : encode (q ++ counted closed calls) = .ok out) :
    Hands out (offered closed calls) ((Session.machine encode).replies ⟨q, closed, false, 0⟩ calls) := by
  induction calls generalizing q closed with
  | nil => exact ⟨rfl, fun h => (by cases h)⟩
  | cons c calls ih =>
    cases c with
    | feed input =>
      rw [counted, ← List.append_assoc] at he
      exact ih (q ++ input) closed he
    | finishInput => exact ih q true he
    | produce dst =>
      cases closed with
      | false =>
        rw [offered, if_neg Bool.false_ne_true, Nat.zero_add]
        exact ih q false he
      | true =>
        rw [counted, if_pos rfl, List.append_nil] at he
        obtain ⟨m, hstep, houtput, hleft, hlast⟩ := Session.encodeInto_output he false 0 dst
        have hreplies : (Session.machine encode).replies ⟨q, true, false, 0⟩ (.produce dst :: calls) =
            (Session.encodeInto encode ⟨q, true, false, 0⟩ dst).2 :: (Session.machine encode).replies ⟨q, true, true, m⟩ calls := by
          rw [Machine.replies, show (Session.machine encode).step ⟨q, true, false, 0⟩ (.produce dst) = _ from hstep]
        rw [hreplies, offered, if_pos rfl]
        exact Hands.cons houtput hlast (hleft ▸ hands_sealed he calls m)

/-- **A run hands out** the encoding of the bytes that count, as far as the buffers have room -/
theorem run_hands (calls : List Call) {out : List UInt8} (he : encode (counted false calls) = .ok out) :
    Hands out (offered false calls) ((machine encode).replies new calls) := by
  rw [replies_eq_session]
  exact hands_gathering calls [] false he

/-- **In every order of calls** the encoders hand out the encoding of the bytes that were fed before the first buffer behind
`finish_input`, be it an empty one, as far as the buffers from there on have room. -/
theorem encoders_any_order (calls : List Call) :
    (∃ out, Raw.encode (counted false calls) = .ok out ∧
      outputs (RawEncoder.machine.replies .new calls) = out.take (offered false calls)) ∧
    ∀ out, Bvxn.encode (counted false calls) = .ok out →
      outputs (BvxnEncoder.machine.replies .new calls) = out.take (offered false calls) := by
  obtain ⟨body, w, he, -, -⟩ := Raw.encode_spec (counted false calls)
  exact ⟨⟨_, he, (run_hands calls he).1⟩, fun out he => (run_hands calls he).1⟩

end Lzvn.StreamEncoder
