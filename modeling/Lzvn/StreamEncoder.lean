/-
The incremental encoders. `RawEncoder` in `src/raw/stream.rs` and `BvxnEncoder` in `src/apple/bvxn.rs` have the same
fields and the same methods around the `encode` of their own module, which is a parameter here. The one difference is a `?`
behind the `encode` that can fail.

- `run_open`: up to `finish_input` the input is gathered, and every buffer gets `NeedInput`.
- `Draining`, `answer_draining`: behind it a buffer takes the next bytes of what the one-shot encoder gives.
- `agrees`: what a caller sees of the whole.
-/
import Lzvn.Stream

namespace Lzvn

open Lzvn.Core

/-- the fields of an incremental encoder -/
structure StreamEncoder where
  input : List UInt8
  encoded : List UInt8
  outputOffset : ℕ
  finishedInput : Bool
  prepared : Bool
deriving DecidableEq, Repr

namespace StreamEncoder

def new : StreamEncoder := ⟨[], [], 0, false, false⟩

def feed (input : List UInt8) (self : StreamEncoder) : StreamEncoder :=
  if input = [] then self else { self with input := self.input ++ input }

def finishInput (self : StreamEncoder) : StreamEncoder := { self with finishedInput := true }

def isFinished (self : StreamEncoder) : Bool := self.prepared && self.outputOffset = self.encoded.length

section
variable (encode : List UInt8 → Except Stop (List UInt8))

/-- the `if !self.prepared` in `encode_into`; `false` asks for more input -/
def prepare : Rust (StreamEncoder × List UInt8) Bool := do
  let (self, dst) ← get
  if self.prepared then return true
  else if !self.finishedInput then return false
  else
    let encoded ← encode self.input
    set ({ self with encoded, prepared := true }, dst)
    return true

/-- `encode_into` behind the encoded bytes -/
def drain : Rust (StreamEncoder × List UInt8) StreamProgress := do
  let (self, dst) ← get
  if self.outputOffset = self.encoded.length then return ⟨0, .finished⟩
  else
    let remaining ← sub self.encoded.length self.outputOffset
    let written := min remaining dst.length
    let bytes ← slice self.encoded self.outputOffset (self.outputOffset + written)
    let dst ← copyFromSlice dst 0 written bytes
    let outputOffset := self.outputOffset + written
    set ({ self with outputOffset }, dst)
    return ⟨written, if outputOffset = self.encoded.length then .finished else .needOutput⟩

def encodeInto : Rust (StreamEncoder × List UInt8) StreamProgress := do
  if ← prepare encode then drain else return ⟨0, .needInput⟩

def machine : Machine StreamEncoder Call Reply := coder feed finishInput (encodeInto encode)

end

/-! ## Up to the end of the input -/

variable {encode : List UInt8 → Except Stop (List UInt8)}

theorem feed_gathering (q input : List UInt8) :
    feed input ⟨q, [], 0, false, false⟩ = ⟨q ++ input, [], 0, false, false⟩ := by
  unfold feed
  split_ifs with h
  · rw [h, List.append_nil]
  · rfl

/-- what an encoder answers while it gathers its input -/
def waiting : Call → Reply
  | .produce dst => .progress ⟨0, .needInput⟩ dst
  | _ => .done

/-- up to `finish_input` the input is gathered, and every buffer gets `NeedInput` -/
theorem run_open (pre : List Call) (hopen : .finishInput ∉ pre) (q : List UInt8) :
    (machine encode).run ⟨q, [], 0, false, false⟩ pre = ⟨q ++ fed pre, [], 0, false, false⟩ ∧
      (machine encode).replies ⟨q, [], 0, false, false⟩ pre = pre.map waiting := by
  induction pre generalizing q with
  | nil => exact ⟨by rw [fed, List.flatMap_nil, List.append_nil]; rfl, rfl⟩
  | cons c pre ih =>
    have hopen' : .finishInput ∉ pre := fun h => hopen (List.mem_cons_of_mem _ h)
    rw [Machine.run_cons, Machine.replies, List.map_cons]
    cases c with
    | feed input =>
      have hstep : (machine encode).step ⟨q, [], 0, false, false⟩ (.feed input) =
          (⟨q ++ input, [], 0, false, false⟩, .done) := by
        rw [← feed_gathering]
        rfl
      obtain ⟨hrun, hreplies⟩ := ih hopen' (q ++ input)
      rw [hstep, hrun, hreplies, List.append_assoc]
      exact ⟨rfl, rfl⟩
    | finishInput => exact absurd List.mem_cons_self hopen
    | produce dst =>
      obtain ⟨hrun, hreplies⟩ := ih hopen' q
      exact ⟨hrun, congrArg _ hreplies⟩

/-! ## Behind the end of the input -/

/-- an encoder that hands out `out`, after buffers with room for `room` bytes -/
structure Draining (encode : List UInt8 → Except Stop (List UInt8)) (out : List UInt8) (room : ℕ)
    (s : StreamEncoder) : Prop where
  ended : s.finishedInput = true
  encodes : encode s.input = .ok out
  encoded : s.prepared = true → s.encoded = out
  offset : s.outputOffset = min room out.length

theorem prepare_draining {s : StreamEncoder} {out : List UInt8} {room : ℕ} (h : Draining encode out room s)
    (dst : List UInt8) : (prepare encode).run (s, dst) = .ok true ({ s with encoded := out, prepared := true }, dst) := by
  obtain ⟨input, encoded, offset, finished, prepared⟩ := s
  obtain ⟨rfl, hencode, hencoded, -⟩ := h
  dsimp only at hencode hencoded
  cases prepared with
  | true =>
    obtain rfl := hencoded rfl
    rfl
  | false =>
    simp only [prepare, EStateM.run_bind, EStateM.run_get, hencode]
    rfl

/-- a buffer takes as many of the encoded bytes that are left as it has room for -/
theorem drain_run {s : StreamEncoder} (h : s.outputOffset ≤ s.encoded.length) (dst : List UInt8) {n : ℕ}
    (hn : n = min (s.encoded.length - s.outputOffset) dst.length) :
    drain.run (s, dst) = .ok ⟨n, if s.outputOffset + n = s.encoded.length then .finished else .needOutput⟩
      ({ s with outputOffset := s.outputOffset + n }, (s.encoded.drop s.outputOffset).take n ++ dst.drop n) := by
  simp only [drain, EStateM.run_bind, EStateM.run_get]
  by_cases hall : s.outputOffset = s.encoded.length
  · obtain rfl : n = 0 := by rw [hn, hall, Nat.sub_self, Nat.zero_min]
    rw [if_pos hall, Nat.add_zero, if_pos hall]
    rfl
  · have hslice : slice s.encoded s.outputOffset (s.outputOffset + n) = .ok ((s.encoded.drop s.outputOffset).take n) := by
      rw [slice_eq (Nat.le_add_right _ _) (by omega), Nat.add_sub_cancel_left]
    have hbytes : ((s.encoded.drop s.outputOffset).take n).length = n - 0 := by
      rw [List.length_take, List.length_drop]
      omega
    have hcopy : copyFromSlice dst 0 n ((s.encoded.drop s.outputOffset).take n) = _ :=
      copyFromSlice_eq (Nat.zero_le n) (by omega) hbytes
    rw [if_neg hall]
    simp only [EStateM.run_bind, sub_eq h, run_lift_ok, ← hn, hslice, hcopy]
    rfl

/-- a buffer takes the next bytes of `out` -/
theorem answer_draining {s : StreamEncoder} {out : List UInt8} {room : ℕ} (h : Draining encode out room s)
    (dst : List UInt8) : ∃ n s', n = min (out.length - room) dst.length ∧
      answer (encodeInto encode) s dst = (s', .progress ⟨n, if out.length ≤ room + dst.length then .finished else .needOutput⟩
        ((out.drop room).take n ++ dst.drop n)) ∧
      Draining encode out (room + dst.length) s' ∧ s'.prepared = true := by
  have hoff := h.offset
  have hdrop : out.drop s.outputOffset = out.drop room := by
    rcases le_total room out.length with hle | hle
    · rw [hoff, min_eq_left hle]
    · rw [hoff, min_eq_right hle, List.drop_length, List.drop_eq_nil_of_le hle]
  set n := min (out.length - room) dst.length with hn
  have hrun := drain_run (s := { s with encoded := out, prepared := true }) (hoff.le.trans (min_le_right _ _)) dst (n := n)
    (by show n = min (out.length - s.outputOffset) dst.length; omega)
  have hstatus : s.outputOffset + n = out.length ↔ out.length ≤ room + dst.length := by omega
  simp only [hdrop, hstatus] at hrun
  refine ⟨n, { s with encoded := out, outputOffset := s.outputOffset + n, prepared := true }, rfl, ?_,
    ⟨h.ended, h.encodes, fun _ => rfl, ?_⟩, rfl⟩
  · rw [answer, encodeInto, EStateM.run_bind, prepare_draining h]
    exact congrArg replied hrun
  · show s.outputOffset + n = min (room + dst.length) out.length
    omega

theorem Draining.isFinished_iff {s : StreamEncoder} {out : List UInt8} {room : ℕ} (h : Draining encode out room s)
    (hprepared : s.prepared = true) : s.isFinished = true ↔ out.length ≤ room := by
  rw [isFinished, hprepared, Bool.true_and, decide_eq_true_eq, h.encoded hprepared, h.offset]
  exact min_eq_right_iff

/-- a buffer is filled, or gets `Finished`, and then the encoder has finished -/
theorem answer_ends {s : StreamEncoder} {out : List UInt8} {room : ℕ} (h : Draining encode out room s)
    (dst : List UInt8) : ∃ s' p dst', answer (encodeInto encode) s dst = (s', .progress p dst') ∧
      (p.status = .finished ∨ p.status = .needOutput ∧ p.written = dst.length) ∧
      (p.status = .finished ↔ out.length ≤ room + dst.length) ∧ (p.status = .finished ↔ s'.isFinished = true) := by
  obtain ⟨n, s', hn, hanswer, hnext, hprepared⟩ := answer_draining h dst
  refine ⟨s', _, _, hanswer, ?_⟩
  rw [hnext.isFinished_iff hprepared]
  by_cases hall : out.length ≤ room + dst.length
  · simp [hall]
  · rw [if_neg hall]
    refine ⟨.inr ⟨rfl, ?_⟩, ?_, ?_⟩
    · show n = dst.length
      omega
    · simp [hall]
    · simp [hall]

/-! ## What a caller sees -/

/-- an encoder that has finished stays as it is -/
theorem answer_isFinished {s : StreamEncoder} (h : s.isFinished = true) (dst : List UInt8) :
    answer (encodeInto encode) s dst = (s, .progress ⟨0, .finished⟩ dst) := by
  obtain ⟨input, encoded, offset, finished, prepared⟩ := s
  rw [isFinished, Bool.and_eq_true, decide_eq_true_eq] at h
  obtain ⟨rfl, rfl⟩ : prepared = true ∧ offset = encoded.length := h
  rw [answer, encodeInto, EStateM.run_bind]
  show replied (drain.run _) = _
  rw [drain_run le_rfl dst (n := 0) (by rw [Nat.sub_self, Nat.zero_min])]
  simp [replied]

/-- when the input cannot be encoded, every buffer gets the error -/
theorem answer_failing {s : StreamEncoder} (hended : s.finishedInput = true) (hnot : s.prepared = false) {e : Stop}
    (he : encode s.input = .error e) (dst : List UInt8) : answer (encodeInto encode) s dst = (s, .failed e) := by
  obtain ⟨input, encoded, offset, finished, prepared⟩ := s
  obtain rfl : finished = true := hended
  obtain rfl : prepared = false := hnot
  dsimp only at he
  simp only [answer, encodeInto, prepare, EStateM.run_bind, EStateM.run_get, he]
  rfl

/-- the calls `pre`, `finish_input`, and then the buffers `bufs` -/
def calls (pre : List Call) (bufs : List (List UInt8)) : List Call := pre ++ .finishInput :: bufs.map .produce

/-- what an encoder shows when the one-shot encoder gives `once` for all that `pre` feeds -/
structure Agrees (M : Machine StreamEncoder Call Reply) (once : Except Stop (List UInt8)) (pre : List Call)
    (bufs : List (List UInt8)) : Prop where
  /-- before the end of the input every buffer gets `NeedInput`, with nothing written -/
  waits : M.replies .new pre = pre.map waiting
  /-- the run errs when the one-shot encoder does, with the same error -/
  errs : ∀ e, .failed e ∈ M.replies .new (calls pre bufs) ↔ once = .error e ∧ bufs ≠ []
  /-- the output so far is the front of the encoding that the buffers have room for -/
  front : ∀ out, once = .ok out → outputs (M.replies .new (calls pre bufs)) = out.take (bufs.map List.length).sum
  /-- one more buffer gets `Finished` exactly when the output is then the whole encoding -/
  ends : ∀ out dst, once = .ok out → ∃ s p dst', M.step (M.run .new (calls pre bufs)) (.produce dst) = (s, .progress p dst') ∧
    (p.status = .finished ∨ p.status = .needOutput ∧ p.written = dst.length) ∧
    (p.status = .finished ↔ outputs (M.replies .new (calls pre (bufs ++ [dst]))) = out) ∧
    (p.status = .finished ↔ s.isFinished = true)
  /-- from then on every buffer gets `Finished`, with nothing written -/
  later : (M.run .new (calls pre bufs)).isFinished = true → ∀ more,
    (M.run .new (calls pre (bufs ++ more))).isFinished = true ∧
      M.replies (M.run .new (calls pre bufs)) (more.map .produce) = more.map fun dst => .progress ⟨0, .finished⟩ dst

theorem run_draining {out : List UInt8} (bufs : List (List UInt8)) {s : StreamEncoder} {room : ℕ}
    (h : Draining encode out room s) :
    Draining encode out (room + (bufs.map List.length).sum) ((machine encode).run s (bufs.map .produce)) ∧
      outputs ((machine encode).replies s (bufs.map .produce)) = (out.drop room).take (bufs.map List.length).sum ∧
      ∀ e, .failed e ∉ (machine encode).replies s (bufs.map .produce) := by
  induction bufs generalizing s room with
  | nil => exact ⟨h, by simp [Machine.replies, outputs], by simp [Machine.replies]⟩
  | cons dst bufs ih =>
    obtain ⟨n, s', hn, hanswer, hnext, -⟩ := answer_draining h dst
    obtain ⟨hrun, houts, hfails⟩ := ih hnext
    have hstep : (machine encode).step s (.produce dst) = _ := hanswer
    have hlen : ((out.drop room).take n).length = n := by
      rw [List.length_take, List.length_drop]
      omega
    have htake : (out.drop room).take n = (out.drop room).take dst.length := by
      rw [hn, ← List.length_drop, min_comm, ← List.take_eq_take_min]
    simp only [List.map_cons, List.sum_cons, Machine.run_cons, Machine.replies, hstep]
    refine ⟨by rwa [← Nat.add_assoc], ?_, ?_⟩
    · calc outputs (_ :: (machine encode).replies s' (bufs.map .produce))
          = ((out.drop room).take n ++ dst.drop n).take n ++
              outputs ((machine encode).replies s' (bufs.map .produce)) := rfl
        _ = (out.drop room).take dst.length ++ (out.drop (room + dst.length)).take (bufs.map List.length).sum := by
          rw [houts, List.take_left' hlen, htake]
        _ = (out.drop room).take (dst.length + (bufs.map List.length).sum) := by rw [List.take_add, List.drop_drop]
    · intro e hmem
      rcases List.mem_cons.1 hmem with heq | hmem
      · cases heq
      · exact hfails e hmem

theorem run_failing {s : StreamEncoder} (hended : s.finishedInput = true) (hnot : s.prepared = false) {e : Stop}
    (he : encode s.input = .error e) (bufs : List (List UInt8)) :
    (machine encode).run s (bufs.map .produce) = s ∧
      (machine encode).replies s (bufs.map .produce) = bufs.map fun _ => .failed e := by
  induction bufs with
  | nil => exact ⟨rfl, rfl⟩
  | cons dst bufs ih =>
    have hstep : (machine encode).step s (.produce dst) = _ := answer_failing hended hnot he dst
    simp only [List.map_cons, Machine.run_cons, Machine.replies, hstep, ih, and_self]

theorem run_isFinished {s : StreamEncoder} (h : s.isFinished = true) (bufs : List (List UInt8)) :
    (machine encode).run s (bufs.map .produce) = s ∧
      (machine encode).replies s (bufs.map .produce) = bufs.map fun dst => .progress ⟨0, .finished⟩ dst := by
  induction bufs with
  | nil => exact ⟨rfl, rfl⟩
  | cons dst bufs ih =>
    have hstep : (machine encode).step s (.produce dst) = _ := answer_isFinished h dst
    simp only [List.map_cons, Machine.run_cons, Machine.replies, hstep, ih, and_self]

theorem run_calls {pre : List Call} (hopen : .finishInput ∉ pre) (bufs : List (List UInt8)) :
    (machine encode).run .new (calls pre bufs) = (machine encode).run ⟨fed pre, [], 0, true, false⟩ (bufs.map .produce) ∧
      (machine encode).replies .new (calls pre bufs) =
        pre.map waiting ++ .done :: (machine encode).replies ⟨fed pre, [], 0, true, false⟩ (bufs.map .produce) := by
  obtain ⟨hrun, hreplies⟩ : (machine encode).run ⟨[], [], 0, false, false⟩ pre = _ ∧ _ := run_open pre hopen []
  rw [calls, Machine.run_append, Machine.replies_append]
  rw [List.nil_append] at hrun
  exact ⟨by rw [new, hrun]; rfl, by rw [new, hrun, hreplies]; rfl⟩

theorem output_waiting (c : Call) : (waiting c).output = [] := by
  cases c <;> rfl

theorem outputs_waiting (pre : List Call) (rs : List Reply) : outputs (pre.map waiting ++ .done :: rs) = outputs rs := by
  rw [outputs, List.flatMap_append, List.flatMap_eq_nil_iff.2, List.nil_append]
  · rfl
  · intro r hr
    obtain ⟨c, -, rfl⟩ := List.mem_map.1 hr
    exact output_waiting c

theorem waiting_ne_failed (pre : List Call) (e : Stop) : .failed e ∉ pre.map waiting := by
  intro hmem
  obtain ⟨c, -, hc⟩ := List.mem_map.1 hmem
  cases c <;> cases hc

/-- **The incremental encoder agrees with the one-shot encoder**, whatever the calls up to `finish_input` and the buffers
behind it are. -/
theorem agrees {pre : List Call} (hopen : .finishInput ∉ pre) (bufs : List (List UInt8)) :
    Agrees (machine encode) (encode (fed pre)) pre bufs := by
  set s : StreamEncoder := ⟨fed pre, [], 0, true, false⟩ with hs
  have hdraining : ∀ out, encode (fed pre) = .ok out → Draining encode out 0 s :=
    fun out hout => ⟨rfl, hout, fun h => (by cases h), (Nat.zero_min _).symm⟩
  have houtputs : ∀ out, encode (fed pre) = .ok out → ∀ bufs,
      outputs ((machine encode).replies .new (calls pre bufs)) = out.take (bufs.map List.length).sum := by
    intro out hout bufs
    obtain ⟨-, houts, -⟩ := run_draining bufs (hdraining out hout)
    rw [(run_calls hopen bufs).2, outputs_waiting, houts, List.drop_zero]
  constructor
  · exact (run_open pre hopen []).2
  · intro e
    rw [(run_calls hopen bufs).2, List.mem_append, List.mem_cons]
    simp only [waiting_ne_failed, reduceCtorEq, false_or]
    cases hencode : encode (fed pre) with
    | ok out => exact iff_of_false ((run_draining bufs (hdraining out hencode)).2.2 e) (fun h => by cases h.1)
    | error e' =>
      rw [(run_failing rfl rfl hencode bufs).2, List.mem_map]
      constructor
      · intro h
        rcases h with ⟨dst, hmem, heq⟩
        cases heq
        exact ⟨rfl, List.ne_nil_of_mem hmem⟩
      · intro h
        rcases h with ⟨heq, hne⟩
        cases heq
        exact ⟨bufs.head hne, List.head_mem hne, rfl⟩
  · exact fun out hout => houtputs out hout bufs
  · intro out dst hout
    obtain ⟨hrun, -, -⟩ := run_draining bufs (hdraining out hout)
    rw [Nat.zero_add] at hrun
    obtain ⟨s', p, dst', hanswer, hfills, hwhole, hends⟩ := answer_ends hrun dst
    refine ⟨s', p, dst', ?_, hfills, ?_, hends⟩
    · rw [(run_calls hopen bufs).1]
      exact hanswer
    · rw [hwhole, houtputs out hout, List.map_append, List.sum_append, List.take_eq_self_iff]
      rfl
  · intro hfinished more
    have hrun : (machine encode).run .new (calls pre (bufs ++ more)) =
        (machine encode).run ((machine encode).run .new (calls pre bufs)) (more.map .produce) := by
      rw [← Machine.run_append, calls, calls, List.map_append, List.append_assoc, List.cons_append]
    obtain ⟨hsame, hreplies⟩ : (machine encode).run _ (more.map .produce) = _ ∧ _ := run_isFinished hfinished more
    exact ⟨by rw [hrun, hsame, hfinished], hreplies⟩

end StreamEncoder

end Lzvn
