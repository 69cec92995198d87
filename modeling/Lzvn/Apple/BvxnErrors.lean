/-
What the incremental `bvxn` decoder never gives and never takes back.

- `Settles`: what a call does behind the header, error by error, with what it leaves.
- `run_budget`: in every run the reported output is at most what the header declares.
- `Refuses`, `step_refuses`: a decoder that can only fail.
- `rejections_final`: after a bad block magic, opcode, distance or size every later call fails, in every run.
-/
import Lzvn.Apple.Progress
import Lzvn.Raw.StreamReply

namespace Lzvn.Apple

open Lzvn.Core Lzvn.Apple.Bvxn
open Lzvn.Raw (RawDecoder)
open Lzvn.Raw.RawDecoder (Stuck rejects reported)

namespace BvxnDecoder

/-! ## One call behind the header -/

/-- what a call does once `s1` has fed its raw decoder all the payload that is there -/
inductive Settles (header : BvxnHeader) (s1 : BvxnDecoder) (dst : List UInt8) : BvxnDecoder × Reply → Prop where
  | extra (fed : s1.payloadRemaining = 0) (bytes : s1.availableInput ≠ 0) :
    Settles header s1 dst (s1, .failed (.err (.trailingData s1.availableInput)))
  | failed {r : RawDecoder} {e : Stop} (read : s1.availableInput = 0)
    (inner : answer RawDecoder.decodeInto s1.raw dst = (r, .failed e)) :
    Settles header s1 dst ({ s1 with raw := r }, .failed e)
  | tooLong {r : RawDecoder} {p : StreamProgress} {dst' : List UInt8} (read : s1.availableInput = 0)
    (inner : answer RawDecoder.decodeInto s1.raw dst = (r, .progress p dst')) (long : header.rawBytes < r.totalOutput) :
    Settles header s1 dst ({ s1 with raw := r }, .failed (.err (.sizeMismatch header.rawBytes r.totalOutput)))
  | tooShort {r : RawDecoder} {p : StreamProgress} {dst' : List UInt8} (read : s1.availableInput = 0)
    (inner : answer RawDecoder.decodeInto s1.raw dst = (r, .progress p dst')) (ends : p.status = .finished)
    (short : r.totalOutput ≠ header.rawBytes) :
    Settles header s1 dst ({ s1 with raw := r }, .failed (.err (.sizeMismatch header.rawBytes r.totalOutput)))
  | truncated {r : RawDecoder} {p : StreamProgress} {dst' : List UInt8} (read : s1.availableInput = 0)
    (inner : answer RawDecoder.decodeInto s1.raw dst = (r, .progress p dst')) (fits : r.totalOutput ≤ header.rawBytes)
    (asks : p.status = .needInput) (last : s1.finishedInput = true) :
    Settles header s1 dst ({ s1 with raw := r }, .failed (.err (.truncatedInput s1.absoluteOffset)))
  | progress {r : RawDecoder} {p : StreamProgress} {dst' : List UInt8} (read : s1.availableInput = 0)
    (inner : answer RawDecoder.decodeInto s1.raw dst = (r, .progress p dst')) (fits : r.totalOutput ≤ header.rawBytes)
    (goesOn : p.status ≠ .finished) : Settles header s1 dst ({ s1 with raw := r }, .progress p dst')
  | finished {r : RawDecoder} {p : StreamProgress} {dst' : List UInt8} (read : s1.availableInput = 0)
    (inner : answer RawDecoder.decodeInto s1.raw dst = (r, .progress p dst')) (ends : p.status = .finished)
    (all : r.totalOutput = header.rawBytes) :
    Settles header s1 dst ({ s1 with raw := r, finished := true }, .progress p dst')

theorem Safe.raw_ok {s : BvxnDecoder} {q : List UInt8} (h : Safe s q) : s.raw.Ok := by
  obtain ⟨rawCalls, haccounts⟩ := h.inner
  rw [haccounts.raw]
  exact RawDecoder.run_ok rawCalls

theorem decodePayload_settles {s : BvxnDecoder} {q : List UInt8} {header : BvxnHeader} (h : Safe s q)
    (hk : s.header = some header) (dst : List UInt8) :
    ∃ s1, Feeds s s1 ∧ Safe s1.close q ∧ Settles header s1.close dst (answer decodePayload s dst) := by
  obtain ⟨s1, hfeeds, hpump⟩ := run_pumpPayload h.offset_le
  have hk1 : s1.header = some header := hfeeds.header.trans hk
  refine ⟨s1, hfeeds, close_safe (hfeeds.safe h hk) (Option.isSome_iff_exists.2 ⟨header, hk1⟩), ?_⟩
  by_cases hextra : s1.payloadRemaining = 0 ∧ s1.availableInput ≠ 0
  · rw [if_pos hextra] at hpump
    rw [answer_pumpPayload_error hpump]
    exact .extra hextra.1 hextra.2
  rw [if_neg hextra] at hpump
  have hread : s1.close.availableInput = 0 := hfeeds.read hextra
  rw [answer_decodePayload hpump]
  cases hrun : RawDecoder.decodeInto.run (s1.close.raw, dst) with
  | error e t => exact .failed hread (by rw [answer, hrun]; rfl)
  | ok p t =>
    have hinner : answer RawDecoder.decodeInto s1.close.raw dst = (t.1, .progress p t.2) := by
      rw [answer, hrun]
      rfl
    dsimp only
    rw [run_settle (s := { s1.close with raw := t.1 }) hk1 hread]
    by_cases hlong : header.rawBytes < t.1.totalOutput
    · rw [if_pos hlong]
      exact .tooLong hread hinner hlong
    rw [if_neg hlong]
    cases hstatus : p.status with
    | needInput =>
      dsimp only
      split_ifs with hlast
      · exact .truncated hread hinner (not_lt.1 hlong) hstatus hlast.2
      · exact .progress hread hinner (not_lt.1 hlong) (by simp [hstatus])
    | needOutput => exact .progress hread hinner (not_lt.1 hlong) (by simp [hstatus])
    | finished =>
      dsimp only
      split_ifs with hne
      · exact .tooShort hread hinner hstatus hne
      · exact .finished hread hinner hstatus (not_not.1 hne)

/-- the call of the raw decoder inside a call -/
theorem Settles.inner {header : BvxnHeader} {s1 : BvxnDecoder} {dst : List UInt8} {x : BvxnDecoder × Reply}
    (h : Settles header s1 dst x) : x.1.raw = s1.raw ∨ x.1.raw = (RawDecoder.machine.step s1.raw (.produce dst)).1 := by
  have step {r : RawDecoder} {y : Reply} (inner : answer RawDecoder.decodeInto s1.raw dst = (r, y)) :
      r = (RawDecoder.machine.step s1.raw (.produce dst)).1 := (congrArg Prod.fst inner).symm
  cases h with
  | extra => exact .inl rfl
  | failed _ inner => exact .inr (step inner)
  | tooLong _ inner => exact .inr (step inner)
  | tooShort _ inner => exact .inr (step inner)
  | truncated _ inner => exact .inr (step inner)
  | progress _ inner => exact .inr (step inner)
  | finished _ inner => exact .inr (step inner)

theorem Settles.history_le {header : BvxnHeader} {s1 : BvxnDecoder} {dst : List UInt8} {x : BvxnDecoder × Reply}
    (h : Settles header s1 dst x) (hok : s1.raw.Ok) : s1.raw.history <+: x.1.raw.history := by
  rcases h.inner with hraw | hraw
  · rw [hraw]
  · rw [hraw]
    exact RawDecoder.step_history_le hok dst

theorem Settles.header_eq {header : BvxnHeader} {s1 : BvxnDecoder} {dst : List UInt8} {x : BvxnDecoder × Reply}
    (h : Settles header s1 dst x) : x.1.header = s1.header := by
  cases h <;> rfl

/-- a call that reports progress has its output in the history, which fits the header -/
theorem Settles.delivers {header : BvxnHeader} {s1 s' : BvxnDecoder} {dst dst' : List UInt8} {p : StreamProgress}
    (h : Settles header s1 dst (s', .progress p dst')) (hok : s1.raw.Ok) :
    (∃ out, out.length = p.written ∧ out.length ≤ dst.length ∧ dst' = out ++ dst.drop out.length ∧
      s'.raw.history = s1.raw.history ++ out) ∧ s'.raw.totalOutput ≤ header.rawBytes := by
  cases h with
  | progress _ inner fits => exact ⟨RawDecoder.step_progress hok inner, fits⟩
  | finished _ inner _ all => exact ⟨RawDecoder.step_progress hok inner, all.le⟩

/-- `s0` is the running decoder `s`, which was fed `q`, once it knows the header -/
structure Reads (s s0 : BvxnDecoder) (q : List UInt8) : Prop where
  clean : s.trailingAfterFinish = 0
  running : s.finished = false
  known : s.header = none ∨ s0 = s
  safe : Safe s0 q
  taken : (q.take s0.absoluteOffset).drop headerLen = (q.take s.absoluteOffset).drop headerLen
  raw : s0.raw = s.raw
  finishedInput : s0.finishedInput = s.finishedInput
  finished : s0.finished = false
  clean0 : s0.trailingAfterFinish = 0

/-- what a call does on a decoder that was fed `q` -/
inductive Calls (s : BvxnDecoder) (q dst : List UInt8) : BvxnDecoder × Reply → Prop where
  | trailing (h : s.trailingAfterFinish ≠ 0) :
    Calls s q dst (s, .failed (.err (.trailingData s.trailingAfterFinish)))
  | finished (clean : s.trailingAfterFinish = 0) (hf : s.finished = true) : Calls s q dst (s, .progress ⟨0, .finished⟩ dst)
  | needHeader (clean : s.trailingAfterFinish = 0) (running : s.finished = false) (short : q.length < headerLen) :
    Calls s q dst (s, .progress ⟨0, .needInput⟩ dst)
  | noHeader (clean : s.trailingAfterFinish = 0) (running : s.finished = false) (short : q.length < headerLen)
    (last : s.finishedInput = true) : Calls s q dst (s, .failed (.err (.truncatedInput 0)))
  | badHeader {e : Error} (clean : s.trailingAfterFinish = 0) (running : s.finished = false) (unknown : s.header = none)
    (bad : parseHeader q = .error (.err e)) (whole : headerLen ≤ q.length) : Calls s q dst (s, .failed (.err e))
  /-- `s0` has read the header, and `s1` has fed the payload behind it -/
  | settles {s0 s1 : BvxnDecoder} {header : BvxnHeader} {x : BvxnDecoder × Reply} (reads : Reads s s0 q)
    (header_eq : s0.header = some header) (feeds : Feeds s0 s1) (safe : Safe s1.close q)
    (h : Settles header s1.close dst x) : Calls s q dst x

theorem step_calls {s : BvxnDecoder} {q : List UInt8} (h : Safe s q) (dst : List UInt8) :
    Calls s q dst (machine.step s (.produce dst)) := by
  show Calls s q dst (answer decodeInto s dst)
  by_cases htrail : s.trailingAfterFinish = 0
  · cases hfin : s.finished with
    | true =>
      rw [answer_finished htrail hfin]
      exact .finished htrail hfin
    | false =>
      cases hk : s.header with
      | some header =>
        rw [answer_known htrail hfin hk]
        obtain ⟨s1, hfeeds, hsafe, hsettles⟩ := decodePayload_settles h hk dst
        exact .settles ⟨htrail, hfin, .inr rfl, h, rfl, rfl, rfl, hfin, htrail⟩ hk hfeeds hsafe hsettles
      | none =>
        obtain ⟨hraw, htake⟩ := h.takeHeader hk hfin htrail
        rw [answer_waiting htrail hfin]
        by_cases hshort : q.length < headerLen
        · rw [if_pos hshort] at htake
          by_cases hlast : s.finishedInput = true
          · rw [htake, if_pos hlast]
            exact .noHeader htrail hfin hshort hlast
          · rw [htake, if_neg hlast]
            exact .needHeader htrail hfin hshort
        · rw [if_neg hshort] at htake
          cases hp : parseHeader q with
          | error e =>
            rw [hp] at htake
            dsimp only at htake
            rw [htake]
            cases e with
            | panic => exact absurd hp (parseHeader_ne_panic q)
            | err e => exact .badHeader htrail hfin hk hp (not_lt.1 hshort)
          | ok header =>
            rw [hp] at htake
            obtain ⟨s0, htake, hread, hraw', hinput⟩ := htake
            rw [htake]
            have hsafe0 : Safe s0 q := hread.safe (hraw'.trans hraw)
            obtain ⟨rawCalls, haccounts⟩ := h.inner
            have htaken : (q.take s0.absoluteOffset).drop headerLen = (q.take s.absoluteOffset).drop headerLen := by
              rw [hread.position, (haccounts.waiting hk).2, List.take_zero, List.drop_nil, List.length_nil, Nat.add_zero,
                List.drop_of_length_le (List.length_take_le _ _)]
            obtain ⟨s1, hfeeds, hsafe, hsettles⟩ := decodePayload_settles hsafe0 hread.known dst
            exact .settles ⟨htrail, hfin, .inl hk, hsafe0, htaken, hraw', hinput, hread.unfinished, hread.clean⟩ hread.known
              hfeeds hsafe hsettles
  · rw [answer_trailing htrail]
    exact .trailing htrail

/-- a call that reports progress has written to the front of its buffer only -/
theorem step_frames {s : BvxnDecoder} {q : List UInt8} (h : Safe s q) (dst : List UInt8) :
    (machine.step s (.produce dst)).2.Frames dst := by
  have hcalls := step_calls h dst
  generalize machine.step s (.produce dst) = x at hcalls ⊢
  cases hcalls with
  | trailing => trivial
  | finished => exact ⟨[], rfl, Nat.zero_le _, rfl⟩
  | needHeader => exact ⟨[], rfl, Nat.zero_le _, rfl⟩
  | noHeader => trivial
  | badHeader => trivial
  | settles _ _ _ safe hsettles =>
    obtain ⟨s', r⟩ := x
    cases r with
    | done => trivial
    | failed => trivial
    | progress p dst' =>
      obtain ⟨⟨out, hlen, hle, hdst, -⟩, -⟩ := hsettles.delivers safe.raw_ok
      exact ⟨out, hlen, hle, hdst⟩

/-! ## What the header bounds -/

/-- the output that the header at the front of `q` allows -/
def allowance (q : List UInt8) : ℕ :=
  match parseHeader q with
  | .ok header => header.rawBytes
  | .error _ => 0

theorem allowance_le (q more : List UInt8) : allowance q ≤ allowance (q ++ more) := by
  unfold allowance
  cases hp : parseHeader q with
  | ok header => rw [parseHeader_append (parseHeader_length hp), hp]
  | error e => exact Nat.zero_le _

theorem Safe.allowance_eq {s : BvxnDecoder} {q : List UInt8} {header : BvxnHeader} (h : Safe s q)
    (hk : s.header = some header) : allowance q = header.rawBytes := by
  obtain ⟨rawCalls, haccounts⟩ := h.inner
  rw [allowance, haccounts.parsed header hk]

/-- `n` bytes of output were reported: they are all in the history, and the header allows them -/
structure Reported (s : BvxnDecoder) (q : List UInt8) (n : ℕ) : Prop where
  safe : Safe s q
  history : n ≤ s.raw.history.length
  allowed : n ≤ allowance q

/-- a call behind the header adds what it reports to the history, as far as that is allowed -/
theorem Settles.reported {header : BvxnHeader} {s1 : BvxnDecoder} {q dst : List UInt8} {x : BvxnDecoder × Reply}
    (h : Settles header s1 dst x) (hsafe : Safe s1 q) (hk : s1.header = some header) {n : ℕ}
    (hn : n ≤ s1.raw.history.length) (hallowed : n ≤ allowance q) :
    n + x.2.written ≤ x.1.raw.history.length ∧ n + x.2.written ≤ allowance q := by
  have hle := (h.history_le hsafe.raw_ok).length_le
  obtain ⟨s', r⟩ := x
  cases r with
  | done => cases h
  | failed e => exact ⟨hn.trans hle, hallowed⟩
  | progress p dst' =>
    obtain ⟨⟨out, hout, -, -, hhist⟩, hfits⟩ := h.delivers hsafe.raw_ok
    have hlen : s'.raw.history.length = s1.raw.history.length + p.written := by rw [hhist, List.length_append, hout]
    have htotal : s'.raw.totalOutput = s'.raw.history.length := rfl
    rw [hsafe.allowance_eq hk]
    show n + p.written ≤ s'.raw.history.length ∧ n + p.written ≤ header.rawBytes
    omega

/-- **Every call** reports no more than the header allows. -/
theorem step_reported {s : BvxnDecoder} {q : List UInt8} {n : ℕ} (h : Reported s q n) (c : Call) :
    Reported (machine.step s c).1 (q ++ c.accepted s.finished) (n + (machine.step s c).2.written) := by
  have hsafe := (step_safe h.safe c).1
  cases c with
  | feed input =>
    refine ⟨hsafe, ?_, h.allowed.trans (allowance_le q _)⟩
    show n ≤ (feed input s).raw.history.length
    rw [(feed_keeps input s).2.1]
    exact h.history
  | finishInput => exact ⟨hsafe, h.history, h.allowed.trans (allowance_le q _)⟩
  | produce dst =>
    have hnil : (Call.produce dst).accepted s.finished = [] := by simp [Call.accepted, Call.fed]
    have hcalls := step_calls h.safe dst
    rw [hnil, List.append_nil] at hsafe ⊢
    generalize machine.step s (.produce dst) = x at hsafe hcalls ⊢
    cases hcalls with
    | trailing => exact h
    | finished => exact h
    | needHeader => exact h
    | noHeader => exact h
    | badHeader => exact h
    | @settles s0 s1 header _ reads hk feeds hsafe1 hsettles =>
      have hhist : s1.close.raw.history = s.raw.history := feeds.close_history.trans (by rw [reads.raw])
      obtain ⟨hhistory, hallowed⟩ := hsettles.reported hsafe1 (feeds.header.trans hk) (hhist ▸ h.history) h.allowed
      exact ⟨hsafe, hhistory, hallowed⟩

/-- **The header bounds the output.** In every run, also when calls fail, the bytes that the calls report are at most those that
the header declares, and there are none before it was read. -/
theorem run_budget (calls : List Call) : reported (machine.replies new calls) ≤ allowance (accepted calls) := by
  suffices hrun : ∀ (calls : List Call) (s : BvxnDecoder) (q : List UInt8) (n : ℕ), Reported s q n →
      n + reported (machine.replies s calls) ≤ allowance (q ++ machine.gather (fun s c => c.accepted s.finished) s calls) by
    have hnew := hrun calls new [] 0 ⟨safe_new, Nat.zero_le _, Nat.zero_le _⟩
    rwa [Nat.zero_add] at hnew
  intro calls
  induction calls with
  | nil =>
    intro s q n h
    rw [Machine.gather, List.append_nil]
    exact h.allowed
  | cons c calls ih =>
    intro s q n h
    have hrest := ih _ _ _ (step_reported h c)
    rw [Machine.gather, ← List.append_assoc]
    have hsum : reported (machine.replies s (c :: calls)) =
        (machine.step s c).2.written + reported (machine.replies (machine.step s c).1 calls) := rfl
    rw [hsum, ← Nat.add_assoc]
    exact hrest

/-! ## Rejected blocks -/

/-- the errors that reject a block for good -/
def final : Error → Bool
  | .unsupportedBlockMagic _ => true
  | .invalidOpcode _ _ => true
  | .invalidMatchDistance _ _ => true
  | .sizeMismatch _ _ => true
  | _ => false

/-- why a decoder that was fed `q` can only fail -/
inductive Refuses (s : BvxnDecoder) (q : List UInt8) : Prop where
  | trailing (h : s.trailingAfterFinish ≠ 0)
  | magic {e : Error} (running : s.finished = false) (unknown : s.header = none) (whole : headerLen ≤ q.length)
    (bad : parseHeader q = .error (.err e))
  | raw (running : s.finished = false) (known : s.header ≠ none) (stuck : Stuck s.raw)
  | tooLong {header : BvxnHeader} (running : s.finished = false) (known : s.header = some header)
    (long : header.rawBytes < s.raw.totalOutput)
  | tooShort {header : BvxnHeader} (running : s.finished = false) (known : s.header = some header)
    (ended : s.raw.finished = true) (short : s.raw.totalOutput ≠ header.rawBytes)
  | extra (running : s.finished = false) (known : s.header ≠ none) (fed : s.payloadRemaining = 0)
    (bytes : s.availableInput ≠ 0)

/-- the header comes in front of all that a decoder that knows it has read -/
theorem Safe.headerLen_le {s : BvxnDecoder} {q : List UInt8} (h : Safe s q) (hk : s.header ≠ none) : headerLen ≤ q.length := by
  obtain ⟨rawCalls, haccounts⟩ := h.inner
  obtain ⟨header, hk⟩ := Option.ne_none_iff_exists'.1 hk
  exact parseHeader_length (haccounts.parsed header hk)

theorem feed_running {s : BvxnDecoder} (h : s.finished = false) (input : List UInt8) :
    feed input s = { s with input := s.input ++ input } := by
  unfold feed feedWith
  split_ifs with h1 h2
  · simp [h1]
  · rw [h] at h2
    cases h2
  · rfl

theorem refuses_feed {s : BvxnDecoder} {q : List UInt8} (h : Refuses s q) (input : List UInt8) :
    Refuses (feed input s) (q ++ (Call.feed input).accepted s.finished) := by
  cases h with
  | trailing hne =>
    refine .trailing ?_
    unfold feed feedWith
    split_ifs
    · exact hne
    · dsimp only
      omega
    · exact hne
  | magic running unknown whole bad =>
    rw [feed_running running]
    exact .magic running unknown (by rw [List.length_append]; omega) (by rw [parseHeader_append whole, bad])
  | raw running known stuck =>
    rw [feed_running running]
    exact .raw running known stuck
  | tooLong running known long =>
    rw [feed_running running]
    exact .tooLong running known long
  | tooShort running known ended short =>
    rw [feed_running running]
    exact .tooShort running known ended short
  | extra running known fed bytes =>
    rw [feed_running running]
    refine .extra running known fed ?_
    unfold availableInput at bytes ⊢
    dsimp only
    rw [List.length_append]
    omega

/-! ### Behind the header -/

/-- a raw decoder that has finished stays as it is, and fails or says so -/
theorem raw_ended {r r' : RawDecoder} (h : r.finished = true) {dst : List UInt8} {x : Reply}
    (hstep : answer RawDecoder.decodeInto r dst = (r', x)) :
    r' = r ∧ ∀ p dst', x = .progress p dst' → p.status = .finished := by
  by_cases hclean : r.trailingAfterFinish = 0
  · rw [RawDecoder.answer_finished hclean h] at hstep
    obtain ⟨rfl, rfl⟩ := hstep
    exact ⟨rfl, fun p dst' hx => by cases hx; rfl⟩
  · rw [RawDecoder.answer_trailing hclean] at hstep
    obtain ⟨rfl, rfl⟩ := hstep
    exact ⟨rfl, fun p dst' hx => by cases hx⟩

/-- feeding what is there and closing keeps a stuck raw decoder stuck -/
theorem Feeds.close_stuck {s s' : BvxnDecoder} (h : Feeds s s') (hok : s.raw.Ok) (hstuck : Stuck s.raw) :
    Stuck s'.close.raw := by
  have hfed : Stuck s'.raw := by
    rw [h.raw]
    exact RawDecoder.stuck_feed hok hstuck _
  exact s'.close_cases Stuck hfed fun _ => hfed

/-- feeding what is there and closing keeps a finished raw decoder finished -/
theorem Feeds.close_ended {s s' : BvxnDecoder} (h : Feeds s s') (hended : s.raw.finished = true) :
    s'.close.raw.finished = true := by
  have hfed : s'.raw.finished = true := by
    rw [h.raw, RawDecoder.feed_finished]
    exact hended
  exact s'.close_cases (fun r => r.finished = true) hfed fun _ => hfed

/-- what a call leaves and gives on a decoder that can only fail -/
def Fails (q dst : List UInt8) (x : BvxnDecoder × Reply) : Prop :=
  Refuses x.1 q ∧ x.2.isFinished = false ∧ (dst ≠ [] → x.2.isFailed = true)

section
variable {header : BvxnHeader} {s1 : BvxnDecoder} {q dst : List UInt8} {x : BvxnDecoder × Reply}

theorem Settles.stuck (h : Settles header s1 dst x) (hok : s1.raw.Ok) (running : s1.finished = false)
    (known : s1.header = some header) (hstuck : Stuck s1.raw) : Fails q dst x := by
  have hknown : s1.header ≠ none := by simp [known]
  have after {r : RawDecoder} {y : Reply} (inner : answer RawDecoder.decodeInto s1.raw dst = (r, y)) :
      Refuses { s1 with raw := r } q := by
    have hstep := (RawDecoder.step_stuck hok hstuck (.produce dst)).1
    rw [show RawDecoder.machine.step s1.raw (.produce dst) = (r, y) from inner] at hstep
    exact .raw running hknown hstep
  cases h with
  | extra => exact ⟨.raw running hknown hstuck, rfl, fun _ => rfl⟩
  | failed _ inner => exact ⟨after inner, rfl, fun _ => rfl⟩
  | tooLong _ inner => exact ⟨after inner, rfl, fun _ => rfl⟩
  | tooShort _ inner => exact ⟨after inner, rfl, fun _ => rfl⟩
  | truncated _ inner => exact ⟨after inner, rfl, fun _ => rfl⟩
  | progress _ inner =>
    obtain ⟨hnil, hstatus⟩ := RawDecoder.stuck_reply hok hstuck inner
    exact ⟨after inner, by rw [Reply.isFinished, hstatus]; rfl, fun hne => absurd hnil hne⟩
  | finished _ inner ends =>
    rw [(RawDecoder.stuck_reply hok hstuck inner).2] at ends
    cases ends

theorem Settles.long (h : Settles header s1 dst x) (hok : s1.raw.Ok) (running : s1.finished = false)
    (known : s1.header = some header) (hlong : header.rawBytes < s1.raw.totalOutput) : Fails q dst x := by
  have hgrown : header.rawBytes < x.1.raw.totalOutput := hlong.trans_le (h.history_le hok).length_le
  cases h with
  | extra => exact ⟨.tooLong running known hlong, rfl, fun _ => rfl⟩
  | failed => exact ⟨.tooLong running known hgrown, rfl, fun _ => rfl⟩
  | tooLong => exact ⟨.tooLong running known hgrown, rfl, fun _ => rfl⟩
  | tooShort => exact ⟨.tooLong running known hgrown, rfl, fun _ => rfl⟩
  | truncated _ _ fits => exact absurd fits (not_le.2 hgrown)
  | progress _ _ fits => exact absurd fits (not_le.2 hgrown)
  | finished _ _ _ all => exact absurd all.le (not_le.2 hgrown)

theorem Settles.short (h : Settles header s1 dst x) (running : s1.finished = false) (known : s1.header = some header)
    (ended : s1.raw.finished = true) (hshort : s1.raw.totalOutput ≠ header.rawBytes) : Fails q dst x := by
  have after {r : RawDecoder} {y : Reply} (inner : answer RawDecoder.decodeInto s1.raw dst = (r, y)) :
      Refuses { s1 with raw := r } q := by
    rw [(raw_ended ended inner).1]
    exact .tooShort running known ended hshort
  cases h with
  | extra => exact ⟨.tooShort running known ended hshort, rfl, fun _ => rfl⟩
  | failed _ inner => exact ⟨after inner, rfl, fun _ => rfl⟩
  | tooLong _ inner => exact ⟨after inner, rfl, fun _ => rfl⟩
  | tooShort _ inner => exact ⟨after inner, rfl, fun _ => rfl⟩
  | truncated _ inner => exact ⟨after inner, rfl, fun _ => rfl⟩
  | progress _ inner _ goesOn => exact absurd ((raw_ended ended inner).2 _ _ rfl) goesOn
  | finished _ inner _ all =>
    rw [(raw_ended ended inner).1] at all
    exact absurd all hshort

theorem Settles.bytes (h : Settles header s1 dst x) (running : s1.finished = false) (known : s1.header = some header)
    (fed : s1.payloadRemaining = 0) (hbytes : s1.availableInput ≠ 0) : Fails q dst x := by
  cases h with
  | extra => exact ⟨.extra running (by simp [known]) fed hbytes, rfl, fun _ => rfl⟩
  | failed read => exact absurd read hbytes
  | tooLong read => exact absurd read hbytes
  | tooShort read => exact absurd read hbytes
  | truncated read => exact absurd read hbytes
  | progress read => exact absurd read hbytes
  | finished read => exact absurd read hbytes

/-- an error that rejects the block leaves a decoder that can only fail -/
theorem Settles.rejects (h : Settles header s1 dst x) (hok : s1.raw.Ok) (running : s1.finished = false)
    (known : s1.header = some header) {e : Error} (he : final e = true) (hx : x.2 = .failed (.err e)) : Refuses x.1 q := by
  cases h with
  | extra =>
    cases hx
    cases he
  | failed _ inner =>
    cases hx
    have hstep : RawDecoder.machine.step s1.raw (.produce dst) = _ := inner
    have hraised := RawDecoder.step_raises hok (congrArg Prod.snd hstep)
    have hrejects : RawDecoder.rejects e = true ∧ ∀ n, e ≠ .trailingData n := by
      cases e <;> simp_all [final, RawDecoder.raises, RawDecoder.rejects]
    have hstuck := RawDecoder.stuck_of_invalid hok (congrArg Prod.snd hstep) hrejects.1 hrejects.2
    rw [hstep] at hstuck
    exact .raw running (by simp [known]) hstuck
  | tooLong _ _ long => exact .tooLong running known long
  | tooShort _ inner ends short => exact .tooShort running known (RawDecoder.step_finished hok inner ends) short
  | truncated =>
    cases hx
    cases he
  | progress => cases hx
  | finished => cases hx

end

/-! ### Every call -/

/-- **A decoder that can only fail stays so**, and every call with a nonempty buffer fails. -/
theorem step_refuses {s : BvxnDecoder} {q : List UInt8} (hs : Safe s q) (h : Refuses s q) (dst : List UInt8) :
    Fails q dst (machine.step s (.produce dst)) := by
  have hcalls := step_calls hs dst
  generalize machine.step s (.produce dst) = x at hcalls ⊢
  cases hcalls with
  | trailing => exact ⟨h, rfl, fun _ => rfl⟩
  | noHeader => exact ⟨h, rfl, fun _ => rfl⟩
  | badHeader => exact ⟨h, rfl, fun _ => rfl⟩
  | finished clean hf => cases h <;> simp_all
  | needHeader clean running short =>
    have unknown : s.header = none := by
      by_contra hk
      exact absurd (hs.headerLen_le hk) (not_le.2 short)
    cases h with
    | magic _ _ whole => exact absurd whole (not_le.2 short)
    | trailing hne => exact absurd clean hne
    | raw _ known => exact absurd unknown known
    | tooLong _ known => simp [unknown] at known
    | tooShort _ known => simp [unknown] at known
    | extra _ known => exact absurd unknown known
  | @settles s0 s1 header _ reads hk feeds safe hsettles =>
    have hk1 : s1.close.header = some header := feeds.header.trans hk
    have hrun1 : s1.close.finished = false := feeds.finished.trans reads.finished
    have same (hne : s.header ≠ none) : s0 = s := reads.known.resolve_left hne
    have hhist : s1.close.raw.history = s.raw.history := feeds.close_history.trans (by rw [reads.raw])
    cases h with
    | trailing hne => exact absurd reads.clean hne
    | magic _ _ _ bad =>
      obtain ⟨rawCalls, haccounts⟩ := safe.inner
      rw [haccounts.parsed header hk1] at bad
      cases bad
    | raw _ known stuck =>
      obtain rfl := same known
      exact hsettles.stuck safe.raw_ok hrun1 hk1 (feeds.close_stuck hs.raw_ok stuck)
    | @tooLong header' _ known long =>
      obtain rfl := same (by simp [known])
      obtain rfl := Option.some.inj (hk.symm.trans known)
      exact hsettles.long safe.raw_ok hrun1 hk1 (by rwa [RawDecoder.totalOutput, hhist])
    | @tooShort header' _ known ended short =>
      obtain rfl := same (by simp [known])
      obtain rfl := Option.some.inj (hk.symm.trans known)
      exact hsettles.short hrun1 hk1 (feeds.close_ended ended) (by rwa [RawDecoder.totalOutput, hhist])
    | extra _ known fed bytes =>
      obtain rfl := same known
      have hremaining := feeds.payloadRemaining
      have hunread := feeds.unread
      rw [fed, List.drop_zero] at hunread
      refine hsettles.bytes hrun1 hk1 (by show s1.payloadRemaining = 0; omega) ?_
      show s1.availableInput ≠ 0
      rwa [← length_unread, hunread, length_unread]

/-- **An error that rejects the block** leaves a decoder that can only fail. -/
theorem step_rejects {s : BvxnDecoder} {q : List UInt8} (hs : Safe s q) {dst : List UInt8} {e : Error}
    (hx : (machine.step s (.produce dst)).2 = .failed (.err e)) (he : final e = true) :
    Refuses (machine.step s (.produce dst)).1 q := by
  have hcalls := step_calls hs dst
  generalize machine.step s (.produce dst) = x at hcalls hx ⊢
  cases hcalls with
  | trailing =>
    cases hx
    cases he
  | finished => cases hx
  | needHeader => cases hx
  | noHeader =>
    cases hx
    cases he
  | badHeader clean running unknown bad whole =>
    cases hx
    exact .magic running unknown whole bad
  | settles reads hk feeds safe hsettles =>
    exact hsettles.rejects safe.raw_ok (feeds.finished.trans reads.finished) (feeds.header.trans hk) he hx

/-! ### Runs -/

/-- what is fed and the end of the input change nothing of that -/
theorem call_refuses {s : BvxnDecoder} {q : List UInt8} (hs : Safe s q) (h : Refuses s q) (c : Call) :
    Refuses (machine.step s c).1 (q ++ c.accepted s.finished) := by
  have hnone (hc : c.fed = []) : q ++ c.accepted s.finished = q := by rw [Call.accepted, hc, ite_self, List.append_nil]
  cases c with
  | feed input => exact refuses_feed h input
  | finishInput =>
    rw [hnone rfl]
    show Refuses (finishInput s) q
    cases h with
    | trailing hne => exact .trailing hne
    | magic running unknown whole bad => exact .magic running unknown whole bad
    | raw running known stuck => exact .raw running known stuck
    | tooLong running known long => exact .tooLong running known long
    | tooShort running known ended short => exact .tooShort running known ended short
    | extra running known fed bytes => exact .extra running known fed bytes
  | produce dst =>
    rw [hnone rfl]
    exact (step_refuses hs h dst).1

/-- **A rejected block stays rejected.** After an error that is final, in whatever run it came and whatever is called then, no call
reports `Finished`, and every call with a nonempty buffer fails with an error. -/
theorem rejections_final (a b : List Call) (dst dst' : List UInt8) (e : Error) (he : final e = true)
    (hr : (machine.step (machine.run new a) (.produce dst)).2 = .failed (.err e)) :
    (machine.step (machine.run new (a ++ .produce dst :: b)) (.produce dst')).2.isFinished = false ∧
    (dst' ≠ [] →
      ∃ e', (machine.step (machine.run new (a ++ .produce dst :: b)) (.produce dst')).2 = .failed (.err e')) := by
  have hsafe := run_safe a
  have hfirst : Safe (machine.step (machine.run new a) (.produce dst)).1 (accepted a) := (decodeInto_safe hsafe dst).1
  have hrun := machine.run_gather_inv (f := fun s c => c.accepted s.finished) (fun s q => Safe s q ∧ Refuses s q)
    (fun s q c h => ⟨(step_safe h.1 c).1, call_refuses h.1 h.2 c⟩) _ _ ⟨hfirst, step_rejects hsafe hr he⟩ b
  rw [machine.run_append, machine.run_cons]
  obtain ⟨-, hopen, hfails⟩ := step_refuses hrun.1 hrun.2 dst'
  have hnever := (step_safe hrun.1 (.produce dst')).2
  refine ⟨hopen, fun hne => ?_⟩
  replace hfails := hfails hne
  generalize (machine.step _ (.produce dst')).2 = r at hfails hnever ⊢
  cases r with
  | done => cases hfails
  | progress => cases hfails
  | failed e' =>
    cases e' with
    | err e' => exact ⟨e', rfl⟩
    | panic => exact absurd rfl hnever

/-- the hypothesis holds of a run that is fed twelve zero bytes for a header, and more then -/
theorem zero_header_rejected :
    (machine.step (machine.run new ([.feed (List.replicate 12 0)] ++ .produce [0] :: [.feed [1], .finishInput])) (.produce [0])).2.isFinished =
      false ∧
    (([0] : List UInt8) ≠ [] → ∃ e', (machine.step
      (machine.run new ([.feed (List.replicate 12 0)] ++ .produce [0] :: [.feed [1], .finishInput])) (.produce [0])).2 =
        .failed (.err e')) :=
  rejections_final [.feed (List.replicate 12 0)] [.feed [1], .finishInput] [0] [0] (.unsupportedBlockMagic 0) rfl
    (by decide +kernel)

end BvxnDecoder

end Lzvn.Apple
