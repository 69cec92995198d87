/-
What the incremental `bvxn` decoder keeps of its input, in every order of calls.

`Safe s q` relates a state to the bytes `q` that were fed to it while it had not finished. What is not read yet is the end of
`q`, and the raw decoder inside is in a state that it reaches by some calls of its own: they feed it exactly the payload
bytes that were read, and `payload_remaining` counts the declared ones that were not.

- `Feeds.safe`, `Safe.raw_call`, `close_safe`: the parts of a call on the raw decoder are calls of its own.
- `step_safe`, `run_safe`: `Safe` holds in every reachable state, and no call panics.
- `decoders_safe`: both decoders, in every order of calls.
-/
import Lzvn.Apple.BvxnRuns
import Lzvn.Raw.StreamSafety

namespace Lzvn.Apple

open Lzvn.Core Lzvn.Apple.Bvxn
open Lzvn.Raw (RawDecoder)

namespace BvxnDecoder

/-- the bytes that the calls of a run feed before the decoder has finished -/
def accepted (calls : List Call) : List UInt8 := machine.gather (fun s c => c.accepted s.finished) new calls

/-- the calls `rawCalls` have fed the payload bytes that were read of `q`, and no more than the header declares -/
structure Accounts (s : BvxnDecoder) (q : List UInt8) (rawCalls : List Call) : Prop where
  raw : s.raw = RawDecoder.machine.run .new rawCalls
  waiting : s.header = none → rawCalls = [] ∧ s.absoluteOffset = 0
  parsed : ∀ header, s.header = some header → parseHeader q = .ok header
  payload : ∀ header, s.header = some header → headerLen ≤ s.absoluteOffset ∧
    fed rawCalls = (q.take s.absoluteOffset).drop headerLen
  budget : ∀ header, s.header = some header → (fed rawCalls).length + s.payloadRemaining = header.payloadBytes

/-- `s` has its offset in range, what it has not read is the end of `q`, and the raw decoder was fed what it has read -/
structure Safe (s : BvxnDecoder) (q : List UInt8) : Prop where
  offset_le : s.inputOffset ≤ s.input.length
  position_le : s.absoluteOffset ≤ q.length
  unread : s.unread = q.drop s.absoluteOffset
  inner : ∃ rawCalls, Accounts s q rawCalls

theorem safe_new : Safe new [] :=
  ⟨le_rfl, le_rfl, rfl, [], ⟨rfl, fun _ => ⟨rfl, rfl⟩, fun _ h => (by cases h), fun _ h => (by cases h),
    fun _ h => (by cases h)⟩⟩

/-! ## The parts of a call -/

/-- a decoder that has read the header and fed nothing -/
theorem Reading.safe {s : BvxnDecoder} {q : List UInt8} {header : BvxnHeader} (h : Reading s q header [])
    (hraw : s.raw = .new) : Safe s q := by
  have hposition : s.absoluteOffset = headerLen := h.position
  have hknown {header' : BvxnHeader} (hk : s.header = some header') : header' = header := by
    rw [h.known] at hk
    exact (Option.some.inj hk).symm
  refine ⟨h.offset_le, ?_, ?_, [], hraw, fun hk => ?_, fun header' hk => ?_, fun header' hk => ?_, fun header' hk => ?_⟩
  · rw [hposition]
    exact parseHeader_length h.parsed
  · rw [hposition, h.payload]
    rfl
  · rw [h.known] at hk
    cases hk
  · rw [hknown hk]
    exact h.parsed
  · refine ⟨hposition.ge, ?_⟩
    rw [hposition, List.drop_of_length_le (List.length_take_le _ _)]
    rfl
  · rw [hknown hk]
    exact h.budget

/-- feeding the payload bytes that are there is a call of the raw decoder -/
theorem Feeds.safe {s s' : BvxnDecoder} {q : List UInt8} {header : BvxnHeader} (hf : Feeds s s') (h : Safe s q)
    (hk : s.header = some header) : Safe s' q := by
  obtain ⟨rawCalls, haccounts⟩ := h.inner
  have hposition := h.position_le
  have habsolute := hf.absoluteOffset
  have htaken : s.unread.take s.payloadRemaining =
      (q.drop s.absoluteOffset).take (s.unread.take s.payloadRemaining).length := by
    rw [← h.unread, List.length_take, ← List.take_eq_take_min]
  have hfed : fed (rawCalls ++ [.feed (s.unread.take s.payloadRemaining)]) =
      fed rawCalls ++ s.unread.take s.payloadRemaining := by
    rw [fed_append]
    exact congrArg _ (List.append_nil _)
  have hlen : (s.unread.take s.payloadRemaining).length ≤ q.length - s.absoluteOffset := by
    rw [List.length_take, h.unread, List.length_drop]
    exact Nat.min_le_right _ _
  obtain ⟨hheader, hpayload⟩ := haccounts.payload header hk
  have hbudget := haccounts.budget header hk
  have hremaining := hf.payloadRemaining
  refine ⟨hf.offset_le, by omega, ?_, rawCalls ++ [.feed (s.unread.take s.payloadRemaining)], ?_, fun hk' => ?_,
    fun header' hk' => ?_, fun header' hk' => ⟨by omega, ?_⟩, fun header' hk' => ?_⟩
  · rw [hf.unread, habsolute, ← List.drop_drop, ← h.unread, List.length_take]
    rcases le_total s.payloadRemaining s.unread.length with hle | hle
    · rw [Nat.min_eq_left hle]
    · rw [Nat.min_eq_right hle, List.drop_of_length_le hle, List.drop_length]
  · rw [hf.raw, haccounts.raw, Machine.run_snoc]
    rfl
  · rw [hf.header, hk] at hk'
    cases hk'
  · exact haccounts.parsed header' (hf.header ▸ hk')
  · have hfront : headerLen ≤ (q.take s.absoluteOffset).length := by
      rw [List.length_take]
      omega
    rw [hfed, hpayload, habsolute, List.take_add, ← htaken, List.drop_append_of_le_length hfront]
  · rw [hf.header, hk] at hk'
    cases hk'
    rw [hfed, List.length_append]
    omega

/-- calls of the raw decoder that feed nothing -/
theorem Safe.raw_call {s : BvxnDecoder} {q : List UInt8} (h : Safe s q) (hk : s.header.isSome) {c : Call} {r : RawDecoder}
    (hr : r = (RawDecoder.machine.step s.raw c).1) (hc : c.fed = []) : Safe { s with raw := r } q := by
  obtain ⟨rawCalls, haccounts⟩ := h.inner
  have hfed : fed (rawCalls ++ [c]) = fed rawCalls := by
    rw [fed_append, show fed [c] = c.fed ++ [] from rfl, hc, List.append_nil, List.append_nil]
  refine ⟨h.offset_le, h.position_le, h.unread, rawCalls ++ [c], ?_, fun hn => ?_, haccounts.parsed, ?_, ?_⟩
  · rw [hr, Machine.run_snoc, ← haccounts.raw]
  · rw [Option.isSome_iff_ne_none] at hk
    exact absurd hn hk
  · rw [hfed]
    exact haccounts.payload
  · rw [hfed]
    exact haccounts.budget

theorem close_safe {s : BvxnDecoder} {q : List UInt8} (h : Safe s q) (hk : s.header.isSome) : Safe s.close q :=
  s.close_cases (fun r => Safe { s with raw := r } q) h fun _ => h.raw_call hk (c := .finishInput) rfl rfl

/-- `settle` does not panic once the header was read, and changes the phase only -/
theorem settle_safe {s : BvxnDecoder} {q : List UInt8} {header : BvxnHeader} (h : Safe s q) (hk : s.header = some header)
    (hread : s.availableInput = 0) (progress : StreamProgress) :
    match (settle progress).run s with
    | .ok _ s' => Safe s' q
    | .error e s' => Safe s' q ∧ e ≠ .panic := by
  obtain ⟨rawCalls, haccounts⟩ := h.inner
  have hfinished : Safe { s with finished := true } q := { h with inner := ⟨rawCalls, { haccounts with }⟩ }
  rw [run_settle hk hread]
  by_cases hlong : header.rawBytes < s.raw.totalOutput
  · rw [if_pos hlong]
    exact ⟨h, by simp⟩
  · rw [if_neg hlong]
    cases progress.status with
    | needInput =>
      dsimp only
      by_cases hlast : s.payloadRemaining ≠ 0 ∧ s.finishedInput = true
      · rw [if_pos hlast]
        exact ⟨h, by simp⟩
      · rw [if_neg hlast]
        exact h
    | needOutput => exact h
    | finished =>
      dsimp only
      by_cases hne : s.raw.totalOutput ≠ header.rawBytes
      · rw [if_pos hne]
        exact ⟨h, by simp⟩
      · rw [if_neg hne]
        exact hfinished

/-- a call behind the header -/
theorem decodePayload_safe {s : BvxnDecoder} {q : List UInt8} {header : BvxnHeader} (h : Safe s q)
    (hk : s.header = some header) (dst : List UInt8) :
    Safe (answer decodePayload s dst).1 q ∧ (answer decodePayload s dst).2 ≠ .failed .panic := by
  obtain ⟨s1, hfeeds, hpump⟩ := run_pumpPayload h.offset_le
  have hk1 : s1.header = some header := hfeeds.header.trans hk
  have hclosed : Safe s1.close q := close_safe (hfeeds.safe h hk) (Option.isSome_iff_exists.2 ⟨header, hk1⟩)
  by_cases hextra : s1.payloadRemaining = 0 ∧ s1.availableInput ≠ 0
  · rw [if_pos hextra] at hpump
    rw [answer_pumpPayload_error hpump]
    exact ⟨hclosed, by simp⟩
  · rw [if_neg hextra] at hpump
    obtain ⟨rawCalls, haccounts⟩ := hclosed.inner
    have hok : s1.close.raw.Ok := by
      rw [haccounts.raw]
      exact RawDecoder.run_ok rawCalls
    have hnever := (RawDecoder.step_ok hok (.produce dst)).2
    change (replied (RawDecoder.decodeInto.run (s1.close.raw, dst))).2 ≠ _ at hnever
    have hproduced : ∀ r, r = (answer RawDecoder.decodeInto s1.close.raw dst).1 → Safe { s1.close with raw := r } q :=
      fun r hr => hclosed.raw_call (Option.isSome_iff_exists.2 ⟨header, hk1⟩) (c := .produce dst) hr rfl
    rw [answer] at hproduced
    rw [answer_decodePayload hpump]
    cases hrun : RawDecoder.decodeInto.run (s1.close.raw, dst) with
    | error e t =>
      rw [hrun] at hproduced hnever
      exact ⟨hproduced t.1 rfl, hnever⟩
    | ok progress t =>
      rw [hrun] at hproduced
      have hsettle := settle_safe (hproduced t.1 rfl) hk1 (hfeeds.read hextra) progress
      dsimp only
      cases hs : (settle progress).run { s1.close with raw := t.1 } with
      | ok p s2 =>
        rw [hs] at hsettle
        exact ⟨hsettle, by simp⟩
      | error e s2 =>
        rw [hs] at hsettle
        refine ⟨hsettle.1, ?_⟩
        rw [ne_eq, Reply.failed.injEq]
        exact hsettle.2

/-! ## Runs -/

theorem feed_safe {s : BvxnDecoder} {q : List UInt8} (h : Safe s q) (input : List UInt8) :
    Safe (feed input s) (q ++ if s.finished then [] else input) := by
  obtain ⟨rawCalls, haccounts⟩ := h.inner
  unfold feed feedWith
  by_cases hnil : input = []
  · rw [if_pos hnil, hnil, ite_self, List.append_nil]
    exact h
  rw [if_neg hnil]
  cases hfin : s.finished with
  | true =>
    rw [if_pos rfl, if_pos rfl, List.append_nil]
    exact { h with inner := ⟨rawCalls, { haccounts with }⟩ }
  | false =>
    rw [if_neg (by simp), if_neg (by simp)]
    have hoff := h.offset_le
    have hposition := h.position_le
    refine ⟨?_, ?_, ?_, rawCalls, haccounts.raw, haccounts.waiting, fun header hk => ?_, fun header hk => ?_,
      haccounts.budget⟩
    · show s.inputOffset ≤ (s.input ++ input).length
      rw [List.length_append]
      omega
    · rw [List.length_append]
      exact hposition.trans (Nat.le_add_right _ _)
    · show (s.input ++ input).drop s.inputOffset = (q ++ input).drop s.absoluteOffset
      rw [List.drop_append_of_le_length hoff, List.drop_append_of_le_length hposition, ← h.unread]
      rfl
    · have hparsed := haccounts.parsed header hk
      rw [parseHeader_append (parseHeader_length hparsed), hparsed]
    · obtain ⟨hheader, hpayload⟩ := haccounts.payload header hk
      refine ⟨hheader, ?_⟩
      show fed rawCalls = ((q ++ input).take s.absoluteOffset).drop headerLen
      rw [List.take_append_of_le_length hposition, hpayload]

/-- before the header was read the raw decoder is new, and all that was fed is buffered -/
theorem Safe.takeHeader {s : BvxnDecoder} {q : List UInt8} (h : Safe s q) (hk : s.header = none)
    (hfin : s.finished = false) (htrail : s.trailingAfterFinish = 0) : s.raw = .new ∧
    if q.length < headerLen then BvxnDecoder.takeHeader.run s =
      if s.finishedInput then .error (.err (.truncatedInput 0)) s else .ok false s
    else match parseHeader q with
      | .error e => BvxnDecoder.takeHeader.run s = .error e s
      | .ok header => ∃ s', BvxnDecoder.takeHeader.run s = .ok true s' ∧ Reading s' q header [] ∧ s'.raw = s.raw ∧
          s'.finishedInput = s.finishedInput := by
  obtain ⟨rawCalls, haccounts⟩ := h.inner
  obtain ⟨hcalls, hzero⟩ := haccounts.waiting hk
  have hraw : s.raw = .new := by rw [haccounts.raw, hcalls]; rfl
  unfold absoluteOffset at hzero
  have hoffset : s.inputOffset = 0 := by omega
  have hbase : s.inputBase = 0 := by omega
  have hinput : s.input = q := by
    have := h.unread
    rwa [BvxnDecoder.unread, absoluteOffset, hoffset, hbase] at this
  exact ⟨hraw, takeHeader_waiting hoffset hbase hinput hk hraw hfin htrail⟩

theorem decodeInto_safe {s : BvxnDecoder} {q : List UInt8} (h : Safe s q) (dst : List UInt8) :
    Safe (answer decodeInto s dst).1 q ∧ (answer decodeInto s dst).2 ≠ .failed .panic := by
  by_cases htrail : s.trailingAfterFinish = 0
  · cases hfin : s.finished with
    | true =>
      rw [answer_finished htrail hfin]
      exact ⟨h, by simp⟩
    | false =>
      cases hk : s.header with
      | some header =>
        rw [answer_known htrail hfin hk]
        exact decodePayload_safe h hk dst
      | none =>
        obtain ⟨hraw, htake⟩ := h.takeHeader hk hfin htrail
        rw [answer_waiting htrail hfin]
        by_cases hshort : q.length < headerLen
        · rw [if_pos hshort] at htake
          by_cases hlast : s.finishedInput = true
          · rw [htake, if_pos hlast]
            exact ⟨h, by simp⟩
          · rw [htake, if_neg hlast]
            exact ⟨h, by simp⟩
        · rw [if_neg hshort] at htake
          cases hp : parseHeader q with
          | error e =>
            rw [hp] at htake
            dsimp only at htake
            rw [htake]
            refine ⟨h, ?_⟩
            rw [ne_eq, Reply.failed.injEq]
            rintro rfl
            exact parseHeader_ne_panic q hp
          | ok header =>
            rw [hp] at htake
            obtain ⟨s', htake, hread, hraw', -⟩ := htake
            rw [htake]
            exact decodePayload_safe (hread.safe (hraw'.trans hraw)) hread.known dst
  · rw [answer_trailing htrail]
    exact ⟨h, by simp⟩

/-- **Every call** keeps `Safe`, and does not panic. -/
theorem step_safe {s : BvxnDecoder} {q : List UInt8} (h : Safe s q) (c : Call) :
    Safe (machine.step s c).1 (q ++ c.accepted s.finished) ∧ (machine.step s c).2 ≠ .failed .panic := by
  cases c with
  | feed input => exact ⟨feed_safe h input, by simp [machine, coder]⟩
  | finishInput =>
    have hnone : Call.finishInput.accepted s.finished = [] := by cases s.finished <;> rfl
    obtain ⟨rawCalls, haccounts⟩ := h.inner
    rw [hnone, List.append_nil]
    exact ⟨{ h with inner := ⟨rawCalls, { haccounts with }⟩ }, by simp [machine, coder]⟩
  | produce dst =>
    have hnone : (Call.produce dst).accepted s.finished = [] := by cases s.finished <;> rfl
    rw [hnone, List.append_nil]
    exact decodeInto_safe h dst

theorem run_safe (calls : List Call) : Safe (machine.run new calls) (accepted calls) :=
  machine.run_gather_inv Safe (fun _ _ c hs => (step_safe hs c).1) new [] safe_new calls

end BvxnDecoder

/-- **The incremental decoders are safe in every order of calls.** After any calls the raw decoder has its offsets and its
pending work in range and holds the end of the bytes it has accepted, and no call panics. The same is true of the `bvxn`
decoder and of the raw decoder inside it, which was fed the payload bytes that were read: with `payload_remaining` they are
the declared ones. -/
theorem decoders_safe (calls : List Call) (c : Call) :
    RawDecoder.Safe (RawDecoder.machine.run .new calls) (RawDecoder.accepted calls) ∧
    (RawDecoder.machine.step (RawDecoder.machine.run .new calls) c).2 ≠ .failed .panic ∧
    BvxnDecoder.Safe (BvxnDecoder.machine.run .new calls) (BvxnDecoder.accepted calls) ∧
    (∃ rawCalls, BvxnDecoder.Accounts (BvxnDecoder.machine.run .new calls) (BvxnDecoder.accepted calls) rawCalls ∧
      RawDecoder.Safe (BvxnDecoder.machine.run .new calls).raw (RawDecoder.accepted rawCalls)) ∧
    (BvxnDecoder.machine.step (BvxnDecoder.machine.run .new calls) c).2 ≠ .failed .panic := by
  have hbvxn := BvxnDecoder.run_safe calls
  refine ⟨RawDecoder.run_safe calls, (RawDecoder.step_ok (RawDecoder.run_ok calls) c).2, hbvxn, ?_,
    (BvxnDecoder.step_safe hbvxn c).2⟩
  obtain ⟨rawCalls, haccounts⟩ := hbvxn.inner
  refine ⟨rawCalls, haccounts, ?_⟩
  rw [haccounts.raw]
  exact RawDecoder.run_safe rawCalls

end Lzvn.Apple
