/-
What the parts of `BvxnDecoder::decode_into` do, from any state whose offset is inside its buffer.

- `run_compactInputIfNecessary`: `Compacts`, less of what was read is still buffered.
- `run_pumpPayload`: `Feeds`, the payload bytes that are there go to the raw decoder; bytes behind them are an error.
- `run_settle`: what the progress of the raw decoder becomes.
- `answer_trailing`, `answer_finished`, `answer_waiting`, `answer_known`, `answer_decodePayload`: the whole call from these.
-/
import Lzvn.Apple.BvxnGrammar
import Lzvn.Raw.StreamRuns

namespace Lzvn.Apple

open Lzvn.Core Lzvn.Apple.Bvxn
open Lzvn.Raw (RawDecoder)

namespace BvxnDecoder

/-- buffered input that is not read yet -/
def unread (s : BvxnDecoder) : List UInt8 := s.input.drop s.inputOffset

theorem length_unread (s : BvxnDecoder) : s.unread.length = s.availableInput := List.length_drop

/-! ## Compaction -/

/-- `s'` is `s` with less of what it has read still buffered -/
structure Compacts (s s' : BvxnDecoder) : Prop where
  offset_le : s'.inputOffset ≤ s'.input.length
  unread : s'.unread = s.unread
  absoluteOffset : s'.absoluteOffset = s.absoluteOffset
  header : s'.header = s.header
  payloadRemaining : s'.payloadRemaining = s.payloadRemaining
  raw : s'.raw = s.raw
  finishedInput : s'.finishedInput = s.finishedInput
  finished : s'.finished = s.finished
  trailingAfterFinish : s'.trailingAfterFinish = s.trailingAfterFinish

theorem run_compactInputIfNecessary {s : BvxnDecoder} (h : s.inputOffset ≤ s.input.length) :
    ∃ s', compactInputIfNecessary.run s = .ok () s' ∧ Compacts s s' := by
  have hslice : slice s.input s.inputOffset s.input.length = .ok s.unread := by
    rw [slice_eq h le_rfl, List.take_of_length_le (by rw [List.length_drop])]
    rfl
  simp only [compactInputIfNecessary, EStateM.run_bind, EStateM.run_get]
  split_ifs
  · simp only [EStateM.run_bind, hslice, run_lift_ok, EStateM.run_set]
    exact ⟨_, rfl, by simp, by simp [unread], by simp [absoluteOffset], rfl, rfl, rfl, rfl, rfl, rfl⟩
  · exact ⟨s, rfl, h, rfl, rfl, rfl, rfl, rfl, rfl, rfl, rfl⟩

/-! ## Feeding the raw decoder -/

/-- `s'` is `s` with the payload bytes that are there fed to the raw decoder -/
structure Feeds (s s' : BvxnDecoder) : Prop where
  offset_le : s'.inputOffset ≤ s'.input.length
  unread : s'.unread = s.unread.drop s.payloadRemaining
  absoluteOffset : s'.absoluteOffset = s.absoluteOffset + (s.unread.take s.payloadRemaining).length
  header : s'.header = s.header
  payloadRemaining : s'.payloadRemaining + (s.unread.take s.payloadRemaining).length = s.payloadRemaining
  raw : s'.raw = s.raw.feed (s.unread.take s.payloadRemaining)
  finishedInput : s'.finishedInput = s.finishedInput
  finished : s'.finished = s.finished
  trailingAfterFinish : s'.trailingAfterFinish = s.trailingAfterFinish

theorem run_feedPayload {s : BvxnDecoder} (h : s.inputOffset ≤ s.input.length) :
    ∃ s', feedPayload.run s = .ok () s' ∧ Feeds s s' := by
  have hlen := length_unread s
  simp only [feedPayload, EStateM.run_bind, EStateM.run_get]
  rw [← hlen]
  unfold availableInput at hlen
  by_cases hzero : min s.unread.length s.payloadRemaining = 0
  · have htake : s.unread.take s.payloadRemaining = [] := by
      rw [List.eq_nil_iff_length_eq_zero, List.length_take]
      omega
    have hdrop : s.unread.drop s.payloadRemaining = s.unread := by
      have := List.take_append_drop s.payloadRemaining s.unread
      rwa [htake, List.nil_append] at this
    rw [if_neg (not_not.2 hzero)]
    refine ⟨s, rfl, h, hdrop.symm, ?_, rfl, ?_, ?_, rfl, rfl, rfl⟩
    · rw [htake, List.length_nil, Nat.add_zero]
    · rw [htake, List.length_nil, Nat.add_zero]
    · rw [htake]
      rfl
  · set k := min s.unread.length s.payloadRemaining with hk
    have htake : s.unread.take k = s.unread.take s.payloadRemaining := List.take_eq_take_iff.2 (by omega)
    have hdrop : s.unread.drop k = s.unread.drop s.payloadRemaining := by
      rcases le_total s.unread.length s.payloadRemaining with hle | hle
      · rw [List.drop_of_length_le (by omega), List.drop_of_length_le hle]
      · rw [hk, min_eq_right hle]
    have hcount : (s.unread.take s.payloadRemaining).length = k := by rw [List.length_take]; omega
    have hslice : slice s.input s.inputOffset (s.inputOffset + k) = .ok (s.unread.take s.payloadRemaining) := by
      rw [slice_eq (by omega) (by omega), Nat.add_sub_cancel_left]
      exact congrArg Except.ok htake
    have hsub : sub s.payloadRemaining k = .ok (s.payloadRemaining - k) := sub_eq (by omega)
    obtain ⟨s', hcompact, hc⟩ := run_compactInputIfNecessary (s := { s with
      raw := s.raw.feed (s.unread.take s.payloadRemaining)
      inputOffset := s.inputOffset + k
      payloadRemaining := s.payloadRemaining - k }) (by dsimp only; omega)
    rw [if_pos hzero]
    simp only [EStateM.run_bind, hslice, hsub, run_lift_ok, EStateM.run_set]
    refine ⟨s', hcompact, hc.offset_le, ?_, ?_, hc.header, ?_, hc.raw, hc.finishedInput, hc.finished,
      hc.trailingAfterFinish⟩
    · rw [hc.unread, ← hdrop, unread, unread, List.drop_drop]
    · rw [hc.absoluteOffset, hcount]
      simp only [absoluteOffset]
      omega
    · rw [hc.payloadRemaining, hcount]
      dsimp only
      omega

/-- the end of `pump_payload`: the raw decoder is told when its payload has ended -/
def close (s : BvxnDecoder) : BvxnDecoder :=
  { s with raw := if s.payloadRemaining = 0 then s.raw.finishInput else s.raw }

theorem close_cases (s : BvxnDecoder) (P : RawDecoder → Prop) (h : P s.raw)
    (hclosed : s.payloadRemaining = 0 → P s.raw.finishInput) : P s.close.raw := by
  simp only [close]
  split_ifs with hzero
  · exact hclosed hzero
  · exact h

theorem close_finishedInput (s : BvxnDecoder) (h : s.payloadRemaining = 0) : s.close.raw.finishedInput = true := by
  simp only [close, if_pos h]
  rfl

/-- `pump_payload` feeds the raw decoder, and fails when bytes are left behind the payload -/
theorem run_pumpPayload {s : BvxnDecoder} (h : s.inputOffset ≤ s.input.length) : ∃ s', Feeds s s' ∧ pumpPayload.run s =
    if s'.payloadRemaining = 0 ∧ s'.availableInput ≠ 0 then .error (.err (.trailingData s'.availableInput)) s'.close
    else .ok () s'.close := by
  obtain ⟨s', hfeed, hfeeds⟩ := run_feedPayload h
  refine ⟨s', hfeeds, ?_⟩
  simp only [pumpPayload, EStateM.run_bind, hfeed, EStateM.run_get, close]
  by_cases hzero : s'.payloadRemaining = 0
  · simp only [hzero, true_and]
    split_ifs <;> rfl
  · simp only [hzero, false_and, if_false]
    rfl

/-- once the payload is fed, all buffered input is read or bytes are left behind the payload -/
theorem Feeds.read {s s' : BvxnDecoder} (h : Feeds s s') (hok : ¬ (s'.payloadRemaining = 0 ∧ s'.availableInput ≠ 0)) :
    s'.availableInput = 0 := by
  have hremaining := h.payloadRemaining
  have havail := length_unread s'
  rw [h.unread, List.length_drop] at havail
  rw [List.length_take] at hremaining
  omega

/-! ## The end of a call -/

/-- `settle`, once all buffered input is read -/
theorem run_settle {s : BvxnDecoder} {header : BvxnHeader} (hk : s.header = some header) (hav : s.availableInput = 0)
    (progress : StreamProgress) : (settle progress).run s =
      if header.rawBytes < s.raw.totalOutput then .error (.err (.sizeMismatch header.rawBytes s.raw.totalOutput)) s
      else match progress.status with
        | .needInput =>
          if s.payloadRemaining ≠ 0 ∧ s.finishedInput then .error (.err (.truncatedInput s.absoluteOffset)) s
          else .ok progress s
        | .needOutput => .ok progress s
        | .finished =>
          if s.raw.totalOutput ≠ header.rawBytes then
            .error (.err (.sizeMismatch header.rawBytes s.raw.totalOutput)) s
          else .ok progress { s with finished := true } := by
  simp only [settle, EStateM.run_bind, EStateM.run_get, hk, gt_iff_lt]
  by_cases hgt : header.rawBytes < s.raw.totalOutput
  · rw [if_pos hgt, if_pos hgt]
    rfl
  · rw [if_neg hgt, if_neg hgt]
    cases progress.status with
    | needInput =>
      simp only [hav, and_true]
      split_ifs <;> rfl
    | needOutput => rfl
    | finished =>
      by_cases hne : s.raw.totalOutput ≠ header.rawBytes
      · rw [if_pos hne]
        simp only [if_pos hne]
        rfl
      · rw [if_neg hne]
        simp only [if_neg hne, EStateM.run_bind, EStateM.run_set]
        simp [hav]

/-! ## The whole call -/

theorem answer_trailing {s : BvxnDecoder} (h : s.trailingAfterFinish ≠ 0) (dst : List UInt8) :
    answer decodeInto s dst = (s, .failed (.err (.trailingData s.trailingAfterFinish))) := by
  simp [answer, decodeInto, EStateM.run_bind, EStateM.run_get, h, replied]

theorem answer_finished {s : BvxnDecoder} (h : s.trailingAfterFinish = 0) (hf : s.finished = true) (dst : List UInt8) :
    answer decodeInto s dst = (s, .progress ⟨0, .finished⟩ dst) := by
  simp [answer, decodeInto, EStateM.run_bind, EStateM.run_get, h, hf, replied]

/-- while the header was not read -/
theorem answer_waiting {s : BvxnDecoder} (h : s.trailingAfterFinish = 0) (hf : s.finished = false) (dst : List UInt8) :
    answer decodeInto s dst = match takeHeader.run s with
      | .ok true s' => answer decodePayload s' dst
      | .ok false s' => (s', .progress ⟨0, .needInput⟩ dst)
      | .error e s' => (s', .failed e) := by
  simp only [answer, decodeInto, EStateM.run_bind, EStateM.run_get, h, hf, ne_eq, not_true_eq_false, if_false,
    Bool.false_eq_true, onDecoder, run_zoom]
  rcases takeHeader.run s with ⟨_ | _, s'⟩ | ⟨e, s'⟩ <;> rfl

/-- once the header was read -/
theorem answer_known {s : BvxnDecoder} {header : BvxnHeader} (h : s.trailingAfterFinish = 0) (hf : s.finished = false)
    (hk : s.header = some header) (dst : List UInt8) : answer decodeInto s dst = answer decodePayload s dst := by
  have htake : takeHeader.run s = .ok true s := by
    simp only [takeHeader, EStateM.run_bind, EStateM.run_get, hk, Option.isSome_some, if_true]
    rfl
  rw [answer_waiting h hf, htake]

theorem answer_pumpPayload_error {s s' : BvxnDecoder} {e : Stop} (hpump : pumpPayload.run s = .error e s')
    (dst : List UInt8) : answer decodePayload s dst = (s', .failed e) := by
  simp only [answer, decodePayload, EStateM.run_bind, onDecoder, run_zoom, hpump]
  rfl

/-- `decode_into` behind the header, once `pump_payload` has succeeded -/
theorem answer_decodePayload {s s1 : BvxnDecoder} (hpump : pumpPayload.run s = .ok () s1) (dst : List UInt8) :
    answer decodePayload s dst = match RawDecoder.decodeInto.run (s1.raw, dst) with
      | .ok p (r, dst') =>
        match (settle p).run { s1 with raw := r } with
        | .ok p' s2 => (s2, .progress p' dst')
        | .error e s2 => (s2, .failed e)
      | .error e (r, _) => ({ s1 with raw := r }, .failed e) := by
  simp only [answer, decodePayload, EStateM.run_bind, onDecoder, onRaw, run_zoom, hpump]
  cases RawDecoder.decodeInto.run (s1.raw, dst) with
  | ok p t =>
    dsimp only
    cases (settle p).run { s1 with raw := t.1 } <;> rfl
  | error e t => rfl

end BvxnDecoder

end Lzvn.Apple
