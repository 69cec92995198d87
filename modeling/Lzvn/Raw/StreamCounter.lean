/-
The counter of what is fed behind the end. `trailing_after_finish` is a `usize`, and without overflow checks its sum wraps: once
it has come back to 0, a decoder that has rejected trailing data reports `Finished` again (`wraps_finishes`).

- `Residue`: the decoder of width `u` stands for one whose counter is exact. `step_residue`: every call that does not bring the
  counter to 0 (`Wraps`) keeps that, and the two give the same reply, up to the count of trailing bytes.
- `run_residue`: the same over runs.
- `along_counters`: the counter and the positions are at most what was fed. So in a run that feeds no more than `usize::MAX`
  bytes no call wraps (`never_wraps`), all sums over its calls are exact, and the width makes no difference (`run_on_eq`).
-/
import Lzvn.Raw.StreamSafety

namespace Lzvn.Raw

open Lzvn.Core

namespace RawDecoder

/-! ## Replies but for a count -/

/-- equal replies, up to the number of trailing bytes in an error -/
def Agree : Reply → Reply → Prop
  | .failed (.err e), .failed (.err e') => e.same e'
  | r, r' => r = r'

theorem Agree.of_eq {r r' : Reply} (h : r = r') : Agree r r' := by
  subst h
  unfold Agree
  split
  · exact Error.same_refl _
  · rfl

theorem Agree.progress {p : StreamProgress} {dst : List UInt8} {r : Reply} (h : Agree (.progress p dst) r) :
    r = .progress p dst := by
  cases r <;> exact h.symm

theorem Agree.failed {e : Error} {r : Reply} (h : Agree (.failed (.err e)) r) : ∃ e', r = .failed (.err e') ∧ e.same e' := by
  cases r with
  | failed stop =>
    cases stop with
    | err e' => exact ⟨e', rfl, h⟩
    | panic => cases h
  | done => cases h
  | progress => cases h

theorem Agree.symm {a b : Reply} (h : Agree a b) : Agree b a := by
  cases a with
  | done => exact .of_eq (show Reply.done = b from h).symm
  | progress p dst => exact .of_eq h.progress
  | failed stop =>
    cases stop with
    | panic => exact .of_eq (show Reply.failed .panic = b from h).symm
    | err e =>
      obtain ⟨e', rfl, hsame⟩ := h.failed
      exact Error.same_symm hsame

theorem Agree.trans {a b c : Reply} (h1 : Agree a b) (h2 : Agree b c) : Agree a c := by
  cases a with
  | done =>
    obtain rfl : Reply.done = b := h1
    exact h2
  | progress p dst =>
    obtain rfl := h1.progress
    exact h2
  | failed stop =>
    cases stop with
    | panic =>
      obtain rfl : Reply.failed .panic = b := h1
      exact h2
    | err e =>
      obtain ⟨e', rfl, hsame⟩ := h1.failed
      obtain ⟨e'', rfl, hsame'⟩ := h2.failed
      exact Error.same_trans hsame hsame'

/-! ## The counter of width `u` -/

/-- the call brings the counter of what was fed behind the end to 0 -/
def Wraps (u : Usize) (s : RawDecoder) : Call → Prop
  | .feed input =>
    input ≠ [] ∧ s.finished = true ∧ ¬ (input.all (· = 0) ∧ s.eosPadding + input.length ≤ maxEosPadding) ∧
      u.wrappingAdd s.trailingAfterFinish input.length = 0
  | _ => False

instance (u : Usize) (s : RawDecoder) : ∀ c, Decidable (Wraps u s c)
  | .feed _ => show Decidable (_ ∧ _ ∧ _ ∧ _) from inferInstance
  | .finishInput => show Decidable False from inferInstance
  | .produce _ => show Decidable False from inferInstance

/-- **Wrapping loses a rejection**: behind such a call the decoder reports `Finished`, whatever it reported before. -/
theorem wraps_finishes {u : Usize} {s : RawDecoder} {input : List UInt8} (h : Wraps u s (.feed input)) (dst : List UInt8) :
    (machineOn u).step (feedOn u input s) (.produce dst) = (feedOn u input s, .progress ⟨0, .finished⟩ dst) := by
  obtain ⟨hne, hfin, hpad, hzero⟩ := h
  have hfeed : feedOn u input s = { s with trailingAfterFinish := 0 } := by
    rw [feedOn, feedWith, if_neg hne, if_pos hfin, if_neg hpad, hzero]
  rw [hfeed]
  exact answer_finished (s := { s with trailingAfterFinish := 0 }) rfl hfin dst

/-- the decoder of width `u` that stands for `t`: its counter is what is left of the exact one -/
structure Residue (u : Usize) (s t : RawDecoder) : Prop where
  eq : s = { t with trailingAfterFinish := t.trailingAfterFinish % 2 ^ u.bits }
  zero : s.trailingAfterFinish = 0 → t.trailingAfterFinish = 0
  ok : t.Ok

theorem residue_new (u : Usize) : Residue u new new := ⟨by rw [new, Nat.zero_mod], fun h => h, ok_new⟩

variable {u : Usize} {s t : RawDecoder}

/-- where nothing came behind the end, the two decoders are the same -/
theorem Residue.same (h : Residue u s t) (ht : t.trailingAfterFinish = 0) : s = t := by
  rw [h.eq, ht, Nat.zero_mod, ← ht]

theorem Residue.feed (h : Residue u s t) (input : List UInt8) (hw : ¬ Wraps u s (.feed input)) :
    Residue u (feedOn u input s) (RawDecoder.feed input t) := by
  have hok := ok_feed h.ok input
  have hzero := h.zero
  obtain rfl := h.eq
  refine ⟨?_, ?_, hok⟩
  · unfold feedOn RawDecoder.feed feedWith
    dsimp only
    split_ifs
    · rfl
    · rfl
    · rw [Usize.wrappingAdd_mod]
    · rfl
  · unfold feedOn RawDecoder.feed feedWith
    dsimp only
    split_ifs with hnil hfin hpad
    · exact hzero
    · exact hzero
    · intro hc
      exact absurd ⟨hnil, hfin, hpad, hc⟩ hw
    · exact hzero

/-- a call with a buffer keeps the counter -/
theorem produce_trailing (hs : s.Ok) (dst : List UInt8) :
    (machine.step s (.produce dst)).1.trailingAfterFinish = s.trailingAfterFinish := by
  have hp := step_produces hs dst
  generalize machine.step s (.produce dst) = x at hp ⊢
  cases hp with
  | trailing => rfl
  | finished => rfl
  | progress _ _ _ ha =>
    cases ha with
    | needOutput _ _ after => exact after.keeps.trailingAfterFinish
    | needInput _ _ after => exact after.keeps.trailingAfterFinish
    | finished _ _ after => exact after.trailingAfterFinish
  | failed _ _ _ ha =>
    cases ha with
    | rejected _ _ after => exact after.keeps.trailingAfterFinish
    | trailing _ _ after => exact after.keeps.trailingAfterFinish

theorem Residue.produce (h : Residue u s t) (dst : List UInt8) :
    Residue u ((machineOn u).step s (.produce dst)).1 (machine.step t (.produce dst)).1 ∧
      Agree ((machineOn u).step s (.produce dst)).2 (machine.step t (.produce dst)).2 := by
  by_cases ht : t.trailingAfterFinish = 0
  · -- nothing came behind the end: the two are one decoder, and stay one
    have hkept := (produce_trailing h.ok dst).trans ht
    obtain rfl := h.same ht
    refine ⟨⟨?_, fun _ => hkept, (step_ok h.ok (.produce dst)).1⟩, .of_eq rfl⟩
    rw [hkept, Nat.zero_mod, ← hkept]
    rfl
  · -- both report trailing data
    have hs : s.trailingAfterFinish ≠ 0 := fun hc => ht (h.zero hc)
    have hstep : machine.step t (.produce dst) = (t, .failed (.err (.trailingData t.trailingAfterFinish))) :=
      answer_trailing ht dst
    have hstep' : (machineOn u).step s (.produce dst) = (s, .failed (.err (.trailingData s.trailingAfterFinish))) :=
      answer_trailing hs dst
    rw [hstep, hstep']
    exact ⟨h, .inr ⟨_, _, rfl, rfl⟩⟩

/-- **Every call** that does not bring the counter to 0 keeps the residue, and is answered the same. -/
theorem step_residue (h : Residue u s t) (c : Call) (hw : ¬ Wraps u s c) :
    Residue u ((machineOn u).step s c).1 (machine.step t c).1 ∧
      Agree ((machineOn u).step s c).2 (machine.step t c).2 := by
  cases c with
  | feed input => exact ⟨h.feed input hw, .of_eq rfl⟩
  | finishInput =>
    refine ⟨⟨?_, h.zero, (step_ok h.ok .finishInput).1⟩, .of_eq rfl⟩
    obtain rfl := h.eq
    rfl
  | produce dst => exact h.produce dst

theorem run_residue (calls : List Call) (h : (machineOn u).Along (fun s c => ¬ Wraps u s c) new calls) :
    Residue u ((machineOn u).run new calls) (machine.run new calls) :=
  ((machineOn u).simulates machine (Residue u) (fun _ _ c hr hw => step_residue hr c hw) calls (residue_new u) h).1

/-! ## Sums over all calls -/

/-- the counter, and the position behind everything in the buffer -/
def counters (s : RawDecoder) : ℕ := s.inputBase + s.input.length + s.trailingAfterFinish

theorem step_counters (hs : s.Ok) (c : Call) : (machine.step s c).1.counters ≤ s.counters + c.fed.length := by
  cases c with
  | feed input =>
    show (feed input s).counters ≤ s.counters + input.length
    unfold feed feedWith counters
    split_ifs
    · omega
    · dsimp only; omega
    · dsimp only; omega
    · rw [List.length_append]; dsimp only; omega
  | finishInput => exact Nat.le_add_right _ _
  | produce dst =>
    have hkept := produce_trailing hs dst
    obtain ⟨k, hk, hinput, hbase⟩ := decodeInto_drops hs dst
    change (answer decodeInto s dst).1.trailingAfterFinish = _ at hkept
    show (answer decodeInto s dst).1.counters ≤ s.counters + 0
    unfold counters
    rw [hkept, hinput, hbase, List.length_drop]
    omega

theorem sum_fed (calls : List Call) : (calls.map fun c => c.fed.length).sum = (fed calls).length :=
  (List.length_flatMap ..).symm

/-- every call of a run that feeds `n` bytes is made in a state whose sums, with what it feeds, are at most `n` -/
theorem along_counters (calls : List Call) {n : ℕ} (h : (fed calls).length ≤ n) :
    machine.Along (fun s c => s.Ok ∧ s.counters + c.fed.length ≤ n) new calls := by
  refine machine.along_bounded (fun s c hs => ⟨(step_ok hs c).1, step_counters hs c⟩) ok_new calls ?_
  rw [sum_fed]
  exact (Nat.zero_add _).trans_le h

theorem run_counters_le (calls : List Call) : (machine.run new calls).counters ≤ (fed calls).length := by
  have hfed : (fed (calls ++ [.finishInput])).length ≤ (fed calls).length := by
    rw [fed_append]
    exact (congrArg _ (List.append_nil _)).le
  exact ((machine.along_iff _ _ _).1 (along_counters _ hfed) calls .finishInput [] rfl).2

theorem step_on_eq {c : Call} (h : s.counters + c.fed.length ≤ u.max) : (machineOn u).step s c = machine.step s c := by
  cases c with
  | feed input =>
    have hsum : u.wrappingAdd s.trailingAfterFinish input.length = s.trailingAfterFinish + input.length := by
      refine Usize.wrappingAdd_eq (le_trans ?_ h)
      unfold counters
      exact Nat.add_le_add_right (Nat.le_add_left _ _) _
    show (feedOn u input s, Reply.done) = (feed input s, Reply.done)
    unfold feedOn feed feedWith
    rw [hsum]
  | finishInput => rfl
  | produce dst => rfl

/-- **The width makes no difference** to a run that feeds no more than `usize::MAX` bytes. -/
theorem run_on_eq (calls : List Call) (h : (fed calls).length ≤ u.max) :
    (machineOn u).run new calls = machine.run new calls ∧ (machineOn u).replies new calls = machine.replies new calls :=
  machine.coincide (machineOn u) (fun _ _ hc => step_on_eq hc.2) (along_counters calls h)

theorem along_on_iff {P : RawDecoder → Call → Prop} (calls : List Call) (h : (fed calls).length ≤ u.max) :
    (machineOn u).Along P new calls ↔ machine.Along P new calls :=
  machine.along_coincide (machineOn u) (fun _ _ hc => step_on_eq hc.2) (along_counters calls h)

/-- **No call wraps** in a run that feeds no more than `usize::MAX` bytes. -/
theorem never_wraps (calls : List Call) (h : (fed calls).length ≤ u.max) :
    (machineOn u).Along (fun s c => ¬ Wraps u s c) new calls := by
  rw [along_on_iff calls h, Machine.along_iff]
  intro a c b hab hw
  obtain ⟨-, hle⟩ := (machine.along_iff _ _ _).1 (along_counters calls h) a c b hab
  cases c with
  | feed input =>
    obtain ⟨hne, -, -, hzero⟩ := hw
    have hpos : 0 < input.length := List.length_pos_iff.2 hne
    change _ + input.length ≤ _ at hle
    unfold counters at hle
    rw [Usize.wrappingAdd_eq (by omega)] at hzero
    omega
  | finishInput => exact hw
  | produce dst => exact hw

end RawDecoder

end Lzvn.Raw
