/-
The sums that the incremental `bvxn` decoder takes over all calls, on a machine of width `u`, as in `Raw.StreamCounter`.

- `along_counters`: the counter of what came behind the block, and the positions, are at most what was fed.
- `run_on_eq`: so the width makes no difference to a run that feeds no more than `usize::MAX` bytes.
- `inner_counters_le`: the raw decoder inside is fed a payload whose length is a `u32`, so its sums are exact in every run.
-/
import Lzvn.Apple.BvxnErrors

namespace Lzvn.Apple

open Lzvn.Core Lzvn.Apple.Bvxn
open Lzvn.Raw (RawDecoder)

namespace BvxnDecoder

variable {u : Usize} {s : BvxnDecoder} {q : List UInt8}

/-- the counter, and the position behind everything in the buffer -/
def counters (s : BvxnDecoder) : ℕ := s.inputBase + s.input.length + s.trailingAfterFinish

/-- the buffer ends where everything that was fed ends -/
theorem Safe.counters_eq (h : Safe s q) : s.counters = q.length + s.trailingAfterFinish := by
  have hoffset := h.offset_le
  have hposition := h.position_le
  have hunread := congrArg List.length h.unread
  rw [length_unread, List.length_drop, availableInput] at hunread
  unfold absoluteOffset at hposition hunread
  unfold counters
  omega

theorem Settles.trailing_eq {header : BvxnHeader} {s1 : BvxnDecoder} {dst : List UInt8} {x : BvxnDecoder × Reply}
    (h : Settles header s1 dst x) : x.1.trailingAfterFinish = s1.trailingAfterFinish := by
  cases h <;> rfl

/-- a call with a buffer keeps the counter -/
theorem produce_trailing (h : Safe s q) (dst : List UInt8) :
    (machine.step s (.produce dst)).1.trailingAfterFinish = s.trailingAfterFinish := by
  have hcalls := step_calls h dst
  generalize machine.step s (.produce dst) = x at hcalls ⊢
  cases hcalls with
  | trailing => rfl
  | finished => rfl
  | needHeader => rfl
  | noHeader => rfl
  | badHeader => rfl
  | settles reads _ feeds _ hsettles =>
    have hclose := hsettles.trailing_eq.trans feeds.trailingAfterFinish
    exact hclose.trans (reads.clean0.trans reads.clean.symm)

theorem step_counters (h : Safe s q) (c : Call) : (machine.step s c).1.counters ≤ s.counters + c.fed.length := by
  cases c with
  | feed input =>
    show (feed input s).counters ≤ s.counters + input.length
    unfold feed feedWith counters
    split_ifs
    · omega
    · dsimp only; omega
    · rw [List.length_append]; dsimp only; omega
  | finishInput => exact Nat.le_add_right _ _
  | produce dst =>
    have hsafe : Safe (machine.step s (.produce dst)).1 q := (decodeInto_safe h dst).1
    rw [hsafe.counters_eq, h.counters_eq, produce_trailing h dst]
    exact Nat.le_add_right _ _

/-- every call of a run that feeds `n` bytes is made in a state whose sums, with what it feeds, are at most `n` -/
theorem along_counters (calls : List Call) {n : ℕ} (h : (fed calls).length ≤ n) :
    machine.Along (fun s c => (∃ q, Safe s q) ∧ s.counters + c.fed.length ≤ n) new calls := by
  refine machine.along_bounded (fun s c ⟨q, hs⟩ => ⟨⟨_, (step_safe hs c).1⟩, step_counters hs c⟩) ⟨[], safe_new⟩ calls ?_
  rw [RawDecoder.sum_fed]
  exact (Nat.zero_add _).trans_le h

theorem step_on_eq {c : Call} (h : s.counters + c.fed.length ≤ u.max) : (machineOn u).step s c = machine.step s c := by
  cases c with
  | feed input =>
    have hsum : u.wrappingAdd s.trailingAfterFinish input.length = s.trailingAfterFinish + input.length := by
      refine Usize.wrappingAdd_eq (le_trans ?_ h)
      unfold counters
      exact Nat.add_le_add_right (Nat.le_add_left _ _) _
    show (feedOn u input s, Reply.done) = (feed input s, Reply.done)
    unfold feedOn feed feedWith
    rw [hsum]
  | finishInput => rfl
  | produce dst => rfl

/-- **The width makes no difference** to a run that feeds no more than `usize::MAX` bytes. -/
theorem run_on_eq (calls : List Call) (h : (fed calls).length ≤ u.max) :
    (machineOn u).run new calls = machine.run new calls ∧ (machineOn u).replies new calls = machine.replies new calls :=
  machine.coincide (machineOn u) (fun _ _ hc => step_on_eq hc.2) (along_counters calls h)

/-- **The raw decoder inside** counts no more than a `u32`, in every run. -/
theorem inner_counters_le (calls : List Call) : (machine.run new calls).raw.counters < 2 ^ 32 := by
  obtain ⟨rawCalls, haccounts⟩ := (run_safe calls).inner
  have hle := RawDecoder.run_counters_le rawCalls
  rw [haccounts.raw]
  cases hk : (machine.run new calls).header with
  | none =>
    rw [(haccounts.waiting hk).1] at hle ⊢
    exact lt_of_le_of_lt hle (Nat.two_pow_pos 32)
  | some header =>
    have hbudget := haccounts.budget header hk
    obtain ⟨-, -, -, hpayload⟩ := parseHeader_ok_iff.1 (haccounts.parsed header hk)
    omega

end BvxnDecoder

end Lzvn.Apple
