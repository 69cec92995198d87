/-
What the incremental raw decoder keeps of its input, in every order of calls: before and behind errors, behind `Finished`
and with empty buffers.

`Safe s q` relates a state to the bytes `q` that were fed to it while it had not finished, a ghost that no state holds: the
offsets and the pending work are in range, and the buffer is what is left of `q` from `input_base` on.

- `Drops`: a call on the buffer drops some of its front. `decodeInto_drops`.
- `run_safe`: `Safe` holds in every reachable state.
-/
import Lzvn.Raw.StreamRuns

namespace Lzvn.Raw

open Lzvn.Core

namespace RawDecoder

/-! ## The buffer -/

/-- `s'` is `s` with some of the front of its buffer dropped -/
def Drops (s s' : RawDecoder) : Prop :=
  ∃ k ≤ s.input.length, s'.input = s.input.drop k ∧ s'.inputBase = s.inputBase + k

theorem Drops.refl (s : RawDecoder) : Drops s s := ⟨0, Nat.zero_le _, rfl, rfl⟩

theorem Drops.trans {s s' s'' : RawDecoder} (h1 : Drops s s') (h2 : Drops s' s'') : Drops s s'' := by
  obtain ⟨j, hj, hinput, hbase⟩ := h1
  obtain ⟨k, hk, hinput', hbase'⟩ := h2
  rw [hinput, List.length_drop] at hk
  refine ⟨j + k, by omega, ?_, by omega⟩
  rw [hinput', hinput, List.drop_drop]

/-- everything that was fed ends where the cursor behind the pending work has its end -/
theorem resume_end {s : RawDecoder} (hs : s.Ok) :
    s.resume.pos + s.resume.bytes.length = s.inputBase + s.input.length := by
  have hoff := hs.offset_le
  have hlit := hs.literal_le
  simp only [resume, List.length_drop, length_unread, absoluteOffset]
  unfold availableInput at hlit ⊢
  omega

/-- an advance does not drop more than there is: the end of the input stays where it is -/
theorem Advances.drops {c c' : Locals} {delta : List UInt8} (h : Advances c c' delta) (hs : c.self.Ok) :
    Drops c.self c'.self := by
  obtain ⟨k, hinput, hbase⟩ := h.keeps.input
  have hscan := h.scan []
  rw [Cursor.more_nil, Cursor.more_nil] at hscan
  have hend := scan_end c'.self.resume
  rw [hscan, scan_end, resume_end hs, resume_end h.ok, hbase] at hend
  exact ⟨k, by omega, hinput, hbase⟩

/-- **Every call with a buffer** drops some of the front of the input. -/
theorem decodeInto_drops {s : RawDecoder} (hs : s.Ok) (dst : List UInt8) : Drops s (answer decodeInto s dst).1 := by
  by_cases htrail : s.trailingAfterFinish = 0
  · cases hfin : s.finished with
    | true =>
      rw [answer_finished htrail hfin]
      exact .refl s
    | false =>
      obtain ⟨c, delta, hadv, hend⟩ := loop_ends (c := ⟨s, dst, 0⟩) hs (Nat.zero_le _)
      have hfirst : Drops s c.self := hadv.drops hs
      rw [answer_running htrail hfin]
      generalize loop.run ⟨s, dst, 0⟩ = r at hend
      cases hend with
      | needOutput => exact hfirst
      | needInput => exact hfirst
      | truncated => exact hfirst
      | invalidOpcode => exact hfirst
      | badDistance => exact hfirst
      | finished => exact hfirst.trans ⟨c.self.input.length, le_rfl, List.drop_length.symm, rfl⟩
      | trailing => exact hfirst
  · rw [answer_trailing htrail]
    exact .refl s

/-! ## Runs -/

/-- the bytes that the calls of a run feed before the decoder has finished -/
def accepted (calls : List Call) : List UInt8 := machine.gather (fun s c => c.accepted s.finished) new calls

/-- `s` has its offsets and pending work in range, and holds the end of `q` from `input_base` on -/
structure Safe (s : RawDecoder) (q : List UInt8) : Prop where
  ok : s.Ok
  base_le : s.inputBase ≤ q.length
  retained : s.input = q.drop s.inputBase

theorem Safe.drops {s s' : RawDecoder} {q : List UInt8} (h : Safe s q) (hok : s'.Ok) (hd : Drops s s') : Safe s' q := by
  obtain ⟨k, hk, hinput, hbase⟩ := hd
  have hle := h.base_le
  rw [h.retained, List.length_drop] at hk
  refine ⟨hok, by omega, ?_⟩
  rw [hinput, h.retained, List.drop_drop, hbase]

/-- **Every call** keeps `Safe`. -/
theorem step_safe {s : RawDecoder} {q : List UInt8} (h : Safe s q) (c : Call) :
    Safe (machine.step s c).1 (q ++ c.accepted s.finished) := by
  have hok := (step_ok h.ok c).1
  cases c with
  | feed input =>
    change (feed input s).Ok at hok
    show Safe (feed input s) (q ++ if s.finished then [] else input)
    cases hfin : s.finished with
    | true =>
      have hkept : (feed input s).input = s.input ∧ (feed input s).inputBase = s.inputBase := by
        unfold feed feedWith
        rw [if_pos hfin]
        split_ifs
        · exact ⟨rfl, rfl⟩
        · exact ⟨rfl, rfl⟩
        · exact ⟨rfl, rfl⟩
      rw [if_pos rfl, List.append_nil]
      refine ⟨hok, ?_, ?_⟩
      · rw [hkept.2]
        exact h.base_le
      · rw [hkept.1, hkept.2]
        exact h.retained
    | false =>
      rw [feed_running hfin] at hok ⊢
      refine ⟨hok, ?_, ?_⟩
      · rw [List.length_append]
        exact h.base_le.trans (Nat.le_add_right _ _)
      · show s.input ++ input = (q ++ input).drop s.inputBase
        rw [List.drop_append_of_le_length h.base_le, h.retained]
  | finishInput =>
    have hnone : Call.finishInput.accepted s.finished = [] := by cases s.finished <;> rfl
    rw [hnone, List.append_nil]
    exact ⟨hok, h.base_le, h.retained⟩
  | produce dst =>
    have hnone : (Call.produce dst).accepted s.finished = [] := by cases s.finished <;> rfl
    rw [hnone, List.append_nil]
    exact h.drops hok (decodeInto_drops h.ok dst)

theorem run_safe (calls : List Call) : Safe (machine.run new calls) (accepted calls) := by
  have h : Safe new [] := ⟨ok_new, le_rfl, rfl⟩
  exact machine.run_gather_inv Safe (fun _ _ c hs => step_safe hs c) new [] h calls

end RawDecoder

end Lzvn.Raw
