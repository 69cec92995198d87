/-
What one round of `RawDecoder::decode_into` does, in terms of the grammar.

`resume s` is the cursor of the grammar that the decoder's state stands for: the position, bytes and window behind its
pending work. `Ok s` says that the offsets and the pending work of `s` stay inside its buffers.

- `run_copyPendingLiteral`, `run_copyPendingMatch`: delivering pending work leaves `resume` alone.
- `run_instruction`: a round without pending work does what `fetch` finds, and moves `resume` past an instruction.
- `round_falls`: a round that goes on has consumed input or cleared pending work. `loop`, `decodeInto` and `machine`
  follow.
-/
import Lzvn.Raw.DecodeGrammar
import Lzvn.Raw.Stream

namespace Lzvn.Raw

open Lzvn.Core Lzvn.Core.Lz77

theorem Pending.eq_of_isEmpty {p : Pending} (h : p.isEmpty) : p = ⟨0, 0, p.distance⟩ := by
  obtain ⟨l, m, d⟩ := p
  obtain ⟨h1, h2⟩ := h
  dsimp only at h1 h2
  rw [h1, h2]

namespace RawDecoder

/-! ## What a state stands for -/

/-- the buffered input not yet consumed -/
def unread (s : RawDecoder) : List UInt8 := s.input.drop s.inputOffset

/-- the window of the output so far -/
def window (s : RawDecoder) : Window UInt8 := ⟨s.history, s.previousDistance⟩

/-- the cursor behind the pending work -/
def resume (s : RawDecoder) : Cursor where
  pos := s.absoluteOffset + s.pending.literal
  bytes := s.unread.drop s.pending.literal
  win := ⟨copyBack (s.history ++ s.unread.take s.pending.literal) s.pending.distance s.pending.copy, s.previousDistance⟩

/-- offsets and pending work stay inside the buffers -/
structure Ok (s : RawDecoder) : Prop where
  offset_le : s.inputOffset ≤ s.input.length
  literal_le : s.pending.literal ≤ s.availableInput
  reach : s.pending.copy ≠ 0 → 1 ≤ s.pending.distance ∧ s.pending.distance ≤ s.history.length + s.pending.literal

theorem length_unread (s : RawDecoder) : s.unread.length = s.availableInput := List.length_drop

theorem resume_empty {s : RawDecoder} (h : s.pending.isEmpty) : s.resume = ⟨s.absoluteOffset, s.unread, s.window⟩ := by
  simp [resume, h.1, h.2, copyBack, window]

/-- what is already out is a prefix of what comes behind the pending work -/
theorem history_le_resume (s : RawDecoder) : s.history <+: s.resume.win.out :=
  (List.prefix_append _ _).trans (le_copyBack _ _ _)

/-- `s'` is `s` with some consumed input dropped from the buffer -/
def Compacts (s s' : RawDecoder) : Prop :=
  ∃ k ≤ s.inputOffset, s' = { s with
    input := s.input.drop k
    inputBase := s.inputBase + k
    inputOffset := s.inputOffset - k }

theorem Compacts.refl (s : RawDecoder) : Compacts s s := ⟨0, Nat.zero_le _, by simp⟩

namespace Compacts

variable {s s' : RawDecoder} (h : Compacts s s')
include h

theorem unread_eq : s'.unread = s.unread := by
  obtain ⟨k, hk, rfl⟩ := h
  simp [unread, hk]

theorem absoluteOffset_eq : s'.absoluteOffset = s.absoluteOffset := by
  obtain ⟨k, hk, rfl⟩ := h
  simp only [absoluteOffset]
  omega

theorem availableInput_eq : s'.availableInput = s.availableInput := by
  rw [← length_unread, ← length_unread, h.unread_eq]

theorem pending_eq : s'.pending = s.pending := by obtain ⟨k, -, rfl⟩ := h; rfl

theorem history_eq : s'.history = s.history := by obtain ⟨k, -, rfl⟩ := h; rfl

theorem resume_eq : s'.resume = s.resume := by
  have hd : s'.previousDistance = s.previousDistance := by obtain ⟨k, -, rfl⟩ := h; rfl
  simp only [resume, h.unread_eq, h.absoluteOffset_eq, h.pending_eq, h.history_eq, hd]

theorem ok (hs : s.Ok) : s'.Ok := by
  refine ⟨?_, ?_, ?_⟩
  · have := hs.offset_le
    obtain ⟨k, hk, rfl⟩ := h
    simp only [List.length_drop]
    omega
  · rw [h.pending_eq, h.availableInput_eq]
    exact hs.literal_le
  · rw [h.pending_eq, h.history_eq]
    exact hs.reach

end Compacts

theorem run_compactInput {s : RawDecoder} (h : s.inputOffset ≤ s.input.length) :
    ∃ s', compactInput.run s = .ok () s' ∧ Compacts s s' ∧ s'.inputOffset = 0 := by
  by_cases h0 : s.inputOffset = 0
  · exact ⟨s, by simp [compactInput, h0], Compacts.refl s, h0⟩
  · refine ⟨{ s with input := s.unread, inputBase := s.inputBase + s.inputOffset, inputOffset := 0 }, ?_,
      ⟨s.inputOffset, le_rfl, by simp [unread]⟩, rfl⟩
    have hslice : slice s.input s.inputOffset s.input.length = .ok s.unread := by
      rw [slice_eq h le_rfl, List.take_of_length_le (by rw [List.length_drop])]
      rfl
    simp only [compactInput, EStateM.run_bind, EStateM.run_get, h0, ite_false, hslice, run_lift_ok]
    rfl

theorem run_compactInputIfNecessary {s : RawDecoder} (h : s.inputOffset ≤ s.input.length) :
    ∃ s', compactInputIfNecessary.run s = .ok () s' ∧ Compacts s s' := by
  simp only [compactInputIfNecessary, EStateM.run_bind, EStateM.run_get]
  split_ifs
  · obtain ⟨s', hrun, hc, -⟩ := run_compactInput h
    exact ⟨s', hrun, hc⟩
  · exact ⟨s, rfl, Compacts.refl s⟩

/-- the offset that `compact_input_if_necessary` leaves of `offset` in a buffer of `length` bytes, with nothing pending -/
def trimmed (offset length : ℕ) : ℕ :=
  if offset = length ∨ offset ≥ inputCompactThreshold ∨ offset * 2 ≥ length then 0 else offset

theorem compactInputIfNecessary_idle {s s' : RawDecoder} (h : s.inputOffset ≤ s.input.length) (hp : s.pending.isEmpty)
    (hrun : compactInputIfNecessary.run s = .ok () s') : s'.inputOffset = trimmed s.inputOffset s.input.length := by
  simp only [compactInputIfNecessary, EStateM.run_bind, EStateM.run_get, hp, true_and] at hrun
  unfold trimmed
  split_ifs at hrun ⊢
  · obtain ⟨s1, hrun1, -, hzero⟩ := run_compactInput h
    rw [hrun1] at hrun
    cases hrun
    exact hzero
  · cases hrun
    rfl

theorem run_compactInputIfNecessary_busy {s : RawDecoder} (hp : ¬ s.pending.isEmpty) :
    compactInputIfNecessary.run s = .ok () s := by
  simp only [compactInputIfNecessary, EStateM.run_bind, EStateM.run_get, hp, false_and, ite_false]
  rfl

/-! ## Pending work -/

/-- the decoder after delivering `count` pending literals -/
def deliverLiteral (s : RawDecoder) (count : ℕ) : RawDecoder := { s with
  history := s.history ++ s.unread.take count
  inputOffset := s.inputOffset + count
  pending := { s.pending with literal := s.pending.literal - count } }

/-- the decoder after delivering `count` pending bytes of a match -/
def deliverCopy (s : RawDecoder) (count : ℕ) : RawDecoder := { s with
  history := copyBack s.history s.pending.distance count
  pending := { s.pending with copy := s.pending.copy - count } }

theorem run_copyPendingLiteral {s : RawDecoder} (h : s.Ok) (dst : List UInt8) :
    ∃ s', copyPendingLiteral.run (s, dst) = .ok (min s.pending.literal dst.length)
        (s', s.unread.take (min s.pending.literal dst.length) ++ dst.drop (min s.pending.literal dst.length)) ∧
      Compacts (s.deliverLiteral (min s.pending.literal dst.length)) s' := by
  have hoff := h.offset_le
  have hlit := h.literal_le
  unfold availableInput at hlit
  set count := min s.pending.literal dst.length with hcount
  have hlen : (s.unread.take count).length = count := by
    rw [List.length_take, length_unread, availableInput]; omega
  have hslice : slice s.input s.inputOffset (s.inputOffset + count) = .ok (s.unread.take count) := by
    rw [slice_eq (by omega) (by omega), Nat.add_sub_cancel_left]
    rfl
  have hcopy : copyFromSlice dst 0 count (s.unread.take count) = .ok (s.unread.take count ++ dst.drop count) := by
    rw [copyFromSlice_eq (Nat.zero_le _) (by omega) (by omega)]
    rfl
  obtain ⟨s', hrun, hc⟩ := run_compactInputIfNecessary (s := s.deliverLiteral count) (by
    simp only [deliverLiteral]; omega)
  refine ⟨s', ?_, hc⟩
  simp only [copyPendingLiteral, EStateM.run_bind, EStateM.run_get, ← hcount, hslice, hcopy,
    sub_eq (show count ≤ s.pending.literal by omega), run_lift_ok, EStateM.run_set, onDecoder, run_zoom]
  simp only [deliverLiteral] at hrun
  rw [hrun]
  rfl

theorem copySlots_copyBack {history dst : List UInt8} {d count : ℕ} (h1 : 1 ≤ d) (h2 : d ≤ history.length)
    (hc : count ≤ dst.length) : copySlots d count (history, dst) =
      .ok (copyBack history d count, (copyBack history d count).drop history.length ++ dst.drop count) := by
  induction count with
  | zero => simp [copySlots, copyBack, pure, Except.pure]
  | succ n ih =>
    have hprev := ih (by omega)
    have hlen := copyBack_length n h1 h2
    obtain ⟨a, ha, hsucc⟩ := copyBack_snoc n h1 h2
    rw [← hlen] at ha
    have hdrop : ((copyBack history d n).drop history.length).length = n := by rw [List.length_drop]; omega
    have hset : ((copyBack history d n).drop history.length ++ dst.drop n).set n a =
        (copyBack history d (n + 1)).drop history.length ++ dst.drop (n + 1) := by
      rw [List.set_append_right _ _ hdrop.le, hdrop, Nat.sub_self,
        List.drop_eq_getElem_cons (show n < dst.length by omega), List.set_cons_zero, hsucc, List.drop_append_of_le_length (by omega), List.append_assoc]
      rfl
    unfold copySlots at hprev ⊢
    rw [List.range_succ, List.foldlM_append, hprev, except_ok_bind]
    simp only [List.foldlM_cons, List.foldlM_nil, copySlot, sub_eq (show d ≤ (copyBack history d n).length by omega),
      except_ok_bind, index_eq ha]
    rw [setIndex_eq a (by rw [List.length_append, hdrop, List.length_drop]; omega), hset, hsucc]
    rfl

theorem run_copyPendingMatch {s : RawDecoder} (h : s.Ok) (hlit : s.pending.literal = 0) (hcopy : s.pending.copy ≠ 0)
    (dst : List UInt8) :
    copyPendingMatch.run (s, dst) = .ok (min s.pending.copy dst.length) (s.deliverCopy (min s.pending.copy dst.length),
      (copyBack s.history s.pending.distance (min s.pending.copy dst.length)).drop s.history.length ++
        dst.drop (min s.pending.copy dst.length)) := by
  obtain ⟨h1, h2⟩ := h.reach hcopy
  rw [hlit, Nat.add_zero] at h2
  simp only [copyPendingMatch, EStateM.run_bind, EStateM.run_get, copySlots_copyBack h1 h2 (min_le_right _ _),
    sub_eq (min_le_left s.pending.copy dst.length), run_lift_ok, EStateM.run_set]
  rfl

/-- delivering literals leaves the cursor behind the pending work -/
theorem resume_deliverLiteral (s : RawDecoder) {count : ℕ} (hc : count ≤ s.pending.literal) :
    (s.deliverLiteral count).resume = s.resume := by
  have hunread : (s.deliverLiteral count).unread = s.unread.drop count := by
    simp [unread, deliverLiteral]
  have htake : s.unread.take count ++ (s.unread.drop count).take (s.pending.literal - count) =
      s.unread.take s.pending.literal := by
    rw [← List.take_add, Nat.add_sub_cancel' hc]
  simp only [resume, hunread]
  simp only [deliverLiteral, absoluteOffset, List.append_assoc, htake, List.drop_drop, Nat.add_sub_cancel' hc,
    Cursor.mk.injEq, and_true]
  omega

theorem ok_deliverLiteral {s : RawDecoder} (h : s.Ok) {count : ℕ} (hc : count ≤ s.pending.literal) :
    (s.deliverLiteral count).Ok := by
  have hlit := h.literal_le
  have hoff := h.offset_le
  have hlen : (s.unread.take count).length = count := by
    rw [List.length_take, length_unread]; omega
  unfold availableInput at hlit
  refine ⟨?_, ?_, ?_⟩
  · simp only [deliverLiteral]; omega
  · simp only [deliverLiteral, availableInput]; omega
  · intro hne
    obtain ⟨h1, h2⟩ := h.reach hne
    simp only [deliverLiteral, List.length_append, hlen]
    omega

theorem resume_deliverCopy {s : RawDecoder} (h : s.Ok) (hlit : s.pending.literal = 0) {count : ℕ}
    (hc : count ≤ s.pending.copy) : (s.deliverCopy count).resume = s.resume := by
  by_cases h0 : s.pending.copy = 0
  · obtain rfl : count = 0 := by omega
    simp [resume, deliverCopy, unread, absoluteOffset, copyBack]
  · obtain ⟨h1, h2⟩ := h.reach h0
    rw [hlit, Nat.add_zero] at h2
    simp [resume, deliverCopy, unread, absoluteOffset, hlit, copyBack_split hc h1 h2]

theorem ok_deliverCopy {s : RawDecoder} (h : s.Ok) (hlit : s.pending.literal = 0) (count : ℕ) :
    (s.deliverCopy count).Ok := by
  refine ⟨h.offset_le, h.literal_le, ?_⟩
  intro hne
  have hne' : s.pending.copy ≠ 0 := by
    intro h0
    exact hne (by simp [deliverCopy, h0])
  obtain ⟨h1, h2⟩ := h.reach hne'
  have hreach : s.pending.distance ≤ s.history.length + s.pending.literal := h2
  rw [hlit, Nat.add_zero] at hreach
  have hlen := copyBack_length count h1 hreach
  simp only [deliverCopy]
  omega

/-! ## Instructions -/

/-- what a round that goes on leaves alone: the flags, and the buffer but for consumed input -/
structure Keeps (s s' : RawDecoder) : Prop where
  input : ∃ k, s'.input = s.input.drop k ∧ s'.inputBase = s.inputBase + k
  finishedInput : s'.finishedInput = s.finishedInput
  finished : s'.finished = s.finished
  eosPadding : s'.eosPadding = s.eosPadding
  trailingAfterFinish : s'.trailingAfterFinish = s.trailingAfterFinish

theorem Keeps.refl (s : RawDecoder) : Keeps s s := ⟨⟨0, by simp⟩, rfl, rfl, rfl, rfl⟩

theorem Keeps.trans {s s' s'' : RawDecoder} (h1 : Keeps s s') (h2 : Keeps s' s'') : Keeps s s'' := by
  obtain ⟨j, hj, hbj⟩ := h1.input
  obtain ⟨k, hk, hbk⟩ := h2.input
  exact ⟨⟨j + k, by rw [hk, hj, List.drop_drop], by omega⟩, h2.finishedInput.trans h1.finishedInput,
    h2.finished.trans h1.finished, h2.eosPadding.trans h1.eosPadding,
    h2.trailingAfterFinish.trans h1.trailingAfterFinish⟩

theorem Compacts.keeps {s s' : RawDecoder} (h : Compacts s s') : Keeps s s' := by
  obtain ⟨k, -, rfl⟩ := h
  exact ⟨⟨k, rfl, rfl⟩, rfl, rfl, rfl, rfl⟩

/-- `s'` is `s` behind an instruction of `n` bytes that leads to window `w`, which may still be pending -/
structure Executes (s s' : RawDecoder) (n : ℕ) (w : Window UInt8) : Prop where
  resume : s'.resume = ⟨s.resume.pos + n, s.resume.bytes.drop n, w⟩
  history : s'.history = s.history
  ok : s'.Ok
  keeps : Keeps s s'
  consumed : s'.availableInput < s.availableInput

/-- the decoder past a header of `h` bytes, with `k` literals and a copy of `m` bytes from `d` back pending -/
def load (s : RawDecoder) (h k m d last : ℕ) : RawDecoder :=
  { s with inputOffset := s.inputOffset + h, previousDistance := last, pending := ⟨k, m, d⟩ }

/-- what `s'` holds of the input that `s` holds, when it comes behind an instruction of `n` bytes that means `step` -/
inductive Moves (s s' : RawDecoder) (n : ℕ) (step : Step UInt8) : Prop where
  /-- the step is pending behind its header, and nothing is compacted -/
  | pending {h k m d last : ℕ} (self : s' = s.load h k m d last) (size : h + k = n) (copy : m = 0 ↔ step.copy = none)
    (busy : k ≠ 0 ∨ m ≠ 0)
  /-- nothing is pending, and the buffer has been compacted where that was necessary -/
  | nothing (copy : step.copy = none) (idle : s'.pending.isEmpty)
    (offset : s'.inputOffset = trimmed (s.inputOffset + n) s.input.length)

theorem load_executes {s s' : RawDecoder} {h k m d last : ℕ} (hs : s.Ok) (hp : s.pending.isEmpty) (h0 : 0 < h)
    (hn : h + k ≤ s.unread.length) (hreach : m ≠ 0 → 1 ≤ d ∧ d ≤ s.history.length + k)
    (hc : Compacts (s.load h k m d last) s') :
    Executes s s' (h + k) ⟨copyBack (s.history ++ (s.unread.drop h).take k) d m, last⟩ := by
  have hoff := hs.offset_le
  rw [length_unread, availableInput] at hn
  have hunread : (s.load h k m d last).unread = s.unread.drop h := by simp [unread, load]
  have hload : (s.load h k m d last).Ok := by
    refine ⟨?_, ?_, hreach⟩
    · simp only [load]; omega
    · simp only [load, availableInput]; omega
  refine ⟨?_, hc.history_eq, hc.ok hload, ?_, ?_⟩
  · rw [hc.resume_eq, resume_empty hp]
    simp only [resume, hunread, List.drop_drop]
    simp only [load, absoluteOffset, Cursor.mk.injEq, and_true]
    omega
  · have hkeep : Keeps s (s.load h k m d last) := ⟨⟨0, by simp [load]⟩, rfl, rfl, rfl, rfl⟩
    exact hkeep.trans hc.keeps
  · rw [hc.availableInput_eq]
    simp only [load, availableInput]
    omega

/-- `m` executes the step encoded by the next `n` bytes, or rejects its distance -/
def Prepares (s : RawDecoder) (m : Rust RawDecoder Unit) (n : ℕ) (step : Step UInt8) : Prop :=
  match s.window.apply step with
  | none => m.run s =
      .error (.err (.invalidMatchDistance (step.distance s.window) (s.history.length + step.literals.length))) s
  | some w => ∃ s', m.run s = .ok () s' ∧ Executes s s' n w

@[simp] theorem run_validateDistance (distance available : ℕ) (s : RawDecoder) :
    (validateDistance distance available).run s =
      if distance = 0 ∨ distance > available then .error (.err (.invalidMatchDistance distance available)) s
      else .ok () s := by
  simp only [validateDistance]
  split_ifs <;> rfl

variable {s : RawDecoder}

theorem prepareLiteralOnly_spec (hs : s.Ok) (hp : s.pending.isEmpty) {h k : ℕ} (h0 : 0 < h)
    (hn : h + k ≤ s.unread.length) :
    Prepares s (prepareLiteralOnly h k) (h + k) ⟨(s.unread.drop h).take k, none⟩ :=
  ⟨s.load h k 0 0 s.previousDistance, rfl, load_executes hs hp h0 hn (by simp) (.refl _)⟩

theorem prepareLiteralAndMatch_spec (hs : s.Ok) (hp : s.pending.isEmpty) {h k m : ℕ} {r : Reach} (h0 : 0 < h)
    (hn : h + k ≤ s.unread.length) :
    Prepares s (prepareLiteralAndMatch h k m (r.resolve s.previousDistance)) (h + k)
      ⟨(s.unread.drop h).take k, some (m, r)⟩ := by
  have hk : ((s.unread.drop h).take k).length = k := by rw [List.length_take, List.length_drop]; omega
  have hlen : (s.history ++ (s.unread.drop h).take k).length = s.history.length + k := by rw [List.length_append, hk]
  simp only [Prepares, Window.apply, window, hlen]
  split_ifs with hd
  · refine ⟨s.load h k m _ _, ?_, load_executes hs hp h0 hn (fun _ => hd) (.refl _)⟩
    simp only [prepareLiteralAndMatch, EStateM.run_bind, EStateM.run_get, run_validateDistance]
    rw [if_neg (by omega)]
    rfl
  · simp only [prepareLiteralAndMatch, EStateM.run_bind, EStateM.run_get, run_validateDistance, hk, Step.distance,
      Option.map_some, Option.getD_some]
    rw [if_pos (by omega)]

theorem prepareMatchOnly_spec (hs : s.Ok) (hp : s.pending.isEmpty) {h m : ℕ} {r : Reach} (h0 : 0 < h)
    (hn : h ≤ s.unread.length) :
    Prepares s (prepareMatchOnly h m (r.resolve s.previousDistance)) h ⟨[], some (m, r)⟩ := by
  simp only [Prepares, Window.apply, window, List.append_nil]
  split_ifs with hd
  · have hoff := hs.offset_le
    rw [length_unread, availableInput] at hn
    obtain ⟨s', hrun, hc⟩ := run_compactInputIfNecessary
      (s := s.load h 0 m (r.resolve s.previousDistance) (r.resolve s.previousDistance)) (by simp only [load]; omega)
    refine ⟨s', ?_, ?_⟩
    · simp only [prepareMatchOnly, EStateM.run_bind, EStateM.run_get, run_validateDistance, EStateM.run_modify]
      rw [if_neg (by omega)]
      exact hrun
    · have hexec := load_executes hs hp h0 (by rw [length_unread, availableInput]; omega) (fun _ => by simpa using hd) hc
      simpa using hexec
  · simp only [prepareMatchOnly, EStateM.run_bind, EStateM.run_get, run_validateDistance, Step.distance,
      Option.map_some, Option.getD_some, List.length_nil, Nat.add_zero]
    rw [if_pos (by omega)]

/-- when `m` succeeds and leaves work pending, it has loaded it behind a header of `h` bytes -/
def Loads (s : RawDecoder) (m : Rust RawDecoder Unit) (h k l : ℕ) : Prop :=
  ∀ s', m.run s = .ok () s' → k ≠ 0 ∨ l ≠ 0 → ∃ d last, s' = s.load h k l d last

theorem prepareLiteralOnly_loads {h k : ℕ} : Loads s (prepareLiteralOnly h k) h k 0 := by
  intro s' hrun _
  cases hrun
  exact ⟨0, s.previousDistance, rfl⟩

theorem prepareLiteralAndMatch_loads {h k m d : ℕ} : Loads s (prepareLiteralAndMatch h k m d) h k m := by
  intro s' hrun _
  simp only [prepareLiteralAndMatch, EStateM.run_bind, EStateM.run_get, run_validateDistance] at hrun
  split_ifs at hrun
  cases hrun
  exact ⟨d, d, rfl⟩

theorem prepareMatchOnly_loads {h m d : ℕ} : Loads s (prepareMatchOnly h m d) h 0 m := by
  intro s' hrun hbusy
  have hpending : ¬ (s.load h 0 m d d).pending.isEmpty := by
    intro hempty
    rcases hbusy with h0 | hm
    · exact h0 rfl
    · exact hm hempty.2
  simp only [prepareMatchOnly, EStateM.run_bind, EStateM.run_get, run_validateDistance, EStateM.run_modify] at hrun
  split_ifs at hrun
  have hsame : compactInputIfNecessary.run (s.load h 0 m d d) = .ok () s' := hrun
  rw [run_compactInputIfNecessary_busy hpending] at hsame
  cases hsame
  exact ⟨d, d, rfl⟩

/-- what a round without pending work does, given what the unread bytes begin with -/
def Instruction (c : Locals) (r : EStateM.Result Stop Locals (Option StreamStatus)) : Fetch → Prop
  | .short => ∃ s', Compacts c.self s' ∧ r = if c.self.finishedInput then
      .error (.err (.truncatedInput c.self.absoluteOffset)) { c with self := s' }
    else .ok (some .needInput) { c with self := s' }
  | .invalid op => r = .error (.err (.invalidOpcode c.self.absoluteOffset op)) c
  | .eos =>
    match finishError (c.self.unread.drop 1) with
    | some e => r = .error (.err e) { c with self := { c.self with inputOffset := c.self.inputOffset + 1 } }
    | none => r = .ok (some .finished) { c with self := { c.self with
        input := []
        inputBase := c.self.inputBase + c.self.input.length
        inputOffset := 0
        eosPadding := (c.self.unread.drop 1).length
        finished := true } }
  | .instr n step =>
    match c.self.window.apply step with
    | none => r = .error (.err (.invalidMatchDistance (step.distance c.self.window)
        (c.self.history.length + step.literals.length))) c
    | some w => ∃ s', r = .ok none { c with self := s' } ∧ Executes c.self s' n w

theorem Instruction.of_instr {c c' : Locals} {o : Option StreamStatus} {n : ℕ} {step : Step UInt8}
    (h : Instruction c (.ok o c') (.instr n step)) :
    o = none ∧ ∃ w, c.self.window.apply step = some w ∧ Executes c.self c'.self n w := by
  unfold Instruction at h
  cases hw : c.self.window.apply step with
  | none =>
    simp only [hw] at h
    cases h
  | some w =>
    simp only [hw] at h
    obtain ⟨s', hr, hexec⟩ := h
    cases hr
    exact ⟨rfl, w, rfl, hexec⟩

/-- what a round without pending work does, with what it holds of the input -/
structure Dispatch (c : Locals) (r : EStateM.Result Stop Locals (Option StreamStatus)) (f : Fetch) : Prop where
  instruction : Instruction c r f
  moves : ∀ c', r = .ok none c' → ∃ n step, f = .instr n step ∧ Moves c.self c'.self n step
  waits : ∀ c', r = .ok (some .needInput) c' → c'.self.inputOffset = if c.self.unread = [] then 0 else c.self.inputOffset

theorem run_onSelf {α : Type} (m : Rust RawDecoder α) (c : Locals) :
    EStateM.run (onSelf m) c = match m.run c.self with
      | .ok a self => .ok a { c with self }
      | .error e self => .error e { c with self } := by
  rw [onSelf, run_zoom]
  cases m.run c.self <;> rfl

theorem run_ensureBuffered (needed : ℕ) (s : RawDecoder) : (ensureBuffered needed).run s =
    if s.unread.length < needed then
      if s.finishedInput then .error (.err (.truncatedInput s.absoluteOffset)) s else .ok false s
    else .ok true s := by
  simp only [ensureBuffered, EStateM.run_bind, EStateM.run_get, length_unread]
  split_ifs <;> first | rfl | omega

theorem run_onSelf_ensureBuffered (needed : ℕ) (c : Locals) : EStateM.run (onSelf (ensureBuffered needed)) c =
    if c.self.unread.length < needed then
      if c.self.finishedInput then .error (.err (.truncatedInput c.self.absoluteOffset)) c else .ok false c
    else .ok true c := by
  rw [run_onSelf, run_ensureBuffered]
  split_ifs <;> rfl

/-- a round's answer to an instruction that is not wholly there -/
def wait (c : Locals) : EStateM.Result Stop Locals (Option StreamStatus) :=
  if c.self.finishedInput then .error (.err (.truncatedInput c.self.absoluteOffset)) c else .ok (some .needInput) c

theorem run_ensure (needed : ℕ) (rest : Rust Locals (Option StreamStatus)) (c : Locals) :
    EStateM.run (do
      if !(← onSelf (ensureBuffered needed)) then return some .needInput
      rest) c = if c.self.unread.length < needed then wait c else rest.run c := by
  rw [EStateM.run_bind, run_onSelf_ensureBuffered]
  unfold wait
  split_ifs <;> rfl

variable {c : Locals} {op : UInt8} {tail : List UInt8} {kind : OpcodeKind}

/-- every instruction but a nop leaves work pending -/
theorem announces_busy (hk : classify op = some kind) (he : kind ≠ .eos) (hn : kind ≠ .nop) {k : ℕ}
    {copy : Option (ℕ × Reach)} (hann : announces (op :: tail) kind = (k, copy)) :
    k ≠ 0 ∧ copy = none ∨ ∃ m r, m ≠ 0 ∧ copy = some (m, r) := by
  have hsmall : ∀ b : UInt8, classify b = some .smallLiteral ∨ classify b = some .smallMatch → b.toNat % 16 ≠ 0 :=
    forall_byte (by decide +kernel)
  have hop : byteOr0 (op :: tail) 0 = op.toNat := rfl
  unfold announces at hann
  rw [hop] at hann
  cases kind with
  | smallLiteral =>
    cases hann
    exact .inl ⟨hsmall op (.inl hk), rfl⟩
  | largeLiteral =>
    cases hann
    exact .inl ⟨Nat.succ_ne_zero _, rfl⟩
  | smallMatch =>
    cases hann
    exact .inr ⟨_, _, hsmall op (.inr hk), rfl⟩
  | nop => exact absurd rfl hn
  | eos => exact absurd rfl he
  | _ =>
    cases hann
    exact .inr ⟨_, _, Nat.succ_ne_zero _, rfl⟩

/-- an arm that has not got enough bytes -/
theorem arm_wait (hb : c.self.unread = op :: tail) (hk : classify op = some kind) (he : kind ≠ .eos)
    (h : c.self.unread.length < headerLen kind + (announces (op :: tail) kind).1) :
    Dispatch c (wait c) (fetch c.self.unread) := by
  have hne : c.self.unread ≠ [] := by
    rw [hb]
    exact List.cons_ne_nil _ _
  constructor
  · rw [hb] at h ⊢
    rw [fetch_cons tail hk he, if_pos h]
    exact ⟨c.self, .refl _, rfl⟩
  · intro c' hr
    unfold wait at hr
    split_ifs at hr
    cases hr
  · intro c' hr
    unfold wait at hr
    split_ifs at hr
    cases hr
    rw [if_neg hne]

theorem Loads.moves {s s' : RawDecoder} {m : Rust RawDecoder Unit} {h k : ℕ} {copy : Option (ℕ × Reach)}
    {lits : List UInt8} (hload : Loads s m h k ((copy.map Prod.fst).getD 0)) (hrun : m.run s = .ok () s')
    (hbusy : k ≠ 0 ∧ copy = none ∨ ∃ m r, m ≠ 0 ∧ copy = some (m, r)) : Moves s s' (h + k) ⟨lits, copy⟩ := by
  rcases hbusy with ⟨hk, rfl⟩ | ⟨m0, r, hm, rfl⟩
  · obtain ⟨d, last, hself⟩ := hload s' hrun (.inl hk)
    exact .pending hself rfl (iff_of_true rfl rfl) (.inl hk)
  · obtain ⟨d, last, hself⟩ := hload s' hrun (.inr hm)
    exact .pending hself rfl (iff_of_false hm (Option.some_ne_none _)) (.inr hm)

/-- an arm that has got its bytes: `m` executes the step -/
theorem arm_prepare {m : Rust RawDecoder Unit} {k : ℕ} {copy : Option (ℕ × Reach)} (hb : c.self.unread = op :: tail)
    (hk : classify op = some kind) (he : kind ≠ .eos) (hn : kind ≠ .nop) (hann : announces (op :: tail) kind = (k, copy))
    (h : ¬ c.self.unread.length < headerLen kind + k)
    (hm : Prepares c.self m (headerLen kind + k) ⟨(c.self.unread.drop (headerLen kind)).take k, copy⟩)
    (hload : Loads c.self m (headerLen kind) k ((copy.map Prod.fst).getD 0)) :
    Dispatch c (EStateM.run (onSelf m >>= fun _ => pure none) c) (fetch c.self.unread) := by
  have hf : fetch c.self.unread =
      .instr (headerLen kind + k) ⟨(c.self.unread.drop (headerLen kind)).take k, copy⟩ := by
    rw [hb] at h ⊢
    rw [fetch_cons tail hk he, hann, if_neg h]
  rw [hf, EStateM.run_bind, run_onSelf]
  unfold Prepares at hm
  constructor
  · unfold Instruction
    dsimp only
    cases hw : c.self.window.apply ⟨(c.self.unread.drop (headerLen kind)).take k, copy⟩ with
    | none => rw [hw] at hm; rw [hm]
    | some w =>
      rw [hw] at hm
      obtain ⟨s', hrun, hexec⟩ := hm
      exact ⟨s', by rw [hrun]; rfl, hexec⟩
  · intro c' hr
    cases hrun : m.run c.self with
    | error e s' =>
      rw [hrun] at hr
      cases hr
    | ok _ s' =>
      rw [hrun] at hr
      cases hr
      exact ⟨_, _, rfl, hload.moves hrun (announces_busy hk he hn hann)⟩
  · intro c' hr
    cases hrun : m.run c.self with
    | error e s' =>
      rw [hrun] at hr
      cases hr
    | ok _ s' =>
      rw [hrun] at hr
      cases hr

theorem run_consumeEos {s : RawDecoder} (h : s.unread ≠ []) : consumeEos.run s =
    match finishError (s.unread.drop 1) with
    | some e => .error (.err e) { s with inputOffset := s.inputOffset + 1 }
    | none => .ok () { s with
        input := []
        inputBase := s.inputBase + s.input.length
        inputOffset := 0
        eosPadding := (s.unread.drop 1).length } := by
  have hpos : 0 < s.unread.length := List.length_pos_iff.2 h
  rw [length_unread, availableInput] at hpos
  have hslice : slice s.input (s.inputOffset + 1) s.input.length = .ok (s.unread.drop 1) := by
    rw [slice_eq (by omega) le_rfl, unread, List.drop_drop, List.take_of_length_le (by rw [List.length_drop])]
  have hend : ¬ s.input.length = 0 := by omega
  have hempty : slice s.input s.input.length s.input.length = .ok [] := by
    rw [slice_eq le_rfl le_rfl]
    simp
  unfold finishError
  simp only [consumeEos, EStateM.run_bind, EStateM.run_modify, EStateM.run_get, hslice, run_lift_ok]
  by_cases h1 : (s.unread.drop 1).any (· ≠ 0) = true
  · rw [if_pos h1, if_pos h1]
    rfl
  · rw [if_neg h1, if_neg h1]
    by_cases h2 : (s.unread.drop 1).length > maxEosPadding
    · rw [if_pos h2, if_pos h2]
      rfl
    · rw [if_neg h2, if_neg h2]
      simp only [EStateM.run_bind, EStateM.run_set, compactInput, EStateM.run_get, hend, ite_false,
        hempty, run_lift_ok]

/-- no input left -/
theorem arm_empty (hs : c.self.Ok) (hb : c.self.unread = []) :
    Dispatch c (EStateM.run (do
      onSelf compactInput
      if c.self.finishedInput then throw (.err (.truncatedInput (← get).self.absoluteOffset))
      else return some .needInput) c) .short := by
  obtain ⟨s', hrun, hc, hzero⟩ := run_compactInput hs.offset_le
  simp only [EStateM.run_bind, run_onSelf, hrun]
  refine ⟨⟨s', hc, ?_⟩, ?_, ?_⟩
  · split_ifs
    · simp only [EStateM.run_bind, EStateM.run_get, run_throw, hc.absoluteOffset_eq]
    · rfl
  · intro c' hr
    split_ifs at hr <;> cases hr
  · intro c' hr
    split_ifs at hr
    · cases hr
    · cases hr
      exact hzero.trans (if_pos hb).symm

theorem arm_nop (hs : c.self.Ok) (hp : c.self.pending.isEmpty) (hb : c.self.unread = op :: tail)
    (hk : classify op = some .nop) : Dispatch c (EStateM.run (do
      onSelf (modify fun self => { self with inputOffset := self.inputOffset + 1 })
      onSelf compactInputIfNecessary
      return none) c) (fetch c.self.unread) := by
  have hf : fetch c.self.unread = .instr 1 ⟨[], none⟩ := by
    rw [hb, fetch_cons tail hk (by decide)]
    simp [headerLen, announces, fields]
  have hlen : 1 ≤ c.self.unread.length := by rw [hb]; simp
  have hoff : c.self.inputOffset + 1 ≤ c.self.input.length := by
    rw [length_unread, availableInput] at hlen
    omega
  obtain ⟨s', hrun, hc⟩ := run_compactInputIfNecessary
    (s := c.self.load 1 0 0 c.self.pending.distance c.self.previousDistance) hoff
  have hexec := load_executes hs hp (by decide) hlen (by simp) hc
  have hload : { c.self with inputOffset := c.self.inputOffset + 1 } =
      c.self.load 1 0 0 c.self.pending.distance c.self.previousDistance := by
    rw [load, ← Pending.eq_of_isEmpty hp]
  rw [hf]
  simp only [EStateM.run_bind, run_onSelf, EStateM.run_modify, hload, hrun, EStateM.run_pure]
  refine ⟨⟨s', rfl, by simpa [window, copyBack] using hexec⟩, ?_, fun _ hr => (by cases hr)⟩
  intro c' hr
  cases hr
  have hidle : s'.pending.isEmpty := by
    rw [hc.pending_eq]
    exact ⟨rfl, rfl⟩
  exact ⟨1, _, rfl, .nothing rfl hidle (compactInputIfNecessary_idle hoff ⟨rfl, rfl⟩ hrun)⟩

theorem arm_eos (hb : c.self.unread = op :: tail) (hk : classify op = some .eos) : Dispatch c (EStateM.run (do
      onSelf consumeEos
      onSelf (modify fun self => { self with finished := true })
      return some .finished) c) (fetch c.self.unread) := by
  have hf : fetch c.self.unread = .eos := by
    rw [fetch_eos_iff, hb, (classify_eos op).1 hk]
    exact ⟨tail, rfl⟩
  have hne : c.self.unread ≠ [] := by
    rw [hb]
    exact List.cons_ne_nil _ _
  rw [hf]
  simp only [EStateM.run_bind, run_onSelf, run_consumeEos hne]
  cases hpad : finishError (c.self.unread.drop 1) with
  | none =>
    refine ⟨?_, fun _ hr => (by cases hr), fun _ hr => (by cases hr)⟩
    simp only [Instruction, hpad]
    rfl
  | some e =>
    refine ⟨?_, fun _ hr => (by cases hr), fun _ hr => (by cases hr)⟩
    simp only [Instruction, hpad]

/-- **One round without pending work** does what `fetch` finds, and compacts the buffer or not. -/
theorem run_dispatch (hs : c.self.Ok) (hp : c.self.pending.isEmpty) (hw : c.written ≠ c.dst.length) :
    Dispatch c (round.run c) (fetch c.self.unread) := by
  simp only [round, EStateM.run_bind, EStateM.run_get, hw, ite_false, hp.1, hp.2, ne_eq, not_true_eq_false]
  cases hb : c.self.unread with
  | nil =>
    have h0 : c.self.availableInput = 0 := by rw [← length_unread, hb]; rfl
    simp only [h0, ite_true]
    exact arm_empty hs hb
  | cons op tail =>
    have h0 : ¬ c.self.availableInput = 0 := by rw [← length_unread, hb]; simp
    have hop : index c.self.input c.self.inputOffset = .ok op := index_eq (getElem?_head hb)
    simp only [h0, ite_false, EStateM.run_bind, hop, run_lift_ok]
    cases hk : classify op with
    | none =>
      have hf : fetch (op :: tail) = .invalid op := fetch_invalid_iff.2 ⟨tail, rfl, hk⟩
      rw [hf]
      exact ⟨rfl, fun _ hr => (by cases hr), fun _ hr => (by cases hr)⟩
    | some kind =>
      rw [← hb]
      cases kind with
      | smallDistance =>
        simp only [run_ensure, byte_shr6, byte_shr3, byte_and7]
        split_ifs with h1 h2
        · exact arm_wait hb hk (by decide) (Nat.lt_add_right _ h1)
        · exact arm_wait hb hk (by decide) h2
        · obtain ⟨second, tail', rfl, hs1⟩ := index_second hb (hb ▸ h1)
          simp only [hs1, run_ok_bind, shl_or second.toNat_lt, Nat.reducePow]
          exact arm_prepare hb hk (by decide) (by decide) rfl h2
            (prepareLiteralAndMatch_spec (r := .explicit _) hs hp (by decide) (not_lt.1 h2)) prepareLiteralAndMatch_loads
      | mediumDistance =>
        simp only [run_ensure, byte_shr3, byte_and3, byte_and7]
        split_ifs with h1 h2
        · exact arm_wait hb hk (by decide) (Nat.lt_add_right _ h1)
        · exact arm_wait hb hk (by decide) h2
        · obtain ⟨second, third, tail', rfl, hs1, hs2⟩ := index_third hb (hb ▸ h1)
          simp only [hs1, hs2, run_ok_bind, medium_length, medium_distance]
          exact arm_prepare hb hk (by decide) (by decide) rfl h2
            (prepareLiteralAndMatch_spec (r := .explicit _) hs hp (by decide) (not_lt.1 h2)) prepareLiteralAndMatch_loads
      | largeDistance =>
        simp only [run_ensure, byte_shr6]
        split_ifs with h1 h2
        · exact arm_wait hb hk (by decide) (Nat.lt_add_right _ h1)
        · exact arm_wait hb hk (by decide) h2
        · obtain ⟨second, third, tail', rfl, hs1, hs2⟩ := index_third hb (hb ▸ h1)
          simp only [hs1, hs2, run_ok_bind, Nat.mul_comm 256, byte_shr3, byte_and7]
          exact arm_prepare hb hk (by decide) (by decide) rfl h2
            (prepareLiteralAndMatch_spec (r := .explicit _) hs hp (by decide) (not_lt.1 h2)) prepareLiteralAndMatch_loads
      | previousDistance =>
        simp only [run_ensure, byte_shr6, byte_shr3, byte_and7]
        split_ifs with h2
        · exact arm_wait hb hk (by decide) h2
        · exact arm_prepare hb hk (by decide) (by decide) rfl h2
            (prepareLiteralAndMatch_spec (r := .last) hs hp (by decide) (not_lt.1 h2)) prepareLiteralAndMatch_loads
      | smallLiteral =>
        simp only [run_ensure, byte_and15]
        split_ifs with h2
        · exact arm_wait hb hk (by decide) h2
        · exact arm_prepare hb hk (by decide) (by decide) rfl h2
            (prepareLiteralOnly_spec hs hp (by decide) (not_lt.1 h2)) prepareLiteralOnly_loads
      | largeLiteral =>
        simp only [run_ensure]
        split_ifs with h1
        · exact arm_wait hb hk (by decide) (Nat.lt_add_right _ h1)
        · obtain ⟨second, tail', rfl, hs1⟩ := index_second hb (hb ▸ h1)
          simp only [hs1, run_ok_bind, run_ensure]
          split_ifs with h2
          · exact arm_wait hb hk (by decide) h2
          · exact arm_prepare hb hk (by decide) (by decide) rfl h2
              (prepareLiteralOnly_spec hs hp (by decide) (not_lt.1 h2)) prepareLiteralOnly_loads
      | smallMatch =>
        have h2 : ¬ c.self.unread.length < 1 := by rw [hb]; simp
        simp only [byte_and15]
        exact arm_prepare hb hk (by decide) (by decide) rfl h2
          (prepareMatchOnly_spec (r := .last) hs hp (by decide) (not_lt.1 h2)) prepareMatchOnly_loads
      | largeMatch =>
        simp only [run_ensure]
        split_ifs with h1
        · exact arm_wait hb hk (by decide) (Nat.lt_add_right _ h1)
        · obtain ⟨second, tail', rfl, hs1⟩ := index_second hb (hb ▸ h1)
          simp only [hs1, run_ok_bind]
          exact arm_prepare hb hk (by decide) (by decide) rfl h1
            (prepareMatchOnly_spec (r := .last) hs hp (by decide) (not_lt.1 h1)) prepareMatchOnly_loads
      | nop => exact arm_nop hs hp hb hk
      | eos => exact arm_eos hb hk

theorem run_instruction (hs : c.self.Ok) (hp : c.self.pending.isEmpty) (hw : c.written ≠ c.dst.length) :
    Instruction c (round.run c) (fetch c.self.unread) :=
  (run_dispatch hs hp hw).instruction

/-! ## Every round consumes input or clears pending work -/

theorem run_onRest_ok {α : Type} {m : Rust Target α} {c c' : Locals} {a : α} (h : EStateM.run (onRest m) c = .ok a c') :
    ∃ t, m.run (c.self, c.dst.drop c.written) = .ok a t ∧
      c' = { c with self := t.1, dst := c.dst.take c.written ++ t.2 } := by
  simp only [onRest, run_bind_ok, EStateM.run_get, run_lift_eq_ok, run_zoom] at h
  obtain ⟨_, _, h1, _, _, ⟨-, rfl⟩, h2⟩ := h
  cases h1
  cases hm : EStateM.run m (c.self, c.dst.drop c.written) with
  | error e t => rw [hm] at h2; cases h2
  | ok a' t =>
    rw [hm] at h2
    cases h2
    exact ⟨t, rfl, rfl⟩

theorem copyPendingLiteral_delivers {s s' : RawDecoder} {dst dst' : List UInt8} {count : ℕ}
    (h : copyPendingLiteral.run (s, dst) = .ok count (s', dst')) :
    count = min s.pending.literal dst.length ∧ s.inputOffset + count ≤ s.input.length ∧
      compactInputIfNecessary.run (s.deliverLiteral count) = .ok () s' := by
  simp only [copyPendingLiteral, run_bind_ok, EStateM.run_get, run_lift_eq_ok, EStateM.run_set] at h
  obtain ⟨_, _, h0, bytes, _, ⟨hslice, rfl⟩, _, _, ⟨-, rfl⟩, literal, _, ⟨hsub, rfl⟩, _, _, h1, _, _, h2, h3⟩ := h
  cases h0
  cases h1
  cases h3
  have hle : s.inputOffset + min s.pending.literal dst.length ≤ s.input.length := by
    unfold slice at hslice
    split_ifs at hslice with hb
    exact hb.2
  rw [slice_eq (Nat.le_add_right _ _) hle, Nat.add_sub_cancel_left] at hslice
  rw [sub_eq (min_le_left _ _)] at hsub
  cases hslice
  cases hsub
  refine ⟨rfl, hle, ?_⟩
  rw [onDecoder, run_zoom] at h2
  show compactInputIfNecessary.run { s with
    history := s.history ++ (s.input.drop s.inputOffset).take (min s.pending.literal dst.length)
    inputOffset := s.inputOffset + min s.pending.literal dst.length
    pending := { s.pending with literal := s.pending.literal - min s.pending.literal dst.length } } = _
  generalize compactInputIfNecessary.run _ = r at h2 ⊢
  cases r with
  | ok _ s1 =>
    cases h2
    rfl
  | error e s1 => cases h2

theorem copyPendingLiteral_ok {s s' : RawDecoder} {dst dst' : List UInt8} {count : ℕ}
    (h : copyPendingLiteral.run (s, dst) = .ok count (s', dst')) :
    s'.availableInput ≤ s.availableInput ∧ s'.pending.copy = s.pending.copy := by
  obtain ⟨-, hle, hcompact⟩ := copyPendingLiteral_delivers h
  obtain ⟨s1, hrun, hc⟩ := run_compactInputIfNecessary (s := s.deliverLiteral count) hle
  rw [hrun] at hcompact
  cases hcompact
  rw [hc.availableInput_eq, hc.pending_eq]
  exact ⟨by simp only [deliverLiteral, availableInput]; omega, rfl⟩

theorem copyPendingMatch_ok {s s' : RawDecoder} {dst dst' : List UInt8} {count : ℕ}
    (h : copyPendingMatch.run (s, dst) = .ok count (s', dst')) :
    s'.availableInput = s.availableInput ∧ s'.pending.literal = s.pending.literal := by
  simp only [copyPendingMatch, run_bind_ok, EStateM.run_get, run_lift_eq_ok, EStateM.run_set] at h
  obtain ⟨_, _, h0, _, _, ⟨-, rfl⟩, copy, _, ⟨-, rfl⟩, _, _, h1, h2⟩ := h
  cases h0
  cases h1
  cases h2
  exact ⟨rfl, rfl⟩

/-- input left and pending work left; every round that goes on lowers it -/
def measure (c : Locals) : ℕ :=
  3 * c.self.availableInput + (if c.self.pending.literal = 0 then 0 else 1) + if c.self.pending.copy = 0 then 0 else 1

theorem instruction_falls {c c' : Locals} (h : Instruction c (.ok none c') (fetch c.self.unread))
    (hlit : c.self.pending.literal = 0) (hcopy : c.self.pending.copy = 0) : measure c' < measure c := by
  cases hf : fetch c.self.unread with
  | short =>
    rw [hf] at h
    obtain ⟨_, -, hr⟩ := h
    split_ifs at hr
    cases hr
  | invalid op => rw [hf] at h; cases h
  | eos =>
    rw [hf] at h
    simp only [Instruction] at h
    cases he : finishError (c.self.unread.drop 1) <;> rw [he] at h <;> cases h
  | instr n step =>
    rw [hf] at h
    obtain ⟨-, w, -, hexec⟩ := h.of_instr
    have hlt := hexec.consumed
    simp only [measure]
    split_ifs <;> omega

/-- how a round goes on -/
inductive Again (c c' : Locals) : Prop where
  /-- the last pending literals are delivered -/
  | literal {count : ℕ} {dst : List UInt8} (pending : c.self.pending.literal ≠ 0)
    (run : copyPendingLiteral.run (c.self, c.dst.drop c.written) = .ok count (c'.self, dst))
    (done : c'.self.pending.literal = 0)
  /-- the last pending bytes of a match are delivered -/
  | copy {count : ℕ} {s : RawDecoder} {dst : List UInt8} (literal : c.self.pending.literal = 0)
    (pending : c.self.pending.copy ≠ 0)
    (run : copyPendingMatch.run (c.self, c.dst.drop c.written) = .ok count (s, dst)) (done : s.pending.copy = 0)
    (self : c'.self = { s with pending := { s.pending with distance := 0 } })
  | instruction (ok : c.self.Ok) (idle : c.self.pending.isEmpty) (room : c.written ≠ c.dst.length)

theorem round_again {c c' : Locals} (h : round.run c = .ok none c') : Again c c' := by
  rw [round, run_bind_ok] at h
  obtain ⟨_, _, h0, h⟩ := h
  cases h0
  by_cases hw : c.written = c.dst.length
  · rw [if_pos hw] at h
    cases h
  rw [if_neg hw] at h
  by_cases hlit : c.self.pending.literal = 0
  · rw [if_neg (not_not.2 hlit)] at h
    by_cases hcopy : c.self.pending.copy = 0
    · rw [if_neg (not_not.2 hcopy)] at h
      by_cases ha : c.self.availableInput = 0
      · rw [if_pos ha, run_bind_ok] at h
        obtain ⟨_, _, -, h⟩ := h
        split_ifs at h
        · rw [run_bind_ok] at h
          obtain ⟨_, _, -, h⟩ := h
          cases h
        · cases h
      · unfold availableInput at ha
        exact .instruction ⟨by omega, by omega, fun hne => absurd hcopy hne⟩ ⟨hlit, hcopy⟩ hw
    · rw [if_pos hcopy] at h
      simp only [run_bind_ok, EStateM.run_modify, EStateM.run_get] at h
      obtain ⟨count, c1, h1, _, _, h2, _, _, h3, h⟩ := h
      obtain ⟨⟨s1, dst1⟩, hm, rfl⟩ := run_onRest_ok h1
      cases h2
      cases h3
      split_ifs at h with hzero
      · cases h
      · cases h
        exact .copy hlit hcopy hm (not_not.1 hzero) rfl
  · rw [if_pos hlit] at h
    simp only [run_bind_ok, EStateM.run_modify, EStateM.run_get] at h
    obtain ⟨count, c1, h1, _, _, h2, _, _, h3, h⟩ := h
    obtain ⟨⟨s1, dst1⟩, hm, rfl⟩ := run_onRest_ok h1
    cases h2
    cases h3
    split_ifs at h with hzero
    · cases h
    · cases h
      exact .literal hlit hm (not_not.1 hzero)

theorem round_falls (c c' : Locals) (h : round.run c = .ok none c') : measure c' < measure c := by
  cases round_again h with
  | literal hlit hrun hdone =>
    obtain ⟨havail, hcopy⟩ := copyPendingLiteral_ok hrun
    simp only [measure, hlit, hcopy, hdone, ite_true, ite_false]
    omega
  | @copy count s dst hlit hcopy hrun hdone hself =>
    obtain ⟨havail, hlit'⟩ := copyPendingMatch_ok hrun
    simp only [measure, hself, hcopy, hlit, hlit', hdone, ite_true, ite_false]
    simp only [availableInput] at havail ⊢
    omega
  | instruction hs hp hw =>
    have hinstr := run_instruction hs hp hw
    rw [h] at hinstr
    exact instruction_falls hinstr hp.1 hp.2

/-! ## `decode_into` -/

/-- the `loop` in `decode_into` -/
def loop : Loop Locals (EStateM.Result Stop Locals StreamStatus) := Loop.ofMonadic round measure round_falls

/-- `decode_into`, on the decoder and the caller's buffer -/
def decodeInto : Rust Target StreamProgress := fun (self, dst) =>
  if self.trailingAfterFinish ≠ 0 then .error (.err (.trailingData self.trailingAfterFinish)) (self, dst)
  else if self.finished then .ok ⟨0, .finished⟩ (self, dst)
  else
    match loop.run ⟨self, dst, 0⟩ with
    | .ok status c => .ok ⟨c.written, status⟩ (c.self, c.dst)
    | .error e c => .error e (c.self, c.dst)

/-- `decode_into` on a decoder that has not finished -/
theorem run_decodeInto {s : RawDecoder} (htrail : s.trailingAfterFinish = 0) (hfin : s.finished = false)
    (dst : List UInt8) : decodeInto.run (s, dst) =
      match loop.run ⟨s, dst, 0⟩ with
      | .ok status c => .ok ⟨c.written, status⟩ (c.self, c.dst)
      | .error e c => .error e (c.self, c.dst) := by
  simp only [decodeInto, EStateM.run, htrail, hfin, ne_eq, not_true_eq_false, ite_false, Bool.false_eq_true]

/-- the decoder as a machine -/
def machine : Machine RawDecoder Call Reply := coder feed finishInput decodeInto

/-- the decoder on a machine of width `u` -/
def machineOn (u : Usize) : Machine RawDecoder Call Reply := coder (feedOn u) finishInput decodeInto

end RawDecoder

end Lzvn.Raw
