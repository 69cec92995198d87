/-
Truncated streams. A stream cut before its EOS opcode ends within an instruction, or where the EOS opcode should be, and the
one-shot decoder says so before it looks at the room or at a distance.

- `Splits`: a stream cut into its instructions. `Splits.unique`: in one way only.
- `cutStart`: the start of the instruction at which a cut is noticed, `cutStart_spec`.
- `scan_take`: a scan of a cut stream goes up to there.
- `truncation_detected`: so does `decode_into`.
-/
import Lzvn.Raw.DecodeGrammar

namespace Lzvn.Raw

open Lzvn.Core Lzvn.Core.Lz77

/-! ## Instructions of a stream -/

/-- `src` is the instructions `instrs`, the EOS opcode and `padding` -/
structure Splits (src : List UInt8) (instrs : List (List UInt8)) (padding : List UInt8) : Prop where
  eq : src = instrs.flatten ++ 0x06 :: padding
  encodes : ∀ a ∈ instrs, ∃ s, Encodes a s

theorem Splits.tail {src a padding : List UInt8} {instrs : List (List UInt8)} (h : Splits src (a :: instrs) padding) :
    Splits (src.drop a.length) instrs padding := by
  refine ⟨?_, fun b hb => h.encodes b (List.mem_cons_of_mem _ hb)⟩
  rw [h.eq, List.flatten_cons, List.append_assoc, List.drop_left]

theorem Splits.fetch_head {src a padding : List UInt8} {instrs : List (List UInt8)} (h : Splits src (a :: instrs) padding) :
    ∃ s, Encodes a s ∧ fetch src = .instr a.length s := by
  obtain ⟨s, hs⟩ := h.encodes a List.mem_cons_self
  refine ⟨s, hs, ?_⟩
  rw [h.eq, List.flatten_cons, List.append_assoc]
  exact encodes_fetch hs _

theorem Splits.fetch_end {src padding : List UInt8} (h : Splits src [] padding) : fetch src = .eos :=
  fetch_eos_iff.2 ⟨padding, h.eq⟩

/-- a stream has one list of instructions -/
theorem Splits.unique {src p p' : List UInt8} {instrs instrs' : List (List UInt8)} (h : Splits src instrs p)
    (h' : Splits src instrs' p') : instrs' = instrs := by
  induction instrs generalizing src instrs' with
  | nil =>
    cases instrs' with
    | nil => rfl
    | cons b instrs' =>
      obtain ⟨s, -, hf⟩ := h'.fetch_head
      rw [h.fetch_end] at hf
      cases hf
  | cons a instrs ih =>
    obtain ⟨s, -, hf⟩ := h.fetch_head
    cases instrs' with
    | nil =>
      rw [h'.fetch_end] at hf
      cases hf
    | cons b instrs' =>
      obtain ⟨s', -, hf'⟩ := h'.fetch_head
      rw [hf] at hf'
      have hlen : a.length = b.length := (Fetch.instr.inj hf').1
      have hsplit := h.eq.symm.trans h'.eq
      rw [List.flatten_cons, List.flatten_cons, List.append_assoc, List.append_assoc] at hsplit
      obtain ⟨rfl, -⟩ := List.append_inj hsplit hlen
      rw [ih h.tail h'.tail]

theorem Program.splits {body : List UInt8} {steps : List (Step UInt8)} (h : Program body steps) :
    ∃ instrs : List (List UInt8), instrs.flatten = body ∧ ∀ a ∈ instrs, ∃ s, Encodes a s := by
  induction h with
  | nil => exact ⟨[], rfl, by simp⟩
  | @cons a b s steps head _ ih =>
    obtain ⟨instrs, rfl, hall⟩ := ih
    refine ⟨a :: instrs, rfl, ?_⟩
    intro x hx
    rcases List.mem_cons.1 hx with rfl | hx
    · exact ⟨s, head⟩
    · exact hall x hx

/-! ## Cuts -/

/-- the start of the first instruction that is not wholly within the first `k` bytes -/
def cutStart : List (List UInt8) → ℕ → ℕ
  | [], _ => 0
  | a :: instrs, k => if k < a.length then 0 else a.length + cutStart instrs (k - a.length)

theorem cutStart_spec (instrs : List (List UInt8)) (k : ℕ) : ∃ whole cut, instrs = whole ++ cut ∧
    cutStart instrs k = whole.flatten.length ∧ whole.flatten.length ≤ k ∧
    ∀ a rest, cut = a :: rest → k < whole.flatten.length + a.length := by
  induction instrs generalizing k with
  | nil => exact ⟨[], [], rfl, rfl, Nat.zero_le _, by simp⟩
  | cons a instrs ih =>
    rw [cutStart]
    split_ifs with hlt
    · refine ⟨[], a :: instrs, rfl, rfl, Nat.zero_le _, ?_⟩
      intro b rest hb
      cases hb
      simpa using hlt
    · obtain ⟨whole, cut, rfl, hstart, hle, hcut⟩ := ih (k - a.length)
      refine ⟨a :: whole, cut, rfl, ?_, ?_, ?_⟩
      · rw [hstart, List.flatten_cons, List.length_append]
      · rw [List.flatten_cons, List.length_append]
        omega
      · intro b rest hb
        have := hcut b rest hb
        rw [List.flatten_cons, List.length_append]
        omega

/-- **A scan of a cut stream** stops where the cut is noticed, with a part of the output of the whole. -/
theorem scan_take {src padding : List UInt8} {instrs : List (List UInt8)} (h : Splits src instrs padding) {k : ℕ}
    (hk : k ≤ instrs.flatten.length) (pos : ℕ) (win : Window UInt8) (heos : (scan ⟨pos, src, win⟩).2 = .eos) :
    ∃ t, scan ⟨pos, src.take k, win⟩ = (t, .short) ∧ t.pos = pos + cutStart instrs k ∧
      t.win.out <+: (scan ⟨pos, src, win⟩).1.win.out := by
  induction instrs generalizing src k pos win with
  | nil =>
    obtain rfl : k = 0 := Nat.le_zero.1 hk
    exact ⟨⟨pos, [], win⟩, scan_leave rfl, rfl, le_scan ⟨pos, src, win⟩⟩
  | cons a instrs ih =>
    obtain ⟨s, hs, hf⟩ := h.fetch_head
    have hsrc : src = a ++ src.drop a.length := by rw [h.tail.eq, h.eq, List.flatten_cons, List.append_assoc]
    rw [cutStart]
    split_ifs with hlt
    · -- the cut is within this instruction
      have hcut : fetch (src.take k) = .short := by
        refine fetch_short_iff.2 ⟨a.drop k, s, ?_, ?_⟩
        · rw [ne_eq, List.drop_eq_nil_iff]
          exact not_le.2 hlt
        · rw [hsrc, List.take_append_of_le_length hlt.le, List.take_append_drop]
          exact hs
      exact ⟨⟨pos, src.take k, win⟩, scan_leave (by rw [scanRound, hcut]), rfl, le_scan ⟨pos, src, win⟩⟩
    · have hle : a.length ≤ k := not_lt.1 hlt
      have htake : src.take k = a ++ (src.drop a.length).take (k - a.length) := by
        nth_rewrite 1 [hsrc]
        rw [List.take_append, List.take_of_length_le hle]
      have hcut : fetch (src.take k) = .instr a.length s := by
        rw [htake]
        exact encodes_fetch hs _
      cases hw : win.apply s with
      | none =>
        have hbad : scan ⟨pos, src, win⟩ = (⟨pos, src, win⟩, .badDistance s) :=
          scan_leave (by simp only [scanRound, hf, hw])
        rw [hbad] at heos
        cases heos
      | some w =>
        have hscan : scan ⟨pos, src, win⟩ = scan ⟨pos + a.length, src.drop a.length, w⟩ :=
          scan_instr (c := ⟨pos, src, win⟩) hf hw
        have hrest : k - a.length ≤ instrs.flatten.length := by
          rw [List.flatten_cons, List.length_append] at hk
          omega
        rw [hscan] at heos ⊢
        obtain ⟨t, ht, hpos, hout⟩ := ih h.tail hrest (pos + a.length) w heos
        refine ⟨t, ?_, by rw [hpos, Nat.add_assoc], hout⟩
        rw [scan_instr (c := ⟨pos, src.take k, win⟩) hcut hw, htake]
        simpa only [List.drop_left] using ht

/-- **Truncation is always detected.** A stream that `decode_into` accepts has one list of instructions in front of its EOS
opcode; cut anywhere in front of that opcode, it is rejected at the first instruction that is not wholly there. -/
theorem truncation_detected {src dst0 dst1 : List UInt8} {n : ℕ} (h : (decodeInto src).run dst0 = .ok n dst1) :
    ∃ instrs padding, Splits src instrs padding ∧ (∀ instrs' padding', Splits src instrs' padding' → instrs' = instrs) ∧
      ∀ k ≤ instrs.flatten.length, ∀ dst : List UInt8, n ≤ dst.length →
        ∃ dst', (decodeInto (src.take k)).run dst = .error (.err (.truncatedInput (cutStart instrs k))) dst' := by
  obtain ⟨out, hstream, rfl, -, -⟩ := decodeInto_ok_iff.1 h
  obtain ⟨heos, -, hout⟩ := isStream_iff_scan.1 hstream
  obtain ⟨body, steps, z, w, rfl, -, hprogram, -, -⟩ := hstream
  obtain ⟨instrs, rfl, hall⟩ := hprogram.splits
  have hsplits : Splits (instrs.flatten ++ 0x06 :: List.replicate z 0) instrs (List.replicate z 0) := ⟨rfl, hall⟩
  refine ⟨instrs, _, hsplits, fun _ _ h' => hsplits.unique h', ?_⟩
  intro k hk dst hroom
  obtain ⟨t, ht, hpos, hpart⟩ := scan_take hsplits hk 0 Window.init heos
  have hcut : scan (Cursor.start ((instrs.flatten ++ 0x06 :: List.replicate z 0).take k)) = (t, .short) := ht
  obtain ⟨dst', hrun⟩ := decodeInto_run _ dst hcut
  have hfits : room t .short ≤ dst.length := by
    have hle := hpart.length_le
    rw [Cursor.start] at hout
    rw [hout] at hle
    exact hle.trans hroom
  rw [if_pos hfits] at hrun
  refine ⟨dst', ?_⟩
  rw [hrun.1, streamError, hpos, Nat.zero_add]

/-- one literal without its end marker -/
theorem literal_truncated : ∃ dst', (decodeInto [0xE1, 0x61]).run [0, 0] = .error (.err (.truncatedInput 2)) dst' := by
  obtain ⟨instrs, padding, -, hunique, hcuts⟩ :=
    truncation_detected (show (decodeInto [0xE1, 0x61, 0x06]).run [0] = .ok 1 [0x61] from rfl)
  have hsplits : Splits [0xE1, 0x61, 0x06] [[0xE1, 0x61]] [] := by
    refine ⟨rfl, ?_⟩
    intro a ha
    obtain rfl := List.mem_singleton.1 ha
    exact ⟨⟨[0x61], none⟩, 0xE1, [], .smallLiteral, rfl, rfl, by decide, rfl, rfl⟩
  obtain rfl := hunique _ _ hsplits
  exact hcuts 2 (by decide) [0, 0] (by decide)

end Lzvn.Raw
