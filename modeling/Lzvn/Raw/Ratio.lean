/-
How much output a byte of input can give. No instruction gives more than 271 bytes for two of its own, so the output of a
stream, and the history of a decoder, are at most 135.5 times the input.

- `Encodes.size_le`, `Codes.length_le`: one instruction, and a list of them.
- `RawDecoder.run_bounded`: the incremental decoder in every run.
- `ratio_bounded`: that, one-shot decoding, and from the other side what `encode` can compress to.
-/
import Lzvn.Raw.RoundTrip
import Lzvn.Raw.StreamSafety

namespace Lzvn.Raw

open Lzvn.Core Lzvn.Core.Lz77

/-- an instruction gives at most 271 bytes for two of its own; a large match does -/
theorem Encodes.size_le {bytes : List UInt8} {s : Step UInt8} (h : Encodes bytes s) : 2 * s.size ≤ 271 * bytes.length := by
  obtain ⟨op, header, kind, rfl, -, he, hlen, hann⟩ := h
  have h0 := byteOr0_lt (op :: header) 0
  have h1 := byteOr0_lt (op :: header) 1
  rw [announces] at hann
  rw [List.length_append, hlen, Step.size]
  generalize byteOr0 (op :: header) 0 = first at hann h0
  generalize byteOr0 (op :: header) 1 = second at hann h1
  generalize byteOr0 (op :: header) 2 = third at hann
  cases kind <;> simp only [fields, Prod.mk.injEq] at hann <;> rw [← hann.1, ← hann.2] <;>
    simp only [headerLen, Option.map_some, Option.map_none, Option.getD_some, Option.getD_none] <;> omega

theorem Codes.length_le {bytes : List UInt8} {w w' : Window UInt8} (h : Codes bytes w w') :
    2 * w'.out.length ≤ 2 * w.out.length + 271 * bytes.length := by
  obtain ⟨steps, hp, hr⟩ := h
  induction hp generalizing w with
  | nil => cases hr; omega
  | @cons a b s steps head _ ih =>
    rw [replay_cons, Option.bind_eq_some_iff] at hr
    obtain ⟨w1, hw1, hr⟩ := hr
    have hstep := head.size_le
    have hsize := apply_length hw1
    have hrest := ih hr
    rw [List.length_append]
    omega

/-! ## Incremental decoding -/

/-- a scan gains at most 271 bytes for two that it goes through -/
theorem scan_length_le (c : Cursor) :
    2 * (scan c).1.win.out.length + 271 * c.pos ≤ 2 * c.win.out.length + 271 * (scan c).1.pos := by
  obtain ⟨body, -, hcodes, hpos, -⟩ := scan_spec c
  have hle := hcodes.length_le
  omega

namespace RawDecoder

/-- what the scan behind the pending work comes to is in the ratio to the position that it comes to -/
def Ahead (s : RawDecoder) : Prop := 2 * (scan s.resume).1.win.out.length ≤ 271 * (scan s.resume).1.pos

/-- `s` holds the input `q`, and has no more history than that can give -/
structure Bounded (s : RawDecoder) (q : List UInt8) : Prop where
  safe : Safe s q
  history : 2 * s.history.length ≤ 271 * q.length
  ahead : s.finished = false → Ahead s

/-- a scan does not leave the input -/
theorem Safe.scan_pos_le {s : RawDecoder} {q : List UInt8} (h : Safe s q) : (scan s.resume).1.pos ≤ q.length := by
  have hend := scan_end s.resume
  have hin := resume_end h.ok
  have hlen := congrArg List.length h.retained
  have hbase := h.base_le
  rw [List.length_drop] at hlen
  omega

theorem Bounded.of_ahead {s : RawDecoder} {q : List UInt8} (h : Safe s q) (ha : Ahead s) : Bounded s q := by
  refine ⟨h, ?_, fun _ => ha⟩
  have hhist := (history_le_resume s).length_le
  have hscan := (le_scan s.resume).length_le
  have hpos := h.scan_pos_le
  unfold Ahead at ha
  omega

theorem Bounded.feed {s : RawDecoder} {q : List UInt8} (h : Bounded s q) (input : List UInt8) :
    Bounded (feed input s) (q ++ Call.accepted s.finished (.feed input)) := by
  have hsafe := step_safe h.safe (.feed input)
  cases hfin : s.finished with
  | false =>
    rw [hfin] at hsafe
    refine .of_ahead hsafe ?_
    have ha := h.ahead hfin
    unfold Ahead at ha ⊢
    rw [feed_running hfin, resume_feed h.safe.ok, scan_more]
    split_ifs
    · have hle := scan_length_le ((scan s.resume).1.more input)
      have hpos : ((scan s.resume).1.more input).pos = (scan s.resume).1.pos := rfl
      rw [Cursor.more_win, hpos] at hle
      omega
    · exact ha
  | true =>
    rw [hfin] at hsafe
    have hsame : (RawDecoder.feed input s).history = s.history ∧ (RawDecoder.feed input s).finished = s.finished :=
      ⟨feed_history input s, feed_finished input s⟩
    refine ⟨hsafe, ?_, fun hrun => by rw [hsame.2, hfin] at hrun; cases hrun⟩
    have hhist := h.history
    rw [hsame.1, List.length_append]
    omega

/-- an answer leaves the scan alone, or ends it, or steps over an EOS opcode -/
theorem Bounded.answers {s s' : RawDecoder} {q dst : List UInt8} (h : Bounded s q) (hf : s.finished = false)
    (hsafe : Safe s' q) {t : Cursor} {v : Verdict} (hscan : scan s.resume = (t, v))
    {r : EStateM.Result Stop Target StreamProgress} (ha : Answers s dst t v r)
    (hr : (replied r).1 = s') : Bounded s' q := by
  have hahead := h.ahead hf
  unfold Ahead at hahead
  have continues {delta : List UInt8} (hc : Continues s s' delta) : Bounded s' q := by
    refine .of_ahead hsafe ?_
    have hsame := hc.scan []
    rw [Cursor.more_nil, Cursor.more_nil] at hsame
    unfold Ahead
    rwa [hsame]
  cases ha with
  | @needOutput s1 _ _ _ after =>
    obtain rfl : s1 = s' := hr
    exact continues after
  | @needInput s1 _ _ _ after =>
    obtain rfl : s1 = s' := hr
    exact continues after
  | @rejected s1 _ _ _ _ after =>
    obtain rfl : s1 = s' := hr
    exact continues after
  | @finished s1 _ _ out after =>
    obtain rfl : s1 = s' := hr
    have hpos := h.safe.scan_pos_le
    rw [hscan] at hahead hpos
    refine ⟨hsafe, ?_, fun hrun => by rw [after.finished] at hrun; cases hrun⟩
    rw [after.history, out]
    dsimp only at hahead hpos
    omega
  | @trailing s1 _ _ _ _ after =>
    obtain rfl : s1 = s' := hr
    refine .of_ahead hsafe ?_
    have hle := scan_length_le s1.resume
    rw [hscan] at hahead
    rw [after.resume] at hle
    dsimp only at hahead hle
    unfold Ahead
    rw [after.resume]
    omega

/-- **Every call** keeps the history in the ratio to the input. -/
theorem step_bounded {s : RawDecoder} {q : List UInt8} (h : Bounded s q) (c : Call) :
    Bounded (machine.step s c).1 (q ++ c.accepted s.finished) := by
  have hsafe := step_safe h.safe c
  cases c with
  | feed input => exact h.feed input
  | finishInput =>
    have hnil : Call.accepted s.finished .finishInput = [] := by simp [Call.accepted, Call.fed]
    rw [hnil, List.append_nil] at hsafe ⊢
    exact ⟨hsafe, h.history, h.ahead⟩
  | produce dst =>
    have hnil : Call.accepted s.finished (.produce dst) = [] := by simp [Call.accepted, Call.fed]
    rw [hnil, List.append_nil] at hsafe ⊢
    have hp := step_produces h.safe.ok dst
    generalize machine.step s (.produce dst) = x at hp hsafe ⊢
    cases hp with
    | trailing => exact h
    | finished => exact h
    | progress _ hf hscan ha => exact h.answers hf hsafe hscan ha rfl
    | failed _ hf hscan ha => exact h.answers hf hsafe hscan ha rfl

/-- **The history is bounded by the input** in every run. -/
theorem run_bounded (calls : List Call) : Bounded (machine.run new calls) (accepted calls) := by
  have hnew : Bounded new [] := ⟨run_safe [], Nat.zero_le _, fun _ => Nat.zero_le _⟩
  exact machine.run_gather_inv Bounded (fun s q c h => step_bounded h c) new [] hnew calls

end RawDecoder

/-- **Ratios are bounded.** A stream that `decode` accepts gives at most 271 bytes for every two in front of its last byte, and
so `encode` writes at least two bytes for every 271 of its source, and the end marker. The history that an incremental decoder
keeps is at most 271 bytes for every two that it was fed, whatever the order of the calls is and also when calls fail. -/
theorem ratio_bounded (u : Usize) (src out : List UInt8) (calls : List Call) :
    (∀ n, decode u src n = .ok out → 2 * out.length ≤ 271 * (src.length - 1)) ∧
    (encode src = .ok out → 2 * src.length ≤ 271 * (out.length - 8)) ∧
    2 * (RawDecoder.machine.run .new calls).history.length ≤ 271 * (RawDecoder.accepted calls).length := by
  refine ⟨?_, ?_, (RawDecoder.run_bounded calls).history⟩
  · intro n h
    obtain ⟨-, ⟨body, steps, k, w, rfl, -, hp, hr, rfl⟩, -⟩ := decode_ok_iff.1 h
    have hle := Codes.length_le ⟨steps, hp, hr⟩
    have hinit : (Window.init : Window UInt8).out.length = 0 := rfl
    rw [List.length_append, List.length_cons]
    omega
  · intro h
    obtain ⟨body, w, he, hcodes, rfl⟩ := encode_spec src
    rw [h] at he
    cases he
    have hle := hcodes.length_le
    have hinit : (Window.init : Window UInt8).out.length = 0 := rfl
    have heos : eos.length = 8 := rfl
    rw [List.length_append, heos]
    omega

/-- one literal in a stream of three bytes -/
theorem literal_ratio : 2 * [(0x61 : UInt8)].length ≤ 271 * ([(0xE1 : UInt8), 0x61, 0x06].length - 1) :=
  (ratio_bounded .bits64 [0xE1, 0x61, 0x06] [0x61] []).1 1 (by decide +kernel)

end Lzvn.Raw
