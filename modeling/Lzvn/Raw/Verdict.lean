/-
The whole behaviour of one-shot decoding: what `decode_into` returns and what it leaves in the buffer, for every input and
every buffer, also where it fails.

- `Reports`: what is reported behind a list of instructions, in terms of the grammar.
- `run_reports`: the loop of `Decoder::run` goes through the instructions and reports that.
- `exists_reports`: every input has such a list of instructions.
- `decoders_report`: `decode_into` returns exactly the report, with the output of the instructions in front of the rest of the
  buffer, and `decode` the same for a buffer of the declared length.
- `decodeInto_threshold`: a buffer decides no more than whether it is too small.
-/
import Lzvn.Raw.DecodeGrammar

namespace Lzvn.Raw

open Lzvn.Core Lzvn.Core.Lz77

/-- what a decoder reports at offset `pos`, where `rest` is still to come behind window `w` and the buffer has `capacity`
bytes in all -/
inductive Reports (capacity pos : ℕ) (w : Window UInt8) (rest : List UInt8) : Except Error ℕ → Prop where
  /-- a part of an instruction, or nothing -/
  | truncatedInput {more : List UInt8} {s : Step UInt8} (missing : more ≠ []) (instr : Encodes (rest ++ more) s) :
    Reports capacity pos w rest (.error (.truncatedInput pos))
  | invalidOpcode {op : UInt8} {tail : List UInt8} (bytes : rest = op :: tail) (undefined : classify op = none) :
    Reports capacity pos w rest (.error (.invalidOpcode pos op))
  /-- room is checked before the distance -/
  | outputTooSmall {a tail : List UInt8} {s : Step UInt8} (instr : Encodes a s) (bytes : rest = a ++ tail)
    (full : capacity < w.out.length + s.size) : Reports capacity pos w rest (.error (.outputTooSmall w.out.length capacity))
  | invalidMatchDistance {a tail : List UInt8} {s : Step UInt8} (instr : Encodes a s) (bytes : rest = a ++ tail)
    (fits : w.out.length + s.size ≤ capacity) (far : w.apply s = none) :
    Reports capacity pos w rest
      (.error (.invalidMatchDistance (s.distance w) (w.out.length + s.literals.length)))
  | trailingBytes {padding : List UInt8} (bytes : rest = 0x06 :: padding) (nonzero : ∃ b ∈ padding, b ≠ 0) :
    Reports capacity pos w rest (.error (.trailingData padding.length))
  | trailingZeros {padding : List UInt8} (bytes : rest = 0x06 :: padding) (zeros : ∀ b ∈ padding, b = 0)
    (long : 7 < padding.length) : Reports capacity pos w rest (.error (.trailingData (padding.length - 7)))
  | ok {padding : List UInt8} (bytes : rest = 0x06 :: padding) (pad : padOk padding) :
    Reports capacity pos w rest (.ok w.out.length)

/-- `src` is a list of instructions that fits into `capacity` bytes and gives `out`, and then what is reported -/
def Decodes (src : List UInt8) (capacity : ℕ) (out : List UInt8) (report : Except Error ℕ) : Prop :=
  ∃ body rest w, src = body ++ rest ∧ Codes body Window.init w ∧ w.out = out ∧ out.length ≤ capacity ∧
    Reports capacity body.length w rest report

/-- a report with the buffer behind it -/
def leaves (report : Except Error ℕ) (dst : List UInt8) : EStateM.Result Stop (List UInt8) ℕ :=
  match report with
  | .ok n => .ok n dst
  | .error e => .error (.err e) dst

/-- the report of the padding behind an EOS opcode -/
theorem reports_eos (capacity pos : ℕ) (w : Window UInt8) (padding : List UInt8) :
    Reports capacity pos w (0x06 :: padding) (match finishError padding with
      | some e => .error e
      | none => .ok w.out.length) := by
  by_cases hpad : padOk padding
  · rw [finishError_none.2 hpad]
    exact .ok rfl hpad
  · unfold finishError
    split_ifs with hany hlong
    · simp only [List.any_eq_true, decide_eq_true_eq] at hany
      exact .trailingBytes rfl hany
    · simp only [List.any_eq_true, decide_eq_true_eq, not_exists, not_and, not_not] at hany
      exact .trailingZeros rfl hany hlong
    · simp only [List.any_eq_true, decide_eq_true_eq, not_exists, not_and, not_not] at hany
      exact absurd ⟨hany, not_lt.1 hlong⟩ hpad

/-- **Every input** is a list of instructions that fits, and then something to report. -/
theorem exists_reports (capacity : ℕ) (c : Cursor) (hfit : c.win.out.length ≤ capacity) : ∃ body rest w report,
    c.bytes = body ++ rest ∧ Codes body c.win w ∧ w.out.length ≤ capacity ∧
      Reports capacity (c.pos + body.length) w rest report := by
  induction hn : c.bytes.length using Nat.strong_induction_on generalizing c with
  | _ n ih =>
    subst hn
    have stop {report : Except Error ℕ} (h : Reports capacity c.pos c.win c.bytes report) : ∃ body rest w report,
        c.bytes = body ++ rest ∧ Codes body c.win w ∧ w.out.length ≤ capacity ∧
          Reports capacity (c.pos + body.length) w rest report :=
      ⟨[], c.bytes, c.win, report, rfl, .refl _, hfit, h⟩
    cases hf : fetch c.bytes with
    | short =>
      obtain ⟨more, s, hne, henc⟩ := fetch_short_iff.1 hf
      exact stop (.truncatedInput hne henc)
    | invalid op =>
      obtain ⟨tail, hb, hk⟩ := fetch_invalid_iff.1 hf
      exact stop (.invalidOpcode hb hk)
    | eos =>
      obtain ⟨tail, hb⟩ := fetch_eos_iff.1 hf
      exact stop (hb ▸ reports_eos capacity c.pos c.win tail)
    | instr k s =>
      obtain ⟨hpos, hle, henc⟩ := fetch_encodes hf
      have hsplit : c.bytes = c.bytes.take k ++ c.bytes.drop k := (List.take_append_drop k c.bytes).symm
      by_cases hfull : capacity < c.win.out.length + s.size
      · exact stop (.outputTooSmall henc hsplit hfull)
      · cases hw : c.win.apply s with
        | none => exact stop (.invalidMatchDistance henc hsplit (not_lt.1 hfull) hw)
        | some w =>
          have hsize := apply_length hw
          obtain ⟨body, rest, w', report, hb, hcodes, hfit', hreport⟩ :=
            ih (c.bytes.drop k).length (by rw [List.length_drop]; omega) ⟨c.pos + k, c.bytes.drop k, w⟩
              (by show w.out.length ≤ capacity; omega) rfl
          refine ⟨c.bytes.take k ++ body, rest, w', report, ?_, (Codes.single henc hw).trans hcodes, hfit', ?_⟩
          · rw [List.append_assoc, ← hb, ← hsplit]
          · rwa [List.length_append, List.length_take, min_eq_left hle, ← Nat.add_assoc]

namespace Decoder

variable {src rest : List UInt8} {c : Cursor}

/-- rounds that go on do not change what the loop comes to -/
theorem run_goes {d d' : Decoder} (h : Relation.ReflTransGen Goes d d') : run.run d = run.run d' := by
  induction h with
  | refl => rfl
  | @tail d1 d2 _ hround ih =>
    have hagain : loop.body d1 = .again d2 := Loop.flow_again.2 hround
    exact ih.trans (loop.run_again hagain)

/-- the loop stops with the report -/
theorem run_reports {report : Except Error ℕ} (hc : c.bytes = src.drop c.pos)
    (h : Reports (c.win.out.length + rest.length) c.pos c.win c.bytes report) : ∃ d, d.dst = c.win.out ++ rest ∧
      match report with
      | .ok n => run.run (ofCursor src rest c) = .ok () d ∧ d.output = n
      | .error e => run.run (ofCursor src rest c) = .error (.err e) d := by
  have hbody : loop.body (ofCursor src rest c) = _ := flow_round hc
  have stop {e : Error} (h : roundResult src rest c (fetch c.bytes) = .error (.err e) (ofCursor src rest c)) :
      ∃ d : Decoder, d.dst = c.win.out ++ rest ∧ run.run (ofCursor src rest c) = .error (.err e) d := by
    rw [h] at hbody
    exact ⟨ofCursor src rest c, rfl, loop.run_leave hbody⟩
  have ends {tail : List UInt8} (hb : c.bytes = 0x06 :: tail) : ∃ d : Decoder, d.dst = c.win.out ++ rest ∧
      d.output = c.win.out.length ∧ run.run (ofCursor src rest c) = match finishError tail with
        | some e => .error (.err e) d
        | none => .ok () d := by
    obtain ⟨d, hfin, hdst, hout⟩ := run_finish rest hc hb
    rw [fetch_eos_iff.2 ⟨tail, hb⟩, roundResult, hfin] at hbody
    refine ⟨d, hdst, hout, ?_⟩
    cases hpad : finishError tail with
    | none => rw [hpad] at hbody; exact loop.run_leave hbody
    | some e => rw [hpad] at hbody; exact loop.run_leave hbody
  cases h with
  | truncatedInput missing instr =>
    exact stop (by rw [fetch_short_iff.2 ⟨_, _, missing, instr⟩]; rfl)
  | invalidOpcode bytes undefined =>
    exact stop (by rw [fetch_invalid_iff.2 ⟨_, bytes, undefined⟩]; rfl)
  | outputTooSmall instr bytes full =>
    refine stop ?_
    rw [bytes, encodes_fetch instr, roundResult, exec, if_pos (by omega)]
  | invalidMatchDistance instr bytes fits far =>
    refine stop ?_
    rw [bytes, encodes_fetch instr, roundResult, exec, if_neg (by omega), far]
  | @trailingBytes padding bytes nonzero =>
    obtain ⟨d, hdst, -, hrun⟩ := ends bytes
    refine ⟨d, hdst, ?_⟩
    have hany : padding.any (· ≠ 0) = true := by simpa using nonzero
    rwa [finishError, if_pos hany] at hrun
  | @trailingZeros padding bytes zeros long =>
    obtain ⟨d, hdst, -, hrun⟩ := ends bytes
    refine ⟨d, hdst, ?_⟩
    have hany : ¬ padding.any (· ≠ 0) = true := by simpa using zeros
    rwa [finishError, if_neg hany, if_pos (show padding.length > maxEosPadding from long)] at hrun
  | ok bytes pad =>
    obtain ⟨d, hdst, hout, hrun⟩ := ends bytes
    rw [finishError_none.2 pad] at hrun
    exact ⟨d, hdst, hrun, hout⟩

end Decoder

open Decoder

/-- what is reported is what `decode_into` returns -/
theorem run_decodes {src dst out : List UInt8} {report : Except Error ℕ} (h : Decodes src dst.length out report) :
    (decodeInto src).run dst = leaves report (out ++ dst.drop out.length) := by
  obtain ⟨body, rest, w, rfl, hcodes, rfl, hfit, hreport⟩ := h
  have hgoes : Relation.ReflTransGen Goes (ofCursor (body ++ rest) dst (Cursor.start (body ++ rest))) _ :=
    goes_codes hcodes rfl rfl (hfit.trans (Nat.le_add_left _ _))
  have hzero : (Cursor.start (body ++ rest)).win.out.length = 0 := rfl
  rw [hzero, Nat.sub_zero] at hgoes
  set c : Cursor := ⟨(Cursor.start (body ++ rest)).pos + body.length, rest, w⟩ with hcdef
  have hpos : c.pos = body.length := Nat.zero_add _
  have hcapacity : c.win.out.length + (dst.drop w.out.length).length = dst.length := by
    rw [List.length_drop]
    exact Nat.add_sub_cancel' hfit
  have hbytes : c.bytes = (body ++ rest).drop c.pos := by rw [hpos, List.drop_left]
  have hbehind : Reports (c.win.out.length + (dst.drop w.out.length).length) c.pos c.win c.bytes report := by
    rw [hcapacity, hpos]
    exact hreport
  obtain ⟨d, hdst, hrun⟩ := run_reports hbytes hbehind
  have hstart : Decoder.run.run ⟨body ++ rest, dst, 0, 0, 0⟩ =
      Decoder.run.run (ofCursor (body ++ rest) (dst.drop w.out.length) c) := run_goes hgoes
  change decodeInto (body ++ rest) dst = _
  rw [decodeInto, hstart]
  cases report with
  | ok n =>
    obtain ⟨hok, rfl⟩ := hrun
    rw [hok, ← hdst, leaves]
  | error e => rw [hrun, ← hdst, leaves]

theorem exists_decodes (src : List UInt8) (capacity : ℕ) : ∃ out report, Decodes src capacity out report := by
  obtain ⟨body, rest, w, report, hb, hcodes, hfit, hreport⟩ :=
    exists_reports capacity (Cursor.start src) (Nat.zero_le capacity)
  have hpos : (Cursor.start src).pos + body.length = body.length := Nat.zero_add _
  rw [hpos] at hreport
  exact ⟨w.out, report, body, rest, w, hb, hcodes, rfl, hfit, hreport⟩

/-! ## Where the length is declared -/

/-- what a report with `n` bytes means where `size` are expected -/
def sized (size : ℕ) : Except Error ℕ → Except Error ℕ
  | .ok n => if n = size then .ok n else .error (.sizeMismatch size n)
  | .error e => .error e

/-- a report with the vector that is returned -/
def returns (report : Except Error ℕ) (out : List UInt8) : Except Stop (List UInt8) :=
  match report with
  | .ok _ => .ok out
  | .error e => .error (.err e)

/-- the check of what is written against what is declared -/
theorem leaves_sized (size : ℕ) (report : Except Error ℕ) (dst : List UInt8) : leaves (sized size report) dst =
    match leaves report dst with
    | .ok n dst => if n ≠ size then .error (.err (.sizeMismatch size n)) dst else .ok n dst
    | .error e dst => .error e dst := by
  cases report with
  | error e => rfl
  | ok n => by_cases h : n = size <;> simp [leaves, sized, h]

/-- the same check on a buffer of the declared size that is returned -/
theorem returns_sized {size : ℕ} {report : Except Error ℕ} {out : List UInt8} (hout : ∀ n, report = .ok n → out.length = n) :
    returns (sized size report) out = match leaves report (out ++ (List.replicate size 0).drop out.length) with
      | .ok n dst => if n ≠ size then fail (.sizeMismatch size n) else .ok dst
      | .error e _ => .error e := by
  cases report with
  | error e => rfl
  | ok n =>
    obtain rfl := hout n rfl
    by_cases hn : out.length = size
    · have hrest : out ++ (List.replicate size (0 : UInt8)).drop out.length = out := by
        rw [List.drop_of_length_le (by rw [List.length_replicate, hn]), List.append_nil]
      simp only [leaves, returns, sized, if_pos hn, if_neg (not_not.2 hn), hrest]
    · simp only [leaves, returns, sized, if_neg hn, if_pos (show out.length ≠ size from hn)]
      rfl

theorem Decodes.length_ok {src out : List UInt8} {capacity n : ℕ} (h : Decodes src capacity out (.ok n)) : out.length = n := by
  obtain ⟨_, _, w, -, -, rfl, -, hreport⟩ := h
  cases hreport
  rfl

/-- what is reported for a buffer of the declared size is what `decode` returns -/
theorem decode_decodes {u : Usize} {src out : List UInt8} {size : ℕ} {report : Except Error ℕ} (hsize : size ≤ u.isizeMax)
    (h : Decodes src size out report) : decode u src size = returns (sized size report) out := by
  have hzeros : u.zeros size = .ok (List.replicate size 0) := if_pos hsize
  have hdecodes : Decodes src (List.replicate size (0 : UInt8)).length out report := by rwa [List.length_replicate]
  have hrun := run_decodes hdecodes
  rw [decode, hzeros, except_ok_bind, hrun, returns_sized fun n hn => Decodes.length_ok (hn ▸ h)]
  cases report <;> rfl

/-! ## The whole decoder -/

/-- **The decoders, whole.** On every input and every buffer `decode_into` returns exactly what is reported behind the
instructions that fit, and leaves their output in front of the rest of the buffer, also when it fails. `decode` returns what is
reported for a buffer of the declared length, or that the lengths differ, and panics when there can be no such buffer. -/
theorem decoders_report (u : Usize) (src : List UInt8) :
    (∀ (dst : List UInt8) (r : EStateM.Result Stop (List UInt8) ℕ), (decodeInto src).run dst = r ↔
      ∃ out report, Decodes src dst.length out report ∧ r = leaves report (out ++ dst.drop out.length)) ∧
    ∀ (size : ℕ) (r : Except Stop (List UInt8)), decode u src size = r ↔ (u.isizeMax < size ∧ r = .error .panic) ∨
      size ≤ u.isizeMax ∧ ∃ out report, Decodes src size out report ∧ r = returns (sized size report) out := by
  constructor
  · intro dst r
    constructor
    · rintro rfl
      obtain ⟨out, report, h⟩ := exists_decodes src dst.length
      exact ⟨out, report, h, run_decodes h⟩
    · intro h
      obtain ⟨out, report, h, rfl⟩ := h
      exact run_decodes h
  · intro size r
    constructor
    · rintro rfl
      rcases Nat.lt_or_ge u.isizeMax size with hlarge | hsize
      · exact .inl ⟨hlarge, decode_panic_iff.2 hlarge⟩
      · obtain ⟨out, report, h⟩ := exists_decodes src size
        exact .inr ⟨hsize, out, report, h, decode_decodes hsize h⟩
    · intro h
      rcases h with ⟨hlarge, rfl⟩ | ⟨hsize, out, report, h, rfl⟩
      · exact decode_panic_iff.2 hlarge
      · exact decode_decodes hsize h

theorem streamError_ne_tooSmall (t : Cursor) (v : Verdict) (written capacity : ℕ) :
    streamError t v ≠ some (.outputTooSmall written capacity) := by
  cases v with
  | eos =>
    unfold streamError finishError
    split_ifs <;> simp
  | short => simp [streamError]
  | invalidOpcode op => simp [streamError]
  | badDistance s => simp [streamError]

/-- **A buffer decides no more than whether it is too small.** Every input needs some room: in any buffer with that room it gives
the same report and the same output, and in any smaller one `OutputTooSmall` behind a front of that output. -/
theorem decodeInto_threshold (src : List UInt8) : ∃ need out report,
    out.length ≤ need ∧ (∀ written capacity, report ≠ .error (.outputTooSmall written capacity)) ∧ ∀ dst : List UInt8,
      (need ≤ dst.length → (decodeInto src).run dst = leaves report (out ++ dst.drop out.length)) ∧
      (dst.length < need → ∃ written ≤ dst.length, (decodeInto src).run dst =
        .error (.err (.outputTooSmall written dst.length)) (out.take written ++ dst.drop written)) := by
  obtain ⟨⟨t, v⟩, hs⟩ : ∃ r, scan (Cursor.start src) = r := ⟨_, rfl⟩
  refine ⟨room t v, t.win.out, (streamError t v).elim (.ok t.win.out.length) .error, out_le_room t v, ?_, ?_⟩
  · intro written capacity
    cases he : streamError t v with
    | none => simp
    | some e =>
      intro h
      cases h
      exact streamError_ne_tooSmall t v written capacity he
  · intro dst
    obtain ⟨dst', hrun⟩ := decodeInto_run src dst hs
    constructor
    · intro hroom
      rw [if_pos hroom] at hrun
      obtain ⟨hrun, rfl⟩ := hrun
      rw [hrun]
      cases streamError t v <;> rfl
    · intro hsmall
      rw [if_neg (not_le.2 hsmall)] at hrun
      obtain ⟨written, capacity, hrun⟩ := hrun
      obtain ⟨out, report, hdecodes⟩ := exists_decodes src dst.length
      have hsame := hrun.symm.trans (run_decodes hdecodes)
      obtain ⟨body, rest, w, rfl, hcodes, rfl, hfit, hreport⟩ := hdecodes
      have hscan : scan (Cursor.start (body ++ rest)) = scan ⟨0 + body.length, rest, w⟩ := scan_codes hcodes 0 rest
      have hfront : w.out <+: (scan (Cursor.start (body ++ rest))).1.win.out := hscan ▸ le_scan ⟨0 + body.length, rest, w⟩
      rw [hs] at hfront
      cases report with
      | ok n => cases hsame
      | error e =>
        rw [leaves, EStateM.Result.error.injEq, Stop.err.injEq] at hsame
        obtain ⟨rfl, rfl⟩ := hsame
        cases hreport
        refine ⟨w.out.length, hfit, ?_⟩
        rw [hrun, ← List.prefix_iff_eq_take.1 hfront]

end Lzvn.Raw
