/-
The one-shot decoder against the grammar.

`Decoder.ofCursor src rest c` is the decoder at cursor `c` of `src`, with `rest` of the buffer behind the output.
`round_run` says what one round of the source's loop does in terms of `fetch` and the LZ77 step: it is the only place
that looks into the ten instruction arms. `run_scan` carries it over the whole loop: `Decoder::run` computes the scan of
its input, as far as the buffer has room.

Results:
- `decodeInto_ok_iff`: `decode_into` returns `Ok` exactly on the streams of the grammar whose meaning fits the buffer, and
  then the buffer begins with that meaning and is unchanged behind it.
- `decodeInto_accepts_grammar`: the same for the written part of the buffer, and that `decode_into` never panics.
- `decodeInto_run`: with enough room, the error of `decode_into` is the scan's verdict.
-/
import Lzvn.Raw.Decode
import Lzvn.Raw.Grammar

namespace Lzvn.Raw

open Lzvn.Core Lzvn.Core.Lz77

/-! ## Bit fields -/

theorem byte_shr6 (b : UInt8) : (b >>> 6).toNat = b.toNat / 64 := by
  revert b; exact forall_byte (by decide +kernel)

theorem byte_shr3 (b : UInt8) : (b >>> 3).toNat = b.toNat / 8 := by
  revert b; exact forall_byte (by decide +kernel)

theorem byte_and3 (b : UInt8) : (b &&& 0x03).toNat = b.toNat % 4 := by
  revert b; exact forall_byte (by decide +kernel)

theorem byte_and7 (b : UInt8) : (b &&& 0x07).toNat = b.toNat % 8 := by
  revert b; exact forall_byte (by decide +kernel)

theorem byte_and15 (b : UInt8) : (b &&& 0x0F).toNat = b.toNat % 16 := by
  revert b; exact forall_byte (by decide +kernel)

/-- `(a << k) | b` with `b` below bit `k` -/
theorem shl_or {a b k : ℕ} (hb : b < 2 ^ k) : (a <<< k) ||| b = a * 2 ^ k + b := by
  rw [← Nat.shiftLeft_add_eq_or_of_lt hb, Nat.shiftLeft_eq]

theorem or_shl {a b k : ℕ} (hb : b < 2 ^ k) : b ||| (a <<< k) = b + a * 2 ^ k := by
  rw [Nat.or_comm, shl_or hb, Nat.add_comm]

theorem medium_length (op second : UInt8) : ((op.toNat % 8) <<< 2) ||| (second.toNat &&& 0x03) =
    op.toNat % 8 * 4 + second.toNat % 4 := by
  rw [Nat.and_two_pow_sub_one_eq_mod second.toNat 2, shl_or (Nat.mod_lt _ (by decide))]
  norm_num

theorem medium_distance (second third : UInt8) : (second.toNat >>> 2) ||| (third.toNat <<< 6) =
    second.toNat / 4 + third.toNat * 64 := by
  have := second.toNat_lt
  rw [Nat.shiftRight_eq_div_pow, or_shl (by omega)]
  norm_num

/-! ## What one-shot decoding makes of a verdict -/

/-- the error of the padding behind the EOS opcode -/
def finishError (padding : List UInt8) : Option Error :=
  if padding.any (· ≠ 0) then some (.trailingData padding.length)
  else if padding.length > maxEosPadding then some (.trailingData (padding.length - maxEosPadding))
  else none

/-- the error of a scan that stopped at `t` -/
def streamError (t : Cursor) : Verdict → Option Error
  | .short => some (.truncatedInput t.pos)
  | .invalidOpcode op => some (.invalidOpcode t.pos op)
  | .badDistance s => some (.invalidMatchDistance (s.distance t.win) (t.win.out.length + s.literals.length))
  | .eos => finishError (t.bytes.drop 1)

/-- the bytes of room one-shot decoding takes up to the verdict: a step's room is checked before its distance -/
def room (t : Cursor) : Verdict → ℕ
  | .badDistance s => t.win.out.length + s.size
  | _ => t.win.out.length

theorem finishError_none {padding : List UInt8} : finishError padding = none ↔ padOk padding := by
  unfold finishError padOk maxEosPadding
  split_ifs with h1 h2
  · simp only [false_iff, not_and]
    intro h
    simp only [List.any_eq_true, decide_eq_true_eq] at h1
    obtain ⟨b, hb, hne⟩ := h1
    exact absurd (h b hb) hne
  · simp only [false_iff, not_and]
    intro _ h
    omega
  · simp only [List.any_eq_true, decide_eq_true_eq, not_exists, not_and, not_not] at h1
    simp only [true_iff]
    exact ⟨h1, by omega⟩

theorem out_le_room (t : Cursor) (v : Verdict) : t.win.out.length ≤ room t v := by
  cases v <;> simp [room]

namespace Decoder

/-! ## One round -/

/-- the decoder at cursor `c` of `src`, with `rest` of the buffer behind the output -/
def ofCursor (src rest : List UInt8) (c : Cursor) : Decoder :=
  ⟨src, c.win.out ++ rest, c.pos, c.win.out.length, c.win.last⟩

variable {src rest : List UInt8} {c : Cursor}

@[simp] theorem ofCursor_src : (ofCursor src rest c).src = src := rfl
@[simp] theorem ofCursor_dst : (ofCursor src rest c).dst = c.win.out ++ rest := rfl
@[simp] theorem ofCursor_input : (ofCursor src rest c).input = c.pos := rfl
@[simp] theorem ofCursor_output : (ofCursor src rest c).output = c.win.out.length := rfl
@[simp] theorem ofCursor_previousDistance : (ofCursor src rest c).previousDistance = c.win.last := rfl

theorem matchByte_copyBack {out rest : List UInt8} {d i : ℕ} (h1 : 1 ≤ d) (h2 : d ≤ out.length) (hi : i < rest.length) :
    matchByte out.length d (copyBack out d i ++ rest.drop i) i =
      .ok (copyBack out d (i + 1) ++ rest.drop (i + 1)) := by
  have hlen := copyBack_length i h1 h2
  obtain ⟨a, ha, hsucc⟩ := copyBack_snoc i h1 h2
  have hget : (copyBack out d i ++ rest.drop i)[out.length + i - d]? = some a := by
    rw [List.getElem?_append_left (by omega), ha]
  have hset : (copyBack out d i ++ rest.drop i).set (out.length + i) a = copyBack out d (i + 1) ++ rest.drop (i + 1) := by
    rw [hsucc, List.set_append_right _ _ (by omega), hlen, Nat.sub_self, List.drop_eq_getElem_cons hi,
      List.set_cons_zero, List.append_assoc]
    rfl
  simp only [matchByte, sub_eq (show d ≤ out.length + i by omega), except_ok_bind, index_eq hget]
  rw [setIndex_eq a (by simp [hlen]; omega), hset]

theorem matchBytes_copyBack {out rest : List UInt8} {d n : ℕ} (h1 : 1 ≤ d) (h2 : d ≤ out.length) (hn : n ≤ rest.length) :
    matchBytes out.length d n (out ++ rest) = .ok (copyBack out d n ++ rest.drop n) := by
  induction n with
  | zero => rfl
  | succ n ih =>
    have hprev := ih (by omega)
    unfold matchBytes at hprev ⊢
    rw [List.range_succ, List.foldlM_append, hprev, except_ok_bind]
    simp only [List.foldlM_cons, List.foldlM_nil]
    rw [matchByte_copyBack h1 h2 (by omega)]
    rfl

theorem run_performMatch (src : List UInt8) {out rest : List UInt8} {d n i p : ℕ} (h1 : 1 ≤ d) (h2 : d ≤ out.length)
    (hn : n ≤ rest.length) : (performMatch n d).run ⟨src, out ++ rest, i, out.length, p⟩ =
      .ok () ⟨src, copyBack out d n ++ rest.drop n, i, out.length + n, d⟩ := by
  simp [performMatch, matchBytes_copyBack h1 h2 hn]

/-- the result of executing the step `s`, encoded by the `n` next bytes, as far as the buffer has room -/
def exec (src rest : List UInt8) (c : Cursor) (n : ℕ) (s : Step UInt8) : EStateM.Result Stop Decoder Unit :=
  if rest.length < s.size then
    .error (.err (.outputTooSmall c.win.out.length (c.win.out.length + rest.length))) (ofCursor src rest c)
  else
    match c.win.apply s with
    | some w => .ok () (ofCursor src (rest.drop s.size) ⟨c.pos + n, c.bytes.drop n, w⟩)
    | none =>
      .error (.err (.invalidMatchDistance (s.distance c.win) (c.win.out.length + s.literals.length)))
        (ofCursor src rest c)

/-- the error of an instruction that is not wholly there -/
def truncated (src rest : List UInt8) (c : Cursor) {α : Type} : EStateM.Result Stop Decoder α :=
  .error (.err (.truncatedInput c.pos)) (ofCursor src rest c)

theorem length_src (hc : c.bytes = src.drop c.pos) : src.length - c.pos = c.bytes.length := by
  rw [hc, List.length_drop]

/-- the literals of the instruction at the cursor -/
theorem slice_literals {h k : ℕ} (hh : 0 < h) (hc : c.bytes = src.drop c.pos) (hn : h + k ≤ c.bytes.length) :
    slice src (c.pos + h) (c.pos + h + k) = .ok ((c.bytes.drop h).take k) := by
  have := length_src hc
  rw [slice_eq (by omega) (by omega), hc, List.drop_drop]
  simp

theorem copy_literals (out : List UInt8) {l rest : List UInt8} (hl : l.length ≤ rest.length) :
    copyFromSlice (out ++ rest) out.length (out.length + l.length) l = .ok (out ++ l ++ rest.drop l.length) := by
  rw [copyFromSlice_eq (by omega) (by simp; omega) (by omega)]
  simp [List.drop_append]

theorem run_copyLiteralOnly {h k : ℕ} (hh : 0 < h) (hc : c.bytes = src.drop c.pos) :
    (copyLiteralOnly h k).run (ofCursor src rest c) =
      if c.bytes.length < h + k then truncated src rest c
      else exec src rest c (h + k) ⟨(c.bytes.drop h).take k, none⟩ := by
  have hlen := length_src hc
  by_cases hn : c.bytes.length < h + k
  · simp [copyLiteralOnly, ofCursor, hlen, hn, truncated]
  · have hk : ((c.bytes.drop h).take k).length = k := by simp; omega
    by_cases hr : rest.length < k
    · simp [copyLiteralOnly, ofCursor, hlen, hn, hr, exec, Step.size, hk]
    · have hcopy := copy_literals c.win.out (hk.le.trans (not_lt.1 hr))
      rw [hk] at hcopy
      simp [copyLiteralOnly, ofCursor, hlen, hn, hr, exec, Step.size, hk, slice_literals hh hc (not_lt.1 hn), hcopy,
        apply_literals]
      exact Nat.add_assoc _ _ _

theorem run_copyMatchOnly {h m : ℕ} {r : Reach} (hc : c.bytes = src.drop c.pos) :
    (copyMatchOnly h m (r.resolve c.win.last)).run (ofCursor src rest c) =
      if c.bytes.length < h then truncated src rest c else exec src rest c h ⟨[], some (m, r)⟩ := by
  have hlen := length_src hc
  by_cases hn : c.bytes.length < h
  · simp [copyMatchOnly, ofCursor, hlen, hn, truncated]
  · by_cases hr : rest.length < m
    · simp [copyMatchOnly, ofCursor, hlen, hn, hr, exec, Step.size]
    · by_cases hd : 1 ≤ r.resolve c.win.last ∧ r.resolve c.win.last ≤ c.win.out.length
      · have hok : ¬ (r.resolve c.win.last = 0 ∨ c.win.out.length < r.resolve c.win.last) := by omega
        simp [copyMatchOnly, ofCursor, hlen, hn, hr, exec, Step.size, hok, hd, Window.apply, run_performMatch src hd.1 hd.2,
          not_lt.1 hr, copyBack_length m hd.1 hd.2]
      · have hbad : r.resolve c.win.last = 0 ∨ c.win.out.length < r.resolve c.win.last := by omega
        simp [copyMatchOnly, ofCursor, hlen, hn, hr, exec, Step.size, hbad, hd, Window.apply, Step.distance]

theorem run_copyLiteralAndMatch {h k m : ℕ} {r : Reach} (hh : 0 < h) (hc : c.bytes = src.drop c.pos) :
    (copyLiteralAndMatch h k m (r.resolve c.win.last)).run (ofCursor src rest c) =
      if c.bytes.length < h + k then truncated src rest c
      else exec src rest c (h + k) ⟨(c.bytes.drop h).take k, some (m, r)⟩ := by
  have hlen := length_src hc
  by_cases hn : c.bytes.length < h + k
  · simp [copyLiteralAndMatch, ofCursor, hlen, hn, truncated]
  · set l := (c.bytes.drop h).take k with hl
    have hk : l.length = k := by rw [hl, List.length_take, List.length_drop]; omega
    by_cases hr : rest.length < k + m
    · simp [copyLiteralAndMatch, ofCursor, hlen, hn, hr, exec, Step.size, hk]
    · by_cases hd : 1 ≤ r.resolve c.win.last ∧ r.resolve c.win.last ≤ c.win.out.length + k
      · have hok : ¬ (r.resolve c.win.last = 0 ∨ c.win.out.length + k < r.resolve c.win.last) := by omega
        have hfit : l.length ≤ rest.length := by omega
        have hcopy := copy_literals c.win.out hfit
        have hd2 : r.resolve c.win.last ≤ (c.win.out ++ l).length := by simp [hk]; omega
        have hroom : m ≤ (rest.drop k).length := by rw [List.length_drop]; omega
        have hmatch := run_performMatch src hd.1 hd2 hroom (i := c.pos + h + k) (p := c.win.last)
        have hout := copyBack_length m hd.1 hd2
        rw [List.length_append, hk] at hout
        rw [hk] at hcopy
        rw [List.length_append, hk] at hmatch hd2
        simp [copyLiteralAndMatch, ofCursor, hlen, hn, hr, exec, Step.size, hk, hok, hd.1, hd2, Window.apply, hcopy,
          slice_literals hh hc (not_lt.1 hn), ← hl]
        simp only [List.append_assoc, List.drop_drop, Nat.add_assoc, hout] at hmatch ⊢
        exact hmatch
      · have hbad : r.resolve c.win.last = 0 ∨ c.win.out.length + k < r.resolve c.win.last := by omega
        simp [copyLiteralAndMatch, ofCursor, hlen, hn, hr, exec, Step.size, hk, hbad, hd, Window.apply, Step.distance]

theorem run_finish (rest : List UInt8) {tail : List UInt8} (hc : c.bytes = src.drop c.pos) (hb : c.bytes = 0x06 :: tail) :
    ∃ d, finish.run (ofCursor src rest c) =
      (match finishError tail with
      | some e => .error (.err e) d
      | none => .ok () d) ∧ d.dst = c.win.out ++ rest ∧ d.output = c.win.out.length := by
  have hlen := length_src hc
  have hpos : c.pos + 1 ≤ src.length := by rw [hb] at hlen; simp at hlen; omega
  have htail : src.drop (c.pos + 1) = tail := by
    rw [← List.drop_drop, ← hc, hb]; rfl
  have hslice : slice src (c.pos + 1) src.length = .ok tail := by
    rw [slice_eq hpos le_rfl, htail, List.take_of_length_le (by rw [← htail, List.length_drop])]
  have hone : ¬ c.bytes.length < 1 := by rw [hb]; simp
  unfold finishError
  by_cases h1 : tail.any (· ≠ 0) = true
  · refine ⟨{ ofCursor src rest c with input := c.pos + 1 }, ?_, rfl, rfl⟩
    simp only [finish, EStateM.run_bind, run_requireInput, ofCursor, hlen, hone, ite_false, EStateM.run_modify,
      EStateM.run_get, hslice, run_lift_ok, h1, ite_true, run_throw]
  · by_cases h2 : tail.length > maxEosPadding
    · refine ⟨{ ofCursor src rest c with input := c.pos + 1 }, ?_, rfl, rfl⟩
      simp only [finish, EStateM.run_bind, run_requireInput, ofCursor, hlen, hone, ite_false, EStateM.run_modify,
        EStateM.run_get, hslice, run_lift_ok, h1, h2, ite_true]
      rfl
    · refine ⟨{ ofCursor src rest c with input := src.length }, ?_, rfl, rfl⟩
      simp only [finish, EStateM.run_bind, run_requireInput, ofCursor, hlen, hone, ite_false, EStateM.run_modify,
        EStateM.run_get, hslice, run_lift_ok, h1, h2]
      rfl

/-- a round's result, given what the bytes at the cursor begin with -/
def roundResult (src rest : List UInt8) (c : Cursor) : Fetch → EStateM.Result Stop Decoder (Option Unit)
  | .short => truncated src rest c
  | .invalid op => .error (.err (.invalidOpcode c.pos op)) (ofCursor src rest c)
  | .eos =>
    match finish.run (ofCursor src rest c) with
    | .ok _ d => .ok (some ()) d
    | .error e d => .error e d
  | .instr n s =>
    match exec src rest c n s with
    | .ok _ d => .ok none d
    | .error e d => .error e d

/-- an arm whose header is cut -/
theorem arm_short {op : UInt8} {tail : List UInt8} {kind : OpcodeKind} (hb : c.bytes = op :: tail)
    (hk : classify op = some kind) (he : kind ≠ .eos) (h : c.bytes.length < headerLen kind) :
    truncated src rest c = roundResult src rest c (fetch c.bytes) := by
  rw [hb] at h ⊢
  rw [fetch_cons tail hk he, if_pos (by omega)]
  rfl

/-- an arm past its header: `m` checks that the literals are there and executes the step -/
theorem arm_copy {op : UInt8} {tail : List UInt8} {kind : OpcodeKind} {m : Rust Decoder Unit} {k : ℕ}
    {copy : Option (ℕ × Reach)} (hb : c.bytes = op :: tail) (hk : classify op = some kind) (he : kind ≠ .eos)
    (hann : announces (op :: tail) kind = (k, copy))
    (hm : m.run (ofCursor src rest c) = if c.bytes.length < headerLen kind + k then truncated src rest c
      else exec src rest c (headerLen kind + k) ⟨(c.bytes.drop (headerLen kind)).take k, copy⟩) :
    EStateM.run (m >>= fun _ => pure none) (ofCursor src rest c) = roundResult src rest c (fetch c.bytes) := by
  rw [EStateM.run_bind, hm, hb, fetch_cons tail hk he, hann]
  split_ifs with h
  · rfl
  · simp only [roundResult]
    cases exec src rest c _ _ <;> rfl

/-- **One round of the source's loop**, in terms of the grammar -/
theorem round_run (hc : c.bytes = src.drop c.pos) :
    round.run (ofCursor src rest c) = roundResult src rest c (fetch c.bytes) := by
  have hlen := length_src hc
  simp only [round, EStateM.run_bind, EStateM.run_get, run_byteAt, ofCursor_input, ofCursor_src]
  cases hb : c.bytes with
  | nil =>
    have hnone : src[c.pos]? = none := by
      rw [← Nat.add_zero c.pos, ← List.getElem?_drop, ← hc, hb]
      rfl
    simp [hnone, fetch, truncated, roundResult]
  | cons op tail =>
    have hsrc : src.drop c.pos = op :: tail := hc.symm.trans hb
    simp only [getElem?_head hsrc]
    cases hk : classify op with
    | none => simp [fetch, hk, roundResult]
    | some kind =>
      rw [← hb]
      cases kind with
      | smallDistance =>
        simp only [EStateM.run_bind, run_requireInput, hlen, ofCursor_src, ofCursor_input]
        by_cases h : c.bytes.length < 2
        · rw [if_pos h]
          exact arm_short hb hk (by decide) h
        · rw [if_neg h]
          obtain ⟨second, tail', rfl, h1⟩ := index_second hsrc (hb ▸ h)
          simp only [h1, run_lift_ok, byte_shr6, byte_shr3, byte_and7, shl_or second.toNat_lt, Nat.reducePow]
          exact (EStateM.run_bind _ _).symm.trans <| arm_copy hb hk (by decide) rfl <|
             (run_copyLiteralAndMatch (r := .explicit _) (by decide) hc)
      | mediumDistance =>
        simp only [EStateM.run_bind, run_requireInput, hlen, ofCursor_src, ofCursor_input]
        by_cases h : c.bytes.length < 3
        · rw [if_pos h]
          exact arm_short hb hk (by decide) h
        · rw [if_neg h]
          obtain ⟨second, third, tail', rfl, h1, h2⟩ := index_third hsrc (hb ▸ h)
          simp only [h1, h2, run_lift_ok, byte_shr3, byte_and3, byte_and7, medium_length, medium_distance]
          exact (EStateM.run_bind _ _).symm.trans <| arm_copy hb hk (by decide) rfl <|
             (run_copyLiteralAndMatch (r := .explicit _) (by decide) hc)
      | largeDistance =>
        simp only [EStateM.run_bind, run_requireInput, hlen, ofCursor_src, ofCursor_input]
        by_cases h : c.bytes.length < 3
        · rw [if_pos h]
          exact arm_short hb hk (by decide) h
        · rw [if_neg h]
          obtain ⟨second, third, tail', rfl, h1, h2⟩ := index_third hsrc (hb ▸ h)
          simp only [h1, h2, run_lift_ok, byte_shr6, byte_shr3, byte_and7, Nat.mul_comm 256]
          exact (EStateM.run_bind _ _).symm.trans <| arm_copy hb hk (by decide) rfl <|
             (run_copyLiteralAndMatch (r := .explicit _) (by decide) hc)
      | previousDistance =>
        simp only [EStateM.run_bind, ofCursor_previousDistance, byte_shr6, byte_shr3, byte_and7]
        exact (EStateM.run_bind _ _).symm.trans <| arm_copy hb hk (by decide) rfl <|
             (run_copyLiteralAndMatch (r := .last) (by decide) hc)
      | smallLiteral =>
        simp only [EStateM.run_bind, byte_and15]
        exact (EStateM.run_bind _ _).symm.trans <| arm_copy hb hk (by decide) rfl <|
             (run_copyLiteralOnly (by decide) hc)
      | largeLiteral =>
        simp only [EStateM.run_bind, run_requireInput, hlen, ofCursor_src, ofCursor_input]
        by_cases h : c.bytes.length < 2
        · rw [if_pos h]
          exact arm_short hb hk (by decide) h
        · rw [if_neg h]
          obtain ⟨second, tail', rfl, h1⟩ := index_second hsrc (hb ▸ h)
          simp only [h1, run_lift_ok]
          exact (EStateM.run_bind _ _).symm.trans <| arm_copy hb hk (by decide) rfl <|
             (run_copyLiteralOnly (by decide) hc)
      | smallMatch =>
        simp only [EStateM.run_bind, ofCursor_previousDistance, byte_and15]
        exact (EStateM.run_bind _ _).symm.trans <| arm_copy hb hk (by decide) rfl <|
             (run_copyMatchOnly (r := .last) hc)
      | largeMatch =>
        simp only [EStateM.run_bind, run_requireInput, hlen, ofCursor_src, ofCursor_input]
        by_cases h : c.bytes.length < 2
        · rw [if_pos h]
          exact arm_short hb hk (by decide) h
        · rw [if_neg h]
          obtain ⟨second, tail', rfl, h1⟩ := index_second hsrc (hb ▸ h)
          simp only [h1, run_lift_ok]
          exact (EStateM.run_bind _ _).symm.trans <| arm_copy hb hk (by decide) rfl <|
             (run_copyMatchOnly (r := .last) hc)
      | nop =>
        have h : ¬ c.bytes.length < 1 := by rw [hb]; simp
        have hf : fetch c.bytes = .instr 1 ⟨[], none⟩ := by
          rw [hb, fetch_cons tail hk (by decide)]
          simp [headerLen, announces, fields]
        simp only [EStateM.run_bind, run_requireInput, hlen, ofCursor_src, ofCursor_input, h, ite_false,
          EStateM.run_modify, EStateM.run_pure, hf, roundResult, exec, Step.size]
        simp [ofCursor, Window.apply]
      | eos =>
        have hf : fetch c.bytes = .eos := by
          rw [fetch_eos_iff, hb, (classify_eos op).1 hk]
          exact ⟨tail, rfl⟩
        simp only [EStateM.run_bind, hf, roundResult]
        cases EStateM.run finish (ofCursor src rest c) <;> rfl

/-! ## The whole loop -/

/-- the result of decoding from cursor `c`, given where and why its scan stops -/
def Computes (rest : List UInt8) (c t : Cursor) (v : Verdict) (r : EStateM.Result Stop Decoder Unit) : Prop :=
  ∃ d, if room t v ≤ c.win.out.length + rest.length then
      r = (match streamError t v with
        | none => .ok () d
        | some e => .error (.err e) d) ∧
      d.dst = t.win.out ++ rest.drop (t.win.out.length - c.win.out.length) ∧ d.output = t.win.out.length
    else ∃ written capacity, r = .error (.err (.outputTooSmall written capacity)) d

theorem computes_error {t : Cursor} {v : Verdict} {e : Error} (he : streamError t v = some e)
    (hroom : room t v ≤ t.win.out.length + rest.length) :
    Computes rest t t v (.error (.err e) (ofCursor src rest t)) := by
  refine ⟨ofCursor src rest t, ?_⟩
  rw [if_pos hroom, he]
  simp

theorem computes_tooSmall {t : Cursor} {v : Verdict} {written capacity : ℕ} {d : Decoder}
    (h : c.win.out.length + rest.length < room t v) :
    Computes rest c t v (.error (.err (.outputTooSmall written capacity)) d) :=
  ⟨d, by rw [if_neg (by omega)]; exact ⟨_, _, rfl⟩⟩

/-- a step without room is past the room that the scan needs -/
theorem room_gt {n : ℕ} {s : Step UInt8} (hf : fetch c.bytes = .instr n s) (hr : rest.length < s.size) :
    c.win.out.length + rest.length < room (scan c).1 (scan c).2 := by
  cases hw : c.win.apply s with
  | some w =>
    rw [scan_instr hf hw]
    obtain ⟨_, -, hcodes, -, -⟩ := scan_spec ⟨c.pos + n, c.bytes.drop n, w⟩
    have hsize := apply_length hw
    have hout := hcodes.le.length_le
    dsimp only at hout
    have hroom := out_le_room (scan ⟨c.pos + n, c.bytes.drop n, w⟩).1 (scan ⟨c.pos + n, c.bytes.drop n, w⟩).2
    omega
  | none =>
    rw [scan_leave (c := c) (r := (c, .badDistance s)) (by simp [scanRound, hf, hw])]
    simp only [room]
    omega

/-- a step with room takes the result from the cursor behind it to the cursor before it -/
theorem Computes.step {c t : Cursor} {v : Verdict} {n : ℕ} {s : Step UInt8} {w : Window UInt8}
    {r : EStateM.Result Stop Decoder Unit} (hw : c.win.apply s = some w) (hs : s.size ≤ rest.length)
    (ht : w.out <+: t.win.out) (h : Computes (rest.drop s.size) ⟨c.pos + n, c.bytes.drop n, w⟩ t v r) :
    Computes rest c t v r := by
  have hlen := apply_length hw
  have hle := ht.length_le
  obtain ⟨d, hd⟩ := h
  refine ⟨d, ?_⟩
  simp only [List.length_drop, hlen, List.drop_drop] at hd
  have hroom : c.win.out.length + s.size + (rest.length - s.size) = c.win.out.length + rest.length := by omega
  have hdrop : s.size + (t.win.out.length - (c.win.out.length + s.size)) = t.win.out.length - c.win.out.length := by
    omega
  rw [hroom, hdrop] at hd
  exact hd

theorem flow_round (hc : c.bytes = src.drop c.pos) : loop.body (ofCursor src rest c) =
    match roundResult src rest c (fetch c.bytes) with
    | .ok none d => .again d
    | .ok (some a) d => .leave (.ok a d)
    | .error e d => .leave (.error e d) := by
  show Loop.flow round _ = _
  rw [Loop.flow, round_run hc]
  rcases roundResult src rest c (fetch c.bytes) with ⟨_ | a, d⟩ | ⟨e, d⟩ <;> rfl

/-- **The loop computes the scan** of its input, as far as the buffer has room. -/
theorem run_scan (src : List UInt8) (d : Decoder) : ∀ rest c, d = ofCursor src rest c → c.bytes = src.drop c.pos →
    Computes rest c (scan c).1 (scan c).2 (run.run d) := by
  refine loop.run_rule (fun d r => ∀ rest c, d = ofCursor src rest c → c.bytes = src.drop c.pos →
    Computes rest c (scan c).1 (scan c).2 r) ?_ ?_ d
  · intro d r h rest c hd hc
    subst hd
    rw [flow_round hc] at h
    cases hf : fetch c.bytes with
    | short =>
      rw [hf] at h
      cases h
      rw [scan_leave (c := c) (r := (c, .short)) (by simp [scanRound, hf])]
      exact computes_error rfl (by simp [room])
    | invalid op =>
      rw [hf] at h
      cases h
      rw [scan_leave (c := c) (r := (c, .invalidOpcode op)) (by simp [scanRound, hf])]
      exact computes_error rfl (by simp [room])
    | eos =>
      rw [hf] at h
      obtain ⟨tail, hb⟩ := fetch_eos_iff.1 hf
      obtain ⟨d, hfin, hdst, hout⟩ := run_finish rest hc hb
      rw [scan_leave (c := c) (r := (c, .eos)) (by simp [scanRound, hf])]
      refine ⟨d, ?_⟩
      rw [if_pos (by simp [room])]
      refine ⟨?_, by simpa using hdst, hout⟩
      simp only [roundResult, hfin, streamError, hb, List.drop_succ_cons, List.drop_zero] at h ⊢
      cases he : finishError tail <;> rw [he] at h <;> cases h <;> rfl
    | instr n s =>
      rw [hf] at h
      simp only [roundResult, exec] at h
      by_cases hr : rest.length < s.size
      · rw [if_pos hr] at h
        cases h
        exact computes_tooSmall (room_gt hf hr)
      · rw [if_neg hr] at h
        cases hw : c.win.apply s with
        | some w => rw [hw] at h; cases h
        | none =>
          rw [hw] at h
          cases h
          rw [scan_leave (c := c) (r := (c, .badDistance s)) (by simp [scanRound, hf, hw])]
          exact computes_error rfl (by simp [room]; omega)
  · intro d d' r h ih rest c hd hc
    subst hd
    rw [flow_round hc] at h
    cases hf : fetch c.bytes with
    | short => rw [hf] at h; cases h
    | invalid op => rw [hf] at h; cases h
    | eos =>
      rw [hf] at h
      simp only [roundResult] at h
      cases hfin : finish.run (ofCursor src rest c) <;> rw [hfin] at h <;> cases h
    | instr n s =>
      rw [hf] at h
      simp only [roundResult, exec] at h
      by_cases hr : rest.length < s.size
      · rw [if_pos hr] at h; cases h
      · rw [if_neg hr] at h
        cases hw : c.win.apply s with
        | none => rw [hw] at h; cases h
        | some w =>
          rw [hw] at h
          cases h
          obtain ⟨-, hn, -⟩ := fetch_encodes hf
          rw [scan_instr hf hw]
          obtain ⟨_, _, hcodes, -, -⟩ := scan_spec ⟨c.pos + n, c.bytes.drop n, w⟩
          refine Computes.step hw (not_lt.1 hr) hcodes.le (ih _ _ rfl ?_)
          simp only [hc, List.drop_drop]

/-! ## Lists of instructions -/

/-- a round of `Decoder::run` that goes on -/
def Goes (d d' : Decoder) : Prop := round.run d = .ok none d'

/-- **The rounds go through a list of instructions** that the buffer has room for. -/
theorem goes_codes {src bytes tail rest : List UInt8} {c : Cursor} {w : Window UInt8} (h : Codes bytes c.win w)
    (hc : c.bytes = src.drop c.pos) (hb : c.bytes = bytes ++ tail) (hroom : w.out.length ≤ c.win.out.length + rest.length) :
    Relation.ReflTransGen Goes (ofCursor src rest c)
      (ofCursor src (rest.drop (w.out.length - c.win.out.length)) ⟨c.pos + bytes.length, tail, w⟩) := by
  obtain ⟨steps, hp, hr⟩ := h
  induction hp generalizing c rest with
  | nil =>
    cases hr
    rw [Nat.sub_self]
    exact .refl
  | @cons a b s steps head htail ih =>
    rw [replay_cons, Option.bind_eq_some_iff] at hr
    obtain ⟨w1, hw1, hr⟩ := hr
    have hf : fetch c.bytes = .instr a.length s := by
      rw [hb, List.append_assoc]
      exact encodes_fetch head _
    have hsize := apply_length hw1
    have hle := (replay_le hr).length_le
    have hstep : Goes (ofCursor src rest c)
        (ofCursor src (rest.drop s.size) ⟨c.pos + a.length, c.bytes.drop a.length, w1⟩) := by
      rw [Goes, round_run hc, hf]
      simp only [roundResult, exec, hw1]
      rw [if_neg (by omega)]
    have hroom : (rest.drop s.size).length = rest.length - s.size := List.length_drop
    have hnext := @ih (rest.drop s.size) ⟨c.pos + a.length, c.bytes.drop a.length, w1⟩
      (by simp only [hc, List.drop_drop]) (by simp only [hb, List.append_assoc, List.drop_left])
      (by rw [hroom]; dsimp only; omega) hr
    refine .head hstep ?_
    have hdrop : s.size + (w.out.length - w1.out.length) = w.out.length - c.win.out.length := by omega
    rw [List.drop_drop, hdrop, Nat.add_assoc, ← List.length_append] at hnext
    exact hnext

end Decoder

/-! ## Decoding a stream -/

open Decoder

/-- what `decode_into` does, given where and why the scan of its input stops -/
theorem decodeInto_run (src dst : List UInt8) {t : Cursor} {v : Verdict} (hs : scan (Cursor.start src) = (t, v)) :
    ∃ dst', if room t v ≤ dst.length then
        (decodeInto src).run dst = (match streamError t v with
          | none => .ok t.win.out.length dst'
          | some e => .error (.err e) dst') ∧ dst' = t.win.out ++ dst.drop t.win.out.length
      else ∃ written capacity, (decodeInto src).run dst = .error (.err (.outputTooSmall written capacity)) dst' := by
  obtain ⟨d, hd⟩ := run_scan src ⟨src, dst, 0, 0, 0⟩ dst (Cursor.start src) rfl rfl
  rw [hs] at hd
  have hzero : (Cursor.start src).win.out.length = 0 := rfl
  rw [hzero, Nat.zero_add, Nat.sub_zero] at hd
  refine ⟨d.dst, ?_⟩
  have hrun : (decodeInto src).run dst = match Decoder.run.run ⟨src, dst, 0, 0, 0⟩ with
    | .ok _ decoder => .ok decoder.output decoder.dst
    | .error e decoder => .error e decoder.dst := rfl
  rw [hrun]
  split_ifs at hd ⊢ with hroom
  · obtain ⟨hr, hdst, hout⟩ := hd
    refine ⟨?_, hdst⟩
    rw [hr]
    cases streamError t v with
    | none => simp only [hout]
    | some e => rfl
  · obtain ⟨written, capacity, hr⟩ := hd
    exact ⟨written, capacity, by rw [hr]⟩

theorem decodeInto_ne_panic (src dst dst' : List UInt8) : (decodeInto src).run dst ≠ .error .panic dst' := by
  obtain ⟨d, hd⟩ := decodeInto_run src dst (t := (scan (Cursor.start src)).1) (v := (scan (Cursor.start src)).2) rfl
  split_ifs at hd with hroom
  · rw [hd.1]
    split <;> simp
  · obtain ⟨_, _, h⟩ := hd
    simp [h]

/-- `decode_into` returns `Ok` exactly on streams whose meaning fits, and writes only that -/
theorem decodeInto_ok_iff {src dst dst' : List UInt8} {n : ℕ} : (decodeInto src).run dst = .ok n dst' ↔
    ∃ out, IsStream src out ∧ out.length = n ∧ n ≤ dst.length ∧ dst' = out ++ dst.drop n := by
  obtain ⟨⟨t, v⟩, hs⟩ : ∃ r, scan (Cursor.start src) = r := ⟨_, rfl⟩
  obtain ⟨d, hd⟩ := decodeInto_run src dst hs
  have hstream (out : List UInt8) : IsStream src out ↔ v = .eos ∧ finishError (t.bytes.drop 1) = none ∧ t.win.out = out := by
    rw [isStream_iff_scan, finishError_none, hs]
  simp only [hstream]
  split_ifs at hd with hroom
  · obtain ⟨hr, rfl⟩ := hd
    rw [hr]
    cases v with
    | eos =>
      cases hf : finishError (t.bytes.drop 1) with
      | none =>
        simp only [streamError, hf, true_and, EStateM.Result.ok.injEq, exists_eq_left', room] at hroom ⊢
        constructor
        · rintro ⟨rfl, rfl⟩; exact ⟨rfl, hroom, rfl⟩
        · rintro ⟨rfl, -, rfl⟩; exact ⟨rfl, rfl⟩
      | some e => simp only [streamError, hf]; simp
    | short => simp [streamError]
    | invalidOpcode op => simp [streamError]
    | badDistance s => simp [streamError]
  · obtain ⟨_, _, h⟩ := hd
    rw [h]
    constructor
    · intro h; cases h
    · intro h
      rcases h with ⟨out, ⟨hv, -, rfl⟩, rfl, hle, -⟩
      rw [hv] at hroom
      exact absurd hle hroom

/-- **The one-shot decoder accepts exactly the grammar and computes its meaning.** It never panics. -/
theorem decodeInto_accepts_grammar (src dst : List UInt8) :
    (∀ dst', (decodeInto src).run dst ≠ .error .panic dst') ∧
    ∀ n out, (∃ dst', (decodeInto src).run dst = .ok n dst' ∧ dst'.take n = out) ↔
      IsStream src out ∧ out.length = n ∧ n ≤ dst.length := by
  refine ⟨decodeInto_ne_panic src dst, ?_⟩
  intro n out
  simp only [decodeInto_ok_iff]
  constructor
  · intro h
    rcases h with ⟨_, ⟨out', hs, rfl, hle, rfl⟩, rfl⟩
    rw [List.take_left]
    exact ⟨hs, rfl, hle⟩
  · intro h
    rcases h with ⟨hs, rfl, hle⟩
    exact ⟨_, ⟨out, hs, rfl, hle, rfl⟩, List.take_left' rfl⟩

/-- `decode` returns `Ok` exactly on streams of the length it is told -/
theorem decode_ok_iff {u : Usize} {src out : List UInt8} {n : ℕ} :
    decode u src n = .ok out ↔ n ≤ u.isizeMax ∧ IsStream src out ∧ out.length = n := by
  unfold decode Usize.zeros
  split_ifs with hn
  · rw [except_ok_bind]
    constructor
    · intro h
      split at h
      · rename_i written dst' hr
        split_ifs at h with hne
        · cases h
        · cases h
          obtain ⟨out', hs, hlen, -, rfl⟩ := decodeInto_ok_iff.1 hr
          rw [not_not] at hne
          simp only [hne, List.drop_replicate, Nat.sub_self, List.replicate_zero, List.append_nil]
          exact ⟨hn, hs, by omega⟩
      · cases h
    · intro h
      rcases h with ⟨-, hs, rfl⟩
      have hr := decodeInto_ok_iff.2 ⟨out, hs, rfl, (List.length_replicate (a := (0 : UInt8))).ge, rfl⟩
      rw [hr]
      simp [pure, Except.pure]
  · simp [hn]

/-- `decode` panics when it cannot allocate the length it is told, and only then -/
theorem decode_panic_iff {u : Usize} {src : List UInt8} {n : ℕ} :
    decode u src n = .error .panic ↔ u.isizeMax < n := by
  unfold decode Usize.zeros
  split_ifs with hn
  · rw [except_ok_bind]
    constructor
    · intro h
      split at h
      · split_ifs at h <;> cases h
      · rename_i dst' hr
        cases h
        exact absurd hr (decodeInto_ne_panic _ _ _)
    · intro h
      omega
  · simp only [except_error_bind, true_iff]
    omega

end Lzvn.Raw
