/-
The `bvxn` block in its own terms, and the one-shot decoder against it.

- `IsBlock b v`: `b` is a header with the two lengths, and a raw stream that means `v`.
- `parseHeader_ok_iff`: the bytes that begin with a header.
- `decode_ok_iff`: `decode` returns `Ok` exactly on blocks, as far as `usize` can count their lengths.
- `decode_panic_iff`, `decodeInto_panic_iff`: when the decoders panic.
-/
import Lzvn.Apple.Bvxn
import Lzvn.Raw.DecodeGrammar

namespace Lzvn.Apple

open Lzvn.Core
open Lzvn.Raw (IsStream)

/-! ## Fields -/

theorem fromLeBytes_eq (a tail : List UInt8) {k n start stop : ℕ} (h : n < 256 ^ k) (hstart : a.length = start)
    (hstop : start + k = stop) : fromLeBytes (a ++ leBytes k n ++ tail) start stop = .ok n := by
  subst hstart
  subst hstop
  have hslice : slice (a ++ leBytes k n ++ tail) a.length (a.length + k) = .ok (leBytes k n) := by
    rw [slice_eq (by omega) (by simp), List.append_assoc, List.drop_left, Nat.add_sub_cancel_left,
      List.take_left' (length_leBytes k n)]
  rw [fromLeBytes, hslice, except_ok_bind, leValue_leBytes h]
  rfl

theorem fromLeBytes_ok {src : List UInt8} {n start stop : ℕ} (h : fromLeBytes src start stop = .ok n) :
    (src.drop start).take (stop - start) = leBytes (stop - start) n ∧ n < 256 ^ (stop - start) := by
  unfold fromLeBytes slice at h
  split_ifs at h with hle
  · rw [except_ok_bind] at h
    cases h
    have hlen : ((src.drop start).take (stop - start)).length = stop - start := by
      rw [List.length_take, List.length_drop]
      omega
    have hlt := leValue_lt ((src.drop start).take (stop - start))
    rw [hlen] at hlt
    exact ⟨(leBytes_eq hlen).symm, hlt⟩
  · cases h

/-- three fields in a row, and what is behind them -/
theorem fields_eq {src : List UInt8} {x y z a b c : ℕ} (hx : fromLeBytes src 0 a = .ok x) (hy : fromLeBytes src a b = .ok y)
    (hz : fromLeBytes src b c = .ok z) (hab : a ≤ b) (hbc : b ≤ c) :
    src = leBytes a x ++ leBytes (b - a) y ++ leBytes (c - b) z ++ src.drop c := by
  obtain ⟨hx, -⟩ := fromLeBytes_ok hx
  obtain ⟨hy, -⟩ := fromLeBytes_ok hy
  obtain ⟨hz, -⟩ := fromLeBytes_ok hz
  rw [Nat.sub_zero, List.drop_zero] at hx
  have hb : src.drop b = (src.drop a).drop (b - a) := by rw [List.drop_drop, Nat.add_sub_cancel' hab]
  have hc : src.drop c = (src.drop b).drop (c - b) := by rw [List.drop_drop, Nat.add_sub_cancel' hbc]
  rw [← hx, ← hy, ← hz, List.append_assoc, List.append_assoc, hc, List.take_append_drop, hb, List.take_append_drop,
    List.take_append_drop]

/-- reading three fields in a row -/
theorem fields_read (tail : List UInt8) {x y z i j k : ℕ} (hx : x < 256 ^ i) (hy : y < 256 ^ j) (hz : z < 256 ^ k) :
    fromLeBytes (leBytes i x ++ leBytes j y ++ leBytes k z ++ tail) 0 i = .ok x ∧
      fromLeBytes (leBytes i x ++ leBytes j y ++ leBytes k z ++ tail) i (i + j) = .ok y ∧
      fromLeBytes (leBytes i x ++ leBytes j y ++ leBytes k z ++ tail) (i + j) (i + j + k) = .ok z := by
  have hlen : (leBytes i x ++ leBytes j y).length = i + j := by simp
  have h1 : fromLeBytes ([] ++ leBytes i x ++ (leBytes j y ++ (leBytes k z ++ tail))) 0 i = .ok x :=
    fromLeBytes_eq _ _ hx rfl (zero_add i)
  have h2 := fromLeBytes_eq (leBytes i x) (leBytes k z ++ tail) hy (length_leBytes i x) rfl
  have h3 := fromLeBytes_eq (leBytes i x ++ leBytes j y) tail hz hlen rfl
  rw [List.nil_append, ← List.append_assoc, ← List.append_assoc] at h1
  rw [← List.append_assoc] at h2
  exact ⟨h1, h2, h3⟩

/-- a field inside the bytes is read without panic -/
theorem fromLeBytes_inside {src : List UInt8} {start stop : ℕ} (h1 : start ≤ stop) (h2 : stop ≤ src.length) :
    fromLeBytes src start stop = .ok (leValue ((src.drop start).take (stop - start))) := by
  rw [fromLeBytes, slice_eq h1 h2]
  rfl

namespace Bvxn

/-! ## Headers -/

/-- the bytes of a header -/
def BvxnHeader.bytes (header : BvxnHeader) : List UInt8 :=
  leBytes 4 bvxnMagic ++ leBytes 4 header.rawBytes ++ leBytes 4 header.payloadBytes

@[simp] theorem length_bytes (header : BvxnHeader) : header.bytes.length = headerLen := by
  simp [BvxnHeader.bytes, headerLen]

/-- headers are parsed, and only headers -/
theorem parseHeader_ok_iff {src : List UInt8} {header : BvxnHeader} : parseHeader src = .ok header ↔
    ∃ tail, src = header.bytes ++ tail ∧ header.rawBytes < 256 ^ 4 ∧ header.payloadBytes < 256 ^ 4 := by
  constructor
  · intro h
    unfold parseHeader at h
    split_ifs at h with hlen
    · cases h
    obtain ⟨magic, hm, h⟩ := except_bind_ok.1 h
    split_ifs at h with hmagic
    · cases h
    simp only [except_bind_ok] at h
    obtain ⟨rawBytes, hr, payloadBytes, hp, hlast⟩ := h
    cases hlast
    rw [not_not] at hmagic
    subst hmagic
    exact ⟨src.drop 12, fields_eq hm hr hp (by decide) (by decide), (fromLeBytes_ok hr).2, (fromLeBytes_ok hp).2⟩
  · intro h
    rcases h with ⟨tail, rfl, hr, hp⟩
    have hlen : ¬ (header.bytes ++ tail).length < headerLen := by simp
    obtain ⟨h1, h2, h3⟩ := fields_read tail (show bvxnMagic < 256 ^ 4 by decide) hr hp
    unfold parseHeader
    rw [if_neg hlen, BvxnHeader.bytes, h1, except_ok_bind, if_neg (by simp), h2, except_ok_bind, h3]
    rfl

theorem parseHeader_length {src : List UInt8} {header : BvxnHeader} (h : parseHeader src = .ok header) :
    headerLen ≤ src.length := by
  obtain ⟨tail, rfl, -⟩ := parseHeader_ok_iff.1 h
  simp

/-- a header that is there is parsed the same whatever follows it -/
theorem parseHeader_append {q : List UInt8} (h : headerLen ≤ q.length) (more : List UInt8) :
    parseHeader (q ++ more) = parseHeader q := by
  have hfield {start stop : ℕ} (h1 : start ≤ stop) (h2 : stop ≤ headerLen) :
      fromLeBytes (q ++ more) start stop = fromLeBytes q start stop := by
    rw [fromLeBytes_inside h1 (by rw [List.length_append]; omega), fromLeBytes_inside h1 (h2.trans h),
      List.drop_append_of_le_length (by omega), List.take_append_of_le_length (by rw [List.length_drop]; omega)]
  unfold parseHeader
  rw [if_neg (by rw [List.length_append]; omega), if_neg (by omega), hfield (by decide) (by decide),
    hfield (by decide) (by decide), hfield (by decide) (by decide)]

theorem parseHeader_ne_panic (src : List UInt8) : parseHeader src ≠ .error .panic := by
  intro h
  unfold parseHeader at h
  split_ifs at h with hlen
  · cases h
  rw [headerLen, not_lt] at hlen
  rw [fromLeBytes_inside (by decide) (by omega), fromLeBytes_inside (by decide) (by omega),
    fromLeBytes_inside (by decide) (by omega), except_ok_bind] at h
  split_ifs at h <;> cases h

/-! ## Blocks -/

/-- `b` is a block that means `v` -/
def IsBlock (b v : List UInt8) : Prop :=
  ∃ p, b = (BvxnHeader.mk v.length p.length).bytes ++ p ∧ v.length < 256 ^ 4 ∧ p.length < 256 ^ 4 ∧ IsStream p v

theorem isBlock_iff {b v : List UInt8} : IsBlock b v ↔ ∃ header, parseHeader b = .ok header ∧
    b.length = headerLen + header.payloadBytes ∧ IsStream (b.drop headerLen) v ∧ v.length = header.rawBytes := by
  constructor
  · intro h
    rcases h with ⟨p, rfl, hv, hp, hs⟩
    refine ⟨⟨v.length, p.length⟩, parseHeader_ok_iff.2 ⟨p, rfl, hv, hp⟩, by simp, ?_, rfl⟩
    rwa [List.drop_left' (length_bytes _)]
  · intro h
    rcases h with ⟨⟨rawBytes, payloadBytes⟩, hparse, hlen, hs, hv⟩
    obtain ⟨p, rfl, hr, hp⟩ := parseHeader_ok_iff.1 hparse
    rw [List.length_append, length_bytes, Nat.add_left_cancel_iff] at hlen
    rw [List.drop_left' (length_bytes _)] at hs
    subst hv
    dsimp only at hlen
    subst hlen
    exact ⟨p, rfl, hr, hp, hs⟩

theorem IsBlock.unique {b v w : List UInt8} (hv : IsBlock b v) (hw : IsBlock b w) : v = w := by
  obtain ⟨-, -, -, hv, -⟩ := isBlock_iff.1 hv
  obtain ⟨-, -, -, hw, -⟩ := isBlock_iff.1 hw
  exact hv.unique hw

/-- bytes behind the header of a block: what is there, and what is still to come -/
theorem IsBlock.front {q more v : List UInt8} {header : BvxnHeader} (h : IsBlock (q ++ more) v)
    (hp : parseHeader q = .ok header) : q.length + more.length = headerLen + header.payloadBytes ∧
      IsStream (q.drop headerLen ++ more) v ∧ v.length = header.rawBytes := by
  have hlen := parseHeader_length hp
  obtain ⟨header', hp', htotal, hs, hv⟩ := isBlock_iff.1 h
  rw [parseHeader_append hlen, hp] at hp'
  cases hp'
  rw [List.length_append] at htotal
  rw [List.drop_append_of_le_length hlen] at hs
  exact ⟨htotal, hs, hv⟩

/-- what `split_block` makes of a header -/
theorem splitBlock_eq (u : Usize) {src : List UInt8} {header : BvxnHeader} (h : parseHeader src = .ok header) :
    splitBlock u src =
      if u.max < headerLen + header.payloadBytes then .error .panic
      else if src.length < headerLen + header.payloadBytes then .error (.err (.truncatedInput src.length))
      else if headerLen + header.payloadBytes < src.length then
        .error (.err (.trailingData (src.length - (headerLen + header.payloadBytes))))
      else .ok (header, src.drop headerLen) := by
  rw [splitBlock, h, except_ok_bind, Usize.add]
  by_cases hmax : headerLen + header.payloadBytes ≤ u.max
  · rw [if_pos hmax, if_neg (by omega), except_ok_bind]
    rcases Nat.lt_trichotomy src.length (headerLen + header.payloadBytes) with hlt | heq | hgt
    · rw [if_pos hlt, if_pos hlt]
      rfl
    · have hslice : slice src headerLen (headerLen + header.payloadBytes) = .ok (src.drop headerLen) := by
        rw [slice_eq (by omega) (by omega), List.take_of_length_le (by rw [List.length_drop]; omega)]
      rw [if_neg (by omega), if_neg (by omega), if_neg (by omega), if_neg (by omega), hslice]
      rfl
    · rw [if_neg (by omega), if_pos hgt, if_neg (by omega), if_pos hgt]
      rfl
  · rw [if_neg hmax, if_pos (by omega)]
    rfl

theorem splitBlock_error (u : Usize) {src : List UInt8} {e : Stop} (h : parseHeader src = .error e) :
    splitBlock u src = .error e := by
  rw [splitBlock, h]
  rfl

/-- **`decode` returns `Ok` exactly on blocks**, as far as `usize` can count their lengths. -/
theorem decode_ok_iff {u : Usize} {b v : List UInt8} :
    decode u b = .ok v ↔ IsBlock b v ∧ b.length ≤ u.max ∧ v.length ≤ u.isizeMax := by
  rw [isBlock_iff, decode]
  cases hp : parseHeader b with
  | error e => simp [splitBlock_error u hp]
  | ok header =>
    rw [splitBlock_eq u hp]
    split_ifs with h1 h2 h3
    · simp only [except_error_bind, reduceCtorEq, Except.ok.injEq, exists_eq_left', false_iff]
      intro h
      rcases h with ⟨⟨hlen, -⟩, hmax, -⟩
      omega
    · simp only [except_error_bind, reduceCtorEq, Except.ok.injEq, exists_eq_left', false_iff]
      intro h
      rcases h with ⟨⟨hlen, -⟩, -⟩
      omega
    · simp only [except_error_bind, reduceCtorEq, Except.ok.injEq, exists_eq_left', false_iff]
      intro h
      rcases h with ⟨⟨hlen, -⟩, -⟩
      omega
    · simp only [except_ok_bind, Raw.decode_ok_iff, Except.ok.injEq, exists_eq_left']
      constructor
      · intro h
        rcases h with ⟨hn, hs, hv⟩
        exact ⟨⟨by omega, hs, hv⟩, by omega, by omega⟩
      · intro h
        rcases h with ⟨⟨-, hs, hv⟩, -, hn⟩
        exact ⟨by omega, hs, hv⟩

/-- `decode` panics when the declared lengths are too large for `usize` to add up, or to allocate, and only then -/
theorem decode_panic_iff {u : Usize} {b : List UInt8} : decode u b = .error .panic ↔
    ∃ header, parseHeader b = .ok header ∧ (u.max < headerLen + header.payloadBytes ∨
      b.length = headerLen + header.payloadBytes ∧ u.isizeMax < header.rawBytes) := by
  rw [decode]
  cases hp : parseHeader b with
  | error e =>
    have hne := parseHeader_ne_panic b
    rw [hp] at hne
    simpa [splitBlock_error u hp] using hne
  | ok header =>
    rw [splitBlock_eq u hp]
    split_ifs with h1 h2 h3
    · simp [h1]
    · simp only [except_error_bind, Except.error.injEq, reduceCtorEq, Except.ok.injEq, exists_eq_left', false_iff]
      omega
    · simp only [except_error_bind, Except.error.injEq, reduceCtorEq, Except.ok.injEq, exists_eq_left', false_iff]
      omega
    · simp only [except_ok_bind, Raw.decode_panic_iff, Except.ok.injEq, exists_eq_left']
      omega

/-- `decode_into` panics when the declared payload length is too large for `usize` to add up, and only then -/
theorem decodeInto_panic_iff {u : Usize} {b dst : List UInt8} : (∃ dst', (decodeInto u b).run dst = .error .panic dst') ↔
    ∃ header, parseHeader b = .ok header ∧ u.max < headerLen + header.payloadBytes := by
  rw [decodeInto, EStateM.run_bind]
  cases hp : parseHeader b with
  | error e =>
    have hne := parseHeader_ne_panic b
    rw [hp] at hne
    simpa [splitBlock_error u hp] using hne
  | ok header =>
    rw [splitBlock_eq u hp]
    split_ifs with h1 h2 h3
    · simp [h1]
    · simp [h1]
    · simp [h1]
    · simp only [run_lift_ok, EStateM.run_bind, Except.ok.injEq, exists_eq_left', h1, iff_false, not_exists]
      intro dst'
      have hne := Raw.decodeInto_ne_panic (b.drop headerLen) dst
      cases hr : (Raw.decodeInto (b.drop headerLen)).run dst with
      | ok written s =>
        dsimp only
        split_ifs
        · exact fun h => by cases h
        · exact fun h => by cases h
      | error e s =>
        rw [hr] at hne
        dsimp only
        exact hne dst'

end Bvxn

/-- the contents of `helloBlock` -/
def hello : List UInt8 := [0x68, 0x65, 0x6C, 0x6C, 0x6F]

/-- the block of the source's examples: one literal of five bytes, and the end marker -/
def helloBlock : List UInt8 :=
  [0x62, 0x76, 0x78, 0x6E, 5, 0, 0, 0, 14, 0, 0, 0, 0xE5] ++ hello ++ [0x06, 0, 0, 0, 0, 0, 0, 0]

example : Bvxn.decode .bits64 helloBlock = .ok hello := by decide +kernel

end Lzvn.Apple
