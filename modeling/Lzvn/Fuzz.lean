/-
`fuzz/fuzz_targets`: the four fuzz targets, and the inputs that they panic on. A target calls both decoders of a format, or
encodes and decodes, and asserts that the results agree.

- `rawDecode_crashes`: `raw_decode` panics on every whole stream of fewer bytes than the input announces, since `decode`
  rejects what `decode_into` accepts.
- `bvxnDecode_crashes`, `decmpfsDecode_crashes`: the container targets panic where `decode` does, on the sizes of a header.
- `roundtrip_returns`: `roundtrip` never panics.
-/
import Lzvn.Apple.BvxnFraming
import Lzvn.Apple.DecmpfsRoundTrip
import Lzvn.Raw.Expansion

namespace Lzvn.Fuzz

open Lzvn.Core Lzvn.Raw Lzvn.Apple

/-- `MAX_DECODED_LEN` -/
def maxDecodedLen : ℕ := 2 ^ 20

/-- `MAX_INPUT_LEN` -/
def maxInputLen : ℕ := 2 ^ 18

/-- `assert!` -/
def assert (p : Prop) [Decidable p] : Except Stop Unit := if p then .ok () else .error .panic

/-- `.expect(..)` -/
def expect {α : Type} : Except Stop α → Except Stop α
  | .ok a => .ok a
  | .error _ => .error .panic

/-- a call whose `Result` is kept; a panic unwinds -/
def call {α : Type} : Except Stop α → Except Stop (Except Error α)
  | .ok a => .ok (.ok a)
  | .error (.err e) => .ok (.error e)
  | .error .panic => .error .panic

/-- the same for a call on a buffer, with the buffer behind it -/
def callInto (m : Rust (List UInt8) ℕ) (output : List UInt8) : Except Stop (Except Error ℕ × List UInt8) :=
  match m.run output with
  | .ok written output => .ok (.ok written, output)
  | .error (.err e) output => .ok (.error e, output)
  | .error .panic _ => .error .panic

/-- the `match (decoded, decoded_into)` of the decoding targets -/
def compare (decoded : Except Error (List UInt8)) (decodedInto : Except Error ℕ) (output : List UInt8) :
    Except Stop Unit := do
  match decoded, decodedInto with
  | .ok decoded, .ok written =>
    assert (written = decoded.length)
    let front ← slice output 0 written
    assert (front = decoded)
  | .error _, .error _ => return ()
  | _, _ => .error .panic

/-- the target of `raw_decode.rs` -/
def rawDecode (u : Usize) (data : List UInt8) : Except Stop Unit := do
  if data.length < 4 then return ()
  let expectedLen ← fromLeBytes data 0 4
  if maxDecodedLen < expectedLen then return ()
  let encoded ← slice data 4 data.length
  let decoded ← call (Raw.decode u encoded expectedLen)
  let output ← u.zeros expectedLen
  let (decodedInto, output) ← callInto (Raw.decodeInto encoded) output
  compare decoded decodedInto output

/-- the target of `bvxn_decode.rs` -/
def bvxnDecode (u : Usize) (data : List UInt8) : Except Stop Unit := do
  let parsed ← call (Bvxn.parseHeader data)
  let decoded ← call (Bvxn.decode u data)
  match parsed with
  | .ok header =>
    if header.rawBytes ≤ maxDecodedLen then
      let output ← u.zeros header.rawBytes
      let (decodedInto, output) ← callInto (Bvxn.decodeInto u data) output
      compare decoded decodedInto output
  | .error _ => return ()

/-- the target of `decmpfs_decode.rs` -/
def decmpfsDecode (u : Usize) (data : List UInt8) : Except Stop Unit := do
  if data.length < 4 then return ()
  let xattrLen ← fromLeBytes data 0 4
  let rest ← sub data.length 4
  if rest < xattrLen then return ()
  let xattr ← slice data 4 (4 + xattrLen)
  let resourceFork ← slice data (4 + xattrLen) data.length
  let parsed ← call (Decmpfs.parseHeader u xattr)
  let decoded ← call (Decmpfs.decode u xattr (some resourceFork))
  match parsed with
  | .ok header =>
    if header.uncompressedSize ≤ maxDecodedLen then
      let output ← u.zeros header.uncompressedSize
      let (decodedInto, output) ← callInto (Decmpfs.decodeInto u xattr (some resourceFork)) output
      compare decoded decodedInto output
  | .error _ => return ()

/-- the target of `roundtrip.rs` -/
def roundtrip (u : Usize) (data : List UInt8) : Except Stop Unit := do
  if maxInputLen < data.length then return ()
  let raw ← Raw.encode data
  let rawDecoded ← expect (Raw.decode u raw data.length)
  assert (rawDecoded = data)
  let bvxn ← expect (Bvxn.encode data)
  let bvxnDecoded ← expect (Bvxn.decode u bvxn)
  assert (bvxnDecoded = data)
  let decmpfs ← expect (Decmpfs.encode u data)
  let decmpfsDecoded ← expect (Decmpfs.decode u decmpfs.xattr decmpfs.resourceFork)
  assert (decmpfsDecoded = data)

/-- the target panics where `p` holds, and returns everywhere else -/
def CrashesWhen (target : Except Stop Unit) (p : Prop) : Prop :=
  (p → target = .error .panic) ∧ (¬ p → target = .ok ())

theorem maxDecodedLen_le (u : Usize) : maxDecodedLen ≤ u.isizeMax := by
  cases u <;> decide

/-! ## `raw_decode` -/

/-- the input announces more bytes than the stream behind the length gives -/
def Overstates (data : List UInt8) : Prop :=
  4 ≤ data.length ∧ leValue (data.take 4) ≤ maxDecodedLen ∧
    ∃ out, IsStream (data.drop 4) out ∧ out.length < leValue (data.take 4)

/-- both decoders on one stream, with a buffer of the expected length -/
theorem compare_raw {u : Usize} (encoded : List UInt8) {n : ℕ} (hn : n ≤ u.isizeMax) :
    CrashesWhen (do
      let decoded ← call (Raw.decode u encoded n)
      let output ← u.zeros n
      let (decodedInto, output) ← callInto (Raw.decodeInto encoded) output
      compare decoded decodedInto output) (∃ out, IsStream encoded out ∧ out.length < n) := by
  have hzeros : u.zeros n = .ok (List.replicate n 0) := if_pos hn
  have hlen : (List.replicate n (0 : UInt8)).length = n := List.length_replicate
  have hpanic : Raw.decode u encoded n ≠ .error .panic := fun h => absurd (Raw.decode_panic_iff.1 h) (not_lt.2 hn)
  rw [hzeros]
  simp only [except_ok_bind]
  cases hinto : (Raw.decodeInto encoded).run (List.replicate n 0) with
  | error e output =>
    have hno (out : List UInt8) (hs : IsStream encoded out) : n < out.length := by
      by_contra hle
      have hok := decodeInto_ok_iff.2 ⟨out, hs, rfl, hlen.ge.trans' (not_lt.1 hle), rfl⟩
      rw [hinto] at hok
      cases hok
    have hdecode : ∃ e', Raw.decode u encoded n = .error (.err e') := by
      cases h : Raw.decode u encoded n with
      | ok out =>
        obtain ⟨-, hs, rfl⟩ := Raw.decode_ok_iff.1 h
        exact absurd (hno out hs) (lt_irrefl _)
      | error e' =>
        cases e' with
        | err e' => exact ⟨e', rfl⟩
        | panic => exact absurd h hpanic
    obtain ⟨e', hdecode⟩ := hdecode
    cases e with
    | panic => exact absurd hinto (Raw.decodeInto_ne_panic _ _ _)
    | err e =>
      rw [hdecode]
      simp only [call, callInto, hinto]
      refine ⟨?_, fun _ => rfl⟩
      rintro ⟨out, hs, hlt⟩
      exact absurd (hno out hs) (not_lt.2 hlt.le)
  | ok written output =>
    obtain ⟨out, hs, rfl, hle, rfl⟩ := decodeInto_ok_iff.1 hinto
    rw [hlen] at hle
    rcases hle.eq_or_lt with rfl | hlt
    · rw [Raw.decode_ok_iff.2 ⟨hn, hs, rfl⟩]
      have hslice : slice (out ++ (List.replicate out.length (0 : UInt8)).drop out.length) 0 out.length = .ok out := by
        rw [slice_eq (Nat.zero_le _) (by rw [List.length_append]; omega), Nat.sub_zero, List.drop_zero, List.take_left]
      simp only [call, callInto, hinto, except_ok_bind, compare, hslice, assert, if_pos]
      refine ⟨?_, fun _ => rfl⟩
      rintro ⟨out', hs', hlt⟩
      rw [hs'.unique hs] at hlt
      exact absurd hlt (lt_irrefl _)
    · have hdecode : ∃ e, Raw.decode u encoded n = .error (.err e) := by
        cases h : Raw.decode u encoded n with
        | ok out' =>
          obtain ⟨-, hs', rfl⟩ := Raw.decode_ok_iff.1 h
          rw [hs'.unique hs] at hlt
          exact absurd hlt (lt_irrefl _)
        | error e =>
          cases e with
          | err e => exact ⟨e, rfl⟩
          | panic => exact absurd h hpanic
      obtain ⟨e, hdecode⟩ := hdecode
      rw [hdecode]
      simp only [call, callInto, hinto]
      exact ⟨fun _ => rfl, fun hnot => absurd ⟨out, hs, hlt⟩ hnot⟩

/-- **`raw_decode` panics exactly on the inputs that overstate their stream.** -/
theorem rawDecode_crashes (u : Usize) (data : List UInt8) : CrashesWhen (rawDecode u data) (Overstates data) := by
  unfold rawDecode Overstates
  by_cases hshort : data.length < 4
  · rw [if_pos hshort]
    exact ⟨fun h => absurd h.1 (not_le.2 hshort), fun _ => rfl⟩
  · have hread : fromLeBytes data 0 4 = .ok (leValue (data.take 4)) := fromLeBytes_inside (Nat.zero_le _) (not_lt.1 hshort)
    have hslice : slice data 4 data.length = .ok (data.drop 4) := by
      rw [slice_eq (not_lt.1 hshort) le_rfl, List.take_of_length_le (by rw [List.length_drop])]
    rw [if_neg hshort, hread, except_ok_bind]
    by_cases hlarge : maxDecodedLen < leValue (data.take 4)
    · rw [if_pos hlarge]
      exact ⟨fun h => absurd h.2.1 (not_le.2 hlarge), fun _ => rfl⟩
    · rw [if_neg hlarge, hslice, except_ok_bind]
      have hcompare := compare_raw (u := u) (data.drop 4) ((not_lt.1 hlarge).trans (maxDecodedLen_le u))
      refine ⟨fun h => hcompare.1 h.2.2, fun h => hcompare.2 fun hout => h ⟨not_lt.1 hshort, not_lt.1 hlarge, hout⟩⟩

/-- One byte is announced in front of an empty stream: `decode` finds a size mismatch, and `decode_into` returns 0. -/
theorem empty_stream_crashes : rawDecode .bits64 [1, 0, 0, 0, 0x06] = .error .panic :=
  (rawDecode_crashes .bits64 [1, 0, 0, 0, 0x06]).1 ⟨by decide, by decide, [], isStream_iff_scan.2 (by decide), by decide⟩

/-! ## The container targets -/

/-- what a decoder that returns a buffer of `n` bytes makes of a run -/
def checked (n : ℕ) : EStateM.Result Stop (List UInt8) ℕ → Except Stop (List UInt8)
  | .ok written dst => if written ≠ n then fail (.sizeMismatch n written) else .ok dst
  | .error e _ => .error e

/-- what a decoder into a buffer of `n` bytes makes of a run -/
def checkedInto (n : ℕ) : EStateM.Result Stop (List UInt8) ℕ → EStateM.Result Stop (List UInt8) ℕ
  | .ok written dst => if written ≠ n then .error (.err (.sizeMismatch n written)) dst else .ok written dst
  | .error e dst => .error e dst

/-- when both decoders make the same run, and check its length, they agree -/
theorem compare_same {n : ℕ} {decoded : Except Stop (List UInt8)} {into : Rust (List UInt8) ℕ}
    {r : EStateM.Result Stop (List UInt8) ℕ} (hlen : ∀ dst, r = .ok n dst → dst.length = n)
    (hpanic : ∀ dst, r ≠ .error .panic dst) (hdecoded : decoded = checked n r)
    (hinto : into.run (List.replicate n 0) = checkedInto n r) :
    ∃ kept, call decoded = .ok kept ∧ (do
      let (decodedInto, output) ← callInto into (List.replicate n 0)
      compare kept decodedInto output) = .ok () := by
  cases r with
  | error e dst =>
    cases e with
    | panic => exact absurd rfl (hpanic dst)
    | err e =>
      rw [checked] at hdecoded
      rw [checkedInto] at hinto
      refine ⟨.error e, by rw [hdecoded]; rfl, ?_⟩
      simp only [callInto, hinto]
      rfl
  | ok written dst =>
    rw [checked] at hdecoded
    rw [checkedInto] at hinto
    by_cases hne : written ≠ n
    · rw [if_pos hne] at hdecoded hinto
      refine ⟨.error (.sizeMismatch n written), by rw [hdecoded]; rfl, ?_⟩
      simp only [callInto, hinto]
      rfl
    · rw [if_neg hne] at hdecoded hinto
      obtain rfl : written = n := not_not.1 hne
      obtain rfl := hlen dst rfl
      have hslice : slice dst 0 dst.length = .ok dst := by
        rw [slice_eq (Nat.zero_le _) le_rfl, Nat.sub_zero, List.drop_zero, List.take_length]
      refine ⟨.ok dst, by rw [hdecoded]; rfl, ?_⟩
      simp only [callInto, hinto, except_ok_bind, compare, hslice, assert, if_pos]

/-- both decoders on one block, with a buffer of the declared size -/
theorem compare_bvxn {u : Usize} {data : List UInt8} {header : Bvxn.BvxnHeader}
    (hp : Bvxn.parseHeader data = .ok header) (hsize : header.rawBytes ≤ u.isizeMax)
    (hreturns : Bvxn.decode u data ≠ .error .panic) :
    ∃ kept, call (Bvxn.decode u data) = .ok kept ∧ (do
      let (decodedInto, output) ← callInto (Bvxn.decodeInto u data) (List.replicate header.rawBytes 0)
      compare kept decodedInto output) = .ok () := by
  have hzeros : u.zeros header.rawBytes = .ok (List.replicate header.rawBytes 0) := if_pos hsize
  have hsplit := Bvxn.splitBlock_eq u hp
  cases hblock : Bvxn.splitBlock u data with
  | error e =>
    -- the block is rejected before a payload is read, and the buffer stays as it was
    have hdecode : Bvxn.decode u data = .error e := by rw [Bvxn.decode, hblock]; rfl
    have hinto : (Bvxn.decodeInto u data).run (List.replicate header.rawBytes 0) =
        .error e (List.replicate header.rawBytes 0) := by
      simp only [Bvxn.decodeInto, EStateM.run_bind, hblock, run_lift_error]
    refine compare_same (r := .error e (List.replicate header.rawBytes 0)) (fun _ h => by cases h) ?_ hdecode hinto
    rintro dst h
    cases h
    exact hreturns hdecode
  | ok block =>
    obtain ⟨header', payload⟩ := block
    obtain rfl : header' = header := by
      rw [hsplit] at hblock
      split_ifs at hblock
      cases hblock
      rfl
    refine compare_same (r := (Raw.decodeInto payload).run (List.replicate header'.rawBytes 0)) ?_
      (fun dst => Raw.decodeInto_ne_panic _ _ dst) ?_ ?_
    · intro dst h
      obtain ⟨out, -, hlen, -, rfl⟩ := decodeInto_ok_iff.1 h
      rw [List.length_append, List.length_drop, List.length_replicate, hlen, Nat.sub_self, Nat.add_zero]
    · simp only [Bvxn.decode, hblock, except_ok_bind, Raw.decode, hzeros]
      rfl
    · simp only [Bvxn.decodeInto, EStateM.run_bind, hblock, run_lift_ok]
      cases (Raw.decodeInto payload).run (List.replicate header'.rawBytes 0) with
      | error e dst => rfl
      | ok written dst =>
        dsimp only [checkedInto]
        split_ifs <;> rfl

/-- **`bvxn_decode` panics exactly where `decode` does**: where the sizes of the header are too large for `usize`. -/
theorem bvxnDecode_crashes (u : Usize) (data : List UInt8) : CrashesWhen (bvxnDecode u data)
    (∃ header, Bvxn.parseHeader data = .ok header ∧ (u.max < Bvxn.headerLen + header.payloadBytes ∨
      data.length = Bvxn.headerLen + header.payloadBytes ∧ u.isizeMax < header.rawBytes)) := by
  rw [← Bvxn.decode_panic_iff]
  unfold bvxnDecode
  cases hp : Bvxn.parseHeader data with
  | error e =>
    have hdecode : Bvxn.decode u data = .error e := by rw [Bvxn.decode, Bvxn.splitBlock_error u hp]; rfl
    cases e with
    | panic => exact absurd hp (Bvxn.parseHeader_ne_panic data)
    | err e =>
      rw [hdecode]
      exact ⟨fun h => (by cases h), fun _ => rfl⟩
  | ok header =>
    refine ⟨fun h => by rw [h]; rfl, fun hreturns => ?_⟩
    by_cases hsmall : header.rawBytes ≤ maxDecodedLen
    · have hsize : header.rawBytes ≤ u.isizeMax := hsmall.trans (maxDecodedLen_le u)
      have hzeros : u.zeros header.rawBytes = .ok (List.replicate header.rawBytes 0) := if_pos hsize
      obtain ⟨kept, hkept, hcompare⟩ := compare_bvxn hp hsize hreturns
      rw [hkept]
      simp only [call, except_ok_bind, if_pos hsmall, hzeros]
      exact hcompare
    · cases hdecode : Bvxn.decode u data with
      | ok out =>
        simp only [call, except_ok_bind, if_neg hsmall]
        rfl
      | error e =>
        cases e with
        | panic => exact absurd hdecode hreturns
        | err e =>
          simp only [call, except_ok_bind, if_neg hsmall]
          rfl

/-- the two parts of the input of `decmpfs_decode` declare a size that exceeds `isize::MAX` -/
def DeclaresTooMuch (u : Usize) (data : List UInt8) : Prop :=
  4 ≤ data.length ∧ leValue (data.take 4) ≤ data.length - 4 ∧
    ∃ header, Decmpfs.parseHeader u ((data.drop 4).take (leValue (data.take 4))) = .ok header ∧
      u.isizeMax < header.uncompressedSize

/-- both decoders on one wrapper, with a buffer of the declared size -/
theorem compare_decmpfs {u : Usize} {xattr : List UInt8} (fork : Option (List UInt8)) {header : Decmpfs.DecmpfsHeader}
    (hp : Decmpfs.parseHeader u xattr = .ok header) (hsize : header.uncompressedSize ≤ u.isizeMax) :
    ∃ kept, call (Decmpfs.decode u xattr fork) = .ok kept ∧ (do
      let (decodedInto, output) ← callInto (Decmpfs.decodeInto u xattr fork) (List.replicate header.uncompressedSize 0)
      compare kept decodedInto output) = .ok () := by
  have hzeros : u.zeros header.uncompressedSize = .ok (List.replicate header.uncompressedSize 0) := if_pos hsize
  have hlen : (List.replicate header.uncompressedSize (0 : UInt8)).length = header.uncompressedSize :=
    List.length_replicate
  have hy := Decmpfs.decodeBody_yields (xattr.drop Decmpfs.decmpfsHeaderLen) fork
    (hsize.trans_lt (Decmpfs.isizeMax_lt u)) hlen.ge
  refine compare_same (r := (Decmpfs.decodeBody u header (xattr.drop Decmpfs.decmpfsHeaderLen) fork).run
    (List.replicate header.uncompressedSize 0)) ?_ ?_ ?_ ?_
  · intro dst h
    rw [h, Decmpfs.Yields, if_pos rfl] at hy
    obtain ⟨w, hw, -, rfl⟩ := hy
    rw [List.length_append, List.length_drop, hlen, hw, Nat.sub_self, Nat.add_zero]
  · intro dst h
    rw [h] at hy
    exact hy.1 rfl
  · simp only [Decmpfs.decode, Decmpfs.splitXattr_eq hp, except_ok_bind, hzeros]
    rfl
  · simp only [Decmpfs.decodeInto, EStateM.run_bind, Decmpfs.splitXattr_eq hp, run_lift_ok, EStateM.run_get]
    rw [if_neg (by rw [hlen]; exact lt_irrefl _), EStateM.run_bind]
    cases (Decmpfs.decodeBody u header (xattr.drop Decmpfs.decmpfsHeaderLen) fork).run
        (List.replicate header.uncompressedSize 0) with
    | error e dst => rfl
    | ok written dst =>
      dsimp only [checkedInto]
      split_ifs <;> rfl

/-- **`decmpfs_decode` panics exactly where `decode` does**: on a declared size that exceeds `isize::MAX`. -/
theorem decmpfsDecode_crashes (u : Usize) (data : List UInt8) :
    CrashesWhen (decmpfsDecode u data) (DeclaresTooMuch u data) := by
  unfold decmpfsDecode DeclaresTooMuch
  by_cases hshort : data.length < 4
  · rw [if_pos hshort]
    exact ⟨fun h => absurd h.1 (not_le.2 hshort), fun _ => rfl⟩
  have hread : fromLeBytes data 0 4 = .ok (leValue (data.take 4)) := fromLeBytes_inside (Nat.zero_le _) (not_lt.1 hshort)
  rw [if_neg hshort, hread, except_ok_bind, sub_eq (not_lt.1 hshort), except_ok_bind]
  by_cases hlong : data.length - 4 < leValue (data.take 4)
  · rw [if_pos hlong]
    exact ⟨fun h => absurd h.2.1 (not_le.2 hlong), fun _ => rfl⟩
  have hxattr : slice data 4 (4 + leValue (data.take 4)) = .ok ((data.drop 4).take (leValue (data.take 4))) := by
    rw [slice_eq (Nat.le_add_right _ _) (by omega), Nat.add_sub_cancel_left]
  have hfork : slice data (4 + leValue (data.take 4)) data.length = .ok (data.drop (4 + leValue (data.take 4))) := by
    rw [slice_eq (by omega) le_rfl, List.take_of_length_le (by rw [List.length_drop])]
  rw [if_neg hlong, hxattr, except_ok_bind, hfork, except_ok_bind]
  generalize (data.drop 4).take (leValue (data.take 4)) = xattr
  generalize data.drop (4 + leValue (data.take 4)) = fork
  have hiff : (4 ≤ data.length ∧ leValue (data.take 4) ≤ data.length - 4 ∧ ∃ header, Decmpfs.parseHeader u xattr = .ok header ∧
      u.isizeMax < header.uncompressedSize) ↔ Decmpfs.decode u xattr (some fork) = .error .panic := by
    rw [Decmpfs.decode_panic_iff]
    exact ⟨fun h => h.2.2, fun h => ⟨not_lt.1 hshort, not_lt.1 hlong, h⟩⟩
  rw [hiff]
  cases hp : Decmpfs.parseHeader u xattr with
  | error e =>
    have hdecode : Decmpfs.decode u xattr (some fork) = .error e := by
      rw [Decmpfs.decode, Decmpfs.splitXattr_error hp]
      rfl
    cases e with
    | panic => exact absurd hp (Decmpfs.parseHeader_ne_panic u xattr)
    | err e =>
      rw [hdecode]
      exact ⟨fun h => (by cases h), fun _ => rfl⟩
  | ok header =>
    refine ⟨fun h => by rw [h]; rfl, fun hreturns => ?_⟩
    have hsize : header.uncompressedSize ≤ u.isizeMax := by
      by_contra hlarge
      exact hreturns (Decmpfs.decode_panic_iff.2 ⟨header, hp, not_le.1 hlarge⟩)
    have hzeros : u.zeros header.uncompressedSize = .ok (List.replicate header.uncompressedSize 0) := if_pos hsize
    obtain ⟨kept, hkept, hcompare⟩ := compare_decmpfs (some fork) hp hsize
    rw [hkept]
    simp only [call, except_ok_bind, hzeros]
    split_ifs
    · exact hcompare
    · rfl

/-- A header of sixteen bytes declares 2^63 bytes on 64 bits. -/
theorem huge_size_crashes :
    decmpfsDecode .bits64 ([16, 0, 0, 0] ++ [0x66, 0x70, 0x6D, 0x63, 7, 0, 0, 0, 0, 0, 0, 0, 0, 0, 0, 0x80]) =
      .error .panic :=
  (decmpfsDecode_crashes .bits64 _).1 ⟨by decide, by decide, ⟨.lzvnXattr, 2 ^ 63⟩, by decide, by decide⟩

/-! ## `roundtrip` -/

/-- what a `decmpfs` value of few enough bytes is encoded to is decoded -/
theorem decmpfs_returns {u : Usize} (data : Slice u) (hsmall : data.bytes.length ≤ maxInputLen) :
    ∃ e, Decmpfs.encode u data.bytes = .ok e ∧ Decmpfs.decode u e.xattr e.resourceFork = .ok data.bytes := by
  have hblocks : data.bytes.length ⌈/⌉ Decmpfs.decmpfsChunkSize ≤ data.bytes.length := by
    rw [Nat.ceilDiv_eq_add_pred_div, Decmpfs.decmpfsChunkSize]
    omega
  rw [maxInputLen] at hsmall
  obtain ⟨e, he⟩ := Decmpfs.encode_fits data (by rw [u32Max]; omega)
  exact ⟨e, he, (Decmpfs.encode_restores he).1⟩

/-- a block of few enough bytes is decoded -/
theorem bvxn_returns {u : Usize} (data : Slice u) (hsmall : data.bytes.length ≤ maxInputLen) :
    ∃ b, Bvxn.encode data.bytes = .ok b ∧ Bvxn.decode u b = .ok data.bytes := by
  obtain ⟨body, w, he, -, -⟩ := encode_spec data.bytes
  obtain ⟨bytes, hbytes, hlen⟩ := encode_pays data.bytes
  obtain rfl : bytes = body ++ eos := Except.ok.inj (hbytes.symm.trans he)
  rw [maxInputLen] at hsmall
  have hb : Bvxn.encode data.bytes = .ok ((Bvxn.BvxnHeader.mk data.bytes.length (body ++ eos).length).bytes ++ (body ++ eos)) :=
    Bvxn.encode_ok_iff.2 ⟨_, he, by rw [u32Max]; omega, by rw [u32Max]; omega, rfl⟩
  have hmax : 2 ^ 32 - 1 ≤ u.max := by cases u <;> decide
  refine ⟨_, hb, Bvxn.decode_ok_iff.2 ⟨Bvxn.encode_isBlock hb, ?_, data.length_le⟩⟩
  rw [List.length_append, Bvxn.length_bytes, Bvxn.headerLen]
  omega

/-- **`roundtrip` never panics.** Every input that it takes goes through all three formats and back. -/
theorem roundtrip_returns (u : Usize) (data : Slice u) : roundtrip u data.bytes = .ok () := by
  unfold roundtrip
  by_cases hlarge : maxInputLen < data.bytes.length
  · rw [if_pos hlarge]
    rfl
  obtain ⟨body, w, he, -, -⟩ := encode_spec data.bytes
  have hraw : Raw.decode u (body ++ eos) data.bytes.length = .ok data.bytes :=
    Raw.decode_ok_iff.2 ⟨data.length_le, encode_isStream he, rfl⟩
  obtain ⟨b, hb, hbvxn⟩ := bvxn_returns data (not_lt.1 hlarge)
  obtain ⟨e, hencode, hdecmpfs⟩ := decmpfs_returns data (not_lt.1 hlarge)
  simp only [if_neg hlarge, he, hraw, hb, hbvxn, hencode, hdecmpfs, expect, assert, if_pos, except_ok_bind]

end Lzvn.Fuzz
