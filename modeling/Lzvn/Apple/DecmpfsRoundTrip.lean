/-
The encoder of the `decmpfs` wrapper against its decoder.

- `packs_bestPayload`, `length_bestPayload_le`: a payload holds its source and is at most a byte longer.
- `encodeResourceFork_eq`: the fork is the table and the blocks of the 64 KiB chunks, or is beyond `u32::MAX`.
- `isFork_forkOf`, `length_forkOf_le`: the fork holds the source, and how long it is.
- `decmpfs_round_trip`: the wrapper decodes to the source and keeps its sizes.
-/
import Lzvn.Apple.DecmpfsLayout
import Lzvn.Raw.RoundTrip

namespace Lzvn.Apple.Decmpfs

open Lzvn.Core Lzvn.Core.OffsetTable

/-! ## Payloads -/

/-- what `bestLzvnWrapperPayload` returns -/
def bestPayload (src : List UInt8) : List UInt8 :=
  match bestLzvnWrapperPayload src with
  | .ok payload => payload
  | .error _ => []

/-- the shorter of the two payloads is returned, and each holds the source -/
theorem bestLzvnWrapperPayload_spec (src : List UInt8) :
    ∃ p, bestLzvnWrapperPayload src = .ok p ∧ Packs p src ∧ p.length ≤ src.length + 1 := by
  obtain ⟨body, w, he, -, -⟩ := Raw.encode_spec src
  rw [bestLzvnWrapperPayload, he, except_ok_bind]
  by_cases hlt : (lzvnUncompressedPayload src).length < (body ++ Raw.eos).length
  · rw [if_pos hlt]
    exact ⟨_, rfl, .inl rfl, le_of_eq (List.length_cons ..)⟩
  · rw [if_neg hlt]
    exact ⟨_, rfl, .inr (Raw.encode_isStream he), not_lt.1 hlt⟩

theorem bestLzvnWrapperPayload_eq (src : List UInt8) : bestLzvnWrapperPayload src = .ok (bestPayload src) := by
  obtain ⟨p, hp, -, -⟩ := bestLzvnWrapperPayload_spec src
  rw [bestPayload, hp]

theorem packs_bestPayload (src : List UInt8) : Packs (bestPayload src) src := by
  obtain ⟨p, hp, h, -⟩ := bestLzvnWrapperPayload_spec src
  rwa [bestPayload, hp]

theorem length_bestPayload_le (src : List UInt8) : (bestPayload src).length ≤ src.length + 1 := by
  obtain ⟨p, hp, -, h⟩ := bestLzvnWrapperPayload_spec src
  rwa [bestPayload, hp]

/-! ## Chunks -/

theorem length_chunks (size : ℕ) (src : List UInt8) : (chunks size src).length = src.length ⌈/⌉ size := by
  rw [chunks, List.length_map, List.length_range]

theorem getElem?_chunks {size i : ℕ} {src : List UInt8} (hi : i < src.length ⌈/⌉ size) :
    (chunks size src)[i]? = some ((src.drop (i * size)).take size) := by
  rw [chunks, List.getElem?_map, List.getElem?_range hi, Option.map_some]

theorem length_of_mem_chunks {size : ℕ} {src c : List UInt8} (h : c ∈ chunks size src) : c.length ≤ size := by
  obtain ⟨i, -, rfl⟩ := List.mem_map.1 h
  exact List.length_take_le _ _

/-- the chunks are the source, cut -/
theorem flatten_chunks {size : ℕ} (hsize : 0 < size) (src : List UInt8) : (chunks size src).flatten = src := by
  have hfront (k : ℕ) : ((List.range k).map fun i => (src.drop (i * size)).take size).flatten = src.take (k * size) := by
    induction k with
    | zero => rw [Nat.zero_mul]; rfl
    | succ k ih =>
      rw [List.range_succ, List.map_append, List.flatten_append, ih, Nat.succ_mul, List.take_add]
      simp
  have hall : src.length ≤ (src.length ⌈/⌉ size) * size := by
    calc src.length ≤ size • (src.length ⌈/⌉ size) := le_smul_ceilDiv hsize
      _ = (src.length ⌈/⌉ size) * size := by rw [smul_eq_mul, Nat.mul_comm]
  rw [chunks, hfront, List.take_of_length_le hall]

/-! ## Forks -/

/-- the size of the table of the offsets of the blocks of `size` bytes -/
def tableLen (size : ℕ) : ℕ := (blockCount size + 1) * 4

/-- the blocks of `src` -/
def blocksOf (src : List UInt8) : List (List UInt8) := (chunks decmpfsChunkSize src).map bestPayload

/-- the fork of `src` -/
def forkOf (src : List UInt8) : List UInt8 := pack 4 (tableLen src.length) (blocksOf src)

theorem encodeChunk_eq {u : Usize} {c : List UInt8} (hc : c.length ≤ decmpfsChunkSize) (t : ForkTable) :
    encodeChunk u t c = if t.offset + (bestPayload c).length ≤ u32Max then
      .ok ⟨t.offset + (bestPayload c).length, t.offsets ++ [t.offset + (bestPayload c).length],
        t.blocks ++ [bestPayload c]⟩
    else fail (.sizeOverflow u.max u32Max "decmpfs resource fork") := by
  have hlen : (bestPayload c).length ≤ u32Max := by
    have := length_bestPayload_le c
    rw [decmpfsChunkSize] at hc
    rw [u32Max]
    omega
  rw [encodeChunk, bestLzvnWrapperPayload_eq, except_ok_bind, u32TryFrom, if_pos hlen, except_ok_bind, u32CheckedAdd]
  split_ifs <;> rfl

/-- the loop over the chunks packs their payloads as long as the offsets fit in `u32` -/
theorem encodeChunks_eq {u : Usize} {first : ℕ} (hfirst : first ≤ u32Max) (cs : List (List UInt8))
    (hcs : ∀ c ∈ cs, c.length ≤ decmpfsChunkSize) : cs.foldlM (encodeChunk u) ⟨first, [first], []⟩ =
      if first + ((cs.map bestPayload).map List.length).sum ≤ u32Max then
        .ok ⟨first + ((cs.map bestPayload).map List.length).sum, offsetsFrom first (cs.map bestPayload), cs.map bestPayload⟩
      else fail (.sizeOverflow u.max u32Max "decmpfs resource fork") := by
  induction cs using List.reverseRecOn with
  | nil => exact (if_pos hfirst).symm
  | append_singleton cs c ih =>
    have hsum : (((cs ++ [c]).map bestPayload).map List.length).sum =
        ((cs.map bestPayload).map List.length).sum + (bestPayload c).length := by
      simp
    rw [List.foldlM_append, ih fun d hd => hcs d (List.mem_append_left _ hd), hsum]
    by_cases hfit : first + ((cs.map bestPayload).map List.length).sum ≤ u32Max
    · rw [if_pos hfit, except_ok_bind, List.foldlM_cons, encodeChunk_eq (hcs c (by simp)), ← Nat.add_assoc]
      split_ifs
      · rw [List.map_append, List.map_singleton, offsetsFrom_snoc]
        rfl
      · rfl
    · rw [if_neg hfit, if_neg (by omega)]
      rfl

theorem length_blocksOf (src : List UInt8) : (blocksOf src).length = blockCount src.length := by
  rw [blocksOf, List.length_map, length_chunks, blockCount_eq]

theorem length_forkOf (src : List UInt8) :
    (forkOf src).length = tableLen src.length + ((blocksOf src).map List.length).sum :=
  length_pack (by rw [length_blocksOf, tableLen])

/-- **`encode_resource_fork`** returns the fork as long as its length fits in `u32`. -/
theorem encodeResourceFork_eq {u : Usize} {src : List UInt8} (hmax : src.length ≤ u.max) :
    ((forkOf src).length ≤ u32Max ∧ encodeResourceFork u src = .ok (forkOf src)) ∨
      (u32Max < (forkOf src).length ∧ ∃ e, encodeResourceFork u src = .error (.err e)) := by
  have hlen := length_forkOf src
  rw [encodeResourceFork, (offsetTableLen_eq hmax).1, except_ok_bind, ← tableLen, u32TryFrom]
  by_cases htable : tableLen src.length ≤ u32Max
  · rw [if_pos htable, except_ok_bind, encodeChunks_eq htable _ fun c hc => length_of_mem_chunks hc, ← blocksOf, ← hlen]
    by_cases hfit : (forkOf src).length ≤ u32Max
    · rw [if_pos hfit]
      exact .inl ⟨hfit, rfl⟩
    · rw [if_neg hfit]
      exact .inr ⟨not_le.1 hfit, _, rfl⟩
  · rw [if_neg htable]
    exact .inr ⟨by omega, _, rfl⟩

/-- a block is at most a byte longer than its chunk -/
theorem sum_length_bestPayload_le (cs : List (List UInt8)) :
    ((cs.map bestPayload).map List.length).sum ≤ (cs.map List.length).sum + cs.length := by
  induction cs with
  | nil => rfl
  | cons c cs ih =>
    have := length_bestPayload_le c
    simp only [List.map_cons, List.sum_cons, List.length_cons]
    omega

/-- **The length of a fork** of `n` bytes in `k` blocks is at most `n + 5 * k + 4`. -/
theorem length_forkOf_le (src : List UInt8) :
    (forkOf src).length ≤ src.length + 5 * (src.length ⌈/⌉ decmpfsChunkSize) + 4 := by
  have hsource : ((chunks decmpfsChunkSize src).map List.length).sum = src.length := by
    rw [← List.length_flatten, flatten_chunks (by decide)]
  calc (forkOf src).length = tableLen src.length + ((blocksOf src).map List.length).sum := length_forkOf src
    _ ≤ tableLen src.length +
        (((chunks decmpfsChunkSize src).map List.length).sum + (chunks decmpfsChunkSize src).length) :=
      Nat.add_le_add_left (sum_length_bestPayload_le _) _
    _ = (src.length ⌈/⌉ decmpfsChunkSize + 1) * 4 + (src.length + src.length ⌈/⌉ decmpfsChunkSize) := by
      rw [hsource, length_chunks, tableLen, blockCount_eq]
    _ = src.length + 5 * (src.length ⌈/⌉ decmpfsChunkSize) + 4 := by ring

/-- **The fork of `src` holds `src`.** -/
theorem isFork_forkOf {src : List UInt8} (hfit : (forkOf src).length ≤ u32Max) : IsFork (forkOf src) src := by
  have hfirst : tableLen src.length = ((blocksOf src).length + 1) * 4 := by rw [length_blocksOf, tableLen]
  have hlen := length_forkOf src
  have hlt : tableLen src.length + ((blocksOf src).map List.length).sum < 256 ^ 4 := by
    rw [u32Max] at hfit
    omega
  have hcount : (blocksOf src).length = src.length ⌈/⌉ decmpfsChunkSize := by rw [length_blocksOf, blockCount_eq]
  refine isFork_iff.2 ⟨?_, ?_⟩
  · rw [← hcount]
    exact isTable_pack hfirst hlt
  · intro i hi
    have hblock : (blocksOf src)[i]? = some (bestPayload (sliceOf src i)) := by
      rw [blocksOf, List.getElem?_map, getElem?_chunks hi, Option.map_some, sliceOf]
    rw [forkOf, block_pack hfirst hlt hblock]
    exact packs_bestPayload _

/-! ## Wrappers -/

theorem isizeMax_le_u64Max (u : Usize) : u.isizeMax ≤ u64Max := by
  cases u <;> simp [Usize.isizeMax, Usize.bits, u64Max]

/-- the header and a payload of `src` -/
def xattrOf (kind : DecmpfsCompressionType) (src payload : List UInt8) : List UInt8 :=
  leBytes 4 decmpfsMagic ++ leBytes 4 kind.rawValue ++ leBytes 8 src.length ++ payload

theorem length_xattrOf (kind : DecmpfsCompressionType) (src payload : List UInt8) :
    (xattrOf kind src payload).length = decmpfsHeaderLen + payload.length := by
  simp only [xattrOf, List.length_append, length_leBytes, decmpfsHeaderLen]

theorem buildXattr_eq {u : Usize} (kind : DecmpfsCompressionType) (src : Slice u) (payload : List UInt8) :
    buildXattr u kind src.bytes.length payload = .ok (xattrOf kind src.bytes payload) :=
  if_neg (not_lt.2 (src.length_le.trans (isizeMax_le_u64Max u)))

/-- what the payload and the fork behind a header hold is decoded -/
theorem decode_xattrOf {u : Usize} {src : Slice u} {kind : DecmpfsCompressionType} {payload : List UInt8}
    {fork : Option (List UInt8)} (hraw : kind.rawValue < 256 ^ 4) (hkind : kind = .fromRaw kind.rawValue)
    (h : Holds kind payload fork src.bytes) : decode u (xattrOf kind src.bytes payload) fork = .ok src.bytes := by
  have hsize : src.bytes.length < 256 ^ 8 := by
    have := src.length_le.trans (isizeMax_le_u64Max u)
    rw [u64Max] at this
    omega
  have hparse : parseHeader u (xattrOf kind src.bytes payload) = .ok ⟨kind, src.bytes.length⟩ :=
    parseHeader_ok_iff.2 ⟨kind.rawValue, payload, rfl, hraw, hkind, hsize, src.length_le.trans (isizeMax_lt u).le⟩
  refine decode_ok_iff.2 ⟨_, hparse, src.length_le, rfl, ?_⟩
  rw [xattrOf, drop_header]
  exact h

/-- `encode`: the payload in the xattr when it fits there, and the fork else -/
theorem encode_eq {u : Usize} (src : Slice u) : encode u src.bytes =
    if (bestPayload src.bytes).length ≤ decmpfsMaxXattrDataSize then
      .ok ⟨xattrOf .lzvnXattr src.bytes (bestPayload src.bytes), none⟩
    else (encodeResourceFork u src.bytes).map fun fork => ⟨xattrOf .lzvnResourceFork src.bytes [], some fork⟩ := by
  rw [encode, bestLzvnWrapperPayload_eq, except_ok_bind, buildXattr_eq, buildXattr_eq]
  split_ifs
  · rfl
  · cases encodeResourceFork u src.bytes <;> rfl

/-- what `encode` returns decodes to the source, and is not large -/
theorem encode_restores {u : Usize} {src : Slice u} {e : EncodedDecmpfs} (he : encode u src.bytes = .ok e) :
    decode u e.xattr e.resourceFork = .ok src.bytes ∧ e.xattr.length ≤ decmpfsMaxXattrSize ∧
      ∀ fork, e.resourceFork = some fork →
        fork.length ≤ src.bytes.length + 5 * (src.bytes.length ⌈/⌉ decmpfsChunkSize) + 4 := by
  rw [encode_eq] at he
  by_cases hinline : (bestPayload src.bytes).length ≤ decmpfsMaxXattrDataSize
  · rw [if_pos hinline] at he
    cases he
    refine ⟨decode_xattrOf (by decide) rfl (packs_bestPayload _), ?_, fun fork hfork => by cases hfork⟩
    rw [decmpfsMaxXattrDataSize] at hinline
    rw [length_xattrOf, decmpfsHeaderLen, decmpfsMaxXattrSize]
    rw [decmpfsHeaderLen, decmpfsMaxXattrSize] at hinline
    omega
  · rw [if_neg hinline] at he
    rcases encodeResourceFork_eq (src.length_le.trans (isizeMax_lt u).le) with ⟨hfit, hr⟩ | ⟨hover, e', hr⟩
    · rw [hr] at he
      cases he
      refine ⟨decode_xattrOf (by decide) rfl ⟨rfl, _, rfl, isFork_forkOf hfit⟩, ?_, ?_⟩
      · rw [length_xattrOf, List.length_nil]
        decide
      · intro fork hfork
        cases hfork
        exact length_forkOf_le src.bytes
    · rw [hr] at he
      cases he

/-- a source whose fork fits in a `u32` is encoded -/
theorem encode_fits {u : Usize} (src : Slice u)
    (hle : src.bytes.length + 5 * (src.bytes.length ⌈/⌉ decmpfsChunkSize) + 4 ≤ u32Max) : ∃ e, encode u src.bytes = .ok e := by
  have hbound := length_forkOf_le src.bytes
  rw [encode_eq]
  by_cases hinline : (bestPayload src.bytes).length ≤ decmpfsMaxXattrDataSize
  · rw [if_pos hinline]
    exact ⟨_, rfl⟩
  · rw [if_neg hinline]
    rcases encodeResourceFork_eq (src.length_le.trans (isizeMax_lt u).le) with ⟨-, hr⟩ | ⟨hover, -⟩
    · rw [hr]
      exact ⟨_, rfl⟩
    · exact absurd (hbound.trans hle) (not_le.2 hover)

/-- **Round trip of the `decmpfs` wrapper, and its sizes.** What `encode` returns decodes to the source, in an xattr of at
most 3802 bytes and a fork of at most `n + 5 * k + 4` bytes for `n` bytes in `k` chunks. When that is at most `u32::MAX`,
`encode` returns `Ok`. -/
theorem decmpfs_round_trip (u : Usize) (src : Slice u) :
    (∀ e, encode u src.bytes = .ok e → decode u e.xattr e.resourceFork = .ok src.bytes ∧
      e.xattr.length ≤ decmpfsMaxXattrSize ∧ ∀ fork, e.resourceFork = some fork →
        fork.length ≤ src.bytes.length + 5 * (src.bytes.length ⌈/⌉ decmpfsChunkSize) + 4) ∧
    (src.bytes.length + 5 * (src.bytes.length ⌈/⌉ decmpfsChunkSize) + 4 ≤ u32Max →
      ∃ e, encode u src.bytes = .ok e) :=
  ⟨fun _ he => encode_restores he, encode_fits src⟩

theorem decmpfs_round_trip_one_byte :
    ∃ e, encode .bits64 [0x61] = .ok e ∧ decode .bits64 e.xattr e.resourceFork = .ok [0x61] := by
  obtain ⟨hround, hok⟩ := decmpfs_round_trip .bits64 ⟨[0x61], by decide⟩
  obtain ⟨e, he⟩ := hok (by simp only [Nat.ceilDiv_eq_add_pred_div]; decide)
  exact ⟨e, he, (hround e he).1⟩

end Lzvn.Apple.Decmpfs
