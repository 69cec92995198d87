/-
Where the contents of a `decmpfs` file are, and how a fork is made of blocks.

- `decode_xattrOf_iff`: what is decoded from a header and what stands behind it.
- `decode_blockwise`: a fork is decoded exactly when each of its blocks is, as a file of its own with the block in the xattr.
- `assembled_blocks_decode`: blocks that are decoded one by one are decoded together, whatever encoder each of them is from.
- `encode_assembles`: that is how `encode` makes a fork, and these are all the ways in which it fails.
- `payload_has_one_place`: `uses_resource_fork` says whether the xattr or the fork holds the contents.
-/
import Lzvn.Apple.DecmpfsRoundTrip

namespace Lzvn.Apple.Decmpfs

open Lzvn.Core Lzvn.Core.OffsetTable

variable {u : Usize} {kind : DecmpfsCompressionType} {payload fork v : List UInt8}

/-! ## Blocks as files -/

/-- a header is read back -/
theorem parseHeader_xattrOf (hraw : kind.rawValue < 256 ^ 4) (hkind : kind = .fromRaw kind.rawValue)
    (hv : v.length ≤ u.isizeMax) (payload : List UInt8) :
    parseHeader u (xattrOf kind v payload) = .ok ⟨kind, v.length⟩ := by
  have hsize : v.length < 256 ^ 8 := by
    have := hv.trans (isizeMax_le_u64Max u)
    rw [u64Max] at this
    omega
  exact parseHeader_ok_iff.2 ⟨kind.rawValue, payload, rfl, hraw, hkind, hsize, hv.trans (isizeMax_lt u).le⟩

/-- what the payload and the fork behind a header hold is decoded, and nothing else -/
theorem decode_xattrOf_iff (hraw : kind.rawValue < 256 ^ 4) (hkind : kind = .fromRaw kind.rawValue)
    {fork : Option (List UInt8)} :
    decode u (xattrOf kind v payload) fork = .ok v ↔ v.length ≤ u.isizeMax ∧ Holds kind payload fork v := by
  have hpayload : (xattrOf kind v payload).drop decmpfsHeaderLen = payload := drop_header _ _ _
  constructor
  · intro h
    obtain ⟨header, hparsed, hmax, hlen, hholds⟩ := decode_ok_iff.1 h
    have hv : v.length ≤ u.isizeMax := hlen.trans_le hmax
    rw [parseHeader_xattrOf hraw hkind hv, Except.ok.injEq] at hparsed
    subst hparsed
    rw [hpayload] at hholds
    exact ⟨hv, hholds⟩
  · intro h
    obtain ⟨hv, hholds⟩ := h
    refine decode_ok_iff.2 ⟨_, parseHeader_xattrOf hraw hkind hv payload, hv, rfl, ?_⟩
    rwa [hpayload]

/-- a block in the xattr -/
theorem decode_block_iff :
    decode u (xattrOf .lzvnXattr v payload) none = .ok v ↔ v.length ≤ u.isizeMax ∧ Packs payload v :=
  decode_xattrOf_iff (by decide) rfl

/-- a fork -/
theorem decode_fork_iff :
    decode u (xattrOf .lzvnResourceFork v []) (some fork) = .ok v ↔ v.length ≤ u.isizeMax ∧ IsFork fork v := by
  have hholds : Holds .lzvnResourceFork [] (some fork) v ↔ IsFork fork v := by simp [Holds]
  rw [← hholds]
  exact decode_xattrOf_iff (by decide) rfl

theorem length_sliceOf_le (v : List UInt8) (i : ℕ) : (sliceOf v i).length ≤ v.length := by
  rw [sliceOf, List.length_take, List.length_drop]
  omega

/-- **A fork is decoded block by block.** It is decoded to `v` exactly when its table is good and each block alone, in the xattr
of a file of its own, is decoded to its slice of `v`. -/
theorem decode_blockwise (u : Usize) (fork v : List UInt8) :
    decode u (xattrOf .lzvnResourceFork v []) (some fork) = .ok v ↔ v.length ≤ u.isizeMax ∧
      IsTable 4 fork (v.length ⌈/⌉ decmpfsChunkSize) ∧ ∀ i < v.length ⌈/⌉ decmpfsChunkSize,
        decode u (xattrOf .lzvnXattr (sliceOf v i) (block 4 fork i)) none = .ok (sliceOf v i) := by
  rw [decode_fork_iff, isFork_iff]
  refine and_congr_right fun hv => and_congr_right fun _ => forall₂_congr fun i _ => ?_
  rw [decode_block_iff]
  exact (and_iff_right ((length_sliceOf_le v i).trans hv)).symm

/-- **Blocks that are decoded one by one are decoded together.** -/
theorem assembled_blocks_decode (u : Usize) (v : List UInt8) (blocks : List (List UInt8)) (hv : v.length ≤ u.isizeMax)
    (hcount : blocks.length = v.length ⌈/⌉ decmpfsChunkSize)
    (hfit : (blocks.length + 1) * 4 + (blocks.map List.length).sum ≤ u32Max)
    (hblocks : ∀ i b, blocks[i]? = some b → decode u (xattrOf .lzvnXattr (sliceOf v i) b) none = .ok (sliceOf v i)) :
    decode u (xattrOf .lzvnResourceFork v []) (some (pack 4 ((blocks.length + 1) * 4) blocks)) = .ok v := by
  have hlt : (blocks.length + 1) * 4 + (blocks.map List.length).sum < 256 ^ 4 := by
    rw [u32Max] at hfit
    omega
  refine decode_fork_iff.2 ⟨hv, isFork_iff.2 ⟨?_, ?_⟩⟩
  · rw [← hcount]
    exact isTable_pack rfl hlt
  · intro i hi
    rw [← hcount] at hi
    have hblock := List.getElem?_eq_getElem hi
    rw [block_pack rfl hlt hblock]
    exact (decode_block_iff.1 (hblocks i _ hblock)).2

/-- a stored block of 64 KiB, and a block of one literal behind it -/
theorem two_blocks_decode : decode .bits64 (xattrOf .lzvnResourceFork (List.replicate decmpfsChunkSize 0x61 ++ [0x62]) [])
    (some (pack 4 ((2 + 1) * 4)
      [lzvnUncompressedSentinel :: List.replicate decmpfsChunkSize 0x61, [0xE1, 0x62, 0x06]])) =
    .ok (List.replicate decmpfsChunkSize 0x61 ++ [0x62]) := by
  have hchunk : (List.replicate decmpfsChunkSize (0x61 : UInt8)).length = decmpfsChunkSize := List.length_replicate
  have hlen : (List.replicate decmpfsChunkSize (0x61 : UInt8) ++ [0x62]).length = decmpfsChunkSize + 1 := by
    rw [List.length_append, hchunk, List.length_singleton]
  have hmax : decmpfsChunkSize + 1 ≤ Usize.bits64.isizeMax := by decide
  have hfirst : sliceOf (List.replicate decmpfsChunkSize 0x61 ++ [0x62]) 0 = List.replicate decmpfsChunkSize 0x61 := by
    rw [sliceOf, Nat.zero_mul, List.drop_zero, List.take_left' hchunk]
  have hsecond : sliceOf (List.replicate decmpfsChunkSize 0x61 ++ [0x62]) 1 = [0x62] := by
    rw [sliceOf, Nat.one_mul, List.drop_left' hchunk]
    rfl
  refine assembled_blocks_decode .bits64 _
    [lzvnUncompressedSentinel :: List.replicate decmpfsChunkSize 0x61, [0xE1, 0x62, 0x06]] (hlen ▸ hmax) ?_ ?_ ?_
  · rw [hlen, Nat.ceilDiv_eq_add_pred_div]
    decide
  · simp only [List.map_cons, List.map_nil, List.length_cons, hchunk, List.sum_cons, List.sum_nil, List.length_nil]
    decide
  · have hlong : (List.replicate decmpfsChunkSize (0x61 : UInt8)).length ≤ Usize.bits64.isizeMax :=
      hchunk.trans_le ((Nat.le_succ _).trans hmax)
    intro i b hb
    rcases i with _ | _ | i
    · obtain rfl := Option.some.inj hb
      rw [hfirst]
      exact decode_block_iff.2 ⟨hlong, .inl rfl⟩
    · obtain rfl := Option.some.inj hb
      rw [hsecond]
      exact decode_block_iff.2 ⟨by decide, .inr (Raw.isStream_iff_scan.2 (by decide))⟩
    · cases hb

/-! ## The encoder -/

/-- a payload is the shorter one of the raw stream and the stored bytes, and the raw stream if they are equally long -/
theorem bestPayload_shorter (src : List UInt8) : ∃ stream, Raw.encode src = .ok stream ∧
    bestPayload src = if src.length + 1 < stream.length then lzvnUncompressedSentinel :: src else stream := by
  obtain ⟨body, w, hencode, -, -⟩ := Raw.encode_spec src
  refine ⟨_, hencode, ?_⟩
  rw [bestPayload, bestLzvnWrapperPayload, hencode, except_ok_bind, lzvnUncompressedPayload]
  dsimp only [List.length_cons]
  split_ifs <;> rfl

/-- **`encode`, whole.** The payload of the source, where it fits in the xattr; otherwise a fork of the payloads of its chunks,
unless the table or the fork are beyond `u32::MAX`. A payload is no longer than either of the two forms of a block, and alone it
is decoded to what it is the payload of. -/
theorem encode_assembles (u : Usize) (src : Slice u) :
    encode u src.bytes = (
      if (bestPayload src.bytes).length ≤ decmpfsMaxXattrDataSize then
        .ok ⟨xattrOf .lzvnXattr src.bytes (bestPayload src.bytes), none⟩
      else if u32Max < tableLen src.bytes.length then
        fail (.sizeOverflow (tableLen src.bytes.length) u32Max "decmpfs resource fork offset table")
      else if u32Max < tableLen src.bytes.length + ((blocksOf src.bytes).map List.length).sum then
        fail (.sizeOverflow u.max u32Max "decmpfs resource fork")
      else .ok ⟨xattrOf .lzvnResourceFork src.bytes [], some (pack 4 (tableLen src.bytes.length) (blocksOf src.bytes))⟩) ∧
    ∀ chunk : Slice u, decode u (xattrOf .lzvnXattr chunk.bytes (bestPayload chunk.bytes)) none = .ok chunk.bytes ∧
      ∃ stream, Raw.encode chunk.bytes = .ok stream ∧
        (bestPayload chunk.bytes).length = min (chunk.bytes.length + 1) stream.length := by
  have hpayload (chunk : List UInt8) : ∃ stream, Raw.encode chunk = .ok stream ∧
      (bestPayload chunk).length = min (chunk.length + 1) stream.length := by
    obtain ⟨stream, hencode, hbest⟩ := bestPayload_shorter chunk
    refine ⟨stream, hencode, ?_⟩
    rw [hbest]
    split_ifs with hlt
    · rw [List.length_cons, min_eq_left hlt.le]
    · rw [min_eq_right (not_lt.1 hlt)]
  refine ⟨?_, fun chunk => ⟨decode_block_iff.2 ⟨chunk.length_le, packs_bestPayload _⟩, hpayload _⟩⟩
  have hmax : src.bytes.length ≤ u.max := src.length_le.trans (isizeMax_lt u).le
  rw [encode_eq]
  by_cases hinline : (bestPayload src.bytes).length ≤ decmpfsMaxXattrDataSize
  · rw [if_pos hinline, if_pos hinline]
  · rw [if_neg hinline, if_neg hinline, encodeResourceFork, (offsetTableLen_eq hmax).1, except_ok_bind, ← tableLen, u32TryFrom]
    by_cases htable : tableLen src.bytes.length ≤ u32Max
    · rw [if_pos htable, if_neg (not_lt.2 htable), except_ok_bind,
        encodeChunks_eq htable _ fun c hc => length_of_mem_chunks hc, ← blocksOf]
      by_cases hfit : tableLen src.bytes.length + ((blocksOf src.bytes).map List.length).sum ≤ u32Max
      · rw [if_pos hfit, if_neg (not_lt.2 hfit)]
        rfl
      · rw [if_neg hfit, if_pos (not_le.1 hfit)]
        rfl
    · rw [if_neg htable, if_pos (not_le.1 htable)]
      rfl

/-! ## The place of the contents -/

/-- where the fork is not used, it makes no difference -/
theorem decodeBody_ignores_fork {header : DecmpfsHeader} (h : header.compressionType.usesResourceFork = false)
    (payload : List UInt8) (fork : Option (List UInt8)) :
    decodeBody u header payload fork = decodeBody u header payload none := by
  obtain ⟨kind, size⟩ := header
  cases kind with
  | lzvnResourceFork => cases h
  | _ => rfl

/-- what is held is in the fork, with nothing behind the header, or in what is behind the header -/
theorem Holds.place {fork : Option (List UInt8)} (h : Holds kind payload fork v) :
    (kind.usesResourceFork = true ↔ payload = []) ∧ (kind.usesResourceFork = true → fork.isSome = true) := by
  cases kind with
  | lzvnXattr =>
    refine ⟨⟨fun h => (by cases h), ?_⟩, fun h => (by cases h)⟩
    rintro rfl
    rcases h with h | ⟨body, steps, k, w, h, -⟩
    · cases h
    · exact absurd h.symm (by simp)
  | lzvnResourceFork =>
    obtain ⟨hempty, f, rfl, -⟩ := h
    exact ⟨⟨fun _ => hempty, fun _ => rfl⟩, fun _ => rfl⟩
  | _ => exact h.elim

/-- **The contents have one place.** The fork makes no difference to the decoders where the type in the header does not use it;
where contents are decoded, the type says whether they are in the fork or behind the header; and `encode` gives a fork exactly
with a type that uses it. -/
theorem payload_has_one_place (u : Usize) :
    (∀ xattr fork header, parseHeader u xattr = .ok header → header.compressionType.usesResourceFork = false →
      decode u xattr fork = decode u xattr none ∧
      ∀ dst, (decodeInto u xattr fork).run dst = (decodeInto u xattr none).run dst) ∧
    (∀ xattr fork v, decode u xattr fork = .ok v → ∃ header, parseHeader u xattr = .ok header ∧
      (header.compressionType.usesResourceFork = true ↔ xattr.length = decmpfsHeaderLen) ∧
      (header.compressionType.usesResourceFork = true → fork.isSome = true)) ∧
    ∀ (src : Slice u) (e : EncodedDecmpfs), encode u src.bytes = .ok e → ∃ kind : DecmpfsCompressionType,
      parseHeader u e.xattr = .ok ⟨kind, src.bytes.length⟩ ∧ kind.usesResourceFork = e.resourceFork.isSome := by
  refine ⟨?_, ?_, ?_⟩
  · intro xattr fork header hparsed huses
    constructor
    · rw [decode, decode, splitXattr_eq hparsed, except_ok_bind, except_ok_bind]
      simp only [decodeBody_ignores_fork huses _ fork]
    · intro dst
      simp only [decodeInto, EStateM.run_bind, splitXattr_eq hparsed, run_lift_ok, decodeBody_ignores_fork huses _ fork]
  · intro xattr fork v hok
    obtain ⟨header, hparsed, -, -, hholds⟩ := decode_ok_iff.1 hok
    obtain ⟨hempty, hfork⟩ := hholds.place
    refine ⟨header, hparsed, ?_, hfork⟩
    have hlong := parseHeader_length hparsed
    rw [hempty, List.drop_eq_nil_iff]
    exact ⟨fun hle => le_antisymm hle hlong, fun heq => heq.le⟩
  · intro src e he
    rw [encode_eq] at he
    split_ifs at he
    · cases he
      exact ⟨_, parseHeader_xattrOf (by decide) rfl src.length_le _, rfl⟩
    · cases hfork : encodeResourceFork u src.bytes with
      | error e =>
        rw [hfork] at he
        cases he
      | ok fork =>
        rw [hfork] at he
        cases he
        exact ⟨_, parseHeader_xattrOf (by decide) rfl src.length_le _, rfl⟩

/-- a fork makes no difference to one stored byte, and `encode` gives none for it -/
theorem one_byte_has_one_place : decode .bits64 (xattrOf .lzvnXattr [0x61] [0x06, 0x61]) (some []) = .ok [0x61] ∧
    (∃ header, parseHeader .bits64 (xattrOf .lzvnXattr [0x61] [0x06, 0x61]) = .ok header ∧
      header.compressionType.usesResourceFork = false) ∧
    ∃ e kind, encode .bits64 [0x61] = .ok e ∧ parseHeader .bits64 e.xattr = .ok ⟨kind, 1⟩ ∧
      kind.usesResourceFork = e.resourceFork.isSome := by
  obtain ⟨hignored, hplace, hencoded⟩ := payload_has_one_place .bits64
  have hparsed : parseHeader .bits64 (xattrOf .lzvnXattr [0x61] [0x06, 0x61]) = .ok ⟨.lzvnXattr, 1⟩ :=
    parseHeader_xattrOf (by decide) rfl (by decide) _
  have hok : decode .bits64 (xattrOf .lzvnXattr [0x61] [0x06, 0x61]) none = .ok [0x61] :=
    decode_block_iff.2 ⟨by decide, .inl rfl⟩
  obtain ⟨header, hheader, hempty, -⟩ := hplace _ _ _ hok
  have hinline : (bestPayload [0x61]).length ≤ decmpfsMaxXattrDataSize :=
    (length_bestPayload_le [0x61]).trans (by decide)
  have he := (encode_eq (u := .bits64) ⟨[0x61], by decide⟩).trans (if_pos hinline)
  obtain ⟨kind, hkind, huses⟩ := hencoded ⟨[0x61], by decide⟩ _ he
  refine ⟨((hignored _ (some []) _ hparsed rfl).1).trans hok, ⟨header, hheader, ?_⟩, _, kind, he, hkind, huses⟩
  rw [← Bool.not_eq_true, hempty, length_xattrOf]
  decide

end Lzvn.Apple.Decmpfs
