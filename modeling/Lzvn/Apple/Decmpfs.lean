/-
`src/apple/fs/decmpfs.rs`: the `decmpfs` wrapper, with its payload in the xattr or, in blocks of 64 KiB behind a table of
offsets, in the resource fork. A `u32` or `u64` that is read from the bytes is a number below 2^32 or 2^64.

Sizes and indices that come from a header are added and multiplied by the operations of `Usize`, which panic where the
source's overflow. The capacities asked of `Vec::with_capacity` are left out: they bound no length.
-/
import Mathlib.Algebra.Order.Floor.Div
import Lzvn.Apple.Bvxn
import Lzvn.Raw.Encode

namespace Lzvn.Apple.Decmpfs

open Lzvn.Core

/-- `DECMPFS_MAGIC` -/
def decmpfsMagic : ℕ := 0x636D7066

/-- `DECMPFS_HEADER_LEN` -/
def decmpfsHeaderLen : ℕ := 16

/-- `DECMPFS_MAX_XATTR_SIZE` -/
def decmpfsMaxXattrSize : ℕ := 3802

/-- `DECMPFS_MAX_XATTR_DATA_SIZE` -/
def decmpfsMaxXattrDataSize : ℕ := decmpfsMaxXattrSize - decmpfsHeaderLen

/-- `DECMPFS_CHUNK_SIZE` -/
def decmpfsChunkSize : ℕ := 0x10000

/-- `LZVN_UNCOMPRESSED_SENTINEL` -/
def lzvnUncompressedSentinel : UInt8 := 0x06

/-- `u64::MAX` -/
def u64Max : ℕ := 2 ^ 64 - 1

/-- `DecmpfsCompressionType` -/
inductive DecmpfsCompressionType where
  | zlibXattr
  | zlibResourceFork
  | lzvnXattr
  | lzvnResourceFork
  | rawXattr
  | rawResourceFork
  | lzfseXattr
  | lzfseResourceFork
  | lzBitmapXattr
  | lzBitmapResourceFork
  | unknown (value : ℕ)
deriving DecidableEq, Repr

namespace DecmpfsCompressionType

def fromRaw : ℕ → DecmpfsCompressionType
  | 3 => .zlibXattr
  | 4 => .zlibResourceFork
  | 7 => .lzvnXattr
  | 8 => .lzvnResourceFork
  | 9 => .rawXattr
  | 10 => .rawResourceFork
  | 11 => .lzfseXattr
  | 12 => .lzfseResourceFork
  | 13 => .lzBitmapXattr
  | 14 => .lzBitmapResourceFork
  | other => .unknown other

def rawValue : DecmpfsCompressionType → ℕ
  | .zlibXattr => 3
  | .zlibResourceFork => 4
  | .lzvnXattr => 7
  | .lzvnResourceFork => 8
  | .rawXattr => 9
  | .rawResourceFork => 10
  | .lzfseXattr => 11
  | .lzfseResourceFork => 12
  | .lzBitmapXattr => 13
  | .lzBitmapResourceFork => 14
  | .unknown value => value

def usesResourceFork : DecmpfsCompressionType → Bool
  | .zlibResourceFork | .lzvnResourceFork | .rawResourceFork | .lzfseResourceFork | .lzBitmapResourceFork => true
  | _ => false

/-- a value read from the bytes is the raw value of its type -/
theorem rawValue_fromRaw (value : ℕ) : (fromRaw value).rawValue = value := by
  unfold fromRaw
  split <;> rfl

end DecmpfsCompressionType

/-- `DecmpfsHeader` -/
structure DecmpfsHeader where
  compressionType : DecmpfsCompressionType
  uncompressedSize : ℕ
deriving DecidableEq, Repr

/-- `EncodedDecmpfs` -/
structure EncodedDecmpfs where
  xattr : List UInt8
  resourceFork : Option (List UInt8)
deriving DecidableEq, Repr

def parseHeader (u : Usize) (xattr : List UInt8) : Except Stop DecmpfsHeader := do
  if xattr.length < decmpfsHeaderLen then fail (.truncatedInput xattr.length)
  let magic ← fromLeBytes xattr 0 4
  if magic ≠ decmpfsMagic then fail (.invalidDecmpfsMagic magic)
  let compressionType ← fromLeBytes xattr 4 8
  let uncompressedSize ← fromLeBytes xattr 8 16
  if u.max < uncompressedSize then fail (.sizeOverflow u.max u.max "decmpfs uncompressed size")
  return ⟨.fromRaw compressionType, uncompressedSize⟩

def splitXattr (u : Usize) (xattr : List UInt8) : Except Stop (DecmpfsHeader × List UInt8) := do
  let header ← parseHeader u xattr
  let payload ← slice xattr decmpfsHeaderLen xattr.length
  return (header, payload)

/-! ## Sizes and offsets -/

def blockCount (size : ℕ) : ℕ := if size = 0 then 0 else size ⌈/⌉ decmpfsChunkSize

def remainingBlockSize (u : Usize) (total blockIndex : ℕ) : Except Stop ℕ := do
  let start ← u.mul blockIndex decmpfsChunkSize
  let rest ← sub total start
  return min rest decmpfsChunkSize

def offsetTableLen (u : Usize) (blockCount : ℕ) : Except Stop ℕ := do
  let entries ← okOr (u.checkedAdd blockCount 1) (.sizeOverflow u.max u.max "decmpfs resource fork block count")
  okOr (u.checkedMul entries 4) (.sizeOverflow u.max u32Max "decmpfs resource fork offset table")

/-- `xs.get(start..stop)` -/
def getRange (xs : List UInt8) (start stop : ℕ) : Option (List UInt8) :=
  if start ≤ stop ∧ stop ≤ xs.length then some ((xs.drop start).take (stop - start)) else none

def readOffset (u : Usize) (resourceFork : List UInt8) (index : ℕ) : Except Stop ℕ := do
  let start ← okOr (u.checkedMul index 4) (.invalidResourceFork "offset table index overflowed")
  let stop ← u.add start 4
  let bytes ← okOr (getRange resourceFork start stop) (.invalidResourceFork "offset table is truncated")
  return leValue bytes

/-! ## Decoding -/

/-- `m` writes to `&mut dst[start..stop]` -/
def onSlice {α : Type} (start stop : ℕ) (m : Rust (List UInt8) α) : Rust (List UInt8) α := do
  let dst ← get
  let _ ← slice dst start stop
  zoom (fun dst => (dst.drop start).take (stop - start)) (fun part dst => dst.take start ++ part ++ dst.drop stop) m

def decodeLzvnBlock (u : Usize) (payload : List UInt8) (expected : ℕ) : Rust (List UInt8) ℕ := do
  if payload.length = u.saturatingAdd expected 1 ∧ payload.head? = some lzvnUncompressedSentinel then
    let bytes ← slice payload 1 payload.length
    let dst ← copyFromSlice (← get) 0 expected bytes
    set dst
    return expected
  else onSlice 0 expected (Raw.decodeInto payload)

/-- the locals of the loop in `decode_lzvn_resource_fork` -/
structure ForkLocals where
  produced : ℕ
  previousOffset : ℕ
deriving DecidableEq, Repr

/-- one round of the `for` in `decode_lzvn_resource_fork` -/
def decodeForkBlock (u : Usize) (resourceFork : List UInt8) (expected : ℕ) (l : ForkLocals) (blockIndex : ℕ) :
    Rust (List UInt8) ForkLocals := do
  let nextIndex ← u.add blockIndex 1
  let nextOffset ← readOffset u resourceFork nextIndex
  if nextOffset < l.previousOffset ∨ nextOffset > resourceFork.length then
    throw (.err (.invalidResourceFork "block offsets are invalid"))
  let expectedBlock ← remainingBlockSize u expected blockIndex
  let block ← slice resourceFork l.previousOffset nextOffset
  let stop ← u.add l.produced expectedBlock
  let written ← onSlice l.produced stop (decodeLzvnBlock u block expectedBlock)
  if written ≠ expectedBlock then throw (.err (.sizeMismatch expectedBlock written))
  return ⟨stop, nextOffset⟩

/-- the `for` in `decode_lzvn_resource_fork` -/
def decodeForkBlocks (u : Usize) (resourceFork : List UInt8) (expected blockCount : ℕ) (l : ForkLocals) :
    Rust (List UInt8) ForkLocals :=
  (List.range blockCount).foldlM (decodeForkBlock u resourceFork expected) l

def decodeLzvnResourceFork (u : Usize) (resourceFork : List UInt8) (expected : ℕ) : Rust (List UInt8) ℕ := do
  let blockCount := blockCount expected
  let tableLen ← offsetTableLen u blockCount
  if resourceFork.length < tableLen then throw (.err (.invalidResourceFork "offset table is truncated"))
  let firstOffset ← readOffset u resourceFork 0
  if firstOffset ≠ tableLen then
    throw (.err (.invalidResourceFork "first block offset does not match offset table size"))
  if blockCount = 0 then
    if firstOffset ≠ resourceFork.length then
      throw (.err (.invalidResourceFork "empty resource fork has trailing data"))
    else return 0
  else
    let l ← decodeForkBlocks u resourceFork expected blockCount ⟨0, firstOffset⟩
    if l.previousOffset ≠ resourceFork.length then
      throw (.err (.invalidResourceFork "last block offset does not reach end of resource fork"))
    return l.produced

def decodeBody (u : Usize) (header : DecmpfsHeader) (payload : List UInt8) (resourceFork : Option (List UInt8)) :
    Rust (List UInt8) ℕ := do
  match header.compressionType with
  | .lzvnXattr => decodeLzvnBlock u payload header.uncompressedSize
  | .lzvnResourceFork =>
    if payload ≠ [] then throw (.err (.trailingData payload.length))
    let resourceFork ← okOr resourceFork .missingResourceFork
    decodeLzvnResourceFork u resourceFork header.uncompressedSize
  | other => throw (.err (.unsupportedDecmpfsCompressionType other.rawValue))

def decode (u : Usize) (xattr : List UInt8) (resourceFork : Option (List UInt8)) : Except Stop (List UInt8) := do
  let (header, payload) ← splitXattr u xattr
  let dst ← u.zeros header.uncompressedSize
  match (decodeBody u header payload resourceFork).run dst with
  | .ok written dst =>
    if written ≠ header.uncompressedSize then fail (.sizeMismatch header.uncompressedSize written)
    else return dst
  | .error e _ => .error e

def decodeInto (u : Usize) (xattr : List UInt8) (resourceFork : Option (List UInt8)) : Rust (List UInt8) ℕ := do
  let (header, payload) ← splitXattr u xattr
  let dst ← get
  if dst.length < header.uncompressedSize then throw (.err (.outputTooSmall 0 dst.length))
  let written ← decodeBody u header payload resourceFork
  if written ≠ header.uncompressedSize then throw (.err (.sizeMismatch header.uncompressedSize written))
  return written

/-! ## Encoding -/

def lzvnUncompressedPayload (src : List UInt8) : List UInt8 := lzvnUncompressedSentinel :: src

def bestLzvnWrapperPayload (src : List UInt8) : Except Stop (List UInt8) := do
  let compressed ← Raw.encode src
  let sentinel := lzvnUncompressedPayload src
  if sentinel.length < compressed.length then return sentinel
  else return compressed

/-- `u32::try_from(value)` -/
def u32TryFrom (value : ℕ) (what : String) : Except Stop ℕ :=
  if value ≤ u32Max then .ok value else fail (.sizeOverflow value u32Max what)

/-- `u32::checked_add` -/
def u32CheckedAdd (a b : ℕ) : Option ℕ := if a + b ≤ u32Max then some (a + b) else none

/-- `src.chunks(size)` -/
def chunks (size : ℕ) (src : List UInt8) : List (List UInt8) :=
  (List.range (src.length ⌈/⌉ size)).map fun i => (src.drop (i * size)).take size

/-- the locals of the loop in `encode_resource_fork` -/
structure ForkTable where
  offset : ℕ
  offsets : List ℕ
  blocks : List (List UInt8)
deriving DecidableEq, Repr

/-- one round of the `for` over the chunks in `encode_resource_fork` -/
def encodeChunk (u : Usize) (t : ForkTable) (chunk : List UInt8) : Except Stop ForkTable := do
  let block ← bestLzvnWrapperPayload chunk
  let blockLen ← u32TryFrom block.length "decmpfs resource block"
  let offset ← okOr (u32CheckedAdd t.offset blockLen) (.sizeOverflow u.max u32Max "decmpfs resource fork")
  return ⟨offset, t.offsets ++ [offset], t.blocks ++ [block]⟩

def encodeResourceFork (u : Usize) (src : List UInt8) : Except Stop (List UInt8) := do
  let blockCount := blockCount src.length
  let tableLen ← offsetTableLen u blockCount
  let offset ← u32TryFrom tableLen "decmpfs resource fork offset table"
  let t ← (chunks decmpfsChunkSize src).foldlM (encodeChunk u) ⟨offset, [offset], []⟩
  return t.offsets.flatMap (leBytes 4) ++ t.blocks.flatten

def buildXattr (u : Usize) (compressionType : DecmpfsCompressionType) (uncompressedSize : ℕ) (payload : List UInt8) :
    Except Stop (List UInt8) := do
  if u64Max < uncompressedSize then
    fail (.sizeOverflow uncompressedSize (u64Max % 2 ^ u.bits) "decmpfs uncompressed size")
  return leBytes 4 decmpfsMagic ++ leBytes 4 compressionType.rawValue ++ leBytes 8 uncompressedSize ++ payload

def encode (u : Usize) (src : List UInt8) : Except Stop EncodedDecmpfs := do
  let inlinePayload ← bestLzvnWrapperPayload src
  if inlinePayload.length ≤ decmpfsMaxXattrDataSize then
    let xattr ← buildXattr u .lzvnXattr src.length inlinePayload
    return ⟨xattr, none⟩
  else
    let resourceFork ← encodeResourceFork u src
    let xattr ← buildXattr u .lzvnResourceFork src.length []
    return ⟨xattr, some resourceFork⟩

end Lzvn.Apple.Decmpfs
