/-
When the container decoders panic. The sizes of a header go into `vec![0; n]` and into `HEADER_LEN + payload_bytes`
unchecked; every slice and every other sum is in range.

- `containers_panic_iff`: the exact conditions, for every input and both widths of `usize`.
- `huge_sizes_panic`: a header of each kind that makes its decoder panic.
-/
import Lzvn.Apple.DecmpfsGrammar

namespace Lzvn.Apple

open Lzvn.Core

/-- the call returns `Ok` or `Err` and does not panic -/
def Returns {α : Type} (r : Except Stop α) : Prop := r ≠ .error .panic

/-- the same for a call that writes into a buffer -/
def ReturnsFrom {α : Type} (m : Rust (List UInt8) α) (dst : List UInt8) : Prop := ∀ dst', m.run dst ≠ .error .panic dst'

/-- **The container decoders return on hostile bytes exactly when the header's sizes can be used.** `bvxn::decode_into` and
`bvxn::decode` need the length of the whole block to fit `usize`, `bvxn::decode` of a whole block and `decmpfs::decode` need
the declared size to be at most `isize::MAX`, and `decmpfs::decode_into` needs nothing. -/
theorem containers_panic_iff (u : Usize) (b xattr : Slice u) (fork : Option (Slice u)) (dst : Slice u) :
    (Returns (Bvxn.decode u b.bytes) ↔ ∀ header, Bvxn.parseHeader b.bytes = .ok header →
      Bvxn.headerLen + header.payloadBytes ≤ u.max ∧
        (b.bytes.length = Bvxn.headerLen + header.payloadBytes → header.rawBytes ≤ u.isizeMax)) ∧
    (ReturnsFrom (Bvxn.decodeInto u b.bytes) dst.bytes ↔ ∀ header, Bvxn.parseHeader b.bytes = .ok header →
      Bvxn.headerLen + header.payloadBytes ≤ u.max) ∧
    (Returns (Decmpfs.decode u xattr.bytes (fork.map Slice.bytes)) ↔
      ∀ header, Decmpfs.parseHeader u xattr.bytes = .ok header → header.uncompressedSize ≤ u.isizeMax) ∧
    ReturnsFrom (Decmpfs.decodeInto u xattr.bytes (fork.map Slice.bytes)) dst.bytes := by
  refine ⟨?_, ?_, ?_, Decmpfs.decodeInto_ne_panic u xattr.bytes _ dst⟩
  · rw [Returns, ne_eq, Bvxn.decode_panic_iff, not_exists]
    refine forall_congr' ?_
    intro header
    rw [not_and, not_or, not_and, not_lt, not_lt]
  · rw [ReturnsFrom, ← not_exists_not]
    simp only [ne_eq, not_not]
    rw [Bvxn.decodeInto_panic_iff, not_exists]
    refine forall_congr' ?_
    intro header
    rw [not_and, not_lt]
  · rw [Returns, ne_eq, Decmpfs.decode_panic_iff, not_exists]
    refine forall_congr' ?_
    intro header
    rw [not_and, not_lt]

/-- the header of a `decmpfs` value of 2^63 bytes, on 64 bits -/
def hugeXattr : List UInt8 := [0x66, 0x70, 0x6D, 0x63, 7, 0, 0, 0, 0, 0, 0, 0, 0, 0, 0, 0x80]

/-- the header of a `bvxn` block with a payload of 2^32 - 1 bytes -/
def hugeBlock : List UInt8 := [0x62, 0x76, 0x78, 0x6E, 0, 0, 0, 0, 0xFF, 0xFF, 0xFF, 0xFF]

/-- The size of 2^63 bytes is asked of `vec![0; n]`. On 32 bits the length of a block overflows. -/
theorem huge_sizes_panic : Decmpfs.decode .bits64 hugeXattr none = .error .panic ∧
    Bvxn.decode .bits32 hugeBlock = .error .panic ∧ (Bvxn.decodeInto .bits32 hugeBlock).run [] = .error .panic [] := by
  refine ⟨?_, ?_, rfl⟩ <;> decide +kernel

end Lzvn.Apple
