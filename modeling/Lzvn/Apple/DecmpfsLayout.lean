/-
The layout that `decmpfs::decode` accepts, stated without the order in which the decoder reads it.

- `isFork_iff`: a fork is a table of offsets from its own end up to the end of the fork, and between each two of them a
  block for one 64 KiB slice.
- `IsLayout`: the header, and the payload or the fork behind it.
- `decode_accepts_layout`: the decoder accepts exactly the layout, and the two forms of a block do not contradict each
  other.
-/
import Lzvn.Apple.DecmpfsGrammar

namespace Lzvn.Apple.Decmpfs

open Lzvn.Core Lzvn.Core.OffsetTable
open Lzvn.Raw (IsStream)

/-! ## Forks -/

/-- the `i`-th 64 KiB slice -/
def sliceOf (v : List UInt8) (i : ℕ) : List UInt8 := (v.drop (i * decmpfsChunkSize)).take decmpfsChunkSize

theorem length_sliceOf (v : List UInt8) (i : ℕ) : (sliceOf v i).length = blockSize v.length i := by
  rw [sliceOf, List.length_take, List.length_drop, Nat.min_comm, blockSize]

theorem take_succ_sliceOf (v : List UInt8) (k : ℕ) :
    v.take ((k + 1) * decmpfsChunkSize) = v.take (k * decmpfsChunkSize) ++ sliceOf v k := by
  rw [sliceOf, Nat.succ_mul, List.take_add]

theorem le_blockCount_mul (size : ℕ) : size ≤ blockCount size * decmpfsChunkSize :=
  not_lt.1 (lt_blockCount.not.1 (lt_irrefl _))

/-- the first `k` blocks hold the first `k` slices -/
theorem forkBlocks_take_iff (fork : List UInt8) {v : List UInt8} {k : ℕ} (hk : k ≤ blockCount v.length) :
    ForkBlocks fork v.length k (v.take (k * decmpfsChunkSize)) ↔ ∀ i < k, entry 4 fork i ≤ entry 4 fork (i + 1) ∧
      entry 4 fork (i + 1) ≤ fork.length ∧ Packs (block 4 fork i) (sliceOf v i) := by
  induction k with
  | zero =>
    rw [Nat.zero_mul, List.take_zero]
    exact ⟨fun _ i hi => absurd hi (Nat.not_lt_zero i), fun _ => .nil⟩
  | succ k ih =>
    have hstart : k * decmpfsChunkSize < v.length := lt_blockCount.1 hk
    rw [Nat.forall_lt_succ_right, ← ih (Nat.le_of_succ_le hk), take_succ_sliceOf]
    constructor
    · intro h
      generalize hw : v.take (k * decmpfsChunkSize) ++ sliceOf v k = whole at h
      cases h with
      | @snoc _ front w hfront le inside size packs =>
        -- the front is as long as `k` slices, so the two ways to cut `whole` are one
        have hlen : (v.take (k * decmpfsChunkSize)).length = front.length := by
          rw [hfront.length, List.length_take]
        obtain ⟨rfl, rfl⟩ := List.append_inj hw hlen
        exact ⟨hfront, le, inside, packs⟩
    · intro h
      rcases h with ⟨hfront, le, inside, packs⟩
      exact hfront.snoc le inside (length_sliceOf v k) packs

/-- **A fork is a table and a block for every slice.** -/
theorem isFork_iff {fork v : List UInt8} : IsFork fork v ↔ IsTable 4 fork (v.length ⌈/⌉ decmpfsChunkSize) ∧
    ∀ i < v.length ⌈/⌉ decmpfsChunkSize, Packs (block 4 fork i) (sliceOf v i) := by
  have hall : v.take (blockCount v.length * decmpfsChunkSize) = v := List.take_of_length_le (le_blockCount_mul _)
  have hblocks := forkBlocks_take_iff fork (le_refl (blockCount v.length))
  rw [hall] at hblocks
  rw [← blockCount_eq]
  constructor
  · intro h
    have hslices := hblocks.1 h.blocks
    refine ⟨⟨?_, ?_, fun i hi => (hslices i hi).1, h.last⟩, fun i hi => (hslices i hi).2.2⟩
    · rw [Nat.mul_comm]
      exact h.table
    · rw [Nat.mul_comm]
      exact h.first
  · intro h
    rcases h with ⟨htable, hpacks⟩
    refine ⟨?_, ?_, hblocks.2 ?_, htable.last⟩
    · rw [Nat.mul_comm]
      exact htable.inside
    · rw [Nat.mul_comm]
      exact htable.first
    · intro i hi
      exact ⟨htable.mono i hi, htable.entry_le hi, hpacks i hi⟩

/-! ## Wrappers -/

theorem drop_header (t n : ℕ) (payload : List UInt8) :
    (leBytes 4 decmpfsMagic ++ leBytes 4 t ++ leBytes 8 n ++ payload).drop decmpfsHeaderLen = payload :=
  List.drop_left' (by simp only [List.length_append, length_leBytes, decmpfsHeaderLen])

/-- the magic, the type and the size of `v`, and then `v` as one block in the xattr (type 7), or in a fork (type 8) as a
table of offsets and a block for every slice -/
def IsLayout (xattr : List UInt8) (fork : Option (List UInt8)) (v : List UInt8) : Prop :=
  ∃ t payload, xattr = leBytes 4 decmpfsMagic ++ leBytes 4 t ++ leBytes 8 v.length ++ payload ∧
    (t = 7 ∧ Packs payload v ∨
      t = 8 ∧ payload = [] ∧ ∃ f, fork = some f ∧ IsTable 4 f (v.length ⌈/⌉ decmpfsChunkSize) ∧
        ∀ i < v.length ⌈/⌉ decmpfsChunkSize, Packs (block 4 f i) (sliceOf v i))

/-- what a header of type `t` says its payload and fork hold -/
theorem holds_fromRaw_iff {t : ℕ} {payload v : List UInt8} {fork : Option (List UInt8)} :
    Holds (.fromRaw t) payload fork v ↔ t = 7 ∧ Packs payload v ∨
      t = 8 ∧ payload = [] ∧ ∃ f, fork = some f ∧ IsFork f v := by
  have hraw := DecmpfsCompressionType.rawValue_fromRaw t
  cases hkind : DecmpfsCompressionType.fromRaw t with
  | lzvnXattr =>
    rw [hkind] at hraw
    subst hraw
    simp [Holds, DecmpfsCompressionType.rawValue]
  | lzvnResourceFork =>
    rw [hkind] at hraw
    subst hraw
    simp [Holds, DecmpfsCompressionType.rawValue]
  | _ =>
    refine ⟨fun h => h.elim, ?_⟩
    intro h
    rcases h with ⟨rfl, -⟩ | ⟨rfl, -⟩ <;> cases hkind

/-- **`decode` accepts exactly the layout**, for contents of at most `isize::MAX` bytes. The two forms of a block never give
different contents of one length. -/
theorem decode_accepts_layout (u : Usize) (xattr : List UInt8) (fork : Option (List UInt8)) (v : List UInt8) :
    (decode u xattr fork = .ok v ↔ v.length ≤ u.isizeMax ∧ IsLayout xattr fork v) ∧
    ∀ p w w', p = lzvnUncompressedSentinel :: w → IsStream p w' → w.length = w'.length → w = w' := by
  refine ⟨?_, fun p w w' hw hw' => Packs.unique (.inl hw) (.inr hw')⟩
  have hlayout : IsLayout xattr fork v ↔ ∃ t payload,
      xattr = leBytes 4 decmpfsMagic ++ leBytes 4 t ++ leBytes 8 v.length ++ payload ∧
        Holds (.fromRaw t) payload fork v := by
    simp only [IsLayout, holds_fromRaw_iff, isFork_iff]
  rw [decode_ok_iff, hlayout]
  constructor
  · intro h
    rcases h with ⟨header, hp, hmax, hlen, hh⟩
    obtain ⟨t, payload, hx, ht, hkind, hn, -⟩ := parseHeader_ok_iff.1 hp
    rw [hx, drop_header, hkind] at hh
    rw [← hlen] at hx hmax
    exact ⟨hmax, t, payload, hx, hh⟩
  · intro h
    rcases h with ⟨hmax, t, payload, hx, hh⟩
    have ht : t < 256 ^ 4 := by
      rcases holds_fromRaw_iff.1 hh with ⟨rfl, -⟩ | ⟨rfl, -⟩ <;> decide
    have hsize : v.length < 256 ^ 8 := by
      cases u <;> simp only [Usize.isizeMax, Usize.bits] at hmax <;> omega
    refine ⟨⟨.fromRaw t, v.length⟩, ?_, hmax, rfl, ?_⟩
    · exact parseHeader_ok_iff.2 ⟨t, payload, hx, ht, rfl, hsize, hmax.trans (isizeMax_lt u).le⟩
    · rw [hx, drop_header]
      exact hh

/-- a wrapper of one byte, and the one block that has both forms -/
theorem one_byte_layout :
    decode .bits64 (leBytes 4 decmpfsMagic ++ leBytes 4 7 ++ leBytes 8 1 ++ [0x06, 0x61]) none = .ok [0x61] ∧
    ∃ w, IsStream [0x06] w ∧ [] = w := by
  have hempty : IsStream [0x06] [] := ⟨[], [], 0, _, rfl, by decide, .nil, rfl, rfl⟩
  have hlayout := decode_accepts_layout .bits64 (leBytes 4 decmpfsMagic ++ leBytes 4 7 ++ leBytes 8 1 ++ [0x06, 0x61])
    none [0x61]
  refine ⟨hlayout.1.2 ⟨by decide, 7, [0x06, 0x61], rfl, .inl ⟨rfl, .inl rfl⟩⟩, [], hempty, ?_⟩
  exact hlayout.2 [0x06] [] [] rfl hempty rfl

end Lzvn.Apple.Decmpfs
