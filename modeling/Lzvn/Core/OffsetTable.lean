/-
Blocks behind a table of their offsets: `n + 1` little-endian offsets of `k` bytes each, and then `n` blocks, block `i`
from offset `i` up to offset `i + 1`. `pack` lays blocks out behind their table.

- `entry_pack`: entry `i` of a packed table is the table's size and the lengths of the blocks before block `i`.
- `block_pack`: between two entries stands the block.
- `isTable_pack`: a packed table is non-decreasing from its own end up to the end of the bytes.
-/
import Lzvn.Core.LittleEndian

namespace Lzvn.Core.OffsetTable

/-- entry `i` of the table at the front of `bytes` -/
def entry (k : ℕ) (bytes : List UInt8) (i : ℕ) : ℕ := leValue ((bytes.drop (i * k)).take k)

/-- the bytes between entries `i` and `i + 1` -/
def block (k : ℕ) (bytes : List UInt8) (i : ℕ) : List UInt8 :=
  (bytes.drop (entry k bytes i)).take (entry k bytes (i + 1) - entry k bytes i)

/-- a table of `n + 1` entries, non-decreasing from the end of the table up to the end of `bytes` -/
structure IsTable (k : ℕ) (bytes : List UInt8) (n : ℕ) : Prop where
  inside : k * (n + 1) ≤ bytes.length
  first : entry k bytes 0 = k * (n + 1)
  mono : ∀ i < n, entry k bytes i ≤ entry k bytes (i + 1)
  last : entry k bytes n = bytes.length

/-- no entry is beyond the end -/
theorem IsTable.entry_le {k n : ℕ} {bytes : List UInt8} (h : IsTable k bytes n) {i : ℕ} (hi : i ≤ n) :
    entry k bytes i ≤ bytes.length := by
  rw [← h.last]
  induction hi using Nat.decreasingInduction with
  | self => exact le_rfl
  | of_succ i hi ih => exact (h.mono i hi).trans ih

/-- the offsets of blocks of which the first begins at `first`, and of the end of the last one -/
def offsetsFrom (first : ℕ) : List (List UInt8) → List ℕ
  | [] => [first]
  | b :: blocks => first :: offsetsFrom (first + b.length) blocks

/-- the offsets as bytes, and the blocks -/
def pack (k first : ℕ) (blocks : List (List UInt8)) : List UInt8 :=
  (offsetsFrom first blocks).flatMap (leBytes k) ++ blocks.flatten

@[simp] theorem length_offsetsFrom (first : ℕ) (blocks : List (List UInt8)) :
    (offsetsFrom first blocks).length = blocks.length + 1 := by
  induction blocks generalizing first with
  | nil => rfl
  | cons b blocks ih => rw [offsetsFrom, List.length_cons, ih, List.length_cons]

theorem getElem?_offsetsFrom (first : ℕ) (blocks : List (List UInt8)) {i : ℕ} (hi : i ≤ blocks.length) :
    (offsetsFrom first blocks)[i]? = some (first + ((blocks.map List.length).take i).sum) := by
  induction blocks generalizing first i with
  | nil =>
    rw [List.length_nil, Nat.le_zero] at hi
    subst hi
    rfl
  | cons b blocks ih =>
    cases i with
    | zero => rfl
    | succ i =>
      rw [List.length_cons] at hi
      rw [offsetsFrom, List.getElem?_cons_succ, ih (first + b.length) (by omega), List.map_cons, List.take_succ_cons,
        List.sum_cons, Nat.add_assoc]

/-- an offset behind the others -/
theorem offsetsFrom_snoc (first : ℕ) (blocks : List (List UInt8)) (b : List UInt8) :
    offsetsFrom first (blocks ++ [b]) =
      offsetsFrom first blocks ++ [first + (blocks.map List.length).sum + b.length] := by
  induction blocks generalizing first with
  | nil => rfl
  | cons c blocks ih =>
    rw [List.cons_append, offsetsFrom, ih, offsetsFrom, List.cons_append, List.map_cons, List.sum_cons, Nat.add_assoc first]

theorem length_flatMap_leBytes (k : ℕ) (offsets : List ℕ) : (offsets.flatMap (leBytes k)).length = offsets.length * k := by
  induction offsets with
  | nil => simp
  | cons o offsets ih => rw [List.flatMap_cons, List.length_append, length_leBytes, ih, List.length_cons]; ring

/-- entries are read back -/
theorem entry_flatMap {k : ℕ} {offsets : List ℕ} (tail : List UInt8) {i o : ℕ} (hi : offsets[i]? = some o)
    (ho : o < 256 ^ k) : entry k (offsets.flatMap (leBytes k) ++ tail) i = o := by
  induction offsets generalizing i with
  | nil => cases hi
  | cons a offsets ih =>
    cases i with
    | zero =>
      rw [List.getElem?_cons_zero, Option.some.injEq] at hi
      subst hi
      rw [entry, Nat.zero_mul, List.drop_zero, List.flatMap_cons, List.append_assoc,
        List.take_left' (length_leBytes k a), leValue_leBytes ho]
    | succ i =>
      rw [List.getElem?_cons_succ] at hi
      have hdrop : (leBytes k a ++ (offsets.flatMap (leBytes k) ++ tail)).drop ((i + 1) * k) =
          (offsets.flatMap (leBytes k) ++ tail).drop (i * k) := by
        rw [Nat.succ_mul, Nat.add_comm, ← List.drop_drop, List.drop_left' (length_leBytes k a)]
      rw [entry, List.flatMap_cons, List.append_assoc, hdrop]
      exact ih hi

variable {k first : ℕ} {blocks : List (List UInt8)}

theorem length_pack (hfirst : first = (blocks.length + 1) * k) :
    (pack k first blocks).length = first + (blocks.map List.length).sum := by
  rw [pack, List.length_append, length_flatMap_leBytes, length_offsetsFrom, List.length_flatten, hfirst]

theorem sum_take_le (lengths : List ℕ) (i : ℕ) : (lengths.take i).sum ≤ lengths.sum := by
  conv_rhs => rw [← List.take_append_drop i lengths, List.sum_append]
  exact Nat.le_add_right _ _

/-- entry `i` is where block `i` begins -/
theorem entry_pack (hfit : first + (blocks.map List.length).sum < 256 ^ k) {i : ℕ} (hi : i ≤ blocks.length) :
    entry k (pack k first blocks) i = first + ((blocks.map List.length).take i).sum := by
  have hle := sum_take_le (blocks.map List.length) i
  exact entry_flatMap _ (getElem?_offsetsFrom first blocks hi) (by omega)

/-- between its entries stands block `i` -/
theorem block_pack (hfirst : first = (blocks.length + 1) * k) (hfit : first + (blocks.map List.length).sum < 256 ^ k)
    {i : ℕ} {b : List UInt8} (hb : blocks[i]? = some b) : block k (pack k first blocks) i = b := by
  obtain ⟨hi, rfl⟩ := List.getElem?_eq_some_iff.1 hb
  have hnext : ((blocks.map List.length).take (i + 1)).sum =
      ((blocks.map List.length).take i).sum + blocks[i].length := by
    rw [List.take_succ_eq_append_getElem (by rwa [List.length_map]), List.sum_append, List.getElem_map]
    simp
  have hlen : ((offsetsFrom first blocks).flatMap (leBytes k)).length = first := by
    rw [length_flatMap_leBytes, length_offsetsFrom, hfirst]
  have hfront : (pack k first blocks).drop (first + ((blocks.map List.length).take i).sum) =
      blocks[i] ++ (blocks.drop (i + 1)).flatten := by
    rw [pack, ← List.drop_drop, List.drop_left' hlen, List.drop_sum_flatten, List.drop_eq_getElem_cons hi,
      List.flatten_cons]
  have hsize : first + (((blocks.map List.length).take i).sum + blocks[i].length) -
      (first + ((blocks.map List.length).take i).sum) = blocks[i].length := by omega
  rw [block, entry_pack hfit hi.le, entry_pack hfit hi, hnext, hfront, hsize, List.take_left]

/-- the offsets that were packed are a table -/
theorem isTable_pack (hfirst : first = (blocks.length + 1) * k) (hfit : first + (blocks.map List.length).sum < 256 ^ k) :
    IsTable k (pack k first blocks) blocks.length := by
  have hsize : k * (blocks.length + 1) = first := by rw [hfirst, Nat.mul_comm]
  refine ⟨?_, ?_, ?_, ?_⟩
  · rw [hsize, length_pack hfirst]
    exact Nat.le_add_right _ _
  · rw [entry_pack hfit (Nat.zero_le _), List.take_zero, List.sum_nil, Nat.add_zero, hsize]
  · intro i hi
    have hle := sum_take_le ((blocks.map List.length).take (i + 1)) i
    rw [List.take_take, Nat.min_eq_left (Nat.le_succ i)] at hle
    rw [entry_pack hfit hi.le, entry_pack hfit hi]
    exact Nat.add_le_add_left hle first
  · rw [entry_pack hfit le_rfl, List.take_of_length_le (by rw [List.length_map]), length_pack hfirst]

end Lzvn.Core.OffsetTable
