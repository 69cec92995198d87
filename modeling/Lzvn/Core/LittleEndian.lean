/-
Little-endian numbers of a fixed number of bytes: `leBytes k n` are the `k` low bytes of `n`, and `leValue` reads bytes
back. Each undoes the other: `leValue_leBytes` for numbers that fit, `leBytes_leValue` for every list of bytes.
-/
import Mathlib.Tactic

namespace Lzvn.Core

/-- the number that the bytes mean, low byte first -/
def leValue (bytes : List UInt8) : ℕ := Nat.ofDigits 256 (bytes.map UInt8.toNat)

/-- the `k` low bytes of `n`, low byte first -/
def leBytes : ℕ → ℕ → List UInt8
  | 0, _ => []
  | k + 1, n => UInt8.ofNat n :: leBytes k (n / 256)

@[simp] theorem length_leBytes (k n : ℕ) : (leBytes k n).length = k := by
  induction k generalizing n with
  | zero => rfl
  | succ k ih => rw [leBytes, List.length_cons, ih]

theorem leValue_cons (b : UInt8) (bytes : List UInt8) : leValue (b :: bytes) = b.toNat + 256 * leValue bytes := by
  rw [leValue, List.map_cons, Nat.ofDigits_cons]
  rfl

theorem leValue_lt (bytes : List UInt8) : leValue bytes < 256 ^ bytes.length := by
  have h : ∀ d ∈ bytes.map UInt8.toNat, d < 256 := by
    intro d hd
    obtain ⟨b, -, rfl⟩ := List.mem_map.1 hd
    exact b.toNat_lt
  simpa [leValue] using Nat.ofDigits_lt_base_pow_length (by decide) h

theorem leValue_leBytes {k n : ℕ} (h : n < 256 ^ k) : leValue (leBytes k n) = n := by
  induction k generalizing n with
  | zero => rw [pow_zero, Nat.lt_one_iff] at h; rw [h]; rfl
  | succ k ih =>
    have hlt : n / 256 < 256 ^ k := Nat.div_lt_of_lt_mul (by rwa [pow_succ, mul_comm] at h)
    rw [leBytes, leValue_cons, ih hlt, UInt8.toNat_ofNat']
    exact Nat.mod_add_div n 256

theorem leBytes_leValue (bytes : List UInt8) : leBytes bytes.length (leValue bytes) = bytes := by
  induction bytes with
  | nil => rfl
  | cons b bytes ih =>
    have hb := b.toNat_lt
    have hlow : UInt8.ofNat (b.toNat + 256 * leValue bytes) = b := by
      apply UInt8.toNat_inj.1
      rw [UInt8.toNat_ofNat']
      omega
    have hhigh : (b.toNat + 256 * leValue bytes) / 256 = leValue bytes := by omega
    rw [List.length_cons, leBytes, leValue_cons, hlow, hhigh, ih]

/-- the bytes of a number are the only ones of their length that mean it -/
theorem leBytes_eq {k : ℕ} {bytes : List UInt8} (h : bytes.length = k) : leBytes k (leValue bytes) = bytes := by
  rw [← h, leBytes_leValue]

end Lzvn.Core
