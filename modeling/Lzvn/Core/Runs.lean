/-
Sequences as runs of equal symbols, and what it costs to walk over them.

- `expand`: the sequence of a list of runs. `left runs p`: what is left at `p` of the run that `p` is inside of.
- `Tariff`: what a stretch costs, and a run. A stretch is paid by the symbol or, for a fixed sum, at a lower rate; a run is
  worth two such sums, so a stretch may end in it and another one begin.
- `Tariff.rest runs p`: what is ahead of `p` is worth.
- `Tariff.rest_pays`: that pays for every stretch that goes to the end of the run it begins in.
-/
import Mathlib.Tactic

namespace Lzvn.Core.Runs

variable {α : Type} {runs : List (ℕ × α)} {p x y : ℕ}

/-- the symbols of runs, each with its length -/
def expand (runs : List (ℕ × α)) : List α := runs.flatMap fun r => List.replicate r.1 r.2

theorem expand_cons (r : ℕ × α) (runs : List (ℕ × α)) : expand (r :: runs) = List.replicate r.1 r.2 ++ expand runs :=
  List.flatMap_cons

theorem length_expand_cons (r : ℕ × α) (runs : List (ℕ × α)) :
    (expand (r :: runs)).length = r.1 + (expand runs).length := by
  rw [expand_cons, List.length_append, List.length_replicate]

/-- what is left at `p` of a run that begins before `p` -/
def left : List (ℕ × α) → ℕ → ℕ
  | [], _ => 0
  | r :: runs, p => if p = 0 then 0 else if p ≤ r.1 then r.1 - p else left runs (p - r.1)

theorem left_le (runs : List (ℕ × α)) (p : ℕ) (hp : p ≤ (expand runs).length) : p + left runs p ≤ (expand runs).length := by
  induction runs generalizing p with
  | nil => exact hp
  | cons r runs ih =>
    rw [length_expand_cons] at hp ⊢
    unfold left
    split_ifs with hzero hin
    · omega
    · omega
    · have := ih (p - r.1) (by omega)
      omega

/-- what is left of a run repeats the symbol before -/
theorem getElem?_left {i : ℕ} (hi : i < left runs p) : (expand runs)[p + i]? = (expand runs)[p - 1]? := by
  induction runs generalizing p with
  | nil => cases hi
  | cons r runs ih =>
    unfold left at hi
    split_ifs at hi with hzero hin
    · cases hi
    · rw [expand_cons, List.getElem?_append_left (by rw [List.length_replicate]; omega),
        List.getElem?_append_left (by rw [List.length_replicate]; omega), List.getElem?_replicate, List.getElem?_replicate,
        if_pos (by omega), if_pos (by omega)]
    · rw [expand_cons, List.getElem?_append_right (by rw [List.length_replicate]; omega),
        List.getElem?_append_right (by rw [List.length_replicate]; omega), List.length_replicate]
      have := ih hi
      rwa [show p + i - r.1 = p - r.1 + i by omega, show p - 1 - r.1 = p - r.1 - 1 by omega]

/-- a stretch costs `literal` a symbol, or `rate` a symbol and `copy` once; one of less than `short` is cheaper by the symbol -/
structure Tariff where
  literal : ℕ
  rate : ℕ
  copy : ℕ
  short : ℕ
  rate_le : rate ≤ literal
  short_le : ∀ n < short, literal * n ≤ rate * n + copy

namespace Tariff

variable (t : Tariff)

/-- what a stretch of `n` symbols costs -/
def stretch (n : ℕ) : ℕ := min (t.literal * n) (t.rate * n + t.copy)

/-- what a run of `n` symbols is worth -/
def run (n : ℕ) : ℕ := min (t.literal * n) (t.rate * n + 2 * t.copy)

theorem stretch_zero : t.stretch 0 = 0 := by simp [stretch]

theorem stretch_le (n : ℕ) : t.stretch n ≤ t.literal * n := min_le_left _ _

theorem stretch_short {n : ℕ} (h : n < t.short) : t.stretch n = t.literal * n := min_eq_left (t.short_le n h)

/-- a stretch costs no more than its parts -/
theorem stretch_add_le (x y : ℕ) : t.stretch (x + y) ≤ t.stretch x + t.stretch y := by
  have hx := Nat.mul_le_mul_right x t.rate_le
  have hy := Nat.mul_le_mul_right y t.rate_le
  simp only [stretch, Nat.mul_add]
  omega

/-- a run pays for two stretches -/
theorem stretches_le_run (x y : ℕ) : t.stretch x + t.stretch y ≤ t.run (x + y) := by
  simp only [stretch, run, Nat.mul_add]
  omega

theorem stretch_le_run (x : ℕ) : t.stretch x ≤ t.run x := by
  simp only [stretch, run]
  omega

/-- what runs are worth -/
def worth (runs : List (ℕ × α)) : ℕ := (runs.map fun r => t.run r.1).sum

theorem worth_cons (r : ℕ × α) (runs : List (ℕ × α)) : t.worth (r :: runs) = t.run r.1 + t.worth runs :=
  List.sum_cons

/-- what is ahead of `p` is worth: a run that `p` is inside of, one stretch -/
def rest : List (ℕ × α) → ℕ → ℕ
  | [], _ => 0
  | r :: runs, p =>
    if p = 0 then t.worth (r :: runs) else if p ≤ r.1 then t.stretch (r.1 - p) + t.worth runs else rest runs (p - r.1)

theorem rest_zero (runs : List (ℕ × α)) : t.rest runs 0 = t.worth runs := by
  cases runs <;> rfl

/-- the runs that a stretch begins with pay for it -/
theorem rest_pays_worth (hx : x ≤ (expand runs).length) : t.stretch x + t.rest runs x ≤ t.worth runs := by
  induction runs generalizing x with
  | nil =>
    obtain rfl : x = 0 := Nat.le_zero.1 hx
    rw [stretch_zero, rest_zero, Nat.zero_add]
  | cons r runs ih =>
    rw [length_expand_cons] at hx
    rw [rest]
    split_ifs with hzero hin
    · rw [hzero, stretch_zero, Nat.zero_add]
    · have htwo := t.stretches_le_run x (r.1 - x)
      rw [Nat.add_sub_cancel' hin] at htwo
      rw [worth_cons]
      omega
    · have hparts := t.stretch_add_le r.1 (x - r.1)
      rw [Nat.add_sub_cancel' (by omega)] at hparts
      have hone := t.stretch_le_run r.1
      have hrest := ih (x := x - r.1) (by omega)
      rw [worth_cons]
      omega

/-- **What is ahead pays** for a stretch, if one that begins inside a run goes to its end, unless there is little of it. -/
theorem rest_pays (hx : p + x ≤ (expand runs).length) (hcovers : t.short ≤ left runs p → left runs p ≤ x) :
    t.stretch x + t.rest runs (p + x) ≤ t.rest runs p := by
  induction runs generalizing p with
  | nil =>
    obtain ⟨rfl, rfl⟩ : p = 0 ∧ x = 0 := by simpa [expand] using hx
    rw [stretch_zero, Nat.zero_add]
  | cons r runs ih =>
    by_cases hzero : p = 0
    · subst hzero
      rw [rest_zero, Nat.zero_add] at *
      exact t.rest_pays_worth hx
    · rw [length_expand_cons] at hx
      simp only [left, if_neg hzero] at hcovers
      simp only [rest, if_neg hzero, if_neg (show p + x ≠ 0 by omega)]
      by_cases hin : p ≤ r.1
      · rw [if_pos hin] at hcovers ⊢
        split_ifs with hend
        · -- the stretch ends in the run that it begins in
          have hsub : r.1 - (p + x) = r.1 - p - x := (Nat.sub_sub _ _ _).symm
          have hparts : t.stretch x + t.stretch (r.1 - p - x) ≤ t.stretch (r.1 - p) := by
            by_cases hshort : t.short ≤ r.1 - p
            · obtain rfl : x = r.1 - p := le_antisymm (by omega) (hcovers hshort)
              rw [Nat.sub_self, stretch_zero, Nat.add_zero]
            · rw [t.stretch_short (not_le.1 hshort)]
              have h1 := t.stretch_le x
              have h2 := t.stretch_le (r.1 - p - x)
              have hsum : t.literal * (r.1 - p) = t.literal * x + t.literal * (r.1 - p - x) := by
                rw [← Nat.mul_add]
                congr 1
                omega
              omega
          rw [hsub]
          omega
        · have hparts := t.stretch_add_le (r.1 - p) (x - (r.1 - p))
          rw [Nat.add_sub_cancel' (by omega)] at hparts
          have hrest : t.stretch (x - (r.1 - p)) + t.rest runs (x - (r.1 - p)) ≤ t.worth runs := t.rest_pays_worth (by omega)
          rw [show p + x - r.1 = x - (r.1 - p) by omega]
          omega
      · rw [if_neg hin] at hcovers ⊢
        have hrest := ih (p := p - r.1) (by omega) hcovers
        rw [if_neg (by omega), show p + x - r.1 = p - r.1 + x by omega]
        exact hrest

end Tariff

end Lzvn.Core.Runs
