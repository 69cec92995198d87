/-
LZ77 with a repeated distance, over any alphabet. A step appends literals and may then copy `n` symbols from `d` places
back, where `d` is the step's own distance or that of the last copy. The copy runs symbol by symbol, so it may overlap
what it writes.

- `eq_copyBack_iff`: a copy is the only extension by `n` symbols in which every new symbol equals the one `d` places
  before it.
- `copyBack_add`: a copy may be cut into two copies at any point.
- `apply_le`: a step only appends.
- `replay_append`: replaying composes.
-/
import Mathlib.Tactic

namespace Lzvn.Core.Lz77

variable {α : Type}

/-! ## Copies -/

theorem getElem?_of_le {a b : List α} (h : a <+: b) {i : ℕ} (hi : i < a.length) : b[i]? = a[i]? := by
  obtain ⟨t, rfl⟩ := h
  exact List.getElem?_append_left hi

/-- append `n` symbols, each the one `d` places before the end -/
def copyBack (out : List α) (d : ℕ) : ℕ → List α
  | 0 => out
  | n + 1 =>
    match out[out.length - d]? with
    | some a => copyBack (out ++ [a]) d n
    | none => out

theorem copyBack_succ {out : List α} {d : ℕ} (n : ℕ) (hd : 1 ≤ d) (hle : d ≤ out.length) :
    ∃ a, out[out.length - d]? = some a ∧ copyBack out d (n + 1) = copyBack (out ++ [a]) d n := by
  have hlt : out.length - d < out.length := by omega
  exact ⟨out[out.length - d], List.getElem?_eq_getElem hlt, by rw [copyBack, List.getElem?_eq_getElem hlt]⟩

theorem copyBack_length {out : List α} {d : ℕ} (n : ℕ) (hd : 1 ≤ d) (hle : d ≤ out.length) :
    (copyBack out d n).length = out.length + n := by
  induction n generalizing out with
  | zero => rfl
  | succ n ih =>
    obtain ⟨a, -, h⟩ := copyBack_succ n hd hle
    have hle' : d ≤ (out ++ [a]).length := by rw [List.length_append]; omega
    calc (copyBack out d (n + 1)).length = (copyBack (out ++ [a]) d n).length := by rw [h]
      _ = (out ++ [a]).length + n := ih hle'
      _ = out.length + (n + 1) := by rw [List.length_append, List.length_singleton]; omega

theorem le_copyBack (out : List α) (d n : ℕ) : out <+: copyBack out d n := by
  induction n generalizing out with
  | zero => exact List.prefix_refl _
  | succ n ih =>
    rw [copyBack]
    split
    · exact (List.prefix_append _ _).trans (ih _)
    · exact List.prefix_refl _

/-- a copy may be cut in two -/
theorem copyBack_add {out : List α} {d : ℕ} (m n : ℕ) (hd : 1 ≤ d) (hle : d ≤ out.length) :
    copyBack out d (m + n) = copyBack (copyBack out d m) d n := by
  induction m generalizing out with
  | zero => simp [copyBack]
  | succ m ih =>
    obtain ⟨a, ha, h⟩ := copyBack_succ m hd hle
    have hle' : d ≤ (out ++ [a]).length := by rw [List.length_append]; omega
    calc copyBack out d (m + 1 + n) = copyBack out d (m + n + 1) := by rw [Nat.add_right_comm]
      _ = copyBack (out ++ [a]) d (m + n) := by rw [copyBack, ha]
      _ = copyBack (copyBack (out ++ [a]) d m) d n := ih hle'
      _ = copyBack (copyBack out d (m + 1)) d n := by rw [h]

/-- the part of a copy after its first symbols -/
theorem copyBack_split {out : List α} {d m n : ℕ} (hn : n ≤ m) (hd : 1 ≤ d) (hle : d ≤ out.length) :
    copyBack out d m = copyBack (copyBack out d n) d (m - n) := by
  rw [← copyBack_add _ _ hd hle, Nat.add_sub_cancel' hn]

/-- the last symbol of a copy -/
theorem copyBack_snoc {out : List α} {d : ℕ} (n : ℕ) (hd : 1 ≤ d) (hle : d ≤ out.length) :
    ∃ a, (copyBack out d n)[out.length + n - d]? = some a ∧ copyBack out d (n + 1) = copyBack out d n ++ [a] := by
  have hlen := copyBack_length n hd hle
  have hle' : d ≤ (copyBack out d n).length := by omega
  obtain ⟨a, ha, h⟩ := copyBack_succ 0 hd hle'
  refine ⟨a, by rw [← hlen, ha], ?_⟩
  calc copyBack out d (n + 1) = copyBack (copyBack out d n) d 1 := copyBack_add n 1 hd hle
    _ = copyBack out d n ++ [a] := h

/-- every new symbol equals the one `d` places before it, also when the copy overlaps itself -/
theorem copyBack_spec {out : List α} {d : ℕ} (n : ℕ) (hd : 1 ≤ d) (hle : d ≤ out.length) (i : ℕ) (hi : i < n) :
    (copyBack out d n)[out.length + i]? = (copyBack out d n)[out.length + i - d]? := by
  induction n generalizing out i with
  | zero => omega
  | succ n ih =>
    obtain ⟨a, ha, h⟩ := copyBack_succ n hd hle
    have hpre : out ++ [a] <+: copyBack (out ++ [a]) d n := le_copyBack _ _ _
    rw [h]
    cases i with
    | zero =>
      have hsrc : (out ++ [a])[out.length - d]? = some a := by rw [List.getElem?_append_left (by omega), ha]
      rw [Nat.add_zero, getElem?_of_le hpre (i := out.length) (by simp),
        getElem?_of_le hpre (i := out.length - d) (by simp), hsrc]
      simp
    | succ i =>
      have hle' : d ≤ (out ++ [a]).length := by rw [List.length_append]; omega
      have := ih hle' i (by omega)
      rw [List.length_append, List.length_singleton] at this
      rw [show out.length + (i + 1) = out.length + 1 + i by omega]
      exact this

/-- a copy is determined by its symbols -/
theorem copyBack_unique {out l : List α} {d : ℕ} (n : ℕ) (hd : 1 ≤ d) (hle : d ≤ out.length) (hpre : out <+: l)
    (hlen : l.length = out.length + n) (hl : ∀ i, i < n → l[out.length + i]? = l[out.length + i - d]?) :
    l = copyBack out d n := by
  induction n generalizing out with
  | zero => exact (hpre.eq_of_length (by omega)).symm
  | succ n ih =>
    obtain ⟨a, ha, h⟩ := copyBack_succ n hd hle
    have hnext : l[out.length]? = some a := by
      have h0 := hl 0 (by omega)
      rw [Nat.add_zero, getElem?_of_le hpre (i := out.length - d) (by omega)] at h0
      rw [h0, ha]
    have hpre' : out ++ [a] <+: l := by
      obtain ⟨t, rfl⟩ := hpre
      cases t with
      | nil => simp at hlen
      | cons b t =>
        simp at hnext
        exact ⟨t, by simp [hnext]⟩
    rw [h]
    refine ih (by simp; omega) hpre' (by simp; omega) (fun i hi => ?_)
    have := hl (i + 1) (by omega)
    rw [List.length_append, List.length_singleton, show out.length + 1 + i = out.length + (i + 1) by omega]
    exact this

/-- **A copy, symbol by symbol.** It is the extension in which every new symbol equals the one `d` places before it. -/
theorem eq_copyBack_iff {out l : List α} {d n : ℕ} (hd : 1 ≤ d) (hle : d ≤ out.length) : l = copyBack out d n ↔
    out <+: l ∧ l.length = out.length + n ∧ ∀ i, i < n → l[out.length + i]? = l[out.length + i - d]? := by
  constructor
  · intro h
    rw [h]
    exact ⟨le_copyBack _ _ _, copyBack_length n hd hle, copyBack_spec n hd hle⟩
  · intro h
    rcases h with ⟨hpre, hlen, hl⟩
    exact copyBack_unique n hd hle hpre hlen hl

/-! ## Steps and windows -/

/-- where a copy takes its distance from -/
inductive Reach where
  | explicit (distance : ℕ)
  | last
deriving DecidableEq, Repr

/-- the distance meant when the last copy's distance is `d` -/
def Reach.resolve (d : ℕ) : Reach → ℕ
  | .explicit distance => distance
  | .last => d

/-- literals, then possibly a copy of some length -/
structure Step (α : Type) where
  literals : List α
  copy : Option (ℕ × Reach)
deriving DecidableEq, Repr

/-- the output so far and the last copy's distance -/
structure Window (α : Type) where
  out : List α
  last : ℕ
deriving DecidableEq, Repr

/-- the window before the first step -/
def Window.init : Window α := ⟨[], 0⟩

/-- one step; `none` when its distance does not reach into the output -/
def Window.apply (w : Window α) (s : Step α) : Option (Window α) :=
  let out := w.out ++ s.literals
  match s.copy with
  | none => some ⟨out, w.last⟩
  | some (n, r) =>
    let d := r.resolve w.last
    if 1 ≤ d ∧ d ≤ out.length then some ⟨copyBack out d n, d⟩ else none

def replay (w : Window α) (steps : List (Step α)) : Option (Window α) := steps.foldlM Window.apply w

theorem replay_cons (w : Window α) (s : Step α) (steps : List (Step α)) :
    replay w (s :: steps) = (w.apply s).bind fun w' => replay w' steps := rfl

theorem replay_append (w : Window α) (a b : List (Step α)) :
    replay w (a ++ b) = (replay w a).bind fun w' => replay w' b := by
  simp only [replay, List.foldlM_append]
  rfl

/-- the symbols a step appends -/
def Step.size (s : Step α) : ℕ := s.literals.length + (s.copy.map Prod.fst).getD 0

/-- the distance of a step's copy after window `w` -/
def Step.distance (s : Step α) (w : Window α) : ℕ := (s.copy.map fun p => p.2.resolve w.last).getD 0

theorem apply_literals (w : Window α) (l : List α) : w.apply ⟨l, none⟩ = some ⟨w.out ++ l, w.last⟩ := rfl

theorem apply_copy {w : Window α} {l : List α} {n : ℕ} {r : Reach} (h1 : 1 ≤ r.resolve w.last)
    (h2 : r.resolve w.last ≤ w.out.length + l.length) :
    w.apply ⟨l, some (n, r)⟩ = some ⟨copyBack (w.out ++ l) (r.resolve w.last) n, r.resolve w.last⟩ := by
  simp [Window.apply, h1, h2]

/-- a step only appends -/
theorem apply_le {w w' : Window α} {s : Step α} (h : w.apply s = some w') : w.out <+: w'.out := by
  unfold Window.apply at h
  split at h
  · cases h
    exact List.prefix_append _ _
  · dsimp only at h
    split_ifs at h
    cases h
    exact (List.prefix_append _ _).trans (le_copyBack _ _ _)

theorem apply_length {w w' : Window α} {s : Step α} (h : w.apply s = some w') :
    w'.out.length = w.out.length + s.size := by
  unfold Window.apply at h
  unfold Step.size
  split at h
  · rename_i hc
    cases h
    simp [hc]
  · rename_i n r hc
    dsimp only at h
    split_ifs at h with hd
    cases h
    rw [copyBack_length n hd.1 hd.2]
    simp [hc]; omega

theorem replay_le {w w' : Window α} {steps : List (Step α)} (h : replay w steps = some w') : w.out <+: w'.out := by
  induction steps generalizing w with
  | nil => cases h; exact List.prefix_refl _
  | cons s steps ih =>
    rw [replay_cons, Option.bind_eq_some_iff] at h
    obtain ⟨w1, h1, h2⟩ := h
    exact (apply_le h1).trans (ih h2)

end Lzvn.Core.Lz77
