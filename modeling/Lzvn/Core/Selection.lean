/-
Choosing from a set of values.

- `Largest k S xs`: `xs` holds the `k` largest elements of `S`, largest first, or all of them when there are fewer.
  `Largest.push`: an element above all others goes to the front, and what is then too much is cut off at the end.
  `Largest.mem_iff`: an element is held when fewer than `k` elements are above it.
- `IsBest f S r`: `r` is an element of `S` where `f` is greatest, or `none` when there is no element. `IsBest.keep` and
  `IsBest.replace`: what a scan does with one more element.
-/
import Mathlib.Tactic

namespace Lzvn.Core

variable {α β : Type}

/-! ## The largest elements -/

/-- `xs` holds the `k` largest elements of `S`, largest first, or all of them when there are fewer -/
structure Largest [LinearOrder α] (k : ℕ) (S : Set α) (xs : List α) : Prop where
  decreasing : xs.Pairwise (· > ·)
  mem : ∀ x ∈ xs, x ∈ S
  length_le : xs.length ≤ k
  /-- what is left out is below all that is held, and only left out for want of room -/
  rest : ∀ y ∈ S, y ∉ xs → xs.length = k ∧ ∀ x ∈ xs, y < x

namespace Largest

variable [LinearOrder α] {k : ℕ} {S : Set α} {xs : List α} {x : α}

theorem empty (k : ℕ) : Largest k (∅ : Set α) [] :=
  ⟨List.Pairwise.nil, by simp, Nat.zero_le k, fun _ hy => hy.elim⟩

/-- **An element above all others** goes to the front. -/
theorem push (h : Largest k S xs) (hx : ∀ y ∈ S, y < x) : Largest k (insert x S) ((x :: xs).take k) := by
  have hsorted : (x :: xs).Pairwise (· > ·) := List.pairwise_cons.2 ⟨fun y hy => hx y (h.mem y hy), h.decreasing⟩
  refine ⟨hsorted.sublist (List.take_sublist _ _), ?_, List.length_take_le _ _, ?_⟩
  · intro y hy
    rcases List.mem_cons.1 (List.mem_of_mem_take hy) with rfl | hy
    · exact .inl rfl
    · exact .inr (h.mem y hy)
  · intro y hy hout
    -- either `y` was cut off just now, or it was left out before and `xs` was full
    by_cases hcut : y ∈ (x :: xs).drop k
    · have hk : k < (x :: xs).length := by
        by_contra hle
        rw [List.drop_eq_nil_of_le (not_lt.1 hle)] at hcut
        cases hcut
      refine ⟨List.length_take_of_le hk.le, ?_⟩
      intro z hz
      rw [← List.take_append_drop k (x :: xs)] at hsorted
      exact (List.pairwise_append.1 hsorted).2.2 z hz y hcut
    · have hnone : y ∉ x :: xs := by
        rw [← List.take_append_drop k (x :: xs), List.mem_append, not_or]
        exact ⟨hout, hcut⟩
      rw [List.mem_cons, not_or] at hnone
      have hS : y ∈ S := hy.resolve_left hnone.1
      obtain ⟨hfull, hbelow⟩ := h.rest y hS hnone.2
      refine ⟨List.length_take_of_le (by rw [List.length_cons, hfull]; exact Nat.le_succ k), ?_⟩
      intro z hz
      rcases List.mem_cons.1 (List.mem_of_mem_take hz) with rfl | hz
      · exact hx y hS
      · exact hbelow z hz

/-- **What is held** is what has fewer than `k` elements above it. -/
theorem mem_iff (h : Largest k S xs) : x ∈ xs ↔ x ∈ S ∧ {y ∈ S | x < y}.encard < k := by
  have hnodup : xs.Nodup := h.decreasing.imp fun hlt => ne_of_gt hlt
  have hcard : {y | y ∈ xs}.encard = xs.length := by
    rw [← List.coe_toFinset, Set.encard_coe_eq_coe_finsetCard, List.toFinset_card_of_nodup hnodup]
  constructor
  · intro hx
    refine ⟨h.mem x hx, lt_of_lt_of_le ?_ (hcard.le.trans (Nat.cast_le.2 h.length_le))⟩
    -- what is above an element that is held is held, and the element is not above itself
    have habove : {y ∈ S | x < y} ⊂ {y | y ∈ xs} := by
      refine ⟨?_, fun hsub => (lt_irrefl x (hsub hx).2)⟩
      intro y hy
      by_contra hout
      exact lt_asymm hy.2 ((h.rest y hy.1 hout).2 x hx)
    exact Set.Finite.encard_lt_encard ((List.finite_toSet xs).subset habove.subset) habove
  · rintro ⟨hx, hfew⟩
    by_contra hout
    obtain ⟨hfull, hbelow⟩ := h.rest x hx hout
    have hsub : {y | y ∈ xs} ⊆ {y ∈ S | x < y} := fun y hy => ⟨h.mem y hy, hbelow y hy⟩
    have := Set.encard_le_encard hsub
    rw [hcard, hfull] at this
    exact absurd hfew (not_lt.2 this)

end Largest

/-! ## The best element -/

/-- `r` is an element of `S` where `f` is greatest, or `none` when there is no element -/
def IsBest [Preorder β] (f : α → β) (S : Set α) : Option α → Prop
  | none => S = ∅
  | some a => a ∈ S ∧ ∀ b ∈ S, f b ≤ f a

namespace IsBest

theorem empty [Preorder β] (f : α → β) : IsBest f ∅ none := rfl

theorem mem [Preorder β] {f : α → β} {S : Set α} {a : α} (h : IsBest f S (some a)) : a ∈ S := h.1

/-- one more element that is no better changes nothing -/
theorem keep [Preorder β] {f : α → β} {S : Set α} {a b : α} (h : IsBest f S (some a)) (hle : f b ≤ f a) :
    IsBest f (insert b S) (some a) := by
  refine ⟨.inr h.1, ?_⟩
  intro c hc
  rcases hc with rfl | hc
  · exact hle
  · exact h.2 c hc

/-- one more element that is as good as the best so far is the best -/
theorem replace [Preorder β] {f : α → β} {S : Set α} {r : Option α} {b : α} (h : IsBest f S r)
    (hle : ∀ a, r = some a → f a ≤ f b) : IsBest f (insert b S) (some b) := by
  refine ⟨.inl rfl, ?_⟩
  intro c hc
  rcases hc with rfl | hc
  · exact le_rfl
  · cases r with
    | none =>
      rw [show S = ∅ from h] at hc
      exact hc.elim
    | some a => exact (h.2 c hc).trans (hle a rfl)

/-- under an injective rank the best element is strictly above the others -/
theorem lt [PartialOrder β] {f : α → β} {S : Set α} {a b : α} (h : IsBest f S (some a)) (hf : Function.Injective f)
    (hb : b ∈ S) (hne : b ≠ a) : f b < f a :=
  lt_of_le_of_ne (h.2 b hb) fun heq => hne (hf heq)

end IsBest

end Lzvn.Core
