/-
Greedy parses. A parser walks over a sequence; at every position a chooser answers with a copy, over whose symbols the parser
jumps, or with `none`, and then it goes on by one symbol. What lies between two copies is the literals of the second one.

- `Parses choose src start p last steps`: `steps` is what the parser makes of `src` from `p` on, with the literals since
  `start` and after a copy of distance `last`.
- `Parses.unique`: a chooser with one answer everywhere gives one parse.
- `Parses.replay`: when the copies chosen repeat symbols of `src`, the steps replay to `src`.
- `Parses.common`: when what is chosen shows in a common beginning of two sequences, so does what is made of it.
- `Parses.total_le`: a price for every position that pays for every choice there bounds the cost of the steps.
-/
import Lzvn.Core.Lz77

namespace Lzvn.Core.Lz77

variable {α : Type}

/-- the distance of the last copy after a step -/
def Step.next (last : ℕ) (s : Step α) : ℕ :=
  match s.copy with
  | none => last
  | some (_, r) => r.resolve last

inductive Parses (choose : ℕ → ℕ → Option (ℕ × ℕ) → Prop) (src : List α) : ℕ → ℕ → ℕ → List (Step α) → Prop
  | stop {start last : ℕ} : Parses choose src start src.length last [⟨src.drop start, none⟩]
  | skip {start p last : ℕ} {steps : List (Step α)} (hp : p < src.length) (hc : choose last p none)
      (rest : Parses choose src start (p + 1) last steps) : Parses choose src start p last steps
  | copy {start p last n d : ℕ} {steps : List (Step α)} (hp : p < src.length) (hc : choose last p (some (n, d)))
      (rest : Parses choose src (p + n) (p + n) d steps) :
      Parses choose src start p last (⟨(src.drop start).take (p - start), some (n, .explicit d)⟩ :: steps)

/-- `n` symbols from `p` on repeat those `d` places before -/
structure Repeats (src : List α) (p n d : ℕ) : Prop where
  distance_pos : 1 ≤ d
  distance_le : d ≤ p
  length_le : p + n ≤ src.length
  copies : copyBack (src.take p) d n = src.take (p + n)

namespace Parses

variable {choose : ℕ → ℕ → Option (ℕ × ℕ) → Prop} {src : List α} {start p last : ℕ} {steps steps' : List (Step α)}

/-- **One answer everywhere, one parse.** -/
theorem unique (hchoose : ∀ last p r r', choose last p r → choose last p r' → r = r')
    (h : Parses choose src start p last steps) (h' : Parses choose src start p last steps') : steps = steps' := by
  induction h generalizing steps' with
  | stop =>
    cases h' with
    | stop => rfl
    | skip hp => exact absurd hp (lt_irrefl _)
    | copy hp => exact absurd hp (lt_irrefl _)
  | skip hp hc _ ih =>
    cases h' with
    | stop => exact absurd hp (lt_irrefl _)
    | skip _ _ rest' => exact ih rest'
    | copy _ hc' _ => cases hchoose _ _ _ _ hc hc'
  | copy hp hc _ ih =>
    cases h' with
    | stop => exact absurd hp (lt_irrefl _)
    | skip _ hc' _ => cases hchoose _ _ _ _ hc hc'
    | copy _ hc' rest' =>
      cases hchoose _ _ _ _ hc hc'
      rw [ih rest']

/-- **A parse replays to what was parsed.** -/
theorem replay (hchoose : ∀ last p n d, choose last p (some (n, d)) → Repeats src p n d)
    (h : Parses choose src start p last steps) (hstart : start ≤ p) (hp : p ≤ src.length) :
    ∃ w, Lz77.replay ⟨src.take start, last⟩ steps = some w ∧ w.out = src := by
  induction h with
  | stop => exact ⟨_, rfl, List.take_append_drop _ _⟩
  | skip hlt _ _ ih => exact ih (Nat.le_succ_of_le hstart) hlt
  | @copy start p last n d steps hlt hc _ ih =>
    have hrep := hchoose _ _ _ _ hc
    obtain ⟨w, hreplay, hout⟩ := ih le_rfl hrep.length_le
    have hlits : src.take start ++ (src.drop start).take (p - start) = src.take p := by
      rw [← List.take_add, Nat.add_sub_cancel' hstart]
    have hreach : d ≤ (src.take start).length + ((src.drop start).take (p - start)).length := by
      rw [← List.length_append, hlits, List.length_take, min_eq_left hp]
      exact hrep.distance_le
    have hfirst : Window.apply ⟨src.take start, last⟩ ⟨(src.drop start).take (p - start), some (n, .explicit d)⟩ =
        some ⟨src.take (p + n), d⟩ := by
      rw [apply_copy (w := ⟨src.take start, last⟩) (r := .explicit d) hrep.distance_pos hreach, hlits, ← hrep.copies]
      rfl
    refine ⟨w, ?_, hout⟩
    rw [replay_cons, hfirst, Option.bind_some]
    exact hreplay

/-- the first step ends behind `p` by a copy's length, or at the end of `src` -/
theorem first_ends {c : ℕ} {s : Step α} (hmin : ∀ last p n d, choose last p (some (n, d)) → c ≤ n)
    (h : Parses choose src start p last (s :: steps)) (hstart : start ≤ p) (hp : p ≤ src.length) :
    p + c ≤ start + s.size ∨ start + s.size = src.length := by
  generalize hall : s :: steps = all at h
  induction h with
  | stop =>
    cases hall
    right
    simp only [Step.size, List.length_drop, Option.map_none, Option.getD_none]
    omega
  | skip hlt _ _ ih => exact (ih (Nat.le_succ_of_le hstart) hlt hall).imp_left fun h => by omega
  | copy hlt hc _ _ =>
    cases hall
    have := hmin _ _ _ _ hc
    left
    simp only [Step.size, List.length_take, List.length_drop, Option.map_some, Option.getD_some]
    omega

/-- **Parses of sequences with a common beginning** have their steps in common up to there, when what is chosen shows in
the beginning. -/
theorem common {choose' : ℕ → ℕ → Option (ℕ × ℕ) → Prop} {src' : List α} {c k : ℕ} {done rest : List (Step α)}
    (hk : k ≤ src.length) (hk' : k ≤ src'.length) (htake : src.take k = src'.take k)
    (hmin : ∀ last p n d, choose last p (some (n, d)) → c ≤ n)
    (hunique : ∀ last p r r', choose' last p r → choose' last p r' → r = r')
    (hnone : ∀ last p, p + c < k → choose last p none → choose' last p none)
    (hsome : ∀ last p n d, p + n < k → choose last p (some (n, d)) → choose' last p (some (n, d)))
    (h : Parses choose src start p last (done ++ rest)) (h' : Parses choose' src' start p last steps') (hstart : start ≤ p)
    (hends : start + (done.map Step.size).sum < k) : done <+: steps' := by
  generalize hall : done ++ rest = all at h
  induction h generalizing done steps' with
  | @stop start last =>
    cases done with
    | nil => exact List.nil_prefix
    | cons s done =>
      -- the last step goes to the end of `src`, which is not before `k`
      obtain ⟨rfl, -⟩ := List.cons.inj hall
      simp only [List.map_cons, List.sum_cons, Step.size, List.length_drop, Option.map_none, Option.getD_none] at hends
      omega
  | @skip start p last steps hlt hc hrest ih =>
    cases done with
    | nil => exact List.nil_prefix
    | cons s done =>
      rw [List.map_cons, List.sum_cons] at hends
      have hrest' : Parses choose src start (p + 1) last (s :: (done ++ rest)) := by
        rwa [← List.cons_append, hall]
      have hfirst := first_ends hmin hrest' (Nat.le_succ_of_le hstart) hlt
      have hc' := hnone last p (by omega) hc
      cases h' with
      | stop => omega
      | skip _ _ hgoes => exact ih hgoes (Nat.le_succ_of_le hstart) (by rwa [List.map_cons, List.sum_cons]) hall
      | copy _ hcopy _ => cases hunique _ _ _ _ hc' hcopy
  | @copy start p last n d steps hlt hc _ ih =>
    cases done with
    | nil => exact List.nil_prefix
    | cons s done =>
      cases hall
      simp only [List.map_cons, List.sum_cons, Step.size, List.length_take, List.length_drop, Option.map_some,
        Option.getD_some] at hends
      have hc' := hsome last p n d (by omega) hc
      have hlits : (src.drop start).take (p - start) = (src'.drop start).take (p - start) := by
        rw [← List.drop_take, ← List.drop_take, ← min_eq_left (show p ≤ k by omega), ← List.take_take, htake,
          List.take_take]
      cases h' with
      | stop => omega
      | skip _ hskip _ => cases hunique _ _ _ _ hc' hskip
      | copy _ hcopy hrest' =>
        cases hunique _ _ _ _ hc' hcopy
        rw [hlits]
        exact List.cons_prefix_cons.2 ⟨rfl, ih hrest' le_rfl (by omega) rfl⟩

/-- what steps cost, each after the copies of the steps before it -/
def total (cost : ℕ → Step α → ℕ) : ℕ → List (Step α) → ℕ
  | _, [] => 0
  | last, s :: steps => cost last s + total cost (s.next last) steps

/-- **What pays for every choice pays for the parse.** A literal is worth `a`, and what is ahead of a position its `price`. -/
theorem total_le {cost : ℕ → Step α → ℕ} {a b : ℕ} {price : ℕ → ℕ}
    (hlength : ∀ last p n d, choose last p (some (n, d)) → p + n ≤ src.length)
    (hskip : ∀ last p, p < src.length → choose last p none → a + price (p + 1) ≤ price p)
    (hcopy : ∀ literals last p n d, choose last p (some (n, d)) →
      cost last ⟨literals, some (n, .explicit d)⟩ + price (p + n) ≤ a * literals.length + price p)
    (hlast : ∀ literals last, cost last ⟨literals, none⟩ ≤ a * literals.length + b)
    (h : Parses choose src start p last steps) (hstart : start ≤ p) (hp : p ≤ src.length) :
    total cost last steps ≤ a * (p - start) + price p + b := by
  induction h with
  | @stop start last =>
    have hcost := hlast (src.drop start) last
    rw [List.length_drop] at hcost
    simp only [total]
    omega
  | @skip start p last steps hlt hc _ ih =>
    have hrest := ih (Nat.le_succ_of_le hstart) hlt
    have hpaid := hskip last p hlt hc
    rw [Nat.succ_sub hstart, Nat.mul_succ] at hrest
    omega
  | @copy start p last n d steps hlt hc _ ih =>
    have hend := hlength _ _ _ _ hc
    have hrest := ih le_rfl hend
    have hpaid := hcopy ((src.drop start).take (p - start)) last p n d hc
    have hlits : ((src.drop start).take (p - start)).length = p - start := by
      rw [List.length_take, List.length_drop]
      omega
    rw [hlits] at hpaid
    rw [Nat.sub_self, Nat.mul_zero] at hrest
    simp only [total, Step.next, Reach.resolve]
    omega

end Parses

end Lzvn.Core.Lz77
