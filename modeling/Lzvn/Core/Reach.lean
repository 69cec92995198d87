/-
How far back LZ77 looks. A copy from `d` places back reads the last `d` symbols and no others, so what stands in front of
them may be anything.

- `copyBack_append_left`: a copy leaves alone what stands in front of the symbols it reads.
- `Prepends`, `replay_prepends`: steps that go through from the start go through behind any output, and append the same.
- `Shares`, `apply_shares`: windows that share their last `d` symbols take the same steps of reach `d`.
-/
import Lzvn.Core.Lz77

namespace Lzvn.Core.Lz77

variable {α : Type}

theorem copyBack_append_left (x : List α) {s : List α} {d : ℕ} (n : ℕ) (hd : 1 ≤ d) (hle : d ≤ s.length) :
    copyBack (x ++ s) d n = x ++ copyBack s d n := by
  induction n generalizing s with
  | zero => rfl
  | succ n ih =>
    obtain ⟨a, ha, hcopy⟩ := copyBack_succ n hd hle
    have hget : (x ++ s)[(x ++ s).length - d]? = some a := by
      rw [List.length_append, List.getElem?_append_right (by omega), ← ha]
      congr 1
      omega
    have hle' : d ≤ (s ++ [a]).length := by rw [List.length_append]; omega
    rw [hcopy, ← ih hle', ← List.append_assoc, copyBack, hget]

/-! ## Behind other output -/

/-- `v` is `w` behind the symbols `x`; before the first copy of `w` its last distance may be anything -/
def Prepends (x : List α) (w v : Window α) : Prop := v.out = x ++ w.out ∧ (w.last = 0 ∨ v.last = w.last)

theorem Prepends.init (v : Window α) : Prepends v.out Window.init v := ⟨(List.append_nil _).symm, .inl rfl⟩

/-- a step that has its distance in `w` finds the same distance in `v` -/
theorem Prepends.resolve {x : List α} {w v : Window α} (h : Prepends x w v) {r : Reach} (hpos : 1 ≤ r.resolve w.last) :
    r.resolve v.last = r.resolve w.last := by
  cases r with
  | explicit d => rfl
  | last =>
    rcases h.2 with hzero | hsame
    · rw [Reach.resolve, hzero] at hpos
      omega
    · exact hsame

theorem apply_prepends {x : List α} {w v w' : Window α} {s : Step α} (h : Prepends x w v) (hw : w.apply s = some w') :
    ∃ v', v.apply s = some v' ∧ Prepends x w' v' := by
  obtain ⟨l, copy⟩ := s
  cases copy with
  | none =>
    rw [apply_literals] at hw ⊢
    cases hw
    exact ⟨_, rfl, by rw [h.1, List.append_assoc], h.2⟩
  | some p =>
    obtain ⟨n, r⟩ := p
    simp only [Window.apply] at hw
    split_ifs at hw with hreach
    cases hw
    have hresolve := h.resolve hreach.1
    have hlen : r.resolve w.last ≤ w.out.length + l.length := by simpa using hreach.2
    rw [apply_copy (hresolve ▸ hreach.1) (by rw [hresolve, h.1, List.length_append]; omega), hresolve, h.1,
      List.append_assoc, copyBack_append_left x n hreach.1 hreach.2]
    exact ⟨_, rfl, rfl, .inr rfl⟩

/-- **Steps behind other output** append what they append from the start. -/
theorem replay_prepends {x : List α} {w v w' : Window α} {steps : List (Step α)} (h : Prepends x w v)
    (hw : replay w steps = some w') : ∃ v', replay v steps = some v' ∧ Prepends x w' v' := by
  induction steps generalizing w v with
  | nil => cases hw; exact ⟨v, rfl, h⟩
  | cons s steps ih =>
    rw [replay_cons, Option.bind_eq_some_iff] at hw
    obtain ⟨w1, hw1, hw⟩ := hw
    obtain ⟨v1, hv1, h1⟩ := apply_prepends h hw1
    obtain ⟨v', hv', h'⟩ := ih h1 hw
    exact ⟨v', by rw [replay_cons, hv1]; exact hv', h'⟩

/-! ## Windows with the same end -/

/-- the distance that a step itself gives is at most `d` -/
def Step.Within (d : ℕ) (s : Step α) : Prop := ∀ n e, s.copy = some (n, .explicit e) → e ≤ d

/-- windows of one length that share their last `d` symbols, or all of them, and the last distance, which is at most `d` -/
def Shares (d : ℕ) (w v : Window α) : Prop :=
  ∃ x y s, w.out = x ++ s ∧ v.out = y ++ s ∧ x.length = y.length ∧ (x = [] ∨ d ≤ s.length) ∧ w.last = v.last ∧ w.last ≤ d

variable {d : ℕ}

theorem Shares.refl {w : Window α} (h : w.last ≤ d) : Shares d w w := ⟨[], [], w.out, rfl, rfl, rfl, .inl rfl, rfl, h⟩

theorem Shares.length_eq {w v : Window α} (h : Shares d w v) : w.out.length = v.out.length := by
  obtain ⟨x, y, s, hw, hv, hlen, -⟩ := h
  rw [hw, hv, List.length_append, List.length_append, hlen]

/-- what both windows append, and windows that still share their end -/
theorem Shares.append {w v : Window α} (h : Shares d w v) (l : List α) {e : ℕ} (he : e ≤ d) :
    Shares d ⟨w.out ++ l, e⟩ ⟨v.out ++ l, e⟩ := by
  obtain ⟨x, y, s, hw, hv, hlen, hx, -, -⟩ := h
  refine ⟨x, y, s ++ l, by rw [hw, List.append_assoc], by rw [hv, List.append_assoc], hlen, ?_, rfl, he⟩
  rw [List.length_append]
  exact hx.imp_right fun hle => hle.trans (Nat.le_add_right _ _)

/-- a copy from at most `d` places back appends the same to both -/
theorem Shares.copyBack {w v : Window α} (h : Shares d w v) {e : ℕ} (n : ℕ) (h1 : 1 ≤ e) (he : e ≤ d)
    (hle : e ≤ w.out.length) : ∃ l, copyBack w.out e n = w.out ++ l ∧ copyBack v.out e n = v.out ++ l := by
  obtain ⟨x, y, s, hw, hv, hlen, hx, -, -⟩ := h
  have hs : e ≤ s.length := by
    rcases hx with rfl | hd
    · rwa [hw, List.nil_append] at hle
    · exact he.trans hd
  obtain ⟨l, hl⟩ := le_copyBack s e n
  refine ⟨l, ?_, ?_⟩
  · rw [hw, copyBack_append_left x n h1 hs, ← hl, List.append_assoc]
  · rw [hv, copyBack_append_left y n h1 hs, ← hl, List.append_assoc]

/-- **A step of reach `d`** does the same to windows that share their last `d` symbols. -/
theorem apply_shares {w v : Window α} (h : Shares d w v) {s : Step α} (hs : s.Within d) :
    (w.apply s = none ∧ v.apply s = none) ∨ ∃ w' v' l, w.apply s = some w' ∧ v.apply s = some v' ∧
      w'.out = w.out ++ l ∧ v'.out = v.out ++ l ∧ Shares d w' v' := by
  have hlen := h.length_eq
  have hlast : w.last = v.last ∧ w.last ≤ d := by
    obtain ⟨_, _, _, -, -, -, -, hlast⟩ := h
    exact hlast
  obtain ⟨l, copy⟩ := s
  cases copy with
  | none => exact .inr ⟨_, _, l, rfl, rfl, rfl, rfl, hlast.1 ▸ h.append l hlast.2⟩
  | some p =>
    obtain ⟨n, r⟩ := p
    have he : r.resolve w.last ≤ d := by
      cases r with
      | explicit e => exact hs n e rfl
      | last => exact hlast.2
    simp only [Window.apply, ← hlast.1]
    by_cases hreach : 1 ≤ r.resolve w.last ∧ r.resolve w.last ≤ (w.out ++ l).length
    · have hreach' : 1 ≤ r.resolve w.last ∧ r.resolve w.last ≤ (v.out ++ l).length := by
        rw [List.length_append, ← hlen, ← List.length_append]
        exact hreach
      rw [if_pos hreach, if_pos hreach']
      obtain ⟨m, hm, hm'⟩ := (h.append l he).copyBack n hreach.1 he hreach.2
      dsimp only at hm hm'
      refine .inr ⟨_, _, l ++ m, rfl, rfl, by rw [hm, List.append_assoc], by rw [hm', List.append_assoc], ?_⟩
      rw [hm, hm']
      exact (h.append l he).append m he
    · have hreach' : ¬ (1 ≤ r.resolve w.last ∧ r.resolve w.last ≤ (v.out ++ l).length) := by
        rw [List.length_append, ← hlen, ← List.length_append]
        exact hreach
      rw [if_neg hreach, if_neg hreach']
      exact .inl ⟨rfl, rfl⟩

end Lzvn.Core.Lz77
