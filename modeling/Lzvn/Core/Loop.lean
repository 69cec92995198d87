/-
Loops with a falling bound. A loop body maps a state either to the next state (`again`) or to the loop's result
(`leave`). With a bound on the states that every round lowers, the loop is a total function: `run` hands `iterate` more
rounds than the bound allows, so the rounds never run out.

- `iterate_ends`: rounds that lower a number end, also where no bound is known for every state. `iterate_returns` is the rule
  for what they leave with.
- `run_eq`: the loop unrolls by one round.
- `run_rule`: a relation between a state and the result, closed under leaving and under going round, holds of the loop.
- `Head`, `head_inv`: the states in front of the rounds of a run, and the invariant rule for them. `run_head`: a run leaves
  from one of them.
- `ofMonadic`: the loop of a stateful body that may also throw; `none` goes round again and `some` leaves. `ofMonadic_rule`,
  `ofMonadic_inv` and `ofMonadic_le` are its rules for relations, invariants and measures.
-/
import Mathlib.Tactic

namespace Lzvn.Core

/-- what one round of a loop does -/
inductive Flow (σ ρ : Type) where
  | again (s : σ)
  | leave (r : ρ)

/-- a loop body whose rounds lower a bound -/
structure Loop (σ ρ : Type) where
  body : σ → Flow σ ρ
  bound : σ → ℕ
  falls : ∀ s s', body s = .again s' → bound s' < bound s

namespace Loop

variable {σ ρ ε α : Type}

/-- at most `n` rounds; `none` when they do not suffice -/
def iterate (body : σ → Flow σ ρ) : ℕ → σ → Option ρ
  | 0, _ => none
  | n + 1, s =>
    match body s with
    | .again s' => iterate body n s'
    | .leave r => some r

theorem iterate_isSome (L : Loop σ ρ) (n : ℕ) (s : σ) (h : L.bound s < n) : (iterate L.body n s).isSome := by
  induction n generalizing s with
  | zero => omega
  | succ n ih =>
    rw [iterate]
    cases hb : L.body s with
    | again s' =>
      have := L.falls s s' hb
      exact ih s' (by omega)
    | leave r => rfl

/-- more rounds than enough change nothing -/
theorem iterate_mono (body : σ → Flow σ ρ) (n m : ℕ) (s : σ) (r : ρ) (h : iterate body n s = some r) (hnm : n ≤ m) :
    iterate body m s = some r := by
  induction n generalizing m s with
  | zero => simp [iterate] at h
  | succ n ih =>
    obtain ⟨k, rfl⟩ : ∃ k, m = k + 1 := ⟨m - 1, by omega⟩
    rw [iterate] at h ⊢
    cases hb : body s with
    | again s' => rw [hb] at h; exact ih k s' h (by omega)
    | leave r' => rw [hb] at h; exact h

theorem iterate_isSome_mono {body : σ → Flow σ ρ} {n m : ℕ} {s : σ} (h : (iterate body n s).isSome) (hnm : n ≤ m) :
    (iterate body m s).isSome := by
  obtain ⟨r, hr⟩ := Option.isSome_iff_exists.1 h
  rw [iterate_mono body n m s r hr hnm]
  rfl

/-- rounds that lower a number end, on the states that the number is known for -/
theorem iterate_ends {body : σ → Flow σ ρ} {I : σ → ℕ → Prop}
    (hfalls : ∀ s k s', I s k → body s = .again s' → ∃ k', k' < k ∧ I s' k') {s : σ} {k : ℕ} (h : I s k) :
    (iterate body (k + 1) s).isSome := by
  induction k using Nat.strong_induction_on generalizing s with
  | _ k ih =>
    rw [iterate]
    cases hb : body s with
    | leave r => rfl
    | again s' =>
      obtain ⟨k', hlt, h'⟩ := hfalls s k s' h hb
      exact iterate_isSome_mono (ih k' hlt h') hlt

/-- **Potential rule.** Rounds that keep `I` and lower its number leave, with a result that has `Q` when every leave has. -/
theorem iterate_returns {body : σ → Flow σ ρ} {I : σ → ℕ → Prop} {Q : ρ → Prop}
    (hround : ∀ s k, I s k → match body s with
      | .again s' => ∃ k', k' < k ∧ I s' k'
      | .leave r => Q r) {s : σ} {k : ℕ} (h : I s k) : ∃ r, iterate body (k + 1) s = some r ∧ Q r := by
  induction k using Nat.strong_induction_on generalizing s with
  | _ k ih =>
    rw [iterate]
    have hs := hround s k h
    cases hb : body s with
    | leave r =>
      rw [hb] at hs
      exact ⟨r, rfl, hs⟩
    | again s' =>
      rw [hb] at hs
      obtain ⟨k', hlt, h'⟩ := hs
      obtain ⟨r, hr, hQ⟩ := ih k' hlt h'
      exact ⟨r, iterate_mono body _ _ _ _ hr hlt, hQ⟩

def run (L : Loop σ ρ) (s : σ) : ρ :=
  (iterate L.body (L.bound s + 1) s).get (L.iterate_isSome _ s (Nat.lt_succ_self _))

theorem iterate_run (L : Loop σ ρ) (s : σ) : iterate L.body (L.bound s + 1) s = some (L.run s) := by
  simp [run]

/-- the loop unrolls by one round -/
theorem run_eq (L : Loop σ ρ) (s : σ) :
    L.run s = match L.body s with
      | .again s' => L.run s'
      | .leave r => r := by
  have h := L.iterate_run s
  rw [iterate] at h
  cases hb : L.body s with
  | again s' =>
    rw [hb] at h
    have hs' := iterate_mono L.body _ (L.bound s) s' _ (L.iterate_run s') (L.falls s s' hb)
    exact Option.some.inj (h.symm.trans hs')
  | leave r => rw [hb] at h; exact (Option.some.inj h).symm

theorem run_again (L : Loop σ ρ) {s s' : σ} (h : L.body s = .again s') : L.run s = L.run s' := by
  rw [run_eq, h]

theorem run_leave (L : Loop σ ρ) {s : σ} {r : ρ} (h : L.body s = .leave r) : L.run s = r := by
  rw [run_eq, h]

/-- **Loop rule.** A relation between a state and the loop's result from it, which holds when the body leaves and is
carried back over a round, holds of every run. -/
theorem run_rule (L : Loop σ ρ) (P : σ → ρ → Prop) (leave : ∀ s r, L.body s = .leave r → P s r)
    (again : ∀ s s' r, L.body s = .again s' → P s' r → P s r) (s : σ) : P s (L.run s) := by
  induction hn : L.bound s using Nat.strong_induction_on generalizing s with
  | _ n ih =>
    cases hb : L.body s with
    | again s' =>
      rw [run_again L hb]
      exact again s s' _ hb (ih (L.bound s') (hn ▸ L.falls s s' hb) s' rfl)
    | leave r =>
      rw [run_leave L hb]
      exact leave s r hb

/-- the loop from `s` comes to `t` in front of one of its rounds -/
def Head (L : Loop σ ρ) (s t : σ) : Prop := Relation.ReflTransGen (fun s s' => L.body s = .again s') s t

/-- what every round keeps holds in front of every round -/
theorem head_inv (L : Loop σ ρ) {I : σ → Prop} (again : ∀ s s', I s → L.body s = .again s' → I s') {s t : σ}
    (h : L.Head s t) (hs : I s) : I t := by
  induction h with
  | refl => exact hs
  | tail _ hround ih => exact again _ _ ih hround

/-- the loop leaves from one of its heads -/
theorem run_head (L : Loop σ ρ) (s : σ) : ∃ t, L.Head s t ∧ L.body t = .leave (L.run s) := by
  refine L.run_rule (fun s r => ∃ t, L.Head s t ∧ L.body t = .leave r) ?_ ?_ s
  · intro s r hleave
    exact ⟨s, .refl, hleave⟩
  · rintro s s' r hround ⟨t, hhead, hleave⟩
    exact ⟨t, hhead.head hround, hleave⟩

/-- the round of a stateful body that may throw: `none` goes round again, `some` leaves with a value -/
def flow (m : EStateM ε σ (Option α)) (s : σ) : Flow σ (EStateM.Result ε σ α) :=
  match m.run s with
  | .ok none s' => .again s'
  | .ok (some a) s' => .leave (.ok a s')
  | .error e s' => .leave (.error e s')

theorem flow_again {m : EStateM ε σ (Option α)} {s s' : σ} : flow m s = .again s' ↔ m.run s = .ok none s' := by
  unfold flow
  split <;> simp_all

theorem flow_leave_ok {m : EStateM ε σ (Option α)} {s s' : σ} {a : α} :
    flow m s = .leave (.ok a s') ↔ m.run s = .ok (some a) s' := by
  unfold flow
  split <;> simp_all

theorem flow_leave_error {m : EStateM ε σ (Option α)} {s s' : σ} {e : ε} :
    flow m s = .leave (.error e s') ↔ m.run s = .error e s' := by
  unfold flow
  split <;> simp_all

/-- the loop of a stateful body that may throw -/
def ofMonadic (m : EStateM ε σ (Option α)) (bound : σ → ℕ)
    (falls : ∀ s s', m.run s = .ok none s' → bound s' < bound s) : Loop σ (EStateM.Result ε σ α) where
  body := flow m
  bound := bound
  falls := fun s s' h => falls s s' (flow_again.1 h)

theorem ofMonadic_head {m : EStateM ε σ (Option α)} {bound : σ → ℕ}
    {falls : ∀ s s', m.run s = .ok none s' → bound s' < bound s} {s s' : σ} (h : m.run s = .ok none s') :
    (ofMonadic m bound falls).Head s s' :=
  Relation.ReflTransGen.single (flow_again.2 h)

theorem ofMonadic_congr {m m' : EStateM ε σ (Option α)} (h : m = m') {bound : σ → ℕ}
    (falls : ∀ s s', m.run s = .ok none s' → bound s' < bound s)
    (falls' : ∀ s s', m'.run s = .ok none s' → bound s' < bound s) :
    ofMonadic m bound falls = ofMonadic m' bound falls' := by
  subst h
  rfl

/-- the loop rule for a stateful body -/
theorem ofMonadic_rule (m : EStateM ε σ (Option α)) (bound : σ → ℕ)
    (falls : ∀ s s', m.run s = .ok none s' → bound s' < bound s) (P : σ → EStateM.Result ε σ α → Prop)
    (leave : ∀ s a s', m.run s = .ok (some a) s' → P s (.ok a s'))
    (throw : ∀ s e s', m.run s = .error e s' → P s (.error e s'))
    (again : ∀ s s' r, m.run s = .ok none s' → P s' r → P s r) (s : σ) : P s ((ofMonadic m bound falls).run s) := by
  refine run_rule (ofMonadic m bound falls) P (fun s r hb => ?_) (fun s s' r hb => again s s' r (flow_again.1 hb)) s
  cases r with
  | ok a s' => exact leave s a s' (flow_leave_ok.1 hb)
  | error e s' => exact throw s e s' (flow_leave_error.1 hb)

/-- the invariant rule for a stateful body -/
theorem ofMonadic_inv (m : EStateM ε σ (Option α)) (bound : σ → ℕ)
    (falls : ∀ s s', m.run s = .ok none s' → bound s' < bound s) (I : σ → Prop)
    (Q : EStateM.Result ε σ α → Prop) (leave : ∀ s a s', I s → m.run s = .ok (some a) s' → Q (.ok a s'))
    (throw : ∀ s e s', I s → m.run s = .error e s' → Q (.error e s'))
    (again : ∀ s s', I s → m.run s = .ok none s' → I s') (s : σ) (h : I s) : Q ((ofMonadic m bound falls).run s) :=
  ofMonadic_rule m bound falls (fun s r => I s → Q r) (fun s a s' hb hI => leave s a s' hI hb)
    (fun s e s' hb hI => throw s e s' hI hb) (fun s s' _ hb ih hI => ih (again s s' hI hb)) s h

/-- what no round raises is not raised by the loop -/
theorem ofMonadic_le (m : EStateM ε σ (Option α)) (bound : σ → ℕ)
    (falls : ∀ s s', m.run s = .ok none s' → bound s' < bound s) (μ : σ → ℕ)
    (round : ∀ s a s', m.run s = .ok a s' → μ s' ≤ μ s) {s s' : σ} {a : α}
    (h : (ofMonadic m bound falls).run s = .ok a s') : μ s' ≤ μ s := by
  have hle : ∀ a s', (ofMonadic m bound falls).run s = .ok a s' → μ s' ≤ μ s :=
    ofMonadic_inv m bound falls (fun t => μ t ≤ μ s) (fun r => ∀ a s', r = .ok a s' → μ s' ≤ μ s)
      (fun t b t' hI hb _ _ heq => by cases heq; exact (round _ _ _ hb).trans hI)
      (fun _ _ _ _ _ _ _ heq => by cases heq) (fun _ _ hI hb => (round _ _ _ hb).trans hI) s le_rfl
  exact hle a s' h

end Loop

end Lzvn.Core
