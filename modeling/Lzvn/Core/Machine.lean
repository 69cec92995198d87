/-
Machines that answer calls. A machine in a state takes a call, moves to its next state and replies. A run is a list of
calls; a driver makes the calls of a list in order and stops at the first reply it takes for final.

- `run_inv`: a step invariant holds after every run. `run_gather_inv`: so does one that also speaks of what the calls have
  contributed so far, a ghost that no state holds.
- `along_iff`: a condition on the calls of a run, each in the state it is made in.
- `along_bounded`: what every call adds at most its weight to is bounded by the weight of the run.
- `simulates`: a relation between the states of two machines that every call keeps relates their replies in whole runs, and
  `along_simulates` carries a condition on the calls over. `coincide`: two machines that take the same steps in a run.
  `relates` does so for calls that differ too, and `replies_eq` is about two states of one machine that no call tells apart.
- `drive_final`, `drive_next`: a driver stops at a call, or makes it and goes on. `made` are the calls it makes.
  `drive_replies`: every reply that it sees, but the last one of a driver that ended, is one it goes on after.
-/
import Mathlib.Tactic

namespace Lzvn.Core

structure Machine (σ κ ρ : Type) where
  step : σ → κ → σ × ρ

namespace Machine

variable {σ κ ρ : Type} (M : Machine σ κ ρ)

/-- the state after a list of calls -/
def run (s : σ) (calls : List κ) : σ := calls.foldl (fun s c => (M.step s c).1) s

/-- the replies to a list of calls -/
def replies (s : σ) : List κ → List ρ
  | [] => []
  | c :: calls => (M.step s c).2 :: replies (M.step s c).1 calls

theorem run_cons (s : σ) (c : κ) (calls : List κ) : M.run s (c :: calls) = M.run (M.step s c).1 calls := rfl

theorem run_append (s : σ) (a b : List κ) : M.run s (a ++ b) = M.run (M.run s a) b := by
  simp [run, List.foldl_append]

theorem run_snoc (s : σ) (a : List κ) (c : κ) : M.run s (a ++ [c]) = (M.step (M.run s a) c).1 := by
  rw [run_append]; rfl

theorem replies_append (s : σ) (a b : List κ) : M.replies s (a ++ b) = M.replies s a ++ M.replies (M.run s a) b := by
  induction a generalizing s with
  | nil => rfl
  | cons c a ih => simp only [List.cons_append, replies, ih, run_cons]

theorem replies_snoc (s : σ) (a : List κ) (c : κ) :
    M.replies s (a ++ [c]) = M.replies s a ++ [(M.step (M.run s a) c).2] := by
  rw [replies_append]; rfl

/-- **Invariant rule.** -/
theorem run_inv (I : σ → Prop) (hstep : ∀ s c, I s → I (M.step s c).1) (s : σ) (h : I s) (calls : List κ) :
    I (M.run s calls) := by
  induction calls generalizing s with
  | nil => exact h
  | cons c calls ih => exact ih _ (hstep s c h)

/-- what the calls of a run contribute, each in the state it is made in -/
def gather {α : Type} (f : σ → κ → List α) (s : σ) : List κ → List α
  | [] => []
  | c :: calls => f s c ++ gather f (M.step s c).1 calls

/-- **Invariant rule**, with what the calls have contributed. -/
theorem run_gather_inv {α : Type} {f : σ → κ → List α} (I : σ → List α → Prop)
    (hstep : ∀ s q c, I s q → I (M.step s c).1 (q ++ f s c)) (s : σ) (q : List α) (h : I s q) (calls : List κ) :
    I (M.run s calls) (q ++ M.gather f s calls) := by
  induction calls generalizing s q with
  | nil => rwa [gather, List.append_nil]
  | cons c calls ih =>
    rw [gather, ← List.append_assoc]
    exact ih _ _ (hstep s q c h)

/-- every call of the run is made in a state where `P` holds -/
def Along (P : σ → κ → Prop) (s : σ) : List κ → Prop
  | [] => True
  | c :: calls => P s c ∧ Along P (M.step s c).1 calls

instance (P : σ → κ → Prop) [∀ s c, Decidable (P s c)] (s : σ) (calls : List κ) : Decidable (M.Along P s calls) :=
  match calls with
  | [] => isTrue trivial
  | c :: calls => @instDecidableAnd _ _ _ (instDecidableAlong P (M.step s c).1 calls)

theorem along_iff (P : σ → κ → Prop) (s : σ) (calls : List κ) :
    M.Along P s calls ↔ ∀ a c b, calls = a ++ c :: b → P (M.run s a) c := by
  induction calls generalizing s with
  | nil => simp [Along]
  | cons d calls ih =>
    rw [Along, ih]
    constructor
    · intro h a c b hab
      rcases h with ⟨hd, h⟩
      cases a with
      | nil => cases hab; exact hd
      | cons e a => cases hab; exact h a c b rfl
    · intro h
      exact ⟨h [] d calls rfl, fun a c b hab => h (d :: a) c b (by rw [hab]; rfl)⟩

variable {M} in
theorem Along.of_append {P : σ → κ → Prop} {s : σ} {a b : List κ} (h : M.Along P s (a ++ b)) : M.Along P s a := by
  induction a generalizing s with
  | nil => trivial
  | cons c a ih => exact ⟨h.1, ih h.2⟩

variable {M} in
theorem Along.imp {P Q : σ → κ → Prop} {s : σ} {calls : List κ} (h : M.Along P s calls) (hpq : ∀ s c, P s c → Q s c) :
    M.Along Q s calls := by
  rw [along_iff] at h ⊢
  exact fun a c b hab => hpq _ _ (h a c b hab)

/-- **Budget rule.** A measure that every call raises by at most its weight stays within the weight of the run. -/
theorem along_bounded {I : σ → Prop} {measure : σ → ℕ} {weight : κ → ℕ} {n : ℕ}
    (hstep : ∀ s c, I s → I (M.step s c).1 ∧ measure (M.step s c).1 ≤ measure s + weight c) {s : σ} (hs : I s)
    (calls : List κ) (h : measure s + (calls.map weight).sum ≤ n) :
    M.Along (fun s c => I s ∧ measure s + weight c ≤ n) s calls := by
  induction calls generalizing s with
  | nil => trivial
  | cons c calls ih =>
    rw [List.map_cons, List.sum_cons] at h
    obtain ⟨hnext, hle⟩ := hstep s c hs
    exact ⟨⟨hs, by omega⟩, ih hnext (by omega)⟩

/-- **Simulation rule.** `R` is kept by every call that `P` allows, and the replies to such a call are in `Q`. -/
theorem simulates {τ ρ' : Type} (N : Machine τ κ ρ') {P : σ → κ → Prop} (R : σ → τ → Prop) {Q : ρ → ρ' → Prop}
    (hstep : ∀ s t c, R s t → P s c → R (M.step s c).1 (N.step t c).1 ∧ Q (M.step s c).2 (N.step t c).2)
    (calls : List κ) {s : σ} {t : τ} (h : R s t) (hp : M.Along P s calls) :
    R (M.run s calls) (N.run t calls) ∧ List.Forall₂ Q (M.replies s calls) (N.replies t calls) := by
  induction calls generalizing s t with
  | nil => exact ⟨h, .nil⟩
  | cons c calls ih =>
    obtain ⟨hnext, hreply⟩ := hstep s t c h hp.1
    obtain ⟨hlast, hreplies⟩ := ih hnext hp.2
    exact ⟨hlast, .cons hreply hreplies⟩

/-- a condition that the calls of a run meet on one machine is met on the other, where `R` carries it over -/
theorem along_simulates {τ ρ' : Type} (N : Machine τ κ ρ') {P : σ → κ → Prop} {P' : τ → κ → Prop} (R : σ → τ → Prop)
    (hstep : ∀ s t c, R s t → P s c → R (M.step s c).1 (N.step t c).1 ∧ P' t c) (calls : List κ) {s : σ} {t : τ}
    (h : R s t) (hp : M.Along P s calls) : N.Along P' t calls := by
  induction calls generalizing s t with
  | nil => trivial
  | cons c calls ih =>
    obtain ⟨hnext, hcall⟩ := hstep s t c h hp.1
    exact ⟨hcall, ih hnext hp.2⟩

/-- a machine that takes the same steps as this one, where the calls of a run are made, runs the same -/
theorem coincide (N : Machine σ κ ρ) {P : σ → κ → Prop} (hstep : ∀ s c, P s c → N.step s c = M.step s c) {s : σ}
    {calls : List κ} (hp : M.Along P s calls) : N.run s calls = M.run s calls ∧ N.replies s calls = M.replies s calls := by
  induction calls generalizing s with
  | nil => exact ⟨rfl, rfl⟩
  | cons c calls ih =>
    obtain ⟨hrun, hreplies⟩ := ih hp.2
    rw [run_cons, run_cons, replies, replies, hstep s c hp.1, hrun, hreplies]
    exact ⟨rfl, rfl⟩

theorem along_coincide (N : Machine σ κ ρ) {P Q : σ → κ → Prop} (hstep : ∀ s c, P s c → N.step s c = M.step s c) {s : σ}
    {calls : List κ} (hp : M.Along P s calls) : N.Along Q s calls ↔ M.Along Q s calls := by
  induction calls generalizing s with
  | nil => exact Iff.rfl
  | cons c calls ih => rw [Along, Along, hstep s c hp.1, ih hp.2]

/-- **Relational rule.** The same for calls that need not be the same, but are related by `K`. -/
theorem relates {τ κ' ρ' : Type} (N : Machine τ κ' ρ') {K : κ → κ' → Prop} (R : σ → τ → Prop) {Q : ρ → ρ' → Prop}
    (hstep : ∀ s t c d, R s t → K c d → R (M.step s c).1 (N.step t d).1 ∧ Q (M.step s c).2 (N.step t d).2)
    {calls : List κ} {calls' : List κ'} (hcalls : List.Forall₂ K calls calls') {s : σ} {t : τ} (h : R s t) :
    R (M.run s calls) (N.run t calls') ∧ List.Forall₂ Q (M.replies s calls) (N.replies t calls') := by
  induction hcalls generalizing s t with
  | nil => exact ⟨h, .nil⟩
  | cons hcall _ ih =>
    obtain ⟨hnext, hreply⟩ := hstep s t _ _ h hcall
    obtain ⟨hlast, hreplies⟩ := ih hnext
    exact ⟨hlast, .cons hreply hreplies⟩

/-- **States that no call tells apart** give the same replies in whole runs. -/
theorem replies_eq (R : σ → σ → Prop)
    (hstep : ∀ s t c, R s t → R (M.step s c).1 (M.step t c).1 ∧ (M.step s c).2 = (M.step t c).2) (calls : List κ)
    {s t : σ} (h : R s t) : M.replies s calls = M.replies t calls := by
  have hp : M.Along (fun _ _ => True) s calls := (M.along_iff _ s calls).2 fun _ _ _ _ => trivial
  exact List.forall₂_eq_eq_eq ▸ (M.simulates M R (fun s t c hr _ => hstep s t c hr) calls h hp).2

/-- make the calls in order up to the first reply that `stop` takes for final, given the calls still to come; the
replies seen, and whether the last one was final -/
def drive (stop : ρ → List κ → Bool) (s : σ) : List κ → List ρ × Bool
  | [] => ([], false)
  | c :: calls =>
    let (s', r) := M.step s c
    if stop r calls then ([r], true)
    else
      let (rs, ended) := drive stop s' calls
      (r :: rs, ended)

theorem drive_final {stop : ρ → List κ → Bool} {s : σ} {c : κ} {calls : List κ}
    (h : stop (M.step s c).2 calls = true) : M.drive stop s (c :: calls) = ([(M.step s c).2], true) := by
  rw [drive]
  exact if_pos h

theorem drive_next {stop : ρ → List κ → Bool} {s : σ} {c : κ} {calls : List κ}
    (h : stop (M.step s c).2 calls = false) : M.drive stop s (c :: calls) =
      ((M.step s c).2 :: (M.drive stop (M.step s c).1 calls).1, (M.drive stop (M.step s c).1 calls).2) := by
  rw [drive]
  exact if_neg (by simp [h])

theorem drive_replies {stop : ρ → List κ → Bool} {s : σ} {calls : List κ} {r : ρ}
    (h : r ∈ (M.drive stop s calls).1) :
    (∃ rest, stop r rest = false) ∨ (M.drive stop s calls).2 = true ∧ (M.drive stop s calls).1.getLast? = some r := by
  induction calls generalizing s with
  | nil => cases h
  | cons c calls ih =>
    cases hstop : stop (M.step s c).2 calls with
    | true =>
      rw [M.drive_final hstop] at h ⊢
      obtain rfl := List.mem_singleton.1 h
      exact .inr ⟨rfl, rfl⟩
    | false =>
      rw [M.drive_next hstop] at h ⊢
      rcases List.mem_cons.1 h with rfl | hmem
      · exact .inl ⟨calls, hstop⟩
      · refine (ih hmem).imp_right ?_
        intro hlast
        refine ⟨hlast.1, ?_⟩
        rw [List.getLast?_cons, hlast.2]
        rfl

/-- the calls that the driver makes -/
def made (stop : ρ → List κ → Bool) (s : σ) : List κ → List κ
  | [] => []
  | c :: calls => if stop (M.step s c).2 calls then [c] else c :: made stop (M.step s c).1 calls

theorem made_next {stop : ρ → List κ → Bool} {s : σ} {c : κ} {calls : List κ}
    (h : stop (M.step s c).2 calls = false) : M.made stop s (c :: calls) = c :: M.made stop (M.step s c).1 calls := by
  rw [made]
  exact if_neg (by simp [h])

end Machine

end Lzvn.Core
