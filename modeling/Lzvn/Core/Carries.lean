/-
Stateful code along a map of states. `f` carries `m` to `m'` when `m'` does from `f s` what `m` does from `s`, also when it
throws. A function that reads only a part of its state and writes only behind what is there is carried by every map that
changes the rest.

- `Carries.bind`, `Carries.get_bind`, `Carries.modify`, `Carries.set`, `Carries.ite`: the parts of a `do` block.
- `Carries.loop`: a loop whose rounds are carried.
-/
import Lzvn.Core.Loop

namespace Lzvn.Core

variable {ε σ τ α β : Type}

def mapState (f : σ → τ) : EStateM.Result ε σ α → EStateM.Result ε τ α
  | .ok a s => .ok a (f s)
  | .error e s => .error e (f s)

/-- `m'` does from `f s` what `m` does from `s` -/
def Carries (f : σ → τ) (m : EStateM ε σ α) (m' : EStateM ε τ α) : Prop := ∀ s, m'.run (f s) = mapState f (m.run s)

namespace Carries

variable {f : σ → τ}

theorem pure (a : α) : Carries f (pure a : EStateM ε σ α) (pure a) := fun _ => rfl

theorem throw (e : ε) : Carries f (throw e : EStateM ε σ α) (throw e) := fun _ => rfl

theorem modify {g : σ → σ} {g' : τ → τ} (h : ∀ s, g' (f s) = f (g s)) :
    Carries f (modify g : EStateM ε σ PUnit) (modify g') :=
  fun s => congrArg (EStateM.Result.ok PUnit.unit) (h s)

theorem set {s : σ} {t : τ} (h : t = f s) : Carries f (set s : EStateM ε σ PUnit) (set t) :=
  fun _ => congrArg (EStateM.Result.ok PUnit.unit) h

theorem bind {m : EStateM ε σ α} {m' : EStateM ε τ α} {k : α → EStateM ε σ β} {k' : α → EStateM ε τ β}
    (hm : Carries f m m') (hk : ∀ a, Carries f (k a) (k' a)) : Carries f (m >>= k) (m' >>= k') := by
  intro s
  rw [EStateM.run_bind, EStateM.run_bind, hm s]
  cases m.run s with
  | ok a t => exact hk a t
  | error e t => rfl

/-- what is read from the state is carried along -/
theorem get_bind {k : σ → EStateM ε σ β} {k' : τ → EStateM ε τ β} (hk : ∀ s, Carries f (k s) (k' (f s))) :
    Carries f (get >>= k) (get >>= k') := fun s => hk s s

theorem ite {p : Prop} [Decidable p] {m n : EStateM ε σ α} {m' n' : EStateM ε τ α} (h : Carries f m m')
    (h' : Carries f n n') : Carries f (if p then m else n) (if p then m' else n') := by
  split_ifs
  · exact h
  · exact h'

/-- **Loops.** A loop whose rounds are carried is carried. -/
theorem loop {m : EStateM ε σ (Option α)} {m' : EStateM ε τ (Option α)} (hm : Carries f m m') (bound : σ → ℕ)
    (falls : ∀ s s', m.run s = .ok none s' → bound s' < bound s) (bound' : τ → ℕ)
    (falls' : ∀ t t', m'.run t = .ok none t' → bound' t' < bound' t) (s : σ) :
    (Loop.ofMonadic m' bound' falls').run (f s) = mapState f ((Loop.ofMonadic m bound falls).run s) := by
  refine Loop.ofMonadic_rule m bound falls
    (fun s r => (Loop.ofMonadic m' bound' falls').run (f s) = mapState f r) ?_ ?_ ?_ s
  · intro s a s' h
    have hleave : m'.run (f s) = .ok (some a) (f s') := by rw [hm s, h]; rfl
    exact Loop.run_leave _ (Loop.flow_leave_ok.2 hleave)
  · intro s e s' h
    have hthrow : m'.run (f s) = .error e (f s') := by rw [hm s, h]; rfl
    exact Loop.run_leave _ (Loop.flow_leave_error.2 hthrow)
  · intro s s' r h ih
    have hagain : m'.run (f s) = .ok none (f s') := by rw [hm s, h]; rfl
    rw [← ih]
    exact Loop.run_again _ (Loop.flow_again.2 hagain)

end Carries

end Lzvn.Core
