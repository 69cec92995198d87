/-
Invariants of stateful code. A computation maintains `I` when it ends in a state with `I` whenever it begins in one, also
when it throws. What it reads from the state has `I` too.

- `Maintains.bind`, `Maintains.get_bind`, `Maintains.modify`, `Maintains.set`, `Maintains.read`: the parts of a `do` block.
- `Maintains.loop`: a loop whose rounds maintain `I`.
-/
import Lzvn.Core.Loop

namespace Lzvn.Core

variable {ε σ α β : Type}

/-- the state that a computation ends in -/
def endState : EStateM.Result ε σ α → σ
  | .ok _ s => s
  | .error _ s => s

/-- `m` keeps `I` -/
def Maintains (I : σ → Prop) (m : EStateM ε σ α) : Prop := ∀ s, I s → I (endState (m.run s))

namespace Maintains

variable {I : σ → Prop}

theorem pure (a : α) : Maintains I (pure a : EStateM ε σ α) := fun _ h => h

theorem throw (e : ε) : Maintains I (throw e : EStateM ε σ α) := fun _ h => h

/-- a computation that leaves the state alone -/
theorem read {m : EStateM ε σ α} (h : ∀ s, endState (m.run s) = s) : Maintains I m := by
  intro s hs
  rwa [h s]

theorem modify {f : σ → σ} (h : ∀ s, I s → I (f s)) : Maintains I (modify f : EStateM ε σ PUnit) := h

theorem set {s : σ} (h : I s) : Maintains I (set s : EStateM ε σ PUnit) := fun _ _ => h

theorem bind {m : EStateM ε σ α} {f : α → EStateM ε σ β} (hm : Maintains I m) (hf : ∀ a, Maintains I (f a)) :
    Maintains I (m >>= f) := by
  intro s hs
  have hmid := hm s hs
  rw [EStateM.run_bind]
  cases hrun : m.run s with
  | ok a s' =>
    rw [hrun] at hmid
    exact hf a s' hmid
  | error e s' =>
    rw [hrun] at hmid
    exact hmid

/-- a part that leaves the state alone -/
theorem read_bind {m : EStateM ε σ α} {f : α → EStateM ε σ β} (h : ∀ s, endState (m.run s) = s)
    (hf : ∀ a, Maintains I (f a)) : Maintains I (m >>= f) := bind (read h) hf

/-- what is read from the state has `I` -/
theorem get_bind {f : σ → EStateM ε σ β} (hf : ∀ s, I s → Maintains I (f s)) : Maintains I (get >>= f) :=
  fun s hs => hf s hs s hs

theorem ite {p : Prop} [Decidable p] {m m' : EStateM ε σ α} (h : p → Maintains I m) (h' : ¬ p → Maintains I m') :
    Maintains I (if p then m else m') := by
  split_ifs with hp
  · exact h hp
  · exact h' hp

/-- **Loops.** A loop whose rounds maintain `I` maintains `I`. -/
theorem loop {m : EStateM ε σ (Option α)} (hm : Maintains I m) (bound : σ → ℕ)
    (falls : ∀ s s', m.run s = .ok none s' → bound s' < bound s) (s : σ) (h : I s) :
    I (endState ((Loop.ofMonadic m bound falls).run s)) := by
  have round {r : EStateM.Result ε σ (Option α)} (s : σ) (hs : I s) (hr : m.run s = r) : I (endState r) := hr ▸ hm s hs
  exact Loop.ofMonadic_inv m bound falls I (fun r => I (endState r)) (fun s _ _ hs hr => round s hs hr)
    (fun s _ _ hs hr => round s hs hr) (fun s _ hs hr => round s hs hr) s h

end Maintains

end Lzvn.Core
