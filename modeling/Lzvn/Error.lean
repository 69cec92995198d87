/-
`src/error.rs`, and what of the language and its standard library the model rests on.

- `Error` is the crate's error type. The texts of `#[error(..)]` are left out: no modelled function reads them.
- A function stops before its end with an `Err` it returns or with a panic: `Stop`. `Rust σ α` is a function on
  `&mut σ` that returns `Result<α>`; the state survives an `Err`. Pure functions are in `Except Stop`.
- `index`, `slice`, `sub`, `copyFromSlice` and `setIndex` are the operations that panic outside their range.
- `Usize` is the width of `usize`. `Usize.add` and `Usize.mul` panic where an unchecked operation overflows, and
  `Usize.zeros` is `vec![0; n]`, which panics with a capacity overflow beyond `isize::MAX`. `Slice` is a slice of that
  width: its length is at most `isize::MAX`. Sums of lengths and offsets inside slices that are in memory cannot overflow
  and are taken in ℕ. A sum over all calls on an incremental decoder can: `Usize.wrappingAdd` is such a sum in a build
  without overflow checks. Memory does not run out: the capacities asked of `Vec::with_capacity` are left out everywhere.
-/
import Mathlib.Tactic

namespace Lzvn

/-- `Error` -/
inductive Error where
  | truncatedInput (position : ℕ)
  | invalidOpcode (position : ℕ) (opcode : UInt8)
  | invalidMatchDistance (distance available : ℕ)
  | outputTooSmall (written capacity : ℕ)
  | sizeMismatch (expected actual : ℕ)
  | trailingData (remaining : ℕ)
  | unsupportedBlockMagic (magic : ℕ)
  | invalidDecmpfsMagic (magic : ℕ)
  | unsupportedDecmpfsCompressionType (compressionType : ℕ)
  | missingResourceFork
  | invalidResourceFork (reason : String)
  | sizeOverflow (value max : ℕ) (what : String)
deriving DecidableEq, Repr

/-! ## Stopping -/

/-- why a function stops before its end -/
inductive Stop where
  | err (e : Error)
  | panic
deriving DecidableEq, Repr

/-- a function on `&mut σ` that returns `Result<α>` -/
abbrev Rust (σ α : Type) := EStateM Stop σ α

instance (σ : Type) : MonadLift (Except Stop) (EStateM Stop σ) where
  monadLift x s :=
    match x with
    | .ok a => .ok a s
    | .error e => .error e s

@[simp] theorem run_lift_ok {σ α : Type} (a : α) (s : σ) :
    EStateM.run (liftM (Except.ok a : Except Stop α) : EStateM Stop σ α) s = .ok a s := rfl

@[simp] theorem run_lift_error {σ α : Type} (e : Stop) (s : σ) :
    EStateM.run (liftM (Except.error e : Except Stop α) : EStateM Stop σ α) s = .error e s := rfl

@[simp] theorem run_throw {σ α : Type} (e : Stop) (s : σ) :
    EStateM.run (throw e : EStateM Stop σ α) s = .error e s := rfl

theorem run_ok_bind {σ α β : Type} (a : α) (f : α → Rust σ β) (s : σ) :
    EStateM.run ((liftM (Except.ok a : Except Stop α) : Rust σ α) >>= f) s = (f a).run s := rfl

/-- a sequence returns when both parts do -/
theorem run_bind_ok {σ α β : Type} {x : Rust σ α} {f : α → Rust σ β} {s s' : σ} {b : β} :
    EStateM.run (x >>= f) s = .ok b s' ↔ ∃ a t, EStateM.run x s = .ok a t ∧ EStateM.run (f a) t = .ok b s' := by
  rw [EStateM.run_bind]
  cases EStateM.run x s <;> simp

theorem run_lift_eq_ok {σ α : Type} {x : Except Stop α} {s s' : σ} {a : α} :
    EStateM.run (liftM x : EStateM Stop σ α) s = .ok a s' ↔ x = .ok a ∧ s' = s := by
  cases x <;> simp [eq_comm]

@[simp] theorem except_ok_bind {ε α β : Type} (a : α) (f : α → Except ε β) : (Except.ok a >>= f) = f a := rfl

@[simp] theorem except_error_bind {ε α β : Type} (e : ε) (f : α → Except ε β) :
    (Except.error e >>= f) = Except.error e := rfl

theorem except_bind_ok {ε α β : Type} {x : Except ε α} {f : α → Except ε β} {b : β} :
    (x >>= f) = .ok b ↔ ∃ a, x = .ok a ∧ f a = .ok b := by
  cases x <;> simp

/-- `?` on an `Err` -/
def fail {α : Type} (e : Error) : Except Stop α := .error (.err e)

/-- `x.ok_or(e)?` -/
def okOr {α : Type} (x : Option α) (e : Error) : Except Stop α :=
  match x with
  | some a => .ok a
  | none => fail e

/-- `m` runs on the field of the state that `get` reads and `set` writes -/
def zoom {σ τ α : Type} (get : σ → τ) (set : τ → σ → σ) (m : Rust τ α) : Rust σ α := fun s =>
  match m.run (get s) with
  | .ok a t => .ok a (set t s)
  | .error e t => .error e (set t s)

theorem run_zoom {σ τ α : Type} (get : σ → τ) (set : τ → σ → σ) (m : Rust τ α) (s : σ) :
    EStateM.run (zoom get set m) s = match m.run (get s) with
      | .ok a t => .ok a (set t s)
      | .error e t => .error e (set t s) := rfl

/-! ## Slices -/

variable {α : Type}

/-- `xs[i]` -/
def index (xs : List α) (i : ℕ) : Except Stop α :=
  match xs[i]? with
  | some a => .ok a
  | none => .error .panic

/-- `&xs[start..stop]` -/
def slice (xs : List α) (start stop : ℕ) : Except Stop (List α) :=
  if start ≤ stop ∧ stop ≤ xs.length then .ok ((xs.drop start).take (stop - start)) else .error .panic

/-- `a - b` -/
def sub (a b : ℕ) : Except Stop ℕ := if b ≤ a then .ok (a - b) else .error .panic

/-- `xs[start..stop].copy_from_slice(ys)` -/
def copyFromSlice (xs : List α) (start stop : ℕ) (ys : List α) : Except Stop (List α) :=
  if start ≤ stop ∧ stop ≤ xs.length ∧ ys.length = stop - start then .ok (xs.take start ++ ys ++ xs.drop stop)
  else .error .panic

/-- `xs[i] = a` -/
def setIndex (xs : List α) (i : ℕ) (a : α) : Except Stop (List α) :=
  if i < xs.length then .ok (xs.set i a) else .error .panic

/-- `debug_assert!(c)` -/
def debugAssert (c : Prop) [Decidable c] : Except Stop Unit := if c then .ok () else .error .panic

theorem index_eq {xs : List α} {i : ℕ} {a : α} (h : xs[i]? = some a) : index xs i = .ok a := by
  simp [index, h]

theorem slice_eq {xs : List α} {start stop : ℕ} (h1 : start ≤ stop) (h2 : stop ≤ xs.length) :
    slice xs start stop = .ok ((xs.drop start).take (stop - start)) := by
  simp [slice, h1, h2]

theorem getElem?_head {xs ys : List α} {i : ℕ} {a : α} (h : xs.drop i = a :: ys) : xs[i]? = some a := by
  rw [← Nat.add_zero i, ← List.getElem?_drop, h]
  rfl

/-- a slice that has more than one element from `i` on -/
theorem index_second {xs ys : List α} {i : ℕ} {a : α} (h : xs.drop i = a :: ys) (hlen : ¬ (a :: ys).length < 2) :
    ∃ b zs, ys = b :: zs ∧ index xs (i + 1) = .ok b := by
  rw [List.length_cons] at hlen
  obtain ⟨b, zs, rfl⟩ := List.exists_cons_of_length_pos (by omega : 0 < ys.length)
  exact ⟨b, zs, rfl, index_eq (by rw [← List.getElem?_drop, h]; rfl)⟩

theorem index_third {xs ys : List α} {i : ℕ} {a : α} (h : xs.drop i = a :: ys) (hlen : ¬ (a :: ys).length < 3) :
    ∃ b c zs, ys = b :: c :: zs ∧ index xs (i + 1) = .ok b ∧ index xs (i + 2) = .ok c := by
  obtain ⟨b, ys, rfl, hb⟩ := index_second h (by omega)
  rw [List.length_cons, List.length_cons] at hlen
  obtain ⟨c, zs, rfl⟩ := List.exists_cons_of_length_pos (by omega : 0 < ys.length)
  exact ⟨b, c, zs, rfl, hb, index_eq (by rw [← List.getElem?_drop, h]; rfl)⟩

theorem sub_eq {a b : ℕ} (h : b ≤ a) : sub a b = .ok (a - b) := by
  simp [sub, h]

theorem copyFromSlice_eq {xs ys : List α} {start stop : ℕ} (h1 : start ≤ stop) (h2 : stop ≤ xs.length)
    (h3 : ys.length = stop - start) :
    copyFromSlice xs start stop ys = .ok (xs.take start ++ ys ++ xs.drop stop) := by
  simp [copyFromSlice, h1, h2, h3]

theorem setIndex_eq {xs : List α} {i : ℕ} (a : α) (h : i < xs.length) : setIndex xs i a = .ok (xs.set i a) := by
  simp [setIndex, h]

/-! ## The width of `usize` -/

/-- `u32::MAX` -/
def u32Max : ℕ := 2 ^ 32 - 1

inductive Usize where
  | bits32
  | bits64
deriving DecidableEq, Repr

namespace Usize

def bits : Usize → ℕ
  | .bits32 => 32
  | .bits64 => 64

/-- `usize::MAX` -/
def max (u : Usize) : ℕ := 2 ^ u.bits - 1

/-- `isize::MAX` -/
def isizeMax (u : Usize) : ℕ := 2 ^ (u.bits - 1) - 1

/-- `a + b` -/
def add (u : Usize) (a b : ℕ) : Except Stop ℕ := if a + b ≤ u.max then .ok (a + b) else .error .panic

/-- `a + b` without overflow checks -/
def wrappingAdd (u : Usize) (a b : ℕ) : ℕ := (a + b) % 2 ^ u.bits

/-- `a * b` -/
def mul (u : Usize) (a b : ℕ) : Except Stop ℕ := if a * b ≤ u.max then .ok (a * b) else .error .panic

/-- `a.checked_add(b)` -/
def checkedAdd (u : Usize) (a b : ℕ) : Option ℕ := if a + b ≤ u.max then some (a + b) else none

/-- `a.checked_mul(b)` -/
def checkedMul (u : Usize) (a b : ℕ) : Option ℕ := if a * b ≤ u.max then some (a * b) else none

/-- `a.saturating_add(b)` -/
def saturatingAdd (u : Usize) (a b : ℕ) : ℕ := min (a + b) u.max

/-- `vec![0; n]` -/
def zeros (u : Usize) (n : ℕ) : Except Stop (List UInt8) :=
  if n ≤ u.isizeMax then .ok (List.replicate n 0) else .error .panic

/-- a sum that fits does not wrap -/
theorem wrappingAdd_eq {u : Usize} {a b : ℕ} (h : a + b ≤ u.max) : u.wrappingAdd a b = a + b :=
  Nat.mod_eq_of_lt (lt_of_le_of_lt h (Nat.sub_one_lt (Nat.two_pow_pos u.bits).ne'))

/-- a sum that wraps depends on the residue of what it adds to -/
theorem wrappingAdd_mod (u : Usize) (a b : ℕ) : u.wrappingAdd (a % 2 ^ u.bits) b = (a + b) % 2 ^ u.bits :=
  Nat.mod_add_mod a _ b

end Usize

/-- a byte slice on a machine of width `u` -/
structure Slice (u : Usize) where
  bytes : List UInt8
  length_le : bytes.length ≤ u.isizeMax

end Lzvn
