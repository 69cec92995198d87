/-
`src/raw/encode.rs`: the encoder's state and its match finder. The source borrows `src` immutably, so it is a parameter
of `Encoder` here. A table slot is `none` where the source has `INVALID_POSITION`, which no position reaches. The
capacity asked of `Vec::with_capacity` is left out: it bounds no length.

- `matchLength_spec`: `match_length` finds the longest match of two positions.
- `run_insertPosition`: `insert_position` never panics and changes the table only, as `inserted` says.
-/
import Lzvn.Core.Loop
import Lzvn.Error

namespace Lzvn.Raw

open Lzvn.Core

/-- `CANDIDATES_PER_BUCKET` -/
def candidatesPerBucket : ℕ := 4

/-- `HASH_BITS` -/
def hashBits : ℕ := 14

/-- `HASH_SIZE` -/
def hashSize : ℕ := 2 ^ hashBits

/-- `MAX_DISTANCE` -/
def maxDistance : ℕ := 0xFFFF

/-- `MAX_SHORT_DISTANCE` -/
def maxShortDistance : ℕ := 0x600

/-- `MIN_MATCH_LEN` -/
def minMatchLen : ℕ := 3

/-- `Match` -/
structure Match where
  distance : ℕ
  length : ℕ
deriving DecidableEq, Repr

/-- one entry of the hash table -/
structure Bucket where
  slots : List (Option ℕ)
  length_slots : slots.length = candidatesPerBucket

def Bucket.empty : Bucket := ⟨List.replicate candidatesPerBucket none, List.length_replicate⟩

/-- `slot.rotate_right(1); slot[0] = position` -/
def Bucket.insert (bucket : Bucket) (position : ℕ) : Bucket :=
  ⟨(bucket.slots.rotateRight 1).set 0 (some position), by
    simp [List.rotateRight, bucket.length_slots, candidatesPerBucket]⟩

/-- `Encoder` -/
structure Encoder (src : List UInt8) where
  output : List UInt8
  table : Vector Bucket hashSize
  literalStart : ℕ
  position : ℕ
  previousDistance : ℕ

namespace Encoder

variable {src : List UInt8}

def new (src : List UInt8) : Encoder src := ⟨[], Vector.replicate hashSize .empty, 0, 0, 0⟩

/-! ## Finding matches -/

/-- one round of the `while` in `match_length` -/
def matchLengthRound (src : List UInt8) (candidate position maxLength : ℕ) : Rust ℕ (Option Unit) := do
  let length ← get
  if length < maxLength then
    let a ← index src (candidate + length)
    let b ← index src (position + length)
    if a = b then
      set (length + 1)
      return none
    else return some ()
  else return some ()

theorem matchLengthRound_falls (src : List UInt8) (candidate position maxLength : ℕ) (length length' : ℕ)
    (h : (matchLengthRound src candidate position maxLength).run length = .ok none length') :
    maxLength - length' < maxLength - length := by
  simp only [matchLengthRound, EStateM.run_bind, EStateM.run_get] at h
  split_ifs at h with hlt
  · simp only [run_bind_ok, run_lift_eq_ok] at h
    obtain ⟨a, _, ⟨-, rfl⟩, b, _, ⟨-, rfl⟩, h⟩ := h
    split_ifs at h
    · cases h
      omega
    · cases h
  · cases h

def matchLengthLoop (src : List UInt8) (candidate position maxLength : ℕ) :
    Loop ℕ (EStateM.Result Stop ℕ Unit) :=
  Loop.ofMonadic (matchLengthRound src candidate position maxLength) (maxLength - ·)
    (matchLengthRound_falls src candidate position maxLength)

def matchLength (src : List UInt8) (candidate position : ℕ) : Except Stop ℕ := do
  let maxLength ← sub src.length position
  match (matchLengthLoop src candidate position maxLength).run 0 with
  | .ok _ length => return length
  | .error e _ => .error e

def isBetterMatch (candidate : Match) (current : Option Match) (previousDistance : ℕ) : Bool :=
  match current with
  | none => true
  | some current =>
    if candidate.length ≠ current.length then candidate.length > current.length
    else
      let candidatePrev : Bool := candidate.distance = previousDistance
      let currentPrev : Bool := current.distance = previousDistance
      if candidatePrev ≠ currentPrev then candidatePrev else candidate.distance < current.distance

/-- `self.src[i] != self.src[j]` -/
def differs (src : List UInt8) (i j : ℕ) : Except Stop Bool := do
  let a ← index src i
  let b ← index src j
  return a ≠ b

def considerCandidate (self : Encoder src) (position candidate : ℕ) (best : Option Match) :
    Except Stop (Option Match) := do
  let distance ← sub position candidate
  if distance = 0 ∨ distance > maxDistance then return best
  if ← differs src candidate position then return best
  if ← differs src (candidate + 1) (position + 1) then return best
  if ← differs src (candidate + 2) (position + 2) then return best
  let length ← matchLength src candidate position
  let next : Match := ⟨distance, length⟩
  if next.length < minMatchLen then return best
  if isBetterMatch next best self.previousDistance then return some next
  return best

def matchIsWorthwhile (self : Encoder src) (nextMatch : Match) : Bool :=
  if nextMatch.distance = self.previousDistance ∨ nextMatch.distance < maxShortDistance then
    nextMatch.length ≥ minMatchLen
  else nextMatch.length > minMatchLen

/-- `hash_at`; the mask keeps the hash inside the table -/
def hashAt (src : List UInt8) (position : ℕ) : Except Stop (Fin hashSize) := do
  let first ← index src position
  let second ← index src (position + 1)
  let third ← index src (position + 2)
  let value : UInt32 := first.toUInt32 ||| (second.toUInt32 <<< 8) ||| (third.toUInt32 <<< 16)
  let hash := (value * ((1 : UInt32) + ((1 : UInt32) <<< 6) + ((1 : UInt32) <<< 12))) >>> 12
  return ⟨hash.toNat &&& (hashSize - 1), Nat.and_lt_two_pow (n := hashBits) _ (by decide)⟩

/-- one round of the `for` in `find_match` -/
def considerSlot (self : Encoder src) (position : ℕ) (best : Option Match) (slot : Option ℕ) :
    Except Stop (Option Match) :=
  match slot with
  | none => return best
  | some candidate => if candidate ≥ position then return best else self.considerCandidate position candidate best

def findMatch (self : Encoder src) (position : ℕ) : Except Stop (Option Match) := do
  if src.length - position < minMatchLen then return none
  let best ← if self.previousDistance ≠ 0 ∧ position ≥ self.previousDistance then
      self.considerCandidate position (position - self.previousDistance) none
    else pure none
  let bucket ← hashAt src position
  let best ← self.table[bucket].slots.foldlM (self.considerSlot position) best
  match best with
  | none => return none
  | some found => return if self.matchIsWorthwhile found then some found else none

def insertPosition (position : ℕ) : Rust (Encoder src) Unit := do
  if src.length - position < minMatchLen then return ()
  let bucket ← hashAt src position
  modify fun e => { e with table := e.table.set bucket (e.table[bucket].insert position) }

/-! ## Single steps -/

theorem index_ok {α : Type} {xs : List α} {i : ℕ} (h : i < xs.length) : index xs i = .ok xs[i] :=
  index_eq (List.getElem?_eq_getElem h)

theorem index_lt {α : Type} {xs : List α} {i : ℕ} {a : α} (h : index xs i = .ok a) : i < xs.length := by
  by_contra hge
  rw [index, List.getElem?_eq_none (not_lt.1 hge)] at h
  cases h

theorem differs_ok {i j : ℕ} (hi : i < src.length) (hj : j < src.length) :
    differs src i j = .ok (decide (src[i]? ≠ src[j]?)) := by
  rw [differs, index_ok hi, index_ok hj, List.getElem?_eq_getElem hi, List.getElem?_eq_getElem hj]
  simp only [except_ok_bind, ne_eq, Option.some.injEq]
  rfl

theorem run_matchLengthRound {candidate position : ℕ} (hc : candidate ≤ position) (n : ℕ) :
    (matchLengthRound src candidate position (src.length - position)).run n =
      if n < src.length - position ∧ src[candidate + n]? = src[position + n]? then .ok none (n + 1)
      else .ok (some ()) n := by
  simp only [matchLengthRound, EStateM.run_bind, EStateM.run_get]
  by_cases hlt : n < src.length - position
  · have h1 : candidate + n < src.length := by omega
    have h2 : position + n < src.length := by omega
    simp only [EStateM.run_bind, index_ok h1, index_ok h2, run_lift_ok, hlt, true_and, ite_true,
      List.getElem?_eq_getElem h1, List.getElem?_eq_getElem h2, Option.some.injEq]
    split_ifs <;> rfl
  · rw [if_neg hlt, if_neg (by simp [hlt])]
    rfl

/-- **The match length** is that of the longest match of the two positions. -/
theorem matchLength_spec {candidate position : ℕ} (hc : candidate ≤ position) (hp : position ≤ src.length) :
    ∃ n, matchLength src candidate position = .ok n ∧ position + n ≤ src.length ∧
      (∀ i < n, src[candidate + i]? = src[position + i]?) ∧
      (position + n < src.length → src[candidate + n]? ≠ src[position + n]?) := by
  have hrun : ∃ n, (matchLengthLoop src candidate position (src.length - position)).run 0 = .ok () n ∧
      n ≤ src.length - position ∧ (∀ i < n, src[candidate + i]? = src[position + i]?) ∧
      ¬ (n < src.length - position ∧ src[candidate + n]? = src[position + n]?) := by
    refine Loop.ofMonadic_inv _ _ _
      (fun n => n ≤ src.length - position ∧ ∀ i < n, src[candidate + i]? = src[position + i]?)
      (fun r => ∃ n, r = .ok () n ∧ n ≤ src.length - position ∧ (∀ i < n, src[candidate + i]? = src[position + i]?) ∧
        ¬ (n < src.length - position ∧ src[candidate + n]? = src[position + n]?))
      ?_ ?_ ?_ 0 ⟨Nat.zero_le _, by simp⟩
    · intro n a n' hI h
      rw [run_matchLengthRound hc] at h
      split_ifs at h with hgo
      · cases h
      · cases h
        exact ⟨n, rfl, hI.1, hI.2, hgo⟩
    · intro n e n' hI h
      rw [run_matchLengthRound hc] at h
      split_ifs at h
    · intro n n' hI h
      rw [run_matchLengthRound hc] at h
      split_ifs at h with hgo
      · cases h
        refine ⟨hgo.1, ?_⟩
        intro i hi
        rcases Nat.lt_succ_iff_lt_or_eq.1 hi with hi | rfl
        · exact hI.2 i hi
        · exact hgo.2
      · cases h
  obtain ⟨n, hn, hle, hsame, hstop⟩ := hrun
  refine ⟨n, ?_, by omega, hsame, fun h heq => hstop ⟨by omega, heq⟩⟩
  rw [matchLength, sub_eq hp, except_ok_bind, hn]
  rfl

theorem hashAt_ok_iff {position : ℕ} :
    (∃ bucket, hashAt src position = .ok bucket) ↔ position + minMatchLen ≤ src.length := by
  unfold minMatchLen
  constructor
  · rintro ⟨bucket, h⟩
    simp only [hashAt, except_bind_ok] at h
    obtain ⟨_, -, _, -, third, hthird, -⟩ := h
    exact index_lt hthird
  · intro hp
    rw [hashAt, index_ok (by omega), index_ok (by omega), index_ok (by omega)]
    exact ⟨_, rfl⟩

/-! ## Inserting positions -/

/-- the table with `position` in front of its bucket, if it has a hash -/
def inserted (src : List UInt8) (table : Vector Bucket hashSize) (position : ℕ) : Vector Bucket hashSize :=
  match hashAt src position with
  | .ok bucket => table.set bucket ((table.get bucket).insert position)
  | .error _ => table

/-- inserting a position changes the table only -/
theorem run_insertPosition (e : Encoder src) (position : ℕ) :
    (insertPosition position).run e = .ok () { e with table := inserted src e.table position } := by
  unfold insertPosition inserted
  cases hb : hashAt src position with
  | ok bucket =>
    have hp : position + minMatchLen ≤ src.length := hashAt_ok_iff.1 ⟨bucket, hb⟩
    rw [if_neg (by unfold minMatchLen at hp ⊢; omega)]
    rfl
  | error _ =>
    have hp : ¬ position + minMatchLen ≤ src.length := by
      rw [← hashAt_ok_iff, hb]
      rintro ⟨bucket, h⟩
      cases h
    rw [if_pos (by unfold minMatchLen at hp ⊢; omega)]
    rfl

theorem run_insertPositions (positions : List ℕ) (e : Encoder src) :
    (positions.forM insertPosition).run e = .ok () { e with table := positions.foldl (inserted src) e.table } := by
  induction positions generalizing e with
  | nil => rfl
  | cons p positions ih =>
    show EStateM.run (insertPosition p >>= fun _ => positions.forM insertPosition) e = _
    rw [EStateM.run_bind, run_insertPosition]
    exact ih { e with table := inserted src e.table p }

end Encoder

end Lzvn.Raw
