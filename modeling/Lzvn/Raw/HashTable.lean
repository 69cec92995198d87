/-
The encoder's hash table at the heads of the loop in `Encoder::finish`.

A bucket keeps the newest positions of its hash, newest first: `insert_position` puts a position in front, and the positions
come in ascending order, one by one where no match is found and in bulk over the bytes of a match. `Indexes` says so of the
whole table, up to a position.

- `Indexes.inserted`, `Indexes.inserted_range`: inserting the next positions.
- `round_indexes`: a round of `finish` keeps `Indexes`, up to its new position.
- `match_finder_exact`: what the table holds and what `find_match` returns at every head of the loop.
-/
import Lzvn.Raw.RoundTrip

namespace Lzvn.Raw

open Lzvn.Core

namespace Bucket

/-- the slots hold the newest positions of `S`, newest first, and nothing behind them -/
def Holds (bucket : Bucket) (S : Set ℕ) : Prop :=
  ∃ newest, Largest candidatesPerBucket S newest ∧
    bucket.slots = newest.map some ++ List.replicate (candidatesPerBucket - newest.length) none

theorem empty_holds : empty.Holds ∅ := ⟨[], Largest.empty _, rfl⟩

theorem insert_slots (bucket : Bucket) (position : ℕ) :
    (bucket.insert position).slots = (some position :: bucket.slots).take candidatesPerBucket := by
  obtain ⟨slots, hlen⟩ := bucket
  have hfour : slots.length = 4 := hlen
  match slots, hfour with
  | [a, b, c, d], _ => rfl

/-- a position above all others is inserted in front of them -/
theorem Holds.insert {bucket : Bucket} {S : Set ℕ} {position : ℕ} (h : bucket.Holds S) (hp : ∀ q ∈ S, q < position) :
    (bucket.insert position).Holds (Insert.insert position S) := by
  obtain ⟨newest, hlargest, hslots⟩ := h
  refine ⟨(position :: newest).take candidatesPerBucket, hlargest.push hp, ?_⟩
  have hle := hlargest.length_le
  rw [insert_slots, hslots, ← List.cons_append, ← List.map_cons, List.take_append, List.take_replicate, List.map_take,
    List.length_map, List.length_cons, List.length_take, List.length_cons]
  congr 2
  omega

end Bucket

namespace Encoder

variable {src : List UInt8} {e e' : Encoder src} {p : ℕ}

/-- the positions before `position` that `insert_position` puts into `bucket` -/
def indexed (src : List UInt8) (position : ℕ) (bucket : Fin hashSize) : Set ℕ :=
  {q | q < position ∧ q + minMatchLen ≤ src.length ∧ hashAt src q = .ok bucket}

theorem indexed_zero (bucket : Fin hashSize) : indexed src 0 bucket = ∅ :=
  Set.eq_empty_iff_forall_notMem.2 fun _ hq => absurd hq.1 (Nat.not_lt_zero _)

theorem indexed_insert {bucket : Fin hashSize} (hb : hashAt src p = .ok bucket) :
    indexed src (p + 1) bucket = insert p (indexed src p bucket) := by
  ext q
  constructor
  · rintro ⟨hq, hlen, hhash⟩
    rcases Nat.lt_succ_iff_lt_or_eq.1 hq with hq | rfl
    · exact .inr ⟨hq, hlen, hhash⟩
    · exact .inl rfl
  · rintro (rfl | ⟨hq, hlen, hhash⟩)
    · exact ⟨Nat.lt_succ_self q, hashAt_ok_iff.1 ⟨bucket, hb⟩, hb⟩
    · exact ⟨Nat.lt_succ_of_lt hq, hlen, hhash⟩

theorem indexed_skip {bucket : Fin hashSize} (h : hashAt src p ≠ .ok bucket) :
    indexed src (p + 1) bucket = indexed src p bucket := by
  ext q
  constructor
  · rintro ⟨hq, hlen, hhash⟩
    rcases Nat.lt_succ_iff_lt_or_eq.1 hq with hq | rfl
    · exact ⟨hq, hlen, hhash⟩
    · exact absurd hhash h
  · rintro ⟨hq, hlen, hhash⟩
    exact ⟨Nat.lt_succ_of_lt hq, hlen, hhash⟩

/-- every bucket holds the newest positions before `position` with its hash -/
def Indexes (src : List UInt8) (table : Vector Bucket hashSize) (position : ℕ) : Prop :=
  ∀ bucket : Fin hashSize, (table.get bucket).Holds (indexed src position bucket)

theorem indexes_new : Indexes src (new src).table 0 := by
  intro bucket
  rw [indexed_zero]
  have hempty : (new src).table.get bucket = .empty := Vector.getElem_replicate _
  rw [hempty]
  exact Bucket.empty_holds

/-- **Inserting the next position** -/
theorem Indexes.inserted {table : Vector Bucket hashSize} (h : Indexes src table p) :
    Indexes src (inserted src table p) (p + 1) := by
  intro bucket
  unfold Encoder.inserted
  cases hb : hashAt src p with
  | error _ =>
    rw [indexed_skip (by simp [hb])]
    exact h bucket
  | ok hash =>
    dsimp only
    by_cases heq : hash = bucket
    · subst heq
      have hset : (table.set hash ((table.get hash).insert p)).get hash = (table.get hash).insert p :=
        Vector.getElem_set_self _
      rw [indexed_insert hb, hset]
      exact (h hash).insert fun q hq => hq.1
    · have hset : (table.set hash ((table.get hash).insert p)).get bucket = table.get bucket :=
        Vector.getElem_set_ne _ _ fun hval => heq (Fin.ext hval)
      rw [indexed_skip (fun hbucket => heq (Except.ok.inj (hb.symm.trans hbucket))), hset]
      exact h bucket

/-- inserting the positions of a match, one after the other -/
theorem Indexes.inserted_range {table : Vector Bucket hashSize} (h : Indexes src table p) (n : ℕ) :
    Indexes src ((List.range' p n).foldl (Encoder.inserted src) table) (p + n) := by
  induction n generalizing table p with
  | zero => exact h
  | succ n ih =>
    rw [List.range'_succ, List.foldl_cons, Nat.add_comm n, ← Nat.add_assoc]
    exact ih h.inserted

/-- a round of `finish` inserts what it steps over -/
theorem round_indexes (hI : Inv e) (h : Indexes src e.table e.position) (hround : round.run e = .ok none e') :
    Indexes src e'.table e'.position := by
  obtain ⟨-, ⟨-, e1, hinsert, rfl⟩ | ⟨m, e1, e2, hfind, hemit, hinsert, rfl⟩⟩ := round_goes hround
  · rw [run_insertPosition] at hinsert
    cases hinsert
    exact h.inserted
  · obtain ⟨bytes, hrun, -⟩ := emitMatch_spec hI (findMatch_isMatch hfind)
    rw [hrun] at hemit
    cases hemit
    rw [run_insertPositions] at hinsert
    cases hinsert
    exact h.inserted_range m.length

theorem head_indexes (h : loop.Head (new src) e) : Inv e ∧ Indexes src e.table e.position :=
  head_rule (I := fun e => Indexes src e.table e.position) indexes_new
    (fun _ _ hI h hround => round_indexes hI h hround) h

/-- **The match finder is exact** at every head of the loop in `finish`. Each bucket holds the newest positions of its hash.
`find_match` returns a candidate that is better than every other one, and `None` exactly when no candidate is worthwhile. -/
theorem match_finder_exact (h : loop.Head (new src) e) :
    (∀ bucket : Fin hashSize, (e.table.get bucket).Holds (indexed src e.position bucket)) ∧
    ∃ r, e.findMatch e.position = .ok r ∧
      (∀ m, r = some m → m ∈ e.candidates e.position ∧
        ∀ m' ∈ e.candidates e.position, m' ≠ m → rank e.previousDistance m' < rank e.previousDistance m) ∧
      (r = none ↔ ∀ m ∈ e.candidates e.position, e.matchIsWorthwhile m = false) := by
  obtain ⟨r, hr, -⟩ := findMatch_spec e e.position
  refine ⟨(head_indexes h).2, r, hr, ?_, ?_⟩
  · rintro m rfl
    exact findMatch_some hr
  · rw [← findMatch_none_iff, hr, Except.ok.injEq]

/-- four equal bytes, at the second head: the first byte is in the table, and the other three match it -/
theorem four_equal_bytes : ∃ e : Encoder [0x61, 0x61, 0x61, 0x61], loop.Head (new _) e ∧
    e.findMatch e.position = .ok (some ⟨1, 3⟩) ∧
      ∀ m ∈ e.candidates e.position, m ≠ ⟨1, 3⟩ → rank e.previousDistance m < rank e.previousDistance ⟨1, 3⟩ := by
  have hround : (match round.run (new [0x61, 0x61, 0x61, 0x61]) with
      | .ok none e => decide (e.findMatch e.position = .ok (some ⟨1, 3⟩))
      | _ => false) = true := by decide +kernel
  split at hround
  · rename_i e hrun
    have hhead : loop.Head (new [0x61, 0x61, 0x61, 0x61]) e := Loop.ofMonadic_head hrun
    obtain ⟨-, r, hr, hsome, -⟩ := match_finder_exact hhead
    have hfind := of_decide_eq_true hround
    rw [hfind] at hr
    exact ⟨e, hhead, hfind, (hsome _ (Except.ok.inj hr).symm).2⟩
  · cases hround

end Encoder

end Lzvn.Raw
