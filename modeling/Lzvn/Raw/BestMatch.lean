/-
What `find_match` returns, in any state of the encoder.

`rank` is the order in which `is_better_match` compares two matches. It is total, so the order of the scan does not matter:
the scan returns the best match of all that it was shown (`considerSlots_best`).

- `findMatch_best`: `find_match` returns the best candidate, if that is worthwhile.
- `findMatch_none_iff`: it returns nothing exactly when no candidate is worthwhile, since a match that is better than a
  worthwhile one is worthwhile (`worthwhile_of_le`).
- `findMatch_spec`: it never panics, and what it returns is a match. `findMatch_worthwhile`: and worthwhile.
-/
import Lzvn.Core.Selection
import Lzvn.Raw.MatchFinder

namespace Lzvn.Raw

open Lzvn.Core

namespace Encoder

variable {src : List UInt8}

/-! ## Matches -/

/-- `m` is a match of the bytes at `position` with earlier ones -/
structure IsMatch (src : List UInt8) (position : ℕ) (m : Match) : Prop where
  distance_pos : 1 ≤ m.distance
  distance_max : m.distance ≤ maxDistance
  distance_le : m.distance ≤ position
  length_min : minMatchLen ≤ m.length
  length_le : position + m.length ≤ src.length
  same : ∀ i < m.length, src[position + i]? = src[position + i - m.distance]?

/-- the lengths up to which the bytes at `candidate` come again at `position` -/
def repeats (src : List UInt8) (candidate position : ℕ) : Set ℕ :=
  {n | position + n ≤ src.length ∧ ∀ i < n, src[candidate + i]? = src[position + i]?}

/-- `m` is the match of the bytes at `position` with those at `candidate` -/
structure MatchAt (src : List UInt8) (position candidate : ℕ) (m : Match) : Prop where
  distance_eq : candidate + m.distance = position
  distance_pos : 1 ≤ m.distance
  distance_max : m.distance ≤ maxDistance
  /-- the first three bytes are equal -/
  first : minMatchLen ∈ repeats src candidate position
  longest : IsGreatest (repeats src candidate position) m.length

theorem MatchAt.isMatch {position candidate : ℕ} {m : Match} (h : MatchAt src position candidate m) :
    IsMatch src position m := by
  have heq := h.distance_eq
  obtain ⟨hle, hsame⟩ := h.longest.1
  refine ⟨h.distance_pos, h.distance_max, by omega, h.longest.2 h.first, hle, ?_⟩
  intro i hi
  rw [← hsame i hi]
  congr 1
  omega

theorem matchLength_greatest {candidate position : ℕ} (hc : candidate ≤ position) (hp : position ≤ src.length) :
    ∃ n, matchLength src candidate position = .ok n ∧ IsGreatest (repeats src candidate position) n := by
  obtain ⟨n, hn, hle, hsame, hstop⟩ := matchLength_spec hc hp
  refine ⟨n, hn, ⟨hle, hsame⟩, ?_⟩
  intro k hk
  by_contra hlt
  exact hstop (lt_of_lt_of_le (by omega) hk.1) (hk.2 n (not_le.1 hlt))

theorem mem_repeats_iff {candidate position n k : ℕ} (h : IsGreatest (repeats src candidate position) n) :
    k ∈ repeats src candidate position ↔ k ≤ n := by
  refine ⟨fun hk => h.2 hk, ?_⟩
  intro hk
  exact ⟨le_trans (Nat.add_le_add_left hk _) h.1.1, fun i hi => h.1.2 i (lt_of_lt_of_le hi hk)⟩

/-- two positions have at most one match -/
theorem matchAt_iff {candidate position n : ℕ} (hc : candidate < position)
    (h : IsGreatest (repeats src candidate position) n) (m : Match) :
    MatchAt src position candidate m ↔
      m = ⟨position - candidate, n⟩ ∧ position - candidate ≤ maxDistance ∧ minMatchLen ≤ n := by
  constructor
  · intro hm
    have hdistance : m.distance = position - candidate := by have := hm.distance_eq; omega
    have hlength : m.length = n := hm.longest.unique h
    refine ⟨?_, hdistance ▸ hm.distance_max, (mem_repeats_iff h).1 hm.first⟩
    rw [← hdistance, ← hlength]
  · rintro ⟨rfl, hmax, hmin⟩
    exact ⟨Nat.add_sub_cancel' hc.le, Nat.sub_pos_of_lt hc, hmax, (mem_repeats_iff h).2 hmin, h⟩

theorem MatchAt.unique {position candidate : ℕ} {m m' : Match} (h : MatchAt src position candidate m)
    (h' : MatchAt src position candidate m') : m = m' := by
  have hdistance : m.distance = m'.distance := Nat.add_left_cancel (h.distance_eq.trans h'.distance_eq.symm)
  have hlength : m.length = m'.length := h.longest.unique h'.longest
  cases m
  cases m'
  exact congrArg₂ Match.mk hdistance hlength

/-! ## The order of matches -/

/-- what `is_better_match` compares: the length, then whether the distance is the previous one, then the smaller distance -/
def rank (previousDistance : ℕ) (m : Match) : ℕ ×ₗ Bool ×ₗ ℕᵒᵈ :=
  toLex (m.length, toLex (decide (m.distance = previousDistance), OrderDual.toDual m.distance))

theorem rank_lt_iff {previousDistance : ℕ} {m m' : Match} :
    rank previousDistance m < rank previousDistance m' ↔ m.length < m'.length ∨ m.length = m'.length ∧
      (m.distance ≠ previousDistance ∧ m'.distance = previousDistance ∨
        (m.distance = previousDistance ↔ m'.distance = previousDistance) ∧ m'.distance < m.distance) := by
  simp only [rank, Prod.Lex.toLex_lt_toLex, OrderDual.toDual_lt_toDual, Bool.lt_iff, decide_eq_false_iff_not,
    decide_eq_true_eq, decide_eq_decide]

theorem rank_injective (previousDistance : ℕ) : Function.Injective (rank previousDistance) := by
  intro m m' h
  simp only [rank, EmbeddingLike.apply_eq_iff_eq, Prod.mk.injEq] at h
  cases m
  cases m'
  exact congrArg₂ Match.mk h.2.2 h.1

/-- `is_better_match` compares ranks, so it is a strict total order -/
theorem isBetterMatch_iff {previousDistance : ℕ} {candidate current : Match} :
    isBetterMatch candidate (some current) previousDistance = true ↔
      rank previousDistance current < rank previousDistance candidate := by
  rw [rank_lt_iff]
  unfold isBetterMatch
  dsimp only
  split_ifs with hlength hprev
  · rw [decide_eq_true_eq]
    exact ⟨.inl, fun h => h.resolve_right fun heq => hlength heq.1.symm⟩
  · rw [decide_eq_true_eq]
    have hlength : current.length = candidate.length := (not_not.1 hlength).symm
    have hsame : ¬ (current.distance = previousDistance ↔ candidate.distance = previousDistance) :=
      fun h => hprev (decide_eq_decide.2 h.symm)
    constructor
    · intro hcandidate
      exact .inr ⟨hlength, .inl ⟨fun hcurrent => hsame (iff_of_true hcurrent hcandidate), hcandidate⟩⟩
    · intro h
      rcases h with hlt | ⟨-, ⟨-, hcandidate⟩ | ⟨hiff, -⟩⟩
      · exact absurd hlength hlt.ne
      · exact hcandidate
      · exact absurd hiff hsame
  · rw [decide_eq_true_eq]
    have hlength : current.length = candidate.length := (not_not.1 hlength).symm
    have hsame : current.distance = previousDistance ↔ candidate.distance = previousDistance :=
      (decide_eq_decide.1 (not_not.1 hprev)).symm
    constructor
    · intro hlt
      exact .inr ⟨hlength, .inr ⟨hsame, hlt⟩⟩
    · intro h
      rcases h with hlt | ⟨-, ⟨hcurrent, hcandidate⟩ | ⟨-, hlt⟩⟩
      · exact absurd hlength hlt.ne
      · exact absurd (hsame.2 hcandidate) hcurrent
      · exact hlt

theorem matchIsWorthwhile_iff (self : Encoder src) {m : Match} (hmin : minMatchLen ≤ m.length) :
    self.matchIsWorthwhile m = true ↔
      m.distance = self.previousDistance ∨ m.distance < maxShortDistance ∨ minMatchLen < m.length := by
  unfold matchIsWorthwhile
  rw [← or_assoc]
  split_ifs with hnear
  · exact iff_of_true (decide_eq_true hmin) (.inl hnear)
  · rw [decide_eq_true_eq]
    exact ⟨.inr, fun h => h.resolve_left hnear⟩

/-- **The filter on the winner loses nothing**: a match that is better than a worthwhile one is worthwhile. -/
theorem worthwhile_of_le (self : Encoder src) {m m' : Match} (hmin : minMatchLen ≤ m.length)
    (hmin' : minMatchLen ≤ m'.length) (hle : rank self.previousDistance m ≤ rank self.previousDistance m')
    (h : self.matchIsWorthwhile m = true) : self.matchIsWorthwhile m' = true := by
  rcases hle.eq_or_lt with heq | hlt
  · rwa [← rank_injective _ heq]
  · rw [matchIsWorthwhile_iff self hmin] at h
    rw [matchIsWorthwhile_iff self hmin']
    rcases rank_lt_iff.1 hlt with hlonger | ⟨hlength, ⟨-, hprev⟩ | ⟨hboth, hnearer⟩⟩
    · exact .inr (.inr (lt_of_le_of_lt hmin hlonger))
    · exact .inl hprev
    · rw [← hlength]
      exact h.imp hboth.1 (Or.imp_left hnearer.trans)

/-! ## The scan -/

/-- the three comparisons of `consider_candidate` -/
theorem first_iff {candidate position n : ℕ} (h : IsGreatest (repeats src candidate position) n)
    (hp : position + minMatchLen ≤ src.length) :
    minMatchLen ≤ n ↔ src[candidate]? = src[position]? ∧ src[candidate + 1]? = src[position + 1]? ∧
      src[candidate + 2]? = src[position + 2]? := by
  rw [← mem_repeats_iff h]
  constructor
  · intro hfirst
    exact ⟨hfirst.2 0 (by decide), hfirst.2 1 (by decide), hfirst.2 2 (by decide)⟩
  · rintro ⟨h0, h1, h2⟩
    refine ⟨hp, ?_⟩
    intro i hi
    match i with
    | 0 => exact h0
    | 1 => exact h1
    | 2 => exact h2
    | i + 3 => exact absurd hi (by unfold minMatchLen; omega)

/-- a candidate has no match and is passed over, or its match competes with the best one so far -/
theorem considerCandidate_cases (self : Encoder src) {position candidate : ℕ} (best : Option Match)
    (hc : candidate < position) (hp : position + minMatchLen ≤ src.length) :
    ∃ r, self.considerCandidate position candidate best = .ok r ∧
      ((∀ m, ¬ MatchAt src position candidate m) ∧ r = best ∨
        ∃ m, MatchAt src position candidate m ∧
          r = if isBetterMatch m best self.previousDistance then some m else best) := by
  obtain ⟨n, hn, hgreatest⟩ := matchLength_greatest hc.le (le_trans (Nat.le_add_right _ _) hp)
  have hfirst := first_iff hgreatest hp
  have hmatch := matchAt_iff hc hgreatest
  unfold minMatchLen at hp
  unfold considerCandidate
  rw [sub_eq hc.le, differs_ok (by omega) (by omega), differs_ok (by omega) (by omega),
    differs_ok (by omega) (by omega), hn]
  simp only [except_ok_bind, decide_eq_true_eq]
  split_ifs with hd h0 h1 h2 hmin hbetter
  · refine ⟨best, rfl, .inl ⟨?_, rfl⟩⟩
    intro m hm
    have hmax := ((hmatch m).1 hm).2.1
    omega
  · exact ⟨best, rfl, .inl ⟨fun m hm => h0 (hfirst.1 ((hmatch m).1 hm).2.2).1, rfl⟩⟩
  · exact ⟨best, rfl, .inl ⟨fun m hm => h1 (hfirst.1 ((hmatch m).1 hm).2.2).2.1, rfl⟩⟩
  · exact ⟨best, rfl, .inl ⟨fun m hm => h2 (hfirst.1 ((hmatch m).1 hm).2.2).2.2, rfl⟩⟩
  · exact ⟨best, rfl, .inl ⟨fun m hm => absurd ((hmatch m).1 hm).2.2 (not_le.2 hmin), rfl⟩⟩
  · exact ⟨_, rfl, .inr ⟨_, (hmatch _).2 ⟨rfl, by omega, not_lt.1 hmin⟩, (if_pos hbetter).symm⟩⟩
  · exact ⟨_, rfl, .inr ⟨_, (hmatch _).2 ⟨rfl, by omega, not_lt.1 hmin⟩, (if_neg hbetter).symm⟩⟩

/-- considering a candidate adds its match to those that the best is chosen from -/
theorem considerCandidate_best (self : Encoder src) {position candidate : ℕ} {best : Option Match} {S : Set Match}
    (hbest : IsBest (rank self.previousDistance) S best) (hc : candidate < position)
    (hp : position + minMatchLen ≤ src.length) :
    ∃ r, self.considerCandidate position candidate best = .ok r ∧
      IsBest (rank self.previousDistance) (S ∪ {m | MatchAt src position candidate m}) r := by
  obtain ⟨r, hr, ⟨hnone, rfl⟩ | ⟨m, hm, rfl⟩⟩ := considerCandidate_cases self best hc hp
  · refine ⟨_, hr, ?_⟩
    have hempty : {m | MatchAt src position candidate m} = ∅ := Set.eq_empty_iff_forall_notMem.2 hnone
    rw [hempty, Set.union_empty]
    exact hbest
  · refine ⟨_, hr, ?_⟩
    have hone : {m' | MatchAt src position candidate m'} = {m} :=
      Set.eq_singleton_iff_unique_mem.2 ⟨hm, fun m' hm' => hm'.unique hm⟩
    rw [hone, Set.union_singleton]
    cases best with
    | none => exact hbest.replace (by simp)
    | some current =>
      split_ifs with hbetter
      · refine hbest.replace ?_
        intro a ha
        cases ha
        exact (isBetterMatch_iff.1 hbetter).le
      · exact hbest.keep (not_lt.1 fun hlt => hbetter (isBetterMatch_iff.2 hlt))

theorem considerSlot_best (self : Encoder src) {position : ℕ} {best : Option Match} {S : Set Match}
    (hbest : IsBest (rank self.previousDistance) S best) (hp : position + minMatchLen ≤ src.length)
    (slot : Option ℕ) :
    ∃ r, self.considerSlot position best slot = .ok r ∧
      IsBest (rank self.previousDistance) (S ∪ {m | ∃ q, slot = some q ∧ MatchAt src position q m}) r := by
  cases slot with
  | none => exact ⟨best, rfl, by simpa using hbest⟩
  | some candidate =>
    have hset : {m | ∃ q, some candidate = some q ∧ MatchAt src position q m} =
        {m | MatchAt src position candidate m} := by simp
    rw [considerSlot, hset]
    split_ifs with hge
    · refine ⟨best, rfl, ?_⟩
      have hnone : {m | MatchAt src position candidate m} = ∅ := by
        refine Set.eq_empty_iff_forall_notMem.2 ?_
        intro m hm
        have := hm.distance_eq
        have := hm.distance_pos
        omega
      rw [hnone, Set.union_empty]
      exact hbest
    · exact considerCandidate_best self hbest (not_le.1 hge) hp

/-- the scan of a bucket -/
theorem considerSlots_best (self : Encoder src) {position : ℕ} (hp : position + minMatchLen ≤ src.length)
    (slots : List (Option ℕ)) {best : Option Match} {S : Set Match}
    (hbest : IsBest (rank self.previousDistance) S best) :
    ∃ r, slots.foldlM (self.considerSlot position) best = .ok r ∧
      IsBest (rank self.previousDistance) (S ∪ {m | ∃ q, some q ∈ slots ∧ MatchAt src position q m}) r := by
  induction slots generalizing best S with
  | nil => exact ⟨best, rfl, by simpa using hbest⟩
  | cons slot slots ih =>
    obtain ⟨r, hr, hbest'⟩ := considerSlot_best self hbest hp slot
    rw [List.foldlM_cons, hr, except_ok_bind]
    obtain ⟨r', hr', hlast⟩ := ih hbest'
    refine ⟨r', hr', ?_⟩
    rw [Set.union_assoc] at hlast
    convert hlast using 2
    ext m
    simp only [List.mem_cons, or_and_right, exists_or, Set.mem_ofPred_eq, Set.mem_union, eq_comm]

/-- the matches of the bytes at `position` with those at the previous distance, and with those at the positions in their
bucket -/
def candidates (self : Encoder src) (position : ℕ) : Set Match :=
  {m | ∃ q, MatchAt src position q m ∧
    (m.distance = self.previousDistance ∨
      ∃ bucket, hashAt src position = .ok bucket ∧ some q ∈ (self.table.get bucket).slots)}

theorem candidates_isMatch {self : Encoder src} {position : ℕ} {m : Match} (h : m ∈ self.candidates position) :
    IsMatch src position m := by
  obtain ⟨q, hm, -⟩ := h
  exact hm.isMatch

/-- the first candidate of `find_match`, at the previous distance -/
def considerPrevious (self : Encoder src) (position : ℕ) : Except Stop (Option Match) :=
  if self.previousDistance ≠ 0 ∧ position ≥ self.previousDistance then
    self.considerCandidate position (position - self.previousDistance) none
  else .ok none

theorem findMatch_eq (self : Encoder src) {position : ℕ} {first best : Option Match} {bucket : Fin hashSize}
    (hp : position + minMatchLen ≤ src.length) (hfirst : self.considerPrevious position = .ok first)
    (hb : hashAt src position = .ok bucket)
    (hscan : self.table[bucket].slots.foldlM (self.considerSlot position) first = .ok best) :
    self.findMatch position = .ok (best.filter self.matchIsWorthwhile) := by
  have hlong : ¬ src.length - position < minMatchLen := by unfold minMatchLen at hp ⊢; omega
  unfold findMatch
  unfold considerPrevious at hfirst
  rw [if_neg hlong]
  split_ifs at hfirst ⊢ with hprev
  · simp only [hfirst, hb, hscan, except_ok_bind]
    cases best <;> rfl
  · cases hfirst
    simp only [hb, hscan, pure_bind, except_ok_bind]
    cases best <;> rfl

theorem considerPrevious_best (self : Encoder src) {position : ℕ} (hp : position + minMatchLen ≤ src.length) :
    ∃ r, self.considerPrevious position = .ok r ∧ IsBest (rank self.previousDistance)
      {m | ∃ q, MatchAt src position q m ∧ m.distance = self.previousDistance} r := by
  unfold considerPrevious
  split_ifs with hprev
  · obtain ⟨r, hr, hbest⟩ := considerCandidate_best self (IsBest.empty (rank self.previousDistance))
      (show position - self.previousDistance < position by omega) hp
    refine ⟨r, hr, ?_⟩
    rw [Set.empty_union] at hbest
    convert hbest using 1
    ext m
    constructor
    · rintro ⟨q, hm, hdistance⟩
      have := hm.distance_eq
      obtain rfl : q = position - self.previousDistance := by omega
      exact hm
    · intro hm
      have := MatchAt.distance_eq hm
      exact ⟨_, hm, by omega⟩
  · refine ⟨none, rfl, Set.eq_empty_iff_forall_notMem.2 ?_⟩
    rintro m ⟨q, hm, hdistance⟩
    have := hm.distance_eq
    have := hm.distance_pos
    omega

/-- **The match finder** returns the best candidate, if that is worthwhile. -/
theorem findMatch_best (self : Encoder src) (position : ℕ) :
    ∃ best, IsBest (rank self.previousDistance) (self.candidates position) best ∧
      self.findMatch position = .ok (best.filter self.matchIsWorthwhile) := by
  by_cases hshort : src.length - position < minMatchLen
  · refine ⟨none, Set.eq_empty_iff_forall_notMem.2 ?_, if_pos hshort⟩
    rintro m ⟨q, hm, -⟩
    have := hm.first.1
    have : 0 < minMatchLen := by decide
    omega
  · have hp : position + minMatchLen ≤ src.length := by unfold minMatchLen at hshort ⊢; omega
    obtain ⟨first, hfirst, hbest⟩ := considerPrevious_best self hp
    obtain ⟨bucket, hb⟩ := hashAt_ok_iff.2 hp
    obtain ⟨best, hscan, hbest'⟩ := considerSlots_best self hp self.table[bucket].slots hbest
    refine ⟨best, ?_, ?_⟩
    · convert hbest' using 1
      ext m
      constructor
      · rintro ⟨q, hm, hprev | ⟨bucket', hb', hslot⟩⟩
        · exact .inl ⟨q, hm, hprev⟩
        · obtain rfl := Except.ok.inj (hb.symm.trans hb')
          exact .inr ⟨q, hslot, hm⟩
      · rintro (⟨q, hm, hprev⟩ | ⟨q, hslot, hm⟩)
        · exact ⟨q, hm, .inl hprev⟩
        · exact ⟨q, hm, .inr ⟨bucket, hb, hslot⟩⟩
    · exact findMatch_eq self hp hfirst hb hscan

/-- The match finder never panics, and what it returns is a match. -/
theorem findMatch_spec (self : Encoder src) (position : ℕ) :
    ∃ r, self.findMatch position = .ok r ∧ ∀ m, r = some m → IsMatch src position m := by
  obtain ⟨best, hbest, hfind⟩ := findMatch_best self position
  refine ⟨_, hfind, ?_⟩
  intro m h
  obtain ⟨rfl, -⟩ := Option.filter_eq_some_iff.1 h
  exact candidates_isMatch hbest.mem

/-- what the match finder returns is better than every other candidate -/
theorem findMatch_some {self : Encoder src} {position : ℕ} {m : Match} (h : self.findMatch position = .ok (some m)) :
    m ∈ self.candidates position ∧ ∀ m' ∈ self.candidates position, m' ≠ m →
      rank self.previousDistance m' < rank self.previousDistance m := by
  obtain ⟨best, hbest, hfind⟩ := findMatch_best self position
  rw [hfind] at h
  obtain ⟨rfl, -⟩ := Option.filter_eq_some_iff.1 (Except.ok.inj h)
  exact ⟨hbest.mem, fun m' hm' hne => hbest.lt (rank_injective _) hm' hne⟩

/-- the match finder returns nothing exactly when no candidate is worthwhile -/
theorem findMatch_none_iff {self : Encoder src} {position : ℕ} :
    self.findMatch position = .ok none ↔ ∀ m ∈ self.candidates position, self.matchIsWorthwhile m = false := by
  obtain ⟨best, hbest, hfind⟩ := findMatch_best self position
  rw [hfind, Except.ok.injEq]
  constructor
  · intro hnone m hm
    cases best with
    | none => exact absurd hm (Set.eq_empty_iff_forall_notMem.1 hbest m)
    | some winner =>
      refine Bool.eq_false_iff.2 ?_
      intro hworth
      have hwinner := worthwhile_of_le self (candidates_isMatch hm).length_min (candidates_isMatch hbest.mem).length_min
        (hbest.2 m hm) hworth
      rw [Option.filter_some, if_pos hwinner] at hnone
      cases hnone
  · intro hall
    cases best with
    | none => rfl
    | some winner => rw [Option.filter_some, if_neg (Bool.eq_false_iff.1 (hall winner hbest.mem))]

theorem findMatch_isMatch {self : Encoder src} {position : ℕ} {m : Match}
    (h : self.findMatch position = .ok (some m)) : IsMatch src position m := by
  obtain ⟨r, hr, hmatch⟩ := findMatch_spec self position
  rw [h] at hr
  exact hmatch m (Except.ok.inj hr).symm

/-- what the match finder returns is worthwhile -/
theorem findMatch_worthwhile {self : Encoder src} {position : ℕ} {m : Match} (h : self.findMatch position = .ok (some m)) :
    self.matchIsWorthwhile m = true := by
  obtain ⟨best, -, hfind⟩ := findMatch_best self position
  rw [hfind] at h
  exact (Option.filter_eq_some_iff.1 (Except.ok.inj h)).2

end Encoder

end Lzvn.Raw
