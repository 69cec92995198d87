/-
The encoder as a parser. The source alone decides what the encoder writes: it is the rendering of the greedy parse of the
source, and neither the hash table nor the output so far is needed to say it.

- `written`: the bytes of one step, which are those that the emitters write on an empty encoder. `Behind.emitMatchWithLiterals`:
  behind any output they write the same.
- `Chooses`: the match that the encoder takes at a position, from the source and the last distance. `findMatch_chooses`: the
  match finder takes it, because the buckets hold the newest positions.
- `encode_parses`: `encode` writes the steps of the only parse of its input.
-/
import Lzvn.Core.Carries
import Lzvn.Core.Maintains
import Lzvn.Core.Parse
import Lzvn.Raw.HashTable

namespace Lzvn.Raw

open Lzvn.Core Lzvn.Core.Lz77

namespace Encoder

variable {src : List UInt8}

/-! ## What an emission writes -/

/-- `e` when what `b` has written is put behind its output -/
def behind (e : Encoder src) (b : Encoder []) : Encoder src :=
  { e with output := e.output ++ b.output, previousDistance := b.previousDistance }

/-- what returns or stops without the state is carried by every map -/
theorem carries_lift {σ τ α : Type} (f : σ → τ) (x : Except Stop α) :
    Carries f (liftM x : Rust σ α) (liftM x : Rust τ α) := by
  intro s
  cases x <;> rfl

/-- the rounds of `emit_literals` go on behind any output -/
theorem literalsRound_carries (before : List UInt8) :
    Carries (fun s : List UInt8 × List UInt8 => (before ++ s.1, s.2)) literalsRound literalsRound := by
  refine Carries.get_bind ?_
  rintro ⟨output, literals⟩
  refine .ite (.pure _) ((carries_lift _ _).bind fun header => ?_)
  refine (carries_lift _ _).bind fun chunk => (carries_lift _ _).bind fun rest => ?_
  refine .bind (.set ?_) fun _ => .pure _
  simp only [List.append_assoc]

/-- so do those of `emit_match_chunks` -/
theorem chunksRound_carries (before : List UInt8) :
    Carries (fun s : List UInt8 × ℕ => (before ++ s.1, s.2)) chunksRound chunksRound := by
  refine Carries.get_bind ?_
  rintro ⟨output, matchLen⟩
  refine .ite ((carries_lift _ _).bind fun header => (carries_lift _ _).bind fun rest => ?_) (.pure _)
  refine .bind (.set ?_) fun _ => .pure _
  simp only [List.append_assoc]

/-- `m'` does behind every output what `m` does on its own -/
def Behind {α : Type} (m : Rust (Encoder []) α) (m' : Rust (Encoder src) α) : Prop :=
  ∀ e : Encoder src, Carries e.behind m m'

namespace Behind

variable {α β : Type}

theorem bind {m : Rust (Encoder []) α} {m' : Rust (Encoder src) α} {k : α → Rust (Encoder []) β}
    {k' : α → Rust (Encoder src) β} (hm : Behind m m') (hk : ∀ a, Behind (k a) (k' a)) :
    Behind (m >>= k) (m' >>= k') := fun e => (hm e).bind fun a => hk a e

theorem lift (x : Except Stop α) : Behind (liftM x : Rust (Encoder []) α) (liftM x : Rust (Encoder src) α) :=
  fun e => carries_lift e.behind x

/-- a computation that may panic first -/
theorem lift_bind {x : Except Stop α} {k : α → Rust (Encoder []) β} {k' : α → Rust (Encoder src) β}
    (hk : ∀ a, Behind (k a) (k' a)) : Behind (liftM x >>= k) (liftM x >>= k') := (lift x).bind hk

theorem ite {p : Prop} [Decidable p] {m n : Rust (Encoder []) α} {m' n' : Rust (Encoder src) α} (h : Behind m m')
    (h' : Behind n n') : Behind (if p then m else n) (if p then m' else n') := fun e => (h e).ite (h' e)

theorem extend (bytes : List UInt8) : Behind (extend bytes) (extend bytes : Rust (Encoder src) Unit) := by
  intro e
  refine Carries.modify fun b => ?_
  simp only [behind, List.append_assoc]

theorem setDistance (distance : ℕ) : Behind (modify fun b => { b with previousDistance := distance })
    (modify fun e => { e with previousDistance := distance } : Rust (Encoder src) Unit) :=
  fun _ => Carries.modify fun _ => rfl

theorem emitLiterals (literals : List UInt8) :
    Behind (emitLiterals literals) (emitLiterals literals : Rust (Encoder src) Unit) := by
  intro e
  refine Carries.get_bind fun b => ?_
  have hloop : literalsLoop.run (e.output ++ b.output, literals) = mapState _ (literalsLoop.run (b.output, literals)) :=
    (literalsRound_carries e.output).loop _ literalsRound_falls _ literalsRound_falls (b.output, literals)
  simp only [behind, hloop]
  cases literalsLoop.run (b.output, literals) with
  | ok _ s => exact Carries.modify fun _ => rfl
  | error x _ => exact Carries.throw x

theorem emitMatchChunks (matchLen : ℕ) :
    Behind (emitMatchChunks matchLen) (emitMatchChunks matchLen : Rust (Encoder src) Unit) := by
  intro e
  refine Carries.get_bind fun b => ?_
  have hloop : chunksLoop.run (e.output ++ b.output, matchLen) = mapState _ (chunksLoop.run (b.output, matchLen)) :=
    (chunksRound_carries e.output).loop _ chunksRound_falls _ chunksRound_falls (b.output, matchLen)
  simp only [behind, hloop]
  cases chunksLoop.run (b.output, matchLen) with
  | ok _ s => exact Carries.modify fun _ => rfl
  | error x _ => exact Carries.throw x

variable (literals : List UInt8) (matchLen distance : ℕ)

theorem emitSmallDistance : Behind (emitSmallDistance literals matchLen distance)
    (emitSmallDistance literals matchLen distance : Rust (Encoder src) Unit) :=
  lift_bind fun _ => lift_bind fun _ => lift_bind fun _ => lift_bind fun _ => lift_bind fun _ => lift_bind fun _ =>
    lift_bind fun _ => lift_bind fun _ => extend _

theorem emitMediumDistance : Behind (emitMediumDistance literals matchLen distance)
    (emitMediumDistance literals matchLen distance : Rust (Encoder src) Unit) :=
  lift_bind fun _ => lift_bind fun _ => lift_bind fun _ => lift_bind fun _ => lift_bind fun _ => lift_bind fun _ => extend _

theorem emitLargeDistance : Behind (emitLargeDistance literals matchLen distance)
    (emitLargeDistance literals matchLen distance : Rust (Encoder src) Unit) :=
  lift_bind fun _ => lift_bind fun _ => lift_bind fun _ => lift_bind fun _ => lift_bind fun _ => lift_bind fun _ => extend _

theorem emitPreviousDistance : Behind (emitPreviousDistance literals matchLen)
    (emitPreviousDistance literals matchLen : Rust (Encoder src) Unit) := by
  intro e
  refine Carries.get_bind fun b => ?_
  exact (lift_bind fun _ => lift_bind fun _ => lift_bind fun _ => lift_bind fun _ => lift_bind fun _ =>
    lift_bind fun _ => extend _) e

theorem emitFirst (shortMatchLimit : ℕ) : Behind (emitFirst literals matchLen distance shortMatchLimit)
    (emitFirst literals matchLen distance shortMatchLimit : Rust (Encoder src) ℕ) :=
  ite ((emitMediumDistance _ _ _).bind fun _ => lift _)
    (ite ((emitSmallDistance _ _ _).bind fun _ => lift _) ((emitLargeDistance _ _ _).bind fun _ => lift _))

/-- **An emission writes the same bytes behind every output.** -/
theorem emitMatchWithLiterals : Behind (emitMatchWithLiterals literals matchLen distance)
    (emitMatchWithLiterals literals matchLen distance : Rust (Encoder src) Unit) := by
  refine lift_bind fun before => (emitLiterals before).bind fun _ => lift_bind fun inlineLiterals => lift_bind fun limit => ?_
  intro e
  refine Carries.get_bind fun b => ?_
  refine .ite (emitMatchChunks matchLen e) (.ite ?_ ?_)
  · exact ((emitPreviousDistance _ _).bind fun _ => lift_bind fun _ => (setDistance distance).bind fun _ =>
      emitMatchChunks _) e
  · exact ((emitFirst _ _ _ _).bind fun _ => (setDistance distance).bind fun _ => emitMatchChunks _) e

end Behind

/-! ## Rendering steps -/

/-- what `m` writes on an empty encoder, after a match of distance `last` -/
def wrote (m : Rust (Encoder []) Unit) (last : ℕ) : List UInt8 := (endState (m.run ((new []).withDistance last))).output

/-- what is appended behind any output is what is written on an empty encoder -/
theorem Behind.wrote {m : Rust (Encoder []) Unit} {m' : Rust (Encoder src) Unit} (h : Behind m m') {e : Encoder src}
    {bytes : List UInt8} {d : ℕ} (hrun : m'.run e = .ok () ((e.append bytes).withDistance d)) :
    bytes = wrote m e.previousDistance := by
  have he : e.behind ((new []).withDistance e.previousDistance) = e := by
    simp [behind, new, withDistance]
  have hcarried := h e ((new []).withDistance e.previousDistance)
  rw [he, hrun] at hcarried
  unfold Encoder.wrote
  cases hm : m.run ((new []).withDistance e.previousDistance) with
  | ok _ b =>
    rw [hm] at hcarried
    exact List.append_cancel_left (congrArg Encoder.output (EStateM.Result.ok.inj hcarried).2)
  | error _ _ =>
    rw [hm] at hcarried
    cases hcarried

/-- the bytes of a step after a match of distance `last` -/
def written (last : ℕ) (s : Step UInt8) : List UInt8 :=
  match s.copy with
  | none => wrote (emitLiterals s.literals) last
  | some (n, r) => wrote (emitMatchWithLiterals s.literals n (r.resolve last)) last

/-- the bytes of steps, each after the match of the steps before it -/
def render : ℕ → List (Step UInt8) → List UInt8
  | _, [] => []
  | last, s :: steps => written last s ++ render (s.next last) steps

/-! ## What the encoder chooses -/

/-- the matches of the bytes at `position` with those at the distance `last`, and with those at the newest positions before
with their hash -/
def nearby (src : List UInt8) (last position : ℕ) : Set Match :=
  {m | ∃ q, MatchAt src position q m ∧ (m.distance = last ∨ ∃ bucket, hashAt src position = .ok bucket ∧
    q ∈ indexed src position bucket ∧ {q' ∈ indexed src position bucket | q < q'}.encard < candidatesPerBucket)}

/-- a match that is shorter than the instruction for it is not taken -/
def Worthwhile (last : ℕ) (m : Match) : Prop :=
  m.distance = last ∨ m.distance < maxShortDistance ∨ minMatchLen < m.length

/-- what the encoder takes at a position after a match of distance `last` -/
def Chooses (src : List UInt8) (last position : ℕ) : Option (ℕ × ℕ) → Prop
  | none => ∀ m ∈ nearby src last position, ¬ Worthwhile last m
  | some (n, d) => Worthwhile last ⟨d, n⟩ ∧ IsBest (rank last) (nearby src last position) (some ⟨d, n⟩)

theorem nearby_isMatch {last position : ℕ} {m : Match} (h : m ∈ nearby src last position) : IsMatch src position m := by
  obtain ⟨q, hq, -⟩ := h
  exact hq.isMatch

theorem Chooses.unique {last position : ℕ} {r r' : Option (ℕ × ℕ)} (h : Chooses src last position r)
    (h' : Chooses src last position r') : r = r' := by
  match r, r', h, h' with
  | none, none, _, _ => rfl
  | none, some _, h, ⟨hworth, hbest⟩ => exact absurd hworth (h _ hbest.mem)
  | some _, none, ⟨hworth, hbest⟩, h' => exact absurd hworth (h' _ hbest.mem)
  | some (n, d), some (n', d'), ⟨_, hbest⟩, ⟨_, hbest'⟩ =>
    cases rank_injective last (le_antisymm (hbest'.2 _ hbest.1) (hbest.2 _ hbest'.1))
    rfl

theorem Chooses.repeats {last position n d : ℕ} (h : Chooses src last position (some (n, d))) :
    Repeats src position n d := by
  have hm := nearby_isMatch h.2.mem
  exact ⟨hm.distance_pos, hm.distance_le, hm.length_le, copyBack_match hm⟩

/-- the buckets hold the newest positions, so the candidates can be read off the source -/
theorem candidates_eq {e : Encoder src} (h : Indexes src e.table e.position) :
    e.candidates e.position = nearby src e.previousDistance e.position := by
  have hslots (bucket : Fin hashSize) (q : ℕ) : some q ∈ (e.table.get bucket).slots ↔
      q ∈ indexed src e.position bucket ∧
        {q' ∈ indexed src e.position bucket | q < q'}.encard < candidatesPerBucket := by
    obtain ⟨newest, hlargest, hslots⟩ := h bucket
    rw [← hlargest.mem_iff, hslots]
    simp
  simp only [candidates, nearby, hslots]

/-- **The match finder** takes what the source says. -/
theorem findMatch_chooses {e : Encoder src} (h : Indexes src e.table e.position) {r : Option Match}
    (hfind : e.findMatch e.position = .ok r) :
    Chooses src e.previousDistance e.position (r.map fun m => (m.length, m.distance)) := by
  have hworth {m : Match} (hm : IsMatch src e.position m) :
      e.matchIsWorthwhile m = true ↔ Worthwhile e.previousDistance m := matchIsWorthwhile_iff e hm.length_min
  cases r with
  | none =>
    intro m hm hw
    rw [← candidates_eq h] at hm
    have hnot := findMatch_none_iff.1 hfind m hm
    rw [(hworth (candidates_isMatch hm)).2 hw] at hnot
    cases hnot
  | some m =>
    obtain ⟨hmem, hbest⟩ := findMatch_some hfind
    refine ⟨(hworth (findMatch_isMatch hfind)).1 (findMatch_worthwhile hfind), ?_⟩
    rw [← candidates_eq h]
    refine ⟨hmem, ?_⟩
    intro m' hm'
    rcases eq_or_ne m' m with rfl | hne
    · exact le_rfl
    · exact (hbest m' hm' hne).le

/-! ## The loop of `finish` -/

variable {e e' : Encoder src}

/-- a round that goes on takes what is chosen, and writes its step -/
theorem round_chooses (hI : Inv e) (h : Indexes src e.table e.position) (hround : round.run e = .ok none e') :
    e.position < src.length ∧
      ((Chooses src e.previousDistance e.position none ∧ e'.output = e.output ∧ e'.literalStart = e.literalStart ∧
          e'.position = e.position + 1 ∧ e'.previousDistance = e.previousDistance) ∨
        ∃ n d, Chooses src e.previousDistance e.position (some (n, d)) ∧
          e'.output = e.output ++ written e.previousDistance
            ⟨(src.drop e.literalStart).take (e.position - e.literalStart), some (n, .explicit d)⟩ ∧
          e'.literalStart = e.position + n ∧ e'.position = e.position + n ∧ e'.previousDistance = d) := by
  obtain ⟨hlt, ⟨hfind, e1, hinsert, rfl⟩ | ⟨m, e1, e2, hfind, hemit, hinsert, rfl⟩⟩ := round_goes hround
  · rw [run_insertPosition] at hinsert
    cases hinsert
    exact ⟨hlt, .inl ⟨findMatch_chooses h hfind, rfl, rfl, rfl, rfl⟩⟩
  · refine ⟨hlt, .inr ⟨m.length, m.distance, findMatch_chooses h hfind, ?_⟩⟩
    have hm := findMatch_isMatch hfind
    obtain ⟨bytes, hrun, -⟩ := emitMatchWithLiterals_spec e
      ((src.drop e.literalStart).take (e.position - e.literalStart)) hm.length_min hm.distance_pos hm.distance_max
    have hbytes := (Behind.emitMatchWithLiterals _ _ _).wrote hrun
    simp only [emitMatch, EStateM.run_bind, EStateM.run_get, slice_eq hI.literalStart_le hI.position_le, run_lift_ok] at hemit
    rw [hrun] at hemit
    cases hemit
    rw [run_insertPositions] at hinsert
    cases hinsert
    exact ⟨congrArg (e.output ++ ·) hbytes, rfl, rfl, rfl⟩

/-- **The rest of a run writes the rest of a parse**, up to the last literals. -/
theorem runLoop_parses (hI : Inv e) (h : Indexes src e.table e.position) {a : Unit} (hrun : runLoop.run e = .ok a e') :
    ∃ steps, Parses (Chooses src) src e.literalStart e.position e.previousDistance steps ∧
      e'.output ++ written e'.previousDistance ⟨src.drop e'.literalStart, none⟩ =
        e.output ++ render e.previousDistance steps := by
  refine Loop.ofMonadic_rule round _ round_falls
    (fun e r => ∀ a e', Inv e → Indexes src e.table e.position → r = .ok a e' →
      ∃ steps, Parses (Chooses src) src e.literalStart e.position e.previousDistance steps ∧
        e'.output ++ written e'.previousDistance ⟨src.drop e'.literalStart, none⟩ =
          e.output ++ render e.previousDistance steps) ?_ ?_ ?_ e a e' hI h hrun
  · -- at the end of the source
    rintro e b e' hround a f hI - hr
    cases hr
    rcases round_cases hI hround with ⟨hnone, -⟩ | ⟨-, rfl⟩
    · cases hnone
    · have hend : e'.position = src.length := by
        by_contra hne
        obtain ⟨_, hgo, -⟩ := (round_inv hI).1 (lt_of_le_of_ne hI.position_le hne)
        rw [hround] at hgo
        cases hgo
      refine ⟨[⟨src.drop e'.literalStart, none⟩], ?_, ?_⟩
      · rw [hend]
        exact .stop
      · rw [render, render, List.append_nil]
  · rintro e x e' - a f - - hr
    cases hr
  · rintro e e1 r hround ih a f hI h hr
    have hI1 : Inv e1 := by
      rcases round_cases hI hround with ⟨-, hI1⟩ | ⟨hsome, -⟩
      · exact hI1
      · cases hsome
    obtain ⟨steps, hparse, hout⟩ := ih a f hI1 (round_indexes hI h hround) hr
    obtain ⟨hlt, ⟨hc, ho, hs, hp, hd⟩ | ⟨n, d, hc, ho, hs, hp, hd⟩⟩ := round_chooses hI h hround
    · rw [hs, hp, hd] at hparse
      rw [ho, hd] at hout
      exact ⟨steps, .skip hlt hc hparse, hout⟩
    · rw [hs, hp, hd] at hparse
      rw [ho, hd, List.append_assoc] at hout
      exact ⟨_, .copy hlt hc hparse, hout⟩

/-! ## A common beginning -/

variable {src' : List UInt8} {k p q last : ℕ} {m : Match}

/-- the first `k` bytes are the same -/
structure Agree (k : ℕ) (src src' : List UInt8) : Prop where
  le : k ≤ src.length
  le' : k ≤ src'.length
  take_eq : src.take k = src'.take k

namespace Agree

theorem symm (h : Agree k src src') : Agree k src' src := ⟨h.le', h.le, h.take_eq.symm⟩

theorem getElem?_eq (h : Agree k src src') {i : ℕ} (hi : i < k) : src[i]? = src'[i]? := by
  rw [← List.getElem?_take_of_lt hi, h.take_eq, List.getElem?_take_of_lt hi]

theorem hashAt_eq (h : Agree k src src') (hp : p + minMatchLen ≤ k) : hashAt src p = hashAt src' p := by
  unfold minMatchLen at hp
  simp only [hashAt, index, h.getElem?_eq (show p < k by omega), h.getElem?_eq (show p + 1 < k by omega),
    h.getElem?_eq (show p + 2 < k by omega)]

theorem indexed_eq (h : Agree k src src') (hp : p + minMatchLen ≤ k) (bucket : Fin hashSize) :
    indexed src p bucket = indexed src' p bucket := by
  have hle := h.le
  have hle' := h.le'
  ext q
  refine and_congr_right fun hq => ?_
  rw [h.hashAt_eq (show q + minMatchLen ≤ k by omega)]
  exact and_congr_left fun _ => ⟨fun _ => by omega, fun _ => by omega⟩

theorem mem_repeats_iff (h : Agree k src src') (hq : q ≤ p) {n : ℕ} (hn : p + n ≤ k) :
    n ∈ repeats src q p ↔ n ∈ repeats src' q p := by
  have hle := h.le
  have hle' := h.le'
  refine and_congr ⟨fun _ => by omega, fun _ => by omega⟩ (forall₂_congr fun i hi => ?_)
  rw [h.getElem?_eq (show q + i < k by omega), h.getElem?_eq (show p + i < k by omega)]

/-- a match that ends inside the beginning is one of both -/
theorem matchAt (h : Agree k src src') (hm : MatchAt src p q m) (hend : p + m.length < k) : MatchAt src' p q m := by
  have hqp : q ≤ p := by
    have := hm.distance_eq
    omega
  have hmin : minMatchLen ≤ m.length := hm.longest.2 hm.first
  refine ⟨hm.distance_eq, hm.distance_pos, hm.distance_max, ?_, ?_, ?_⟩
  · exact (h.mem_repeats_iff hqp (by omega)).1 hm.first
  · exact (h.mem_repeats_iff hqp hend.le).1 hm.longest.1
  · intro n hn
    by_contra hlt
    -- a longer match would show one more byte inside the beginning
    have hnext : m.length + 1 ∈ repeats src' q p := ⟨by have := hn.1; omega, fun i hi => hn.2 i (by omega)⟩
    have := hm.longest.2 ((h.mem_repeats_iff hqp hend).2 hnext)
    omega

/-- a match that goes beyond the beginning goes beyond it in both -/
theorem matchAt_beyond (h : Agree k src src') (hm : MatchAt src p q m) (hp : p + minMatchLen ≤ k)
    (hend : k ≤ p + m.length) : ∃ n, MatchAt src' p q ⟨m.distance, n⟩ ∧ k ≤ p + n := by
  have hqp : q ≤ p := by
    have := hm.distance_eq
    omega
  obtain ⟨n, -, hn⟩ := matchLength_greatest hqp (show p ≤ src'.length by have := h.le'; omega)
  have hinside : k - p ∈ repeats src q p :=
    ⟨by have := h.le; omega, fun i hi => hm.longest.1.2 i (by omega)⟩
  have hlong : k - p ≤ n := hn.2 ((h.mem_repeats_iff hqp (by omega)).1 hinside)
  refine ⟨n, ⟨hm.distance_eq, hm.distance_pos, hm.distance_max, ?_, hn⟩, by omega⟩
  exact (Encoder.mem_repeats_iff hn).2 (by omega)

/-- the same goes for the matches that the encoder looks at -/
theorem nearby (h : Agree k src src') (hm : m ∈ nearby src last p) (hend : p + m.length < k) :
    m ∈ Encoder.nearby src' last p := by
  have hmin := (nearby_isMatch hm).length_min
  obtain ⟨q, hq, hwhere⟩ := hm
  simp only [h.hashAt_eq (show p + minMatchLen ≤ k by omega), h.indexed_eq (show p + minMatchLen ≤ k by omega)] at hwhere
  exact ⟨q, h.matchAt hq hend, hwhere⟩

theorem nearby_beyond (h : Agree k src src') (hm : m ∈ Encoder.nearby src last p) (hp : p + minMatchLen ≤ k)
    (hend : k ≤ p + m.length) : ∃ m' ∈ Encoder.nearby src' last p, k ≤ p + m'.length := by
  obtain ⟨q, hq, hwhere⟩ := hm
  simp only [h.hashAt_eq hp, h.indexed_eq hp] at hwhere
  obtain ⟨n, hn, hbeyond⟩ := h.matchAt_beyond hq hp hend
  exact ⟨_, ⟨q, hn, hwhere⟩, hbeyond⟩

/-- a position in front of the last four bytes that is stepped over in one is stepped over in both -/
theorem chooses_none (h : Agree k src src') (hp : p + minMatchLen < k) (hc : Chooses src last p none) :
    Chooses src' last p none := by
  intro m hm hworth
  rcases lt_or_ge (p + m.length) k with hend | hend
  · exact hc m (h.symm.nearby hm hend) hworth
  · -- the match of the other source has four bytes, and is worthwhile
    obtain ⟨m', hm', hbeyond⟩ := h.symm.nearby_beyond hm hp.le hend
    exact hc m' hm' (.inr (.inr (by omega)))

/-- a match that is taken in one and ends inside the beginning is taken in both -/
theorem chooses_some (h : Agree k src src') {n d : ℕ} (hend : p + n < k) (hc : Chooses src last p (some (n, d))) :
    Chooses src' last p (some (n, d)) := by
  obtain ⟨hworth, hmem, hbest⟩ := hc
  have hmin : minMatchLen ≤ n := (nearby_isMatch hmem).length_min
  refine ⟨hworth, h.nearby hmem hend, ?_⟩
  intro m hm
  rcases lt_or_ge (p + m.length) k with hinside | hbeyond
  · exact hbest m (h.symm.nearby hm hinside)
  · -- a match beyond the beginning would have been longer
    obtain ⟨m', hm', hlong⟩ := h.symm.nearby_beyond hm (by omega) hbeyond
    have hle := hbest m' hm'
    rw [← not_lt, rank_lt_iff, not_or] at hle
    have : m'.length ≤ n := not_lt.1 hle.1
    omega

end Agree

end Encoder

open Encoder

/-- the encoder writes a parse of its input -/
theorem encode_parses (src : List UInt8) : ∃ steps, Parses (Chooses src) src 0 0 0 steps ∧
    encode src = .ok (render 0 steps ++ eos) := by
  obtain ⟨e, hloop, hhead⟩ := run_runLoop src
  obtain ⟨steps, hparse, hout⟩ := runLoop_parses inv_new indexes_new hloop
  obtain ⟨bytes, hemit, -⟩ := emitLiterals_spec e (src.drop e.literalStart)
  have hbytes : bytes = written e.previousDistance ⟨src.drop e.literalStart, none⟩ :=
    (Behind.emitLiterals _).wrote (d := e.previousDistance) hemit
  refine ⟨steps, hparse, ?_⟩
  rw [encode_eq hloop (head_keeps hhead) hemit, hbytes, hout]
  rfl

/-- **The encoder is a greedy parser.** There is exactly one greedy parse of the source, in which every match is the best of
those at the last distance and at the four newest positions with the same hash, and is worth its instruction. It replays to
the source, and `encode` writes its steps, one after the other, and the end marker. -/
theorem encode_is_greedy_parse (src : List UInt8) : ∃ steps, Parses (Chooses src) src 0 0 0 steps ∧
    (∀ steps', Parses (Chooses src) src 0 0 0 steps' → steps' = steps) ∧
    (∃ w, replay Window.init steps = some w ∧ w.out = src) ∧ encode src = .ok (render 0 steps ++ eos) := by
  obtain ⟨steps, hparse, hencode⟩ := encode_parses src
  refine ⟨steps, hparse, ?_, hparse.replay (fun _ _ _ _ h => h.repeats) le_rfl (Nat.zero_le _), hencode⟩
  intro steps' hparse'
  exact hparse'.unique (fun _ _ _ _ h h' => h.unique h') hparse

theorem render_append (last : ℕ) (a b : List (Step UInt8)) :
    render last (a ++ b) = render last a ++ render (a.foldl Step.next last) b := by
  induction a generalizing last with
  | nil => rfl
  | cons s a ih => rw [List.cons_append, render, render, List.append_assoc, ih, List.foldl_cons]

/-- **What is encoded stays encoded.** When two sources begin with the same `k` bytes, the steps of the first one that end
before byte `k` are the first steps of the second one, and the encoder writes the same bytes for them. -/
theorem encode_stable {src src' : List UInt8} {k : ℕ} (h : Agree k src src') {done rest : List (Step UInt8)}
    (hparse : Parses (Chooses src) src 0 0 0 (done ++ rest)) (hends : (done.map Step.size).sum < k) :
    (∃ rest', Parses (Chooses src') src' 0 0 0 (done ++ rest')) ∧ (∃ out, encode src = .ok (render 0 done ++ out)) ∧
      ∃ out', encode src' = .ok (render 0 done ++ out') := by
  obtain ⟨steps, hsteps, hencode⟩ := encode_parses src
  obtain ⟨steps', hsteps', hencode'⟩ := encode_parses src'
  obtain rfl : done ++ rest = steps := hparse.unique (fun _ _ _ _ h h' => h.unique h') hsteps
  obtain ⟨rest', rfl⟩ : done <+: steps' := by
    refine hparse.common h.le h.le' h.take_eq (c := minMatchLen) ?_ (fun _ _ _ _ h h' => h.unique h')
      (fun _ _ => h.chooses_none) (fun _ _ _ _ => h.chooses_some) hsteps' le_rfl (by rwa [Nat.zero_add])
    exact fun _ _ _ _ hc => (nearby_isMatch hc.2.mem).length_min
  rw [render_append, List.append_assoc] at hencode hencode'
  exact ⟨⟨rest', hsteps'⟩, ⟨_, hencode⟩, _, hencode'⟩

/-- five equal bytes and another one: whatever follows, they are one literal and one match -/
theorem five_bytes_stable : ∃ out out', encode [0x61, 0x61, 0x61, 0x61, 0x61, 0x62, 0x63] = .ok ([0x48, 0x01, 0x61] ++ out) ∧
    encode [0x61, 0x61, 0x61, 0x61, 0x61, 0x62, 0x64] = .ok ([0x48, 0x01, 0x61] ++ out') := by
  set src : List UInt8 := [0x61, 0x61, 0x61, 0x61, 0x61, 0x62, 0x63] with hsrc
  have hfirst : Chooses src 0 0 none := by
    rintro m ⟨q, hq, -⟩
    have := hq.distance_eq
    have := hq.distance_pos
    omega
  have hmatch : MatchAt src 1 0 ⟨1, 4⟩ := by
    refine ⟨rfl, le_rfl, by decide, ⟨by decide, by decide⟩, ⟨by decide, by decide⟩, ?_⟩
    intro n hn
    by_contra hlt
    have hfifth := hn.2 4 (not_le.1 hlt)
    revert hfifth
    decide
  obtain ⟨bucket, hbucket⟩ := hashAt_ok_iff.2 (show 1 + minMatchLen ≤ src.length by decide)
  have hzero : hashAt src 0 = .ok bucket := (show hashAt src 0 = hashAt src 1 from rfl).trans hbucket
  have hnewer : {q ∈ indexed src 1 bucket | 0 < q} = ∅ :=
    Set.eq_empty_of_forall_notMem fun q hq => absurd hq.1.1 (not_lt.2 hq.2)
  have hsecond : Chooses src 0 1 (some (4, 1)) := by
    refine ⟨.inr (.inl (by decide)), ⟨0, hmatch, .inr ⟨bucket, hbucket, ⟨Nat.zero_lt_one, by decide, hzero⟩, ?_⟩⟩, ?_⟩
    · rw [hnewer, Set.encard_empty]
      decide
    · rintro m ⟨q, hq, -⟩
      have := hq.distance_eq
      have := hq.distance_pos
      obtain rfl : q = 0 := by omega
      rw [hq.unique hmatch]
  obtain ⟨steps, hsteps, -⟩ := encode_parses src
  obtain ⟨rest, hrest⟩ : ∃ rest, steps = [⟨[0x61], some (4, .explicit 1)⟩] ++ rest := by
    cases hsteps with
    | copy _ hcopy _ => cases hfirst.unique hcopy
    | skip _ _ hnext =>
      cases hnext with
      | skip _ hskip _ => cases hskip.unique hsecond
      | copy _ hcopy _ =>
        cases hcopy.unique hsecond
        exact ⟨_, rfl⟩
  have hagree : Agree 6 src [0x61, 0x61, 0x61, 0x61, 0x61, 0x62, 0x64] := ⟨by decide, by decide, rfl⟩
  obtain ⟨-, ⟨out, hout⟩, out', hout'⟩ := encode_stable hagree (hrest ▸ hsteps) (by decide)
  exact ⟨out, out', hout, hout'⟩

end Lzvn.Raw
