/-
Runs of equal bytes are encoded in next to nothing, wherever they are in the source.

Costs are in parts of 271 to a byte, the length of the longest match instruction, which takes two. `byRuns` is what the encoder
pays: 288 for a literal, and for a match 2 a byte and 6 bytes once.

- `emitMatchWithLiterals_cost`, `written_copy_cost`, `written_literals_cost`: what an emission costs at most.
- `chooses_run`: inside a run, the encoder takes a match that goes to the end of the run.
- `encode_run_length`: the encoder is no worse than a run-length coder: whatever runs the source is cut into, each of them adds
  at most 12 bytes and 2 for every 271 of its own, or 288 for every 271 where that is less.
-/
import Lzvn.Core.Runs
import Lzvn.Raw.Expansion
import Lzvn.Raw.Parse

namespace Lzvn.Raw

open Lzvn.Core Lzvn.Core.Lz77 Lzvn.Core.Runs

namespace Encoder

variable {src : List UInt8} {e e' : Encoder src} {l : List UInt8} {matchLen distance : ℕ}

/-! ## What emissions cost -/

/-- what is left of a match is worth, with two bytes more until it is all written -/
def chunksWorth (left : ℕ) : ℕ := if left = 0 then 0 else 2 * left + 540

theorem chunksWorth_le (left : ℕ) : chunksWorth left ≤ 2 * left + 540 := by
  unfold chunksWorth
  split_ifs <;> omega

/-- a round of `emit_match_chunks` is paid for by its chunk -/
theorem chunksRound_cost {s s' : List UInt8 × ℕ} {a : Option Unit} (h : chunksRound.run s = .ok a s') :
    271 * s'.1.length + chunksWorth s'.2 ≤ 271 * s.1.length + chunksWorth s.2 := by
  obtain ⟨output, left⟩ := s
  simp only [chunksRoundWith, EStateM.run_bind, EStateM.run_get] at h
  split_ifs at h with hpos
  · simp only [run_bind_ok, run_lift_eq_ok] at h
    obtain ⟨header, _, ⟨hheader, rfl⟩, rest, _, ⟨hrest, rfl⟩, _, _, h1, h2⟩ := h
    cases h1
    cases h2
    set n := chunkLen left maxMatchLen with hn
    have hle : n ≤ left := chunkLen_le ..
    rw [sub_eq hle] at hrest
    cases hrest
    have hsize : n = left ∧ n ≤ 15 ∨ 16 ≤ n ∧ n ≤ left ∧ (n < left → n = 271) := by
      rw [hn, chunkLen, maxMatchLen]
      split_ifs <;> omega
    have hheader := chunkHeader_length hheader
    rw [List.length_append, hheader]
    simp only [chunksWorth]
    split_ifs <;> omega
  · cases h
    exact le_rfl

theorem emitMatchChunks_cost (h : (emitMatchChunks matchLen).run e = .ok () e') :
    271 * e'.output.length ≤ 271 * e.output.length + (2 * matchLen + 540) := by
  simp only [emitMatchChunksWith, EStateM.run_bind, EStateM.run_get] at h
  cases hrun : chunksLoop.run (e.output, matchLen) with
  | ok a s' =>
    rw [hrun] at h
    cases h
    have hcost := Loop.ofMonadic_le chunksRound _ chunksRound_falls (fun s => 271 * s.1.length + chunksWorth s.2)
      (fun s a s' => chunksRound_cost) hrun
    have hworth := chunksWorth_le matchLen
    dsimp only at hcost ⊢
    omega
  | error err s' =>
    rw [hrun] at h
    cases h

/-- the instruction with the distance takes three bytes at most besides its literals -/
theorem emitFirst_cost {limit left : ℕ} (h : (emitFirst l matchLen distance limit).run e = .ok left e') :
    e'.output.length ≤ e.output.length + l.length + 3 ∧ left ≤ matchLen := by
  unfold emitFirst emitFirstWith at h
  split_ifs at h with hmedium hsmall
  · simp only [run_bind_ok, run_lift_eq_ok, sub_eq (min_le_left _ _)] at h
    obtain ⟨_, e1, hemit, hleft, rfl⟩ := h
    cases hleft
    rw [emitMediumDistance_length hemit]
    exact ⟨by omega, Nat.sub_le _ _⟩
  · simp only [run_bind_ok, run_lift_eq_ok, sub_eq (min_le_left _ _)] at h
    obtain ⟨_, e1, hemit, hleft, rfl⟩ := h
    cases hleft
    rw [emitSmallDistance_length hemit]
    exact ⟨by omega, Nat.sub_le _ _⟩
  · simp only [run_bind_ok, run_lift_eq_ok, sub_eq (min_le_left _ _)] at h
    obtain ⟨_, e1, hemit, hleft, rfl⟩ := h
    cases hleft
    rw [emitLargeDistance_length hemit]
    exact ⟨by omega, Nat.sub_le _ _⟩

/-- **A match with its literals** costs 288 a literal, and 2 a byte and 6 bytes for the match. -/
theorem emitMatchWithLiterals_cost {literals : List UInt8}
    (h : (emitMatchWithLiterals literals matchLen distance).run e = .ok () e') :
    271 * e'.output.length ≤ 271 * e.output.length + (288 * literals.length + (2 * matchLen + 1626)) := by
  set k := literals.length - maxInlineLiteral with hk
  have hk3 : literals.length - k ≤ 3 := by rw [hk, maxInlineLiteral]; omega
  have hkle : k ≤ literals.length := Nat.sub_le _ _
  have hlen : (literals.drop k).length = literals.length - k := List.length_drop ..
  have hsum : k + (literals.drop k).length = literals.length := by rw [hlen]; omega
  have hhead : slice literals 0 k = .ok (literals.take k) := slice_eq (Nat.zero_le _) hkle
  have htail : slice literals k literals.length = .ok (literals.drop k) := by
    rw [slice_eq hkle le_rfl, List.take_of_length_le (by rw [List.length_drop])]
  obtain ⟨before, hbefore, -⟩ := emitLiterals_spec e (literals.take k)
  have hfront : 271 * (e.append before).output.length ≤ 271 * e.output.length + 288 * k + 271 := by
    have hpaid := emitLiterals_length hbefore
    have hprice := price_le (literals.take k)
    rw [List.length_take, min_eq_left hkle] at hprice
    linarith
  simp only [emitMatchWithLiteralsWith, ← hk, EStateM.run_bind, hhead, run_lift_ok, hbefore, htail,
    maxShortMatch_ok (hlen ▸ hk3 : (literals.drop k).length ≤ 3), EStateM.run_get] at h
  split_ifs at h with hsame hprev
  · have hchunks := emitMatchChunks_cost h
    linarith
  · simp only [run_bind_ok, run_lift_eq_ok, sub_eq (min_le_left _ _), EStateM.run_modify] at h
    obtain ⟨_, e1, hemit, _, _, ⟨hleft, rfl⟩, _, _, hset, h⟩ := h
    cases hleft
    cases hset
    have hchunks := emitMatchChunks_cost h
    rw [emitPreviousDistance_length hemit] at hchunks
    have hleft := Nat.sub_le matchLen (min matchLen (10 - (literals.drop k).length * 2))
    linarith
  · simp only [run_bind_ok, EStateM.run_modify] at h
    obtain ⟨left, e1, hemit, _, _, hset, h⟩ := h
    cases hset
    have hchunks := emitMatchChunks_cost h
    obtain ⟨hfirst, hleft⟩ := emitFirst_cost hemit
    dsimp only at hchunks
    linarith

/-- what the encoder pays at most, in parts of 271 to a byte -/
def byRuns : Tariff := ⟨288, 2, 1626, minMatchLen + 1, by decide, by decide⟩

variable {p last : ℕ}

/-- what is written on an empty encoder is its output -/
theorem length_wrote {m : Rust (Encoder []) Unit} {b : Encoder []} (h : m.run ((new []).withDistance last) = .ok () b) :
    (wrote m last).length = b.output.length := by
  rw [wrote, h]
  rfl

theorem length_new (last : ℕ) : ((new []).withDistance last).output.length = 0 := rfl

/-- a copy costs a literal's price for its literals, and that of a stretch -/
theorem written_copy_cost {n d : ℕ} (literals : List UInt8) (hc : Chooses src last p (some (n, d))) :
    271 * (written last ⟨literals, some (n, .explicit d)⟩).length ≤ 288 * literals.length + byRuns.stretch n := by
  have hm := nearby_isMatch hc.2.mem
  obtain ⟨bytes, hrun, -⟩ := emitMatchWithLiterals_spec ((new []).withDistance last) literals hm.length_min hm.distance_pos
    hm.distance_max
  have hfar : d ≠ last → maxShortDistance ≤ d → 4 ≤ n := by
    intro hlast hfar
    rcases hc.1 with h | h | h
    · exact absurd h hlast
    · exact absurd h (not_lt.2 hfar)
    · exact h
  have hliteral := emitMatchWithLiterals_length hm.length_min hfar hrun
  have hcopy := emitMatchWithLiterals_cost hrun
  rw [← length_wrote hrun, length_new] at hliteral hcopy
  rw [Tariff.stretch, ← Nat.add_min_add_left]
  refine le_min ?_ ?_
  · change 271 * (wrote (emitMatchWithLiterals literals n d) last).length ≤ 288 * literals.length + 288 * n
    dsimp only at hliteral
    linarith
  · change 271 * (wrote (emitMatchWithLiterals literals n d) last).length ≤ 288 * literals.length + (2 * n + 1626)
    dsimp only at hcopy
    linarith

/-- the last literals cost a byte more -/
theorem written_literals_cost (literals : List UInt8) :
    271 * (written last ⟨literals, none⟩).length ≤ 288 * literals.length + 271 := by
  obtain ⟨bytes, hrun, -⟩ := emitLiterals_spec ((new []).withDistance last) literals
  have hpaid := emitLiterals_length hrun
  have hprice := price_le literals
  rw [← length_wrote hrun, length_new] at hpaid
  change 271 * (wrote (emitLiterals literals) last).length ≤ 288 * literals.length + 271
  linarith

theorem total_written (last : ℕ) (steps : List (Step UInt8)) :
    Parses.total (fun last s => 271 * (written last s).length) last steps = 271 * (render last steps).length := by
  induction steps generalizing last with
  | nil => rfl
  | cons s steps ih => rw [Parses.total, ih, render, List.length_append, Nat.mul_add]

/-! ## What the encoder takes inside a run -/

variable {runs : List (ℕ × UInt8)}

/-- inside a run, the byte before is a candidate, and its match goes to the end of the run -/
theorem nearby_run (last : ℕ) (hlong : minMatchLen ≤ left runs p) (hp : p ≤ (expand runs).length) :
    ∃ m ∈ nearby (expand runs) last p, left runs p ≤ m.length := by
  have hpos : p ≠ 0 := by
    rintro rfl
    cases runs <;> cases hlong
  have hend := left_le runs p hp
  have hrepeats : left runs p ∈ repeats (expand runs) (p - 1) p := by
    refine ⟨hend, ?_⟩
    intro i hi
    rw [getElem?_left hi]
    cases i with
    | zero => rfl
    | succ i => rw [show p - 1 + (i + 1) = p + i by omega, getElem?_left (by omega)]
  obtain ⟨n, -, hn⟩ := matchLength_greatest (Nat.sub_le p 1) hp
  have hmatch : MatchAt (expand runs) p (p - 1) ⟨1, n⟩ :=
    ⟨Nat.succ_pred hpos, le_rfl, show 1 ≤ maxDistance by decide, ⟨by omega, fun i hi => hrepeats.2 i (by omega)⟩, hn⟩
  -- the three bytes from the byte before on are those from here on
  have hfirst : (expand runs)[p - 1]? = (expand runs)[p]? := hrepeats.2 0 (lt_of_lt_of_le (by decide) hlong)
  have hsecond : (expand runs)[p - 1 + 1]? = (expand runs)[p + 1]? := hrepeats.2 1 (lt_of_lt_of_le (by decide) hlong)
  have hthird : (expand runs)[p - 1 + 2]? = (expand runs)[p + 2]? := hrepeats.2 2 (lt_of_lt_of_le (by decide) hlong)
  obtain ⟨bucket, hbucket⟩ := hashAt_ok_iff.2 (show p + minMatchLen ≤ (expand runs).length by omega)
  have hhash : hashAt (expand runs) (p - 1) = .ok bucket := by
    rw [← hbucket]
    simp only [hashAt, index, hfirst, hsecond, hthird]
  have hnewest : {q ∈ indexed (expand runs) p bucket | p - 1 < q} = ∅ :=
    Set.eq_empty_of_forall_notMem fun q hq => absurd hq.1.1 (by have := hq.2; omega)
  refine ⟨_, ⟨p - 1, hmatch, .inr ⟨bucket, hbucket, ⟨by omega, by omega, hhash⟩, ?_⟩⟩, hn.2 hrepeats⟩
  rw [hnewest, Set.encard_empty]
  decide

/-- **Inside a run** of which four bytes are left, the encoder takes a match to the end of the run at least. -/
theorem chooses_run (hlong : minMatchLen + 1 ≤ left runs p) (hp : p ≤ (expand runs).length) {r : Option (ℕ × ℕ)}
    (hc : Chooses (expand runs) last p r) : ∃ n d, r = some (n, d) ∧ left runs p ≤ n := by
  obtain ⟨m, hm, hend⟩ := nearby_run last (Nat.le_of_succ_le hlong) hp
  match r, hc with
  | none, hc => exact absurd (.inr (.inr (by omega))) (hc m hm)
  | some (n, d), ⟨_, hbest⟩ =>
    have hle := hbest.2 m hm
    rw [← not_lt, rank_lt_iff, not_or] at hle
    exact ⟨n, d, rfl, hend.trans (not_lt.1 hle.1)⟩

end Encoder

open Encoder

/-- **No worse than run-length coding.** Whatever runs the source is cut into, a run of `n` bytes adds at most 12 bytes and 2 for
every 271 of its own, or 288 for every 271 of its own; and the whole adds 9 bytes. -/
theorem encode_run_length (runs : List (ℕ × UInt8)) : ∃ out, encode (expand runs) = .ok out ∧
    271 * out.length ≤ (runs.map fun r => min (288 * r.1) (2 * r.1 + 271 * 12)).sum + 271 * 9 := by
  obtain ⟨steps, hparse, hencode⟩ := encode_parses (expand runs)
  have hskip (last p : ℕ) (hp : p < (expand runs).length) (hc : Chooses (expand runs) last p none) :
      288 + byRuns.rest runs (p + 1) ≤ byRuns.rest runs p := by
    have hone : byRuns.stretch 1 = 288 := rfl
    rw [← hone]
    refine byRuns.rest_pays hp ?_
    intro hlong
    obtain ⟨_, _, hnone, -⟩ := chooses_run hlong hp.le hc
    cases hnone
  have hcopy (literals : List UInt8) (last p n d : ℕ) (hc : Chooses (expand runs) last p (some (n, d))) :
      271 * (written last ⟨literals, some (n, .explicit d)⟩).length + byRuns.rest runs (p + n) ≤
        288 * literals.length + byRuns.rest runs p := by
    have hend := hc.repeats.length_le
    have hcost := written_copy_cost literals hc
    have hpays := byRuns.rest_pays hend fun hlong => by
      obtain ⟨_, _, hsome, hle⟩ := chooses_run hlong (by omega) hc
      cases hsome
      exact hle
    omega
  have htotal : Parses.total (fun last s => 271 * (written last s).length) 0 steps ≤
      288 * (0 - 0) + byRuns.rest runs 0 + 271 := hparse.total_le (fun _ _ _ _ hc => hc.repeats.length_le) hskip hcopy
    (fun literals last => written_literals_cost literals) le_rfl (Nat.zero_le _)
  rw [total_written, Tariff.rest_zero] at htotal
  refine ⟨_, hencode, ?_⟩
  rw [List.length_append]
  have heos : eos.length = 8 := rfl
  change _ ≤ byRuns.worth runs + _
  omega

end Lzvn.Raw
