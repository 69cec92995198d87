/-
The `decmpfs` wrapper in its own terms, and the decoder against it.

- `Packs p w`: block `p` holds `w`, stored behind the sentinel or as a raw stream.
- `IsFork fork w`: `fork` is a table of offsets and a block for every 64 KiB of `w`. `ForkBlocks`: its first blocks.
- `Holds`: what the payload or the fork of a wrapper holds.
- `Yields`: a decoder of a known length writes what is held, or fails; it never panics.
  `decodeLzvnBlock_yields`, `decodeForkBlocks_yields`, `decodeLzvnResourceFork_yields`, `decodeBody_yields`.
- `decode_ok_iff`, `decode_panic_iff`, `decodeInto_ne_panic`: the whole decoders.
-/
import Lzvn.Apple.BvxnGrammar
import Lzvn.Apple.Decmpfs
import Lzvn.Core.OffsetTable

namespace Lzvn.Apple.Decmpfs

open Lzvn.Core Lzvn.Core.OffsetTable
open Lzvn.Raw (IsStream)

/-! ## Headers -/

/-- headers are parsed, and only headers -/
theorem parseHeader_ok_iff {u : Usize} {xattr : List UInt8} {header : DecmpfsHeader} :
    parseHeader u xattr = .ok header ↔ ∃ t tail,
      xattr = leBytes 4 decmpfsMagic ++ leBytes 4 t ++ leBytes 8 header.uncompressedSize ++ tail ∧ t < 256 ^ 4 ∧
      header.compressionType = .fromRaw t ∧ header.uncompressedSize < 256 ^ 8 ∧ header.uncompressedSize ≤ u.max := by
  constructor
  · intro h
    unfold parseHeader at h
    split_ifs at h with hlen
    · cases h
    obtain ⟨magic, hm, h⟩ := except_bind_ok.1 h
    split_ifs at h with hmagic
    · cases h
    obtain ⟨t, ht, h⟩ := except_bind_ok.1 h
    obtain ⟨n, hn, h⟩ := except_bind_ok.1 h
    split_ifs at h with hmax
    · cases h
    cases h
    rw [not_not] at hmagic
    subst hmagic
    exact ⟨t, xattr.drop 16, fields_eq hm ht hn (by decide) (by decide), (fromLeBytes_ok ht).2, rfl,
      (fromLeBytes_ok hn).2, not_lt.1 hmax⟩
  · intro h
    rcases h with ⟨t, tail, rfl, ht, hkind, hn, hmax⟩
    obtain ⟨kind, n⟩ := header
    dsimp only at hkind hn hmax
    subst hkind
    have hlen : ¬ (leBytes 4 decmpfsMagic ++ leBytes 4 t ++ leBytes 8 n ++ tail).length < decmpfsHeaderLen := by
      simp only [decmpfsHeaderLen, List.length_append, length_leBytes]
      omega
    obtain ⟨h1, h2, h3⟩ := fields_read tail (show decmpfsMagic < 256 ^ 4 by decide) ht hn
    unfold parseHeader
    rw [if_neg hlen, h1, except_ok_bind, if_neg (by simp), h2, except_ok_bind, h3, except_ok_bind, if_neg (not_lt.2 hmax)]
    rfl

theorem parseHeader_length {u : Usize} {xattr : List UInt8} {header : DecmpfsHeader}
    (h : parseHeader u xattr = .ok header) : decmpfsHeaderLen ≤ xattr.length := by
  obtain ⟨t, tail, rfl, -⟩ := parseHeader_ok_iff.1 h
  simp only [decmpfsHeaderLen, List.length_append, length_leBytes]
  omega

theorem parseHeader_ne_panic (u : Usize) (xattr : List UInt8) : parseHeader u xattr ≠ .error .panic := by
  intro h
  unfold parseHeader at h
  split_ifs at h with hlen
  · cases h
  rw [decmpfsHeaderLen, not_lt] at hlen
  rw [fromLeBytes_inside (by decide) (by omega), fromLeBytes_inside (by decide) (by omega),
    fromLeBytes_inside (by decide) (by omega), except_ok_bind, except_ok_bind, except_ok_bind] at h
  split_ifs at h <;> cases h

theorem splitXattr_eq {u : Usize} {xattr : List UInt8} {header : DecmpfsHeader} (h : parseHeader u xattr = .ok header) :
    splitXattr u xattr = .ok (header, xattr.drop decmpfsHeaderLen) := by
  rw [splitXattr, h, except_ok_bind, slice_eq (parseHeader_length h) le_rfl,
    List.take_of_length_le (by rw [List.length_drop])]
  rfl

theorem splitXattr_error {u : Usize} {xattr : List UInt8} {e : Stop} (h : parseHeader u xattr = .error e) :
    splitXattr u xattr = .error e := by
  rw [splitXattr, h]
  rfl

/-! ## Blocks -/

/-- block `p` holds `w` -/
def Packs (p w : List UInt8) : Prop := p = lzvnUncompressedSentinel :: w ∨ IsStream p w

/-- the two forms of a block do not contradict each other -/
theorem Packs.unique {p v w : List UInt8} (hv : Packs p v) (hw : Packs p w) (hlen : v.length = w.length) : v = w := by
  rcases hv with rfl | hv
  · rcases hw with hw | hw
    · cases hw; rfl
    · rw [Raw.IsStream.of_eos hw] at hlen ⊢
      exact List.eq_nil_of_length_eq_zero hlen
  · rcases hw with rfl | hw
    · rw [Raw.IsStream.of_eos hv] at hlen ⊢
      exact (List.eq_nil_of_length_eq_zero hlen.symm).symm
    · exact hv.unique hw

/-- what a decoder of `expected` bytes into `dst` returns: it writes what satisfies `P`, or fails and nothing does -/
def Yields (r : EStateM.Result Stop (List UInt8) ℕ) (expected : ℕ) (dst : List UInt8) (P : List UInt8 → Prop) : Prop :=
  match r with
  | .ok n dst' =>
    if n = expected then ∃ w, w.length = expected ∧ P w ∧ dst' = w ++ dst.drop expected
    else ∀ w, w.length = expected → ¬ P w
  | .error e _ => e ≠ .panic ∧ ∀ w, w.length = expected → ¬ P w

/-- a write to a part of the buffer -/
theorem run_onSlice {α : Type} {start stop : ℕ} {dst : List UInt8} (h1 : start ≤ stop) (h2 : stop ≤ dst.length)
    (m : Rust (List UInt8) α) : (onSlice start stop m).run dst =
      match m.run ((dst.drop start).take (stop - start)) with
      | .ok a part => .ok a (dst.take start ++ part ++ dst.drop stop)
      | .error e part => .error e (dst.take start ++ part ++ dst.drop stop) := by
  simp only [onSlice, EStateM.run_bind, EStateM.run_get, slice_eq h1 h2, run_lift_ok, run_zoom]
  cases m.run ((dst.drop start).take (stop - start)) <;> rfl

/-- **`decode_lzvn_block`** decodes exactly the blocks of the expected length. -/
theorem decodeLzvnBlock_yields {u : Usize} {p dst : List UInt8} {expected : ℕ} (hmax : expected < u.max)
    (hdst : expected ≤ dst.length) : Yields ((decodeLzvnBlock u p expected).run dst) expected dst (Packs p) := by
  have hsat : u.saturatingAdd expected 1 = expected + 1 := min_eq_left hmax
  unfold decodeLzvnBlock
  rw [hsat]
  by_cases hs : p.length = expected + 1 ∧ p.head? = some lzvnUncompressedSentinel
  · rw [if_pos hs]
    obtain ⟨hlen, hhead⟩ := hs
    obtain ⟨w, rfl⟩ : ∃ w, p = lzvnUncompressedSentinel :: w := by
      cases p with
      | nil => cases hhead
      | cons b w => rw [List.head?_cons, Option.some.injEq] at hhead; exact ⟨w, by rw [hhead]⟩
    rw [List.length_cons, Nat.add_right_cancel_iff] at hlen
    have hslice : slice (lzvnUncompressedSentinel :: w) 1 (lzvnUncompressedSentinel :: w).length = .ok w := by
      rw [slice_eq (by simp) le_rfl]
      simp
    have hcopy : copyFromSlice dst 0 expected w = .ok (w ++ dst.drop expected) := by
      rw [copyFromSlice_eq (Nat.zero_le _) hdst (by omega)]
      simp
    simp only [EStateM.run_bind, hslice, run_lift_ok, EStateM.run_get, hcopy, EStateM.run_set, EStateM.run_pure, Yields,
      if_true]
    exact ⟨w, hlen, .inl rfl, rfl⟩
  · have hstream {w : List UInt8} (hw : w.length = expected) : Packs p w ↔ IsStream p w := by
      refine ⟨fun h => h.resolve_left ?_, .inr⟩
      rintro rfl
      exact hs ⟨by rw [List.length_cons, hw], rfl⟩
    rw [if_neg hs, run_onSlice (Nat.zero_le _) hdst, List.drop_zero, Nat.sub_zero]
    have hlen : (dst.take expected).length = expected := by rw [List.length_take]; omega
    cases hr : (Raw.decodeInto p).run (dst.take expected) with
    | ok n part =>
      obtain ⟨w, hw, hn, hle, rfl⟩ := Raw.decodeInto_ok_iff.1 hr
      simp only [Yields]
      split_ifs with heq
      · refine ⟨w, hn.trans heq, .inr hw, ?_⟩
        rw [List.drop_of_length_le (by omega)]
        simp
      · intro w' hw' hp
        rw [hstream hw'] at hp
        rw [hw.unique hp] at hn
        omega
    | error e part =>
      constructor
      · rintro rfl
        exact Raw.decodeInto_ne_panic _ _ _ hr
      · intro w hw hp
        rw [hstream hw] at hp
        have hok := Raw.decodeInto_ok_iff.2 ⟨w, hp, rfl, (hw.trans hlen.symm).le, rfl⟩
        rw [hr] at hok
        cases hok

/-! ## Forks -/

theorem blockCount_eq (size : ℕ) : blockCount size = size ⌈/⌉ decmpfsChunkSize := by
  unfold blockCount
  split_ifs with h
  · rw [h]; rfl
  · rfl

theorem lt_blockCount {size i : ℕ} : i < blockCount size ↔ i * decmpfsChunkSize < size := by
  rw [blockCount_eq, Nat.ceilDiv_eq_add_pred_div, decmpfsChunkSize]
  omega

/-- the table of the offsets of any size is far smaller than `usize` -/
theorem offsetTableLen_eq {u : Usize} {size : ℕ} (h : size ≤ u.max) :
    offsetTableLen u (blockCount size) = .ok ((blockCount size + 1) * 4) ∧ (blockCount size + 1) * 4 ≤ u.max := by
  have hsmall : (blockCount size + 1) * 4 ≤ u.max := by
    rw [blockCount_eq, Nat.ceilDiv_eq_add_pred_div, decmpfsChunkSize]
    cases u <;> simp only [Usize.max, Usize.bits] at h ⊢ <;> omega
  have hentries : u.checkedAdd (blockCount size) 1 = some (blockCount size + 1) := if_pos (by omega)
  have htable : u.checkedMul (blockCount size + 1) 4 = some ((blockCount size + 1) * 4) := if_pos hsmall
  refine ⟨?_, hsmall⟩
  rw [offsetTableLen, hentries]
  exact congrArg (okOr · _) htable

theorem readOffset_eq {u : Usize} {fork : List UInt8} {i : ℕ} (hmax : (i + 1) * 4 ≤ u.max)
    (hlen : (i + 1) * 4 ≤ fork.length) : readOffset u fork i = .ok (entry 4 fork i) := by
  have hstart : u.checkedMul i 4 = some (i * 4) := if_pos (by omega)
  have hstop : u.add (i * 4) 4 = .ok (i * 4 + 4) := if_pos (by omega)
  have hget : getRange fork (i * 4) (i * 4 + 4) = some ((fork.drop (i * 4)).take 4) := by
    rw [getRange, if_pos (by omega), Nat.add_sub_cancel_left]
  rw [readOffset, hstart]
  simp only [okOr, except_ok_bind, hstop, hget]
  rfl

/-- the size of block `i` of contents of length `total` -/
def blockSize (total i : ℕ) : ℕ := min (total - i * decmpfsChunkSize) decmpfsChunkSize

theorem remainingBlockSize_eq {u : Usize} {total i : ℕ} (hmax : total ≤ u.max) (hi : i * decmpfsChunkSize ≤ total) :
    remainingBlockSize u total i = .ok (blockSize total i) := by
  have hstart : u.mul i decmpfsChunkSize = .ok (i * decmpfsChunkSize) := if_pos (by omega)
  rw [remainingBlockSize, hstart, except_ok_bind, sub_eq hi]
  rfl

/-- the first `k` blocks of `fork` hold `v`, the front of contents of length `total` -/
inductive ForkBlocks (fork : List UInt8) (total : ℕ) : ℕ → List UInt8 → Prop where
  | nil : ForkBlocks fork total 0 []
  | snoc {k : ℕ} {v w : List UInt8} (front : ForkBlocks fork total k v)
    (le : entry 4 fork k ≤ entry 4 fork (k + 1)) (inside : entry 4 fork (k + 1) ≤ fork.length)
    (size : w.length = blockSize total k) (packs : Packs (block 4 fork k) w) :
    ForkBlocks fork total (k + 1) (v ++ w)

/-- `fork` is a table of offsets and the blocks of `w` -/
structure IsFork (fork w : List UInt8) : Prop where
  table : (blockCount w.length + 1) * 4 ≤ fork.length
  first : entry 4 fork 0 = (blockCount w.length + 1) * 4
  blocks : ForkBlocks fork w.length (blockCount w.length) w
  last : entry 4 fork (blockCount w.length) = fork.length

theorem ForkBlocks.length {fork v : List UInt8} {total k : ℕ} (h : ForkBlocks fork total k v) :
    v.length = min (k * decmpfsChunkSize) total := by
  induction h with
  | nil => simp
  | snoc front le inside size packs ih =>
    rw [List.length_append, ih, size, Nat.succ_mul, blockSize]
    omega

/-- the next block fits in the contents -/
theorem ForkBlocks.length_next {fork v : List UInt8} {total k : ℕ} (h : ForkBlocks fork total k v)
    (hk : k < blockCount total) : v.length + blockSize total k ≤ total := by
  have hstart := lt_blockCount.1 hk
  rw [h.length, blockSize]
  omega

/-- the blocks of a fork hold one content only -/
theorem ForkBlocks.unique {fork v w : List UInt8} {total k : ℕ} (hv : ForkBlocks fork total k v)
    (hw : ForkBlocks fork total k w) : v = w := by
  induction hv generalizing w with
  | nil => cases hw; rfl
  | snoc _ _ _ size packs ih =>
    cases hw with
    | snoc front' _ _ size' packs' => rw [ih front', packs.unique packs' (size.trans size'.symm)]

/-- the locals of the loop after the first `k` blocks, and the buffer -/
def afterBlocks (fork v dst : List UInt8) (k : ℕ) : EStateM.Result Stop (List UInt8) ForkLocals :=
  .ok ⟨v.length, entry 4 fork k⟩ (v ++ dst.drop v.length)

/-- what the loop over the first `k` blocks does -/
def BlocksYield (fork : List UInt8) (total : ℕ) (dst : List UInt8) (k : ℕ)
    (r : EStateM.Result Stop (List UInt8) ForkLocals) : Prop :=
  (∃ v, ForkBlocks fork total k v ∧ r = afterBlocks fork v dst k) ∨
    (∃ e dst', r = .error (.err e) dst') ∧ ∀ v, ¬ ForkBlocks fork total k v

theorem length_room {v dst : List UInt8} {size : ℕ} (h : v.length + size ≤ dst.length) :
    ((dst.drop v.length).take size).length = size := by
  rw [List.length_take, List.length_drop]
  omega

/-- a write behind what is written so far -/
theorem run_onSlice_behind {α : Type} {v dst : List UInt8} {size : ℕ} (h : v.length + size ≤ dst.length)
    (m : Rust (List UInt8) α) : (onSlice v.length (v.length + size) m).run (v ++ dst.drop v.length) =
      match m.run ((dst.drop v.length).take size) with
      | .ok a part => .ok a (v ++ part ++ dst.drop (v.length + size))
      | .error e part => .error e (v ++ part ++ dst.drop (v.length + size)) := by
  have hbuf : (v ++ dst.drop v.length).length = dst.length := by
    rw [List.length_append, List.length_drop]
    omega
  have hrest : (v ++ dst.drop v.length).drop (v.length + size) = dst.drop (v.length + size) := by
    rw [← List.drop_drop, List.drop_left, List.drop_drop]
  rw [run_onSlice (Nat.le_add_right _ _) (h.trans_eq hbuf.symm), List.drop_left, Nat.add_sub_cancel_left, List.take_left,
    hrest]

theorem ForkBlocks.last_block {fork v : List UInt8} {total k : ℕ} (h : ForkBlocks fork total (k + 1) v) :
    entry 4 fork k ≤ entry 4 fork (k + 1) ∧ entry 4 fork (k + 1) ≤ fork.length ∧
      ∃ w, w.length = blockSize total k ∧ Packs (block 4 fork k) w := by
  cases h with
  | snoc _ le inside size packs => exact ⟨le, inside, _, size, packs⟩

/-- one round of the loop, behind the first `k` blocks -/
theorem decodeForkBlock_yields {u : Usize} {fork v dst : List UInt8} {total k : ℕ} (hmax : total < u.max)
    (hdst : total ≤ dst.length) (hk : k < blockCount total) (htable : (blockCount total + 1) * 4 ≤ fork.length)
    (hv : ForkBlocks fork total k v) : BlocksYield fork total dst (k + 1)
      ((decodeForkBlock u fork total ⟨v.length, entry 4 fork k⟩ k).run (v ++ dst.drop v.length)) := by
  have hsmall := (offsetTableLen_eq hmax.le).2
  have hadd : u.add k 1 = .ok (k + 1) := if_pos (by omega)
  have hnext : readOffset u fork (k + 1) = .ok (entry 4 fork (k + 1)) := readOffset_eq (by omega) (by omega)
  have hfits := hv.length_next hk
  have hsize := remainingBlockSize_eq hmax.le (lt_blockCount.1 hk).le
  have hstop : u.add v.length (blockSize total k) = .ok (v.length + blockSize total k) := if_pos (hfits.trans hmax.le)
  simp only [decodeForkBlock, EStateM.run_bind, hadd, hnext, run_lift_ok]
  by_cases hbad : entry 4 fork (k + 1) < entry 4 fork k ∨ entry 4 fork (k + 1) > fork.length
  · rw [if_pos hbad]
    refine .inr ⟨⟨_, _, rfl⟩, ?_⟩
    intro v' h
    obtain ⟨le, inside, -⟩ := h.last_block
    rcases hbad with hlt | hlt
    · exact absurd le (not_le.2 hlt)
    · exact absurd inside (not_le.2 hlt)
  · rw [if_neg hbad]
    rw [not_or, not_lt, not_lt] at hbad
    have hblock : slice fork (entry 4 fork k) (entry 4 fork (k + 1)) = .ok (block 4 fork k) := slice_eq hbad.1 hbad.2
    have hroom := length_room (hfits.trans hdst)
    have hlt : blockSize total k < u.max := ((Nat.le_add_left _ _).trans hfits).trans_lt hmax
    have hy := decodeLzvnBlock_yields (p := block 4 fork k) hlt hroom.ge
    have hnone (hno : ∀ w, w.length = blockSize total k → ¬ Packs (block 4 fork k) w) :
        ∀ v', ¬ ForkBlocks fork total (k + 1) v' := by
      intro v' h
      obtain ⟨-, -, w, hw, hp⟩ := h.last_block
      exact hno w hw hp
    -- one `rw` for each bind: a `simp` with `run_bind` here compares the remaining ones by unfolding
    rw [hsize, hblock, EStateM.run_bind, run_lift_ok]
    dsimp only
    rw [EStateM.run_bind, run_lift_ok]
    dsimp only
    rw [hstop, EStateM.run_bind, run_lift_ok]
    dsimp only
    rw [EStateM.run_bind, run_onSlice_behind (hfits.trans hdst)]
    cases hr : (decodeLzvnBlock u (block 4 fork k) (blockSize total k)).run
        ((dst.drop v.length).take (blockSize total k)) with
    | error e part =>
      rw [hr] at hy
      cases e with
      | panic => exact absurd rfl hy.1
      | err e => exact .inr ⟨⟨_, _, rfl⟩, hnone hy.2⟩
    | ok n part =>
      rw [hr] at hy
      unfold Yields at hy
      dsimp only at hy ⊢
      split_ifs at hy with hn
      · obtain ⟨w, hw, hp, rfl⟩ := hy
        refine .inl ⟨v ++ w, hv.snoc hbad.1 hbad.2 hw hp, ?_⟩
        rw [if_neg (not_not.2 hn), List.drop_of_length_le hroom.le, List.append_nil, ← hw, ← List.length_append]
        rfl
      · rw [if_pos hn]
        exact .inr ⟨⟨_, _, rfl⟩, hnone hy⟩

/-- the loop over one more block -/
theorem run_forkBlocks_succ (u : Usize) (fork : List UInt8) (total k : ℕ) (l : ForkLocals) (dst : List UInt8) :
    (decodeForkBlocks u fork total (k + 1) l).run dst = match (decodeForkBlocks u fork total k l).run dst with
      | .ok l dst => (decodeForkBlock u fork total l k).run dst
      | .error e dst => .error e dst := by
  simp only [decodeForkBlocks, List.range_succ, List.foldlM_append, EStateM.run_bind, List.foldlM_cons, List.foldlM_nil,
    bind_pure]
  cases EStateM.run (List.foldlM (decodeForkBlock u fork total) l (List.range k)) dst <;> rfl

/-- **The loop over the blocks** decodes exactly the forks whose blocks are good. -/
theorem decodeForkBlocks_yields {u : Usize} {fork dst : List UInt8} {total : ℕ} (hmax : total < u.max)
    (hdst : total ≤ dst.length) (htable : (blockCount total + 1) * 4 ≤ fork.length) (k : ℕ)
    (hk : k ≤ blockCount total) : BlocksYield fork total dst k
      ((decodeForkBlocks u fork total k ⟨0, entry 4 fork 0⟩).run dst) := by
  induction k with
  | zero => exact .inl ⟨[], .nil, rfl⟩
  | succ k ih =>
    rw [run_forkBlocks_succ]
    rcases ih (by omega) with ⟨v, hv, hr⟩ | ⟨⟨e, dst', hr⟩, hno⟩
    · rw [hr]
      exact decodeForkBlock_yields hmax hdst (by omega) htable hv
    · rw [hr]
      refine .inr ⟨⟨e, dst', rfl⟩, ?_⟩
      intro v h
      cases h with
      | snoc front => exact hno _ front

/-- **`decode_lzvn_resource_fork`** decodes exactly the forks of the expected length. -/
theorem decodeLzvnResourceFork_yields {u : Usize} (fork : List UInt8) {dst : List UInt8} {total : ℕ} (hmax : total < u.max)
    (hdst : total ≤ dst.length) : Yields ((decodeLzvnResourceFork u fork total).run dst) total dst (IsFork fork) := by
  obtain ⟨htableLen, hsmall⟩ := offsetTableLen_eq hmax.le
  have hfails {e : Error} {dst' : List UInt8} (hno : ∀ w, w.length = total → ¬ IsFork fork w) :
      Yields (.error (.err e) dst') total dst (IsFork fork) := ⟨by simp, hno⟩
  simp only [decodeLzvnResourceFork, EStateM.run_bind, htableLen, run_lift_ok]
  by_cases hshort : fork.length < (blockCount total + 1) * 4
  · rw [if_pos hshort]
    refine hfails ?_
    intro w hw h
    have := h.table
    rw [hw] at this
    omega
  · rw [if_neg hshort]
    have hfirst : readOffset u fork 0 = .ok (entry 4 fork 0) := readOffset_eq (by omega) (by omega)
    simp only [EStateM.run_bind, hfirst, run_lift_ok]
    by_cases hne : entry 4 fork 0 ≠ (blockCount total + 1) * 4
    · rw [if_pos hne]
      exact hfails fun w hw h => hne (by rw [h.first, hw])
    · rw [if_neg hne]
      rw [not_not] at hne
      have hblocks := decodeForkBlocks_yields hmax hdst (not_lt.1 hshort) _ le_rfl
      by_cases hzero : blockCount total = 0
      · have htotal : total = 0 := Nat.le_zero.1 (not_lt.1 fun h => by
          have := lt_blockCount.2 (show 0 * decmpfsChunkSize < total by omega)
          omega)
        subst htotal
        rw [if_pos hzero]
        by_cases hlast : entry 4 fork 0 ≠ fork.length
        · rw [if_pos hlast]
          refine hfails fun w hw h => hlast ?_
          have := h.last
          rwa [hw, hzero] at this
        · rw [if_neg hlast]
          refine ⟨[], rfl, ⟨not_lt.1 hshort, hne, ?_, not_not.1 hlast⟩, rfl⟩
          exact .nil
      · rw [if_neg hzero, EStateM.run_bind]
        rw [hne] at hblocks ⊢
        rcases hblocks with ⟨v, hv, hr⟩ | ⟨⟨e, dst', hr⟩, hno⟩
        · have hlen : v.length = total := by
            have := hv.length
            have := lt_blockCount.not.1 (lt_irrefl (blockCount total))
            omega
          rw [hr, afterBlocks]
          dsimp only
          by_cases hlast : entry 4 fork (blockCount total) ≠ fork.length
          · rw [if_pos hlast]
            exact hfails fun w hw h => hlast (by have := h.last; rwa [hw] at this)
          · rw [if_neg hlast]
            subst hlen
            show Yields (.ok v.length (v ++ dst.drop v.length)) v.length dst (IsFork fork)
            rw [Yields, if_pos rfl]
            exact ⟨v, rfl, ⟨not_lt.1 hshort, hne, hv, not_not.1 hlast⟩, rfl⟩
        · rw [hr]
          refine hfails fun w hw h => hno w ?_
          have := h.blocks
          rwa [hw] at this

/-! ## Wrappers -/

/-- a wrapper of this type, with this payload and fork, holds `w` -/
def Holds (kind : DecmpfsCompressionType) (payload : List UInt8) (fork : Option (List UInt8)) (w : List UInt8) : Prop :=
  match kind with
  | .lzvnXattr => Packs payload w
  | .lzvnResourceFork => payload = [] ∧ ∃ f, fork = some f ∧ IsFork f w
  | _ => False

theorem Holds.unique {kind : DecmpfsCompressionType} {payload v w : List UInt8} {fork : Option (List UInt8)}
    (hv : Holds kind payload fork v) (hw : Holds kind payload fork w) (hlen : v.length = w.length) : v = w := by
  cases kind with
  | lzvnXattr => exact Packs.unique hv hw hlen
  | lzvnResourceFork =>
    obtain ⟨-, f, rfl, hv⟩ := hv
    obtain ⟨-, f', hf, hw⟩ := hw
    cases hf
    have hb := hv.blocks
    rw [hlen] at hb
    exact hb.unique hw.blocks
  | _ => exact hv.elim

theorem decodeBody_yields {u : Usize} {header : DecmpfsHeader} (payload : List UInt8) (fork : Option (List UInt8))
    {dst : List UInt8} (hmax : header.uncompressedSize < u.max) (hdst : header.uncompressedSize ≤ dst.length) :
    Yields ((decodeBody u header payload fork).run dst) header.uncompressedSize dst
      (Holds header.compressionType payload fork) := by
  obtain ⟨kind, size⟩ := header
  have hfails {e : Error} {P : List UInt8 → Prop} (hno : ∀ w, w.length = size → ¬ P w) :
      Yields (.error (.err e) dst) size dst P := ⟨by simp, hno⟩
  unfold decodeBody
  cases kind with
  | lzvnXattr => exact decodeLzvnBlock_yields hmax hdst
  | lzvnResourceFork =>
    dsimp only
    by_cases hne : payload ≠ []
    · rw [if_pos hne]
      exact hfails fun w _ h => hne h.1
    · rw [if_neg hne]
      rw [not_not] at hne
      cases fork with
      | none =>
        refine hfails ?_
        intro w _ h
        obtain ⟨-, f, hf, -⟩ := h
        cases hf
      | some f =>
        have hy := decodeLzvnResourceFork_yields f hmax hdst
        have hiff : Holds .lzvnResourceFork payload (some f) = IsFork f := by
          funext w
          simp [Holds, hne]
        rw [hiff]
        exact hy
  | zlibXattr => exact hfails fun _ _ => id
  | zlibResourceFork => exact hfails fun _ _ => id
  | rawXattr => exact hfails fun _ _ => id
  | rawResourceFork => exact hfails fun _ _ => id
  | lzfseXattr => exact hfails fun _ _ => id
  | lzfseResourceFork => exact hfails fun _ _ => id
  | lzBitmapXattr => exact hfails fun _ _ => id
  | lzBitmapResourceFork => exact hfails fun _ _ => id
  | unknown value => exact hfails fun _ _ => id

theorem isizeMax_lt (u : Usize) : u.isizeMax < u.max := by
  cases u <;> decide

/-- what `decode` does with a header, in terms of what the wrapper holds -/
theorem decode_yields {u : Usize} {xattr : List UInt8} (fork : Option (List UInt8)) {header : DecmpfsHeader}
    (hp : parseHeader u xattr = .ok header) : if u.isizeMax < header.uncompressedSize then
      decode u xattr fork = .error .panic
    else (∃ w, w.length = header.uncompressedSize ∧
        Holds header.compressionType (xattr.drop decmpfsHeaderLen) fork w ∧ decode u xattr fork = .ok w) ∨
      (∃ e, decode u xattr fork = .error (.err e)) ∧
        ∀ w, w.length = header.uncompressedSize → ¬ Holds header.compressionType (xattr.drop decmpfsHeaderLen) fork w := by
  unfold decode
  rw [splitXattr_eq hp, except_ok_bind]
  split_ifs with hmax
  · have hzeros : u.zeros header.uncompressedSize = .error .panic := if_neg (not_le.2 hmax)
    simp only [hzeros]
    rfl
  · have hzeros : u.zeros header.uncompressedSize = .ok (List.replicate header.uncompressedSize 0) :=
      if_pos (not_lt.1 hmax)
    have hroom : header.uncompressedSize ≤ (List.replicate header.uncompressedSize (0 : UInt8)).length :=
      List.length_replicate.ge
    have hy := decodeBody_yields (xattr.drop decmpfsHeaderLen) fork ((not_lt.1 hmax).trans_lt (isizeMax_lt u)) hroom
    simp only [hzeros, except_ok_bind]
    cases hr : (decodeBody u header (xattr.drop decmpfsHeaderLen) fork).run
        (List.replicate header.uncompressedSize 0) with
    | ok n dst =>
      rw [hr, Yields] at hy
      dsimp only
      split_ifs at hy with hn
      · obtain ⟨w, hw, hh, rfl⟩ := hy
        refine .inl ⟨w, hw, hh, ?_⟩
        rw [if_neg (not_not.2 hn), List.drop_of_length_le (by simp), List.append_nil]
        rfl
      · rw [if_pos hn]
        exact .inr ⟨⟨_, rfl⟩, hy⟩
    | error e dst =>
      rw [hr] at hy
      cases e with
      | panic => exact absurd rfl hy.1
      | err e => exact .inr ⟨⟨e, rfl⟩, hy.2⟩

/-- **`decode` returns `Ok` exactly on what the wrapper holds**, up to `isize::MAX` bytes. -/
theorem decode_ok_iff {u : Usize} {xattr v : List UInt8} {fork : Option (List UInt8)} : decode u xattr fork = .ok v ↔
    ∃ header, parseHeader u xattr = .ok header ∧ header.uncompressedSize ≤ u.isizeMax ∧
      v.length = header.uncompressedSize ∧ Holds header.compressionType (xattr.drop decmpfsHeaderLen) fork v := by
  cases hp : parseHeader u xattr with
  | error e => simp [decode, splitXattr_error hp]
  | ok header =>
    have hy := decode_yields fork hp
    simp only [Except.ok.injEq, exists_eq_left']
    split_ifs at hy with hmax
    · rw [hy]
      simp only [reduceCtorEq, false_iff]
      omega
    · rcases hy with ⟨w, hw, hh, hd⟩ | ⟨⟨e, hd⟩, hno⟩
      · rw [hd, Except.ok.injEq]
        constructor
        · rintro rfl
          exact ⟨not_lt.1 hmax, hw, hh⟩
        · intro h
          rcases h with ⟨-, hv, hh'⟩
          exact hh.unique hh' (hw.trans hv.symm)
      · rw [hd]
        simp only [reduceCtorEq, false_iff]
        intro h
        rcases h with ⟨-, hv, hh⟩
        exact hno v hv hh

/-- `decode` panics when it cannot allocate the declared size, and only then -/
theorem decode_panic_iff {u : Usize} {xattr : List UInt8} {fork : Option (List UInt8)} :
    decode u xattr fork = .error .panic ↔
      ∃ header, parseHeader u xattr = .ok header ∧ u.isizeMax < header.uncompressedSize := by
  cases hp : parseHeader u xattr with
  | error e =>
    have hne := parseHeader_ne_panic u xattr
    rw [hp] at hne
    simpa [decode, splitXattr_error hp] using hne
  | ok header =>
    have hy := decode_yields fork hp
    simp only [Except.ok.injEq, exists_eq_left']
    split_ifs at hy with hmax
    · exact iff_of_true hy hmax
    · refine iff_of_false ?_ hmax
      rcases hy with ⟨w, -, -, hd⟩ | ⟨⟨e, hd⟩, -⟩
      · rw [hd]; simp
      · rw [hd]; simp

/-- `decode_into` never panics -/
theorem decodeInto_ne_panic (u : Usize) (xattr : List UInt8) (fork : Option (List UInt8)) (dst : Slice u)
    (dst' : List UInt8) : (decodeInto u xattr fork).run dst.bytes ≠ .error .panic dst' := by
  cases hp : parseHeader u xattr with
  | error e =>
    have hne := parseHeader_ne_panic u xattr
    rw [hp] at hne
    simp only [decodeInto, EStateM.run_bind, splitXattr_error hp, run_lift_error]
    intro h
    cases h
    exact hne rfl
  | ok header =>
    simp only [decodeInto, EStateM.run_bind, splitXattr_eq hp, run_lift_ok, EStateM.run_get]
    by_cases hshort : dst.bytes.length < header.uncompressedSize
    · rw [if_pos hshort]
      exact fun h => by cases h
    · rw [if_neg hshort, EStateM.run_bind]
      have hmax := (not_lt.1 hshort).trans_lt (dst.length_le.trans_lt (isizeMax_lt u))
      have hy := decodeBody_yields (xattr.drop decmpfsHeaderLen) fork hmax (not_lt.1 hshort)
      cases hr : (decodeBody u header (xattr.drop decmpfsHeaderLen) fork).run dst.bytes with
      | ok n part =>
        dsimp only
        split_ifs
        · exact fun h => by cases h
        · exact fun h => by cases h
      | error e part =>
        rw [hr] at hy
        intro h
        cases h
        exact hy.1 rfl

end Lzvn.Apple.Decmpfs
