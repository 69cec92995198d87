/-
The whole behaviour of `decmpfs` decoding: what it returns and what it leaves in the buffer, for every wrapper, every fork and
every buffer, also where it fails.

- `BlockReports`: what is reported of a block on its own, in terms of the raw decoder's `Decodes`.
- `ForkReports`: what is reported of a fork. The first block that is bad, by its offsets or on its own, decides.
- `WrapperReports`: what is reported of a wrapper.
- `wrapper_decoders_report`: the decoders return exactly that, with the output of the good blocks and of the part of the bad one in front
  of the rest of the buffer.
-/
import Lzvn.Apple.DecmpfsGrammar
import Lzvn.Raw.Verdict

namespace Lzvn.Apple.Decmpfs

open Lzvn.Core Lzvn.Core.OffsetTable
open Lzvn.Raw (IsStream Decodes leaves sized returns)

/-! ## Blocks -/

/-- what `decode_lzvn_block` reports of a block of `size` bytes, and its output -/
inductive BlockReports (p : List UInt8) (size : ℕ) : List UInt8 → Except Error ℕ → Prop where
  | stored {w : List UInt8} (bytes : p = lzvnUncompressedSentinel :: w) (length : w.length = size) :
    BlockReports p size w (.ok size)
  | stream {out : List UInt8} {report : Except Error ℕ}
    (other : ∀ w, p = lzvnUncompressedSentinel :: w → w.length ≠ size) (decodes : Decodes p size out report) :
    BlockReports p size out report

theorem exists_blockReports (p : List UInt8) (size : ℕ) : ∃ out report, BlockReports p size out report := by
  by_cases h : ∃ w, p = lzvnUncompressedSentinel :: w ∧ w.length = size
  · obtain ⟨w, hp, hw⟩ := h
    exact ⟨w, _, .stored hp hw⟩
  · obtain ⟨out, report, hd⟩ := Raw.exists_decodes p size
    exact ⟨out, report, .stream (fun w hp hw => h ⟨w, hp, hw⟩) hd⟩

/-- a stream that is reported as good is a stream -/
theorem isStream_of_decodes {p out : List UInt8} {size n : ℕ} (h : Decodes p size out (.ok n)) :
    IsStream p out ∧ out.length = n := by
  obtain ⟨body, rest, w, rfl, ⟨steps, hprogram, hreplay⟩, rfl, -, hreports⟩ := h
  cases hreports with
  | @ok padding bytes pad =>
    have hzeros : padding = List.replicate padding.length 0 := List.eq_replicate_iff.2 ⟨rfl, pad.1⟩
    exact ⟨⟨body, steps, padding.length, w, by rw [bytes, ← hzeros], pad.2, hprogram, hreplay, rfl⟩, rfl⟩

theorem BlockReports.length_le {p out : List UInt8} {size : ℕ} {report : Except Error ℕ}
    (h : BlockReports p size out report) : out.length ≤ size := by
  cases h with
  | stored _ length => exact length.le
  | stream _ decodes =>
    obtain ⟨_, _, _, -, -, -, hfit, -⟩ := decodes
    exact hfit

/-- a block that is reported as good packs its output -/
theorem BlockReports.packs {p out : List UInt8} {size n : ℕ} (h : BlockReports p size out (.ok n)) :
    Packs p out ∧ out.length = n := by
  cases h with
  | stored bytes length => exact ⟨.inl bytes, length⟩
  | stream _ decodes =>
    obtain ⟨hs, hlen⟩ := isStream_of_decodes decodes
    exact ⟨.inr hs, hlen⟩

/-- the front of a buffer, without its own front, and what is behind it -/
theorem drop_take_append {dst : List UInt8} {n size : ℕ} (hn : n ≤ size) (hdst : size ≤ dst.length) :
    (dst.take size).drop n ++ dst.drop size = dst.drop n := by
  have hlen : n ≤ (dst.take size).length := by
    rw [List.length_take]
    omega
  rw [← List.drop_append_of_le_length hlen, List.take_append_drop]

/-- **`decode_lzvn_block`** does what is reported. -/
theorem run_blockReports {u : Usize} {p out dst : List UInt8} {size : ℕ} {report : Except Error ℕ} (hmax : size < u.max)
    (hdst : size ≤ dst.length) (h : BlockReports p size out report) :
    (decodeLzvnBlock u p size).run dst = leaves report (out ++ dst.drop out.length) := by
  have hsat : u.saturatingAdd size 1 = size + 1 := min_eq_left hmax
  have hle := h.length_le
  unfold decodeLzvnBlock
  rw [hsat]
  cases h with
  | stored bytes length =>
    subst bytes
    have hcond : (lzvnUncompressedSentinel :: out).length = size + 1 ∧
        (lzvnUncompressedSentinel :: out).head? = some lzvnUncompressedSentinel := ⟨by rw [List.length_cons, length], rfl⟩
    have hslice : slice (lzvnUncompressedSentinel :: out) 1 (lzvnUncompressedSentinel :: out).length = .ok out := by
      rw [slice_eq (by simp) le_rfl]
      simp
    have hcopy : copyFromSlice dst 0 size out = .ok (out ++ dst.drop size) := by
      rw [copyFromSlice_eq (Nat.zero_le _) hdst (by omega)]
      simp
    rw [if_pos hcond]
    simp only [EStateM.run_bind, hslice, run_lift_ok, EStateM.run_get, hcopy, EStateM.run_set, EStateM.run_pure, length]
    rfl
  | stream other decodes =>
    have hcond : ¬ (p.length = size + 1 ∧ p.head? = some lzvnUncompressedSentinel) := by
      rintro ⟨hlen, hhead⟩
      cases p with
      | nil => cases hhead
      | cons b w =>
        rw [List.head?_cons, Option.some.injEq] at hhead
        exact other w (by rw [hhead]) (Nat.succ.inj hlen)
    have htake : (dst.take size).length = size := by
      rw [List.length_take]
      omega
    have hpart : Decodes p (dst.take size).length out report := by rwa [htake]
    have hrun := Raw.run_decodes hpart
    rw [if_neg hcond, run_onSlice (Nat.zero_le _) hdst, List.drop_zero, Nat.sub_zero, hrun]
    cases report <;>
      simp only [leaves, List.take_zero, List.nil_append, List.append_assoc, drop_take_append hle hdst]

/-! ## The loop over the blocks -/

/-- a run that stops with an error, and leaves `out` in front of the rest of the buffer -/
def stops {α : Type} (e : Error) (out dst : List UInt8) : EStateM.Result Stop (List UInt8) α :=
  .error (.err e) (out ++ dst.drop out.length)

/-- what is wrong with block `k` of `fork`, and the output that the part in front of that gives -/
inductive BadBlock (fork : List UInt8) (total k : ℕ) : List UInt8 → Error → Prop where
  | offsets (bad : entry 4 fork (k + 1) < entry 4 fork k ∨ fork.length < entry 4 fork (k + 1)) :
    BadBlock fork total k [] (.invalidResourceFork "block offsets are invalid")
  | content {part : List UInt8} {report : Except Error ℕ} {e : Error} (le : entry 4 fork k ≤ entry 4 fork (k + 1))
    (inside : entry 4 fork (k + 1) ≤ fork.length)
    (block : BlockReports (block 4 fork k) (blockSize total k) part report)
    (bad : sized (blockSize total k) report = .error e) : BadBlock fork total k part e

/-- a block is good, or something is wrong with it -/
theorem good_or_bad (fork : List UInt8) (total k : ℕ) :
    (entry 4 fork k ≤ entry 4 fork (k + 1) ∧ entry 4 fork (k + 1) ≤ fork.length ∧ ∃ w, w.length = blockSize total k ∧
        Packs (block 4 fork k) w) ∨ ∃ part e, BadBlock fork total k part e := by
  by_cases hoffsets : entry 4 fork (k + 1) < entry 4 fork k ∨ fork.length < entry 4 fork (k + 1)
  · exact .inr ⟨_, _, .offsets hoffsets⟩
  · rw [not_or, not_lt, not_lt] at hoffsets
    obtain ⟨part, report, hblock⟩ := exists_blockReports (block 4 fork k) (blockSize total k)
    cases hsized : sized (blockSize total k) report with
    | error e => exact .inr ⟨part, e, .content hoffsets.1 hoffsets.2 hblock hsized⟩
    | ok n =>
      left
      cases report with
      | error e => cases hsized
      | ok m =>
        obtain ⟨hpacks, hlen⟩ := hblock.packs
        simp only [sized] at hsized
        split_ifs at hsized with hm
        exact ⟨hoffsets.1, hoffsets.2, part, hlen.trans hm, hpacks⟩

/-- the first blocks are good up to the first one that is bad -/
theorem forkBlocks_or_bad (fork : List UInt8) (total k : ℕ) : (∃ v, ForkBlocks fork total k v) ∨
    ∃ j < k, ∃ v part e, ForkBlocks fork total j v ∧ BadBlock fork total j part e := by
  induction k with
  | zero => exact .inl ⟨[], .nil⟩
  | succ k ih =>
    rcases ih with ⟨v, hv⟩ | ⟨j, hj, hbad⟩
    · rcases good_or_bad fork total k with ⟨hle, hinside, w, hw, hpacks⟩ | ⟨part, e, hbad⟩
      · exact .inl ⟨_, hv.snoc hle hinside hw hpacks⟩
      · exact .inr ⟨k, Nat.lt_succ_self k, v, part, e, hv, hbad⟩
    · exact .inr ⟨j, Nat.lt_succ_of_lt hj, hbad⟩

section
variable {u : Usize} {fork dst v part : List UInt8} {total k j : ℕ} {e : Error}

/-- what a round writes behind `v` -/
theorem fill_behind (v : List UInt8) {size : ℕ} (hpart : part.length ≤ size) (hdst : v.length + size ≤ dst.length) :
    v ++ (part ++ ((dst.drop v.length).take size).drop part.length) ++ dst.drop (v.length + size) =
      (v ++ part) ++ dst.drop (v ++ part).length := by
  have hroom : size ≤ (dst.drop v.length).length := by
    rw [List.length_drop]
    omega
  rw [List.append_assoc, List.append_assoc, ← List.drop_drop, drop_take_append hpart hroom, List.drop_drop,
    ← List.length_append, List.append_assoc]

/-- the round for a bad block stops there -/
theorem run_badBlock (hmax : total < u.max) (hdst : total ≤ dst.length) (hk : k < blockCount total)
    (htable : (blockCount total + 1) * 4 ≤ fork.length) (hv : ForkBlocks fork total k v) (hbad : BadBlock fork total k part e) :
    (decodeForkBlock u fork total ⟨v.length, entry 4 fork k⟩ k).run (v ++ dst.drop v.length) = stops e (v ++ part) dst := by
  have hsmall := (offsetTableLen_eq hmax.le).2
  have hadd : u.add k 1 = .ok (k + 1) := if_pos (by omega)
  have hnext : readOffset u fork (k + 1) = .ok (entry 4 fork (k + 1)) := readOffset_eq (by omega) (by omega)
  have hfits := hv.length_next hk
  have hsize := remainingBlockSize_eq hmax.le (lt_blockCount.1 hk).le
  have hstop : u.add v.length (blockSize total k) = .ok (v.length + blockSize total k) := if_pos (hfits.trans hmax.le)
  simp only [decodeForkBlock, EStateM.run_bind, hadd, hnext, run_lift_ok]
  cases hbad with
  | offsets bad =>
    rw [if_pos bad, List.append_nil]
    rfl
  | @content part report e le inside hblock bad =>
    have hslice : slice fork (entry 4 fork k) (entry 4 fork (k + 1)) = .ok (block 4 fork k) := slice_eq le inside
    have hroom := length_room (hfits.trans hdst)
    have hlt : blockSize total k < u.max := ((Nat.le_add_left _ _).trans hfits).trans_lt hmax
    have hrun := run_blockReports hlt hroom.ge hblock
    rw [if_neg (not_or.2 ⟨not_lt.2 le, not_lt.2 inside⟩)]
    -- one `rw` for each bind: a `simp` with `run_bind` here compares the remaining ones by unfolding
    rw [hsize, hslice, EStateM.run_bind, run_lift_ok]
    dsimp only
    rw [EStateM.run_bind, run_lift_ok]
    dsimp only
    rw [hstop, EStateM.run_bind, run_lift_ok]
    dsimp only
    rw [EStateM.run_bind, run_onSlice_behind (hfits.trans hdst), hrun]
    cases report with
    | error e' =>
      cases bad
      exact congrArg (EStateM.Result.error (Stop.err e)) (fill_behind v hblock.length_le (hfits.trans hdst))
    | ok n =>
      simp only [sized] at bad
      split_ifs at bad with hn
      cases bad
      simp only [leaves, if_pos (show n ≠ blockSize total k from hn)]
      exact congrArg (EStateM.Result.error _) (fill_behind v hblock.length_le (hfits.trans hdst))

theorem run_goodBlocks (hmax : total < u.max) (hdst : total ≤ dst.length) (htable : (blockCount total + 1) * 4 ≤ fork.length)
    (hk : k ≤ blockCount total) (hv : ForkBlocks fork total k v) :
    (decodeForkBlocks u fork total k ⟨0, entry 4 fork 0⟩).run dst = afterBlocks fork v dst k := by
  rcases decodeForkBlocks_yields hmax hdst htable k hk with ⟨v', hv', hrun⟩ | ⟨-, hno⟩
  · rw [hrun, hv.unique hv']
  · exact absurd hv (hno v)

/-- **The first bad block** stops the loop. -/
theorem run_firstBad (hmax : total < u.max) (hdst : total ≤ dst.length) (htable : (blockCount total + 1) * 4 ≤ fork.length)
    (hv : ForkBlocks fork total j v) (hbad : BadBlock fork total j part e) (hj : j < k) (hk : k ≤ blockCount total) :
    (decodeForkBlocks u fork total k ⟨0, entry 4 fork 0⟩).run dst = stops e (v ++ part) dst := by
  induction k with
  | zero => cases hj
  | succ k ih =>
    rw [run_forkBlocks_succ]
    rcases Nat.lt_succ_iff_lt_or_eq.1 hj with hlt | rfl
    · rw [ih hlt (Nat.le_of_succ_le hk)]
      rfl
    · rw [run_goodBlocks hmax hdst htable (Nat.le_of_succ_le hk) hv]
      exact run_badBlock hmax hdst hk htable hv hbad

end

/-! ## Forks -/

/-- a table of the right size, as far as its first entry says -/
structure Opens (fork : List UInt8) (total : ℕ) : Prop where
  inside : (blockCount total + 1) * 4 ≤ fork.length
  first : entry 4 fork 0 = (blockCount total + 1) * 4

/-- what `decode_lzvn_resource_fork` reports of a fork of `total` bytes, and its output -/
inductive ForkReports (fork : List UInt8) (total : ℕ) : List UInt8 → Except Error ℕ → Prop where
  | truncated (short : fork.length < (blockCount total + 1) * 4) :
    ForkReports fork total [] (.error (.invalidResourceFork "offset table is truncated"))
  | first (inside : (blockCount total + 1) * 4 ≤ fork.length) (bad : entry 4 fork 0 ≠ (blockCount total + 1) * 4) :
    ForkReports fork total [] (.error (.invalidResourceFork "first block offset does not match offset table size"))
  | block {j : ℕ} {v part : List UInt8} {e : Error} (opens : Opens fork total) (lt : j < blockCount total)
    (front : ForkBlocks fork total j v) (bad : BadBlock fork total j part e) : ForkReports fork total (v ++ part) (.error e)
  | last {v : List UInt8} (opens : Opens fork total) (front : ForkBlocks fork total (blockCount total) v)
    (bad : entry 4 fork (blockCount total) ≠ fork.length) :
    ForkReports fork total v (.error (.invalidResourceFork (if blockCount total = 0 then "empty resource fork has trailing data"
      else "last block offset does not reach end of resource fork")))
  | ok {v : List UInt8} (opens : Opens fork total) (front : ForkBlocks fork total (blockCount total) v)
    (last : entry 4 fork (blockCount total) = fork.length) : ForkReports fork total v (.ok v.length)

theorem exists_forkReports (fork : List UInt8) (total : ℕ) : ∃ out report, ForkReports fork total out report := by
  by_cases hinside : (blockCount total + 1) * 4 ≤ fork.length
  · by_cases hfirst : entry 4 fork 0 = (blockCount total + 1) * 4
    · rcases forkBlocks_or_bad fork total (blockCount total) with ⟨v, hv⟩ | ⟨j, hj, v, part, e, hv, hbad⟩
      · by_cases hlast : entry 4 fork (blockCount total) = fork.length
        · exact ⟨_, _, .ok ⟨hinside, hfirst⟩ hv hlast⟩
        · exact ⟨_, _, .last ⟨hinside, hfirst⟩ hv hlast⟩
      · exact ⟨_, _, .block ⟨hinside, hfirst⟩ hj hv hbad⟩
    · exact ⟨_, _, .first hinside hfirst⟩
  · exact ⟨_, _, .truncated (not_le.1 hinside)⟩

/-- what a fork does once its table is there -/
theorem run_opened {u : Usize} {fork dst : List UInt8} {total : ℕ} (hmax : total < u.max) (h : Opens fork total) :
    (decodeLzvnResourceFork u fork total).run dst =
      if blockCount total = 0 then
        if entry 4 fork 0 ≠ fork.length then .error (.err (.invalidResourceFork "empty resource fork has trailing data")) dst
        else .ok 0 dst
      else match (decodeForkBlocks u fork total (blockCount total) ⟨0, entry 4 fork 0⟩).run dst with
        | .ok l dst =>
          if l.previousOffset ≠ fork.length then
            .error (.err (.invalidResourceFork "last block offset does not reach end of resource fork")) dst
          else .ok l.produced dst
        | .error e dst => .error e dst := by
  obtain ⟨htableLen, hsmall⟩ := offsetTableLen_eq hmax.le
  have hinside := h.inside
  have hfirst : readOffset u fork 0 = .ok (entry 4 fork 0) := readOffset_eq (by omega) (by omega)
  simp only [decodeLzvnResourceFork, EStateM.run_bind, htableLen, run_lift_ok, if_neg (not_lt.2 hinside), hfirst,
    if_neg (not_not.2 h.first)]
  by_cases hzero : blockCount total = 0
  · simp only [if_pos hzero]
    split_ifs <;> rfl
  · simp only [if_neg hzero, EStateM.run_bind]
    cases (decodeForkBlocks u fork total (blockCount total) ⟨0, entry 4 fork 0⟩).run dst with
    | error e dst => rfl
    | ok l dst =>
      dsimp only
      split_ifs <;> rfl

/-- **`decode_lzvn_resource_fork`** does what is reported. -/
theorem run_forkReports {u : Usize} {fork dst out : List UInt8} {total : ℕ} {report : Except Error ℕ} (hmax : total < u.max)
    (hdst : total ≤ dst.length) (h : ForkReports fork total out report) :
    (decodeLzvnResourceFork u fork total).run dst = leaves report (out ++ dst.drop out.length) := by
  obtain ⟨htableLen, hsmall⟩ := offsetTableLen_eq hmax.le
  cases h with
  | truncated short =>
    simp only [decodeLzvnResourceFork, EStateM.run_bind, htableLen, run_lift_ok, if_pos short]
    rfl
  | first inside bad =>
    have hfirst : readOffset u fork 0 = .ok (entry 4 fork 0) := readOffset_eq (by omega) (by omega)
    simp only [decodeLzvnResourceFork, EStateM.run_bind, htableLen, run_lift_ok, if_neg (not_lt.2 inside), hfirst, if_pos bad]
    rfl
  | @block j v part e opens lt front bad =>
    rw [run_opened hmax opens, if_neg (Nat.ne_zero_of_lt lt), run_firstBad hmax hdst opens.inside front bad lt le_rfl]
    rfl
  | last opens front bad =>
    rw [run_opened hmax opens]
    by_cases hzero : blockCount total = 0
    · rw [hzero] at front bad
      cases front
      rw [if_pos hzero, if_pos hzero, if_pos bad]
      rfl
    · rw [if_neg hzero, if_neg hzero, run_goodBlocks hmax hdst opens.inside le_rfl front]
      exact if_pos bad
  | ok opens front last =>
    rw [run_opened hmax opens]
    by_cases hzero : blockCount total = 0
    · rw [hzero] at front last
      cases front
      rw [if_pos hzero, if_neg (not_not.2 last)]
      rfl
    · rw [if_neg hzero, run_goodBlocks hmax hdst opens.inside le_rfl front]
      exact if_neg (not_not.2 last)

/-! ## Wrappers -/

/-- what `parse_header` reports of an xattr that has no header -/
inductive HeaderFails (u : Usize) (xattr : List UInt8) : Error → Prop where
  | truncated (short : xattr.length < decmpfsHeaderLen) : HeaderFails u xattr (.truncatedInput xattr.length)
  | magic (long : decmpfsHeaderLen ≤ xattr.length) (bad : leValue (xattr.take 4) ≠ decmpfsMagic) :
    HeaderFails u xattr (.invalidDecmpfsMagic (leValue (xattr.take 4)))
  | size (long : decmpfsHeaderLen ≤ xattr.length) (magic : leValue (xattr.take 4) = decmpfsMagic)
    (large : u.max < leValue ((xattr.drop 8).take 8)) :
    HeaderFails u xattr (.sizeOverflow u.max u.max "decmpfs uncompressed size")

/-- `parse_header` behind the check of the length -/
theorem parseHeader_eq {u : Usize} {xattr : List UInt8} (h : decmpfsHeaderLen ≤ xattr.length) : parseHeader u xattr =
    if leValue (xattr.take 4) ≠ decmpfsMagic then fail (.invalidDecmpfsMagic (leValue (xattr.take 4)))
    else if u.max < leValue ((xattr.drop 8).take 8) then fail (.sizeOverflow u.max u.max "decmpfs uncompressed size")
    else .ok ⟨.fromRaw (leValue ((xattr.drop 4).take 4)), leValue ((xattr.drop 8).take 8)⟩ := by
  have hlen : 16 ≤ xattr.length := h
  unfold parseHeader
  rw [if_neg (not_lt.2 h), fromLeBytes_inside (by decide) (by omega), fromLeBytes_inside (by decide) (by omega),
    fromLeBytes_inside (by decide) (by omega)]
  simp only [except_ok_bind, List.drop_zero, Nat.sub_zero]
  split_ifs <;> rfl

theorem HeaderFails.parseHeader_eq {u : Usize} {xattr : List UInt8} {e : Error} (h : HeaderFails u xattr e) :
    parseHeader u xattr = .error (.err e) := by
  cases h with
  | truncated short => exact if_pos short
  | magic long bad => rw [Decmpfs.parseHeader_eq long, if_pos bad]; rfl
  | size long magic large => rw [Decmpfs.parseHeader_eq long, if_neg (not_not.2 magic), if_pos large]; rfl

theorem header_or_fails (u : Usize) (xattr : List UInt8) :
    (∃ header, parseHeader u xattr = .ok header) ∨ ∃ e, HeaderFails u xattr e := by
  by_cases hlong : decmpfsHeaderLen ≤ xattr.length
  · by_cases hmagic : leValue (xattr.take 4) = decmpfsMagic
    · by_cases hlarge : u.max < leValue ((xattr.drop 8).take 8)
      · exact .inr ⟨_, .size hlong hmagic hlarge⟩
      · exact .inl ⟨_, by rw [parseHeader_eq hlong, if_neg (not_not.2 hmagic), if_neg hlarge]⟩
    · exact .inr ⟨_, .magic hlong hmagic⟩
  · exact .inr ⟨_, .truncated (not_le.1 hlong)⟩

/-- what `decode_body` reports behind a header, and its output -/
inductive BodyReports (header : DecmpfsHeader) (payload : List UInt8) (fork : Option (List UInt8)) :
    List UInt8 → Except Error ℕ → Prop where
  | inline {out : List UInt8} {report : Except Error ℕ} (kind : header.compressionType = .lzvnXattr)
    (block : BlockReports payload header.uncompressedSize out report) : BodyReports header payload fork out report
  | trailing (kind : header.compressionType = .lzvnResourceFork) (more : payload ≠ []) :
    BodyReports header payload fork [] (.error (.trailingData payload.length))
  | missing (kind : header.compressionType = .lzvnResourceFork) (empty : payload = []) (none : fork = none) :
    BodyReports header payload fork [] (.error .missingResourceFork)
  | fork {f out : List UInt8} {report : Except Error ℕ} (kind : header.compressionType = .lzvnResourceFork)
    (empty : payload = []) (some : fork = some f) (reports : ForkReports f header.uncompressedSize out report) :
    BodyReports header payload fork out report
  | unsupported (xattr : header.compressionType ≠ .lzvnXattr) (fork' : header.compressionType ≠ .lzvnResourceFork) :
    BodyReports header payload fork [] (.error (.unsupportedDecmpfsCompressionType header.compressionType.rawValue))

theorem exists_bodyReports (header : DecmpfsHeader) (payload : List UInt8) (fork : Option (List UInt8)) :
    ∃ out report, BodyReports header payload fork out report := by
  by_cases hxattr : header.compressionType = .lzvnXattr
  · obtain ⟨out, report, h⟩ := exists_blockReports payload header.uncompressedSize
    exact ⟨out, report, .inline hxattr h⟩
  · by_cases hfork : header.compressionType = .lzvnResourceFork
    · by_cases hpayload : payload = []
      · cases fork with
        | none => exact ⟨_, _, .missing hfork hpayload rfl⟩
        | some f =>
          obtain ⟨out, report, h⟩ := exists_forkReports f header.uncompressedSize
          exact ⟨out, report, .fork hfork hpayload rfl h⟩
      · exact ⟨_, _, .trailing hfork hpayload⟩
    · exact ⟨_, _, .unsupported hxattr hfork⟩

theorem run_bodyReports {u : Usize} {header : DecmpfsHeader} {payload dst out : List UInt8} {fork : Option (List UInt8)}
    {report : Except Error ℕ} (hmax : header.uncompressedSize < u.max) (hdst : header.uncompressedSize ≤ dst.length)
    (h : BodyReports header payload fork out report) :
    (decodeBody u header payload fork).run dst = leaves report (out ++ dst.drop out.length) := by
  obtain ⟨kind, size⟩ := header
  unfold decodeBody
  cases h with
  | inline hkind block =>
    obtain rfl : kind = .lzvnXattr := hkind
    exact run_blockReports hmax hdst block
  | trailing hkind more =>
    obtain rfl : kind = .lzvnResourceFork := hkind
    simp only [if_pos more]
    rfl
  | missing hkind empty none =>
    obtain rfl : kind = .lzvnResourceFork := hkind
    simp only [empty, none]
    rfl
  | fork hkind empty some reports =>
    obtain rfl : kind = .lzvnResourceFork := hkind
    simp only [empty, some]
    exact run_forkReports hmax hdst reports
  | unsupported hxattr hfork =>
    cases kind with
    | lzvnXattr => exact absurd rfl hxattr
    | lzvnResourceFork => exact absurd rfl hfork
    | _ => rfl

/-- what the decoders report of a wrapper where there is room for `capacity` bytes, and their output -/
inductive WrapperReports (u : Usize) (xattr : List UInt8) (fork : Option (List UInt8)) (capacity : ℕ) :
    List UInt8 → Except Error ℕ → Prop where
  | header {e : Error} (bad : HeaderFails u xattr e) : WrapperReports u xattr fork capacity [] (.error e)
  | tooSmall {header : DecmpfsHeader} (parsed : parseHeader u xattr = .ok header) (small : capacity < header.uncompressedSize) :
    WrapperReports u xattr fork capacity [] (.error (.outputTooSmall 0 capacity))
  | body {header : DecmpfsHeader} {out : List UInt8} {report : Except Error ℕ} (parsed : parseHeader u xattr = .ok header)
    (room : header.uncompressedSize ≤ capacity) (body : BodyReports header (xattr.drop decmpfsHeaderLen) fork out report) :
    WrapperReports u xattr fork capacity out (sized header.uncompressedSize report)

theorem exists_wrapperReports (u : Usize) (xattr : List UInt8) (fork : Option (List UInt8)) (capacity : ℕ) :
    ∃ out report, WrapperReports u xattr fork capacity out report := by
  rcases header_or_fails u xattr with ⟨header, hparsed⟩ | ⟨e, hbad⟩
  · rcases Nat.lt_or_ge capacity header.uncompressedSize with hsmall | hroom
    · exact ⟨_, _, .tooSmall hparsed hsmall⟩
    · obtain ⟨out, report, hbody⟩ := exists_bodyReports header (xattr.drop decmpfsHeaderLen) fork
      exact ⟨_, _, .body hparsed hroom hbody⟩
  · exact ⟨_, _, .header hbad⟩

/-- a body that is reported as good holds as many bytes as reported -/
theorem BodyReports.length_ok {header : DecmpfsHeader} {payload out : List UInt8} {fork : Option (List UInt8)} {n : ℕ}
    (h : BodyReports header payload fork out (.ok n)) : out.length = n := by
  cases h with
  | inline _ block => exact block.packs.2
  | fork _ _ _ reports =>
    cases reports with
    | ok => rfl

/-- **`decode_into`** does what is reported for the room that it has. -/
theorem run_wrapperReports {u : Usize} {xattr dst out : List UInt8} {fork : Option (List UInt8)} {report : Except Error ℕ}
    (hmax : dst.length < u.max) (h : WrapperReports u xattr fork dst.length out report) :
    (decodeInto u xattr fork).run dst = leaves report (out ++ dst.drop out.length) := by
  cases h with
  | header bad =>
    simp only [decodeInto, EStateM.run_bind, splitXattr_error bad.parseHeader_eq, run_lift_error]
    rfl
  | tooSmall parsed small =>
    simp only [decodeInto, EStateM.run_bind, splitXattr_eq parsed, run_lift_ok, EStateM.run_get, if_pos small]
    rfl
  | @body header out report parsed room body =>
    have hrun := run_bodyReports (room.trans_lt hmax) room body
    simp only [decodeInto, EStateM.run_bind, splitXattr_eq parsed, run_lift_ok, EStateM.run_get, if_neg (not_lt.2 room), hrun,
      Raw.leaves_sized]
    cases report with
    | error e => rfl
    | ok n =>
      simp only [leaves]
      split_ifs <;> rfl

/-- **`decode`** does what is reported for any room that the declared size fits in. -/
theorem decode_wrapperReports {u : Usize} {xattr out : List UInt8} {fork : Option (List UInt8)} {report : Except Error ℕ}
    (hsize : ∀ header, parseHeader u xattr = .ok header → header.uncompressedSize ≤ u.isizeMax)
    (h : WrapperReports u xattr fork u.isizeMax out report) :
    decode u xattr fork = returns report out := by
  cases h with
  | header bad => rw [decode, splitXattr_error bad.parseHeader_eq]; rfl
  | tooSmall parsed small => exact absurd (hsize _ parsed) (not_le.2 small)
  | @body header out report parsed room body =>
    have hzeros : u.zeros header.uncompressedSize = .ok (List.replicate header.uncompressedSize 0) := if_pos room
    have hroom : header.uncompressedSize ≤ (List.replicate header.uncompressedSize (0 : UInt8)).length :=
      List.length_replicate.ge
    have hrun := run_bodyReports (room.trans_lt (isizeMax_lt u)) hroom body
    simp only [decode, splitXattr_eq parsed, except_ok_bind, hzeros, hrun]
    rw [Raw.returns_sized fun n hn => BodyReports.length_ok (hn ▸ body)]
    cases report <;> rfl

/-- **The decoders, whole.** On every wrapper, every fork and every buffer `decode_into` returns exactly what is reported, and
leaves the output so far in front of the rest of the buffer, also when it fails. `decode` returns the same for all the room that
there can be, and panics on a size beyond that. -/
theorem wrapper_decoders_report (u : Usize) (xattr : List UInt8) (fork : Option (List UInt8)) :
    (∀ (dst : Slice u) (r : EStateM.Result Stop (List UInt8) ℕ), (decodeInto u xattr fork).run dst.bytes = r ↔
      ∃ out report, WrapperReports u xattr fork dst.bytes.length out report ∧
        r = leaves report (out ++ dst.bytes.drop out.length)) ∧
    ∀ r : Except Stop (List UInt8), decode u xattr fork = r ↔
      (∃ header, parseHeader u xattr = .ok header ∧ u.isizeMax < header.uncompressedSize ∧ r = .error .panic) ∨
      (∀ header, parseHeader u xattr = .ok header → header.uncompressedSize ≤ u.isizeMax) ∧
        ∃ out report, WrapperReports u xattr fork u.isizeMax out report ∧ r = returns report out := by
  constructor
  · intro dst r
    have hmax := dst.length_le.trans_lt (isizeMax_lt u)
    constructor
    · intro hr
      obtain ⟨out, report, h⟩ := exists_wrapperReports u xattr fork dst.bytes.length
      exact ⟨out, report, h, hr.symm.trans (run_wrapperReports hmax h)⟩
    · intro h
      obtain ⟨out, report, h, rfl⟩ := h
      exact run_wrapperReports hmax h
  · intro r
    constructor
    · rintro rfl
      by_cases hsize : ∀ header, parseHeader u xattr = .ok header → header.uncompressedSize ≤ u.isizeMax
      · obtain ⟨out, report, h⟩ := exists_wrapperReports u xattr fork u.isizeMax
        exact .inr ⟨hsize, out, report, h, decode_wrapperReports hsize h⟩
      · push Not at hsize
        obtain ⟨header, hparsed, hlarge⟩ := hsize
        exact .inl ⟨header, hparsed, hlarge, decode_panic_iff.2 ⟨header, hparsed, hlarge⟩⟩
    · intro h
      rcases h with ⟨header, hparsed, hlarge, rfl⟩ | ⟨hsize, out, report, h, rfl⟩
      · exact decode_panic_iff.2 ⟨header, hparsed, hlarge⟩
      · exact decode_wrapperReports hsize h

end Lzvn.Apple.Decmpfs
