/-
The whole behaviour of one-shot decoding of a `bvxn` block: what the decoders return and what they leave in the buffer, for every
input and every buffer, also where they fail.

- `BlockFails`: what is reported of an input that is not a header and a payload of the declared length.
- `Counts`, `Allocates`: the declared lengths are not beyond `usize`, and there can be a buffer of the declared size. Otherwise
  the decoders panic.
- `BlockReports`: what is reported of an input, in terms of the raw decoder's `Decodes`.
- `block_decoders_report`: the decoders return exactly that.
-/
import Lzvn.Apple.BvxnGrammar
import Lzvn.Raw.Verdict

namespace Lzvn.Apple.Bvxn

open Lzvn.Core
open Lzvn.Raw (Decodes leaves sized returns)

/-- what `split_block` reports -/
inductive BlockFails (src : List UInt8) : Error → Prop where
  | header (short : src.length < headerLen) : BlockFails src (.truncatedInput src.length)
  | magic (long : headerLen ≤ src.length) (bad : leValue (src.take 4) ≠ bvxnMagic) :
    BlockFails src (.unsupportedBlockMagic (leValue (src.take 4)))
  | truncated {header : BvxnHeader} (parsed : parseHeader src = .ok header)
    (short : src.length < headerLen + header.payloadBytes) : BlockFails src (.truncatedInput src.length)
  | trailing {header : BvxnHeader} (parsed : parseHeader src = .ok header)
    (long : headerLen + header.payloadBytes < src.length) :
    BlockFails src (.trailingData (src.length - (headerLen + header.payloadBytes)))

/-- `parse_header` behind the check of the length -/
theorem parseHeader_eq {src : List UInt8} (h : headerLen ≤ src.length) : parseHeader src =
    if leValue (src.take 4) ≠ bvxnMagic then fail (.unsupportedBlockMagic (leValue (src.take 4)))
    else .ok ⟨leValue ((src.drop 4).take 4), leValue ((src.drop 8).take 4)⟩ := by
  have hlen : 12 ≤ src.length := h
  unfold parseHeader
  rw [if_neg (not_lt.2 h), fromLeBytes_inside (by decide) (by omega), fromLeBytes_inside (by decide) (by omega),
    fromLeBytes_inside (by decide) (by omega)]
  simp only [except_ok_bind, List.drop_zero, Nat.sub_zero]
  split_ifs <;> rfl

/-- a header is parsed, or it is reported why not -/
theorem header_or_fails (src : List UInt8) : (∃ header, parseHeader src = .ok header) ∨
    ∃ e, BlockFails src e ∧ parseHeader src = .error (.err e) := by
  by_cases hlong : headerLen ≤ src.length
  · by_cases hmagic : leValue (src.take 4) = bvxnMagic
    · exact .inl ⟨_, by rw [parseHeader_eq hlong, if_neg (not_not.2 hmagic)]⟩
    · exact .inr ⟨_, .magic hlong hmagic, by rw [parseHeader_eq hlong, if_pos hmagic]; rfl⟩
  · exact .inr ⟨_, .header (not_le.1 hlong), if_pos (not_le.1 hlong)⟩

/-- the declared lengths are within `usize` -/
def Counts (u : Usize) (src : List UInt8) : Prop :=
  ∀ header, parseHeader src = .ok header → headerLen + header.payloadBytes ≤ u.max

theorem BlockFails.splitBlock_eq {u : Usize} {src : List UInt8} {e : Error} (hcounts : Counts u src) (h : BlockFails src e) :
    splitBlock u src = .error (.err e) := by
  cases h with
  | header short => exact splitBlock_error u (if_pos short)
  | magic long bad =>
    refine splitBlock_error u ?_
    rw [parseHeader_eq long, if_pos bad]
    rfl
  | truncated parsed short =>
    rw [Bvxn.splitBlock_eq u parsed, if_neg (not_lt.2 (hcounts _ parsed)), if_pos short]
  | trailing parsed long =>
    rw [Bvxn.splitBlock_eq u parsed, if_neg (not_lt.2 (hcounts _ parsed)), if_neg (not_lt.2 long.le), if_pos long]

/-- what the decoders report of an input where there is room for `capacity` bytes, and their output -/
inductive BlockReports (src : List UInt8) (capacity : ℕ) : List UInt8 → Except Error ℕ → Prop where
  | fails {e : Error} (bad : BlockFails src e) : BlockReports src capacity [] (.error e)
  | payload {header : BvxnHeader} {out : List UInt8} {report : Except Error ℕ} (parsed : parseHeader src = .ok header)
    (length : src.length = headerLen + header.payloadBytes) (decodes : Decodes (src.drop headerLen) capacity out report) :
    BlockReports src capacity out (sized header.rawBytes report)

theorem exists_blockReports (src : List UInt8) (capacity : ℕ) : ∃ out report, BlockReports src capacity out report := by
  rcases header_or_fails src with ⟨header, hparsed⟩ | ⟨e, hbad, -⟩
  · rcases Nat.lt_trichotomy src.length (headerLen + header.payloadBytes) with hshort | hlength | hlong
    · exact ⟨_, _, .fails (.truncated hparsed hshort)⟩
    · obtain ⟨out, report, h⟩ := Raw.exists_decodes (src.drop headerLen) capacity
      exact ⟨_, _, .payload hparsed hlength h⟩
    · exact ⟨_, _, .fails (.trailing hparsed hlong)⟩
  · exact ⟨_, _, .fails hbad⟩

/-- a payload of the declared length is split off -/
theorem splitBlock_payload {u : Usize} {src : List UInt8} {header : BvxnHeader} (hcounts : Counts u src)
    (hparsed : parseHeader src = .ok header) (hlength : src.length = headerLen + header.payloadBytes) :
    splitBlock u src = .ok (header, src.drop headerLen) := by
  rw [splitBlock_eq u hparsed, if_neg (not_lt.2 (hcounts _ hparsed)), if_neg hlength.not_lt, if_neg hlength.symm.not_lt]

/-- **`decode_into`** does what is reported. -/
theorem run_blockReports {u : Usize} {src dst out : List UInt8} {report : Except Error ℕ} (hcounts : Counts u src)
    (h : BlockReports src dst.length out report) :
    (decodeInto u src).run dst = leaves report (out ++ dst.drop out.length) := by
  cases h with
  | fails bad =>
    simp only [decodeInto, EStateM.run_bind, bad.splitBlock_eq hcounts, run_lift_error]
    rfl
  | @payload header out report parsed length decodes =>
    simp only [decodeInto, EStateM.run_bind, splitBlock_payload hcounts parsed length, run_lift_ok, Raw.run_decodes decodes,
      Raw.leaves_sized]
    cases report with
    | error e => rfl
    | ok n =>
      simp only [leaves]
      split_ifs <;> rfl

end Lzvn.Apple.Bvxn
