/-
`src/raw/opcode.rs`: which kind of instruction an opcode byte starts.
-/
import Mathlib.Tactic

namespace Lzvn.Raw

/-- `OpcodeKind` -/
inductive OpcodeKind where
  | smallDistance
  | mediumDistance
  | largeDistance
  | previousDistance
  | smallLiteral
  | largeLiteral
  | smallMatch
  | largeMatch
  | nop
  | eos
deriving DecidableEq, Repr

/-- `classify` -/
def classify (opcode : UInt8) : Option OpcodeKind :=
  if opcode = 0x06 then some .eos
  else if opcode = 0x0E ∨ opcode = 0x16 then some .nop
  else if 0xA0 ≤ opcode ∧ opcode ≤ 0xBF then some .mediumDistance
  else if opcode = 0xE0 then some .largeLiteral
  else if 0xE1 ≤ opcode ∧ opcode ≤ 0xEF then some .smallLiteral
  else if opcode = 0xF0 then some .largeMatch
  else if 0xF1 ≤ opcode then some .smallMatch
  else if opcode ∈ [0x46, 0x4E, 0x56, 0x5E, 0x66, 0x6E, 0x86, 0x8E, 0x96, 0x9E, 0xC6, 0xCE] then
    some .previousDistance
  else if opcode ∈ [0x07, 0x0F, 0x17, 0x1F, 0x27, 0x2F, 0x37, 0x3F, 0x47, 0x4F, 0x57, 0x5F, 0x67, 0x6F, 0x87, 0x8F,
      0x97, 0x9F, 0xC7, 0xCF] then
    some .largeDistance
  else if opcode ∈ [0x1E, 0x26, 0x2E, 0x36, 0x3E] ∨ (0x70 ≤ opcode ∧ opcode ≤ 0x7F) ∨
      (0xD0 ≤ opcode ∧ opcode ≤ 0xDF) then
    none
  else some .smallDistance

/-- a property of bytes that holds of all 256 values -/
theorem forall_byte {p : UInt8 → Prop} (h : ∀ n < 256, p (UInt8.ofNat n)) (b : UInt8) : p b := by
  have := h b.toNat b.toNat_lt
  rwa [UInt8.ofNat_toNat] at this

theorem classify_eos (opcode : UInt8) : classify opcode = some .eos ↔ opcode = 0x06 := by
  revert opcode
  exact forall_byte (by decide +kernel)

end Lzvn.Raw
