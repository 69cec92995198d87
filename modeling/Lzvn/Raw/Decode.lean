/-
`src/raw/decode.rs`: the one-shot decoder. `Decoder` is the cursor of the source; the `loop` of `Decoder::run` is the
`Loop` whose body is `round`. Every round that goes on has consumed input (`round_falls`), so `run` is total.
-/
import Lzvn.Core.Loop
import Lzvn.Error
import Lzvn.Raw.Opcode

namespace Lzvn.Raw

open Lzvn.Core

/-- `MAX_EOS_PADDING` -/
def maxEosPadding : ℕ := 7

/-- `Decoder` -/
structure Decoder where
  src : List UInt8
  dst : List UInt8
  input : ℕ
  output : ℕ
  previousDistance : ℕ
deriving DecidableEq, Repr

namespace Decoder

def byteAt (position : ℕ) : Rust Decoder UInt8 := do
  let d ← get
  match d.src[position]? with
  | some byte => return byte
  | none => throw (.err (.truncatedInput position))

def requireInput (needed : ℕ) : Rust Decoder Unit := do
  let d ← get
  if d.src.length - d.input < needed then throw (.err (.truncatedInput d.input))

def requireOutput (needed : ℕ) : Rust Decoder Unit := do
  let d ← get
  if d.dst.length - d.output < needed then throw (.err (.outputTooSmall d.output d.dst.length))

def validateDistance (distance available : ℕ) : Rust Decoder Unit := do
  if distance = 0 ∨ distance > available then throw (.err (.invalidMatchDistance distance available))

/-- one round of the `for` in `perform_match` -/
def matchByte (start distance : ℕ) (dst : List UInt8) (i : ℕ) : Except Stop (List UInt8) := do
  let from' ← sub (start + i) distance
  let byte ← index dst from'
  setIndex dst (start + i) byte

/-- the `for` in `perform_match` -/
def matchBytes (start distance matchLen : ℕ) (dst : List UInt8) : Except Stop (List UInt8) :=
  (List.range matchLen).foldlM (matchByte start distance) dst

def performMatch (matchLen distance : ℕ) : Rust Decoder Unit := do
  let d ← get
  let dst ← matchBytes d.output distance matchLen d.dst
  set { d with dst, output := d.output + matchLen, previousDistance := distance }

def copyLiteralOnly (opcodeLen literalLen : ℕ) : Rust Decoder Unit := do
  requireInput (opcodeLen + literalLen)
  requireOutput literalLen
  let d ← get
  let literalStart := d.input + opcodeLen
  let literalEnd := literalStart + literalLen
  let literal ← slice d.src literalStart literalEnd
  let dst ← copyFromSlice d.dst d.output (d.output + literalLen) literal
  set { d with dst, input := literalEnd, output := d.output + literalLen }

def copyMatchOnly (opcodeLen matchLen distance : ℕ) : Rust Decoder Unit := do
  requireInput opcodeLen
  requireOutput matchLen
  validateDistance distance (← get).output
  modify fun d => { d with input := d.input + opcodeLen }
  performMatch matchLen distance

def copyLiteralAndMatch (opcodeLen literalLen matchLen distance : ℕ) : Rust Decoder Unit := do
  requireInput (opcodeLen + literalLen)
  requireOutput (literalLen + matchLen)
  validateDistance distance ((← get).output + literalLen)
  let d ← get
  let literalStart := d.input + opcodeLen
  let literalEnd := literalStart + literalLen
  let literal ← slice d.src literalStart literalEnd
  let dst ← copyFromSlice d.dst d.output (d.output + literalLen) literal
  set { d with dst, input := literalEnd, output := d.output + literalLen }
  performMatch matchLen distance

def finish : Rust Decoder Unit := do
  requireInput 1
  modify fun d => { d with input := d.input + 1 }
  let d ← get
  let padding ← slice d.src d.input d.src.length
  if padding.any (· ≠ 0) then throw (.err (.trailingData padding.length))
  if padding.length > maxEosPadding then throw (.err (.trailingData (padding.length - maxEosPadding)))
  set { d with input := d.src.length }

/-- one round of the `loop` in `Decoder::run`: `none` goes round again -/
def round : Rust Decoder (Option Unit) := do
  let opcode ← byteAt (← get).input
  let d ← get
  match classify opcode with
  | none => throw (.err (.invalidOpcode d.input opcode))
  | some .smallDistance =>
    requireInput 2
    let literalLen := (opcode >>> 6).toNat
    let matchLen := ((opcode >>> 3) &&& 0x07).toNat + 3
    let second ← index d.src (d.input + 1)
    let distance := ((opcode &&& 0x07).toNat <<< 8) ||| second.toNat
    copyLiteralAndMatch 2 literalLen matchLen distance
    return none
  | some .mediumDistance =>
    requireInput 3
    let second ← index d.src (d.input + 1)
    let third ← index d.src (d.input + 2)
    let literalLen := ((opcode >>> 3) &&& 0x03).toNat
    let matchLen := (((opcode &&& 0x07).toNat <<< 2) ||| (second.toNat &&& 0x03)) + 3
    let distance := (second.toNat >>> 2) ||| (third.toNat <<< 6)
    copyLiteralAndMatch 3 literalLen matchLen distance
    return none
  | some .largeDistance =>
    requireInput 3
    let literalLen := (opcode >>> 6).toNat
    let matchLen := ((opcode >>> 3) &&& 0x07).toNat + 3
    let second ← index d.src (d.input + 1)
    let third ← index d.src (d.input + 2)
    let distance := second.toNat + 256 * third.toNat
    copyLiteralAndMatch 3 literalLen matchLen distance
    return none
  | some .previousDistance =>
    let literalLen := (opcode >>> 6).toNat
    let matchLen := ((opcode >>> 3) &&& 0x07).toNat + 3
    copyLiteralAndMatch 1 literalLen matchLen d.previousDistance
    return none
  | some .smallLiteral =>
    let literalLen := (opcode &&& 0x0F).toNat
    copyLiteralOnly 1 literalLen
    return none
  | some .largeLiteral =>
    requireInput 2
    let second ← index d.src (d.input + 1)
    let literalLen := second.toNat + 16
    copyLiteralOnly 2 literalLen
    return none
  | some .smallMatch =>
    let matchLen := (opcode &&& 0x0F).toNat
    copyMatchOnly 1 matchLen d.previousDistance
    return none
  | some .largeMatch =>
    requireInput 2
    let second ← index d.src (d.input + 1)
    let matchLen := second.toNat + 16
    copyMatchOnly 2 matchLen d.previousDistance
    return none
  | some .nop =>
    requireInput 1
    modify fun d => { d with input := d.input + 1 }
    return none
  | some .eos =>
    finish
    return some ()

/-! ## Every round consumes input -/

@[simp] theorem run_byteAt (p : ℕ) (d : Decoder) : (byteAt p).run d = match d.src[p]? with
    | some byte => .ok byte d
    | none => .error (.err (.truncatedInput p)) d := by
  simp only [byteAt, EStateM.run_bind, EStateM.run_get]
  cases d.src[p]? <;> rfl

@[simp] theorem run_requireInput (n : ℕ) (d : Decoder) : (requireInput n).run d =
    if d.src.length - d.input < n then .error (.err (.truncatedInput d.input)) d else .ok () d := by
  simp only [requireInput, EStateM.run_bind, EStateM.run_get]
  split_ifs <;> rfl

@[simp] theorem run_requireOutput (n : ℕ) (d : Decoder) : (requireOutput n).run d =
    if d.dst.length - d.output < n then .error (.err (.outputTooSmall d.output d.dst.length)) d else .ok () d := by
  simp only [requireOutput, EStateM.run_bind, EStateM.run_get]
  split_ifs <;> rfl

@[simp] theorem run_validateDistance (distance available : ℕ) (d : Decoder) : (validateDistance distance available).run d =
    if distance = 0 ∨ distance > available then .error (.err (.invalidMatchDistance distance available)) d
    else .ok () d := by
  simp only [validateDistance]
  split_ifs <;> rfl

/-- when `m` succeeds it has consumed `k` bytes or more -/
def Consumes {α : Type} (k : ℕ) (m : Rust Decoder α) : Prop :=
  ∀ d a d', m.run d = .ok a d' → d'.src = d.src ∧ d.input + k ≤ d'.input

namespace Consumes

variable {α β : Type} {k l : ℕ} {m : Rust Decoder α} {f : α → Rust Decoder β}

theorem bind (hm : Consumes k m) (hf : ∀ a, Consumes l (f a)) : Consumes (k + l) (m >>= f) := by
  intro d b d' h
  rw [run_bind_ok] at h
  obtain ⟨a, d1, h1, h2⟩ := h
  obtain ⟨hsrc1, hinput1⟩ := hm d a d1 h1
  obtain ⟨hsrc2, hinput2⟩ := hf a d1 b d' h2
  exact ⟨hsrc2.trans hsrc1, by omega⟩

theorem first (hm : Consumes k m) (hf : ∀ a, Consumes 0 (f a)) : Consumes k (m >>= f) := hm.bind hf

theorem later (hm : Consumes 0 m) (hf : ∀ a, Consumes l (f a)) : Consumes l (m >>= f) := by
  have h := hm.bind hf
  rwa [Nat.zero_add] at h

theorem value (a : α) : Consumes 0 (pure a : Rust Decoder α) := by
  intro d b d' h
  cases h
  exact ⟨rfl, le_rfl⟩

theorem lift (x : Except Stop α) : Consumes 0 (liftM x : Rust Decoder α) := by
  intro d a d' h
  rw [run_lift_eq_ok] at h
  rw [h.2]
  exact ⟨rfl, le_rfl⟩

end Consumes

theorem requireInput_consumes (n : ℕ) : Consumes 0 (requireInput n) := by
  intro d a d' h
  rw [run_requireInput] at h
  split_ifs at h
  cases h
  exact ⟨rfl, le_rfl⟩

theorem advance_consumes (n : ℕ) : Consumes n (modify fun d => { d with input := d.input + n }) := by
  intro d a d' h
  cases h
  exact ⟨rfl, le_rfl⟩

theorem performMatch_ok {matchLen distance : ℕ} {d d' : Decoder} {u : Unit}
    (h : (performMatch matchLen distance).run d = .ok u d') : d'.src = d.src ∧ d'.input = d.input := by
  simp only [performMatch, run_bind_ok, EStateM.run_get, run_lift_eq_ok] at h
  obtain ⟨_, _, h0, dst, _, ⟨-, rfl⟩, h⟩ := h
  cases h0
  cases h
  exact ⟨rfl, rfl⟩

theorem copyLiteralOnly_consumes (opcodeLen literalLen : ℕ) :
    Consumes opcodeLen (copyLiteralOnly opcodeLen literalLen) := by
  intro d u d' h
  simp only [copyLiteralOnly, run_bind_ok, run_requireInput, run_requireOutput, EStateM.run_get, run_lift_eq_ok] at h
  obtain ⟨_, _, h1, _, _, h2, _, _, h3, _, _, ⟨-, rfl⟩, _, _, ⟨-, rfl⟩, h⟩ := h
  split_ifs at h1 h2
  cases h1
  cases h2
  cases h3
  cases h
  exact ⟨rfl, by simp⟩

theorem copyMatchOnly_consumes (opcodeLen matchLen distance : ℕ) :
    Consumes opcodeLen (copyMatchOnly opcodeLen matchLen distance) := by
  intro d u d' h
  simp only [copyMatchOnly, run_bind_ok, run_requireInput, run_requireOutput, run_validateDistance, EStateM.run_get,
    EStateM.run_modify] at h
  obtain ⟨_, _, h1, _, _, h2, _, _, h3, _, _, h4, _, _, h5, h⟩ := h
  split_ifs at h1 h2 h4
  cases h1
  cases h2
  cases h3
  cases h4
  cases h5
  obtain ⟨hs, hi⟩ := performMatch_ok h
  exact ⟨hs, hi.ge⟩

theorem copyLiteralAndMatch_consumes (opcodeLen literalLen matchLen distance : ℕ) :
    Consumes opcodeLen (copyLiteralAndMatch opcodeLen literalLen matchLen distance) := by
  intro d u d' h
  simp only [copyLiteralAndMatch, run_bind_ok, run_requireInput, run_requireOutput, run_validateDistance,
    EStateM.run_get, EStateM.run_set, run_lift_eq_ok] at h
  obtain ⟨_, _, h1, _, _, h2, _, _, h3, _, _, h4, _, _, h5, _, _, ⟨-, rfl⟩, _, _, ⟨-, rfl⟩, _, _, h6, h⟩ := h
  split_ifs at h1 h2 h4
  cases h1
  cases h2
  cases h3
  cases h4
  cases h5
  cases h6
  obtain ⟨hs, hi⟩ := performMatch_ok h
  exact ⟨hs, by simp [hi]⟩

/-- a round that goes on has consumed a byte -/
theorem round_ok {d d' : Decoder} (h : round.run d = .ok none d') : d'.src = d.src ∧ d.input < d'.input := by
  have consumed {k : ℕ} {m : Rust Decoder (Option Unit)} (hk : 0 < k) (hm : Consumes k m) (h : m.run d = .ok none d') :
      d'.src = d.src ∧ d.input < d'.input := by
    obtain ⟨hsrc, hinput⟩ := hm d none d' h
    exact ⟨hsrc, by omega⟩
  simp only [round, run_bind_ok, EStateM.run_get, run_byteAt] at h
  obtain ⟨_, _, h0, opcode, _, h1, _, _, h2, h⟩ := h
  cases h0
  cases hb : d.src[d.input]? with
  | none => rw [hb] at h1; cases h1
  | some b =>
    rw [hb] at h1
    cases h1
    cases h2
    cases hk : classify opcode with
    | none => rw [hk] at h; cases h
    | some kind =>
      rw [hk] at h
      cases kind with
      | smallDistance =>
        refine consumed (k := 2) (by decide) ?_ h
        exact (requireInput_consumes 2).later fun _ => (Consumes.lift _).later fun _ =>
          (copyLiteralAndMatch_consumes 2 _ _ _).first fun _ => .value none
      | mediumDistance =>
        refine consumed (k := 3) (by decide) ?_ h
        exact (requireInput_consumes 3).later fun _ => (Consumes.lift _).later fun _ => (Consumes.lift _).later fun _ =>
          (copyLiteralAndMatch_consumes 3 _ _ _).first fun _ => .value none
      | largeDistance =>
        refine consumed (k := 3) (by decide) ?_ h
        exact (requireInput_consumes 3).later fun _ => (Consumes.lift _).later fun _ => (Consumes.lift _).later fun _ =>
          (copyLiteralAndMatch_consumes 3 _ _ _).first fun _ => .value none
      | previousDistance =>
        exact consumed (by decide) ((copyLiteralAndMatch_consumes 1 _ _ _).first fun _ => .value none) h
      | smallLiteral => exact consumed (by decide) ((copyLiteralOnly_consumes 1 _).first fun _ => .value none) h
      | largeLiteral =>
        refine consumed (k := 2) (by decide) ?_ h
        exact (requireInput_consumes 2).later fun _ => (Consumes.lift _).later fun _ =>
          (copyLiteralOnly_consumes 2 _).first fun _ => .value none
      | smallMatch => exact consumed (by decide) ((copyMatchOnly_consumes 1 _ _).first fun _ => .value none) h
      | largeMatch =>
        refine consumed (k := 2) (by decide) ?_ h
        exact (requireInput_consumes 2).later fun _ => (Consumes.lift _).later fun _ =>
          (copyMatchOnly_consumes 2 _ _).first fun _ => .value none
      | nop =>
        refine consumed (k := 1) (by decide) ?_ h
        exact (requireInput_consumes 1).later fun _ => (advance_consumes 1).first fun _ => .value none
      | eos =>
        rw [run_bind_ok] at h
        obtain ⟨_, _, -, h3⟩ := h
        cases h3
/-- unread input; every round that goes on lowers it -/
def unread (d : Decoder) : ℕ := d.src.length - d.input

theorem round_falls (d d' : Decoder) (h : round.run d = .ok none d') : d'.unread < d.unread := by
  obtain ⟨hs, hi⟩ := round_ok h
  have hlt : d.input < d.src.length := by
    simp only [round, run_bind_ok, EStateM.run_get, run_byteAt] at h
    obtain ⟨_, _, h0, opcode, _, h1, -⟩ := h
    cases h0
    by_contra hge
    rw [List.getElem?_eq_none (by omega)] at h1
    cases h1
  unfold unread
  rw [hs]
  omega

/-- the `loop` in `Decoder::run` -/
def loop : Loop Decoder (EStateM.Result Stop Decoder Unit) := Loop.ofMonadic round unread round_falls

def run : Rust Decoder Unit := loop.run

end Decoder

/-- `decode_into` -/
def decodeInto (src : List UInt8) : Rust (List UInt8) ℕ := fun dst =>
  match Decoder.run.run ⟨src, dst, 0, 0, 0⟩ with
  | .ok _ decoder => .ok decoder.output decoder.dst
  | .error e decoder => .error e decoder.dst

/-- `decode` -/
def decode (u : Usize) (src : List UInt8) (decodedLen : ℕ) : Except Stop (List UInt8) := do
  let dst ← u.zeros decodedLen
  match (decodeInto src).run dst with
  | .ok written dst =>
    if written ≠ decodedLen then fail (.sizeMismatch decodedLen written)
    else return dst
  | .error e _ => .error e

end Lzvn.Raw
