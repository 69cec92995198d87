/-
The raw LZVN format in its own terms, apart from both decoders.

An instruction is an opcode, the rest of its header, and its literals; `classify` gives the opcode's kind, `headerLen`
the header's length, and `fields` what the header announces: a number of literals and possibly a copy. Its meaning is a
step of `Core.Lz77`, LZ77 with a repeated distance. A stream is a list of instructions, the EOS opcode and at most seven
zero bytes.

- `Encodes bytes s`: `bytes` is exactly one instruction other than EOS, and it means the step `s`.
- `fetch`: what the bytes at the cursor begin with. `fetch_encodes` and `encodes_fetch`: it finds exactly the
  instructions of the grammar. `fetch_append`: more bytes change only the answer `short`. `fetch_short_iff`: it means a
  part of an instruction, of at most 272 bytes.
- `scan`: execute instructions until something stops it, with the reason. `scan_more`: more bytes go on where `short`
  stopped and change no other verdict.
- `Codes bytes w w'`: `bytes` is a list of instructions that takes window `w` to `w'`. `scan_codes`: scanning goes
  through it. `scan_spec`: what a scan has gone through is such a list.
- `IsStream src out`: `src` is a stream that means `out`. `isStream_iff_scan`: the scan tells.
-/
import Lzvn.Core.Loop
import Lzvn.Core.Lz77
import Lzvn.Raw.Opcode

namespace Lzvn.Raw

open Lzvn.Core Lzvn.Core.Lz77

/-! ## Instructions -/

/-- bytes from the opcode to the literals -/
def headerLen : OpcodeKind → ℕ
  | .smallDistance => 2
  | .mediumDistance => 3
  | .largeDistance => 3
  | .previousDistance => 1
  | .smallLiteral => 1
  | .largeLiteral => 2
  | .smallMatch => 1
  | .largeMatch => 2
  | .nop => 1
  | .eos => 1

/-- the number of literals and the copy announced by a header's three first bytes -/
def fields (op second third : ℕ) : OpcodeKind → ℕ × Option (ℕ × Reach)
  | .smallDistance => (op / 64, some (op / 8 % 8 + 3, .explicit (op % 8 * 256 + second)))
  | .mediumDistance => (op / 8 % 4, some (op % 8 * 4 + second % 4 + 3, .explicit (second / 4 + third * 64)))
  | .largeDistance => (op / 64, some (op / 8 % 8 + 3, .explicit (second + third * 256)))
  | .previousDistance => (op / 64, some (op / 8 % 8 + 3, .last))
  | .smallLiteral => (op % 16, none)
  | .largeLiteral => (second + 16, none)
  | .smallMatch => (0, some (op % 16, .last))
  | .largeMatch => (0, some (second + 16, .last))
  | .nop => (0, none)
  | .eos => (0, none)

/-- byte `i` as a number, 0 past the end -/
def byteOr0 (bytes : List UInt8) (i : ℕ) : ℕ := (bytes[i]?.getD 0).toNat

theorem byteOr0_lt (bytes : List UInt8) (i : ℕ) : byteOr0 bytes i < 256 := UInt8.toNat_lt _

/-- what the header at the front of `bytes` announces -/
def announces (bytes : List UInt8) (kind : OpcodeKind) : ℕ × Option (ℕ × Reach) :=
  fields (byteOr0 bytes 0) (byteOr0 bytes 1) (byteOr0 bytes 2) kind

/-- `bytes` is exactly one instruction other than EOS, and it means the step `s` -/
def Encodes (bytes : List UInt8) (s : Step UInt8) : Prop :=
  ∃ op header kind, bytes = op :: header ++ s.literals ∧ classify op = some kind ∧ kind ≠ .eos ∧
    (op :: header).length = headerLen kind ∧ announces (op :: header) kind = (s.literals.length, s.copy)

/-- what the bytes at the cursor begin with -/
inductive Fetch where
  /-- not a whole instruction -/
  | short
  | invalid (opcode : UInt8)
  | eos
  | instr (size : ℕ) (s : Step UInt8)
deriving DecidableEq, Repr

def fetch : List UInt8 → Fetch
  | [] => .short
  | op :: tail =>
    match classify op with
    | none => .invalid op
    | some kind =>
      let bytes := op :: tail
      let (n, copy) := announces bytes kind
      if kind = .eos then .eos
      else if bytes.length < headerLen kind then .short
      else if bytes.length < headerLen kind + n then .short
      else .instr (headerLen kind + n) ⟨(bytes.drop (headerLen kind)).take n, copy⟩

theorem headerLen_pos (kind : OpcodeKind) : 0 < headerLen kind := by cases kind <;> decide

theorem byteOr0_append {a : List UInt8} (b : List UInt8) {i : ℕ} (h : i < a.length) :
    byteOr0 (a ++ b) i = byteOr0 a i := by
  simp [byteOr0, List.getElem?_append_left h]

/-- a header announces the same whatever follows it -/
theorem announces_append {a : List UInt8} (b : List UInt8) {kind : OpcodeKind} (h : headerLen kind ≤ a.length) :
    announces (a ++ b) kind = announces a kind := by
  unfold announces
  cases kind <;> simp only [headerLen] at h <;> simp (disch := omega) [fields, byteOr0_append]

theorem fetch_cons {op : UInt8} {kind : OpcodeKind} (tail : List UInt8) (hk : classify op = some kind)
    (he : kind ≠ .eos) :
    fetch (op :: tail) =
      if (op :: tail).length < headerLen kind + (announces (op :: tail) kind).1 then .short
      else .instr (headerLen kind + (announces (op :: tail) kind).1)
        ⟨((op :: tail).drop (headerLen kind)).take (announces (op :: tail) kind).1, (announces (op :: tail) kind).2⟩ := by
  rw [fetch, hk]
  dsimp only
  rw [if_neg he]
  split_ifs with h1 h2 h2
  · rfl
  · omega
  · rfl
  · rfl

theorem fetch_eos_iff {bytes : List UInt8} : fetch bytes = .eos ↔ ∃ tail, bytes = 0x06 :: tail := by
  cases bytes with
  | nil => simp [fetch]
  | cons op tail =>
    constructor
    · intro h
      cases hk : classify op with
      | none => simp [fetch, hk] at h
      | some kind =>
        by_cases he : kind = .eos
        · subst he
          exact ⟨tail, by rw [(classify_eos op).1 hk]⟩
        · rw [fetch_cons tail hk he] at h
          split_ifs at h
    · intro h
      rcases h with ⟨t, h⟩
      cases h
      rfl

theorem fetch_invalid_iff {bytes : List UInt8} {op : UInt8} :
    fetch bytes = .invalid op ↔ ∃ tail, bytes = op :: tail ∧ classify op = none := by
  cases bytes with
  | nil => simp [fetch]
  | cons b tail =>
    cases hk : classify b with
    | none =>
      rw [fetch, hk]
      constructor
      · intro h; cases h; exact ⟨tail, rfl, hk⟩
      · rintro ⟨t, h, -⟩; cases h; rfl
    | some kind =>
      constructor
      · intro h
        by_cases he : kind = .eos
        · subst he; simp [fetch, hk] at h
        · rw [fetch_cons tail hk he] at h
          split_ifs at h
      · intro h
        rcases h with ⟨t, h, hn⟩
        cases h
        rw [hk] at hn
        cases hn

/-- an instruction of the grammar is fetched whatever follows it -/
theorem encodes_fetch {bytes : List UInt8} {s : Step UInt8} (h : Encodes bytes s) (tail : List UInt8) :
    fetch (bytes ++ tail) = .instr bytes.length s := by
  obtain ⟨op, header, kind, rfl, hk, he, hlen, hf⟩ := h
  have hann : announces (op :: (header ++ s.literals ++ tail)) kind = (s.literals.length, s.copy) := by
    rw [← hf, ← announces_append (s.literals ++ tail) hlen.ge]
    simp
  have htake : (op :: (header ++ s.literals ++ tail)).drop (headerLen kind) = s.literals ++ tail := by
    rw [← hlen, show op :: (header ++ s.literals ++ tail) = (op :: header) ++ (s.literals ++ tail) by simp,
      List.drop_left]
  rw [List.cons_append, List.cons_append, fetch_cons _ hk he, hann, htake, if_neg]
  · simp only [List.take_left', List.length_cons, List.length_append]
    rw [← hlen]
    simp [Nat.add_right_comm]
  · rw [← hlen]
    simp; omega

/-- what is fetched is an instruction of the grammar -/
theorem fetch_encodes {bytes : List UInt8} {n : ℕ} {s : Step UInt8} (h : fetch bytes = .instr n s) :
    0 < n ∧ n ≤ bytes.length ∧ Encodes (bytes.take n) s := by
  cases bytes with
  | nil => simp [fetch] at h
  | cons op tail =>
    cases hk : classify op with
    | none => simp [fetch, hk] at h
    | some kind =>
      have he : kind ≠ .eos := by
        rintro rfl
        simp [fetch, hk] at h
      rw [fetch_cons tail hk he] at h
      set bytes := op :: tail with hb
      set k := (announces bytes kind).1 with hkdef
      split_ifs at h with hlen
      cases h
      have hpos := headerLen_pos kind
      have hsplit : bytes.take (headerLen kind + k) =
          bytes.take (headerLen kind) ++ (bytes.drop (headerLen kind)).take k := List.take_add ..
      obtain ⟨j, hj⟩ : ∃ j, headerLen kind = j + 1 := ⟨headerLen kind - 1, by omega⟩
      have hhead : bytes.take (headerLen kind) = op :: tail.take j := by rw [hj, hb, List.take_succ_cons]
      have hheadlen : (op :: tail.take j).length = headerLen kind := by
        rw [← hhead, List.length_take]; omega
      refine ⟨by omega, by omega, op, tail.take j, kind, ?_, hk, he, hheadlen, ?_⟩
      · rw [hsplit, hhead]
      · have hann : announces (op :: tail.take j) kind = announces bytes kind := by
          rw [← announces_append (bytes.drop (headerLen kind)) hheadlen.ge, ← hhead, List.take_append_drop]
        have hk' : ((bytes.drop (headerLen kind)).take k).length = k := by
          rw [List.length_take, List.length_drop]; omega
        rw [hann]
        dsimp only
        rw [hk', hkdef]

/-- more bytes change only the answer `short` -/
theorem fetch_append {bytes : List UInt8} (h : fetch bytes ≠ .short) (more : List UInt8) :
    fetch (bytes ++ more) = fetch bytes := by
  cases hf : fetch bytes with
  | short => exact absurd hf h
  | invalid op =>
    obtain ⟨tail, rfl, hk⟩ := fetch_invalid_iff.1 hf
    exact fetch_invalid_iff.2 ⟨tail ++ more, rfl, hk⟩
  | eos =>
    obtain ⟨tail, rfl⟩ := fetch_eos_iff.1 hf
    exact fetch_eos_iff.2 ⟨tail ++ more, rfl⟩
  | instr n s =>
    obtain ⟨-, hle, henc⟩ := fetch_encodes hf
    have := encodes_fetch henc (bytes.drop n ++ more)
    rw [← List.append_assoc, List.take_append_drop, List.length_take, min_eq_left hle] at this
    exact this

/-! ## Parts of instructions -/

/-- no instruction is longer than the largest literal -/
theorem length_announced_le (bytes : List UInt8) (kind : OpcodeKind) :
    headerLen kind + (announces bytes kind).1 ≤ 273 := by
  have h0 : byteOr0 bytes 0 < 256 := UInt8.toNat_lt _
  have h1 : byteOr0 bytes 1 < 256 := UInt8.toNat_lt _
  cases kind <;> simp only [announces, fields, headerLen] <;> omega

theorem Encodes.length_le {bytes : List UInt8} {s : Step UInt8} (h : Encodes bytes s) : bytes.length ≤ 273 := by
  obtain ⟨op, header, kind, rfl, -, -, hlen, hf⟩ := h
  have hle := length_announced_le (op :: header) kind
  rw [hf] at hle
  rw [List.length_append, hlen]
  exact hle

/-- zeros behind the bytes are read as what is past their end -/
theorem byteOr0_zeros (bytes : List UInt8) (k i : ℕ) : byteOr0 (bytes ++ List.replicate k 0) i = byteOr0 bytes i := by
  rcases lt_or_ge i bytes.length with hlt | hge
  · exact byteOr0_append _ hlt
  · rw [byteOr0, byteOr0, List.getElem?_eq_none hge, List.getElem?_append_right hge, List.getElem?_replicate]
    split_ifs <;> rfl

/-- **What is too short** is a part of an instruction, and not all of it. -/
theorem fetch_short_iff {bytes : List UInt8} :
    fetch bytes = .short ↔ ∃ more s, more ≠ [] ∧ Encodes (bytes ++ more) s := by
  constructor
  · intro h
    cases bytes with
    | nil => exact ⟨[0x0E], ⟨[], none⟩, by simp, 0x0E, [], .nop, rfl, by decide, by decide, rfl, rfl⟩
    | cons op tail =>
      cases hk : classify op with
      | none => simp [fetch, hk] at h
      | some kind =>
        have he : kind ≠ .eos := by
          rintro rfl
          simp [fetch, hk] at h
        rw [fetch_cons tail hk he] at h
        split_ifs at h with hlen
        -- the missing bytes may be zeros: they announce what the bytes that are there do
        set total := headerLen kind + (announces (op :: tail) kind).1 with htotal
        have hzeros : announces (op :: (tail ++ List.replicate (total - (op :: tail).length) 0)) kind =
            announces (op :: tail) kind := by
          rw [← List.cons_append]
          simp only [announces, byteOr0_zeros]
        have hwhole : (op :: (tail ++ List.replicate (total - (op :: tail).length) 0)).length = total := by
          rw [← List.cons_append, List.length_append, List.length_replicate]
          omega
        have hf := fetch_cons (tail ++ List.replicate (total - (op :: tail).length) 0) hk he
        rw [hzeros, hwhole, ← htotal, if_neg (lt_irrefl total)] at hf
        obtain ⟨-, -, henc⟩ := fetch_encodes hf
        rw [List.take_of_length_le hwhole.le] at henc
        refine ⟨List.replicate (total - (op :: tail).length) 0, _, ?_, henc⟩
        rw [ne_eq, List.replicate_eq_nil_iff]
        omega
  · intro h
    rcases h with ⟨more, s, hne, henc⟩
    by_contra hshort
    have hf := encodes_fetch henc []
    rw [List.append_nil, fetch_append hshort] at hf
    obtain ⟨-, hle, -⟩ := fetch_encodes hf
    rw [List.length_append] at hle
    exact hne (List.eq_nil_of_length_eq_zero (by omega))

/-- a part of an instruction is at most 272 bytes -/
theorem length_le_of_short {bytes : List UInt8} (h : fetch bytes = .short) : bytes.length ≤ 272 := by
  obtain ⟨more, s, hne, henc⟩ := fetch_short_iff.1 h
  have hpos := List.length_pos_iff.2 hne
  have hle := henc.length_le
  rw [List.length_append] at hle
  omega

/-! ## Lists of instructions -/

/-- `bytes` is a list of instructions that mean `steps` -/
inductive Program : List UInt8 → List (Step UInt8) → Prop where
  | nil : Program [] []
  | cons {a b : List UInt8} {s : Step UInt8} {steps : List (Step UInt8)} (head : Encodes a s) (tail : Program b steps) :
    Program (a ++ b) (s :: steps)

theorem Program.append {a b : List UInt8} {s t : List (Step UInt8)} (h1 : Program a s) (h2 : Program b t) :
    Program (a ++ b) (s ++ t) := by
  induction h1 with
  | nil => exact h2
  | cons head _ ih => rw [List.append_assoc]; exact .cons head ih

/-- `bytes` is a list of instructions that takes window `w` to `w'` -/
def Codes (bytes : List UInt8) (w w' : Window UInt8) : Prop :=
  ∃ steps, Program bytes steps ∧ replay w steps = some w'

theorem Codes.refl (w : Window UInt8) : Codes [] w w := ⟨[], .nil, rfl⟩

theorem Codes.trans {a b : List UInt8} {w w1 w2 : Window UInt8} (h1 : Codes a w w1) (h2 : Codes b w1 w2) :
    Codes (a ++ b) w w2 := by
  obtain ⟨s, hs, hr⟩ := h1
  obtain ⟨t, ht, hr'⟩ := h2
  exact ⟨s ++ t, hs.append ht, by rw [replay_append, hr]; exact hr'⟩

theorem Codes.single {a : List UInt8} {s : Step UInt8} {w w' : Window UInt8} (h : Encodes a s)
    (hw : w.apply s = some w') : Codes a w w' :=
  ⟨[s], by simpa using Program.cons h .nil, by rw [replay_cons, hw]; rfl⟩

theorem Codes.le {a : List UInt8} {w w' : Window UInt8} (h : Codes a w w') : w.out <+: w'.out := by
  obtain ⟨s, -, hr⟩ := h
  exact replay_le hr

/-! ## Scanning -/

/-- an offset in the stream, the bytes from there on, and the window -/
structure Cursor where
  pos : ℕ
  bytes : List UInt8
  win : Window UInt8
deriving DecidableEq, Repr

namespace Cursor

def start (src : List UInt8) : Cursor := ⟨0, src, Window.init⟩

/-- the cursor once `tail` has arrived too -/
def more (c : Cursor) (tail : List UInt8) : Cursor := { c with bytes := c.bytes ++ tail }

@[simp] theorem more_bytes (c : Cursor) (tail : List UInt8) : (c.more tail).bytes = c.bytes ++ tail := rfl
@[simp] theorem more_win (c : Cursor) (tail : List UInt8) : (c.more tail).win = c.win := rfl

theorem more_nil (c : Cursor) : c.more [] = c := by simp [more]

theorem more_more (c : Cursor) (a b : List UInt8) : (c.more a).more b = c.more (a ++ b) := by simp [more]

end Cursor

/-- why a scan stops -/
inductive Verdict where
  | short
  | invalidOpcode (opcode : UInt8)
  /-- the distance of this step does not reach into the output -/
  | badDistance (s : Step UInt8)
  | eos
deriving DecidableEq, Repr

/-- one instruction -/
def scanRound (c : Cursor) : Flow Cursor (Cursor × Verdict) :=
  match fetch c.bytes with
  | .short => .leave (c, .short)
  | .invalid op => .leave (c, .invalidOpcode op)
  | .eos => .leave (c, .eos)
  | .instr n s =>
    match c.win.apply s with
    | some w => .again ⟨c.pos + n, c.bytes.drop n, w⟩
    | none => .leave (c, .badDistance s)

/-- what a round does, whatever comes behind the bytes it looks at -/
theorem scanRound_again {c c' : Cursor} (h : scanRound c = .again c') :
    ∃ n s w, fetch c.bytes = .instr n s ∧ c.win.apply s = some w ∧ c' = ⟨c.pos + n, c.bytes.drop n, w⟩ := by
  unfold scanRound at h
  split at h
  · cases h
  · cases h
  · cases h
  · rename_i n s hf
    split at h
    · rename_i w hw
      cases h
      exact ⟨n, s, w, hf, hw, rfl⟩
    · cases h

theorem scanRound_leave {c : Cursor} {r : Cursor × Verdict} (h : scanRound c = .leave r) :
    r.1 = c ∧ (r.2 = .short ↔ fetch c.bytes = .short) := by
  unfold scanRound at h
  split at h
  · rename_i hf; cases h; exact ⟨rfl, by simp [hf]⟩
  · rename_i hf; cases h; exact ⟨rfl, by simp [hf]⟩
  · rename_i hf; cases h; exact ⟨rfl, by simp [hf]⟩
  · rename_i n s hf
    split at h
    · cases h
    · cases h; exact ⟨rfl, by simp [hf]⟩

def scanLoop : Loop Cursor (Cursor × Verdict) where
  body := scanRound
  bound c := c.bytes.length
  falls := by
    intro c c' h
    obtain ⟨n, s, w, hf, -, rfl⟩ := scanRound_again h
    obtain ⟨h0, hn, -⟩ := fetch_encodes hf
    simp only [List.length_drop]
    omega

/-- execute instructions until something stops the scan -/
def scan (c : Cursor) : Cursor × Verdict := scanLoop.run c

theorem scan_again {c c' : Cursor} (h : scanRound c = .again c') : scan c = scan c' := scanLoop.run_again h

theorem scan_leave {c : Cursor} {r : Cursor × Verdict} (h : scanRound c = .leave r) : scan c = r :=
  scanLoop.run_leave h

theorem scan_instr {c : Cursor} {n : ℕ} {s : Step UInt8} {w : Window UInt8} (hf : fetch c.bytes = .instr n s)
    (hw : c.win.apply s = some w) : scan c = scan ⟨c.pos + n, c.bytes.drop n, w⟩ :=
  scan_again (by simp [scanRound, hf, hw])

/-- where a scan stops, and that it stops there -/
theorem scan_spec (c : Cursor) : ∃ body, c.bytes = body ++ (scan c).1.bytes ∧ Codes body c.win (scan c).1.win ∧
    (scan c).1.pos = c.pos + body.length ∧ scanRound (scan c).1 = .leave (scan c) := by
  refine scanLoop.run_rule (fun c r => ∃ body, c.bytes = body ++ r.1.bytes ∧ Codes body c.win r.1.win ∧
    r.1.pos = c.pos + body.length ∧ scanRound r.1 = .leave r) ?_ ?_ c
  · intro c r h
    obtain ⟨hc, -⟩ := scanRound_leave h
    exact ⟨[], by simp [hc], hc ▸ Codes.refl _, by simp [hc], hc ▸ h⟩
  · intro c c' r h ih
    obtain ⟨n, s, w, hf, hw, rfl⟩ := scanRound_again h
    obtain ⟨-, hn, henc⟩ := fetch_encodes hf
    obtain ⟨body, hb, hcodes, hpos, hleave⟩ := ih
    refine ⟨c.bytes.take n ++ body, ?_, (Codes.single henc hw).trans hcodes, ?_, hleave⟩
    · rw [List.append_assoc, ← hb, List.take_append_drop]
    · rw [hpos, List.length_append, List.length_take, min_eq_left hn]
      simp only
      omega

/-- where the bytes of a scan end does not move -/
theorem scan_end (c : Cursor) : (scan c).1.pos + (scan c).1.bytes.length = c.pos + c.bytes.length := by
  obtain ⟨body, hb, -, hpos, -⟩ := scan_spec c
  rw [hpos, hb, List.length_append, Nat.add_assoc]

/-- a scan only adds output -/
theorem le_scan (c : Cursor) : c.win.out <+: (scan c).1.win.out := by
  obtain ⟨_, -, hcodes, -, -⟩ := scan_spec c
  exact hcodes.le

/-- a scan goes through a list of instructions -/
theorem scan_codes {bytes : List UInt8} {w w' : Window UInt8} (h : Codes bytes w w') (pos : ℕ) (tail : List UInt8) :
    scan ⟨pos, bytes ++ tail, w⟩ = scan ⟨pos + bytes.length, tail, w'⟩ := by
  obtain ⟨steps, hp, hr⟩ := h
  induction hp generalizing pos w with
  | nil => cases hr; rfl
  | @cons a b s steps head _ ih =>
    rw [replay_cons, Option.bind_eq_some_iff] at hr
    obtain ⟨w1, hw1, hr⟩ := hr
    have hf := encodes_fetch head (b ++ tail)
    rw [← List.append_assoc] at hf
    rw [scan_instr (c := ⟨pos, a ++ b ++ tail, w⟩) hf hw1]
    simp only [List.append_assoc, List.drop_left]
    rw [ih (pos + a.length) hr, List.length_append, Nat.add_assoc]

/-- **More bytes** go on where `short` stopped, and change no other verdict. -/
theorem scan_more (c : Cursor) (tail : List UInt8) :
    scan (c.more tail) =
      if (scan c).2 = .short then scan ((scan c).1.more tail) else ((scan c).1.more tail, (scan c).2) := by
  refine scanLoop.run_rule (fun c r => scan (c.more tail) = if r.2 = .short then scan (r.1.more tail)
    else (r.1.more tail, r.2)) ?_ ?_ c
  · intro c r h
    obtain ⟨hc, hshort⟩ := scanRound_leave h
    split_ifs with hs
    · rw [hc]
    · have hf : fetch (c.bytes ++ tail) = fetch c.bytes := fetch_append (fun hf => hs (hshort.2 hf)) tail
      apply scan_leave
      change scanRound c = .leave r at h
      unfold scanRound at h ⊢
      simp only [Cursor.more_bytes, Cursor.more_win, hf]
      split at h
      · cases h; rename_i hs'; exact absurd hs' (fun hf => hs (hshort.2 hf))
      · cases h; rfl
      · cases h; rfl
      · split at h
        · cases h
        · cases h; rfl
  · intro c c' r h ih
    obtain ⟨n, s, w, hf, hw, rfl⟩ := scanRound_again h
    obtain ⟨-, hn, -⟩ := fetch_encodes hf
    have hf' : fetch (c.more tail).bytes = .instr n s := by
      rw [Cursor.more_bytes, fetch_append (by simp [hf]), hf]
    rw [scan_instr hf' hw, ← ih, Cursor.more_bytes, List.drop_append_of_le_length hn]
    rfl

/-! ## Verdicts on whole streams -/

/-- the bytes behind the EOS opcode are padding -/
def padOk (padding : List UInt8) : Prop := (∀ b ∈ padding, b = 0) ∧ padding.length ≤ 7

instance (padding : List UInt8) : Decidable (padOk padding) :=
  @instDecidableAnd _ _ (List.decidableBAll (· = 0) padding) (Nat.decLe _ _)

theorem padOk_append {a b : List UInt8} : padOk (a ++ b) ↔ padOk a ∧ (∀ x ∈ b, x = 0) ∧ a.length + b.length ≤ 7 := by
  unfold padOk
  simp only [List.mem_append, List.length_append]
  constructor
  · intro h
    rcases h with ⟨h1, h2⟩
    exact ⟨⟨fun x hx => h1 x (Or.inl hx), by omega⟩, fun x hx => h1 x (Or.inr hx), h2⟩
  · intro h
    rcases h with ⟨⟨h1, -⟩, h2, h3⟩
    exact ⟨fun x hx => hx.elim (h1 x) (h2 x), h3⟩

theorem padOk_iff {padding : List UInt8} : padOk padding ↔ ∃ k ≤ 7, padding = List.replicate k 0 := by
  constructor
  · intro h
    rcases h with ⟨h1, h2⟩
    exact ⟨padding.length, h2, List.eq_replicate_length.2 h1⟩
  · intro h
    rcases h with ⟨k, hk, rfl⟩
    exact ⟨fun b hb => List.eq_of_mem_replicate hb, by simpa using hk⟩

/-- `src` is a stream that means `out` -/
def IsStream (src out : List UInt8) : Prop :=
  ∃ body steps k w, src = body ++ 0x06 :: List.replicate k 0 ∧ k ≤ 7 ∧ Program body steps ∧
    replay Window.init steps = some w ∧ w.out = out

/-- a scan that meets the EOS opcode stands before it -/
theorem scan_eos_bytes {c : Cursor} (h : (scan c).2 = .eos) :
    (scan c).1.bytes = 0x06 :: (scan c).1.bytes.drop 1 := by
  obtain ⟨_, -, -, -, hleave⟩ := scan_spec c
  have hf : fetch (scan c).1.bytes = .eos := by
    unfold scanRound at hleave
    split at hleave
    · rw [Flow.leave.injEq] at hleave; rw [← hleave] at h; cases h
    · rw [Flow.leave.injEq] at hleave; rw [← hleave] at h; cases h
    · assumption
    · split at hleave
      · cases hleave
      · rw [Flow.leave.injEq] at hleave; rw [← hleave] at h; cases h
  obtain ⟨tail, ht⟩ := fetch_eos_iff.1 hf
  rw [ht]
  rfl

/-- streams are what a scan goes through up to an EOS opcode with padding behind it -/
theorem isStream_iff_scan {src out : List UInt8} : IsStream src out ↔ (scan (Cursor.start src)).2 = .eos ∧
    padOk ((scan (Cursor.start src)).1.bytes.drop 1) ∧ (scan (Cursor.start src)).1.win.out = out := by
  constructor
  · intro h
    rcases h with ⟨body, steps, k, w, rfl, hk, hp, hr, rfl⟩
    have hscan : scan (Cursor.start (body ++ 0x06 :: List.replicate k 0)) =
        (⟨0 + body.length, 0x06 :: List.replicate k 0, w⟩, .eos) :=
      (scan_codes ⟨steps, hp, hr⟩ 0 _).trans (scan_leave (by rw [scanRound, fetch_eos_iff.2 ⟨_, rfl⟩]))
    rw [hscan]
    exact ⟨rfl, padOk_iff.2 ⟨k, hk, rfl⟩, rfl⟩
  · intro h
    rcases h with ⟨hv, hpad, hout⟩
    obtain ⟨body, hb, ⟨steps, hp, hr⟩, -, -⟩ := scan_spec (Cursor.start src)
    obtain ⟨k, hk, hz⟩ := padOk_iff.1 hpad
    refine ⟨body, steps, k, _, ?_, hk, hp, hr, hout⟩
    rw [← hz, ← scan_eos_bytes hv]
    exact hb

theorem IsStream.unique {src a b : List UInt8} (ha : IsStream src a) (hb : IsStream src b) : a = b :=
  (isStream_iff_scan.1 ha).2.2.symm.trans (isStream_iff_scan.1 hb).2.2

/-- a stream that begins with the EOS opcode means nothing -/
theorem IsStream.of_eos {tail out : List UInt8} (h : IsStream (0x06 :: tail) out) : out = [] := by
  obtain ⟨-, -, rfl⟩ := isStream_iff_scan.1 h
  have hf : fetch (Cursor.start (0x06 :: tail)).bytes = .eos := fetch_eos_iff.2 ⟨tail, rfl⟩
  rw [scan_leave (r := (Cursor.start (0x06 :: tail), .eos)) (by rw [scanRound, hf])]
  rfl

/-- a scan of more bytes has more output -/
theorem scan_out_le (p more : List UInt8) :
    (scan (Cursor.start p)).1.win.out <+: (scan (Cursor.start (p ++ more))).1.win.out := by
  have hmore : scan (Cursor.start (p ++ more)) = _ := scan_more (Cursor.start p) more
  rw [hmore]
  split_ifs
  · exact le_scan ((scan (Cursor.start p)).1.more more)
  · exact List.prefix_rfl

/-- a scan of the front of a stream has the front of its meaning, and all of it once it meets the EOS opcode -/
theorem IsStream.front {p more out : List UInt8} (h : IsStream (p ++ more) out) :
    (scan (Cursor.start p)).1.win.out <+: out ∧ ((scan (Cursor.start p)).2 = .short ∨
      (scan (Cursor.start p)).2 = .eos ∧ padOk ((scan (Cursor.start p)).1.bytes.drop 1) ∧
        (scan (Cursor.start p)).1.win.out = out) := by
  obtain ⟨hv, hpad, hout⟩ := isStream_iff_scan.1 h
  refine ⟨hout ▸ scan_out_le p more, ?_⟩
  have hmore : scan (Cursor.start (p ++ more)) = _ := scan_more (Cursor.start p) more
  split_ifs at hmore with hshort
  · exact .inl hshort
  · rw [hmore] at hv hpad hout
    have heos := scan_eos_bytes hv
    rw [Cursor.more_bytes, List.drop_append_of_le_length (by rw [heos]; simp)] at hpad
    rw [Cursor.more_win] at hout
    exact .inr ⟨hv, (padOk_append.1 hpad).1, hout⟩

end Lzvn.Raw
