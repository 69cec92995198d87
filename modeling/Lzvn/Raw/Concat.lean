/-
Streams one behind the other. The instructions of a stream may stand behind those of another one: the raw format has no
header, and the distances of a stream that is decoded on its own do not reach in front of it.

- `IsStream.behind`: the meaning of a stream behind other instructions.
- `decode_spliced`: a stream without its end marker, and then a second stream.
- `encode_spliced`: chunks that are encoded on their own, spliced into one stream.
-/
import Lzvn.Core.Reach
import Lzvn.Raw.RoundTrip
import Lzvn.Raw.Truncation

namespace Lzvn.Raw

open Lzvn.Core Lzvn.Core.Lz77

/-- instructions that mean `out` from the start append it behind any window -/
theorem Codes.behind {body : List UInt8} {w : Window UInt8} (h : Codes body Window.init w) (v : Window UInt8) :
    ∃ v', Codes body v v' ∧ v'.out = v.out ++ w.out := by
  obtain ⟨steps, hp, hr⟩ := h
  obtain ⟨v', hv', hout, -⟩ := replay_prepends (.init v) hr
  exact ⟨v', ⟨steps, hp, hv'⟩, hout⟩

/-- **A stream behind instructions** appends its meaning to theirs. -/
theorem IsStream.behind {body src out : List UInt8} {w : Window UInt8} (hb : Codes body Window.init w)
    (hs : IsStream src out) : IsStream (body ++ src) (w.out ++ out) := by
  obtain ⟨tail, steps, k, w', rfl, hk, hp, hr, rfl⟩ := hs
  obtain ⟨v', hv', hout⟩ := Codes.behind ⟨steps, hp, hr⟩ w
  obtain ⟨steps', hp', hr'⟩ := hb.trans hv'
  exact ⟨body ++ tail, steps', k, v', (List.append_assoc _ _ _).symm, hk, hp', hr', hout⟩

/-- the instructions of a stream -/
theorem IsStream.splits {src out : List UInt8} (h : IsStream src out) : ∃ instrs padding w, Splits src instrs padding ∧
    Codes instrs.flatten Window.init w ∧ w.out = out := by
  obtain ⟨body, steps, k, w, rfl, -, hp, hr, hout⟩ := h
  obtain ⟨instrs, rfl, hall⟩ := hp.splits
  exact ⟨instrs, _, w, ⟨rfl, hall⟩, ⟨steps, hp, hr⟩, hout⟩

/-- **Streams can be spliced.** When two streams are accepted, then so are the instructions of the first one with the second
one behind them, and they decode to both outputs. -/
theorem decode_spliced {u : Usize} {src1 src2 v1 v2 : List UInt8} {n1 n2 : ℕ} (h1 : decode u src1 n1 = .ok v1)
    (h2 : decode u src2 n2 = .ok v2) (hlen : n1 + n2 ≤ u.isizeMax) : ∃ instrs padding, Splits src1 instrs padding ∧
      decode u (instrs.flatten ++ src2) (n1 + n2) = .ok (v1 ++ v2) := by
  obtain ⟨-, hs1, rfl⟩ := decode_ok_iff.1 h1
  obtain ⟨-, hs2, rfl⟩ := decode_ok_iff.1 h2
  obtain ⟨instrs, padding, w, hsplits, hcodes, rfl⟩ := hs1.splits
  exact ⟨instrs, padding, hsplits, decode_ok_iff.2 ⟨hlen, hs2.behind hcodes, List.length_append⟩⟩

/-- one literal, and behind it a stream that copies its own literal -/
theorem literal_spliced : ∃ instrs padding, Splits [0xE1, 0x61, 0x06] instrs padding ∧
    decode .bits64 (instrs.flatten ++ [0x40, 0x01, 0x62, 0x06, 0]) 5 = .ok [0x61, 0x62, 0x62, 0x62, 0x62] :=
  have hfirst : decode .bits64 [0xE1, 0x61, 0x06] 1 = .ok [0x61] :=
    decode_ok_iff.2 ⟨by decide, isStream_iff_scan.2 (by decide), rfl⟩
  have hsecond : decode .bits64 [0x40, 0x01, 0x62, 0x06, 0] 4 = .ok [0x62, 0x62, 0x62, 0x62] :=
    decode_ok_iff.2 ⟨by decide, isStream_iff_scan.2 (by decide), rfl⟩
  decode_spliced hfirst hsecond (by decide)

/-- what `encode` returns, without the end marker -/
def encodedBody (src : List UInt8) : List UInt8 :=
  match encode src with
  | .ok out => out.take (out.length - eos.length)
  | .error _ => []

theorem encodedBody_codes (src : List UInt8) : ∃ w, encode src = .ok (encodedBody src ++ eos) ∧
    Codes (encodedBody src) Window.init w ∧ w.out = src := by
  obtain ⟨body, w, he, hcodes, hw⟩ := encode_spec src
  have hbody : encodedBody src = body := by
    rw [encodedBody, he]
    simp
  rw [hbody]
  exact ⟨w, he, hcodes, hw⟩

theorem encodedBodies_codes (chunks : List (List UInt8)) (v : Window UInt8) :
    ∃ v', Codes (chunks.flatMap encodedBody) v v' ∧ v'.out = v.out ++ chunks.flatten := by
  induction chunks generalizing v with
  | nil => exact ⟨v, .refl v, (List.append_nil _).symm⟩
  | cons c chunks ih =>
    obtain ⟨w, -, hcodes, rfl⟩ := encodedBody_codes c
    obtain ⟨v1, hv1, hout1⟩ := hcodes.behind v
    obtain ⟨v', hv', hout'⟩ := ih v1
    refine ⟨v', hv1.trans hv', ?_⟩
    rw [hout', hout1, List.append_assoc, List.flatten_cons]

/-- **Chunks can be encoded on their own.** What `encode` returns for each of them, without the end markers but the last one,
decodes to all of them. -/
theorem encode_spliced (u : Usize) (src : Slice u) (chunks : List (List UInt8)) (h : chunks.flatten = src.bytes) :
    (∀ c, encode c = .ok (encodedBody c ++ eos)) ∧
      decode u (chunks.flatMap encodedBody ++ eos) src.bytes.length = .ok src.bytes := by
  constructor
  · intro c
    obtain ⟨w, he, -, -⟩ := encodedBody_codes c
    exact he
  · obtain ⟨v, ⟨steps, hp, hr⟩, hout⟩ := encodedBodies_codes chunks Window.init
    refine decode_ok_iff.2 ⟨src.length_le, ⟨_, steps, 7, v, rfl, le_rfl, hp, hr, ?_⟩, rfl⟩
    rw [hout, ← h]
    rfl

/-- two chunks of one byte -/
theorem two_bytes_spliced :
    decode .bits64 (encodedBody [0x61] ++ encodedBody [0x62] ++ eos) 2 = .ok [0x61, 0x62] := by
  have h := (encode_spliced .bits64 ⟨[0x61, 0x62], by decide⟩ [[0x61], [0x62]] rfl).2
  rwa [List.flatMap_cons, List.flatMap_cons, List.flatMap_nil, List.append_nil] at h

end Lzvn.Raw
