/-
Runs of the incremental `bvxn` decoder.

`Tracks s q` relates a state to the bytes `q` fed so far. Before the header is there, they are all buffered; behind it, the
payload bytes of `q` are those that the raw decoder was fed and the ones still buffered, and `payload_remaining` counts
the declared bytes that the raw decoder was not fed; a finished decoder stands behind a block.

- `takeHeader_waiting`, `pumpPayload_reading`: the parts of `decode_into` on the way to the raw decoder.
- `Early`: a call that finishes before the declared payload is there.
- `step_outcome`: what a call makes of the bytes fed so far. It does not fail while they can still become a block, and
  keeps `Tracks` unless it is early or fails.
-/
import Lzvn.Apple.BvxnStep

namespace Lzvn.Apple

open Lzvn.Core Lzvn.Apple.Bvxn
open Lzvn.Raw (RawDecoder Cursor Verdict IsStream scan padOk)

namespace BvxnDecoder

/-! ## Behind the header -/

/-- `s` has read the header of `q` and fed `p` to the raw decoder -/
structure Reading (s : BvxnDecoder) (q : List UInt8) (header : BvxnHeader) (p : List UInt8) : Prop where
  offset_le : s.inputOffset ≤ s.input.length
  position : s.absoluteOffset = headerLen + p.length
  parsed : parseHeader q = .ok header
  known : s.header = some header
  payload : q.drop headerLen = p ++ s.unread
  budget : p.length + s.payloadRemaining = header.payloadBytes
  raw : s.raw.Tracks p
  running : s.raw.finished = false
  rawInput : s.raw.finishedInput = true → s.payloadRemaining = 0
  unfinished : s.finished = false
  clean : s.trailingAfterFinish = 0

theorem Reading.compacts {s s' : BvxnDecoder} {q p : List UInt8} {header : BvxnHeader} (h : Reading s q header p)
    (hc : Compacts s s') : Reading s' q header p where
  offset_le := hc.offset_le
  position := hc.absoluteOffset.trans h.position
  parsed := h.parsed
  known := hc.header.trans h.known
  payload := by rw [hc.unread]; exact h.payload
  budget := by rw [hc.payloadRemaining]; exact h.budget
  raw := by rw [hc.raw]; exact h.raw
  running := by rw [hc.raw]; exact h.running
  rawInput := by rw [hc.raw, hc.payloadRemaining]; exact h.rawInput
  unfinished := hc.finished.trans h.unfinished
  clean := hc.trailingAfterFinish.trans h.clean

/-- the length of the payload that was fed, counted from the front of `q` -/
theorem Reading.length {s : BvxnDecoder} {q p : List UInt8} {header : BvxnHeader} (h : Reading s q header p) :
    q.length = headerLen + p.length + s.unread.length := by
  have hle := parseHeader_length h.parsed
  have hlen := congrArg List.length h.payload
  rw [List.length_drop, List.length_append] at hlen
  omega

theorem raw_feed {r : RawDecoder} (h : r.finished = false) (input : List UInt8) :
    (r.feed input).finished = false ∧ (r.feed input).history = r.history ∧
      (r.feed input).finishedInput = r.finishedInput := by
  rw [RawDecoder.feed_running h]
  exact ⟨h, rfl, rfl⟩

/-- the payload bytes that are there go to the raw decoder -/
theorem Reading.feeds {s s' : BvxnDecoder} {q p : List UInt8} {header : BvxnHeader} (h : Reading s q header p)
    (hf : Feeds s s') : Reading s' q header (p ++ s.unread.take s.payloadRemaining) := by
  have hposition := h.position
  have hbudget := h.budget
  have habsolute := hf.absoluteOffset
  have hremaining := hf.payloadRemaining
  obtain ⟨hrun, -, hin⟩ := raw_feed h.running (s.unread.take s.payloadRemaining)
  exact {
    offset_le := hf.offset_le
    position := by rw [List.length_append]; omega
    parsed := h.parsed
    known := hf.header.trans h.known
    payload := by rw [hf.unread, List.append_assoc, List.take_append_drop]; exact h.payload
    budget := by rw [List.length_append]; omega
    raw := by rw [hf.raw]; exact RawDecoder.tracks_feed h.raw _
    running := by rw [hf.raw]; exact hrun
    rawInput := fun hlast => by
      rw [hf.raw] at hlast
      have := h.rawInput (hin.symm.trans hlast)
      omega
    unfinished := hf.finished.trans h.unfinished
    clean := hf.trailingAfterFinish.trans h.clean }

/-- `pump_payload` fails when more is there than the header declares, and else has fed all that is there -/
theorem pumpPayload_reading {s : BvxnDecoder} {q p : List UInt8} {header : BvxnHeader} (h : Reading s q header p) :
    if headerLen + header.payloadBytes < q.length then ∃ n s', pumpPayload.run s = .error (.err (.trailingData n)) s'
    else ∃ s', pumpPayload.run s = .ok () s' ∧ Reading s' q header (q.drop headerLen) ∧ s'.unread = [] ∧
      (s'.payloadRemaining = 0 → s'.raw.finishedInput = true) ∧ s'.raw.history = s.raw.history ∧
      s'.finishedInput = s.finishedInput := by
  obtain ⟨s1, hfeeds, hrun⟩ := run_pumpPayload h.offset_le
  have h1 := h.feeds hfeeds
  have hlen := h.length
  have hbudget := h.budget
  have havail := length_unread s1
  rw [hfeeds.unread, List.length_drop] at havail
  have hbudget1 := h1.budget
  rw [List.length_append, List.length_take] at hbudget1
  have hhist : s1.raw.history = s.raw.history := by rw [hfeeds.raw]; exact (raw_feed h.running _).2.1
  rw [hrun]
  by_cases hlong : headerLen + header.payloadBytes < q.length
  · rw [if_pos hlong, if_pos (by omega)]
    exact ⟨_, _, rfl⟩
  · have htake : s.unread.take s.payloadRemaining = s.unread := List.take_of_length_le (by omega)
    have hnil : s1.unread = [] := by rw [hfeeds.unread]; exact List.drop_of_length_le (by omega)
    rw [htake, ← h.payload] at h1
    rw [if_neg hlong, if_neg (by omega)]
    refine ⟨s1.close, rfl, ?_, ?_⟩
    · exact { h1 with
        raw := s1.close_cases (fun r => r.Tracks _) h1.raw fun _ => RawDecoder.tracks_finishInput h1.raw
        running := s1.close_cases (fun r => r.finished = false) h1.running fun _ => h1.running
        rawInput := s1.close_cases (fun r => r.finishedInput = true → s1.payloadRemaining = 0) h1.rawInput
          fun hzero _ => hzero }
    · exact ⟨hnil, s1.close_finishedInput, (s1.close_cases (fun r => r.history = s1.raw.history) rfl fun _ => rfl).trans
        hhist, hfeeds.finishedInput⟩

/-! ## The bytes fed so far -/

/-- `s` is where a decoder stands that was fed `q` and has not failed on it -/
inductive Tracks (s : BvxnDecoder) (q : List UInt8) : Prop where
  | waiting (offset : s.inputOffset = 0) (base : s.inputBase = 0) (input : s.input = q) (header : s.header = none)
    (raw : s.raw = .new) (unfinished : s.finished = false) (clean : s.trailingAfterFinish = 0)
  | reading {header : BvxnHeader} {p : List UInt8} (h : Reading s q header p)
  | finished {block extra : List UInt8} (done : s.finished = true) (whole : q = block ++ extra)
    (block : IsBlock block s.raw.history) (trailing : s.trailingAfterFinish = extra.length)

theorem tracks_new : Tracks new [] := .waiting rfl rfl rfl rfl rfl rfl rfl

theorem tracks_feed {s : BvxnDecoder} {q : List UInt8} (h : Tracks s q) (input : List UInt8) :
    Tracks (feed input s) (q ++ input) := by
  unfold feed feedWith
  split_ifs with hnil hdone
  · rwa [hnil, List.append_nil]
  · cases h with
    | waiting _ _ _ _ _ unfinished => rw [unfinished] at hdone; cases hdone
    | reading h => rw [h.unfinished] at hdone; cases hdone
    | @finished _ extra done whole block trailing =>
      have hextra : s.trailingAfterFinish + input.length = (extra ++ input).length := by
        rw [List.length_append, trailing]
      exact .finished done (by rw [whole, List.append_assoc]) block hextra
  · cases h with
    | waiting offset base hin header raw unfinished clean =>
      exact .waiting offset base (congrArg (· ++ input) hin) header raw unfinished clean
    | reading h =>
      have hle := h.offset_le
      refine .reading { h with
        offset_le := by dsimp only; rw [List.length_append]; omega
        parsed := (parseHeader_append (parseHeader_length h.parsed) input).trans h.parsed
        payload := ?_ }
      rw [List.drop_append_of_le_length (parseHeader_length h.parsed), h.payload, List.append_assoc]
      exact congrArg _ (List.drop_append_of_le_length hle).symm
    | finished done => rw [done] at hdone; exact absurd rfl hdone

/-- feeding changes neither phase nor output -/
theorem feed_keeps (input : List UInt8) (s : BvxnDecoder) : (feed input s).finished = s.finished ∧
    (feed input s).raw = s.raw ∧ (feed input s).finishedInput = s.finishedInput := by
  unfold feed feedWith
  split_ifs <;> exact ⟨rfl, rfl, rfl⟩

theorem tracks_finishInput {s : BvxnDecoder} {q : List UInt8} (h : Tracks s q) : Tracks (finishInput s) q := by
  cases h with
  | waiting offset base hin header raw unfinished clean => exact .waiting offset base hin header raw unfinished clean
  | reading h => exact .reading { h with }
  | finished done whole block trailing => exact .finished done whole block trailing

/-- an unfinished decoder has delivered a part of what the scan of its payload gives -/
theorem Tracks.history_le {s : BvxnDecoder} {q : List UInt8} (h : Tracks s q) (hf : s.finished = false) :
    s.raw.history <+: (scan (Cursor.start (q.drop headerLen))).1.win.out := by
  cases h with
  | waiting _ _ _ _ raw => rw [raw]; exact List.nil_prefix
  | reading h =>
    rw [h.payload]
    exact h.raw.history_le.trans (Raw.scan_out_le _ _)
  | finished done => rw [done] at hf; cases hf

/-- A call with buffer `dst`, after `delivered` bytes of output, is early: of the payload that the header of `q` declares
bytes are missing, and the ones that are there are a stream of the declared length, the rest of which fits `dst`. -/
def Early (q : List UInt8) (delivered : ℕ) (dst : List UInt8) : Prop :=
  ∃ header v, parseHeader q = .ok header ∧ q.length < headerLen + header.payloadBytes ∧ IsStream (q.drop headerLen) v ∧
    v.length = header.rawBytes ∧ v.length < delivered + dst.length

/-- what a decoder fed `q` answers -/
inductive Outcome (s : BvxnDecoder) (q dst : List UInt8) : BvxnDecoder × Reply → Prop where
  | needInput {s' : BvxnDecoder} {n : ℕ} {dst' : List UInt8} (after : Tracks s' q)
    (input : s'.finishedInput = s.finishedInput) (out : s'.raw.history = s.raw.history ++ dst'.take n)
    (more : s.finishedInput = false) (unfinished : s'.finished = false) :
    Outcome s q dst (s', .progress ⟨n, .needInput⟩ dst')
  | needOutput {s' : BvxnDecoder} {dst' : List UInt8} (after : Tracks s' q)
    (input : s'.finishedInput = s.finishedInput) (out : s'.raw.history = s.raw.history ++ dst'.take dst.length)
    (written : s'.raw.history.length = s.raw.history.length + dst.length) (unfinished : s'.finished = false) :
    Outcome s q dst (s', .progress ⟨dst.length, .needOutput⟩ dst')
  | finished {s' : BvxnDecoder} {n : ℕ} {dst' : List UInt8} (done : s'.finished = true)
    (input : s'.finishedInput = s.finishedInput) (out : s'.raw.history = s.raw.history ++ dst'.take n)
    (all : ∀ more v, IsBlock (q ++ more) v → s'.raw.history = v)
    (room : s.finished = false → s'.raw.history.length < s.raw.history.length + dst.length)
    (after : ¬ Early q s.raw.history.length dst → Tracks s' q ∧ IsBlock q s'.raw.history) :
    Outcome s q dst (s', .progress ⟨n, .finished⟩ dst')
  | failed {s' : BvxnDecoder} {e : Error} (bad : ∀ more v, IsBlock (q ++ more) v → s.finishedInput = true ∧ more ≠ []) :
    Outcome s q dst (s', .failed (.err e))

/-! ## Blocks that begin with the bytes fed so far -/

section
variable {q more v : List UInt8} {header : BvxnHeader}

/-- an EOS opcode in the payload fixes what the block holds -/
theorem eq_out_of_eos (hb : IsBlock (q ++ more) v) (hparsed : parseHeader q = .ok header)
    (heos : (scan (Cursor.start (q.drop headerLen))).2 = .eos) :
    v = (scan (Cursor.start (q.drop headerLen))).1.win.out := by
  obtain ⟨-, hs, -⟩ := hb.front hparsed
  rcases hs.front.2 with hshort | ⟨-, -, hout⟩
  · rw [heos] at hshort
    cases hshort
  · exact hout.symm

/-- no block gives less output than its payload has so far -/
theorem totalOutput_le (hb : IsBlock (q ++ more) v) (hparsed : parseHeader q = .ok header) {r : RawDecoder}
    (hle : r.history <+: (scan (Cursor.start (q.drop headerLen))).1.win.out) : r.totalOutput ≤ header.rawBytes := by
  obtain ⟨-, hs, hv⟩ := hb.front hparsed
  have hlen := (hle.trans hs.front.1).length_le
  rw [RawDecoder.totalOutput, ← hv]
  exact hlen

/-- the bytes that a block still lacks are those not yet fed to the raw decoder -/
theorem Reading.missing {s : BvxnDecoder} (h : Reading s q header (q.drop headerLen)) (hnil : s.unread = [])
    (hb : IsBlock (q ++ more) v) : more.length = s.payloadRemaining := by
  have hlen := h.length
  have hbudget := h.budget
  have hwhole := (hb.front h.parsed).1
  rw [hnil, List.length_nil] at hlen
  omega

/-- the raw decoder fails on no block that is still to be completed -/
theorem Reading.no_error {s : BvxnDecoder} (h : Reading s q header (q.drop headerLen)) (hnil : s.unread = [])
    (hb : IsBlock (q ++ more) v) {t : Cursor} {verdict : Verdict}
    (hscan : scan (Cursor.start (q.drop headerLen)) = (t, verdict))
    (hlast : verdict = .short → s.raw.finishedInput = true) {e : Error} : Raw.streamError t verdict ≠ some e := by
  intro herror
  obtain ⟨-, hs, -⟩ := hb.front h.parsed
  have hfront := hs.front.2
  rw [hscan] at hfront
  rcases hfront with hshort | ⟨heos, hpad, -⟩
  · have hnone : more = [] :=
      List.eq_nil_of_length_eq_zero ((h.missing hnil hb).trans (h.rawInput (hlast hshort)))
    rw [hnone, List.append_nil, Raw.isStream_iff_scan, hscan, hshort] at hs
    cases hs.1
  · obtain rfl : verdict = .eos := heos
    rw [Raw.streamError, Raw.finishError_none.2 hpad] at herror
    cases herror

end

theorem decodePayload_outcome {s : BvxnDecoder} {q p : List UInt8} {header : BvxnHeader} (h : Reading s q header p)
    (dst : List UInt8) : Outcome s q dst (answer decodePayload s dst) := by
  have hpump := pumpPayload_reading h
  split_ifs at hpump with hlong
  · obtain ⟨n, s', hpump⟩ := hpump
    rw [answer_pumpPayload_error hpump]
    refine .failed ?_
    intro more v hb
    have := (hb.front h.parsed).1
    omega
  · obtain ⟨s1, hpump, h1, hnil, hlast, hhist, hin⟩ := hpump
    have hav : s1.availableInput = 0 := by rw [← length_unread, hnil, List.length_nil]
    have hreading {r : RawDecoder} (hr : r.Tracks (q.drop headerLen)) (hin : r.finishedInput = s1.raw.finishedInput)
        (hf : r.finished = false) : Reading { s1 with raw := r } q header (q.drop headerLen) :=
      { h1 with
        raw := hr
        running := hf
        rawInput := fun hi => h1.rawInput (hin.symm.trans hi) }
    have hraw := RawDecoder.step_outcome h1.raw (t := (scan (Cursor.start (q.drop headerLen))).1)
      (v := (scan (Cursor.start (q.drop headerLen))).2) rfl dst
    change RawDecoder.Outcome _ _ _ _ _ (replied (RawDecoder.decodeInto.run (s1.raw, dst))) at hraw
    rw [answer_decodePayload hpump]
    cases hrun : RawDecoder.decodeInto.run (s1.raw, dst) with
    | error e t =>
      rw [hrun] at hraw
      cases hraw with
      | failed error _ last _ => exact .failed fun more v hb => absurd error (h1.no_error hnil hb rfl last)
    | ok progress t =>
      rw [hrun] at hraw
      dsimp only
      rw [run_settle (s := { s1 with raw := t.1 }) h1.known hav progress]
      -- more output than declared is no block
      have htooLong (hle : t.1.history <+: (scan (Cursor.start (q.drop headerLen))).1.win.out)
          (hgt : header.rawBytes < t.1.totalOutput) (more v : List UInt8) (hb : IsBlock (q ++ more) v) :
          s.finishedInput = true ∧ more ≠ [] := absurd (totalOutput_le hb h.parsed hle) (not_le.2 hgt)
      cases hraw with
      | needOutput after input out le written unfinished =>
        rw [hhist] at out written
        dsimp only
        split_ifs with hgt
        · exact .failed (htooLong le hgt)
        · exact .needOutput (.reading (hreading after input unfinished)) hin out written h1.unfinished
      | needInput after input out all short more unfinished =>
        rw [hhist] at out
        dsimp only
        split_ifs with hgt hmissing
        · exact .failed (htooLong (all ▸ List.prefix_rfl) hgt)
        · refine .failed fun more' v hb => ⟨hin ▸ hmissing.2, ?_⟩
          rintro rfl
          exact hmissing.1 (h1.missing hnil hb).symm
        · have hopen : s1.payloadRemaining ≠ 0 := by
            intro hz
            rw [hlast hz] at more
            cases more
          refine .needInput (.reading (hreading after input unfinished)) hin out ?_ h1.unfinished
          rw [← hin, Bool.eq_false_iff]
          exact fun hf => hmissing ⟨hopen, hf⟩
      | finished after input out all eos pad room =>
        have hout {more v : List UInt8} (hb : IsBlock (q ++ more) v) : t.1.history = v :=
          all.trans (eq_out_of_eos hb h.parsed eos).symm
        rw [hhist] at out
        dsimp only
        split_ifs with hgt hne
        · exact .failed (htooLong (all ▸ List.prefix_rfl) hgt)
        · refine .failed fun more v hb => absurd ?_ hne
          rw [RawDecoder.totalOutput, hout hb]
          exact (hb.front h.parsed).2.2
        · have hstream : IsStream (q.drop headerLen) t.1.history := Raw.isStream_iff_scan.2 ⟨eos, pad, all.symm⟩
          have hsize : t.1.history.length = header.rawBytes := not_not.1 hne
          have hroom := room h1.running
          rw [hhist] at hroom
          refine .finished rfl hin out (fun _ _ hb => hout hb) (fun _ => hroom) ?_
          intro hearly
          have hfull : q.length = headerLen + header.payloadBytes := by
            by_contra hmissing
            exact hearly ⟨header, _, h.parsed, by omega, hstream, hsize, hroom⟩
          have hblock : IsBlock q t.1.history := isBlock_iff.2 ⟨header, h.parsed, hfull, hstream, hsize⟩
          exact ⟨.finished rfl (List.append_nil q).symm hblock h1.clean, hblock⟩

/-! ## Before the header -/

/-- what `decode_into` does while the header was not read -/
theorem takeHeader_waiting {s : BvxnDecoder} {q : List UInt8} (offset : s.inputOffset = 0) (base : s.inputBase = 0)
    (input : s.input = q) (none : s.header = none) (raw : s.raw = .new) (unfinished : s.finished = false)
    (clean : s.trailingAfterFinish = 0) :
    if q.length < headerLen then takeHeader.run s =
      if s.finishedInput then .error (.err (.truncatedInput 0)) s else .ok false s
    else match parseHeader q with
      | .error e => takeHeader.run s = .error e s
      | .ok header => ∃ s', takeHeader.run s = .ok true s' ∧ Reading s' q header [] ∧ s'.raw = s.raw ∧
          s'.finishedInput = s.finishedInput := by
  have hav : s.availableInput = q.length := by rw [availableInput, offset, input, Nat.sub_zero]
  simp only [takeHeader, EStateM.run_bind, EStateM.run_get, none, Option.isSome_none, Bool.false_eq_true, if_false, hav]
  by_cases hshort : q.length < headerLen
  · rw [if_pos hshort, if_pos hshort]
    split_ifs
    · rw [run_throw, absoluteOffset, base, offset]
    · rfl
  · have hslice : slice s.input s.inputOffset (s.inputOffset + headerLen) = .ok (q.take headerLen) := by
      rw [offset, input, slice_eq (by omega) (by omega)]
      simp
    have hparse : parseHeader (q.take headerLen) = parseHeader q := by
      rw [← parseHeader_append (by rw [List.length_take]; omega) (q.drop headerLen), List.take_append_drop]
    rw [if_neg hshort, if_neg hshort]
    simp only [EStateM.run_bind, hslice, run_lift_ok, hparse]
    cases hp : parseHeader q with
    | error e => rfl
    | ok header =>
      set s1 : BvxnDecoder := { s with
        header := some header
        payloadRemaining := header.payloadBytes
        inputOffset := s.inputOffset + headerLen } with hs1
      have hread : Reading s1 q header [] := {
        offset_le := by rw [hs1]; dsimp only; rw [input, offset]; omega
        position := by rw [hs1, absoluteOffset]; dsimp only; rw [base, offset, List.length_nil]; omega
        parsed := hp
        known := rfl
        payload := by rw [List.nil_append, unread, hs1]; dsimp only; rw [input, offset, Nat.zero_add]
        budget := Nat.zero_add _
        raw := by rw [hs1]; dsimp only; rw [raw]; exact RawDecoder.tracks_new
        running := by rw [hs1]; dsimp only; rw [raw]; rfl
        rawInput := fun hf => by rw [hs1] at hf; dsimp only at hf; rw [raw] at hf; cases hf
        unfinished := unfinished
        clean := clean }
      obtain ⟨s2, hcompact, hc⟩ := run_compactInputIfNecessary hread.offset_le
      simp only [run_lift_ok, EStateM.run_set, ← hs1, hcompact]
      exact ⟨s2, rfl, hread.compacts hc, hc.raw, hc.finishedInput⟩

/-- an outcome is about the output so far, the end of the input and the end of the block only -/
theorem Outcome.of_eq {s s1 : BvxnDecoder} {q dst : List UInt8} {x : BvxnDecoder × Reply} (h : Outcome s1 q dst x)
    (hraw : s1.raw = s.raw) (hin : s1.finishedInput = s.finishedInput) (hf : s1.finished = s.finished) :
    Outcome s q dst x := by
  cases h with
  | needInput after input out more unfinished =>
    exact .needInput after (input.trans hin) (hraw ▸ out) (hin ▸ more) unfinished
  | needOutput after input out written unfinished =>
    exact .needOutput after (input.trans hin) (hraw ▸ out) (hraw ▸ written) unfinished
  | finished done input out all room after =>
    exact .finished done (input.trans hin) (hraw ▸ out) all (fun h => hraw ▸ room (hf.trans h))
      (fun h => after (hraw ▸ h))
  | failed bad => exact .failed fun more v hb => ⟨hin ▸ (bad more v hb).1, (bad more v hb).2⟩

/-- **A call on a decoder fed `q`** does not fail while `q` can still become a block. -/
theorem step_outcome {s : BvxnDecoder} {q : List UInt8} (h : Tracks s q) (dst : List UInt8) :
    Outcome s q dst (machine.step s (.produce dst)) := by
  show Outcome s q dst (answer decodeInto s dst)
  cases h with
  | waiting offset base input none raw unfinished clean =>
    have htake := takeHeader_waiting offset base input none raw unfinished clean
    rw [answer_waiting clean unfinished]
    split_ifs at htake with hshort hlast
    · rw [htake]
      refine .failed fun more v hb => ⟨hlast, ?_⟩
      rintro rfl
      rw [List.append_nil, isBlock_iff] at hb
      obtain ⟨header, hp, -⟩ := hb
      have := parseHeader_length hp
      omega
    · rw [htake]
      exact .needInput (.waiting offset base input none raw unfinished clean) rfl (by simp) (Bool.eq_false_iff.2 hlast)
        unfinished
    · cases hp : parseHeader q with
      | error e =>
        rw [hp] at htake
        dsimp only at htake
        rw [htake]
        cases e with
        | panic => exact absurd hp (parseHeader_ne_panic q)
        | err e =>
          refine .failed ?_
          intro more v hb
          obtain ⟨header, hp', -⟩ := isBlock_iff.1 hb
          rw [parseHeader_append (not_lt.1 hshort), hp] at hp'
          cases hp'
      | ok header =>
        rw [hp] at htake
        obtain ⟨s1, htake, h1, hraw, hin⟩ := htake
        rw [htake]
        exact (decodePayload_outcome h1 dst).of_eq hraw hin (h1.unfinished.trans unfinished.symm)
  | reading h =>
    rw [answer_known h.clean h.unfinished h.known]
    exact decodePayload_outcome h dst
  | @finished blk extra done whole block trailing =>
    by_cases hclean : s.trailingAfterFinish = 0
    · rw [answer_finished hclean done]
      have hnil : extra = [] := List.eq_nil_of_length_eq_zero (trailing.symm.trans hclean)
      rw [hnil, List.append_nil] at whole
      subst whole
      refine .finished done rfl (by simp) (fun more v hb => ?_) (fun hf => by rw [done] at hf; cases hf)
        fun _ => ⟨.finished done (List.append_nil q).symm block hclean, block⟩
      obtain ⟨header, hp, hlen, -⟩ := isBlock_iff.1 block
      have hmore : more = [] := List.eq_nil_of_length_eq_zero (by have := (hb.front hp).1; omega)
      rw [hmore, List.append_nil] at hb
      exact block.unique hb
    · rw [answer_trailing hclean]
      refine .failed ?_
      intro more v hb
      obtain ⟨header, hp, hlen, -⟩ := isBlock_iff.1 block
      rw [whole, List.append_assoc] at hb
      have := (hb.front hp).1
      rw [List.length_append] at this
      omega

end BvxnDecoder

end Lzvn.Apple
