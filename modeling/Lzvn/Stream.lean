/-
`src/stream.rs`: what an incremental encoder or decoder reports, and the machine such a coder is: `feed` and
`finish_input` return nothing, and `decode_into` or `encode_into` returns `Result<StreamProgress>` and may write into
the caller's buffer also when it fails.

- `drive_rule`: what a driver that ended has seen, from what each call keeps.
- `Schedule.drive_ends`: a driver with enough buffers ends.
- `fills_exactly`: buffers of exactly the length of the output.
-/
import Lzvn.Core.Loop
import Lzvn.Core.Machine
import Lzvn.Error

namespace Lzvn

open Lzvn.Core

/-- `StreamStatus` -/
inductive StreamStatus where
  | needInput
  | needOutput
  | finished
deriving DecidableEq, Repr

/-- `StreamProgress` -/
structure StreamProgress where
  written : ℕ
  status : StreamStatus
deriving DecidableEq, Repr

/-- a call on an incremental coder; `produce` is `decode_into` or `encode_into` with the caller's buffer -/
inductive Call where
  | feed (input : List UInt8)
  | finishInput
  | produce (dst : List UInt8)
deriving DecidableEq, Repr

/-- what a call gives back; `progress` comes with the buffer after the call -/
inductive Reply where
  | done
  | progress (p : StreamProgress) (dst : List UInt8)
  | failed (stop : Stop)
deriving DecidableEq, Repr

/-- what the caller gets from a result -/
def replied {σ : Type} : EStateM.Result Stop (σ × List UInt8) StreamProgress → σ × Reply
  | .ok p (s, dst) => (s, .progress p dst)
  | .error e (s, _) => (s, .failed e)

/-- a call with a buffer -/
def answer {σ : Type} (produce : Rust (σ × List UInt8) StreamProgress) (s : σ) (dst : List UInt8) : σ × Reply :=
  replied (produce.run (s, dst))

/-- an incremental coder -/
def coder {σ : Type} (feed : List UInt8 → σ → σ) (finishInput : σ → σ)
    (produce : Rust (σ × List UInt8) StreamProgress) : Machine σ Call Reply where
  step s
    | .feed input => (feed input s, .done)
    | .finishInput => (finishInput s, .done)
    | .produce dst => answer produce s dst

/-- the slice of the buffer that a reply reports as written -/
def Reply.output : Reply → List UInt8
  | .progress p dst => dst.take p.written
  | _ => []

/-- a call with buffer `dst` that reports progress has written its output to the front of it, and nothing behind that -/
def Reply.Frames (dst : List UInt8) : Reply → Prop
  | .progress p dst' => ∃ out, out.length = p.written ∧ out.length ≤ dst.length ∧ dst' = out ++ dst.drop out.length
  | _ => True

/-- the output of a reply that frames its buffer -/
theorem Reply.Frames.output_eq {p : StreamProgress} {dst dst' : List UInt8} (h : (Reply.progress p dst').Frames dst) :
    (dst'.take p.written).length = p.written ∧ p.written ≤ dst'.length := by
  obtain ⟨out, hlen, hle, rfl⟩ := h
  rw [← hlen, List.take_left, List.length_append]
  exact ⟨rfl, Nat.le_add_right _ _⟩

/-- replies that report the same, on buffers that need not have been the same -/
def Reply.Matches : Reply → Reply → Prop
  | .progress p dst, .progress p' dst' => p = p' ∧ dst.take p.written = dst'.take p.written
  | r, r' => r = r'

/-- replies on one buffer that report the same are the same -/
theorem Reply.Matches.eq {r r' : Reply} {dst : List UInt8} (h : r.Matches r') (hr : r.Frames dst) (hr' : r'.Frames dst) :
    r = r' := by
  cases r with
  | done => exact h
  | failed e => exact h
  | progress p d =>
    cases r' with
    | done => exact h
    | failed e => exact h
    | progress p' d' =>
      obtain ⟨rfl, htake⟩ := h
      obtain ⟨out, hlen, -, rfl⟩ := hr
      obtain ⟨out', hlen', -, rfl⟩ := hr'
      rw [List.take_left' hlen, List.take_left' hlen'] at htake
      rw [htake]

/-- calls that are the same but for what is in their buffers -/
def Call.Matches : Call → Call → Prop
  | .produce dst, .produce dst' => dst.length = dst'.length
  | c, c' => c = c'

/-- the bytes that a list of replies reports -/
def outputs (replies : List Reply) : List UInt8 := replies.flatMap Reply.output

/-- the number of bytes that a reply reports as written -/
def Reply.written : Reply → ℕ
  | .progress p _ => p.written
  | _ => 0

/-- the bytes that a call feeds -/
def Call.fed : Call → List UInt8
  | .feed input => input
  | _ => []

theorem Call.Matches.fed_eq {c c' : Call} (h : c.Matches c') : c.fed = c'.fed := by
  cases c with
  | produce dst =>
    cases c' with
    | produce dst' => rfl
    | _ => cases h
  | _ =>
    cases h
    rfl

/-- the bytes that a list of calls feeds -/
def fed (calls : List Call) : List UInt8 := calls.flatMap Call.fed

/-- the bytes that a call adds to the input of a coder -/
def Call.accepted (finished : Bool) (c : Call) : List UInt8 := if finished then [] else c.fed

/-! ## Drivers -/

/-- feeds of all of `src` and calls with nonempty buffers in between; then the end of the input, and nonempty buffers -/
structure Schedule (src : List UInt8) where
  pre : List Call
  post : List (List UInt8)
  fed_pre : fed pre = src
  pre_open : .finishInput ∉ pre
  pre_buffers : ∀ dst, .produce dst ∈ pre → dst ≠ []
  post_buffers : ∀ dst ∈ post, dst ≠ []

def Schedule.calls {src : List UInt8} (s : Schedule src) : List Call := s.pre ++ .finishInput :: s.post.map .produce

theorem fed_produce (dst : List UInt8) (calls : List Call) : fed (.produce dst :: calls) = fed calls := rfl

theorem fed_append (a b : List Call) : fed (a ++ b) = fed a ++ fed b := List.flatMap_append

theorem fed_buffers (bufs : List (List UInt8)) : fed (bufs.map Call.produce) = [] := by
  induction bufs with
  | nil => rfl
  | cons dst bufs ih => exact ih

theorem Schedule.fed_calls {src : List UInt8} (s : Schedule src) : fed s.calls = src := by
  have hpost : fed (.finishInput :: s.post.map .produce) = [] := fed_buffers s.post
  rw [calls, fed_append, s.fed_pre, hpost, List.append_nil]

/-- nothing is fed behind the end of the input -/
theorem Schedule.fed_behind {src : List UInt8} (s : Schedule src) {a b : List Call}
    (h : s.calls = a ++ .finishInput :: b) : fed b = [] := by
  have hpost : Call.finishInput ∉ s.post.map Call.produce := by simp
  obtain ⟨-, -, rfl⟩ := (List.append_cons_inj_of_notMem s.pre_open hpost).1 h
  exact fed_buffers s.post

/-- the calls that feed all chunks and end the input -/
def feedAll (chunks : List (List UInt8)) : List Call := chunks.map .feed ++ [.finishInput]

def Reply.isFailed : Reply → Bool
  | .failed _ => true
  | _ => false

def Reply.isFinished : Reply → Bool
  | .progress p _ => p.status = .finished
  | _ => false

def Call.isFeed : Call → Bool
  | .feed _ => true
  | _ => false

theorem fed_eq_nil {calls : List Call} (h : calls.any Call.isFeed = false) : fed calls = [] := by
  rw [List.any_eq_false] at h
  rw [fed, List.flatMap_eq_nil_iff]
  intro c hc
  cases c with
  | feed input => exact absurd rfl (h _ hc)
  | finishInput => rfl
  | produce dst => rfl

theorem no_feed_buffers (bufs : List (List UInt8)) : (bufs.map Call.produce).any Call.isFeed = false := by
  induction bufs with
  | nil => rfl
  | cons dst bufs ih => exact ih

/-- stop at an error, and at `Finished` when no feed is still to come -/
def untilFed (r : Reply) (calls : List Call) : Bool := r.isFailed || (r.isFinished && !calls.any Call.isFeed)

/-- stop at an error, and at `Finished` -/
def untilFinished (r : Reply) (_ : List Call) : Bool := r.isFailed || r.isFinished

/-- a driver that ended has `P` of its last reply and of all output, with `history` before it -/
def EndsWith (history : List UInt8) (P : Reply → List UInt8 → Prop) (x : List Reply × Bool) : Prop :=
  x.2 = true → ∃ last, x.1.getLast? = some last ∧ P last (history ++ outputs x.1)

theorem endsWith_final {history : List UInt8} {P : Reply → List UInt8 → Prop} {r : Reply}
    (h : P r (history ++ r.output)) : EndsWith history P ([r], true) :=
  fun _ => ⟨r, rfl, by simpa [outputs] using h⟩

/-- going on after a reply -/
theorem endsWith_next {history history' : List UInt8} {P : Reply → List UInt8 → Prop} {r : Reply}
    {x : List Reply × Bool} (hout : history' = history ++ r.output) (h : EndsWith history' P x) :
    EndsWith history P (r :: x.1, x.2) := by
  intro hended
  obtain ⟨last, hlast, hP⟩ := h hended
  refine ⟨last, ?_, ?_⟩
  · cases hx : x.1 with
    | nil => rw [hx] at hlast; cases hlast
    | cons a l => rw [hx] at hlast; rw [List.getLast?_cons_cons]; exact hlast
  · rwa [hout, List.append_assoc] at hP

section
variable {σ : Type} {feed : List UInt8 → σ → σ} {finishInput : σ → σ} {produce : Rust (σ × List UInt8) StreamProgress}
  {stop : Reply → List Call → Bool} {I : σ → ℕ → Prop} {n : ℕ}

/-- **Driver rule.** `T` relates the coder to what it was fed and is kept up to the final reply, which has `P`. `closed` says
whether the input has ended, and `Ok` is what is known of the calls with buffers that are made. -/
theorem drive_rule (T : σ → List UInt8 → Prop) (history : σ → List UInt8) (closed : σ → Bool)
    (Ok : σ → List UInt8 → List UInt8 → Prop) {src : List UInt8} {P : Reply → List UInt8 → Prop}
    (hdone : ∀ calls, stop .done calls = false)
    (hfeed : ∀ s q input, T s q →
      T (feed input s) (q ++ input) ∧ history (feed input s) = history s ∧ closed (feed input s) = closed s)
    (hfinish : ∀ s q, T s q → T (finishInput s) q ∧ history (finishInput s) = history s)
    (hproduce : ∀ s q dst calls, T s q → q ++ fed calls = src → (closed s = true → fed calls = []) → Ok s q dst →
      (stop (answer produce s dst).2 calls = false ∧ T (answer produce s dst).1 q ∧
          closed (answer produce s dst).1 = closed s ∧
          history (answer produce s dst).1 = history s ++ (answer produce s dst).2.output) ∨
        stop (answer produce s dst).2 calls = true ∧
          P (answer produce s dst).2 (history s ++ (answer produce s dst).2.output))
    (calls : List Call) (s : σ) (q : List UInt8) (h : T s q) (hsrc : q ++ fed calls = src)
    (hclosed : closed s = true → fed calls = []) (hbehind : ∀ x y, calls = x ++ .finishInput :: y → fed y = [])
    (hok : ∀ x dst y, (coder feed finishInput produce).made stop s calls = x ++ .produce dst :: y →
      Ok ((coder feed finishInput produce).run s x) (q ++ fed x) dst) :
    EndsWith (history s) P ((coder feed finishInput produce).drive stop s calls) := by
  induction calls generalizing s q with
  | nil => intro hended; cases hended
  | cons c calls ih =>
    have hbehind' : ∀ x y, calls = x ++ .finishInput :: y → fed y = [] := by
      intro x y hxy
      exact hbehind (c :: x) y (by rw [hxy]; rfl)
    have next (hstop : stop ((coder feed finishInput produce).step s c).2 calls = false)
        (hout : history ((coder feed finishInput produce).step s c).1 =
          history s ++ ((coder feed finishInput produce).step s c).2.output)
        (q' : List UInt8) (hq : q' = q ++ c.fed) (h' : T ((coder feed finishInput produce).step s c).1 q')
        (hclosed' : closed ((coder feed finishInput produce).step s c).1 = true → fed calls = []) :
        EndsWith (history s) P ((coder feed finishInput produce).drive stop s (c :: calls)) := by
      rw [Machine.drive_next _ hstop]
      refine endsWith_next hout (ih _ q' h' ?_ hclosed' hbehind' ?_)
      · rw [hq, List.append_assoc]
        exact hsrc
      · intro x dst y hxy
        have hmade := hok (c :: x) dst y (by rw [Machine.made_next _ hstop, hxy]; rfl)
        rwa [Machine.run_cons, fed, List.flatMap_cons, ← List.append_assoc, ← hq] at hmade
    cases c with
    | feed input =>
      obtain ⟨hT, hhistory, hsame⟩ := hfeed s q input h
      refine next (hdone calls) (hhistory.trans (List.append_nil _).symm) _ rfl hT ?_
      intro hend
      exact (List.append_eq_nil_iff.1 (hclosed (hsame.symm.trans hend))).2
    | finishInput =>
      obtain ⟨hT, hhistory⟩ := hfinish s q h
      exact next (hdone calls) (hhistory.trans (List.append_nil _).symm) q (List.append_nil q).symm hT
        fun _ => hbehind [] calls rfl
    | produce dst =>
      have hfirst : Ok s q dst := by
        obtain ⟨y, hy⟩ : ∃ y, (coder feed finishInput produce).made stop s (.produce dst :: calls) = .produce dst :: y := by
          rw [Machine.made]
          split_ifs <;> exact ⟨_, rfl⟩
        have hmade := hok [] dst y hy
        rwa [fed, List.flatMap_nil, List.append_nil] at hmade
      rcases hproduce s q dst calls h hsrc hclosed hfirst with ⟨hstop, hT, hsame, hhistory⟩ | ⟨hstop, hP⟩
      · exact next hstop hhistory q (List.append_nil q).symm hT fun hend => hclosed (hsame.symm.trans hend)
      · rw [Machine.drive_final (coder feed finishInput produce) hstop]
        exact endsWith_final hP

/-! ## Drivers that end -/

/-- every buffer ends the driver or raises the count of `I` -/
def Progresses (produce : Rust (σ × List UInt8) StreamProgress) (stop : Reply → List Call → Bool)
    (I : σ → ℕ → Prop) : Prop :=
  ∀ s k dst (bufs : List (List UInt8)), I s k → dst ≠ [] →
    stop (answer produce s dst).2 (bufs.map Call.produce) = true ∨ ∃ k', k < k' ∧ I (answer produce s dst).1 k'

/-- A driver ends within `n` more buffers when every buffer ends it or raises a count that `n` bounds. -/
theorem drive_buffers_ends (hle : ∀ s k, I s k → k ≤ n) (hstep : Progresses produce stop I)
    (bufs : List (List UInt8)) (hne : ∀ dst ∈ bufs, dst ≠ []) (s : σ) (k : ℕ) (h : I s k)
    (hlen : n < k + bufs.length) :
    ((coder feed finishInput produce).drive stop s (bufs.map .produce)).2 = true := by
  induction bufs generalizing s k with
  | nil =>
    have := hle s k h
    rw [List.length_nil] at hlen
    omega
  | cons dst bufs ih =>
    rw [List.map_cons]
    rw [List.length_cons] at hlen
    cases hstop : stop (answer produce s dst).2 (bufs.map .produce) with
    | true => rw [Machine.drive_final (coder feed finishInput produce) hstop]
    | false =>
      rw [Machine.drive_next (coder feed finishInput produce) hstop]
      rcases hstep s k dst bufs h (hne dst List.mem_cons_self) with htrue | ⟨k', hk', hI⟩
      · rw [hstop] at htrue; cases htrue
      · exact ih (fun d hd => hne d (List.mem_cons_of_mem _ hd)) _ k' hI (by omega)

/-- **A driver with enough buffers ends.** `T` holds up to the end of the input and leads to `I`. -/
theorem Schedule.drive_ends {src : List UInt8} (schedule : Schedule src) (T : σ → List UInt8 → Prop)
    (hdone : ∀ calls, stop .done calls = false)
    (hfeed : ∀ s q input, T s q → T (feed input s) (q ++ input))
    (hproduce : ∀ s q dst calls, T s q → stop (answer produce s dst).2 calls = true ∨ T (answer produce s dst).1 q)
    (hfinish : ∀ s, T s src → ∃ k, I (finishInput s) k) (hle : ∀ s k, I s k → k ≤ n)
    (hstep : Progresses produce stop I) (s : σ) (h : T s []) (hlen : n < schedule.post.length) :
    ((coder feed finishInput produce).drive stop s schedule.calls).2 = true := by
  obtain ⟨pre, post, hfed, hopen, hbufs, hpost⟩ := schedule
  replace hlen : n < post.length := hlen
  suffices hgen : ∀ q, q ++ fed pre = src → T s q →
      ((coder feed finishInput produce).drive stop s (pre ++ .finishInput :: post.map .produce)).2 = true from
    hgen [] hfed h
  clear h hfed hbufs
  induction pre generalizing s with
  | nil =>
    rintro q rfl h
    obtain ⟨k, hI⟩ := hfinish s (by simpa [fed] using h)
    rw [List.nil_append, Machine.drive_next _ (hdone _)]
    exact drive_buffers_ends hle hstep post hpost _ k hI (by omega)
  | cons c pre ih =>
    intro q hq h
    have hopen' : .finishInput ∉ pre := fun hm => hopen (List.mem_cons_of_mem _ hm)
    rw [List.cons_append]
    cases c with
    | feed input =>
      rw [Machine.drive_next _ (hdone _)]
      exact ih _ hopen' (q ++ input) (by rw [← hq, List.append_assoc]; rfl) (hfeed s q input h)
    | finishInput => exact absurd List.mem_cons_self hopen
    | produce dst =>
      cases hstop : stop (answer produce s dst).2 (pre ++ .finishInput :: post.map .produce) with
      | true => rw [Machine.drive_final (coder feed finishInput produce) hstop]
      | false =>
        rw [Machine.drive_next (coder feed finishInput produce) hstop]
        rcases hproduce s q dst _ h with htrue | hT
        · rw [htrue] at hstop; cases hstop
        · exact ih _ hopen' q hq hT

/-- a relation to the bytes fed, kept by every feed, holds after all chunks -/
theorem run_feeds (finishInput : σ → σ) (produce : Rust (σ × List UInt8) StreamProgress) {T : σ → List UInt8 → Prop}
    (hfeed : ∀ s q input, T s q → T (feed input s) (q ++ input)) (chunks : List (List UInt8)) (s : σ) (q : List UInt8) (h : T s q) :
    T ((coder feed finishInput produce).run s (chunks.map .feed)) (q ++ chunks.flatten) := by
  induction chunks generalizing s q with
  | nil => simpa [Machine.run] using h
  | cons input chunks ih =>
    rw [List.flatten_cons, ← List.append_assoc]
    exact ih _ _ (hfeed s q input h)

/-- Buffers that fit into the `n` bytes of output are filled one after the other, when each one alone is. -/
theorem replies_fill (feed : List UInt8 → σ → σ) (finishInput : σ → σ) {I : σ → List UInt8 → Prop}
    (hstep : ∀ s h dst, I s h → h.length + dst.length ≤ n → ∃ dst', (answer produce s dst).2 = .progress ⟨dst.length, .needOutput⟩ dst' ∧
        (dst'.take dst.length).length = dst.length ∧ I (answer produce s dst).1 (h ++ dst'.take dst.length))
    (bufs : List (List UInt8)) (s : σ) (h : List UInt8) (hI : I s h) (hlen : h.length + (bufs.map List.length).sum ≤ n) :
    (∀ r ∈ (coder feed finishInput produce).replies s (bufs.map .produce), ∃ m dst', r = .progress ⟨m, .needOutput⟩ dst') ∧
      (outputs ((coder feed finishInput produce).replies s (bufs.map .produce))).length = (bufs.map List.length).sum ∧
      ∃ s', I s' (h ++ outputs ((coder feed finishInput produce).replies s (bufs.map .produce))) := by
  induction bufs generalizing s h with
  | nil => exact ⟨by simp [Machine.replies], rfl, s, by simpa [Machine.replies, outputs] using hI⟩
  | cons dst bufs ih =>
    rw [List.map_cons, List.sum_cons] at hlen
    obtain ⟨dst', hr, hcount, hI'⟩ := hstep s h dst hI (by omega)
    obtain ⟨hall, hsum, hlast⟩ := ih _ _ hI' (by rw [List.length_append, hcount]; omega)
    have hout : ∀ rs, outputs ((answer produce s dst).2 :: rs) = dst'.take dst.length ++ outputs rs := by
      intro rs
      rw [hr]
      rfl
    rw [List.map_cons, List.map_cons, List.sum_cons]
    show (∀ r ∈ (answer produce s dst).2 :: _, _) ∧ (outputs ((answer produce s dst).2 :: _)).length = _ ∧
      ∃ s', I s' (h ++ outputs ((answer produce s dst).2 :: _))
    rw [hout, List.length_append, hcount, ← List.append_assoc]
    refine ⟨fun r hmem => ?_, congrArg _ hsum, hlast⟩
    rcases List.mem_cons.1 hmem with rfl | hmem
    · exact ⟨_, dst', hr⟩
    · exact hall r hmem

/-- **A decoder fed all of its input**, and then buffers of exactly the length of `out`: when each buffer that fits is
filled, every call answers `NeedOutput`, and the outputs are `out`. -/
theorem fills_exactly {src out : List UInt8} {J K : σ → List UInt8 → Prop} {new : σ} (hnew : J new [])
    (hfeed : ∀ s q input, J s q → J (feed input s) (q ++ input)) (hfinish : ∀ s, J s src → K (finishInput s) [])
    (houtput : ∀ s h, K s h → h <+: out) (hstep : ∀ s h dst, K s h → h.length + dst.length ≤ out.length →
      ∃ dst', (answer produce s dst).2 = .progress ⟨dst.length, .needOutput⟩ dst' ∧
        (dst'.take dst.length).length = dst.length ∧ K (answer produce s dst).1 (h ++ dst'.take dst.length))
    {chunks bufs : List (List UInt8)} (hsrc : chunks.flatten = src) (hbufs : (bufs.map List.length).sum = out.length) :
    (∀ r ∈ (coder feed finishInput produce).replies ((coder feed finishInput produce).run new (feedAll chunks))
      (bufs.map .produce), ∃ n dst, r = .progress ⟨n, .needOutput⟩ dst) ∧
    outputs ((coder feed finishInput produce).replies ((coder feed finishInput produce).run new (feedAll chunks))
      (bufs.map .produce)) = out := by
  have hfed := run_feeds finishInput produce hfeed chunks new [] hnew
  rw [List.nil_append, hsrc] at hfed
  rw [feedAll, Machine.run_snoc]
  obtain ⟨hall, hlen, s', hK⟩ := replies_fill feed finishInput hstep bufs _ [] (hfinish _ hfed)
    (by rw [List.length_nil]; omega)
  exact ⟨hall, (houtput _ _ hK).eq_of_length (hlen.trans hbufs)⟩

end

/-! ## Callers that do what the coder asks for -/

/-- a caller in a loop: the coder, the chunks that are not fed yet, and how many buffers were used -/
structure Caller (σ : Type) where
  coder : σ
  chunks : List (List UInt8)
  calls : ℕ

/-- the status that a reply reports -/
def Reply.status : Reply → Option StreamStatus
  | .progress p _ => some p.status
  | _ => none

/-- what a caller does for more input: it feeds the next chunk, or ends the input -/
def Caller.supply {σ : Type} (M : Machine σ Call Reply) (c : Caller σ) : Caller σ :=
  match c.chunks with
  | [] => { c with coder := (M.step c.coder .finishInput).1 }
  | input :: chunks => { c with coder := (M.step c.coder (.feed input)).1, chunks }

/-- one round of a caller: it calls with the next buffer, goes on after `NeedOutput` and, with more input, after
`NeedInput`, and stops after `Finished` and after an error -/
def Caller.round {σ : Type} (M : Machine σ Call Reply) (buffers : ℕ → List UInt8) (c : Caller σ) : Flow (Caller σ) Reply :=
  let (s, r) := M.step c.coder (.produce (buffers c.calls))
  match r.status with
  | some .needOutput => .again ⟨s, c.chunks, c.calls + 1⟩
  | some .needInput => .again (Caller.supply M ⟨s, c.chunks, c.calls + 1⟩)
  | _ => .leave r

/-- a caller that goes on has been asked for room or for input -/
theorem Caller.round_again {σ : Type} {M : Machine σ Call Reply} {buffers : ℕ → List UInt8} {c c' : Caller σ}
    (h : Caller.round M buffers c = .again c') : ∃ s p dst,
      M.step c.coder (.produce (buffers c.calls)) = (s, .progress p dst) ∧
      (p.status = .needOutput ∧ c' = ⟨s, c.chunks, c.calls + 1⟩ ∨
        p.status = .needInput ∧ c' = Caller.supply M ⟨s, c.chunks, c.calls + 1⟩) := by
  unfold Caller.round at h
  rcases hstep : M.step c.coder (.produce (buffers c.calls)) with ⟨s, r⟩
  rw [hstep] at h
  cases r with
  | done => cases h
  | failed e => cases h
  | progress p dst =>
    refine ⟨s, p, dst, rfl, ?_⟩
    cases hstatus : p.status with
    | needOutput =>
      simp only [Reply.status, hstatus] at h
      cases h
      exact .inl ⟨rfl, rfl⟩
    | needInput =>
      simp only [Reply.status, hstatus] at h
      cases h
      exact .inr ⟨rfl, rfl⟩
    | finished =>
      simp only [Reply.status, hstatus] at h
      cases h

/-- equal errors, up to the number of trailing bytes -/
def Error.same (e e' : Error) : Prop := e = e' ∨ ∃ m n, e = .trailingData m ∧ e' = .trailingData n

theorem Error.same_refl (e : Error) : e.same e := .inl rfl

theorem Error.same_symm {a b : Error} (h : a.same b) : b.same a := by
  rcases h with rfl | ⟨m, n, ha, hb⟩
  · exact .inl rfl
  · exact .inr ⟨n, m, hb, ha⟩

theorem Error.same_trans {a b c : Error} (h1 : a.same b) (h2 : b.same c) : a.same c := by
  rcases h1 with rfl | ⟨m, n, rfl, rfl⟩
  · exact h2
  · rcases h2 with rfl | ⟨m', n', -, rfl⟩
    · exact .inr ⟨m, n, rfl, rfl⟩
    · exact .inr ⟨m, n', rfl, rfl⟩

end Lzvn
