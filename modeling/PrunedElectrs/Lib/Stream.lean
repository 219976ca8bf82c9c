/-
PrunedElectrs/Lib/Stream.lean

Reading messages from a connection that hands over what arrives in segments.

How the segments are cut is up to the network.  A reader of segments is compared
with a reader of their contents along a view of the state (`Sees`), and such
comparisons compose, so whatever is put together from `recvExact` depends on the
contents alone.

A `Decoder` reads one message off a string, and `decodeAll` is all that it can
read before it fails.  A `Framing` reads messages from a connection as a decoder
reads them off what the connection brings (`arriving`), and a loop that gives
each message to a handler until the handler has a result (`pump`) is a loop over
that list (`feed`):

    pump F handle s segments  ~  feed handle s (arriving F segments).
-/
import Mathlib.Data.List.TakeDrop
import Mathlib.Tactic.Common

namespace Stream

universe u

/-! ### Readers and what they see -/

section Sees

variable {S T ε β γ : Type u}

/-- The second reader does to the views of states what the first does to the
states. -/
def Sees (view : S → T) (p : S → Except ε (β × S)) (q : T → Except ε (β × T)) : Prop :=
  ∀ s, (p s).map (Prod.map id view) = q (view s)

variable {view : S → T} {p : S → Except ε (β × S)} {q : T → Except ε (β × T)}

theorem Sees.ok (h : Sees view p q) {s s' : S} {b : β} (hp : p s = .ok (b, s')) :
    q (view s) = .ok (b, view s') := by
  rw [← h s, hp]
  rfl

theorem Sees.error (h : Sees view p q) {s : S} {e : ε} (hp : p s = .error e) :
    q (view s) = .error e := by
  rw [← h s, hp]
  rfl

/-- What is seen of a result is a result. -/
theorem Sees.of_ok (h : Sees view p q) {s : S} {b : β} {t : T} (hq : q (view s) = .ok (b, t)) :
    ∃ s', p s = .ok (b, s') ∧ view s' = t := by
  rcases hp : p s with e | ⟨b', s'⟩
  · rw [h.error hp] at hq
    cases hq
  · rw [h.ok hp] at hq
    cases hq
    exact ⟨s', rfl, rfl⟩

theorem Sees.of_error (h : Sees view p q) {s : S} {e : ε} (hq : q (view s) = .error e) :
    p s = .error e := by
  rcases hp : p s with e' | ⟨b, s'⟩
  · rw [h.error hp] at hq
    cases hq
    rfl
  · rw [h.ok hp] at hq
    cases hq

/-- States that look the same are read alike. -/
theorem Sees.congr (h : Sees view p q) {s s' : S} (hs : view s = view s') :
    (∃ e, p s = .error e ∧ p s' = .error e) ∨
      ∃ b t t', p s = .ok (b, t) ∧ p s' = .ok (b, t') ∧ view t = view t' := by
  rcases hp : p s with e | ⟨b, t⟩
  · have hq := h.error hp
    rw [hs] at hq
    exact .inl ⟨e, rfl, h.of_error hq⟩
  · have hq := h.ok hp
    rw [hs] at hq
    obtain ⟨t', hp', ht⟩ := h.of_ok hq
    exact .inr ⟨b, t, t', rfl, hp', ht.symm⟩

/-- One reader after the other. -/
theorem Sees.bind {f : β → S → Except ε (γ × S)} {g : β → T → Except ε (γ × T)}
    (h : Sees view p q) (hf : ∀ b, Sees view (f b) (g b)) :
    Sees view (fun s => p s >>= fun r => f r.1 r.2) (fun t => q t >>= fun r => g r.1 r.2) := by
  intro s
  show (p s >>= _).map _ = (q (view s) >>= _)
  rcases hp : p s with e | ⟨b, s'⟩
  · rw [h.error hp]
    rfl
  · rw [h.ok hp]
    exact hf b s'

/-- Something that does not read. -/
theorem sees_lift (view : S → T) (x : Except ε β) :
    Sees view (fun s => x.map (·, s)) (fun t => x.map (·, t)) := by
  intro s
  cases x <;> rfl

end Sees

/-! ### Segments -/

variable {α β ε μ σ : Type u}

/-- At most `n` of what arrives next, from one segment; nothing when nothing
more arrives. -/
def recv (n : ℕ) : List (List α) → List α × List (List α)
  | [] => ([], [])
  | [] :: segments => recv n segments
  | (a :: segment) :: segments =>
      ((a :: segment).take n, (a :: segment).drop n :: segments)

theorem recv_append (n : ℕ) (segments : List (List α)) :
    (recv n segments).1 ++ (recv n segments).2.flatten = segments.flatten := by
  induction segments with
  | nil => rfl
  | cons segment segments ih =>
      cases segment with
      | nil => exact ih
      | cons a segment =>
          rw [recv, List.flatten_cons, List.flatten_cons, ← List.append_assoc,
            List.take_append_drop]

theorem length_recv_le (n : ℕ) (segments : List (List α)) :
    (recv n segments).1.length ≤ n := by
  induction segments with
  | nil => exact Nat.zero_le n
  | cons segment segments ih =>
      cases segment with
      | nil => exact ih
      | cons a segment =>
          rw [recv, List.length_take]
          exact Nat.min_le_left _ _

theorem flatten_of_recv {n : ℕ} (hn : 0 < n) {segments : List (List α)}
    (h : (recv n segments).1 = []) : segments.flatten = [] := by
  induction segments with
  | nil => rfl
  | cons segment segments ih =>
      cases segment with
      | nil => exact ih h
      | cons a segment =>
          rw [recv, List.take_eq_nil_iff] at h
          rcases h with h | h
          · omega
          · cases h

/-- Ask again until `n` are there, for no more than `ask` says of what is
missing; `closed` when nothing more arrives. -/
def recvExact (closed : ε) (ask : ℕ → ℕ) (n : ℕ) (buf : List α) (segments : List (List α)) :
    Except ε (List α × List (List α)) :=
  if buf.length < n then
    if (recv (ask (n - buf.length)) segments).1 = [] then .error closed
    else
      recvExact closed ask n (buf ++ (recv (ask (n - buf.length)) segments).1)
        (recv (ask (n - buf.length)) segments).2
  else .ok (buf, segments)
termination_by n - buf.length
decreasing_by
  have := List.length_pos_iff.mpr ‹¬ (recv (ask (n - buf.length)) segments).1 = []›
  rw [List.length_append]
  omega

/-- Something is asked for, and never too much. -/
def Asks (ask : ℕ → ℕ) : Prop := ∀ k, 0 < k → 0 < ask k ∧ ask k ≤ k

theorem asks_id : Asks id := fun _ hk => ⟨hk, Nat.le_refl _⟩

/-- The first `n` of a string. -/
def takeExact (closed : ε) (n : ℕ) (s : List α) : Except ε (List α × List α) :=
  if n ≤ s.length then .ok (s.take n, s.drop n) else .error closed

theorem recvExact_eq (closed : ε) {ask : ℕ → ℕ} (hask : Asks ask) {n : ℕ} (buf : List α)
    (segments : List (List α)) (hbuf : buf.length ≤ n) :
    (recvExact closed ask n buf segments).map (Prod.map id List.flatten)
      = takeExact closed n (buf ++ segments.flatten) := by
  induction buf, segments using recvExact.induct ask n with
  | case1 buf segments hlt hnil =>
      have hempty := flatten_of_recv (hask _ (by omega)).1 hnil
      rw [recvExact, if_pos hlt, if_pos hnil, takeExact, hempty, List.append_nil,
        if_neg (Nat.not_le.mpr hlt)]
      rfl
  | case2 buf segments hlt hne ih =>
      have hlen := length_recv_le (ask (n - buf.length)) segments
      have hle := (hask (n - buf.length) (by omega)).2
      rw [recvExact, if_pos hlt, if_neg hne, ih (by rw [List.length_append]; omega),
        List.append_assoc, recv_append]
  | case3 buf segments hnlt =>
      have hlen : buf.length = n := Nat.le_antisymm hbuf (Nat.not_lt.mp hnlt)
      rw [recvExact, if_neg hnlt, takeExact, if_pos (by rw [List.length_append]; omega),
        List.take_left' hlen, List.drop_left' hlen]
      rfl

/-- However the string is cut, its front is read. -/
theorem sees_recvExact (closed : ε) {ask : ℕ → ℕ} (hask : Asks ask) (n : ℕ) :
    Sees List.flatten (recvExact closed ask n ([] : List α)) (takeExact closed n) := by
  intro segments
  rw [recvExact_eq closed hask [] segments (Nat.zero_le n), List.nil_append]

theorem takeExact_append (closed : ε) (s rest : List α) :
    takeExact closed s.length (s ++ rest) = .ok (s, rest) := by
  rw [takeExact, if_pos (by rw [List.length_append]; omega), List.take_left, List.drop_left]

/-! ### Messages in a string -/

/-- Reading one message off the front of a string, of which it takes something. -/
structure Decoder (α ε μ : Type u) where
  decode : List α → Except ε (μ × List α)
  shrinks : ∀ s m rest, decode s = .ok (m, rest) → rest.length < s.length

namespace Decoder

variable (D : Decoder α ε μ)

/-- The messages at the front of a string, and the error behind them. -/
def decodeAll (s : List α) : List μ × ε :=
  match _h : D.decode s with
  | .error e => ([], e)
  | .ok (m, rest) => (m :: (decodeAll rest).1, (decodeAll rest).2)
termination_by s.length
decreasing_by all_goals exact D.shrinks _ _ _ _h

variable {D}

theorem decodeAll_error {s : List α} {e : ε} (h : D.decode s = .error e) :
    D.decodeAll s = ([], e) := by
  rw [decodeAll]
  split
  · rename_i e' he
    rw [h] at he
    cases he
    rfl
  · rename_i m rest hok
    rw [h] at hok
    cases hok

theorem decodeAll_ok {s rest : List α} {m : μ} (h : D.decode s = .ok (m, rest)) :
    D.decodeAll s = (m :: (D.decodeAll rest).1, (D.decodeAll rest).2) := by
  rw [decodeAll]
  split
  · rename_i e he
    rw [h] at he
    cases he
  · rename_i m' rest' hok
    rw [h] at hok
    cases hok
    rfl

/-- What is written for a message is read back, and is not read in part. -/
structure Writes (D : Decoder α ε μ) (encode : μ → List α) (Good : μ → Prop) (closed : ε) :
    Prop where
  empty : D.decode [] = .error closed
  whole : ∀ m, Good m → ∀ rest, D.decode (encode m ++ rest) = .ok (m, rest)
  torn : ∀ m, Good m → ∀ k < (encode m).length, D.decode ((encode m).take k) = .error closed

variable {encode : μ → List α} {Good : μ → Prop} {closed : ε}

theorem Writes.decodeAll_append (h : D.Writes encode Good closed) {ms : List μ}
    (hms : ∀ m ∈ ms, Good m) (rest : List α) :
    D.decodeAll (ms.flatMap encode ++ rest)
      = (ms ++ (D.decodeAll rest).1, (D.decodeAll rest).2) := by
  induction ms with
  | nil => rfl
  | cons m ms ih =>
      rw [List.forall_mem_cons] at hms
      rw [List.flatMap_cons, List.append_assoc, decodeAll_ok (h.whole m hms.1 _), ih hms.2,
        List.cons_append]

/-- Of messages cut off anywhere those are read that are there whole. -/
theorem Writes.decodeAll_take (h : D.Writes encode Good closed) {ms : List μ}
    (hms : ∀ m ∈ ms, Good m) (k : ℕ) :
    ∃ j ≤ ms.length, D.decodeAll ((ms.flatMap encode).take k) = (ms.take j, closed)
      ∧ ((ms.take j).flatMap encode).length ≤ k
      ∧ (j < ms.length → k < ((ms.take (j + 1)).flatMap encode).length) := by
  induction ms generalizing k with
  | nil =>
      refine ⟨0, Nat.le_refl 0, ?_, Nat.zero_le k, fun h => absurd h (Nat.lt_irrefl 0)⟩
      rw [List.flatMap_nil, List.take_nil, decodeAll_error h.empty]
      rfl
  | cons m ms ih =>
      rw [List.forall_mem_cons] at hms
      rw [List.flatMap_cons, List.take_append]
      by_cases hk : k < (encode m).length
      · refine ⟨0, Nat.zero_le _, ?_, Nat.zero_le k, fun _ => ?_⟩
        · rw [Nat.sub_eq_zero_of_le (by omega), List.take_zero, List.append_nil,
            decodeAll_error (h.torn m hms.1 k hk), List.take_zero]
        · rw [List.take_succ_cons, List.take_zero, List.flatMap_cons, List.flatMap_nil,
            List.append_nil]
          exact hk
      · obtain ⟨j, hj, hread, hle, hlt⟩ := ih hms.2 (k - (encode m).length)
        refine ⟨j + 1, by rw [List.length_cons]; omega, ?_, ?_, fun hj' => ?_⟩
        · rw [List.take_of_length_le (by omega), decodeAll_ok (h.whole m hms.1 _), hread,
            List.take_succ_cons]
        · rw [List.take_succ_cons, List.flatMap_cons, List.length_append]
          omega
        · rw [List.length_cons] at hj'
          have := hlt (by omega)
          rw [List.take_succ_cons, List.flatMap_cons, List.length_append]
          omega

end Decoder

/-! ### Messages on a connection -/

/-- Reading one message from a connection, as a decoder reads it off what the
connection brings. -/
structure Framing (α ε μ : Type u) extends Decoder α ε μ where
  recvMsg : List (List α) → Except ε (μ × List (List α))
  sees : Sees List.flatten recvMsg decode

namespace Framing

variable (F : Framing α ε μ)

/-- What the segments bring: however they are cut, the same. -/
def arriving (segments : List (List α)) : List μ × ε := F.decodeAll segments.flatten

/-- Give each message to the handler until it has a result. -/
def pump (handle : σ → μ → Except ε (σ ⊕ β)) (s : σ) (segments : List (List α)) :
    Except ε (β × List (List α)) :=
  match _h : F.recvMsg segments with
  | .error e => .error e
  | .ok (m, rest) =>
      match handle s m with
      | .error e => .error e
      | .ok (.inr b) => .ok (b, rest)
      | .ok (.inl s') => pump handle s' rest
termination_by segments.flatten.length
decreasing_by exact F.shrinks _ _ _ (F.sees.ok _h)

/-- The calls that read these messages one after the other. -/
inductive Receives : List (List α) → List μ → List (List α) → Prop
  | nil {segments : List (List α)} : Receives segments [] segments
  | cons {segments segments' segments'' : List (List α)} {m : μ} {ms : List μ} :
      F.recvMsg segments = .ok (m, segments') → Receives segments' ms segments'' →
      Receives segments (m :: ms) segments''

variable {F}

theorem arriving_error {segments : List (List α)} {e : ε} (h : F.recvMsg segments = .error e) :
    F.arriving segments = ([], e) := Decoder.decodeAll_error (F.sees.error h)

theorem arriving_ok {segments rest : List (List α)} {m : μ}
    (h : F.recvMsg segments = .ok (m, rest)) :
    F.arriving segments = (m :: (F.arriving rest).1, (F.arriving rest).2) :=
  Decoder.decodeAll_ok (F.sees.ok h)

/-- The messages are read whatever the segments, and then the error. -/
theorem receives_arriving (segments : List (List α)) :
    ∃ segments', Receives F segments (F.arriving segments).1 segments' ∧
      F.recvMsg segments' = .error (F.arriving segments).2 := by
  induction hn : segments.flatten.length using Nat.strongRecOn generalizing segments with
  | ind n ih =>
      rcases h : F.recvMsg segments with e | ⟨m, rest⟩
      · rw [arriving_error h]
        exact ⟨segments, .nil, h⟩
      · have hlt := F.shrinks _ _ _ (F.sees.ok h)
        obtain ⟨segments', hreceives, herror⟩ := ih _ (by rwa [← hn]) rest rfl
        rw [arriving_ok h]
        exact ⟨segments', .cons h hreceives, herror⟩

end Framing

/-! ### Loops over messages -/

/-- The loop over the messages that arrive before an error. -/
def feed (handle : σ → μ → Except ε (σ ⊕ β)) : σ → List μ × ε → Except ε (β × (List μ × ε))
  | _, ([], e) => .error e
  | s, (m :: ms, e) =>
      match handle s m with
      | .error e' => .error e'
      | .ok (.inr b) => .ok (b, (ms, e))
      | .ok (.inl s') => feed handle s' (ms, e)

variable {handle : σ → μ → Except ε (σ ⊕ β)} {s s' : σ} {m : μ} {ms : List μ} {e : ε} {b : β}

theorem feed_error {e' : ε} (h : handle s m = .error e') :
    feed handle s (m :: ms, e) = .error e' := by
  rw [feed, h]

theorem feed_done (h : handle s m = .ok (.inr b)) :
    feed handle s (m :: ms, e) = .ok (b, (ms, e)) := by
  rw [feed, h]

theorem feed_skip (h : handle s m = .ok (.inl s')) :
    feed handle s (m :: ms, e) = feed handle s' (ms, e) := by
  rw [feed, h]

/-- Whatever the segments, the loop is one over the messages in them. -/
theorem Framing.sees_pump (F : Framing α ε μ) (handle : σ → μ → Except ε (σ ⊕ β)) (s : σ) :
    Sees F.arriving (F.pump handle s) (feed handle s) := by
  intro segments
  induction hn : segments.flatten.length using Nat.strongRecOn generalizing s segments with
  | ind n ih =>
      rw [Framing.pump]
      split
      · rename_i e h
        rw [arriving_error h, feed]
        rfl
      · rename_i m rest h
        have hlt := F.shrinks _ _ _ (F.sees.ok h)
        rw [arriving_ok h]
        rcases hstep : handle s m with e | s' | b
        · rw [feed_error hstep]
          rfl
        · rw [feed_skip hstep]
          exact ih _ (by rwa [← hn]) s' rest rfl
        · rw [feed_done hstep]
          rfl

/-- The handler goes on through all of these messages. -/
inductive Skips (handle : σ → μ → Except ε (σ ⊕ β)) : σ → List μ → σ → Prop
  | nil {s : σ} : Skips handle s [] s
  | cons {s s' s'' : σ} {m : μ} {ms : List μ} : handle s m = .ok (.inl s') →
      Skips handle s' ms s'' → Skips handle s (m :: ms) s''

theorem Skips.feed (h : Skips handle s ms s') (rest : List μ) :
    Stream.feed handle s (ms ++ rest, e) = Stream.feed handle s' (rest, e) := by
  induction h with
  | nil => rfl
  | cons hstep _ ih => rw [List.cons_append, feed_skip hstep, ih]

/-- The loop has a result when the handler has one, after messages that it goes
on through. -/
theorem feed_eq_ok_iff {rest : List μ × ε} :
    feed handle s (ms, e) = .ok (b, rest) ↔
      ∃ before m after s', ms = before ++ m :: after ∧ Skips handle s before s'
        ∧ handle s' m = .ok (.inr b) ∧ rest = (after, e) := by
  constructor
  · intro h
    induction ms generalizing s with
    | nil =>
        rw [feed] at h
        cases h
    | cons m ms ih =>
        rcases hstep : handle s m with e' | s' | b'
        · rw [feed_error hstep] at h
          cases h
        · rw [feed_skip hstep] at h
          obtain ⟨before, m', after, s'', rfl, hskips, hdone, hrest⟩ := ih h
          exact ⟨m :: before, m', after, s'', rfl, .cons hstep hskips, hdone, hrest⟩
        · rw [feed_done hstep] at h
          cases h
          exact ⟨[], m, ms, s, rfl, .nil, hstep, rfl⟩
  · rintro ⟨before, m, after, s', rfl, hskips, hdone, rfl⟩
    rw [hskips.feed, feed_done hdone]

/-- What a handler does with a message: the loop goes on, or ends, or an
exception ends it. -/
inductive Next (σ ε : Type u)
  | go (s : σ)
  | stop (s : σ)
  | raise (s : σ) (e : ε)

/-- The state that the handler leaves. -/
def Next.state : Next σ ε → σ
  | go s => s
  | stop s => s
  | raise s _ => s

/-- At most `n` times a message is read and handled; the state, and the exception
that has ended the loop if one has. -/
def Framing.loop (F : Framing α ε μ) (step : σ → μ → Next σ ε) :
    ℕ → σ → List (List α) → (σ × Option ε) × List (List α)
  | 0, s, segments => ((s, none), segments)
  | n + 1, s, segments =>
      match F.recvMsg segments with
      | .error e => ((s, some e), segments)
      | .ok (m, rest) =>
          match step s m with
          | .go s' => F.loop step n s' rest
          | .stop s' => ((s', none), rest)
          | .raise s' e => ((s', some e), rest)

/-- The same over the messages that arrive. -/
def run (step : σ → μ → Next σ ε) :
    ℕ → σ → List μ → ε → (σ × Option ε) × (List μ × ε)
  | 0, s, ms, e => ((s, none), (ms, e))
  | _ + 1, s, [], e => ((s, some e), ([], e))
  | n + 1, s, m :: ms, e =>
      match step s m with
      | .go s' => run step n s' ms e
      | .stop s' => ((s', none), (ms, e))
      | .raise s' e' => ((s', some e'), (ms, e))

variable {step : σ → μ → Next σ ε}

theorem Framing.loop_eq_run (F : Framing α ε μ) (step : σ → μ → Next σ ε) (n : ℕ) (s : σ)
    (segments : List (List α)) :
    Prod.map id F.arriving (F.loop step n s segments)
      = run step n s (F.arriving segments).1 (F.arriving segments).2 := by
  induction n generalizing s segments with
  | zero => rfl
  | succ n ih =>
      rcases h : F.recvMsg segments with e | ⟨m, rest⟩
      · have hloop : F.loop step (n + 1) s segments = ((s, some e), segments) := by
          simp only [Framing.loop, h]
        rw [hloop, Prod.map, arriving_error h]
        rfl
      · rw [arriving_ok h, run]
        simp only [Framing.loop, h]
        rcases step s m with s' | s' | ⟨s', e⟩
        · exact ih s' rest
        · rfl
        · rfl

/-- What holds of the messages seen and the state, and is kept by every step,
holds when the loop has ended. -/
theorem run_seen {I : List μ → σ → Prop}
    (hstep : ∀ seen s m, I seen s → I (seen ++ [m]) (step s m).state) (n : ℕ)
    {seen : List μ} {s : σ} (h : I seen s) (ms : List μ) (e : ε) :
    ∃ new, ms = new ++ (run step n s ms e).2.1 ∧ I (seen ++ new) (run step n s ms e).1.1 := by
  induction n generalizing seen s ms with
  | zero =>
      refine ⟨[], rfl, ?_⟩
      rw [List.append_nil]
      exact h
  | succ n ih =>
      cases ms with
      | nil =>
          refine ⟨[], rfl, ?_⟩
          rw [List.append_nil]
          exact h
      | cons m ms =>
          have hnext := hstep seen s m h
          rw [run]
          rcases hm : step s m with s' | s' | ⟨s', e'⟩
          · rw [hm] at hnext
            obtain ⟨new, hms, hI⟩ := ih hnext ms
            rw [List.append_assoc, List.singleton_append] at hI
            exact ⟨m :: new, congrArg (m :: ·) hms, hI⟩
          · rw [hm] at hnext
            exact ⟨[m], rfl, hnext⟩
          · rw [hm] at hnext
            exact ⟨[m], rfl, hnext⟩

/-- The same of a loop that reads: the messages seen are the front of those that
arrive. -/
theorem Framing.loop_seen (F : Framing α ε μ) {I : List μ → σ → Prop}
    (hstep : ∀ seen s m, I seen s → I (seen ++ [m]) (step s m).state) (n : ℕ)
    {seen : List μ} {s : σ} (h : I seen s) (segments : List (List α)) :
    ∃ new, (F.arriving segments).1 = new ++ (F.arriving (F.loop step n s segments).2).1 ∧
      I (seen ++ new) (F.loop step n s segments).1.1 := by
  have hloop := F.loop_eq_run step n s segments
  obtain ⟨new, hms, hI⟩ :=
    run_seen hstep n h (F.arriving segments).1 (F.arriving segments).2
  rw [← hloop] at hms hI
  exact ⟨new, hms, hI⟩

/-- The loop goes on through all of these messages. -/
inductive Goes (step : σ → μ → Next σ ε) : σ → List μ → σ → Prop
  | nil {s : σ} : Goes step s [] s
  | cons {s s' s'' : σ} {m : μ} {ms : List μ} : step s m = .go s' → Goes step s' ms s'' →
      Goes step s (m :: ms) s''

theorem Goes.append {ms' : List μ} {s'' : σ} (h : Goes step s ms s') (h' : Goes step s' ms' s'') :
    Goes step s (ms ++ ms') s'' := by
  induction h with
  | nil => exact h'
  | cons hstep _ ih => exact .cons hstep (ih h')

theorem Goes.run (h : Goes step s ms s') (n : ℕ) (rest : List μ) :
    Stream.run step (ms.length + n) s (ms ++ rest) e = Stream.run step n s' rest e := by
  induction h with
  | nil => rw [List.length_nil, Nat.zero_add, List.nil_append]
  | cons hstep _ ih =>
      rw [List.length_cons, Nat.add_right_comm, List.cons_append, Stream.run, hstep]
      exact ih

theorem Goes.state {n : ℕ} (h : Goes step s (ms.take n) s') :
    (Stream.run step n s ms e).1.1 = s' := by
  induction n generalizing s ms with
  | zero =>
      rw [List.take_zero] at h
      cases h
      rfl
  | succ n ih =>
      cases ms with
      | nil =>
          rw [List.take_nil] at h
          cases h
          rfl
      | cons m ms =>
          rw [List.take_succ_cons] at h
          cases h with
          | cons hstep hrest =>
              rw [Stream.run, hstep]
              exact ih hrest

end Stream
