import Aesd.Driver.Refinement

/-! A sequential reader beside writers. A file position counts from the oldest
entry in the ring, so every eviction moves its origin. A reader that keeps one
file open gets pieces of the stream of completed lines, each where the bytes it
has got so far and the bytes evicted so far say; it never gets a byte twice, but
between two reads it misses what is evicted in between. -/

namespace Aesd.Driver

open Segments Run Window CircularBuffer

inductive ReaderEvent where
  | write (env : WriteEnv) (buf : UserBuf) (fPos : ℕ)
  | read (env : ReadEnv) (count : ℕ)

/-- The driver, the position of the reader's file, and all lines completed. -/
structure Reader where
  driver : State
  fPos : ℕ
  completed : List (List Cell)

def Reader.initial : Reader := ⟨State.initial, 0, []⟩

def Reader.step (r : Reader) : ReaderEvent → Reader
  | .write env buf fPos =>
    { r with
      driver := r.driver.step (.write env buf fPos)
      completed := r.completed ++ completedBy r.driver (.write env buf fPos) }
  | .read env count =>
    { r with
      driver := (aesdRead env r.driver count r.fPos).state
      fPos := (aesdRead env r.driver count r.fPos).fPos }

/-- The bytes a call of the reader returns; a failed call returns none. -/
def Reader.returned (r : Reader) : ReaderEvent → List Cell
  | .write _ _ _ => []
  | .read env count =>
    if 0 ≤ (aesdRead env r.driver count r.fPos).retval then
      (aesdRead env r.driver count r.fPos).copied
    else []

/-- Writes of other openers succeed; reads may fail. -/
def Reader.WriteSucceeds (r : Reader) : ReaderEvent → Prop
  | .write env buf fPos => 0 ≤ (aesdWrite env r.driver buf fPos).retval
  | .read _ _ => True

instance (r : Reader) : (e : ReaderEvent) → Decidable (r.WriteSucceeds e)
  | .write _ _ _ => inferInstanceAs (Decidable (_ ≤ _))
  | .read _ _ => inferInstanceAs (Decidable True)

/-- How many bytes of completed lines the ring has evicted. -/
def Reader.evicted (r : Reader) : ℕ := (r.completed.rdrop 10).flatten.length

/-- Everything the reader has got in a run. -/
def delivered (es : List ReaderEvent) : List Cell :=
  outputs Reader.step Reader.returned .initial es

/-- The stream of completed lines after a run. -/
def Reader.stream (r : Reader) : List Cell := r.completed.flatten

/-! ### The content as a part of the stream -/

theorem Repr.content {s : State} {st : LineLog} (h : Repr s st) :
    s.content = (st.1.rtake 10).flatten.map some := by
  rw [State.content, h.shape.window_ten, List.map_append, List.map_replicate, h.ring,
    Kmem.entryBytes_zero, List.flatten_append, List.map_flatten]
  simp

/-- What the ring holds and what it has evicted make up the stream. -/
theorem drop_evicted {α : Type*} (ls : List (List α)) :
    ls.flatten.drop (ls.rdrop 10).flatten.length = (ls.rtake 10).flatten := by
  have hsplit : ls = ls.rdrop 10 ++ ls.rtake 10 := by
    rw [List.rdrop, List.rtake, List.take_append_drop]
  conv_lhs => rw [hsplit, List.flatten_append]
  rw [← hsplit, List.drop_left]

/-! ### Runs -/

/-- The reader and the log agree. -/
structure Reader.Ok (r : Reader) : Prop where
  valid : Valid r.driver
  log : ∃ st : LineLog, Repr r.driver st ∧ r.completed = st.1.map (·.map some)

theorem Reader.Ok.content {r : Reader} (h : r.Ok) :
    r.driver.content = r.stream.drop r.evicted := by
  obtain ⟨st, hr, hc⟩ := h.log
  rw [Reader.stream, Reader.evicted, drop_evicted, hr.content, hc, ← map_rtake, List.map_flatten]

theorem Reader.Ok.step {r : Reader} (h : r.Ok) {e : ReaderEvent} (he : r.WriteSucceeds e) :
    (r.step e).Ok := by
  obtain ⟨st, hr, hc⟩ := h.log
  cases e with
  | read env count =>
    have hstate : (r.step (.read env count)).driver = r.driver := aesdRead_state h.valid.unlocked ..
    exact ⟨hstate ▸ h.valid, st, hstate ▸ hr, hc⟩
  | write env buf fPos =>
    refine ⟨h.valid.step (.write env buf fPos), _,
      hr.step (c := .write env buf fPos) h.valid he, ?_⟩
    simp only [Reader.step, (h.valid.write_completes he).2.1, hr.pending, hc, Call.stored]
    split_ifs with hf
    · rw [feed_free _ (by rwa [UserBuf.stored_of_free hf])]
      simp
    · rw [feed_isSegment _ (UserBuf.isSegment_stored hf)]
      simp

/-- A read returns the stream at its place and moves the position along. -/
theorem Reader.Ok.returned {r : Reader} (h : r.Ok) (e : ReaderEvent) :
    (r.step e).fPos = r.fPos + (r.returned e).length ∧
      r.returned e = (r.stream.drop (r.evicted + r.fPos)).take (r.returned e).length := by
  cases e with
  | write env buf fPos => simp [Reader.step, Reader.returned]
  | read env count =>
    rcases h.valid.read env count r.fPos with ⟨hneg, hpos, -, -⟩ | ⟨hret, hpos, hcopied⟩
    · have hnone : r.returned (.read env count) = [] := if_neg (not_le.mpr hneg)
      simp [hnone, Reader.step, hpos]
    · set k := min count (r.driver.left r.fPos) with hk
      have hle : k ≤ (r.driver.content.drop r.fPos).length := by
        rcases Nat.eq_zero_or_pos (r.driver.left r.fPos) with h0 | hl
        · omega
        · have := h.valid.add_left_le hl
          rw [List.length_drop]
          omega
      have hreturned : r.returned (.read env count) = (r.driver.content.drop r.fPos).take k := by
        simp only [Reader.returned, hret, hcopied]
        simp
      have hlen : (r.returned (.read env count)).length = k := by
        rw [hreturned, List.length_take, Nat.min_eq_left hle]
      refine ⟨by rw [hlen]; exact hpos, ?_⟩
      rw [hlen, hreturned, h.content, List.drop_drop]

theorem Reader.completed_isPrefix (r : Reader) (es : List ReaderEvent) :
    r.completed <+: (run Reader.step r es).completed := by
  refine invariant_of_step (I := fun t : Reader => r.completed <+: t.completed) (fun t e h => ?_)
    List.prefix_rfl es
  cases e with
  | write => exact h.trans (List.prefix_append _ _)
  | read => exact h

/-- The stream only grows, and so does its evicted part. -/
theorem Reader.stream_isPrefix (r : Reader) (es : List ReaderEvent) :
    r.stream <+: (run Reader.step r es).stream := (r.completed_isPrefix es).flatten

theorem Reader.evicted_le (r : Reader) (es : List ReaderEvent) :
    r.evicted ≤ (run Reader.step r es).evicted := by
  obtain ⟨ls, hls⟩ := r.completed_isPrefix es
  have hpre : r.completed.rdrop 10 <+: (run Reader.step r es).completed.rdrop 10 := by
    have hsame : r.completed.take (r.completed.length - 10) =
        (r.completed ++ ls).take (r.completed.length - 10) :=
      (List.take_append_of_le_length (by omega)).symm
    rw [← hls, List.rdrop, List.rdrop, hsame]
    exact List.take_prefix_take_left (by rw [List.length_append]; omega)
  exact hpre.flatten.length_le

theorem run_reader_ok {es : List ReaderEvent}
    (h : Along Reader.step Reader.WriteSucceeds .initial es) :
    (run Reader.step .initial es).Ok ∧
      (run Reader.step .initial es).fPos = (delivered es).length := by
  induction es using List.reverseRecOn with
  | nil => exact ⟨⟨initial_valid, _, initial_repr, rfl⟩, rfl⟩
  | append_singleton es e ih =>
    obtain ⟨hes, he⟩ := along_concat.mp h
    obtain ⟨hok, hpos⟩ := ih hes
    rw [run_concat]
    refine ⟨hok.step he, ?_⟩
    rw [(hok.returned e).1, hpos, delivered, delivered, outputs_concat, List.length_append]

theorem take_drop_of_isPrefix {α : Type*} {x l m : List α} {o : ℕ}
    (hx : x = (l.drop o).take x.length) (h : l <+: m) : x = (m.drop o).take x.length := by
  obtain ⟨rest, rfl⟩ := h
  have hlen : x.length ≤ (l.drop o).length := by
    have := congrArg List.length hx
    rw [List.length_take] at this
    omega
  rcases Nat.le_total o l.length with ho | ho
  · rw [List.drop_append_of_le_length ho, List.take_append_of_le_length hlen]
    exact hx
  · rw [List.drop_eq_nil_of_le ho] at hlen
    rw [List.eq_nil_of_length_eq_zero (Nat.le_zero.mp hlen)]
    rfl

/-- Where a call of a run finds its bytes in any later stream. -/
theorem returned_eq {before : List ReaderEvent}
    (h : Along Reader.step Reader.WriteSucceeds .initial before) (e : ReaderEvent)
    {stream : List Cell} (hs : (run Reader.step .initial before).stream <+: stream) :
    let r := run Reader.step .initial before
    r.returned e =
      (stream.drop (r.evicted + (delivered before).length)).take (r.returned e).length := by
  obtain ⟨hok, hpos⟩ := run_reader_ok h
  have hret := (hok.returned e).2
  rw [hpos] at hret
  exact take_drop_of_isPrefix hret hs

/-- As long as nothing is evicted, the pieces follow each other. -/
theorem delivered_eq {pre mid : List ReaderEvent}
    (h : Along Reader.step Reader.WriteSucceeds .initial (pre ++ mid)) (hpre : delivered pre = [])
    (hev : (run Reader.step .initial (pre ++ mid)).evicted = (run Reader.step .initial pre).evicted)
    {stream : List Cell} (hs : (run Reader.step .initial (pre ++ mid)).stream <+: stream) :
    delivered (pre ++ mid) = (stream.drop (run Reader.step .initial pre).evicted).take
      (delivered (pre ++ mid)).length := by
  induction mid using List.reverseRecOn with
  | nil => simp [hpre]
  | append_singleton mid e ih =>
    rw [← List.append_assoc] at h hev hs ⊢
    obtain ⟨hmid, -⟩ := along_concat.mp h
    -- the last event may evict only if the run up to it has not
    have hmono := Reader.evicted_le (run Reader.step .initial pre) mid
    have hlast := Reader.evicted_le (run Reader.step .initial (pre ++ mid)) [e]
    have hgrow := Reader.stream_isPrefix (run Reader.step .initial (pre ++ mid)) [e]
    rw [← run_append] at hmono hlast hgrow
    have hsame : (run Reader.step .initial (pre ++ mid)).evicted =
        (run Reader.step .initial pre).evicted := by omega
    have hsplit : delivered (pre ++ mid ++ [e]) =
        delivered (pre ++ mid) ++ (run Reader.step .initial (pre ++ mid)).returned e :=
      outputs_concat ..
    rw [hsplit, List.length_append, List.take_add, ← ih hmid hsame (hgrow.trans hs),
      List.drop_drop, ← hsame]
    congr 1
    exact returned_eq hmid e (hgrow.trans hs)

/-- A reader that starts at position 0 beside successful writes. Each call
returns the bytes of the stream of completed lines behind those evicted and
those delivered before the call; the ring holds the rest of the stream. The
evicted part never shrinks, so no byte comes twice, and a call skips just as
many bytes as were evicted since the one before. If nothing is evicted between
the first byte and the last, all bytes together are one contiguous part of the
stream. -/
theorem sequential_reader (es : List ReaderEvent)
    (h : Along Reader.step Reader.WriteSucceeds .initial es) :
    let stream := (run Reader.step .initial es).stream
    (∀ before e after, es = before ++ e :: after →
      let r := run Reader.step .initial before
      r.returned e =
          (stream.drop (r.evicted + (delivered before).length)).take (r.returned e).length ∧
        r.driver.content = r.stream.drop r.evicted ∧ r.evicted ≤ (r.step e).evicted) ∧
    (∀ pre mid post, es = pre ++ mid ++ post → delivered pre = [] →
      delivered es = delivered (pre ++ mid) →
      (run Reader.step .initial (pre ++ mid)).evicted = (run Reader.step .initial pre).evicted →
      delivered es <:+: stream) := by
  refine ⟨?_, ?_⟩
  · rintro before e after rfl
    obtain ⟨hbefore, -⟩ := along_append.mp h
    refine ⟨returned_eq hbefore e ?_, (run_reader_ok hbefore).1.content, Reader.evicted_le _ [e]⟩
    rw [run_append]
    exact Reader.stream_isPrefix _ _
  · rintro pre mid post rfl hpre hpost hev
    have hgrow := Reader.stream_isPrefix (run Reader.step .initial (pre ++ mid)) post
    rw [← run_append] at hgrow
    rw [hpost, delivered_eq (along_append.mp h).1 hpre hev hgrow]
    exact (List.take_prefix _ _).isInfix.trans (List.drop_suffix _ _).isInfix

/-- A line of one letter and a newline. -/
def letterLine (i : Fin 26) : UserBuf where
  bytes := [97 + UInt8.ofNat i, newline]
  count_le := by simp

def letterWrite (i : Fin 26) : ReaderEvent := .write (.ok 99 i) (letterLine i) 0

/-- The lines `a` to `j`, the reader gets `a`, the line `k` evicts it, and the
reader goes on with `c`. -/
def skippingRun : List ReaderEvent :=
  (List.range 10).map (fun i => letterWrite (Fin.ofNat 26 i)) ++
    [.read ⟨true, 0⟩ 2, letterWrite 10, .read ⟨true, 0⟩ 2]

/-- A line between two reads, and nothing is evicted. -/
def growingRun : List ReaderEvent :=
  [letterWrite 0, letterWrite 1, .read ⟨true, 0⟩ 5, letterWrite 2, .read ⟨true, 0⟩ 1]

/-- The second read of the one run goes on behind the two bytes that were evicted; both
reads of the other make one part of the stream. -/
theorem sequential_reader_two_reads :
    let r := run Reader.step .initial (skippingRun.take 12)
    (r.evicted = 2 ∧ r.returned (.read ⟨true, 0⟩ 2) =
      ((run Reader.step .initial skippingRun).stream.drop 4).take 2) ∧
    delivered growingRun <:+: (run Reader.step .initial growingRun).stream := by
  intro r
  have hskip := ((sequential_reader skippingRun (by decide)).1 (skippingRun.take 12)
    (.read ⟨true, 0⟩ 2) [] rfl).1
  have hgrow := (sequential_reader growingRun (by decide)).2 (growingRun.take 2) (growingRun.drop 2) []
    rfl (by decide) rfl (by decide)
  exact ⟨⟨by decide, hskip⟩, hgrow⟩

theorem sequential_reader_skips :
    ¬ ∀ es, Along Reader.step Reader.WriteSucceeds .initial es →
      delivered es <:+: (run Reader.step .initial es).stream := by
  intro h
  have hskip := h skippingRun (by decide)
  revert hskip
  decide

end Aesd.Driver
