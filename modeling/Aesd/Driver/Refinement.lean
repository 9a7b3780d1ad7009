import Aesd.Driver.Reading

/-! The device as a line log. Abstractly a write feeds what it stores of the
user's buffer to a splitter of newline-terminated lines; the device keeps the
last ten lines and the unfinished rest. The driver refines this over whole
runs. What a write stores is not always what it reports: bytes behind the first
newline of a buffer are dropped while the return value counts them. -/

namespace Aesd.Driver

open Segments Run Window CircularBuffer

/-- Lines completed so far, and the bytes behind the last newline. -/
abbrev LineLog := List (List UInt8) × List UInt8

/-- The device holds the log `st`: its ring the last ten lines, its pending
entry the rest. -/
structure Repr (s : State) (st : LineLog) : Prop where
  shape : s.dev.buffer.Shape st.1.length
  ring : (s.dev.buffer.held st.1.length).map s.mem.entryBytes = (st.1.rtake 10).map (·.map some)
  pending : s.mem.entryBytes s.dev.entry = st.2.map some

theorem initial_repr : Repr State.initial ([], []) where
  shape := shape_init
  ring := rfl
  pending := rfl

theorem Repr.size_eq_zero_iff {s : State} {st : LineLog} (h : Repr s st) :
    s.dev.entry.size = 0 ↔ st.2 = [] := by
  rw [← length_entryBytes s.mem, h.pending, List.length_map, List.length_eq_zero_iff]

/-! ### One write -/

theorem mem_held {b : CircularBuffer} {n : ℕ} {e : BufferEntry} (h : e ∈ b.held n) :
    ∃ i, e = b.entry i := by
  simp only [held, window, List.mem_map] at h
  obtain ⟨j, -, rfl⟩ := h
  exact ⟨_, rfl⟩

theorem Grown.entryBytes {m : Kmem} {e e' : BufferEntry} {data : List Cell} {h' : Heap Cell}
    (hg : Grown m e data e' h') (m' : Kmem) (hm : m'.heap = h') :
    m'.entryBytes e' = m.entryBytes e ++ data := by
  have hok := hg.entryOk
  rw [← hm] at hok
  rw [hok.entryBytes]
  cases hg with
  | empty h =>
    obtain ⟨hs, hd⟩ : e.size = 0 ∧ data.length = 0 := by omega
    simp [Kmem.cells, Kmem.entryBytes, Kmem.load, resize, hs, List.eq_nil_of_length_eq_zero hd]
  | block c hpos hc hlt => simp [Kmem.cells, hm]

theorem Grown.entryBytes_ring {s : State} (hs : Valid s) {m' : Kmem} {e' : BufferEntry}
    {data : List Cell} {h' : Heap Cell} (hg : Grown s.mem s.dev.entry data e' h')
    (hm : m'.heap = h') (i : Fin 10) :
    m'.entryBytes (s.dev.buffer.entry i) = s.mem.entryBytes (s.dev.buffer.entry i) := by
  cases hp : (s.dev.buffer.entry i).buffptr with
  | null | zeroSize => simp [Kmem.entryBytes, Kmem.load, Kmem.cells, hp]
  | block b =>
    have hne : s.dev.entry.buffptr ≠ .block b := fun he => by
      cases hs.distinct none (some i) b he hp
    simp only [Kmem.entryBytes, Kmem.load, Kmem.cells, hp, hm,
      (hg.frame (hs.live (i := some i) hp) hne).2.1]

/-- What a successful write does to the device: it stores `buf.stored` behind
the pending bytes and moves them into the ring when they end in a newline. -/
theorem WriteEffect.repr {env : WriteEnv} {s s' : State} {buf : UserBuf} {ret : ℤ} {st : LineLog}
    (hs : Valid s) (hr : Repr s st) (h : WriteEffect env s buf ret s') (hret : 0 ≤ ret) :
    Repr s' (buf.stored.foldl (feed isNewline) st) := by
  cases h with
  | refused ret hneg ho => omega
  | lost ho hpos => simp [enomem] at hret
  | @pending ho hf e h hg =>
    rw [feed_free st (by rwa [UserBuf.stored_of_free hf])]
    refine ⟨hr.shape, ?_, ?_⟩
    · rw [← hr.ring]
      refine List.map_congr_left fun d hd => ?_
      obtain ⟨i, rfl⟩ := mem_held hd
      exact hg.entryBytes_ring hs rfl i
    · simp only [hg.entryBytes (memAfter env s buf h) rfl, hr.pending, List.map_append]
  | @completed ho hf e h hg =>
    rw [feed_isSegment st (UserBuf.isSegment_stored hf)]
    have hnew : (memAfter env s buf h).entryBytes e = (st.2 ++ buf.stored).map some := by
      rw [hg.entryBytes _ rfl, hr.pending, List.map_append]
    have hold : (s.dev.buffer.held st.1.length).map (memAfter env s buf h).entryBytes =
        (st.1.rtake 10).map (·.map some) := by
      rw [← hr.ring]
      refine List.map_congr_left fun d hd => ?_
      obtain ⟨i, rfl⟩ := mem_held hd
      exact hg.entryBytes_ring hs rfl i
    refine ⟨?_, ?_, rfl⟩
    · simpa using hr.shape.addEntry e
    · simp only [List.length_append, List.length_singleton, hr.shape.held_addEntry,
        List.map_append, List.map_singleton, hnew, List.rtake_concat_succ]
      congr 1
      split_ifs with hlt
      · rw [hold, rtake_of_length_le hlt.le, rtake_of_length_le (by omega)]
      · rw [List.map_tail, hold, ← List.map_tail, tail_rtake (by omega)]

/-! ### Runs -/

/-- The call, if it is a write, succeeds. -/
def WriteSucceeds (s : State) : Call → Prop
  | .write env buf fPos => 0 ≤ (aesdWrite env s buf fPos).retval
  | .read _ _ _ => True

instance (s : State) : (c : Call) → Decidable (WriteSucceeds s c)
  | .write _ _ _ => inferInstanceAs (Decidable (_ ≤ _))
  | .read _ _ _ => inferInstanceAs (Decidable True)

/-- The bytes the call submits, and those of them that a write stores. -/
def Call.submitted : Call → List UInt8
  | .write _ buf _ => buf.bytes
  | .read _ _ _ => []

def Call.stored : Call → List UInt8
  | .write _ buf _ => buf.stored
  | .read _ _ _ => []

/-- The line the call completes: what the slot at `in_offs` holds afterwards,
when `in_offs` has moved. -/
def completedBy (s : State) (c : Call) : List (List Cell) :=
  if (s.step c).dev.buffer.inOffs = s.dev.buffer.inOffs then []
  else [(s.step c).mem.entryBytes ((s.step c).dev.buffer.entry s.dev.buffer.inOffs)]

/-- All lines ever completed in a run. -/
def completedLines (cs : List Call) : List (List Cell) :=
  outputs State.step completedBy .initial cs

/-- The logical stream after a run: all completed lines and the pending bytes. -/
def stream (cs : List Call) : List Cell :=
  (completedLines cs).flatten ++
    (run State.step .initial cs).mem.entryBytes (run State.step .initial cs).dev.entry

theorem Repr.step {s : State} {st : LineLog} (hs : Valid s) (hr : Repr s st) {c : Call}
    (hc : WriteSucceeds s c) : Repr (s.step c) (c.stored.foldl (feed isNewline) st) := by
  cases c with
  | read env count fPos =>
    rw [State.step, aesdRead_state hs.unlocked]
    exact hr
  | write env buf fPos => exact (aesdWrite_effect env hs.toReady buf fPos).2.repr hs hr hc

theorem run_repr {cs : List Call} (h : Along State.step WriteSucceeds .initial cs) :
    Repr (run State.step .initial cs) (segments isNewline (cs.flatMap Call.stored)) := by
  have hinv := invariant_trace State.step (P := WriteSucceeds)
    (I := fun cs s => Valid s ∧ Repr s (segments isNewline (cs.flatMap Call.stored)))
    ⟨initial_valid, initial_repr⟩ (fun cs s c hI hc => ?_) h
  · exact hinv.2
  · refine ⟨hI.1.step c, ?_⟩
    rw [List.flatMap_append, List.flatMap_singleton, segments_append]
    exact hI.2.step hI.1 hc

/-- For every run of successful writes, with `S` the concatenation of what they
store: walked from `out_offs`, the ring holds the last ten lines of `S` in order
and byte for byte, all other slots are empty, and the pending entry holds the
bytes of `S` behind its last newline. -/
theorem device_refinement (cs : List Call) (h : Along State.step WriteSucceeds .initial cs) :
    let s := run State.step .initial cs
    let lines := (segments isNewline (cs.flatMap Call.stored)).1
    let rest := (segments isNewline (cs.flatMap Call.stored)).2
    (window s.dev.buffer.entry s.dev.buffer.outOffs (min 10 lines.length)).map s.mem.entryBytes =
        (lines.rtake 10).map (·.map some) ∧
      (∀ j, min 10 lines.length ≤ j → j < 10 →
        (s.dev.buffer.entry (s.dev.buffer.outOffs + Fin.ofNat 10 j)).size = 0) ∧
      s.mem.entryBytes s.dev.entry = rest.map some := by
  intro s lines rest
  have hr := run_repr h
  refine ⟨?_, fun j hj hlt => ?_, hr.pending⟩
  · rw [Nat.min_comm]
    exact hr.ring
  · have hn : lines.length < 10 := by omega
    have hout : s.dev.buffer.outOffs = 0 := by rw [hr.shape.outOffs, if_pos hn]
    rw [hout, zero_add, hr.shape.unused (Fin.ofNat 10 j)
      (by rw [Fin.val_ofNat, Nat.mod_eq_of_lt hlt]; exact (show lines.length ≤ j by omega))]
    rfl

/-- A line in two pieces, then a write that is cut at its newline. -/
theorem device_refinement_three_writes :
    ∃ cs : List Call, cs.length = 3 ∧ Along State.step WriteSucceeds .initial cs ∧
      (run State.step .initial cs).mem.entryBytes (run State.step .initial cs).dev.entry = [] := by
  refine ⟨[.write (.ok 9 0) ⟨[97], by decide⟩ 0, .write (.ok 9 1) ⟨[newline], by decide⟩ 0,
    .write (.ok 9 2) ⟨[98, newline, 99], by decide⟩ 0], rfl, by decide, ?_⟩
  exact (device_refinement _ (by decide)).2.2

/-! ### The logical stream -/

/-- A successful write reports all of the buffer; it completes a line or leaves
the bytes pending. -/
theorem Valid.write_completes {s : State} (hs : Valid s) {env : WriteEnv} {buf : UserBuf} {fPos : ℕ}
    (hret : 0 ≤ (aesdWrite env s buf fPos).retval) :
    (aesdWrite env s buf fPos).retval = buf.bytes.length ∧
      completedBy s (.write env buf fPos) =
        (if Free isNewline buf.bytes then []
          else [s.mem.entryBytes s.dev.entry ++ buf.stored.map some]) ∧
      (s.step (.write env buf fPos)).mem.entryBytes (s.step (.write env buf fPos)).dev.entry =
        if Free isNewline buf.bytes then s.mem.entryBytes s.dev.entry ++ buf.stored.map some
          else [] := by
  have heff := (aesdWrite_effect env hs.toReady buf fPos).2
  rw [completedBy, State.step]
  generalize (aesdWrite env s buf fPos).retval = ret, (aesdWrite env s buf fPos).state = s'
    at heff hret
  cases heff with
  | refused ret hneg ho => omega
  | lost ho hpos => simp [enomem] at hret
  | @pending ho hf e h hg =>
    simp [hf, hg.entryBytes (memAfter env s buf h) rfl]
  | @completed ho hf e h hg =>
    -- `in_offs` has moved on by one
    have hmove : s.dev.buffer.inOffs + 1 ≠ s.dev.buffer.inOffs := by simp
    simp [hf, aesdCircularBufferAddEntry, hg.entryBytes (memAfter env s buf h) rfl]

/-- A line that is completed goes into the slot at `in_offs`; all other slots keep what
they hold. -/
theorem Valid.write_ring {s : State} (hs : Valid s) {env : WriteEnv} {buf : UserBuf} {fPos : ℕ}
    (hret : 0 ≤ (aesdWrite env s buf fPos).retval) (i : Fin 10) :
    (s.step (.write env buf fPos)).mem.entryBytes ((s.step (.write env buf fPos)).dev.buffer.entry i) =
      if ¬ Free isNewline buf.bytes ∧ i = s.dev.buffer.inOffs then
        s.mem.entryBytes s.dev.entry ++ buf.stored.map some
      else s.mem.entryBytes (s.dev.buffer.entry i) := by
  have heff := (aesdWrite_effect env hs.toReady buf fPos).2
  rw [State.step]
  generalize (aesdWrite env s buf fPos).retval = ret, (aesdWrite env s buf fPos).state = s'
    at heff hret
  cases heff with
  | refused ret hneg ho => omega
  | lost ho hpos => simp [enomem] at hret
  | @pending ho hf e h hg =>
    rw [if_neg (fun hc => hc.1 hf)]
    exact hg.entryBytes_ring hs rfl i
  | @completed ho hf e h hg =>
    by_cases hi : i = s.dev.buffer.inOffs
    · rw [if_pos ⟨hf, hi⟩]
      simp [hi, aesdCircularBufferAddEntry, hg.entryBytes (memAfter env s buf h) rfl]
    · rw [if_neg (fun hc => hi hc.2)]
      simp only [aesdCircularBufferAddEntry, Function.update_of_ne hi]
      exact hg.entryBytes_ring hs rfl i

/-- A successful write makes the stream longer by what it stores. -/
theorem stream_concat_write (cs : List Call) {env : WriteEnv} {buf : UserBuf} {fPos : ℕ}
    (hret : 0 ≤ (aesdWrite env (run State.step .initial cs) buf fPos).retval) :
    stream (cs ++ [.write env buf fPos]) = stream cs ++ buf.stored.map some := by
  obtain ⟨-, hcomp, hpend⟩ := (run_valid cs).write_completes hret
  simp only [stream, completedLines, outputs_concat, run_concat, hcomp, hpend, List.flatten_append]
  split_ifs <;> simp

/-- The completed lines of a run of successful writes are those of what the
writes store. -/
theorem run_completedLines {cs : List Call} (h : Along State.step WriteSucceeds .initial cs) :
    completedLines cs = (segments isNewline (cs.flatMap Call.stored)).1.map (·.map some) := by
  induction cs using List.reverseRecOn with
  | nil => rfl
  | append_singleton cs c ih =>
    obtain ⟨hcs, hc⟩ := along_concat.mp h
    have hs := run_valid cs
    rw [List.flatMap_append, List.flatMap_singleton, segments_append, completedLines,
      outputs_concat, ← completedLines, ih hcs]
    cases c with
    | read env count fPos =>
      simp [completedBy, State.step, aesdRead_state hs.unlocked, Call.stored]
    | write env buf fPos =>
      rw [(hs.write_completes hc).2.1, (run_repr hcs).pending]
      split_ifs with hf
      · rw [Call.stored, feed_free _ (by rwa [UserBuf.stored_of_free hf])]
        simp
      · rw [Call.stored, feed_isSegment _ (UserBuf.isSegment_stored hf)]
        simp

/-- If nothing is lost of a whole run, nothing is lost of any call in it. -/
theorem stored_eq_submitted_iff (cs : List Call) :
    cs.flatMap Call.stored = cs.flatMap Call.submitted ↔ ∀ c ∈ cs, c.stored = c.submitted := by
  have hle : ∀ c : Call, c.stored.length ≤ c.submitted.length := fun c => by
    cases c with
    | read => exact le_rfl
    | write env buf fPos => exact (cutAfter_isPrefix buf.bytes).length_le
  have hsum : ∀ ds : List Call,
      (ds.flatMap Call.stored).length ≤ (ds.flatMap Call.submitted).length := fun ds => by
    induction ds with
    | nil => exact le_rfl
    | cons d ds ih =>
      have := hle d
      simp only [List.flatMap_cons, List.length_append]
      omega
  induction cs with
  | nil => simp
  | cons c cs ih =>
    rw [List.forall_mem_cons, List.flatMap_cons, List.flatMap_cons]
    constructor
    · intro h
      have hlen := congrArg List.length h
      have hc := hle c
      have hcs := hsum cs
      simp only [List.length_append] at hlen
      obtain ⟨h1, h2⟩ := List.append_inj h (by omega)
      exact ⟨h1, ih.mp h2⟩
    · rintro ⟨h1, h2⟩
      rw [h1, ih.mpr h2]

theorem Call.stored_eq_submitted_iff (c : Call) :
    c.stored = c.submitted ↔ Free isNewline c.submitted.dropLast := by
  cases c with
  | read => simp [Call.stored, Call.submitted]
  | write env buf fPos => exact cutAfter_eq_self_iff

/-- A successful write returns the whole count. The stream grows by the first
`retval` bytes of the buffer exactly when the buffer has no newline before its
last byte, and after a run of successful writes the completed lines and the
pending bytes are those of the submitted bytes exactly when this holds of all
of its buffers. -/
theorem accepted_bytes_stored_iff (cs : List Call) :
    (∀ env buf fPos, 0 ≤ (aesdWrite env (run State.step .initial cs) buf fPos).retval →
      (stream (cs ++ [.write env buf fPos]) = stream cs ++ (buf.bytes.take
          (aesdWrite env (run State.step .initial cs) buf fPos).retval.toNat).map some ↔
        Free isNewline buf.bytes.dropLast)) ∧
    (∀ env buf fPos, 0 ≤ (aesdWrite env (run State.step .initial cs) buf fPos).retval →
      (aesdWrite env (run State.step .initial cs) buf fPos).retval = buf.bytes.length) ∧
    (Along State.step WriteSucceeds .initial cs →
      ((completedLines cs, (run State.step .initial cs).mem.entryBytes
            (run State.step .initial cs).dev.entry) =
          ((segments isNewline (cs.flatMap Call.submitted)).1.map (·.map some),
            (segments isNewline (cs.flatMap Call.submitted)).2.map some) ↔
        ∀ c ∈ cs, Free isNewline c.submitted.dropLast)) := by
  refine ⟨fun env buf fPos hret => ?_,
    fun env buf fPos hret => ((run_valid cs).write_completes hret).1, fun h => ?_⟩
  · rw [stream_concat_write cs hret, ((run_valid cs).write_completes hret).1, Int.toNat_natCast,
      List.take_length, List.append_cancel_left_eq,
      (List.map_injective_iff.mpr (Option.some_injective UInt8)).eq_iff]
    exact cutAfter_eq_self_iff
  · have hinj : Function.Injective (List.map (some : UInt8 → Cell)) :=
      List.map_injective_iff.mpr (Option.some_injective UInt8)
    rw [run_completedLines h, (run_repr h).pending, Prod.mk.injEq,
      (List.map_injective_iff.mpr hinj).eq_iff, hinj.eq_iff, ← Prod.ext_iff]
    simp only [← Call.stored_eq_submitted_iff, ← stored_eq_submitted_iff]
    constructor
    · -- both streams are put together again from the same lines and rest
      intro heq
      rw [← (segments_spec (p := isNewline) (cs.flatMap Call.stored)).1, heq,
        (segments_spec (p := isNewline) (cs.flatMap Call.submitted)).1]
    · intro heq
      rw [heq]

/-- A newline with one byte behind it: two bytes are reported, one is kept. -/
theorem accepted_bytes_stored_fails :
    ¬ ∀ cs env buf fPos, 0 ≤ (aesdWrite env (run State.step .initial cs) buf fPos).retval →
      stream (cs ++ [.write env buf fPos]) = stream cs ++ (buf.bytes.take
        (aesdWrite env (run State.step .initial cs) buf fPos).retval.toNat).map some := by
  intro h
  have hw := h [] (.ok 1 0) ⟨[newline, 97], by decide⟩ 0 (by decide)
  revert hw
  decide

end Aesd.Driver
