import Aesd.Server.Calls

/-! Where the bytes in the device come from. Beside the system runs a record that no
statement of the program looks at: of every byte in the ring and in the pending entry
it keeps the connection that received it and its place in the stream of this
connection. The record is filled where the program moves bytes, at `read_line` and at a
successful `write`. -/

namespace Aesd.Server

open Segments Run Driver

/-- A byte that was given to the device: the connection that received it, its place in
what this connection receives, and its value. -/
structure Source (ι : Type*) where
  conn : ι
  pos : ℕ
  byte : UInt8
  deriving DecidableEq

/-- The origins of what is in the device, and the place of each stream at which the
buffer of its thread begins. -/
structure Origins (ι : Type*) where
  start : ι → ℕ
  ring : Fin 10 → List (Source ι)
  pending : List (Source ι)

/-- The system and the origins of the bytes in its device. -/
structure Traced (ι : Type*) where
  sys : System ι
  origins : Origins ι

variable {ι : Type*}

/-- The bytes `l`, received by `t` from place `n` on. -/
def sources (t : ι) (n : ℕ) (l : List UInt8) : List (Source ι) :=
  (l.zipIdx n).map fun b => ⟨t, b.2, b.1⟩

/-- How many bytes of its stream a thread has received. -/
def Thread.taken (stream : List UInt8) (th : Thread) : ℕ :=
  stream.length - (received th.input).length

/-- The driver puts new bytes behind the pending ones, and with a newline all of them
into the slot at `in_offs`. -/
def Origins.store (o : Origins ι) (inOffs : Fin 10) (t : ι) (buf : UserBuf) : Origins ι :=
  let line := o.pending ++ sources t (o.start t) buf.stored
  if Free isNewline buf.bytes then { o with pending := line }
  else { o with ring := Function.update o.ring inOffs line, pending := [] }

/-! ### Lists of sources -/

@[simp] theorem length_sources (t : ι) (n : ℕ) (l : List UInt8) :
    (sources t n l).length = l.length := by
  simp [sources]

theorem getElem?_sources (t : ι) (n : ℕ) (l : List UInt8) (k : ℕ) :
    (sources t n l)[k]? = l[k]?.map fun b => ⟨t, n + k, b⟩ := by
  simp [sources, List.getElem?_zipIdx, Function.comp_def]

theorem mem_sources {t : ι} {n : ℕ} {l : List UInt8} {o : Source ι} :
    o ∈ sources t n l ↔ ∃ k, l[k]? = some o.byte ∧ o.conn = t ∧ o.pos = n + k := by
  simp only [List.mem_iff_getElem?, getElem?_sources, Option.map_eq_some_iff]
  constructor
  · rintro ⟨k, b, hb, rfl⟩
    exact ⟨k, hb, rfl, rfl⟩
  · rintro ⟨k, hb, rfl, hpos⟩
    exact ⟨k, o.byte, hb, by rw [← hpos]⟩

theorem map_byte_sources (t : ι) (n : ℕ) (l : List UInt8) : (sources t n l).map Source.byte = l := by
  refine List.ext_getElem? fun k => ?_
  rw [List.getElem?_map, getElem?_sources, Option.map_map]
  cases l[k]? <;> rfl

/-! ### Storing -/

section

variable (o : Origins ι) (inOffs : Fin 10) (t : ι) (buf : UserBuf)

@[simp] theorem Origins.store_start : (o.store inOffs t buf).start = o.start := by
  simp only [store]
  split_ifs <;> rfl

theorem Origins.store_ring (i : Fin 10) : (o.store inOffs t buf).ring i =
    if ¬ Free isNewline buf.bytes ∧ i = inOffs then o.pending ++ sources t (o.start t) buf.stored
    else o.ring i := by
  by_cases hf : Free isNewline buf.bytes
  · rw [if_neg (fun hc => hc.1 hf), store, if_pos hf]
  · rw [store, if_neg hf]
    by_cases hi : i = inOffs
    · rw [if_pos ⟨hf, hi⟩, hi]
      exact Function.update_self ..
    · rw [if_neg (fun hc => hi hc.2)]
      exact Function.update_of_ne hi ..

theorem Origins.store_pending : (o.store inOffs t buf).pending =
    if Free isNewline buf.bytes then o.pending ++ sources t (o.start t) buf.stored else [] := by
  simp only [store]
  split_ifs <;> rfl

variable {o inOffs t buf} in
theorem Origins.mem_store {b : Source ι}
    (h : b ∈ (o.store inOffs t buf).pending ∨ ∃ i, b ∈ (o.store inOffs t buf).ring i) :
    b ∈ o.pending ++ sources t (o.start t) buf.stored ∨ ∃ i, b ∈ o.ring i := by
  rcases h with h | ⟨i, h⟩
  · rw [store_pending] at h
    split_ifs at h
    · exact .inl h
    · exact absurd h List.not_mem_nil
  · rw [store_ring] at h
    split_ifs at h
    · exact .inl h
    · exact .inr ⟨i, h⟩

end

/-! ### Runs -/

variable [DecidableEq ι]

namespace Traced

def initial (input : ι → List SockRead) : Traced ι where
  sys := .initial input
  origins := ⟨fun _ => 0, fun _ => [], []⟩

/-- One step of the system, and of the record beside it. -/
def step (stream : ι → List UInt8) (w : Traced ι) (a : Label ι) : Traced ι where
  sys := w.sys.step a
  origins :=
    match a with
    | .signal => w.origins
    | .thread t env =>
      let th := w.sys.threads t
      match th.pc with
      | .readLine =>
        { w.origins with start := Function.update w.origins.start t (th.taken (stream t)) }
      | .write =>
        if (w.sys.write env.write th.fd th.data).1 = -1 then w.origins
        else w.origins.store w.sys.driver.dev.buffer.inOffs t (vfsBuf th.data)
      | _ => w.origins

@[simp] theorem step_sys (stream : ι → List UInt8) (w : Traced ι) (a : Label ι) :
    (w.step stream a).sys = w.sys.step a := rfl

/-- The record does not change what the system does. -/
theorem run_sys (stream : ι → List UInt8) (w : Traced ι) (as : List (Label ι)) :
    (run (step stream) w as).sys = run System.step w.sys as := by
  induction as generalizing w with
  | nil => rfl
  | cons a as ih => rw [run_cons, run_cons, ih, step_sys]

end Traced

/-- The thread after `read_line`, at any place. -/
def Thread.afterReadLine (th : Thread) (pc : Pc) : Thread :=
  let r := readLine th.input connectionBufferSize
  { th with input := r.rest, connBuffer := r.buffer, bytesReceived := r.retval, pc := pc }

namespace Traced

/-- What a thread and its mark in the record keep while the thread moves on, and what
`read_line` establishes again, holds of all threads after every step. -/
theorem threads_keep {T : ι → ℕ → Thread → Prop} {stream : ι → List UInt8}
    (hmove : ∀ t n th th', T t n th → th'.input = th.input → th'.data = th.data →
      (th'.pc.toWrite → th.pc.toWrite) → T t n th')
    (hread : ∀ t n th pc, T t n th → ¬ th.pc.toWrite →
      (pc.toWrite → 0 < (readLine th.input connectionBufferSize).retval) →
      T t (th.taken (stream t)) (th.afterReadLine pc)) {w : Traced ι}
    (h : ∀ t, T t (w.origins.start t) (w.sys.threads t)) (a : Label ι) (u : ι) :
    T u ((w.step stream a).origins.start u) ((w.step stream a).sys.threads u) := by
  cases a with
  | signal => exact h u
  | thread t env =>
    by_cases hpc : (w.sys.threads t).pc = .readLine
    · have hstep : ∃ pc, (w.sys.threadStep t env).threads =
          Function.update w.sys.threads t ((w.sys.threads t).afterReadLine pc) ∧
          (pc.toWrite → 0 < (readLine (w.sys.threads t).input connectionBufferSize).retval) := by
        simp only [System.threadStep, hpc]
        refine ⟨_, rfl, ?_⟩
        split_ifs with hgo
        · exact fun _ => hgo.1
        · simp [Pc.toWrite]
      obtain ⟨pc, hstep, hpos⟩ := hstep
      simp only [System.step, hstep, step, hpc]
      by_cases hu : u = t
      · subst hu
        rw [Function.update_self, Function.update_self]
        exact hread u _ _ pc (h u) (by simp [hpc, Pc.toWrite]) hpos
      · rw [Function.update_of_ne hu, Function.update_of_ne hu]
        exact h u
    · have hstart : (w.step stream (.thread t env)).origins.start = w.origins.start := by
        simp only [step]
        split
        · contradiction
        · split_ifs
          · rfl
          · rw [Origins.store_start]
        · rfl
      obtain ⟨th, hframe⟩ := w.sys.threadStep_frame t env
      obtain ⟨hinput, hdata, hw⟩ := hframe.line hpc
      rw [hstart, step_sys, System.step, hframe.threads]
      by_cases hu : u = t
      · subst hu
        rw [Function.update_self]
        exact hmove u _ _ th (h u) hinput hdata hw
      · rw [Function.update_of_ne hu]
        exact h u

/-- A step without failure stores a buffer, or leaves the driver and the origins of its
bytes alone. -/
theorem step_cases (stream : ι → List UInt8) {w : Traced ι} (hs : Valid w.sys.driver) {a : Label ι}
    (ha : w.sys.NoFailure a) :
    ((∀ t env, a = .thread t env → (w.sys.threads t).pc ≠ .write) ∧
      (w.step stream a).sys.driver = w.sys.driver ∧
      (w.step stream a).origins.ring = w.origins.ring ∧
      (w.step stream a).origins.pending = w.origins.pending) ∨
    ∃ t env fPos, a = .thread t env ∧ (w.sys.threads t).pc = .write ∧
      0 ≤ (aesdWrite env.write w.sys.driver (vfsBuf (w.sys.threads t).data) fPos).retval ∧
      (w.step stream a).sys.driver =
        w.sys.driver.step (.write env.write (vfsBuf (w.sys.threads t).data) fPos) ∧
      (w.step stream a).origins =
        w.origins.store w.sys.driver.dev.buffer.inOffs t (vfsBuf (w.sys.threads t).data) ∧
      (w.step stream a).sys.threads t = { w.sys.threads t with pc := .writeUnlock } := by
  cases a with
  | signal => exact .inl ⟨by simp, rfl, rfl, rfl⟩
  | thread t env =>
    by_cases hpc : (w.sys.threads t).pc = .write
    · have hok := ha.2.1 hpc
      obtain ⟨fPos, hret, hdriver⟩ := System.write_ok hok
      refine .inr ⟨t, env, fPos, rfl, hpc, hret, ?_, ?_, ?_⟩
      · simp only [step_sys, System.step, System.threadStep, hpc, if_neg hok, System.put_driver, hdriver]
        rfl
      · simp only [step, hpc, if_neg hok]
      · simp only [step_sys, System.step, System.threadStep, hpc, if_neg hok, System.put_threads,
          Function.update_self]
    · obtain ⟨th, hframe⟩ := w.sys.threadStep_frame t env
      refine .inl ⟨fun u env' he => by cases he; exact hpc, hframe.driver hs hpc, ?_⟩
      simp only [step]
      split
      · exact ⟨rfl, rfl⟩
      · contradiction
      · exact ⟨rfl, rfl⟩

end Traced

end Aesd.Server
