import Aesd.Server.Calls
import Aesd.Server.Filestore

/-! The two builds of the filestore, as operations on the whole store. One appends
to a plain file and reads it from the start, through a descriptor that all threads
share; the other opens the character device for every operation. Run side by side
they agree up to eviction: the device build sends the last ten of the lines that
the file build sends. An operation whose thread would wait forever for the mutex
has no result. -/

namespace Aesd.Server

open Segments Run Driver

/-! ### The file build -/

/-- The data file, the position of `filestore.fd`, and whether the mutex is held. -/
structure FileStore where
  file : List UInt8
  fPos : ℕ
  fileMutex : Bool

namespace FileStore

def initial : FileStore := ⟨[], 0, false⟩

/-- The descriptor has `O_APPEND`: `write` puts what it accepts at the end. -/
def write (s : FileStore) (data : List UInt8) : Option ℕ → ℤ × FileStore
  | none => (-1, s)
  | some k =>
    let file := s.file ++ data.take k
    (min k data.length, { s with file := file, fPos := file.length })

/-- `read(filestore.fd, file_buffer, 1024)`, of at most as many bytes as it is
allowed. -/
def read (s : FileStore) : Option ℕ → ℤ × List Cell × FileStore
  | none => (-1, [], s)
  | some k =>
    let k := min k (min 1024 (s.file.length - s.fPos))
    (k, ((s.file.drop s.fPos).take k).map some, { s with fPos := s.fPos + k })

def filestoreWrite (s : FileStore) (data : List UInt8) (accepted : Option ℕ) :
    Option (ℤ × FileStore) :=
  if s.fileMutex then none
  else
    let (n, s) := { s with fileMutex := true }.write data accepted
    -- the failing branch returns without unlocking
    if n = -1 then some (-1, s) else some (0, { s with fileMutex := false })

def filestoreReadToDest (s : FileStore) (rounds : List (Option ℕ × Option ℕ)) :
    Option (Dump FileStore) :=
  if s.fileMutex then none
  else
    let d := sendLoop read { s with fileMutex := true, fPos := 0 } 0 (List.replicate 1024 none) rounds
    some { d with state := if d.ret = none then d.state else { d.state with fileMutex := false } }

end FileStore

/-! ### The device build -/

/-- The driver and whether the mutex is held. -/
structure DeviceStore where
  driver : State
  fileMutex : Bool

namespace DeviceStore

def initial : DeviceStore := ⟨.initial, false⟩

/-- `write` on a new file of the device; without an open file it fails. -/
def write (s : DeviceStore) (opened : Bool) (env : WriteEnv) (data : List UInt8) : ℤ × DeviceStore :=
  if opened then
    let r := aesdWrite env s.driver (vfsBuf data) 0
    (if r.retval < 0 then -1 else r.retval, { s with driver := r.state })
  else (-1, s)

def filestoreWrite (s : DeviceStore) (opened : Bool) (env : WriteEnv) (data : List UInt8) :
    Option (ℤ × DeviceStore) :=
  if s.fileMutex then none
  else
    let (n, s) := { s with fileMutex := true }.write opened env data
    if n = -1 then some (-1, s) else some (0, { s with fileMutex := false })

def filestoreReadToDest (s : DeviceStore) (opened : Bool) (rounds : List (ReadEnv × Option ℕ)) :
    Option (Dump DeviceStore) :=
  if s.fileMutex then none
  else
    let read := fun s env => if opened then readDevice s env else (-1, [], s)
    let d := Server.filestoreReadToDest read (s.driver, 0) opened rounds
    some ⟨⟨d.state.1, decide (d.ret = none)⟩, d.events, d.ret⟩

end DeviceStore

/-! ### Operations that succeed in full -/

/-- An operation on either store. For the device `env` is what the kernel
answers during the write. -/
inductive StoreOp where
  | write (env : WriteEnv) (line : List UInt8)
  | read

/-- The lines an operation writes. -/
def StoreOp.lines : StoreOp → List (List UInt8)
  | .write _ line => [line]
  | .read => []

/-- `filestore_read_to_dest` with reads of 1024 bytes and full sends; every round
but the last one reads something. -/
def FileStore.dump (s : FileStore) : Option (Dump FileStore) :=
  s.filestoreReadToDest (List.replicate (s.file.length + 1) (some 1024, some 1024))

def FileStore.step (s : FileStore) : StoreOp → FileStore
  | .write _ line => ((s.filestoreWrite line (some line.length)).map Prod.snd).getD s
  | .read => (s.dump.map Dump.state).getD s

def DeviceStore.dump (s : DeviceStore) : Option (Dump DeviceStore) :=
  s.filestoreReadToDest true (List.replicate (s.driver.content.length + 1) (.ok, some 1024))

def DeviceStore.step (s : DeviceStore) : StoreOp → DeviceStore
  | .write env line => ((s.filestoreWrite true env line).map Prod.snd).getD s
  | .read => (s.dump.map Dump.state).getD s

/-- A write writes one line of at most 65535 bytes, and the driver takes it. -/
def DeviceStore.WritesLine (s : DeviceStore) : StoreOp → Prop
  | .write env line => IsSegment isNewline line ∧ line.length ≤ 65535 ∧
      0 ≤ (aesdWrite env s.driver (vfsBuf line) 0).retval
  | .read => True

instance (s : DeviceStore) : (op : StoreOp) → Decidable (s.WritesLine op)
  | .write _ _ => inferInstanceAs (Decidable (_ ∧ _))
  | .read => inferInstanceAs (Decidable True)

/-! ### One dump -/

/-- Outcomes may be taken from anywhere. -/
theorem sendLoop_map {σ ρ τ : Type*} (read : σ → ρ → ℤ × List Cell × σ) (f : τ → ρ) (s : σ) (ret : ℤ)
    (fileBuffer : List Cell) (rounds : List (τ × Option ℕ)) :
    sendLoop read s ret fileBuffer (rounds.map (Prod.map f id)) =
      sendLoop (fun s r => read s (f r)) s ret fileBuffer rounds := by
  induction rounds generalizing s ret fileBuffer with
  | nil => rfl
  | cons round rounds ih => simp only [List.map_cons, sendLoop, Prod.map_fst, Prod.map_snd, id, ih]

theorem readsRest_fileStore : ReadsRest (fun (s : FileStore) (_ : Unit) => s.read (some 1024))
    (fun s => s.fPos ≤ s.file.length) (fun s => (s.file.drop s.fPos).map some) where
  next s _ hs := by
    refine ⟨min 1024 (min 1024 (s.file.length - s.fPos)),
      { s with fPos := s.fPos + min 1024 (min 1024 (s.file.length - s.fPos)) }, ?_, by omega, ?_, ?_, ?_, ?_⟩
    · rw [FileStore.read, List.map_take]
    · rw [List.length_map, List.length_drop]
      omega
    · intro h0
      rw [List.drop_of_length_le (by omega), List.map_nil]
    · rw [← List.map_drop, List.drop_drop]
    · change s.fPos + _ ≤ s.file.length
      omega

/-- The file build sends the file and leaves it as it is. -/
theorem FileStore.dump_eq {s : FileStore} (hs : s.fileMutex = false) :
    ∃ d, s.dump = some d ∧ d.ret = some 0 ∧ d.sent = s.file.map some ∧
      d.state.file = s.file ∧ d.state.fileMutex = false := by
  set start : FileStore := { s with fileMutex := true, fPos := 0 }
  set rounds : List (Unit × Option ℕ) := List.replicate (s.file.length + 1) ((), some 1024)
  set read := fun (s : FileStore) (_ : Unit) => s.read (some 1024)
  set d := sendLoop read start 0 (List.replicate 1024 none) rounds
  have hdump : s.dump = some { d with
      state := if d.ret = none then d.state else { d.state with fileMutex := false } } := by
    rw [dump, filestoreReadToDest, hs, if_neg (by simp)]
    simp only [d, read, rounds, ← sendLoop_map, List.map_replicate]
    rfl
  have hfull : d.ret = some 0 ∧ d.sent = (s.file.drop 0).map some :=
    readsRest_fileStore.sendLoop_full (s := start) (Nat.zero_le _) _ () (by simp [start])
  have hfile : d.state.file = s.file :=
    sendLoop_state (P := fun t => t.file = s.file) (fun t _ ht => ht) (s := start) rfl 0 _ rounds
  exact ⟨_, hdump, hfull.1, by rw [← List.drop_zero (l := s.file)]; exact hfull.2,
    by simpa [hfull.1] using hfile, by simp [hfull.1]⟩

/-- The device build sends the content of the device. -/
theorem DeviceStore.dump_eq {s : DeviceStore} (hs : s.fileMutex = false) (hv : Valid s.driver) :
    ∃ d, s.dump = some d ∧ d.ret = some 0 ∧ d.sent = s.driver.content ∧ d.state = s := by
  set rounds : List (Unit × Option ℕ) := List.replicate (s.driver.content.length + 1) ((), some 1024)
  set read := fun s (_ : Unit) => readDevice s .ok
  set d := sendLoop read (s.driver, 0) 0 (List.replicate 1024 none) rounds
  have hdump : s.dump = some ⟨⟨d.state.1, decide (d.ret = none)⟩, d.events, d.ret⟩ := by
    rw [dump, filestoreReadToDest, hs, if_neg (by simp)]
    simp only [Server.filestoreReadToDest, d, read, rounds, ← sendLoop_map, List.map_replicate, if_true]
    rfl
  have hfull : d.ret = some 0 ∧ d.sent = s.driver.content.drop 0 :=
    readsRest_readDevice.sendLoop_full (s := (s.driver, 0)) ⟨hv, Nat.zero_le _⟩ _ () (by simp)
  have hdriver : d.state.1 = s.driver :=
    sendLoop_state (P := fun t => t.1 = s.driver)
      (fun t _ ht => (aesdRead_state (ht ▸ hv.unlocked) ..).trans ht) (s := (s.driver, 0)) rfl 0 _ rounds
  have hstate : (⟨d.state.1, decide (d.ret = none)⟩ : DeviceStore) = ⟨s.driver, s.fileMutex⟩ := by
    rw [hdriver, hfull.1, hs]
    rfl
  exact ⟨_, hdump, hfull.1, by rw [← List.drop_zero (l := s.driver.content)]; exact hfull.2, hstate⟩

/-! ### Both builds side by side -/

/-- The file holds `lines` and the device the last ten of them, with nothing
pending; nobody holds a mutex. -/
structure Agree (lines : List (List UInt8)) (f : FileStore) (d : DeviceStore) : Prop where
  isSegment : ∀ line ∈ lines, IsSegment isNewline line
  file : f.file = lines.flatten
  fileMutex : f.fileMutex = false
  valid : Valid d.driver
  repr : Repr d.driver (lines, [])
  deviceMutex : d.fileMutex = false

theorem Agree.step {lines : List (List UInt8)} {f : FileStore} {d : DeviceStore}
    (h : Agree lines f d) {op : StoreOp} (hop : d.WritesLine op) :
    Agree (lines ++ op.lines) (f.step op) (d.step op) := by
  cases op with
  | read =>
    obtain ⟨e, hf, -, -, hfile, hmutex⟩ := FileStore.dump_eq h.fileMutex
    obtain ⟨e', hd, -, -, hstate⟩ := DeviceStore.dump_eq h.deviceMutex h.valid
    rw [FileStore.step, DeviceStore.step, hf, hd, StoreOp.lines, List.append_nil]
    simp only [Option.map_some, Option.getD_some, hstate]
    exact { h with file := hfile.trans h.file, fileMutex := hmutex }
  | write env line =>
    obtain ⟨hline, hle, hret⟩ := hop
    have hf : f.step (.write env line) = { f with
        file := f.file ++ line
        fPos := (f.file ++ line).length
        fileMutex := false } := by
      simp only [FileStore.step, FileStore.filestoreWrite, FileStore.write, h.fileMutex]
      simp
    have hd : d.step (.write env line) = ⟨d.driver.step (.write env (vfsBuf line) 0), false⟩ := by
      have hne : (aesdWrite env d.driver (vfsBuf line) 0).retval ≠ -1 := by omega
      simp only [DeviceStore.step, DeviceStore.filestoreWrite, DeviceStore.write, h.deviceMutex,
        State.step]
      simp [not_lt.mpr hret, hne]
    have hstored : (vfsBuf line).stored = line := by
      rw [UserBuf.stored, vfsBuf_bytes hle, cutAfter_of_isSegment hline]
    have hrepr := h.repr.step h.valid (c := .write env (vfsBuf line) 0) hret
    rw [Call.stored, hstored, feed_isSegment _ hline] at hrepr
    rw [hf, hd]
    refine ⟨fun l hl => ?_, by simp [h.file, StoreOp.lines], rfl,
      h.valid.step (.write env (vfsBuf line) 0), hrepr, rfl⟩
    rcases List.mem_append.mp hl with hl | hl
    · exact h.isSegment l hl
    · rw [List.mem_singleton.mp hl]
      exact hline

theorem run_agree {ops : List StoreOp} (h : Along DeviceStore.step DeviceStore.WritesLine .initial ops) :
    Agree (ops.flatMap StoreOp.lines) (run FileStore.step .initial ops)
      (run DeviceStore.step .initial ops) := by
  refine invariant_trace DeviceStore.step (P := DeviceStore.WritesLine)
    (I := fun ops d => Agree (ops.flatMap StoreOp.lines) (run FileStore.step .initial ops) d)
    ⟨by simp, rfl, rfl, initial_valid, initial_repr, rfl⟩ (fun ops d op hI hop => ?_) h
  rw [List.flatMap_append, List.flatMap_singleton, run_concat]
  exact hI.step hop

/-- Run the same operations in both builds, with every call succeeding in full.
Every `filestore_read_to_dest` returns 0 in both; the file build sends all lines
written so far, and the device build the last ten of them, so as long as there
are at most ten both send the same. -/
theorem builds_agree (ops : List StoreOp)
    (h : Along DeviceStore.step DeviceStore.WritesLine .initial ops) :
    ∀ before after, ops = before ++ .read :: after →
      ∃ f d, (run FileStore.step .initial before).dump = some f ∧
        (run DeviceStore.step .initial before).dump = some d ∧
        f.ret = some 0 ∧ d.ret = some 0 ∧
        let lines := before.flatMap StoreOp.lines
        f.sent = lines.flatten.map some ∧ segments isNewline lines.flatten = (lines, []) ∧
        d.sent = (lines.rtake 10).flatten.map some ∧ (lines.length ≤ 10 → d.sent = f.sent) := by
  rintro before after rfl
  have hbefore := (along_append.mp h).1
  have hagree := run_agree hbefore
  obtain ⟨f, hf, hfret, hfsent, -, -⟩ := FileStore.dump_eq hagree.fileMutex
  obtain ⟨d, hd, hdret, hdsent, -⟩ := DeviceStore.dump_eq hagree.deviceMutex hagree.valid
  rw [hagree.file] at hfsent
  rw [hagree.repr.content] at hdsent
  refine ⟨f, d, hf, hd, hfret, hdret, hfsent, ?_, hdsent, fun hle => ?_⟩
  · rw [← List.append_nil (List.flatten _)]
    exact segments_flatten_append hagree.isSegment free_nil
  · rw [hfsent, hdsent, Window.rtake_of_length_le hle]

/-- A line of 110 bytes that begins with a letter of its own. -/
def longLine (i : ℕ) : List UInt8 := (97 + UInt8.ofNat i) :: List.replicate 108 46 ++ [newline]

def writeLong (i : ℕ) : StoreOp := .write (.ok 99 i) (longLine i)

/-- Eleven lines, with a dump before the last one. The dump behind them reads the file
twice and the device ten times, and the first line has been evicted. -/
theorem builds_agree_eleven_lines :
    let before := (List.range 10).map writeLong ++ [.read, writeLong 10]
    (run FileStore.step .initial before).dump.map Dump.sent =
        some (((List.range 11).map longLine).flatten.map some) ∧
      (run DeviceStore.step .initial before).dump.map Dump.sent =
        some (((List.range' 1 10).map longLine).flatten.map some) := by
  intro before
  obtain ⟨f, d, hf, hd, -, -, hfsent, -, hdsent, -⟩ :=
    builds_agree (before ++ [.read]) (by decide +kernel) before [] rfl
  rw [hf, hd]
  exact ⟨congrArg some hfsent, congrArg some hdsent⟩

end Aesd.Server
