import Aesd.Server.HandleConnection

/-! What the system calls of a connection thread change, and what a step of one
thread leaves alone: the other threads, the flag of the signal handler, and the
driver unless the step writes. -/

namespace Aesd.Server

open Segments Driver

variable {ι : Type*}

/-- Thread `t` holds descriptor `n` of the device open. -/
def System.HoldsFd (s : System ι) (t : ι) (n : ℕ) : Prop := ∃ fPos, s.files n = some ⟨t, fPos⟩

/-- Received and not yet written: from the loop test to the call of `write`. -/
def Pc.toWrite : Pc → Bool
  | .writeLock | .writeOpen | .write => true
  | _ => false

theorem vfsBuf_bytes {data : List UInt8} (h : data.length ≤ 65535) : (vfsBuf data).bytes = data :=
  List.take_of_length_le (by omega)

namespace System

/-! ### Calls -/

variable {s : System ι} {n : ℕ} {fd : Option ℕ}

/-- `open` fails, or gives the thread a descriptor that nobody had. -/
theorem openDevice_cases (s : System ι) (t : ι) (offer : Option ℕ) :
    s.openDevice t offer = (none, s) ∨ ∃ n, s.files n = none ∧
      s.openDevice t offer =
        (some n, { s with files := Function.update s.files n (some ⟨t, 0⟩) }) := by
  cases offer with
  | none => exact .inl rfl
  | some n =>
    cases hn : s.files n with
    | none => exact .inr ⟨n, hn, by simp [openDevice, hn]⟩
    | some f => exact .inl (by simp [openDevice, hn])

/-- `write` without an open file, with an error of the driver, or with success. -/
theorem write_cases (s : System ι) (env : WriteEnv) (fd : Option ℕ) (data : List UInt8) :
    s.write env fd data = (-1, s) ∨
    ∃ n f, fd = some n ∧ s.files n = some f ∧
      let r := aesdWrite env s.driver (vfsBuf data) f.fPos
      (r.retval < 0 ∧ s.write env fd data = (-1, { s with driver := r.state }) ∨
        0 ≤ r.retval ∧ s.write env fd data = (r.retval, { s with
          driver := r.state
          files := Function.update s.files n (some { f with fPos := r.fPos }) })) := by
  cases fd with
  | none => exact .inl rfl
  | some n =>
    cases hn : s.files n with
    | none => exact .inl (by simp [write, hn])
    | some f =>
      refine .inr ⟨n, f, rfl, hn, ?_⟩
      by_cases hneg : (aesdWrite env s.driver (vfsBuf data) f.fPos).retval < 0
      · exact .inl ⟨hneg, by simp [write, hn, hneg]⟩
      · exact .inr ⟨not_lt.mp hneg, by simp [write, hn, hneg]⟩

theorem read_cases (s : System ι) (env : ReadEnv) (fd : Option ℕ) (count : ℕ) :
    s.read env fd count = (-1, [], s) ∨
    ∃ n f, fd = some n ∧ s.files n = some f ∧
      let r := aesdRead env s.driver count f.fPos
      (r.retval < 0 ∧ s.read env fd count = (-1, r.copied, { s with driver := r.state }) ∨
        0 ≤ r.retval ∧ s.read env fd count = (r.retval, r.copied, { s with
          driver := r.state
          files := Function.update s.files n (some { f with fPos := r.fPos }) })) := by
  cases fd with
  | none => exact .inl rfl
  | some n =>
    cases hn : s.files n with
    | none => exact .inl (by simp [read, hn])
    | some f =>
      refine .inr ⟨n, f, rfl, hn, ?_⟩
      by_cases hneg : (aesdRead env s.driver count f.fPos).retval < 0
      · exact .inl ⟨hneg, by simp [read, hn, hneg]⟩
      · exact .inr ⟨not_lt.mp hneg, by simp [read, hn, hneg]⟩

/-- A successful `write` went to the driver. -/
theorem write_ok {env : WriteEnv} {data : List UInt8} (h : (s.write env fd data).1 ≠ -1) :
    ∃ fPos, 0 ≤ (aesdWrite env s.driver (vfsBuf data) fPos).retval ∧
      (s.write env fd data).2.driver = (aesdWrite env s.driver (vfsBuf data) fPos).state := by
  rcases s.write_cases env fd data with hw | ⟨n, f, -, -, ⟨-, hw⟩ | ⟨hret, hw⟩⟩
  · exact absurd (by rw [hw]) h
  · exact absurd (by rw [hw]) h
  · exact ⟨f.fPos, hret, by rw [hw]⟩

theorem read_ok {env : ReadEnv} {count : ℕ} (h : (s.read env fd count).1 ≠ -1) :
    ∃ n f, fd = some n ∧ s.files n = some f ∧
      let r := aesdRead env s.driver count f.fPos
      0 ≤ r.retval ∧ (s.read env fd count).1 = r.retval ∧ (s.read env fd count).2.1 = r.copied ∧
        (s.read env fd count).2.2.files n = some { f with fPos := r.fPos } := by
  rcases s.read_cases env fd count with hr | ⟨n, f, hfd, hn, ⟨-, hr⟩ | ⟨hret, hr⟩⟩
  · exact absurd (by rw [hr]) h
  · exact absurd (by rw [hr]) h
  · refine ⟨n, f, hfd, hn, hret, ?_⟩
    rw [hr]
    exact ⟨rfl, rfl, Function.update_self ..⟩

/-- A read does not change the driver. -/
theorem read_driver (hs : Valid s.driver) (env : ReadEnv) (fd : Option ℕ) (count : ℕ) :
    (s.read env fd count).2.2.driver = s.driver := by
  rcases s.read_cases env fd count with hr | ⟨n, f, -, -, ⟨-, hr⟩ | ⟨-, hr⟩⟩
  · rw [hr]
  · rw [hr]
    exact aesdRead_state hs.unlocked ..
  · rw [hr]
    exact aesdRead_state hs.unlocked ..

/-! ### Owners -/

/-- Two states that differ in the driver and in file positions only. -/
structure SameOwners (s s' : System ι) : Prop where
  threads : s'.threads = s.threads
  fileMutex : s'.fileMutex = s.fileMutex
  shouldTerminate : s'.shouldTerminate = s.shouldTerminate
  holdsFd : ∀ u m, s'.HoldsFd u m ↔ s.HoldsFd u m

theorem SameOwners.rfl' (s : System ι) : s.SameOwners s := ⟨rfl, rfl, rfl, fun _ _ => Iff.rfl⟩

theorem sameOwners_setPos {f : OpenFile ι} (hn : s.files n = some f) (driver : State) (fPos : ℕ) :
    s.SameOwners { s with
      driver := driver
      files := Function.update s.files n (some { f with fPos := fPos }) } := by
  refine ⟨rfl, rfl, rfl, fun u m => ?_⟩
  by_cases hm : m = n
  · subst hm
    obtain ⟨v, p⟩ := f
    simp [HoldsFd, hn]
  · simp [HoldsFd, Function.update_of_ne hm]

theorem write_sameOwners (s : System ι) (env : WriteEnv) (fd : Option ℕ) (data : List UInt8) :
    s.SameOwners (s.write env fd data).2 := by
  rcases s.write_cases env fd data with hw | ⟨n, f, -, hn, ⟨-, hw⟩ | ⟨-, hw⟩⟩
  · rw [hw]
    exact .rfl' s
  · rw [hw]
    exact ⟨rfl, rfl, rfl, fun _ _ => Iff.rfl⟩
  · rw [hw]
    exact sameOwners_setPos hn ..

theorem read_sameOwners (s : System ι) (env : ReadEnv) (fd : Option ℕ) (count : ℕ) :
    s.SameOwners (s.read env fd count).2.2 := by
  rcases s.read_cases env fd count with hr | ⟨n, f, -, hn, ⟨-, hr⟩ | ⟨-, hr⟩⟩
  · rw [hr]
    exact .rfl' s
  · rw [hr]
    exact ⟨rfl, rfl, rfl, fun _ _ => Iff.rfl⟩
  · rw [hr]
    exact sameOwners_setPos hn ..

theorem openDevice_threads (s : System ι) (t : ι) (offer : Option ℕ) :
    (s.openDevice t offer).2.threads = s.threads := by
  rcases s.openDevice_cases t offer with h | ⟨n, -, h⟩ <;> rw [h]

theorem close_threads (s : System ι) (fd : Option ℕ) : (s.close fd).threads = s.threads := by
  cases fd <;> rfl

/-! ### Other descriptors -/

theorem openDevice_files_of_some {f : OpenFile ι} (hn : s.files n = some f) (t : ι)
    (offer : Option ℕ) : (s.openDevice t offer).2.files n = some f := by
  rcases s.openDevice_cases t offer with ho | ⟨m, hm, ho⟩
  · rwa [ho]
  · have hne : n ≠ m := fun he => by simp [he, hm] at hn
    rw [ho]
    exact (Function.update_of_ne hne _ _).trans hn

theorem close_files_of_ne (h : fd ≠ some n) : (s.close fd).files n = s.files n := by
  cases fd with
  | none => rfl
  | some m => exact Function.update_of_ne (fun he => h (congrArg some he.symm)) _ _

theorem write_files_of_ne (h : fd ≠ some n) (env : WriteEnv) (data : List UInt8) :
    (s.write env fd data).2.files n = s.files n := by
  rcases s.write_cases env fd data with hw | ⟨m, f, hm, -, ⟨-, hw⟩ | ⟨-, hw⟩⟩
  · rw [hw]
  · rw [hw]
  · rw [hw]
    exact Function.update_of_ne (fun he => h (hm.trans (congrArg some he.symm))) _ _

theorem read_files_of_ne (h : fd ≠ some n) (env : ReadEnv) (count : ℕ) :
    (s.read env fd count).2.2.files n = s.files n := by
  rcases s.read_cases env fd count with hr | ⟨m, f, hm, -, ⟨-, hr⟩ | ⟨-, hr⟩⟩
  · rw [hr]
  · rw [hr]
  · rw [hr]
    exact Function.update_of_ne (fun he => h (hm.trans (congrArg some he.symm))) _ _

/-! ### Events -/

theorem event_cases (s : System ι) (t : ι) (env : Env) :
    s.event (.thread t env) = [] ∨
      ((s.threads t).pc = .write ∧ s.event (.thread t env) = [.wrote t (s.threads t).data]) ∨
      ((s.threads t).pc = .readUnlock ∧
        s.event (.thread t env) = [.replied t (s.threads t).reply]) := by
  cases hpc : (s.threads t).pc with
  | write =>
    simp only [event, hpc]
    split_ifs
    · exact .inl rfl
    · exact .inr (.inl ⟨trivial, rfl⟩)
  | readUnlock => exact .inr (.inr ⟨rfl, by simp only [event, hpc]⟩)
  | _ => exact .inl (by simp only [event, hpc])

theorem length_event_le (s : System ι) (a : Label ι) : (s.event a).length ≤ 1 := by
  cases a with
  | signal => exact Nat.zero_le 1
  | thread t env =>
    rcases s.event_cases t env with he | ⟨-, he⟩ | ⟨-, he⟩ <;> simp [he]

/-! ### Steps -/

variable [DecidableEq ι]

@[simp] theorem put_threads (s : System ι) (t : ι) (th : Thread) :
    (s.put t th).threads = Function.update s.threads t th := rfl

@[simp] theorem put_fileMutex (s : System ι) (t : ι) (th : Thread) :
    (s.put t th).fileMutex = s.fileMutex := rfl

@[simp] theorem put_files (s : System ι) (t : ι) (th : Thread) : (s.put t th).files = s.files := rfl

@[simp] theorem put_driver (s : System ι) (t : ι) (th : Thread) : (s.put t th).driver = s.driver := rfl

@[simp] theorem put_holdsFd {s : System ι} {t : ι} {th : Thread} {u : ι} {n : ℕ} :
    (s.put t th).HoldsFd u n ↔ s.HoldsFd u n := Iff.rfl

@[simp] theorem unlock_fileMutex (s : System ι) (t : ι) (next : Pc) :
    (s.unlock t next).fileMutex = none := rfl

@[simp] theorem unlock_holdsFd {s : System ι} {t : ι} {next : Pc} {u : ι} {n : ℕ} :
    (s.unlock t next).HoldsFd u n ↔ s.HoldsFd u n := Iff.rfl

/-- What a step of thread `t` leaves alone. -/
structure StepFrame (s : System ι) (t : ι) (s' : System ι) (th : Thread) : Prop where
  threads : s'.threads = Function.update s.threads t th
  shouldTerminate : s'.shouldTerminate = s.shouldTerminate
  driver : Valid s.driver → (s.threads t).pc ≠ .write → s'.driver = s.driver
  line : (s.threads t).pc ≠ .readLine → th.input = (s.threads t).input ∧
    th.data = (s.threads t).data ∧ (th.pc.toWrite → (s.threads t).pc.toWrite)

theorem put_frame {s₁ : System ι} {t : ι} {th : Thread} (hthreads : s₁.threads = s.threads)
    (hrun : s₁.shouldTerminate = s.shouldTerminate)
    (hdriver : Valid s.driver → (s.threads t).pc ≠ .write → s₁.driver = s.driver)
    (hline : (s.threads t).pc ≠ .readLine → th.input = (s.threads t).input ∧
      th.data = (s.threads t).data ∧ (th.pc.toWrite → (s.threads t).pc.toWrite)) :
    s.StepFrame t (s₁.put t th) th :=
  ⟨by rw [put_threads, hthreads], hrun, hdriver, hline⟩

theorem lock_frame (s : System ι) (t : ι) {next : Pc}
    (h : next.toWrite → (s.threads t).pc.toWrite) : ∃ th, s.StepFrame t (s.lock t next) th := by
  unfold lock
  split
  · exact ⟨_, rfl, rfl, fun _ _ => rfl, fun _ => ⟨rfl, rfl, h⟩⟩
  · exact ⟨s.threads t, (Function.update_eq_self _ _).symm, rfl, fun _ _ => rfl,
      fun _ => ⟨rfl, rfl, id⟩⟩

theorem threadStep_frame (s : System ι) (t : ι) (env : Env) :
    ∃ th, s.StepFrame t (s.threadStep t env) th := by
  cases hpc : (s.threads t).pc with
  | readLine =>
    simp only [threadStep, hpc]
    exact ⟨_, rfl, rfl, fun _ _ => rfl, fun h => absurd hpc h⟩
  | writeLock | readLock =>
    simp only [threadStep, hpc]
    exact s.lock_frame t (by simp [hpc, Pc.toWrite])
  | writeOpen | readOpen =>
    simp only [threadStep, hpc]
    rcases s.openDevice_cases t env.openFd with ho | ⟨m, -, ho⟩ <;> rw [ho] <;>
      exact ⟨_, rfl, rfl, fun _ _ => rfl, fun _ => ⟨rfl, rfl, by simp [hpc, Pc.toWrite]⟩⟩
  | write =>
    have hw := s.write_sameOwners env.write (s.threads t).fd (s.threads t).data
    simp only [threadStep, hpc]
    split_ifs <;>
      exact ⟨_, put_frame hw.threads hw.shouldTerminate (fun _ h => absurd hpc h)
        fun _ => ⟨rfl, rfl, by simp [hpc, Pc.toWrite]⟩⟩
  | read =>
    have hr := s.read_sameOwners env.read (s.threads t).fd 1024
    simp only [threadStep, hpc]
    split_ifs <;>
      exact ⟨_, put_frame hr.threads hr.shouldTerminate
        (fun hs _ => read_driver hs env.read (s.threads t).fd 1024)
        fun _ => ⟨rfl, rfl, by simp [Pc.toWrite]⟩⟩
  | writeClose | readClose =>
    simp only [threadStep, hpc]
    cases (s.threads t).fd <;>
      exact ⟨_, rfl, rfl, fun _ _ => rfl, fun _ => ⟨rfl, rfl, by simp [Pc.toWrite]⟩⟩
  | send =>
    simp only [threadStep, hpc]
    split <;> exact ⟨_, rfl, rfl, fun _ _ => rfl, fun _ => ⟨rfl, rfl, by simp [Pc.toWrite]⟩⟩
  | complete =>
    simp only [threadStep, hpc]
    exact ⟨s.threads t, (Function.update_eq_self _ _).symm, rfl, fun _ _ => rfl,
      fun _ => ⟨rfl, rfl, id⟩⟩
  | _ =>
    simp only [threadStep, hpc]
    exact ⟨_, rfl, rfl, fun _ _ => rfl, fun _ => ⟨rfl, rfl, by simp [Pc.toWrite]⟩⟩

/-- A successful `write` feeds the log of the device with the buffer. -/
theorem repr_write {s : System ι} (hs : Valid s.driver) {st : LineLog} (hr : Repr s.driver st)
    {t : ι} {env : Env} (hpc : (s.threads t).pc = .write)
    (hok : (s.write env.write (s.threads t).fd (s.threads t).data).1 ≠ -1) :
    Valid (s.threadStep t env).driver ∧ Repr (s.threadStep t env).driver
      ((vfsBuf (s.threads t).data).stored.foldl (feed isNewline) st) := by
  obtain ⟨fPos, hret, hdriver⟩ := write_ok hok
  have hstep : (s.threadStep t env).driver =
      s.driver.step (.write env.write (vfsBuf (s.threads t).data) fPos) := by
    simp only [threadStep, hpc, if_neg hok, put_driver, hdriver]
    rfl
  rw [hstep]
  exact ⟨hs.step _, hr.step (c := .write env.write (vfsBuf (s.threads t).data) fPos) hs hret⟩

/-- A step without failure feeds the log of the device with the buffer written,
if it writes one. -/
theorem repr_step {s : System ι} (hs : Valid s.driver) {st : LineLog} (hr : Repr s.driver st)
    {a : Label ι} (ha : s.NoFailure a) :
    Valid (s.step a).driver ∧ (Repr (s.step a).driver st ∨
      ∃ t env, a = .thread t env ∧ (s.threads t).pc = .write ∧
        Repr (s.step a).driver ((vfsBuf (s.threads t).data).stored.foldl (feed isNewline) st)) := by
  cases a with
  | signal => exact ⟨hs, .inl hr⟩
  | thread t env =>
    rw [step]
    by_cases hpc : (s.threads t).pc = .write
    · obtain ⟨hvalid, hrepr⟩ := repr_write hs hr hpc (ha.2.1 hpc)
      exact ⟨hvalid, .inr ⟨t, env, rfl, hpc, hrepr⟩⟩
    · obtain ⟨th, hframe⟩ := s.threadStep_frame t env
      rw [hframe.driver hs hpc]
      exact ⟨hs, .inl hr⟩

end System

/-- A step of thread `t` in which nothing fails. -/
def okStep {n : ℕ} (t : Fin n) : Label (Fin n) := .thread t ⟨some (3 + t), .ok 99 t, ⟨true, 0⟩, some 1024⟩

end Aesd.Server
