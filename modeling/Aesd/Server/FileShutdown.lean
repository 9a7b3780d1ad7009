import Aesd.Server.FileServer

/-! The end of `main` in the plain-file build. Behind the accept loop `main` cancels the
timer thread and joins it, while the connections go on. The timer thread acts on its
cancellation in `sleep` and in `write`, and in `write` it takes the mutex with it; the
wait for the mutex is no cancellation point. So the program ends unless the timer
thread has a record to store and the mutex is lost. -/

namespace Aesd.Server

open Run Atomic Driver

/-- The statement `main` executes next. The accept loop, with its last reaping pass and the
cleanup traversal, up to `pthread_cancel` is one step that can always be taken; what
the traversal does with an element that it has freed is left aside. -/
inductive FileMainPc where
  | acceptLoop
  | cancelTimer
  | joinTimer
  | exited
  deriving DecidableEq

structure FileProcess (ι : Type*) where
  threads : Threads (Option ι) FileThread StoreCall StoreVars FileStore
  main : FileMainPc
  timerEnded : Bool

/-- `main` takes a step, a thread does, or the timer thread acts on its cancellation. -/
inductive FileProcLabel (ι : Type*) where
  | main
  | thread (a : Atomic.Label (Option ι) Outside StoreEnv)
  | cancelled

namespace FileProcess

variable {ι : Type*} [DecidableEq ι]

def initial (file : List UInt8) (input : ι → List SockRead) (timestamp : List UInt8) : FileProcess ι :=
  ⟨fileServerInitial file input timestamp, .acceptLoop, false⟩

omit [DecidableEq ι] in
/-- The timer thread sleeps, or is in `write`. -/
def cancelable (s : FileProcess ι) : Bool :=
  match s.threads.phase none with
  | .outside (.timer _ ready) => !ready
  | .outside (.connection _) => false
  | .inside _ _ v => v.pc = .write

def mainStep (s : FileProcess ι) : FileProcess ι :=
  match s.main with
  | .acceptLoop => { s with main := .cancelTimer }
  | .cancelTimer => { s with main := .joinTimer }
  | .joinTimer => if s.timerEnded then { s with main := .exited } else s
  | .exited => s

/-- When `main` has returned the process is over. -/
def step (s : FileProcess ι) (a : FileProcLabel ι) : FileProcess ι :=
  if s.main = .exited then s
  else
    match a with
    | .main => s.mainStep
    | .thread a =>
      if s.timerEnded ∧ a.thread.isNone then s
      else { s with threads := fileServer.threadStep s.threads a }
    | .cancelled => if s.main = .joinTimer ∧ s.cancelable then { s with timerEnded := true } else s

/-- The step that the threads take. -/
def labels (s : FileProcess ι) : FileProcLabel ι → List (Atomic.Label (Option ι) Outside StoreEnv)
  | .thread a => if s.main = .exited ∨ s.timerEnded ∧ a.thread.isNone then [] else [a]
  | _ => []

/-- The calls of the filestore functions that have returned in a run. -/
def trace (file : List UInt8) (input : ι → List SockRead) (timestamp : List UInt8)
    (as : List (FileProcLabel ι)) : List (Option ι × StoreNote) :=
  fileTrace file input timestamp (outputs step labels (initial file input timestamp) as)

/-- The timer thread waits for the mutex with a record, after a `write` has failed. -/
def Stuck (s : FileProcess ι) (tr : List (Option ι × StoreNote)) : Prop :=
  s.timerEnded = false ∧ (∃ record, s.threads.phase none = .outside (.timer record true)) ∧
    ∃ t data, (t, .wrote data (-1)) ∈ tr

/-! ### The threads in the process -/

theorem step_exited {s : FileProcess ι} (h : s.main = .exited) (a : FileProcLabel ι) : s.step a = s :=
  if_pos h

omit [DecidableEq ι] in
theorem mainStep_threads (s : FileProcess ι) : s.mainStep.threads = s.threads := by
  rw [mainStep]
  split
  · rfl
  · rfl
  · split_ifs <;> rfl
  · rfl

theorem isPart_threads : IsPart (step (ι := ι)) fileServer.threadStep threads labels (fun _ _ => True)
    fun _ => True where
  keep _ _ _ _ := trivial
  part s a _ _ := by
    by_cases hexited : s.main = .exited
    · rw [step_exited hexited]
      cases a <;> simp [labels, hexited]
    · cases a with
      | main =>
        rw [step, if_neg hexited]
        exact s.mainStep_threads
      | thread a =>
        rw [step, if_neg hexited]
        by_cases hended : s.timerEnded ∧ a.thread.isNone
        · simp only [labels, if_pos hended, if_pos (Or.inr hended), run_nil]
        · simp only [labels, if_neg hended, if_neg (not_or.mpr ⟨hexited, hended⟩), run_cons, run_nil]
      | cancelled =>
        rw [step, if_neg hexited]
        simp only [labels, run_nil]
        split_ifs <;> rfl

theorem threads_run (file : List UInt8) (input : ι → List SockRead) (timestamp : List UInt8)
    (as : List (FileProcLabel ι)) :
    (run step (initial file input timestamp) as).threads =
      run fileServer.threadStep (fileServerInitial file input timestamp)
        (outputs step labels (initial file input timestamp) as) :=
  isPart_threads.run_eq trivial (along_true _ as)

/-- Steps of the threads, as long as all of them are there. -/
theorem run_thread {s : FileProcess ι} (hmain : s.main ≠ .exited) (hended : s.timerEnded = false)
    (as : List (Atomic.Label (Option ι) Outside StoreEnv)) :
    run step s (as.map .thread) = { s with threads := run fileServer.threadStep s.threads as } := by
  induction as generalizing s with
  | nil => rfl
  | cons a as ih =>
    have hstep : s.step (.thread a) = { s with threads := fileServer.threadStep s.threads a } := by
      rw [step, if_neg hmain]
      exact if_neg (by simp [hended])
    rw [List.map_cons, run_cons, hstep]
    exact ih (s := { s with threads := fileServer.threadStep s.threads a }) hmain hended

end FileProcess

/-! ### A section can end -/

section Sections

variable {v : StoreVars} {s : FileStore}

/-- Within `n` steps the section can return, and it gives the mutex back. -/
def CanReturn (v : StoreVars) (s : FileStore) (n : ℕ) : Prop :=
  ∃ r s', fileServer.Ends v s n (r, s') ∧ r.kept = false

theorem CanReturn.step {n : ℕ} {e : StoreEnv} {v' : StoreVars} {s' : FileStore} (h : CanReturn v' s' n)
    (hstep : storeStep v e s = (.inl v', s')) : CanReturn v s (n + 1) := by
  obtain ⟨r, s₁, hends, hkept⟩ := h
  exact ⟨r, s₁, hends.of_step hstep, hkept⟩

theorem CanReturn.mono {m n : ℕ} (h : CanReturn v s m) (hmn : m ≤ n) : CanReturn v s n := by
  obtain ⟨r, s', hends, hkept⟩ := h
  exact ⟨r, s', hends.mono hmn, hkept⟩

/-- Every call succeeds, but the client has gone. -/
def clientGone (k : ℕ) : StoreEnv := ⟨some k, some 1024, none⟩

theorem canReturn_unlock (hpc : v.pc = .writeUnlock ∨ v.pc = .readUnlock) : CanReturn v s 1 := by
  rcases hpc with hpc | hpc
  · have hstep : fileServer.step v (clientGone 0) s =
        (.inr ⟨0, [], false⟩, { s with fileMutex := false }) := by
      simp only [fileServer, storeStep, hpc]
    exact ⟨_, _, .of_return hstep 0, rfl⟩
  · have hstep : fileServer.step v (clientGone 0) s =
        (.inr ⟨v.ret, v.reply, false⟩, { s with fileMutex := false }) := by
      simp only [fileServer, storeStep, hpc]
    exact ⟨_, _, .of_return hstep 0, rfl⟩

/-- After a failed `send` the loop reads once more. -/
theorem canReturn_read_failed (hpc : v.pc = .read) (hret : v.ret = -1) : CanReturn v s 2 := by
  rcases hread : s.read (clientGone 0).read with ⟨m, copied, s'⟩
  exact (canReturn_unlock (.inr rfl)).step (storeStep_read_unlock hpc hread (by simp [hret]))

theorem canReturn_send (hpc : v.pc = .send) : CanReturn v s 3 :=
  (canReturn_read_failed rfl rfl).step (storeStep_send (e := clientGone 0) hpc)

theorem canReturn_read (hpc : v.pc = .read) : CanReturn v s 4 := by
  rcases hread : s.read (clientGone 0).read with ⟨m, copied, s'⟩
  by_cases hgo : 0 < (m % 2 ^ 64).toNat ∧ v.ret ≠ -1
  · exact (canReturn_send rfl).step (storeStep_read_send hpc hread hgo)
  · exact ((canReturn_unlock (.inr rfl)).step (storeStep_read_unlock hpc hread hgo)).mono (by omega)

theorem canReturn (v : StoreVars) (s : FileStore) : CanReturn v s 5 := by
  cases hpc : v.pc with
  | write =>
    have hstep := storeStep_write (s := s) (e := clientGone v.data.length) hpc rfl
    exact ((canReturn_unlock (.inl rfl)).step hstep).mono (by omega)
  | writeUnlock => exact (canReturn_unlock (.inl hpc)).mono (by omega)
  | lseek =>
    have hstep : storeStep v (clientGone 0) s = (.inl { v with pc := .read }, { s with fPos := 0 }) := by
      simp only [storeStep, hpc]
    exact (canReturn_read rfl).step hstep
  | read => exact (canReturn_read hpc).mono (by omega)
  | send => exact (canReturn_send hpc).mono (by omega)
  | readUnlock => exact (canReturn_unlock (.inr hpc)).mono (by omega)

end Sections

/-! ### Where the threads can be -/

section Phases

variable {ι : Type*} [DecidableEq ι]

/-- The timer thread is outside, or inside of `filestore_write`. -/
def TimerAt : Phase FileThread StoreCall StoreVars → Prop
  | .outside (.timer _ _) => True
  | .inside (.timer _ _) (.write _) v => v.pc = .write ∨ v.pc = .writeUnlock
  | _ => False

theorem TimerAt.inside {d : FileThread} {c : StoreCall} {v : StoreVars} (h : TimerAt (.inside d c v)) :
    ∃ record ready data, d = .timer record ready ∧ c = .write data ∧
      (v.pc = .write ∨ v.pc = .writeUnlock) := by
  cases d with
  | connection _ => exact h.elim
  | timer record ready =>
    cases c with
    | readToDest => exact h.elim
    | write data => exact ⟨record, ready, data, rfl, rfl, h⟩

/-- A record enters `filestore_write` when the mutex is free. -/
theorem enter_timer {s : Threads (Option ι) FileThread StoreCall StoreVars FileStore} {record : List UInt8}
    (hp : s.phase none = .outside (.timer record true)) (ho : s.owner = none) :
    fileServer.threadStep s (.enter none) =
      { s with shared := { s.shared with fileMutex := true }, owner := some none }.put none
        (.inside (.timer record true) (.write (cString record)) (StoreCall.write (cString record)).start) := by
  have hnext : fileServer.next (.timer record true) = some (.write (cString record)) := rfl
  simp only [Program.threadStep, hp, ho, hnext]
  rfl

theorem storeStep_timer {v v' : StoreVars} {e : StoreEnv} {s s' : FileStore}
    (hpc : v.pc = .write ∨ v.pc = .writeUnlock) (hstep : storeStep v e s = (.inl v', s')) :
    v'.pc = .writeUnlock := by
  rcases hpc with hpc | hpc
  · cases he : e.write with
    | none => simp [storeStep, hpc, he, FileStore.write] at hstep
    | some k =>
      rw [storeStep_write hpc he] at hstep
      rw [← Sum.inl.inj (Prod.mk.inj hstep).1]
  · simp [storeStep, hpc] at hstep

theorem TimerAt.step {s : Threads (Option ι) FileThread StoreCall StoreVars FileStore}
    (h : TimerAt (s.phase none)) (a : Atomic.Label (Option ι) Outside StoreEnv) :
    TimerAt ((fileServer.threadStep s a).phase none) := by
  by_cases hne : none ≠ a.thread
  · rwa [fileServer.threadStep_phase_of_ne s hne]
  have ht := not_not.mp hne
  cases hp : s.phase none with
  | outside d =>
    rw [hp] at h
    cases d with
    | connection c => exact h.elim
    | timer record ready =>
      cases a with
      | move t e =>
        obtain rfl : none = t := ht
        simp only [Program.threadStep, hp]
        split_ifs
        · simp [Threads.put, fileServer, FileThread.move, TimerAt]
        · simp [hp, TimerAt]
      | enter t =>
        obtain rfl : none = t := ht
        cases ho : s.owner with
        | some u => simp [Program.threadStep, hp, ho, TimerAt]
        | none =>
          cases ready with
          | false => simp [Program.threadStep, hp, ho, fileServer, FileThread.next, TimerAt]
          | true =>
            rw [enter_timer hp ho, Threads.put_phase_self]
            exact .inl rfl
      | inside t e =>
        obtain rfl : none = t := ht
        simp [Program.threadStep, hp, TimerAt]
  | inside d c v =>
    rw [hp] at h
    obtain ⟨record, ready, data, rfl, rfl, hpc⟩ := h.inside
    cases a with
    | move t e | enter t =>
      obtain rfl : none = t := ht
      simpa [Program.threadStep, hp] using h
    | inside t e =>
      obtain rfl : none = t := ht
      rcases hstep : fileServer.step v e s.shared with ⟨v' | r, s'⟩
      · simp only [Program.threadStep, hp, hstep, Threads.put_phase_self]
        exact .inr (storeStep_timer hpc hstep)
      · simp only [Program.threadStep, hp, hstep, Threads.put_phase_self]
        trivial

theorem timerAt_run (file : List UInt8) (input : ι → List SockRead) (timestamp : List UInt8)
    (as : List (Atomic.Label (Option ι) Outside StoreEnv)) :
    TimerAt ((run fileServer.threadStep (fileServerInitial file input timestamp) as).phase none) :=
  invariant_of_step (I := fun s : Threads (Option ι) FileThread StoreCall StoreVars FileStore =>
    TimerAt (s.phase none)) (fun _ a h => h.step a) (show TimerAt (.outside (.timer timestamp false)) from
      trivial) as

omit [DecidableEq ι] in
/-- The mutex stays locked after a failed write only. -/
theorem FileLegal.locked {file : List UInt8} {tr : List (Option ι × StoreNote)} {s : FileStore}
    (h : FileLegal file tr s) (hlocked : s.fileMutex = true) : ∃ t data, (t, .wrote data (-1)) ∈ tr := by
  cases h with
  | nil => cases hlocked
  | @wrote tr _ _ h t data accepted ret hw =>
    obtain ⟨-, ⟨rfl, -⟩ | ⟨k, -, -, hfree⟩⟩ := FileStore.filestoreWrite_eq_some hw
    · exact ⟨t, data, by simp⟩
    · rw [hfree] at hlocked
      cases hlocked
  | @replied tr _ h t rounds d ret hd hret =>
    rw [FileStore.filestoreReadToDest] at hd
    split_ifs at hd
    obtain rfl := Option.some.inj hd
    dsimp only at hret hlocked
    rw [if_neg (by rw [hret]; exact Option.some_ne_none _)] at hlocked
    cases hlocked

/-- The mutex is free, or somebody is inside, or it is lost. -/
theorem owner_cases (file : List UInt8) (input : ι → List SockRead) (timestamp : List UInt8)
    (as : List (Atomic.Label (Option ι) Outside StoreEnv)) :
    let s := run fileServer.threadStep (fileServerInitial file input timestamp) as
    s.owner = none ∨ (∃ t d c v, s.phase t = .inside d c v) ∨
      ∃ t data, (t, .wrote data (-1)) ∈ fileTrace file input timestamp as := by
  intro s
  obtain ⟨s', hfollows, hlegal, hheld⟩ := exists_fileLegal file input timestamp as
  by_cases hin : ∃ t d c v, s.phase t = .inside d c v
  · exact .inr (.inl hin)
  push Not at hin
  obtain ⟨-, howner⟩ := hfollows.quiet hin
  cases ho : s.owner with
  | none => exact .inl rfl
  | some t =>
    rw [show (run fileServer.threadStep (fileServerInitial file input timestamp) as).owner = _ from ho,
      hheld] at howner
    exact .inr (.inr (hlegal.locked howner))

end Phases

namespace FileProcess

variable {ι : Type*} [DecidableEq ι] {s : FileProcess ι} {n : ℕ}

/-! ### The way to the end -/

/-- In some way the process can end within `n` steps. -/
def CanExit (s : FileProcess ι) (n : ℕ) : Prop :=
  ∃ as : List (FileProcLabel ι), as.length ≤ n ∧ (run step s as).main = .exited

theorem CanExit.step {a : FileProcLabel ι} (h : CanExit (s.step a) n) : CanExit s (n + 1) := by
  obtain ⟨as, hlen, hexit⟩ := h
  exact ⟨a :: as, by simpa using hlen, hexit⟩

theorem CanExit.mono {m : ℕ} (h : CanExit s m) (hmn : m ≤ n) : CanExit s n := by
  obtain ⟨as, hlen, hexit⟩ := h
  exact ⟨as, hlen.trans hmn, hexit⟩

theorem CanExit.thread (as : List (Atomic.Label (Option ι) Outside StoreEnv))
    (hmain : s.main ≠ .exited) (hended : s.timerEnded = false)
    (h : CanExit { s with threads := run fileServer.threadStep s.threads as } n) :
    CanExit s (n + as.length) := by
  obtain ⟨bs, hlen, hexit⟩ := h
  refine ⟨as.map .thread ++ bs, by simp; omega, ?_⟩
  rwa [run_append, run_thread hmain hended]

theorem canExit_of_join (hmain : s.main = .joinTimer) (h : s.timerEnded = true ∨ s.cancelable = true) :
    CanExit s 2 := by
  have hended : ∀ s : FileProcess ι, s.main = .joinTimer → s.timerEnded = true → CanExit s 1 :=
    fun s hmain h => ⟨[.main], le_rfl, by simp [run, step, mainStep, hmain, h]⟩
  rcases h with h | h
  · exact (hended s hmain h).mono (by omega)
  · refine (hended _ ?_ ?_).step (a := .cancelled)
    · simp [step, hmain, h]
    · simp [step, hmain, h]

theorem canExit_of_cancelable (h : s.timerEnded = true ∨ s.cancelable = true) : CanExit s 4 := by
  cases hmain : s.main with
  | exited => exact ⟨[], by simp, hmain⟩
  | joinTimer => exact (canExit_of_join hmain h).mono (by omega)
  | cancelTimer =>
    have hstep : s.step .main = { s with main := .joinTimer } := by simp [step, mainStep, hmain]
    have hjoin : CanExit (s.step .main) 2 := by
      rw [hstep]
      exact canExit_of_join rfl h
    exact hjoin.step.mono (by omega)
  | acceptLoop =>
    have hstep : (s.step .main).step .main = { s with main := .joinTimer } := by
      simp [step, mainStep, hmain]
    have hjoin : CanExit ((s.step .main).step .main) 2 := by
      rw [hstep]
      exact canExit_of_join rfl h
    exact hjoin.step.step

/-- Inside of `filestore_write` the timer thread is in `write`, or gives the mutex back
first. -/
theorem canExit_of_storing (hmain : s.main ≠ .exited) (hended : s.timerEnded = false) {d : FileThread}
    {c : StoreCall} {v : StoreVars} (hphase : s.threads.phase none = .inside d c v)
    (htimer : TimerAt (.inside d c v)) : CanExit s 5 := by
  obtain ⟨record, ready, data, rfl, rfl, hpc | hpc⟩ := htimer.inside
  · exact (canExit_of_cancelable (.inr (by simp [cancelable, hphase, hpc]))).mono (by omega)
  · have hstep : fileServer.step v (clientGone 0) s.threads.shared =
        (.inr ⟨0, [], false⟩, { s.threads.shared with fileMutex := false }) := by
      simp only [fileServer, storeStep, hpc]
    obtain ⟨hrun, -⟩ := fileServer.run_inside hphase (Program.exec_singleton hstep)
    refine CanExit.thread [.inside none (clientGone 0)] hmain hended
      (canExit_of_cancelable (.inr ?_))
    rw [cancelable, show [Label.inside none (clientGone 0)] = [clientGone 0].map (.inside none ·) from rfl,
      hrun, Threads.put_phase_self]
    rfl

/-- A record is stored as far as `write`. -/
theorem canExit_of_free (hmain : s.main ≠ .exited) (hended : s.timerEnded = false) {record : List UInt8}
    (hphase : s.threads.phase none = .outside (.timer record true)) (ho : s.threads.owner = none) :
    CanExit s 5 := by
  refine CanExit.thread [.enter none] hmain hended (canExit_of_cancelable (.inr ?_))
  rw [cancelable, run_cons, run_nil, enter_timer hphase ho, Threads.put_phase_self]
  rfl

/-- The connection that holds the mutex leaves first. -/
theorem canExit_of_inside (hmain : s.main ≠ .exited) (hended : s.timerEnded = false) {record : List UInt8}
    (hphase : s.threads.phase none = .outside (.timer record true)) {t : Option ι} {d : FileThread}
    {c : StoreCall} {v : StoreVars} (ht : s.threads.phase t = .inside d c v) : CanExit s 10 := by
  obtain ⟨r, shared, ⟨es, hlen, hexec⟩, hkept⟩ := canReturn v s.threads.shared
  obtain ⟨hrun, -⟩ := fileServer.run_inside ht hexec
  have hne : none ≠ t := by
    rintro rfl
    rw [hphase] at ht
    cases ht
  set threads := run fileServer.threadStep s.threads (es.map (.inside t ·))
  have hwaits : threads.phase none = .outside (.timer record true) := by
    rw [hrun, Threads.put_phase_of_ne _ hne, hphase]
  have hfree : threads.owner = none := by
    rw [hrun]
    exact if_neg (by simp [fileServer, hkept])
  have hexit : CanExit { s with threads := threads } 5 := canExit_of_free hmain hended hwaits hfree
  exact (hexit.thread _ hmain hended).mono (by rw [List.length_map]; omega)

/-! ### The process that never ends -/

/-- The mutex is owned outside of the filestore functions, and the timer thread waits
for it. -/
structure Lost (s : FileProcess ι) : Prop where
  running : s.main ≠ .exited
  alive : s.timerEnded = false
  waits : ∃ record, s.threads.phase none = .outside (.timer record true)
  kept : s.threads.owner ≠ none
  nobody : ∀ t d c v, s.threads.phase t ≠ .inside d c v

theorem Lost.step (h : s.Lost) (a : FileProcLabel ι) : (s.step a).Lost := by
  obtain ⟨record, hwaits⟩ := h.waits
  cases a with
  | main =>
    rw [FileProcess.step, if_neg h.running]
    cases hmain : s.main with
    | acceptLoop | cancelTimer =>
      simp only [mainStep, hmain]
      exact { h with running := by simp }
    | joinTimer =>
      have hstep : s.mainStep = s := by simp [mainStep, hmain, h.alive]
      rw [hstep]
      exact h
    | exited => exact absurd hmain h.running
  | thread a =>
    have hstep : s.step (.thread a) = { s with threads := fileServer.threadStep s.threads a } := by
      rw [FileProcess.step, if_neg h.running]
      exact if_neg (by simp [h.alive])
    rw [hstep]
    rcases fileServer.threadStep_of_lost h.kept h.nobody a with heq | ⟨t, d, d', ht, hnext, heq⟩
    · rw [heq]
      exact h
    · rw [heq]
      have hne : none ≠ t := by
        rintro rfl
        obtain rfl := Phase.outside.inj (ht.symm.trans hwaits)
        cases hnext
      refine ⟨h.running, h.alive, ⟨record, ?_⟩, h.kept, fun u d₁ c v hu => ?_⟩
      · rw [Threads.put_phase_of_ne _ hne, hwaits]
      · by_cases hut : u = t
        · rw [hut, Threads.put_phase_self] at hu
          cases hu
        · rw [Threads.put_phase_of_ne _ hut] at hu
          exact h.nobody u d₁ c v hu
  | cancelled =>
    rw [FileProcess.step, if_neg h.running, if_neg (by simp [cancelable, hwaits])]
    exact h

theorem ended_of_exited (s : FileProcess ι) (a : FileProcLabel ι)
    (h : s.main = .exited → s.timerEnded = true) (hexit : (s.step a).main = .exited) :
    (s.step a).timerEnded = true := by
  by_cases hmain : s.main = .exited
  · rw [step_exited hmain]
    exact h hmain
  · cases a with
    | main =>
      rw [FileProcess.step, if_neg hmain] at hexit ⊢
      cases hm : s.main with
      | acceptLoop | cancelTimer => simp [mainStep, hm] at hexit
      | joinTimer =>
        simp only [mainStep, hm] at hexit ⊢
        split_ifs at hexit ⊢ with hended
        · exact hended
        · exact absurd hexit hmain
      | exited => exact absurd hm hmain
    | thread a =>
      rw [FileProcess.step, if_neg hmain] at hexit
      exact absurd hexit (by split_ifs <;> exact hmain)
    | cancelled =>
      rw [FileProcess.step, if_neg hmain] at hexit
      exact absurd hexit (by split_ifs <;> exact hmain)

end FileProcess

open FileProcess

variable {ι : Type*} [DecidableEq ι]

/-- For any number of connections, any interleaving and any outcomes, at any moment: the
program can still end, within ten steps of its threads, one of which is the way of
`main` out of its accept loop, unless the timer thread waits with a record and a
`filestore_write` has failed before. Then it never ends,
whatever happens: `main` waits for the timer thread, and the timer thread for the
mutex. -/
theorem file_server_can_exit_iff (file : List UInt8) (input : ι → List SockRead) (timestamp : List UInt8)
    (as : List (FileProcLabel ι)) :
    let s := run FileProcess.step (.initial file input timestamp) as
    (¬ s.Stuck (FileProcess.trace file input timestamp as) → s.CanExit 10) ∧
      (s.Stuck (FileProcess.trace file input timestamp as) → ∀ n, ¬ s.CanExit n) := by
  intro s
  have hthreads := threads_run file input timestamp as
  have hended : s.main = .exited → s.timerEnded = true :=
    invariant_of_step (I := fun s : FileProcess ι => s.main = .exited → s.timerEnded = true)
      (fun s a h => ended_of_exited s a h) (fun hexit => by cases hexit) as
  constructor
  · intro hstuck
    by_cases hmain : s.main = .exited
    · exact ⟨[], by simp, hmain⟩
    cases he : s.timerEnded with
    | true => exact (canExit_of_cancelable (.inl he)).mono (by omega)
    | false =>
      have htimer : TimerAt (s.threads.phase none) := by
        rw [hthreads]
        exact timerAt_run file input timestamp _
      cases hphase : s.threads.phase none with
      | outside d =>
        rw [hphase] at htimer
        cases d with
        | connection c => exact htimer.elim
        | timer record ready =>
          cases ready with
          | false => exact (canExit_of_cancelable (.inr (by simp [cancelable, hphase]))).mono (by omega)
          | true =>
            rcases owner_cases file input timestamp
                (outputs FileProcess.step labels (.initial file input timestamp) as) with
              ho | ⟨t, d, c, v, ht⟩ | hfailed
            · exact (canExit_of_free hmain he hphase (hthreads ▸ ho)).mono (by omega)
            · exact canExit_of_inside hmain he hphase (hthreads ▸ ht)
            · exact absurd ⟨he, ⟨record, hphase⟩, hfailed⟩ hstuck
      | inside d c v =>
        exact (canExit_of_storing hmain he hphase (hphase ▸ htimer)).mono (by omega)
  · rintro ⟨he, hwaits, t, data, hfailed⟩ n ⟨bs, -, hexit⟩
    obtain ⟨pre, post, htr⟩ := List.append_of_mem hfailed
    obtain ⟨s', hfollows, hlegal, hheld⟩ := exists_fileLegal file input timestamp
      (outputs FileProcess.step labels (.initial file input timestamp) as)
    obtain ⟨hnobody, hkept⟩ := hfollows.lost (hheld.trans (hlegal.failed htr).2)
    have hlost : s.Lost := by
      refine ⟨fun hmain => ?_, he, hwaits, ?_, ?_⟩
      · rw [hended hmain] at he
        cases he
      · rwa [hthreads]
      · rwa [hthreads]
    exact (invariant_of_step (I := Lost) (fun _ a h => h.step a) hlost bs).running hexit

/-- The timer thread has a record when the write of the only connection fails. -/
def fullDisk : List (FileProcLabel Unit) :=
  [.thread (.move none ⟨false, epoch, []⟩), .thread (.move (some ()) ⟨false, epoch, []⟩),
    .thread (.enter (some ())), .thread (.inside (some ()) ⟨none, none, none⟩)]

theorem file_server_can_exit_iff_full_disk :
    ∀ n, ¬ (run FileProcess.step (.initial [] (fun _ => [.byte newline]) []) fullDisk).CanExit n :=
  (file_server_can_exit_iff [] (fun _ => [.byte newline]) [] fullDisk).2
    ⟨by decide +kernel, ⟨_, rfl⟩, some (), [newline], by decide +kernel⟩

end Aesd.Server
