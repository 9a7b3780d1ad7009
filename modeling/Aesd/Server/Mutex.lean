import Aesd.Server.Calls

/-! Who owns `file_mutex` and which thread has the device open. Both follow from
where a thread is, with one exception: when `write` fails, `filestore_write`
returns with the mutex and the descriptor, and the thread then waits for itself
in `filestore_read_to_dest`. -/

namespace Aesd.Server

open Run Driver

/-- Between `pthread_mutex_lock` and `pthread_mutex_unlock`. -/
def Pc.critical : Pc → Bool
  | .writeOpen | .write | .writeUnlock | .readOpen | .read | .send | .readUnlock => true
  | _ => false

/-- Between `open` and `close`. -/
def Pc.opened : Pc → Bool
  | .write | .writeUnlock | .writeClose | .read | .send | .readUnlock | .readClose => true
  | _ => false

/-- In `filestore_write` or `filestore_read_to_dest`. -/
def Pc.inside : Pc → Bool
  | .readLine | .writeReturned | .readReturned | .closeConnection | .complete => false
  | _ => true

/-- From the loop test on until the result of `filestore_write` is tested. -/
def Pc.writing : Pc → Bool
  | .writeLock | .writeOpen | .write | .writeUnlock | .writeClose | .writeReturned => true
  | _ => false

/-- `filestore_write` has failed and `filestore_read_to_dest` has not got the mutex. -/
def Thread.Leaking (th : Thread) : Prop :=
  (th.pc = .writeReturned ∧ th.ret = -1) ∨ (th.pc = .readLock ∧ th.operationFailed = true)

variable {ι : Type*}

/-- In every state, whatever fails, the program counter tells who owns what. -/
structure System.Owned (s : System ι) : Prop where
  mutex : ∀ t, s.fileMutex = some t ↔ (s.threads t).pc.critical ∨ (s.threads t).Leaking
  files : ∀ t n, s.HoldsFd t n ↔
    (s.threads t).fd = some n ∧ ((s.threads t).pc.opened ∨ (s.threads t).Leaking)
  going : ∀ t, (s.threads t).pc.writing → (s.threads t).operationFailed = false

theorem System.initial_owned (input : ι → List SockRead) : (System.initial input).Owned where
  mutex t := by simp [System.initial, Thread.initial, Pc.critical, Thread.Leaking]
  files t n := by simp [System.initial, Thread.initial, System.HoldsFd]
  going t := by simp [Thread.initial, System.initial]

variable [DecidableEq ι]

/-! ### Frames -/

/-- A step of thread `t` that touches nothing of other threads. -/
theorem System.Owned.frame {s s' : System ι} (h : s.Owned) {t : ι} {th : Thread}
    (hthreads : s'.threads = Function.update s.threads t th)
    (hmutex : ∀ u, u ≠ t → (s'.fileMutex = some u ↔ s.fileMutex = some u))
    (hmutex' : s'.fileMutex = some t ↔ th.pc.critical ∨ th.Leaking)
    (hfiles : ∀ u, u ≠ t → ∀ n, s'.HoldsFd u n ↔ s.HoldsFd u n)
    (hfiles' : ∀ n, s'.HoldsFd t n ↔ th.fd = some n ∧ (th.pc.opened ∨ th.Leaking))
    (hgoing : th.pc.writing → th.operationFailed = false) : s'.Owned := by
  constructor
  · intro u
    by_cases hu : u = t
    · subst hu
      rw [hthreads, Function.update_self, hmutex']
    · rw [hthreads, Function.update_of_ne hu, hmutex u hu, h.mutex]
  · intro u n
    by_cases hu : u = t
    · subst hu
      rw [hthreads, Function.update_self, hfiles']
    · rw [hthreads, Function.update_of_ne hu, hfiles u hu, h.files]
  · intro u
    by_cases hu : u = t
    · subst hu
      rwa [hthreads, Function.update_self]
    · rw [hthreads, Function.update_of_ne hu]
      exact h.going u

/-- A step that neither locks, unlocks, opens nor closes. -/
theorem System.Owned.put {s s' : System ι} (h : s.Owned) {t : ι} {th : Thread}
    (hs : s.SameOwners s') (hcrit : th.pc.critical ∨ th.Leaking ↔
      (s.threads t).pc.critical ∨ (s.threads t).Leaking)
    (hopen : th.pc.opened ∨ th.Leaking ↔ (s.threads t).pc.opened ∨ (s.threads t).Leaking)
    (hfd : th.fd = (s.threads t).fd) (hgoing : th.pc.writing → th.operationFailed = false) :
    (s'.put t th).Owned := by
  refine h.frame (by rw [System.put_threads, hs.threads]) (fun u _ => ?_) ?_
    (fun u _ n => hs.holdsFd u n) (fun n => ?_) hgoing
  · rw [System.put_fileMutex, hs.fileMutex]
  · rw [System.put_fileMutex, hs.fileMutex, h.mutex, hcrit]
  · rw [System.put_holdsFd, hs.holdsFd, h.files, hopen, hfd]

/-! ### Steps -/

theorem System.Owned.lock {s : System ι} (h : s.Owned) {t : ι} {next : Pc}
    (hpc : (s.threads t).pc = .writeLock ∧ next = .writeOpen ∨
      (s.threads t).pc = .readLock ∧ next = .readOpen) : (s.lock t next).Owned := by
  unfold System.lock
  split
  · rename_i hnone
    have hfree : ¬ ((s.threads t).pc.critical ∨ (s.threads t).Leaking) := by
      rw [← h.mutex, hnone]
      simp
    have hclosed : ∀ n, ¬ s.HoldsFd t n := fun n hn => by
      have := ((h.files t n).mp hn).2
      rcases hpc with ⟨hpc, -⟩ | ⟨hpc, -⟩ <;> simp_all [Pc.opened]
    refine h.frame rfl (fun u hu => ?_) ?_ (fun u _ n => Iff.rfl) (fun n => ?_) ?_
    · simp [hnone, Ne.symm hu]
    · rcases hpc with ⟨-, rfl⟩ | ⟨-, rfl⟩ <;> simp [Pc.critical]
    · refine iff_of_false (hclosed n) ?_
      rcases hpc with ⟨-, rfl⟩ | ⟨-, rfl⟩ <;> simp [Pc.opened, Thread.Leaking]
    · have hgoing := h.going t
      rcases hpc with ⟨hpc, rfl⟩ | ⟨-, rfl⟩
      · simpa [hpc, Pc.writing] using hgoing
      · simp [Pc.writing]
  · exact h

theorem System.Owned.unlock {s : System ι} (h : s.Owned) {t : ι} {next : Pc}
    (hpc : (s.threads t).pc = .writeUnlock ∧ next = .writeClose ∨
      (s.threads t).pc = .readUnlock ∧ next = .readClose) : (s.unlock t next).Owned := by
  have hown : s.fileMutex = some t := by
    rw [h.mutex]
    rcases hpc with ⟨hpc, -⟩ | ⟨hpc, -⟩ <;> simp [hpc, Pc.critical]
  refine h.frame rfl (fun u hu => ?_) ?_ (fun u _ n => Iff.rfl) (fun n => ?_) ?_
  · simp [hown, Ne.symm hu]
  · rcases hpc with ⟨-, rfl⟩ | ⟨-, rfl⟩ <;> simp [Pc.critical, Thread.Leaking]
  · have hfiles := h.files t n
    rcases hpc with ⟨hpc, rfl⟩ | ⟨hpc, rfl⟩ <;> simpa [hpc, Pc.opened] using hfiles
  · have hgoing := h.going t
    rcases hpc with ⟨hpc, rfl⟩ | ⟨-, rfl⟩
    · simpa [hpc, Pc.writing] using hgoing
    · simp [Pc.writing]

theorem System.Owned.openDevice {s : System ι} (h : s.Owned) {t : ι} {th : Thread}
    (offer : Option ℕ) (hfd : th.fd = (s.openDevice t offer).1)
    (hfailed : th.operationFailed = (s.threads t).operationFailed)
    (hpc : (s.threads t).pc = .writeOpen ∧ th.pc = .write ∨
      (s.threads t).pc = .readOpen ∧ th.pc = .read) :
    ((s.openDevice t offer).2.put t th).Owned := by
  have hcrit : s.fileMutex = some t ∧ th.pc.critical ∧ th.pc.opened := by
    rw [h.mutex]
    rcases hpc with ⟨hpc, hth⟩ | ⟨hpc, hth⟩ <;> simp [hpc, hth, Pc.critical, Pc.opened]
  have hclosed : ∀ n, ¬ s.HoldsFd t n := fun n hn => by
    have := ((h.files t n).mp hn).2
    rcases hpc with ⟨hpc, -⟩ | ⟨hpc, -⟩ <;> simp [hpc, Pc.opened, Thread.Leaking] at this
  have hgoing : th.pc.writing → th.operationFailed = false := by
    have := h.going t
    rcases hpc with ⟨hpc, hth⟩ | ⟨hpc, hth⟩ <;> simp_all [Pc.writing]
  rcases s.openDevice_cases t offer with hno | ⟨n, hn, hyes⟩
  · rw [hno] at hfd ⊢
    refine h.frame rfl (fun u _ => Iff.rfl) (iff_of_true hcrit.1 (.inl hcrit.2.1))
      (fun u _ m => Iff.rfl) (fun m => iff_of_false (hclosed m) ?_) hgoing
    simp [hfd]
  · rw [hyes] at hfd ⊢
    refine h.frame rfl (fun u _ => Iff.rfl) (iff_of_true hcrit.1 (.inl hcrit.2.1))
      (fun u hu m => ?_) (fun m => ?_) hgoing
    · by_cases hm : m = n
      · subst hm
        simp [System.HoldsFd, hn, Ne.symm hu]
      · simp [System.HoldsFd, Function.update_of_ne hm]
    · by_cases hm : m = n
      · subst hm
        simp [System.HoldsFd, hfd, hcrit.2.2]
      · have := hclosed m
        simp_all [System.HoldsFd, Ne.symm hm]

theorem System.Owned.close {s : System ι} (h : s.Owned) {t : ι} {th : Thread}
    (hpc : (s.threads t).pc = .writeClose ∧ th.pc = .writeReturned ∧ th.ret = 0 ∧
        th.operationFailed = (s.threads t).operationFailed ∨
      (s.threads t).pc = .readClose ∧ th.pc = .readReturned) :
    ((s.close (s.threads t).fd).put t th).Owned := by
  have hout : ¬ (th.pc.critical ∨ th.Leaking) ∧ ¬ (th.pc.opened ∨ th.Leaking) := by
    rcases hpc with ⟨-, hth, hret, -⟩ | ⟨-, hth⟩ <;>
      simp_all [Pc.critical, Pc.opened, Thread.Leaking]
  have hfree : s.fileMutex ≠ some t := by
    rw [Ne, h.mutex]
    rcases hpc with ⟨hpc, -⟩ | ⟨hpc, -⟩ <;> simp [hpc, Pc.critical, Thread.Leaking]
  have hholds : ∀ n, s.HoldsFd t n ↔ (s.threads t).fd = some n := fun n => by
    rw [h.files]
    rcases hpc with ⟨hpc, -⟩ | ⟨hpc, -⟩ <;> simp [hpc, Pc.opened]
  have hgoing : th.pc.writing → th.operationFailed = false := by
    have := h.going t
    rcases hpc with ⟨hpc, hth, -, hf⟩ | ⟨hpc, hth⟩ <;> simp_all [Pc.writing]
  cases hfd : (s.threads t).fd with
  | none =>
    exact h.frame rfl (fun u _ => Iff.rfl) (iff_of_false hfree hout.1) (fun u _ m => Iff.rfl)
      (fun m => iff_of_false (by simp [System.close, hholds, hfd]) (by tauto)) hgoing
  | some n =>
    obtain ⟨p, hp⟩ := (hholds n).mpr hfd
    refine h.frame rfl (fun u _ => Iff.rfl) (iff_of_false hfree hout.1) (fun u hu m => ?_)
      (fun m => iff_of_false ?_ (by tauto)) hgoing
    · by_cases hm : m = n
      · subst hm
        simp [System.close, System.HoldsFd, hp, Ne.symm hu]
      · simp [System.close, System.HoldsFd, Function.update_of_ne hm]
    · by_cases hm : m = n
      · subst hm
        simp [System.close, System.HoldsFd]
      · have := hholds m
        simp_all [System.close, System.HoldsFd, Ne.symm hm]

/-- Whatever the outcomes, every step keeps the bookkeeping. -/
theorem System.Owned.step {s : System ι} (h : s.Owned) (a : Label ι) : (s.step a).Owned := by
  cases a with
  | signal => exact ⟨h.mutex, h.files, h.going⟩
  | thread t env =>
    have hgoing := h.going t
    rw [System.step]
    cases hpc : (s.threads t).pc with
    | readLine =>
      simp only [System.threadStep, hpc]
      split_ifs with hgo
      · exact h.put (.rfl' s) (by simp [hpc, Pc.critical, Thread.Leaking])
          (by simp [hpc, Pc.opened, Thread.Leaking]) rfl fun _ => hgo.2.2
      · exact h.put (.rfl' s) (by simp [hpc, Pc.critical, Thread.Leaking])
          (by simp [hpc, Pc.opened, Thread.Leaking]) rfl (by simp [Pc.writing])
    | writeReturned =>
      -- the result of `filestore_write` moves into `operation_failed`
      have hfailed : (s.threads t).operationFailed = false := hgoing (by simp [hpc, Pc.writing])
      simp only [System.threadStep, hpc]
      exact h.put (.rfl' s)
        (by simp [hpc, hfailed, Pc.critical, Thread.Leaking])
        (by simp [hpc, hfailed, Pc.opened, Thread.Leaking]) rfl (by simp [Pc.writing])
    | readReturned | closeConnection =>
      simp only [System.threadStep, hpc]
      exact h.put (.rfl' s) (by simp [hpc, Pc.critical, Thread.Leaking])
        (by simp [hpc, Pc.opened, Thread.Leaking]) rfl (by simp [Pc.writing])
    | complete =>
      simp only [System.threadStep, hpc]
      exact h
    | writeLock =>
      simp only [System.threadStep, hpc]
      exact h.lock (.inl ⟨hpc, rfl⟩)
    | writeOpen =>
      simp only [System.threadStep, hpc]
      exact h.openDevice env.openFd rfl rfl (.inl ⟨hpc, rfl⟩)
    | write =>
      have hw := s.write_sameOwners env.write (s.threads t).fd (s.threads t).data
      simp only [System.threadStep, hpc]
      split_ifs
      · exact h.put hw
          (by simp [hpc, Pc.critical, Thread.Leaking]) (by simp [hpc, Pc.opened, Thread.Leaking]) rfl
          fun _ => hgoing (by simp [hpc, Pc.writing])
      · exact h.put hw
          (by simp [hpc, Pc.critical]) (by simp [hpc, Pc.opened]) rfl
          fun _ => hgoing (by simp [hpc, Pc.writing])
    | writeUnlock =>
      simp only [System.threadStep, hpc]
      exact h.unlock (.inl ⟨hpc, rfl⟩)
    | writeClose =>
      simp only [System.threadStep, hpc]
      exact h.close (.inl ⟨hpc, rfl, rfl, rfl⟩)
    | readLock =>
      simp only [System.threadStep, hpc]
      exact h.lock (.inr ⟨hpc, rfl⟩)
    | readOpen =>
      simp only [System.threadStep, hpc]
      exact h.openDevice env.openFd rfl rfl (.inr ⟨hpc, rfl⟩)
    | read =>
      have hr := s.read_sameOwners env.read (s.threads t).fd 1024
      simp only [System.threadStep, hpc]
      split_ifs <;>
        exact h.put hr
          (by simp [hpc, Pc.critical]) (by simp [hpc, Pc.opened]) rfl (by simp [Pc.writing])
    | send =>
      simp only [System.threadStep, hpc]
      split <;>
        exact h.put (.rfl' s) (by simp [hpc, Pc.critical])
          (by simp [hpc, Pc.opened]) rfl (by simp [Pc.writing])
    | readUnlock =>
      simp only [System.threadStep, hpc]
      exact h.unlock (.inr ⟨hpc, rfl⟩)
    | readClose =>
      simp only [System.threadStep, hpc]
      exact h.close (.inr ⟨hpc, rfl⟩)

/-! ### Giving back -/

/-- A thread outside the filestore functions does not own the mutex and has no
descriptor of the device open. -/
def System.GivenBack (s : System ι) : Prop :=
  ∀ t, (s.threads t).pc.inside = false → s.fileMutex ≠ some t ∧ ∀ n, ¬ s.HoldsFd t n

/-- A thread about to lock the mutex finds it owned neither by itself nor by a
thread that has ended. -/
def System.LockSafe (s : System ι) : Prop :=
  ∀ t, (s.threads t).pc = .writeLock ∨ (s.threads t).pc = .readLock →
    s.fileMutex ≠ some t ∧ ∀ u, s.fileMutex = some u → (s.threads u).pc ≠ .complete

/-- The call of `write` in `filestore_write`, if the step makes it, succeeds. -/
def System.WriteSucceeds (s : System ι) : Label ι → Prop
  | .thread t env => (s.threads t).pc = .write →
      (s.write env.write (s.threads t).fd (s.threads t).data).1 ≠ -1
  | .signal => True

omit [DecidableEq ι] in
theorem System.Owned.givenBack_iff {s : System ι} (h : s.Owned) :
    s.GivenBack ∧ s.LockSafe ↔ ∀ t, ¬ (s.threads t).Leaking := by
  constructor
  · rintro ⟨hback, hsafe⟩ t hleak
    have hown := (h.mutex t).mpr (.inr hleak)
    rcases hleak with ⟨hpc, -⟩ | ⟨hpc, -⟩
    · exact (hback t (by simp [hpc, Pc.inside])).1 hown
    · exact (hsafe t (.inr hpc)).1 hown
  · intro hleak
    have hmutex : ∀ t, s.fileMutex = some t → (s.threads t).pc.critical := fun t ht =>
      ((h.mutex t).mp ht).resolve_right (hleak t)
    have hfiles : ∀ t n, s.HoldsFd t n → (s.threads t).pc.opened := fun t n hn =>
      ((h.files t n).mp hn).2.resolve_right (hleak t)
    refine ⟨fun t hin => ⟨fun ht => ?_, fun n hn => ?_⟩, fun t hpc => ⟨fun ht => ?_, fun u hu => ?_⟩⟩
    · have := hmutex t ht
      cases hpc : (s.threads t).pc <;> simp_all [Pc.inside, Pc.critical]
    · have := hfiles t n hn
      cases hpc : (s.threads t).pc <;> simp_all [Pc.inside, Pc.opened]
    · have := hmutex t ht
      rcases hpc with hpc | hpc <;> simp [hpc, Pc.critical] at this
    · intro hu'
      have := hmutex u hu
      simp [hu', Pc.critical] at this

/-- A step of `t` changes no other thread, and only a failing `write` in
`filestore_write` makes it leak. -/
theorem System.Owned.threadStep_leaking {s : System ι} (hs : s.Owned) (t : ι) (env : Env)
    (h : ¬ (s.threads t).Leaking) :
    ∃ th, (s.threadStep t env).threads = Function.update s.threads t th ∧
      (th.Leaking ↔ (s.threads t).pc = .write ∧
        (s.write env.write (s.threads t).fd (s.threads t).data).1 = -1) := by
  have hlock : ∀ next, (s.threads t).pc ≠ .write → next ≠ .writeReturned → next ≠ .readLock →
      ∃ th, (s.lock t next).threads = Function.update s.threads t th ∧
        (th.Leaking ↔ (s.threads t).pc = .write ∧
          (s.write env.write (s.threads t).fd (s.threads t).data).1 = -1) := by
    intro next hw h1 h2
    unfold System.lock
    split
    · exact ⟨_, rfl, by simp [Thread.Leaking, hw, h1, h2]⟩
    · exact ⟨s.threads t, (Function.update_eq_self _ _).symm, by simp [h, hw]⟩
  cases hpc : (s.threads t).pc with
  | writeLock | readLock =>
    simpa only [System.threadStep, hpc] using hlock _ (by simp [hpc]) (by simp) (by simp)
  | complete =>
    refine ⟨s.threads t, ?_, by simp [h]⟩
    simp only [System.threadStep, hpc, Function.update_eq_self]
  | write =>
    have hthreads := (s.write_sameOwners env.write (s.threads t).fd (s.threads t).data).threads
    simp only [System.threadStep, hpc]
    split_ifs with hfail
    · exact ⟨_, by rw [System.put_threads, hthreads], by simp [Thread.Leaking, hfail]⟩
    · exact ⟨_, by rw [System.put_threads, hthreads], by simp [Thread.Leaking, hfail]⟩
  | read =>
    have hthreads := (s.read_sameOwners env.read (s.threads t).fd 1024).threads
    simp only [System.threadStep, hpc]
    split_ifs <;> exact ⟨_, by rw [System.put_threads, hthreads], by simp [Thread.Leaking]⟩
  | writeReturned =>
    have hfailed : (s.threads t).operationFailed = false := hs.going t (by simp [hpc, Pc.writing])
    have hret : (s.threads t).ret ≠ -1 := fun hret => h (.inl ⟨hpc, hret⟩)
    simp only [System.threadStep, hpc]
    exact ⟨_, rfl, by simp [Thread.Leaking, hfailed, hret]⟩
  | writeOpen | readOpen =>
    simp only [System.threadStep, hpc]
    exact ⟨_, by rw [System.put_threads, System.openDevice_threads], by simp [Thread.Leaking]⟩
  | writeClose | readClose =>
    simp only [System.threadStep, hpc]
    exact ⟨_, by rw [System.put_threads, System.close_threads], by simp [Thread.Leaking]⟩
  | send =>
    simp only [System.threadStep, hpc]
    split <;> exact ⟨_, rfl, by simp [Thread.Leaking]⟩
  | readLine =>
    simp only [System.threadStep, hpc]
    split_ifs <;> exact ⟨_, rfl, by simp [Thread.Leaking]⟩
  | writeUnlock | readUnlock | readReturned | closeConnection =>
    simp only [System.threadStep, hpc]
    exact ⟨_, rfl, by simp [Thread.Leaking]⟩

theorem System.Owned.leaking_step_iff {s : System ι} (hs : s.Owned)
    (h : ∀ t, ¬ (s.threads t).Leaking) (a : Label ι) :
    (∀ u, ¬ ((s.step a).threads u).Leaking) ↔ s.WriteSucceeds a := by
  cases a with
  | signal => exact iff_of_true h trivial
  | thread t env =>
    obtain ⟨th, hthreads, hleak⟩ := hs.threadStep_leaking t env (h t)
    rw [System.step, hthreads]
    constructor
    · intro hnone hpc hfail
      have := hnone t
      rw [Function.update_self] at this
      exact this (hleak.mpr ⟨hpc, hfail⟩)
    · intro hok u
      by_cases hu : u = t
      · subst hu
        rw [Function.update_self, hleak]
        exact fun hfail => hok hfail.1 hfail.2
      · rw [Function.update_of_ne hu]
        exact h u

/-- In any interleaving, and whatever the calls return: the mutex and the
descriptors are given back, and no thread locks the mutex while it or an ended
thread owns it, in every state of a run exactly when no `write` in
`filestore_write` fails in it. -/
theorem mutex_given_back_iff (input : ι → List SockRead) (as : List (Label ι)) :
    Always System.step (fun s => s.GivenBack ∧ s.LockSafe) (.initial input) as ↔
      Along System.step System.WriteSucceeds (.initial input) as := by
  have h0 := System.initial_owned input
  refine always_iff_along (fun s a hs => hs.step a) (fun s a hs hback => ?_) h0
    (h0.givenBack_iff.mpr fun t => by simp [System.initial, Thread.initial, Thread.Leaking]) as
  rw [(hs.step a).givenBack_iff]
  exact hs.leaking_step_iff (hs.givenBack_iff.mp hback) a

/-- One line arrives, and `kmalloc` fails in `aesd_write`. -/
def writeWithoutMemory (t : ι) : List (Label ι) :=
  List.replicate 4 (.thread t ⟨some 3, ⟨true, none, 0, none⟩, ⟨true, 0⟩, none⟩)

theorem mutex_given_back_fails :
    ¬ ∀ (input : Fin 2 → List SockRead) (as : List (Label (Fin 2))),
      Always System.step (fun s => s.GivenBack ∧ s.LockSafe) (.initial input) as := by
  intro h
  have hback := (h (fun _ => [.byte 97, .byte newline]) (writeWithoutMemory 0) _ List.prefix_rfl).1 0
  exact (hback (by decide)).1 (by decide)

end Aesd.Server
