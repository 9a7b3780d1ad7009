import Aesd.Server.Mutex

/-! What a failed `write` in `filestore_write` does to the whole server. The thread
returns with the mutex and then waits for it; every other thread that has something
to store waits as well, and the device stays as it is. -/

namespace Aesd.Server

open Run Driver

variable {ι : Type*} [DecidableEq ι]

namespace System

theorem valid_step {s : System ι} (hs : Valid s.driver) (a : Label ι) : Valid (s.step a).driver := by
  cases a with
  | signal => exact hs
  | thread t env =>
    rw [step]
    by_cases hpc : (s.threads t).pc = .write
    · have hw : Valid (s.write env.write (s.threads t).fd (s.threads t).data).2.driver := by
        rcases s.write_cases env.write (s.threads t).fd (s.threads t).data with
          hw | ⟨n, f, -, -, ⟨-, hw⟩ | ⟨-, hw⟩⟩
        · rwa [hw]
        · rw [hw]
          exact hs.step (.write env.write (vfsBuf (s.threads t).data) f.fPos)
        · rw [hw]
          exact hs.step (.write env.write (vfsBuf (s.threads t).data) f.fPos)
      simp only [threadStep, hpc]
      split_ifs <;> exact hw
    · obtain ⟨th, hframe⟩ := s.threadStep_frame t env
      rwa [hframe.driver hs hpc]

/-- Thread `t` waits for itself. -/
structure Wedged (s : System ι) (t : ι) : Prop where
  owned : s.Owned
  valid : Valid s.driver
  leaking : (s.threads t).Leaking

omit [DecidableEq ι] in
theorem Wedged.mutex {s : System ι} {t : ι} (h : s.Wedged t) : s.fileMutex = some t :=
  (h.owned.mutex t).mpr (.inr h.leaking)

omit [DecidableEq ι] in
/-- Nobody is in a critical section. -/
theorem Wedged.critical {s : System ι} {t : ι} (h : s.Wedged t) (u : ι) :
    (s.threads u).pc.critical = false := by
  by_contra hcrit
  have hu := (h.owned.mutex u).mpr (.inl (by simpa using hcrit))
  rw [h.mutex] at hu
  obtain rfl := Option.some.inj hu
  rcases h.leaking with ⟨hpc, -⟩ | ⟨hpc, -⟩ <;> simp [hpc, Pc.critical] at hcrit

/-- A thread waits for the mutex. -/
def Waits (s : System ι) (u : ι) : Prop := (s.threads u).pc = .writeLock ∨ (s.threads u).pc = .readLock

theorem Wedged.threadStep_waits {s : System ι} {t u : ι} (h : s.Wedged t) (hu : s.Waits u) (env : Env) :
    s.threadStep u env = s := by
  rcases hu with hu | hu <;> simp only [threadStep, hu, lock, h.mutex]

/-- One step: nothing is seen from outside, and whoever waits goes on waiting. -/
theorem Wedged.step {s : System ι} {t : ι} (h : s.Wedged t) (a : Label ι) :
    (s.step a).Wedged t ∧ s.event a = [] ∧ (s.step a).driver = s.driver ∧
      ∀ u, s.Waits u → (s.step a).threads u = s.threads u := by
  cases a with
  | signal => exact ⟨⟨h.owned.step .signal, h.valid, h.leaking⟩, rfl, rfl, fun _ _ => rfl⟩
  | thread u env =>
    have hcrit := h.critical u
    have hwrite : (s.threads u).pc ≠ .write := fun hpc => by simp [hpc, Pc.critical] at hcrit
    obtain ⟨th, hframe⟩ := s.threadStep_frame u env
    have hevent : s.event (.thread u env) = [] := by
      rcases s.event_cases u env with he | ⟨hpc, -⟩ | ⟨hpc, -⟩
      · exact he
      · exact absurd hpc hwrite
      · simp [hpc, Pc.critical] at hcrit
    have hwaits : ∀ v, s.Waits v → (s.threadStep u env).threads v = s.threads v := fun v hv => by
      by_cases hvu : v = u
      · subst hvu
        rw [h.threadStep_waits hv]
      · rw [hframe.threads, Function.update_of_ne hvu]
    refine ⟨⟨h.owned.step _, valid_step h.valid _, ?_⟩, hevent, hframe.driver h.valid hwrite, hwaits⟩
    rw [System.step]
    rcases h.leaking with ⟨hpc, hret⟩ | hread
    · by_cases hut : t = u
      · -- the failure moves into `operation_failed`
        subst hut
        simp only [threadStep, hpc, put_threads, Function.update_self, Thread.Leaking]
        simp [hret]
      · rw [hframe.threads, Function.update_of_ne hut]
        exact .inl ⟨hpc, hret⟩
    · rw [hwaits t (.inr hread.1)]
      exact .inr hread

theorem Wedged.run {s : System ι} {t : ι} (h : s.Wedged t) (as : List (Label ι)) :
    (Run.run System.step s as).Wedged t ∧ outputs System.step System.event s as = [] ∧
      (Run.run System.step s as).driver = s.driver ∧
      ∀ u, s.Waits u → (Run.run System.step s as).threads u = s.threads u := by
  induction as generalizing s with
  | nil => exact ⟨h, rfl, rfl, fun _ _ => rfl⟩
  | cons a as ih =>
    obtain ⟨hstep, hevent, hdriver, hwaits⟩ := h.step a
    obtain ⟨hrun, hout, hdriver', hwaits'⟩ := ih hstep
    refine ⟨hrun, by rw [outputs, hevent, hout]; rfl, hdriver'.trans hdriver, fun u hu => ?_⟩
    have hu' : (s.step a).Waits u := by rwa [Waits, hwaits u hu]
    exact (hwaits' u hu').trans (hwaits u hu)

/-- A thread whose `write` fails is wedged. -/
theorem wedged_of_failed_write {s : System ι} (hs : s.Owned) (hv : Valid s.driver) {t : ι} {env : Env}
    (hpc : (s.threads t).pc = .write)
    (hfail : (s.write env.write (s.threads t).fd (s.threads t).data).1 = -1) :
    (s.step (.thread t env)).Wedged t := by
  refine ⟨hs.step _, valid_step hv _, ?_⟩
  simp only [step, threadStep, hpc, hfail, if_true, put_threads, Function.update_self, Thread.Leaking]
  simp

end System

theorem run_owned (input : ι → List SockRead) (as : List (Label ι)) :
    (run System.step (.initial input) as).Owned ∧ Valid (run System.step (.initial input) as).driver :=
  invariant_of_step (I := fun s : System ι => s.Owned ∧ Valid s.driver)
    (fun _ a hs => ⟨hs.1.step a, System.valid_step hs.2 a⟩) ⟨System.initial_owned input, initial_valid⟩ as

/-- Any number of connections, any interleaving, any outcomes: after a `write` has
failed in `filestore_write`, for whatever reason, nothing is ever written or sent
again by any thread. The device stays as the failing call left it, the mutex is
owned for ever by the thread that failed, this thread never ends, and a thread that
waits for the mutex never gets it. -/
theorem failed_write_wedges_server (input : ι → List SockRead) (before after : List (Label ι)) (t : ι)
    (env : Env) (hfails : ¬ (run System.step (.initial input) before).WriteSucceeds (.thread t env)) :
    let s := run System.step (.initial input) (before ++ [.thread t env])
    let s' := run System.step s after
    outputs System.step System.event s after = [] ∧ s'.driver = s.driver ∧ s'.fileMutex = some t ∧
      (s'.threads t).pc ≠ .complete ∧ ∀ u, s.Waits u → s'.threads u = s.threads u := by
  intro s s'
  obtain ⟨hs, hv⟩ := run_owned input before
  simp only [System.WriteSucceeds, not_forall, not_not] at hfails
  obtain ⟨hpc, hfail⟩ := hfails
  have hwedged : s.Wedged t := by
    simp only [s, run_concat]
    exact System.wedged_of_failed_write hs hv hpc hfail
  obtain ⟨hrun, hout, hdriver, hwaits⟩ := hwedged.run after
  refine ⟨hout, hdriver, hrun.mutex, fun hc => ?_, hwaits⟩
  rcases hrun.leaking with ⟨hpc', -⟩ | ⟨hpc', -⟩
  · exact absurd (hc.symm.trans hpc') (by decide)
  · exact absurd (hc.symm.trans hpc') (by decide)

/-- `kmalloc` fails in the `write` of one connection, and the other one does not even get
its line stored. -/
theorem failed_write_wedges_server_no_memory :
    outputs System.step System.event
      (run System.step (.initial fun _ : Fin 2 => [.byte 97, .byte newline])
        (List.replicate 3 (okStep 0) ++ [.thread 0 ⟨some 3, ⟨true, none, 0, none⟩, ⟨true, 0⟩, none⟩]))
      (List.replicate 40 (okStep 1)) = [] :=
  (failed_write_wedges_server _ (List.replicate 3 (okStep 0)) (List.replicate 40 (okStep 1)) 0
    ⟨some 3, ⟨true, none, 0, none⟩, ⟨true, 0⟩, none⟩ fun h => h (by decide) (by decide)).1

end Aesd.Server
