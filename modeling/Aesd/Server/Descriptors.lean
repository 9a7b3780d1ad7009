import Aesd.Server.Mutex
import Aesd.Server.Reaping

/-! Who has which descriptor. `server_sock` keeps its value when the listening
socket is closed, so it may become the number of something else; the first
descriptor that anyone opens gets it, being the lowest free one. An accepted
socket is handed from `main` to a thread, which closes it once; when an
allocation or `pthread_create` fails, nobody takes it. -/

namespace Aesd.Server

open Run Driver

/-! ### Files of the device -/

namespace System

variable {ι : Type*}

theorem files_eq_none_iff {s : System ι} {n : ℕ} : s.files n = none ↔ ∀ t, ¬ s.HoldsFd t n := by
  cases hn : s.files n with
  | none => simp [HoldsFd, hn]
  | some f =>
    simp only [HoldsFd, hn, reduceCtorEq, false_iff, not_forall, not_not]
    exact ⟨f.opener, f.fPos, rfl⟩

theorem SameOwners.files {s s' : System ι} (h : s.SameOwners s') (n : ℕ) :
    s'.files n = none ↔ s.files n = none := by
  rw [files_eq_none_iff, files_eq_none_iff]
  exact forall_congr' fun t => (h.holdsFd t n).not

variable [DecidableEq ι]

/-- A descriptor that is not open stays so, unless the step opens it. -/
theorem threadStep_files {s : System ι} {n : ℕ} (hn : s.files n = none) (t : ι) (env : Env) :
    (s.threadStep t env).files n = none ∨
      ((s.threads t).pc = .writeOpen ∨ (s.threads t).pc = .readOpen) ∧ env.openFd = some n := by
  cases hpc : (s.threads t).pc with
  | writeLock | readLock =>
    simp only [threadStep, hpc, lock]
    split <;> exact .inl hn
  | writeOpen | readOpen =>
    simp only [threadStep, hpc]
    cases ho : env.openFd with
    | none => exact .inl hn
    | some m =>
      by_cases hm : m = n
      · exact .inr ⟨by simp, by rw [hm]⟩
      · left
        cases hf : s.files m with
        | none => simpa [openDevice, hf, Function.update_of_ne (Ne.symm hm)] using hn
        | some f => simpa [openDevice, hf] using hn
  | write =>
    have hw := (s.write_sameOwners env.write (s.threads t).fd (s.threads t).data).files n
    simp only [threadStep, hpc]
    split_ifs <;> exact .inl (hw.mpr hn)
  | read =>
    have hr := (s.read_sameOwners env.read (s.threads t).fd 1024).files n
    simp only [threadStep, hpc]
    split_ifs <;> exact .inl (hr.mpr hn)
  | send =>
    simp only [threadStep, hpc]
    split <;> exact .inl hn
  | writeClose | readClose =>
    simp only [threadStep, hpc, put_files]
    cases (s.threads t).fd with
    | none => exact .inl hn
    | some m =>
      left
      by_cases hm : n = m
      · simp [close, hm]
      · simpa [close, Function.update_of_ne hm] using hn
  | _ =>
    simp only [threadStep, hpc]
    exact .inl hn

/-- The file that a step opens. -/
theorem threadStep_open {s : System ι} {n : ℕ} (hn : s.files n = none) {t : ι} {env : Env}
    (hpc : (s.threads t).pc = .writeOpen ∨ (s.threads t).pc = .readOpen) (ho : env.openFd = some n) :
    (s.threadStep t env).files n = some ⟨t, 0⟩ := by
  rcases hpc with hpc | hpc <;> simp [threadStep, hpc, ho, openDevice, hn]

/-- `handle_connection` is at its end only behind `close(connection_fd)`. -/
theorem threadStep_complete {s : System ι} {t : ι} {env : Env}
    (h : ((s.threadStep t env).threads t).pc = .complete) :
    (s.threads t).pc = .closeConnection ∨ (s.threads t).pc = .complete := by
  cases hpc : (s.threads t).pc with
  | closeConnection | complete => simp
  | readLine =>
    simp only [threadStep, hpc, put_threads, Function.update_self] at h
    split_ifs at h
  | writeLock | readLock =>
    simp only [threadStep, hpc, lock] at h
    split at h <;> simp [hpc] at h
  | write | read =>
    simp only [threadStep, hpc] at h
    split_ifs at h <;> simp at h
  | send =>
    simp only [threadStep, hpc] at h
    split at h <;> simp at h
  | _ => simp only [threadStep, hpc, unlock, put_threads, Function.update_self, reduceCtorEq] at h

end System

namespace Process

variable {cfg : Startup} {s : Process} {n : ℕ}

/-! ### The lowest free number -/

theorem lowestFree_eq_some (h : s.lowestFree cfg = some n) :
    cfg.inherited n = false ∧ s.socks n = none ∧ s.sys.files n = none := by
  have hfree := List.find?_some h
  simpa [isFree, and_assoc] using hfree

/-- What was open before the listening socket has the lower numbers. -/
theorem lowestFree_serverSock (h : s.isFree cfg cfg.serverSock = true) :
    s.lowestFree cfg = some cfg.serverSock := by
  rw [lowestFree, List.find?_range_eq_some]
  refine ⟨h, List.mem_range.mpr cfg.serverSock_lt, fun m hm => ?_⟩
  simp [isFree, cfg.serverSock_lowest m hm]

/-! ### Closing `server_sock` -/

/-- What `close(server_sock)` closes now is the listening socket, or nothing. -/
def Harmless (cfg : Startup) (s : Process) : Prop :=
  (s.socks cfg.serverSock = none ∨ s.socks cfg.serverSock = some .listening) ∧
    s.sys.files cfg.serverSock = none

instance (cfg : Startup) (s : Process) : Decidable (s.Harmless cfg) :=
  decidable_of_iff ((s.socks cfg.serverSock = none ∨ s.socks cfg.serverSock = some .listening) ∧
    (s.sys.files cfg.serverSock).isNone = true) (by simp [Harmless])

/-- The descriptor that the step gets from `accept` or from `open`. -/
def obtained (cfg : Startup) (s : Process) : ProcLabel → Option ℕ
  | .main env => if s.pc = .accept ∧ env.accept then s.lowestFree cfg else none
  | .thread t env =>
    if s.pc ≠ .exited ∧ s.handlers t = some .running ∧ s.items t ≠ none ∧
        ((s.sys.threads t).pc = .writeOpen ∨ (s.sys.threads t).pc = .readOpen) ∧ env.openFd ≠ none then
      s.lowestFree cfg
    else none
  | _ => none

theorem obtained_cases (cfg : Startup) (s : Process) (a : ProcLabel) :
    s.obtained cfg a = none ∨ s.obtained cfg a = s.lowestFree cfg := by
  cases a with
  | main env | thread t env =>
    rw [obtained]
    split_ifs
    · exact .inr rfl
    · exact .inl rfl
  | signal | setTerminate => exact .inl rfl

/-- No descriptor is opened in the step once the listening socket is closed. -/
def NoReuse (cfg : Startup) (s : Process) (a : ProcLabel) : Prop :=
  s.obtained cfg a ≠ none → s.socks cfg.serverSock = some .listening

/-- The step executes `close(server_sock)`, in the signal handler or at the end of
`main`. -/
def ClosesServer (s : Process) : ProcLabel → Prop
  | .signal => s.pc ≠ .exited
  | .main _ => s.pc = .closeServer
  | _ => False

instance (s : Process) : (a : ProcLabel) → Decidable (s.ClosesServer a)
  | .signal => inferInstanceAs (Decidable (_ ≠ _))
  | .main _ => inferInstanceAs (Decidable (_ = _))
  | .thread _ _ | .setTerminate => inferInstanceAs (Decidable False)

/-- `main` opens and closes only in `accept` and at its end. -/
theorem mainStep_same (cfg : Startup) (ha : s.pc ≠ .accept) (hc : s.pc ≠ .closeServer)
    (env : MainEnv) :
    (s.mainStep cfg env).socks = s.socks ∧ (s.mainStep cfg env).sys = s.sys ∧
      (s.mainStep cfg env).closed = s.closed ∧ (s.mainStep cfg env).accepted = s.accepted := by
  cases hpc : s.pc with
  | accept => exact absurd hpc ha
  | closeServer => exact absurd hpc hc
  | initConnListItem k connFd =>
    simp only [mainStep, hpc]
    split_ifs <;> exact ⟨rfl, rfl, rfl, rfl⟩
  | create k =>
    simp only [mainStep, hpc]
    split
    · exact ⟨rfl, rfl, rfl, rfl⟩
    · split_ifs <;> exact ⟨rfl, rfl, rfl, rfl⟩
  | test pass data =>
    cases pass <;> cases data <;> simp only [mainStep, hpc, and_self]
    split <;> exact ⟨rfl, rfl, rfl, rfl⟩
  | check pass data tvar =>
    simp only [mainStep, hpc]
    split <;> exact ⟨rfl, rfl, rfl, rfl⟩
  | join pass data tvar =>
    simp only [mainStep, hpc]
    split
    · split_ifs <;> exact ⟨rfl, rfl, rfl, rfl⟩
    · exact ⟨rfl, rfl, rfl, rfl⟩
  | free pass data tvar =>
    simp only [mainStep, hpc, freeConnListItem, freeItem]
    split
    · exact ⟨rfl, rfl, rfl, rfl⟩
    · split <;> exact ⟨rfl, rfl, rfl, rfl⟩
  | advance pass data tvar =>
    cases pass <;> simp only [mainStep, hpc, and_self]
    split <;> exact ⟨rfl, rfl, rfl, rfl⟩
  | _ => simp only [mainStep, hpc, and_self]

theorem close_descriptors (s : Process) (m n : ℕ) :
    ((s.close m).socks n = none ∨ (s.close m).socks n = s.socks n) ∧
      (s.sys.files n = none → (s.close m).sys.files n = none) := by
  by_cases hn : n = m
  · simp [close, closeSock, System.close, hn]
  · simp [close, closeSock, System.close, Function.update_of_ne hn]

theorem closeSock_socks (s : Process) (fd : Option ℕ) (n : ℕ) :
    (fd.elim s s.closeSock).socks n = none ∨ (fd.elim s s.closeSock).socks n = s.socks n := by
  cases fd with
  | none => exact .inr rfl
  | some m =>
    by_cases hn : n = m
    · exact .inl (by simp [closeSock, hn])
    · exact .inr (by simp [closeSock, Function.update_of_ne hn])

/-- A running thread neither opens nor closes a connection in most of its steps. -/
theorem threadStep_sys {t : ℕ} {item : ThreadData} (hs : s.handlers t = some .running)
    (hitem : s.items t = some item) (env : Env) (h₁ : (s.sys.threads t).pc ≠ .closeConnection)
    (h₂ : (s.sys.threads t).pc ≠ .complete) (h₃ : (s.sys.threads t).pc ≠ .writeClose)
    (h₄ : (s.sys.threads t).pc ≠ .readClose) :
    let env' := { env with openFd := env.openFd.bind fun _ => s.lowestFree cfg }
    s.threadStep cfg t env = { s with sys := s.sys.threadStep t env' } := by
  cases hpc : (s.sys.threads t).pc with
  | closeConnection => exact absurd hpc h₁
  | complete => exact absurd hpc h₂
  | writeClose => exact absurd hpc h₃
  | readClose => exact absurd hpc h₄
  | _ => simp only [threadStep, hs, hitem, hpc]

/-- A step leaves no new descriptor behind but the one it obtains. -/
theorem threadStep_descriptors (hex : s.pc ≠ .exited) (t : ℕ) (env : Env)
    (hn : s.obtained cfg (.thread t env) ≠ some n) :
    ((s.threadStep cfg t env).socks n = none ∨ (s.threadStep cfg t env).socks n = s.socks n) ∧
      (s.sys.files n = none → (s.threadStep cfg t env).sys.files n = none) := by
  have hsame : (s.threadStep cfg t env).socks = s.socks → (s.threadStep cfg t env).sys = s.sys →
      ((s.threadStep cfg t env).socks n = none ∨ (s.threadStep cfg t env).socks n = s.socks n) ∧
        (s.sys.files n = none → (s.threadStep cfg t env).sys.files n = none) := fun h₁ h₂ => by
    rw [h₁, h₂]
    exact ⟨.inr rfl, id⟩
  rcases hs : s.handlers t with _ | stage
  · exact hsame (by simp only [threadStep, hs]) (by simp only [threadStep, hs])
  rcases hitem : s.items t with _ | item
  · cases stage <;>
      exact hsame (by simp only [threadStep, hs, hitem, faulted])
        (by simp only [threadStep, hs, hitem, faulted])
  cases stage with
  | flagged | ended =>
    exact hsame (by simp only [threadStep, hs, hitem]) (by simp only [threadStep, hs, hitem])
  | running =>
    cases hpc : (s.sys.threads t).pc with
    | closeConnection =>
      obtain ⟨hsocks, hfiles⟩ := close_descriptors s item.connectionFd n
      simp only [threadStep, hs, hitem, hpc]
      refine ⟨hsocks, fun hf => ?_⟩
      refine (System.threadStep_files (hfiles hf) t env).resolve_right fun ho => ?_
      simp [close, System.close_threads, hpc] at ho
    | complete =>
      exact hsame (by simp only [threadStep, hs, hitem, hpc]) (by simp only [threadStep, hs, hitem, hpc])
    | writeClose | readClose =>
      simp only [threadStep, hs, hitem, hpc]
      refine ⟨closeSock_socks s _ n, fun hf => ?_⟩
      have hsys : ((s.sys.threads t).fd.elim s s.closeSock).sys = s.sys := by
        cases (s.sys.threads t).fd <;> rfl
      rw [hsys]
      exact (System.threadStep_files hf t env).resolve_right (by simp [hpc])
    | writeOpen | readOpen =>
      rw [threadStep_sys hs hitem env (by simp [hpc]) (by simp [hpc]) (by simp [hpc]) (by simp [hpc])]
      refine ⟨.inr rfl, fun hf => (System.threadStep_files hf t _).resolve_right fun ho => hn ?_⟩
      obtain ⟨m, hm, hlow⟩ := Option.bind_eq_some_iff.mp ho.2
      rw [obtained, if_pos ⟨hex, hs, by simp [hitem], by simp [hpc], by simp [hm]⟩, hlow]
    | _ =>
      rw [threadStep_sys hs hitem env (by simp [hpc]) (by simp [hpc]) (by simp [hpc]) (by simp [hpc])]
      exact ⟨.inr rfl, fun hf => (System.threadStep_files hf t _).resolve_right (by simp [hpc])⟩

theorem step_descriptors (cfg : Startup) (s : Process) {a : ProcLabel}
    (hn : s.obtained cfg a ≠ some n) :
    ((s.step cfg a).socks n = none ∨ (s.step cfg a).socks n = s.socks n) ∧
      (s.sys.files n = none → (s.step cfg a).sys.files n = none) := by
  by_cases hex : s.pc = .exited
  · rw [step_exited hex]
    exact ⟨.inr rfl, id⟩
  cases a with
  | main env =>
    rw [step_main hex]
    cases hpc : s.pc with
    | accept =>
      rw [obtained, hpc] at hn
      simp only [mainStep, hpc]
      cases ho : (if env.accept then s.lowestFree cfg else none) with
      | none => exact ⟨.inr rfl, id⟩
      | some m =>
        have hnm : n ≠ m := fun h => by
          rw [h] at hn
          simp_all
        exact ⟨.inr (Function.update_of_ne hnm _ _), id⟩
    | closeServer =>
      simp only [mainStep, hpc]
      exact close_descriptors s cfg.serverSock n
    | _ =>
      obtain ⟨hsocks, hsys, -⟩ := mainStep_same cfg (s := s) (by simp [hpc]) (by simp [hpc]) env
      rw [hsocks, hsys]
      exact ⟨.inr rfl, id⟩
  | thread t env =>
    rw [step_thread hex]
    exact threadStep_descriptors hex t env hn
  | signal =>
    rw [step_signal hex]
    exact close_descriptors s cfg.serverSock n
  | setTerminate =>
    obtain ⟨catching, flag, hstep⟩ := s.step_setTerminate cfg
    rw [hstep]
    exact ⟨.inr rfl, id⟩

/-- The descriptor a step obtains is a connection or a file then. -/
theorem step_obtained {a : ProcLabel} (hn : s.obtained cfg a = some n) :
    (∃ k, (s.step cfg a).socks n = some (.connection k)) ∨ (s.step cfg a).sys.files n ≠ none := by
  cases a with
  | main env =>
    rw [obtained] at hn
    split_ifs at hn with h
    rw [step_main (by simp [h.1])]
    simp only [mainStep, h.1, h.2, if_true, hn]
    exact .inl ⟨s.accepted, Function.update_self ..⟩
  | thread t env =>
    rw [obtained] at hn
    split_ifs at hn with h
    obtain ⟨hex, hs, hitem, hpc, ho⟩ := h
    obtain ⟨item, hitem⟩ := Option.ne_none_iff_exists'.mp hitem
    obtain ⟨m, hm⟩ := Option.ne_none_iff_exists'.mp ho
    have hne : ∀ pc, pc ≠ .writeOpen → pc ≠ .readOpen → (s.sys.threads t).pc ≠ pc := by
      rintro pc h₁ h₂ rfl
      exact hpc.elim h₁ h₂
    rw [step_thread hex, threadStep_sys hs hitem env (hne _ (by simp) (by simp)) (hne _ (by simp) (by simp))
      (hne _ (by simp) (by simp)) (hne _ (by simp) (by simp))]
    right
    rw [System.threadStep_open (lowestFree_eq_some hn).2.2 hpc (by simp [hm, hn])]
    simp
  | signal => simp [obtained] at hn
  | setTerminate => simp [obtained] at hn

/-! ### Shutdown -/

theorem harmless_initial (cfg : Startup) : (Process.initial cfg).Harmless cfg :=
  ⟨.inr (by simp [initial]), rfl⟩

theorem Harmless.step_iff (h : s.Harmless cfg) (a : ProcLabel) :
    (s.step cfg a).Harmless cfg ↔ s.NoReuse cfg a := by
  have hkeep : s.obtained cfg a ≠ some cfg.serverSock → (s.step cfg a).Harmless cfg := fun hn => by
    obtain ⟨hsocks, hfiles⟩ := step_descriptors cfg s hn
    refine ⟨?_, hfiles h.2⟩
    rcases hsocks with hsocks | hsocks
    · exact .inl hsocks
    · rw [hsocks]
      exact h.1
  rcases obtained_cases cfg s a with hnone | hlow
  · exact iff_of_true (hkeep (by simp [hnone])) fun hne => absurd hnone hne
  rcases h.1 with hclosed | hopen
  · -- the number of the listening socket is the lowest free one
    have hfree : s.isFree cfg cfg.serverSock = true := by
      simp [isFree, cfg.serverSock_free, hclosed, h.2]
    rw [lowestFree_serverSock hfree] at hlow
    refine iff_of_false (fun hs => ?_) fun hs => ?_
    · rcases step_obtained hlow with ⟨k, hk⟩ | hfile
      · rcases hs.1 with hs | hs <;> rw [hk] at hs <;> cases hs
      · exact hfile hs.2
    · rw [NoReuse, hclosed] at hs
      exact absurd (hs (by simp [hlow])) (by simp)
  · refine iff_of_true (hkeep fun hn => ?_) fun _ => hopen
    rw [(lowestFree_eq_some (hlow.symm.trans hn)).2.1] at hopen
    cases hopen

end Process

/-- Throughout a run `close(server_sock)` would close the listening socket or
nothing exactly when nothing is opened once the listening socket is closed. In
such a run every `close(server_sock)`, of the signal handler and of `main`, closes
neither a connection nor a file of the device. -/
theorem shutdown_closes_own_iff (cfg : Startup) (as : List ProcLabel) :
    (Always (Process.step cfg) (Process.Harmless cfg) (.initial cfg) as ↔
      Along (Process.step cfg) (Process.NoReuse cfg) (.initial cfg) as) ∧
    (Along (Process.step cfg) (Process.NoReuse cfg) (.initial cfg) as →
      ∀ before a after, as = before ++ a :: after →
        (run (Process.step cfg) (.initial cfg) before).ClosesServer a →
        (run (Process.step cfg) (.initial cfg) before).Harmless cfg) := by
  have hiff : Always (Process.step cfg) (Process.Harmless cfg) (.initial cfg) as ↔
      Along (Process.step cfg) (Process.NoReuse cfg) (.initial cfg) as :=
    always_iff_along (J := fun _ => True) (fun _ _ _ => trivial) (fun s a _ h => h.step_iff a) trivial
      (Process.harmless_initial cfg) as
  refine ⟨hiff, fun h before a after hsplit _ => ?_⟩
  exact hiff.mpr h before (hsplit ▸ List.prefix_append _ _)

/-- A signal comes while a thread is about to open the device. -/
def shutdownRun : List ProcLabel :=
  List.replicate 11 mainOk ++ List.replicate 2 (threadOk 0) ++ [.signal, .setTerminate, threadOk 0] ++
    [.main ⟨false, true, true, true⟩] ++ List.replicate 11 mainOk

/-- The thread gets the number of the listening socket, and `main` closes it. -/
theorem shutdown_closes_own_fails :
    ¬ ∀ (cfg : Startup) (as before : List ProcLabel) (a : ProcLabel) (after : List ProcLabel),
      as = before ++ a :: after →
        (run (Process.step cfg) (.initial cfg) before).ClosesServer a →
        (run (Process.step cfg) (.initial cfg) before).Harmless cfg := by
  intro h
  have hclose := h (oneClient [.byte 97, .byte newline]) (shutdownRun ++ [mainOk]) shutdownRun mainOk []
    rfl (by decide +kernel)
  have hfile := congrArg Option.isSome hclose.2
  revert hfile
  decide +kernel

end Aesd.Server
