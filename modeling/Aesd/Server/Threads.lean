import Aesd.Server.Connections
import Aesd.Server.Snapshots

/-! The connection threads as a part of the server process. While `main` is in its
accept loop, and a signal handler closes nothing but the listening socket, sockets and
files of the device have different descriptors and nobody closes a socket that is not
its own. So whatever `main` does with connections, its list and memory, the threads
take the steps of the system of threads alone, and what holds of all its runs holds
of the whole server. -/

namespace Aesd.Server

open Run Driver

/-- `main` has a socket that no thread has yet. -/
def MainPc.handing : MainPc → Bool
  | .initConnListItem _ _ | .insertHead _ | .create _ => true
  | _ => false

/-- What `open` would return does not matter to a thread that closes something. -/
theorem System.threadStep_closing {s : System ℕ} {t : ℕ} (hpc : (s.threads t).pc = .closeConnection ∨
    (s.threads t).pc = .writeClose ∨ (s.threads t).pc = .readClose) (env : Env) (openFd : Option ℕ) :
    s.threadStep t { env with openFd := openFd } = s.threadStep t env := by
  rcases hpc with hpc | hpc | hpc <;> simp only [System.threadStep, hpc]

namespace Process

/-- What a step does in the system of threads. A thread that opens the device gets the
lowest free descriptor. -/
def sysLabels (cfg : Startup) (s : Process) (a : ProcLabel) : List (Label ℕ) :=
  if s.pc = .exited then []
  else
    match a with
    | .thread t env =>
      if s.handlers t = some .running ∧ s.items t ≠ none ∧ (s.sys.threads t).pc ≠ .complete then
        [.thread t { env with openFd := env.openFd.bind fun _ => s.lowestFree cfg }]
      else []
    | .setTerminate => if s.catching = 0 then [] else [.signal]
    | .main _ | .signal => []

/-- `main` is in its accept loop, and a signal handler closes nothing but the listening
socket. -/
def Graceful (cfg : Startup) (s : Process) (a : ProcLabel) : Prop :=
  s.pc.accepting = true ∧ (a.isSignal = true → s.Harmless cfg)

instance (cfg : Startup) (s : Process) (a : ProcLabel) : Decidable (s.Graceful cfg a) :=
  inferInstanceAs (Decidable (_ ∧ (_ → _)))

/-- Sockets and files have different descriptors, whoever is to close a socket still has
it open, and a thread past its assignment to `thread_complete` has nothing to do. -/
structure Apart (s : Process) : Prop where
  owned : s.sys.Owned
  disjoint : ∀ n, s.sys.files n ≠ none → s.socks n = none
  sock : ∀ k fd, s.Mine k fd ∨ s.Theirs k fd → s.socks fd = some (.connection k)
  past : ∀ t stage, stage ≠ Stage.running → s.handlers t = some stage → (s.sys.threads t).pc = .complete

variable {cfg : Startup} {s s' : Process} {l kept todo : List ℕ} {n : ℕ}

theorem apart_initial (cfg : Startup) : (Process.initial cfg).Apart where
  owned := System.initial_owned _
  disjoint n hn := absurd rfl hn
  sock k fd h := by simp [Mine, Theirs, initial] at h
  past t stage _ ht := by simp [initial] at ht

/-- A step that opens and closes nothing. -/
theorem Apart.goto (h : s.Apart) (hsys : s'.sys = s.sys) (hsocks : s'.socks = s.socks)
    (hsock : ∀ k fd, s'.Mine k fd ∨ s'.Theirs k fd → s.Mine k fd ∨ s.Theirs k fd)
    (hpast : ∀ t stage, stage ≠ Stage.running → s'.handlers t = some stage →
      s.handlers t = some stage) :
    s'.Apart where
  owned := hsys ▸ h.owned
  disjoint := by
    rw [hsys, hsocks]
    exact h.disjoint
  sock k fd hk := by
    rw [hsocks]
    exact h.sock k fd (hsock k fd hk)
  past t stage hstage ht := by
    rw [hsys]
    exact h.past t stage hstage (hpast t stage hstage ht)

theorem not_mine (h : s.pc.handing = false) (k fd : ℕ) : ¬ s.Mine k fd := by
  rintro ⟨-, hpc | ⟨hpc | hpc, -⟩⟩ <;> simp [hpc, MainPc.handing] at h

theorem reaping_handing (cfg : Startup) (hreap : s.pc.reaping) (env : MainEnv) :
    (s.mainStep cfg env).pc.handing = false := by
  obtain ⟨pc, hpc, hreaps⟩ : ∃ pc, s.pc = pc ∧ pc.Reaps := ⟨_, rfl, MainPc.reaps hreap⟩
  cases hreaps with
  | test data =>
    cases data with
    | none => simp only [Process.mainStep, hpc, MainPc.handing]
    | some data =>
      simp only [Process.mainStep, hpc]
      split <;> simp [faulted, hpc, MainPc.handing]
  | check n tvar =>
    simp only [Process.mainStep, hpc]
    split
    · simp [faulted, hpc, MainPc.handing]
    · dsimp only
      split_ifs <;> rfl
  | join n tvar =>
    simp only [Process.mainStep, hpc]
    split
    · split_ifs <;> simp [hpc, MainPc.handing]
    · simp [faulted, hpc, MainPc.handing]
  | first | remove n tvar | free n tvar | advance n tvar =>
    simp only [Process.mainStep, hpc, MainPc.handing]

/-! ### Steps of `main` -/

/-- A step of `main` that leaves the threads as they are and has no socket in its hands. -/
theorem Apart.pass (h : s.Apart) (hsys : s'.sys = s.sys) (hsocks : s'.socks = s.socks)
    (hhandlers : s'.handlers = s.handlers) (hpc : s'.pc.handing = false)
    (hitems : ∀ k item, s.handlers k = some .running → s'.items k = some item → s.items k = some item) :
    s'.Apart := by
  refine h.goto hsys hsocks (fun k fd hk => .inr ?_) (fun t stage _ ht => hhandlers ▸ ht)
  obtain ⟨hr, hth, item, hitem, hfd⟩ := hk.resolve_left (not_mine hpc k fd)
  rw [hhandlers] at hr
  rw [hsys] at hth
  exact ⟨hr, hth, item, hitems k item hr hitem, hfd⟩

theorem Apart.accept (h : s.Apart) {fd : ℕ} (hfd : s.lowestFree cfg = some fd) :
    { s with
      socks := Function.update s.socks fd (some (.connection s.accepted))
      accepted := s.accepted + 1
      pc := .initConnListItem s.accepted fd }.Apart := by
  obtain ⟨-, hsock, hfile⟩ := lowestFree_eq_some hfd
  refine { h with disjoint := fun m hm => ?_, sock := fun k fd' hk => ?_ }
  · have hne : m ≠ fd := by
      rintro rfl
      exact hm hfile
    exact (Function.update_of_ne hne _ _).trans (h.disjoint m hm)
  · rcases hk with ⟨-, hk | ⟨hk | hk, -⟩⟩ | ht
    · obtain ⟨rfl, rfl⟩ := MainPc.initConnListItem.inj hk
      exact Function.update_self ..
    · cases hk
    · cases hk
    · have hold := h.sock k fd' (.inr ht)
      have hne : fd' ≠ fd := by
        rintro rfl
        rw [hsock] at hold
        cases hold
      exact (Function.update_of_ne hne _ _).trans hold

/-- `main` keeps the socket while it enters it in the list. -/
theorem Apart.enter (h : s.Apart) {k : ℕ} (item : ThreadData) (hnone : s.handlers k = none)
    (hmine : s.Mine k item.connectionFd) (hsys : s'.sys = s.sys) (hsocks : s'.socks = s.socks)
    (hhandlers : s'.handlers = s.handlers) (hitems : s'.items = Function.update s.items k (some item))
    (hpc : s'.pc = .insertHead k ∨ s'.pc = .create k) : s'.Apart := by
  refine h.goto hsys hsocks (fun j fd hj => ?_) (fun t stage _ ht => hhandlers ▸ ht)
  rcases hj with ⟨-, hj⟩ | ⟨hr, hth, it, hit, hfd⟩
  · left
    have hjk : j = k ∧ ∃ it, s'.items j = some it ∧ it.connectionFd = fd := by
      rcases hpc with hpc | hpc <;> simpa [hpc, eq_comm] using hj
    obtain ⟨rfl, it, hit, rfl⟩ := hjk
    rw [hitems, Function.update_self] at hit
    exact Option.some.inj hit ▸ hmine
  · right
    rw [hhandlers] at hr
    have hjk : j ≠ k := fun hjk => by simp [hjk, hnone] at hr
    rw [hitems, Function.update_of_ne hjk] at hit
    exact ⟨hr, hsys ▸ hth, it, hit, hfd⟩

/-- `pthread_create` hands the socket to the thread. -/
theorem Apart.create (h : s.Apart) {k : ℕ} {item : ThreadData} (hpc : s.pc = .create k)
    (hnone : s.handlers k = none) (hitem : s.items k = some item) :
    { s with
      items := Function.update s.items k (some { item with thread := some k })
      handlers := Function.update s.handlers k (some .running)
      pc := .first .reaping }.Apart := by
  refine h.goto rfl rfl (fun j fd hj => ?_) (fun t stage hstage ht => ?_)
  · obtain ⟨hr, hth, it, hit, hfd⟩ := hj.resolve_left (not_mine rfl j fd)
    by_cases hjk : j = k
    · subst hjk
      obtain rfl : _ = it := by simpa using hit
      exact .inl ⟨hnone, .inr ⟨.inr hpc, item, hitem, hfd⟩⟩
    · exact .inr ⟨by simpa [Function.update_of_ne hjk] using hr, hth, it,
        by simpa [Function.update_of_ne hjk] using hit, hfd⟩
  · by_cases htk : t = k
    · subst htk
      obtain rfl : Stage.running = stage := by simpa using ht
      exact absurd rfl hstage
    · simpa [Function.update_of_ne htk] using ht

/-- `main` does nothing in the system of threads before its end. -/
theorem mainStep_sys (cfg : Startup) (hc : s.pc ≠ .closeServer) (env : MainEnv) :
    (s.mainStep cfg env).sys = s.sys := by
  by_cases ha : s.pc = .accept
  · simp only [Process.mainStep, ha]
    split <;> rfl
  · exact (mainStep_same cfg ha hc env).2.1

theorem Apart.mainStep (h : s.Apart) (hb : s.Books (kept ++ todo)) (hat : s.At kept todo)
    (cfg : Startup) (env : MainEnv) : (s.mainStep cfg env).Apart := by
  by_cases hreap : s.pc.reaping
  · obtain ⟨hsocks, hsys, -⟩ := mainStep_same cfg (s := s)
      (fun hpc => by simp [hpc, MainPc.reaping] at hreap)
      (fun hpc => by simp [hpc, MainPc.reaping] at hreap) env
    exact h.pass hsys hsocks (hb.reaping_same cfg hat hreap env).1 (reaping_handing cfg hreap env)
      fun k item _ hitem => items_of_mainStep hreap hitem
  rw [At] at hat
  cases hpc : s.pc with
  | loopTest =>
    simp only [Process.mainStep, hpc]
    refine h.pass rfl rfl rfl ?_ fun _ _ _ hitem => hitem
    dsimp only
    split_ifs <;> rfl
  | accept =>
    simp only [Process.mainStep, hpc]
    cases ho : (if env.accept then s.lowestFree cfg else none) with
    | none => exact h.pass rfl rfl rfl rfl fun _ _ _ hitem => hitem
    | some fd =>
      split_ifs at ho
      exact h.accept ho
  | initConnListItem k fd =>
    rw [hpc] at hat
    have hnone : s.handlers k = none := hb.handlers_eq_none hat.2
    simp only [Process.mainStep, hpc]
    split_ifs
    · exact h.enter _ hnone ⟨hnone, .inl hpc⟩ rfl rfl rfl rfl (.inl rfl)
    · exact h.pass rfl rfl rfl rfl fun _ _ _ hitem => hitem
  | insertHead k =>
    rw [hpc] at hat
    have hnone : s.handlers k = none := hb.handlers_eq_none hat.2
    obtain ⟨item, hitem, -⟩ := hb.item k (.inr (by rw [hpc]; rfl))
    simp only [Process.mainStep, hpc]
    refine h.enter item hnone ⟨hnone, .inr ⟨.inl hpc, item, hitem, rfl⟩⟩ rfl rfl rfl ?_ (.inr rfl)
    rw [← hitem, Function.update_eq_self]
  | create k =>
    rw [hpc] at hat
    obtain ⟨hk, hnone⟩ := hat
    obtain ⟨item, hitem, heq, -⟩ := hb.item_eq hk
    simp only [Process.mainStep, hpc, heq]
    split_ifs
    · exact h.create hpc hnone hitem
    · exact h.pass rfl rfl rfl rfl fun _ _ _ hitem => hitem
  | first pass =>
    cases pass with
    | reaping => simp [hpc, MainPc.reaping] at hreap
    | cleanup =>
      simp only [Process.mainStep, hpc]
      exact h.pass rfl rfl rfl rfl fun _ _ _ hitem => hitem
  | test pass _ | check pass _ _ | join pass _ _ | remove pass _ _ | free pass _ _ | advance pass _ _ =>
    cases pass with
    | reaping => simp [hpc, MainPc.reaping] at hreap
    | cleanup => simp [hpc] at hat
  | closeServer | exited => simp [hpc] at hat

/-! ### Steps of a thread -/

/-- A step of a running thread in the system, before the end. -/
theorem Apart.sysStep (h : s.Apart) {t : ℕ} (hs : s.handlers t = some .running) {env : Env}
    (hclose : (s.sys.threads t).pc ≠ .closeConnection) (hcomplete : (s.sys.threads t).pc ≠ .complete)
    (hopen : ∀ n, ((s.sys.threads t).pc = .writeOpen ∨ (s.sys.threads t).pc = .readOpen) ∧
      env.openFd = some n → s.socks n = none) :
    { s with sys := s.sys.threadStep t env }.Apart := by
  obtain ⟨th, hframe⟩ := s.sys.threadStep_frame t env
  have hother : ∀ u, u ≠ t → (s.sys.threadStep t env).threads u = s.sys.threads u := fun u hu => by
    rw [hframe.threads, Function.update_of_ne hu]
  refine ⟨h.owned.step (.thread t env), fun n hn => ?_, fun k fd hk => ?_, fun u stage hstage hu => ?_⟩
  · by_cases hf : s.sys.files n = none
    · exact hopen n ((System.threadStep_files hf t env).resolve_left hn)
    · exact h.disjoint n hf
  · refine h.sock k fd (hk.imp id fun ⟨hr, hth, hitem⟩ => ⟨hr, ?_, hitem⟩)
    by_cases hkt : k = t
    · exact hkt ▸ hcomplete
    · rwa [← hother k hkt]
  · have hut : u ≠ t := by
      rintro rfl
      exact hstage (Option.some.inj (hu.symm.trans hs))
    exact (congrArg Thread.pc (hother u hut)).trans (h.past u stage hstage hu)

/-- A thread that has closed its socket goes on to its end. -/
theorem Apart.setHandler (h : s.Apart) {t : ℕ} (hs : s.handlers t ≠ none)
    (hcomplete : (s.sys.threads t).pc = .complete) (item : ThreadData) (stage : Stage) :
    { s with
      items := Function.update s.items t (some item)
      handlers := Function.update s.handlers t (some stage) }.Apart := by
  refine { h with sock := fun k fd hk => ?_, past := fun u stage' hstage hu => ?_ }
  · by_cases hkt : k = t
    · subst hkt
      rcases hk with ⟨hnone, -⟩ | ⟨-, hth, -⟩
      · simp at hnone
      · exact absurd hcomplete hth
    · refine h.sock k fd ?_
      simpa only [Mine, Theirs, Function.update_of_ne hkt] using hk
  · by_cases hut : u = t
    · exact hut ▸ hcomplete
    · exact h.past u stage' hstage (by simpa [Function.update_of_ne hut] using hu)

/-- A descriptor of the device is no socket. -/
theorem Apart.closeSock_eq (h : s.Apart) {t : ℕ} (hopened : (s.sys.threads t).pc.opened) :
    (s.sys.threads t).fd.elim s s.closeSock = s := by
  cases hfd : (s.sys.threads t).fd with
  | none => rfl
  | some n =>
    obtain ⟨fPos, hfile⟩ := (h.owned.files t n).mpr ⟨hfd, .inl hopened⟩
    have hsock := h.disjoint n (by simp [hfile])
    simp only [Option.elim_some, closeSock, hsock, List.append_nil]
    rw [← hsock, Function.update_eq_self]

/-- The thread closes its socket, and nothing else. -/
theorem Apart.close_eq (h : s.Apart) {t : ℕ} (hs : s.handlers t = some .running) {item : ThreadData}
    (hitem : s.items t = some item) (hth : (s.sys.threads t).pc ≠ .complete) :
    s.sys.close (some item.connectionFd) = s.sys := by
  have hsock := h.sock t item.connectionFd (.inr ⟨hs, hth, item, hitem, rfl⟩)
  have hfile : s.sys.files item.connectionFd = none := by
    by_contra hf
    rw [h.disjoint _ hf] at hsock
    cases hsock
  rw [System.close, ← hfile, Function.update_eq_self]

theorem Apart.closeConnection (h : s.Apart) {t : ℕ} (hs : s.handlers t = some .running)
    {item : ThreadData} (hitem : s.items t = some item) (hpc : (s.sys.threads t).pc = .closeConnection)
    (cfg : Startup) (env : Env) :
    (s.threadStep cfg t env).Apart := by
  have hth : (s.sys.threads t).pc ≠ .complete := by simp [hpc]
  have hsock := h.sock t item.connectionFd (.inr ⟨hs, hth, item, hitem, rfl⟩)
  have hput : s.sys.threadStep t env = s.sys.put t { s.sys.threads t with pc := .complete } := by
    simp only [System.threadStep, hpc]
  simp only [Process.threadStep, hs, hitem, hpc, Process.close, h.close_eq hs hitem hth]
  refine ⟨h.owned.step (.thread t env), fun n hn => ?_, fun k fd hk => ?_, fun u stage hstage hu => ?_⟩
  · simp only [hput, System.put_files] at hn
    by_cases hnfd : n = item.connectionFd
    · simp [closeSock, hnfd]
    · simpa [closeSock, Function.update_of_ne hnfd] using h.disjoint n hn
  · -- another connection has another socket
    have hold : k ≠ t ∧ s.socks fd = some (.connection k) := by
      by_cases hkt : k = t
      · subst hkt
        rcases hk with ⟨hnone, -⟩ | ⟨-, hth', -⟩
        · simp [closeSock, hs] at hnone
        · simp [hput] at hth'
      · refine ⟨hkt, h.sock k fd (hk.imp id fun hk' => ⟨hk'.1, ?_, hk'.2.2⟩)⟩
        simpa [hput, Function.update_of_ne hkt] using hk'.2.1
    have hne : fd ≠ item.connectionFd := by
      rintro rfl
      rw [hsock] at hold
      exact hold.1 (Sock.connection.inj (Option.some.inj hold.2)).symm
    simpa [closeSock, Function.update_of_ne hne] using hold.2
  · have hut : u ≠ t := by
      rintro rfl
      exact hstage (Option.some.inj (hu.symm.trans hs))
    simpa [hput, Function.update_of_ne hut] using h.past u stage hstage hu

/-- A step of a thread keeps everything apart, and is a step of the system of threads. -/
theorem Apart.threadStep (h : s.Apart) (hb : s.Books l) (hex : s.pc ≠ .exited) (cfg : Startup)
    (t : ℕ) (env : Env) :
    (s.threadStep cfg t env).Apart ∧
      (s.threadStep cfg t env).sys = run System.step s.sys (s.sysLabels cfg (.thread t env)) := by
  rw [sysLabels, if_neg hex]
  cases hs : s.handlers t with
  | none =>
    simp only [Process.threadStep, hs]
    exact ⟨h, rfl⟩
  | some stage =>
    by_cases he : stage = .ended
    · subst he
      simp only [Process.threadStep, hs]
      exact ⟨h, rfl⟩
    obtain ⟨item, hitem⟩ := hb.hasItem t (by simp [hs]) (by simpa [hs] using he)
    cases stage with
    | ended => exact absurd rfl he
    | flagged =>
      have hset := h.setHandler (by simp [hs]) (h.past t .flagged (by simp) hs) item .ended
      rw [← hitem, Function.update_eq_self] at hset
      simp only [Process.threadStep, hs, hitem]
      exact ⟨hset, rfl⟩
    | running =>
      cases hpc : (s.sys.threads t).pc with
      | complete =>
        simp only [Process.threadStep, hs, hitem, hpc]
        exact ⟨h.setHandler (by simp [hs]) hpc _ .flagged, by simp⟩
      | closeConnection =>
        refine ⟨h.closeConnection hs hitem hpc cfg env, ?_⟩
        rw [if_pos ⟨rfl, by simp [hitem], by simp⟩, run_cons, run_nil, System.step,
          System.threadStep_closing (.inl hpc)]
        simp only [Process.threadStep, hs, hitem, hpc, h.close_eq hs hitem (by simp [hpc])]
      | writeClose | readClose =>
        have hfd := h.closeSock_eq (t := t) (by simp [hpc, Pc.opened])
        rw [if_pos ⟨rfl, by simp [hitem], by simp⟩, run_cons, run_nil, System.step,
          System.threadStep_closing (by simp [hpc])]
        simp only [Process.threadStep, hs, hitem, hpc, hfd, and_true]
        exact h.sysStep hs (by simp [hpc]) (by simp [hpc]) (by simp [hpc])
      | _ =>
        rw [threadStep_sys hs hitem env (by simp [hpc]) (by simp [hpc]) (by simp [hpc]) (by simp [hpc])]
        refine ⟨h.sysStep hs (by simp [hpc]) (by simp [hpc]) fun n ho => ?_, ?_⟩
        · obtain ⟨m, -, hlow⟩ := Option.bind_eq_some_iff.mp ho.2
          exact (lowestFree_eq_some hlow).2.1
        · simp [hitem, System.step]

/-! ### Signals -/

/-- A signal handler that closes the listening socket or nothing. -/
theorem Apart.signal (h : s.Apart) (hs : s.Harmless cfg) (catching : ℕ) :
    { s.close cfg.serverSock with catching := catching }.Apart ∧
      { s.close cfg.serverSock with catching := catching }.sys = s.sys := by
  have hsys : s.sys.close (some cfg.serverSock) = s.sys := by
    rw [System.close, ← hs.2, Function.update_eq_self]
  simp only [close, hsys, and_true]
  refine ⟨h.owned, fun n hn => ?_, fun k fd hk => ?_, h.past⟩
  · by_cases hns : n = cfg.serverSock
    · simp [closeSock, hns]
    · simpa [closeSock, Function.update_of_ne hns] using h.disjoint n hn
  · have hsock := h.sock k fd hk
    have hne : fd ≠ cfg.serverSock := by
      rintro rfl
      rcases hs.1 with hnone | hlistening
      · simp [hnone] at hsock
      · simp [hlistening] at hsock
    simpa [closeSock, Function.update_of_ne hne] using hsock

/-- The books are kept and the descriptors are apart, as long as `main` is in the accept
loop. -/
def Separate (s : Process) : Prop := s.Kept ∧ (s.pc.accepting → s.Apart)

theorem Separate.step (h : s.Separate) {a : ProcLabel} (ha : s.Graceful cfg a) :
    (s.step cfg a).Separate ∧ (s.step cfg a).sys = run System.step s.sys (s.sysLabels cfg a) := by
  obtain ⟨kept, todo, hb, hat⟩ := h.1 ha.1
  have hapart := h.2 ha.1
  have hex : s.pc ≠ .exited := fun hex => by simp [hex, MainPc.accepting, Graceful] at ha
  suffices (s.step cfg a).Apart ∧ (s.step cfg a).sys = run System.step s.sys (s.sysLabels cfg a) from
    ⟨⟨h.1.step a, fun _ => this.1⟩, this.2⟩
  cases a with
  | main env =>
    have hc : s.pc ≠ .closeServer := fun hc => by simp [hc, MainPc.accepting, Graceful] at ha
    rw [step_main hex, sysLabels, if_neg hex]
    exact ⟨hapart.mainStep hb hat cfg env, mainStep_sys cfg hc env⟩
  | thread t env =>
    rw [step_thread hex]
    exact hapart.threadStep hb hex cfg t env
  | signal =>
    rw [step_signal hex, sysLabels, if_neg hex]
    exact hapart.signal (ha.2 rfl) _
  | setTerminate =>
    rw [Process.step, if_neg hex, sysLabels, if_neg hex]
    dsimp only
    split_ifs
    · exact ⟨hapart, rfl⟩
    · exact ⟨{ hapart with owned := ⟨hapart.owned.mutex, hapart.owned.files, hapart.owned.going⟩ }, rfl⟩

theorem separate_initial (cfg : Startup) : (Process.initial cfg).Separate :=
  ⟨fun _ => ⟨[], [], books_initial cfg, trivial⟩, fun _ => apart_initial cfg⟩

/-- The connection threads take the steps of the system of threads alone. -/
theorem isPart_sys (cfg : Startup) :
    IsPart (Process.step cfg) System.step Process.sys (Process.sysLabels cfg)
      (Graceful cfg) Separate where
  keep _ _ h ha := (h.step ha).1
  part _ _ h ha := (h.step ha).2

/-- What a step shows to the outside. -/
def event (cfg : Startup) (s : Process) (a : ProcLabel) : List (Event ℕ) :=
  outputs System.step System.event s.sys (s.sysLabels cfg a)

/-- A step of a connection thread succeeds in full. -/
def Serves (cfg : Startup) (s : Process) (a : ProcLabel) : Prop :=
  s.Graceful cfg a ∧ Along System.step System.Succeeds s.sys (s.sysLabels cfg a)

instance (cfg : Startup) (s : Process) (a : ProcLabel) : Decidable (s.Serves cfg a) :=
  inferInstanceAs (Decidable (_ ∧ _))

theorem along_serves {s : Process} {as : List ProcLabel}
    (h : Along (Process.step cfg) (Serves cfg) s as) (hs : s.Separate) :
    Along (Process.step cfg) (Graceful cfg) s as ∧
      Along System.step System.Succeeds s.sys (outputs (Process.step cfg) (sysLabels cfg) s as) := by
  have hg : Along (Process.step cfg) (Graceful cfg) s as := h.mono fun _ _ ha => ha.1
  exact ⟨hg, ((isPart_sys cfg).along_iff _ hs hg).mpr (h.mono fun _ _ ha => ha.2)⟩

end Process

/-- In every run in which `main` is in its accept loop and a signal handler closes nothing
but the listening socket, whatever `accept`, `malloc` and `pthread_create` return: the
connection threads are in a state that the system of threads reaches alone, through the
same events; no file of the device has the descriptor of a socket, and every thread
that has not closed its socket yet still has it. -/
theorem server_refines_threads (cfg : Startup) (as : List ProcLabel)
    (has : Along (Process.step cfg) (Process.Graceful cfg) (.initial cfg) as) :
    let s := run (Process.step cfg) (.initial cfg) as
    let bs := outputs (Process.step cfg) (Process.sysLabels cfg) (.initial cfg) as
    s.sys = run System.step (.initial cfg.input) bs ∧
      outputs (Process.step cfg) (Process.event cfg) (.initial cfg) as = trace cfg.input bs ∧
      (s.pc.accepting → (∀ n, s.sys.files n ≠ none → s.socks n = none) ∧
        ∀ k fd, s.Theirs k fd → s.socks fd = some (.connection k)) := by
  intro s bs
  have hpart := Process.isPart_sys cfg
  have h0 := Process.separate_initial cfg
  refine ⟨hpart.run_eq h0 has, (hpart.outputs_eq System.event h0 has).symm, fun hacc => ?_⟩
  have hapart := (invariant hpart.keep h0 has).2 hacc
  exact ⟨hapart.disjoint, fun k fd hk => hapart.sock k fd (.inr hk)⟩

/-- A signal is delivered while a connection is served. -/
theorem server_refines_threads_signal :
    let as := List.replicate 11 mainOk ++ [threadOk 0, .signal, threadOk 0, .setTerminate, threadOk 0]
    let cfg := oneClient [.byte 97, .byte newline]
    (run (Process.step cfg) (.initial cfg) as).sys =
      run System.step (.initial cfg.input)
        (outputs (Process.step cfg) (Process.sysLabels cfg) (.initial cfg) as) :=
  (server_refines_threads (oneClient [.byte 97, .byte newline])
    (List.replicate 11 mainOk ++ [threadOk 0, .signal, threadOk 0, .setTerminate, threadOk 0])
    (by decide +kernel)).1

/-- The whole server: `main` with any outcome of `accept`, `malloc` and `pthread_create`,
its list of connections and any number of threads, all of whose calls succeed in full.
The clients send whole lines of at most 65535 bytes, and `should_terminate` is not set.
The lines that were written form one log, which holds the lines of each connection in
order, all of them with one reply to each once its thread has ended; a reply consists of
the last ten lines of the log as it was, the connection's own among the lines so far. -/
theorem server_replies_are_snapshots (cfg : Startup) (lines : ℕ → List (List UInt8))
    (h : SendsLines lines cfg.input) (as : List ProcLabel)
    (has : Along (Process.step cfg) (Process.Serves cfg) (.initial cfg) as) :
    let s := run (Process.step cfg) (.initial cfg) as
    let tr := outputs (Process.step cfg) (Process.event cfg) (.initial cfg) as
    (∀ t, linesOf t (log tr) <+: lines t ∧ (s.pc.accepting → s.handlers t = some .ended →
      linesOf t (log tr) = lines t ∧ (repliesOf t tr).length = (lines t).length)) ∧
    ∀ pre t bytes post, tr = pre ++ .replied t bytes :: post →
      bytes = (((log pre).map Prod.snd).rtake 10).flatten.map some ∧
      (repliesOf t pre).length < (lines t).length ∧
      linesOf t (log pre) = (lines t).take ((repliesOf t pre).length + 1) := by
  intro s tr
  have hpart := Process.isPart_sys cfg
  have h0 := Process.separate_initial cfg
  obtain ⟨hgraceful, hsucceeds⟩ := Process.along_serves has h0
  have hsys : s.sys = run System.step (.initial cfg.input) _ := hpart.run_eq h0 hgraceful
  have htr : tr = trace cfg.input
      (outputs (Process.step cfg) (Process.sysLabels cfg) (.initial cfg) as) :=
    (hpart.outputs_eq System.event h0 hgraceful).symm
  have hsynced := h.run_synced hsucceeds
  refine ⟨fun t => ?_, fun pre t bytes post hpre => h.reply_eq hsucceeds (htr ▸ hpre)⟩
  have hp := hsynced.progress t
  obtain ⟨todo, hl, -, hend⟩ := hp.split
  rw [htr]
  refine ⟨⟨_, by rw [hl, List.append_assoc]⟩, fun hacc hended => ?_⟩
  have hcomplete := ((invariant hpart.keep h0 hgraceful).2 hacc).past t .ended nofun hended
  rw [hsys] at hcomplete
  have hcount := hp.count
  simp only [Thread.pending, hcomplete, Pc.ahead, hend (.inr hcomplete), List.append_nil] at hl hcount
  exact ⟨hl.symm, by rw [hl, hcount]; rfl⟩

/-- Two clients with one line each. -/
def twoClients : Startup :=
  { oneClient [] with input := fun k => [.byte (if k = 0 then 97 else 98), .byte newline] }

/-- Both are connected, and their threads take turns. -/
def takeTurns : List ProcLabel :=
  List.replicate 24 mainOk ++ (List.replicate 44 [threadOk 0, threadOk 1]).flatten

theorem server_replies_are_snapshots_two_clients :
    let tr := outputs (Process.step twoClients) (Process.event twoClients) (.initial twoClients) takeTurns
    linesOf 0 (log tr) = [[97, newline]] ∧ linesOf 1 (log tr) = [[98, newline]] ∧
      ∀ pre bytes post, tr = pre ++ .replied 1 bytes :: post →
        bytes = (((log pre).map Prod.snd).rtake 10).flatten.map some := by
  intro tr
  have hlines : SendsLines (fun k => [[if k = 0 then 97 else 98, newline]]) twoClients.input := by
    refine ⟨fun k l hl => ?_, fun _ => rfl, fun k => by simp [twoClients, oneClient]⟩
    rw [List.mem_singleton.mp hl]
    refine ⟨⟨[if k = 0 then 97 else 98], newline, rfl, ?_, rfl⟩, by simp⟩
    split_ifs <;> decide
  have h := server_replies_are_snapshots twoClients _ hlines takeTurns (by decide +kernel)
  exact ⟨((h.1 0).2 (by decide +kernel) (by decide +kernel)).1,
    ((h.1 1).2 (by decide +kernel) (by decide +kernel)).1,
    fun pre bytes post hpre => (h.2 pre 1 bytes post hpre).1⟩

end Aesd.Server
