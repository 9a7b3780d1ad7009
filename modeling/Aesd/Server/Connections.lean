import Aesd.Server.Descriptors

/-! Who is responsible for an accepted socket. `main` has it from `accept` to
`pthread_create`, then the thread has it until it closes it. When an allocation
fails, `main` forgets the socket; when `pthread_create` fails, the element stays
in the list and nobody sets its `thread_complete`. -/

namespace Aesd.Server

open Run Driver

def ProcLabel.isSignal : ProcLabel → Bool
  | .signal => true
  | _ => false

namespace Process

/-- Every accepted socket is closed, once, or its thread was created and has not
closed it yet; and an element whose thread does not run will be removed by the
next pass. -/
structure ConnectionsOwned (s : Process) : Prop where
  sockets : ∀ k < s.accepted,
    (s.closed.count k = 1 ∧ ∀ n, s.socks n ≠ some (.connection k)) ∨
    (s.closed.count k = 0 ∧ s.handlers k = some .running ∧ (s.sys.threads k).pc ≠ .complete ∧
      ∃ item, s.items k = some item ∧ s.socks item.connectionFd = some (.connection k))
  items : ∃ l, s.list.Holds l ∧ ∀ n ∈ l, s.handlers n ≠ some .running →
    s.handlers n ≠ some .flagged → s.Complete n

/-- The allocations and `pthread_create` of the step succeed. -/
def spawns (s : Process) : ProcLabel → Bool
  | .main env =>
    match s.pc with
    | .initConnListItem _ _ => env.mallocItem && env.mallocNode
    | .create _ => env.create
    | _ => true
  | _ => true

/-- The step spawns a thread if it should, and a signal handler closes nothing but
the listening socket. -/
def Orderly (cfg : Startup) (s : Process) (a : ProcLabel) : Prop :=
  s.spawns a = true ∧ (a.isSignal = true → s.Harmless cfg)

instance (cfg : Startup) (s : Process) (a : ProcLabel) : Decidable (s.Orderly cfg a) :=
  inferInstanceAs (Decidable (_ ∧ (_ → _)))

/-- `main` still has the socket `fd` of connection `k`. -/
def Mine (s : Process) (k fd : ℕ) : Prop :=
  s.handlers k = none ∧ (s.pc = .initConnListItem k fd ∨
    (s.pc = .insertHead k ∨ s.pc = .create k) ∧ ∃ item, s.items k = some item ∧ item.connectionFd = fd)

/-- The thread of connection `k` has its socket `fd`. -/
def Theirs (s : Process) (k fd : ℕ) : Prop :=
  s.handlers k = some .running ∧ (s.sys.threads k).pc ≠ .complete ∧
    ∃ item, s.items k = some item ∧ item.connectionFd = fd

/-- The thread of connection `k` has closed its socket. -/
def PastClose (s : Process) (k : ℕ) : Prop :=
  s.handlers k = some .running ∧ (s.sys.threads k).pc = .complete ∨
    s.handlers k = some .flagged ∨ s.handlers k = some .ended

/-- Somebody is responsible for every socket that is open, and every other one was
closed once. -/
structure Owners (cfg : Startup) (s : Process) : Prop where
  owned : s.sys.Owned
  disjoint : ∀ n, s.sys.files n ≠ none → s.socks n = none
  unborn : ∀ t, s.handlers t = none → s.sys.threads t = .initial (cfg.input t)
  fresh : ∀ k, s.accepted ≤ k → s.closed.count k = 0 ∧ ∀ n, s.socks n ≠ some (.connection k)
  unique : ∀ n m k, s.socks n = some (.connection k) → s.socks m = some (.connection k) → n = m
  conn : ∀ k < s.accepted,
    (s.closed.count k = 0 ∧ ∃ fd, s.socks fd = some (.connection k) ∧ (s.Mine k fd ∨ s.Theirs k fd)) ∨
    (s.closed.count k = 1 ∧ (∀ n, s.socks n ≠ some (.connection k)) ∧ s.PastClose k)

variable {cfg : Startup} {s s' : Process} {l kept todo : List ℕ} {n : ℕ}

theorem owners_initial (cfg : Startup) : (Process.initial cfg).Owners cfg where
  owned := System.initial_owned _
  disjoint n hn := absurd rfl hn
  unborn _ _ := rfl
  fresh k _ := ⟨rfl, fun n => by
    simp only [initial]
    split_ifs <;> simp⟩
  unique n m k hn := by
    simp only [initial] at hn
    split_ifs at hn
    simp at hn
  conn k hk := absurd hk (Nat.not_lt_zero k)

/-- A step of `main` that changes nothing for the sockets. -/
theorem Owners.goto (h : s.Owners cfg) (hsys : s'.sys = s.sys) (hsocks : s'.socks = s.socks)
    (hclosed : s'.closed = s.closed) (haccepted : s'.accepted = s.accepted)
    (hhandlers : s'.handlers = s.handlers)
    (hitems : ∀ k item, s.handlers k = some .running → s.items k = some item →
      s'.items k = some item)
    (hmine : ∀ k fd, s.Mine k fd → s'.Mine k fd) : s'.Owners cfg where
  owned := hsys ▸ h.owned
  disjoint := by
    rw [hsys, hsocks]
    exact h.disjoint
  unborn := by
    rw [hsys, hhandlers]
    exact h.unborn
  fresh := by
    rw [haccepted, hclosed, hsocks]
    exact h.fresh
  unique := by
    rw [hsocks]
    exact h.unique
  conn k hk := by
    rw [haccepted] at hk
    rw [hclosed, hsocks]
    rcases h.conn k hk with ⟨hcount, fd, hfd, hm | ⟨hr, hpc, item, hitem, hconn⟩⟩ |
      ⟨hcount, hnone, hpast⟩
    · exact .inl ⟨hcount, fd, hfd, .inl (hmine k fd hm)⟩
    · refine .inl ⟨hcount, fd, hfd, .inr ⟨?_, ?_, item, hitems k item hr hitem, hconn⟩⟩
      · rw [hhandlers, hr]
      · rwa [hsys]
    · refine .inr ⟨hcount, hnone, ?_⟩
      rwa [PastClose, hhandlers, hsys]

/-! ### Steps of `main` -/

/-- The reaping pass leaves the running threads alone. -/
theorem Books.reaping_same (cfg : Startup) (h : s.Books l) (hat : s.At kept todo)
    (hreap : s.pc.reaping) (env : MainEnv) : (s.mainStep cfg env).handlers = s.handlers ∧
      ∀ k item, s.handlers k = some .running → s.items k = some item →
        (s.mainStep cfg env).items k = some item := by
  obtain ⟨pc, hpc, hreaps⟩ : ∃ pc, s.pc = pc ∧ pc.Reaps := ⟨_, rfl, MainPc.reaps hreap⟩
  cases hreaps with
  | test data =>
    cases data with
    | none =>
      simp only [Process.mainStep, hpc]
      exact ⟨trivial, fun _ _ _ hitem => hitem⟩
    | some data =>
      simp only [Process.mainStep, hpc]
      split <;> exact ⟨rfl, fun _ _ _ hitem => hitem⟩
  | check data tvar =>
    simp only [Process.mainStep, hpc]
    split <;> exact ⟨rfl, fun _ _ _ hitem => hitem⟩
  | join data tvar =>
    simp only [Process.mainStep, hpc]
    split
    · split_ifs <;> exact ⟨rfl, fun _ _ _ hitem => hitem⟩
    · exact ⟨rfl, fun _ _ _ hitem => hitem⟩
  | free n tvar =>
    rw [At, hpc] at hat
    have hended := h.joined_ended n (h.removed_joined n hat.1)
    simp only [Process.mainStep, hpc, h.freeConnListItem_eq (n := n) (by rw [hpc]; rfl)]
    refine ⟨trivial, fun k item hr hitem => ?_⟩
    have hkn : k ≠ n := fun hkn => by simp [hkn, hended] at hr
    simpa [Function.update_of_ne hkn] using hitem
  | advance data tvar =>
    simp only [Process.mainStep, hpc]
    exact ⟨trivial, fun _ _ _ hitem => hitem⟩
  | first | remove data tvar =>
    simp only [Process.mainStep, hpc]
    exact ⟨trivial, fun _ _ _ hitem => hitem⟩

/-- `accept` returns a new socket. -/
theorem Owners.accept (h : s.Owners cfg) (hb : s.Books l) (hpc : s.pc = .accept) {fd : ℕ}
    (hfd : s.lowestFree cfg = some fd) :
    { s with
      socks := Function.update s.socks fd (some (.connection s.accepted))
      accepted := s.accepted + 1
      pc := .initConnListItem s.accepted fd }.Owners cfg := by
  obtain ⟨-, hsock, hfile⟩ := lowestFree_eq_some hfd
  have hnone : s.handlers s.accepted = none :=
    hb.handlers_eq_none fun hin => lt_irrefl _ (hb.inserted_lt _ hin)
  have hold : ∀ m k, k ≠ s.accepted →
      (Function.update s.socks fd (some (Sock.connection s.accepted)) m = some (.connection k) ↔
        s.socks m = some (.connection k)) := fun m k hk => by
    by_cases hm : m = fd
    · subst hm
      simp [hsock, Ne.symm hk]
    · rw [Function.update_of_ne hm]
  have hnew : ∀ m, Function.update s.socks fd (some (Sock.connection s.accepted)) m =
      some (.connection s.accepted) ↔ m = fd := fun m => by
    by_cases hm : m = fd
    · simp [hm]
    · simp [hm, (h.fresh s.accepted le_rfl).2 m]
  refine { h with
    disjoint := fun m hm => ?_
    fresh := fun k hk => ?_
    unique := fun m m' k => ?_
    conn := fun k hk => ?_ }
  · have hne : m ≠ fd := by
      rintro rfl
      exact hm hfile
    exact (Function.update_of_ne hne _ _).trans (h.disjoint m hm)
  · obtain ⟨hcount, hsocks⟩ := h.fresh k (Nat.le_of_succ_le hk)
    exact ⟨hcount, fun m => (hold m k (Nat.ne_of_gt hk)).not.mpr (hsocks m)⟩
  · by_cases hk : k = s.accepted
    · subst hk
      intro hm hm'
      rw [(hnew m).mp hm, (hnew m').mp hm']
    · intro hm hm'
      exact h.unique m m' k ((hold m k hk).mp hm) ((hold m' k hk).mp hm')
  · rcases Nat.lt_succ_iff_lt_or_eq.mp hk with hk | rfl
    · have hne : k ≠ s.accepted := Nat.ne_of_lt hk
      rcases h.conn k hk with ⟨hcount, fd', hfd', hm | ht⟩ | ⟨hcount, hgone, hpast⟩
      · rcases hm with ⟨-, hm | ⟨hm | hm, -⟩⟩ <;> simp [hpc] at hm
      · exact .inl ⟨hcount, fd', (hold fd' k hne).mpr hfd', .inr ht⟩
      · exact .inr ⟨hcount, fun m => (hold m k hne).not.mpr (hgone m), hpast⟩
    · exact .inl ⟨(h.fresh _ le_rfl).1, fd, Function.update_self .., .inl ⟨hnone, .inl rfl⟩⟩

/-- `main` keeps the socket `fd` of connection `k` while it enters it in the
list. -/
theorem Owners.enter (h : s.Owners cfg) {k : ℕ} (item : ThreadData) (hnone : s.handlers k = none)
    (hmine : ∀ j fd, s.Mine j fd → j = k ∧ item.connectionFd = fd)
    (hsys : s'.sys = s.sys) (hsocks : s'.socks = s.socks) (hclosed : s'.closed = s.closed)
    (haccepted : s'.accepted = s.accepted) (hhandlers : s'.handlers = s.handlers)
    (hitems : s'.items = Function.update s.items k (some item))
    (hpc : s'.pc = .insertHead k ∨ s'.pc = .create k) : s'.Owners cfg := by
  refine h.goto hsys hsocks hclosed haccepted hhandlers (fun j it hr hit => ?_) fun j fd hm => ?_
  · have hjk : j ≠ k := fun hjk => by simp [hjk, hnone] at hr
    rw [hitems, Function.update_of_ne hjk, hit]
  · obtain ⟨rfl, hconn⟩ := hmine j fd hm
    refine ⟨by rw [hhandlers, hnone], .inr ⟨hpc, item, ?_, hconn⟩⟩
    rw [hitems, Function.update_self]

/-- `pthread_create` hands the socket to the thread. -/
theorem Owners.create (h : s.Owners cfg) {k : ℕ} {item : ThreadData} (hpc : s.pc = .create k)
    (hnone : s.handlers k = none) (hitem : s.items k = some item) :
    { s with
      items := Function.update s.items k (some { item with thread := some k })
      handlers := Function.update s.handlers k (some .running)
      pc := .first .reaping }.Owners cfg := by
  refine { h with unborn := fun t ht => ?_, conn := fun j hj => ?_ }
  · by_cases htk : t = k
    · simp [htk] at ht
    · exact h.unborn t (by simpa [Function.update_of_ne htk] using ht)
  · by_cases hjk : j = k
    · subst hjk
      rcases h.conn j hj with ⟨hcount, fd, hfd, ⟨-, hm | ⟨-, it, hit, hconn⟩⟩ | ⟨hr, -⟩⟩ | ⟨-, -, hpast⟩
      · simp [hpc] at hm
      · obtain rfl : item = it := Option.some.inj (hitem.symm.trans hit)
        refine .inl ⟨hcount, fd, hfd, .inr ⟨Function.update_self .., ?_, _,
          Function.update_self .., hconn⟩⟩
        change (s.sys.threads j).pc ≠ .complete
        rw [h.unborn j hnone]
        simp [Thread.initial]
      · simp [hnone] at hr
      · simp [PastClose, hnone] at hpast
    · have hh : Function.update s.handlers k (some Stage.running) j = s.handlers j :=
        Function.update_of_ne hjk _ _
      rcases h.conn j hj with ⟨hcount, fd, hfd, ⟨-, hm | ⟨hm | hm, -⟩⟩ | ⟨hr, hth, it, hit, hconn⟩⟩ |
        ⟨hcount, hgone, hpast⟩
      · simp [hpc] at hm
      · simp [hpc] at hm
      · simp [hpc, Ne.symm hjk] at hm
      · exact .inl ⟨hcount, fd, hfd, .inr ⟨hh.trans hr, hth, it,
          (Function.update_of_ne hjk _ _).trans hit, hconn⟩⟩
      · refine .inr ⟨hcount, hgone, ?_⟩
        simp only [PastClose, hh]
        exact hpast

/-- A step of `main` in which no allocation and no `pthread_create` fails. -/
theorem Owners.mainStep (h : s.Owners cfg) (hb : s.Books (kept ++ todo)) (hat : s.At kept todo)
    {env : MainEnv} (hspawn : s.spawns (.main env)) (hnext : (s.mainStep cfg env).pc.accepting) :
    (s.mainStep cfg env).Owners cfg := by
  by_cases hreap : s.pc.reaping
  · obtain ⟨hsocks, hsys, hclosed, haccepted⟩ := mainStep_same cfg (s := s)
      (fun hpc => by simp [hpc, MainPc.reaping] at hreap)
      (fun hpc => by simp [hpc, MainPc.reaping] at hreap) env
    obtain ⟨hhandlers, hitems⟩ := hb.reaping_same cfg hat hreap env
    refine h.goto hsys hsocks hclosed haccepted hhandlers hitems ?_
    rintro k fd ⟨-, hpc | ⟨hpc | hpc, -⟩⟩ <;> simp [hpc, MainPc.reaping] at hreap
  rw [At] at hat
  rw [spawns] at hspawn
  cases hpc : s.pc with
  | loopTest =>
    simp only [Process.mainStep, hpc]
    exact h.goto rfl rfl rfl rfl rfl (fun _ _ _ hitem => hitem) (by simp [Mine, hpc])
  | accept =>
    simp only [Process.mainStep, hpc]
    cases ho : (if env.accept then s.lowestFree cfg else none) with
    | none => exact h.goto rfl rfl rfl rfl rfl (fun _ _ _ hitem => hitem) (by simp [Mine, hpc])
    | some fd =>
      have hfd : s.lowestFree cfg = some fd := by
        split_ifs at ho
        exact ho
      exact h.accept hb hpc hfd
  | initConnListItem k fd =>
    rw [hpc] at hat hspawn
    have hnone : s.handlers k = none := hb.handlers_eq_none hat.2
    simp only [Process.mainStep, hpc, show (env.mallocItem && env.mallocNode) = true from hspawn,
      if_true]
    refine h.enter _ hnone (fun j fd' hm => ?_) rfl rfl rfl rfl rfl rfl (.inl rfl)
    simpa [Mine, hpc, hnone, eq_comm] using hm.2
  | insertHead k =>
    rw [hpc] at hat
    have hnone : s.handlers k = none := hb.handlers_eq_none hat.2
    obtain ⟨item, hitem, -⟩ := hb.item k (.inr (by rw [hpc]; rfl))
    simp only [Process.mainStep, hpc]
    refine h.enter item hnone (fun j fd' hm => ?_) rfl rfl rfl rfl rfl ?_ (.inr rfl)
    · obtain ⟨-, hm | ⟨hm | hm, it, hit, hconn⟩⟩ := hm
      · simp [hpc] at hm
      · obtain rfl : k = j := by simpa [hpc] using hm
        rw [hitem] at hit
        exact ⟨rfl, Option.some.inj hit ▸ hconn⟩
      · simp [hpc] at hm
    · rw [← hitem, Function.update_eq_self]
  | create k =>
    rw [hpc] at hat hspawn
    obtain ⟨hk, hnone⟩ := hat
    obtain ⟨item, hitem, heq, -⟩ := hb.item_eq hk
    simp only [Process.mainStep, hpc, heq, show env.create = true from hspawn, if_true]
    exact h.create hpc hnone hitem
  | first pass =>
    cases pass with
    | reaping => simp [hpc, MainPc.reaping] at hreap
    | cleanup => simp [Process.mainStep, hpc, MainPc.accepting] at hnext
  | test pass _ | check pass _ _ | join pass _ _ | remove pass _ _ | free pass _ _ | advance pass _ _ =>
    cases pass with
    | reaping => simp [hpc, MainPc.reaping] at hreap
    | cleanup => simp [hpc] at hat
  | closeServer | exited => simp [hpc] at hat

/-! ### Steps of a thread -/

/-- A step of a running thread in the system, before the end. -/
theorem Owners.sysStep (h : s.Owners cfg) {t : ℕ} (hs : s.handlers t = some .running) {env : Env}
    (hclose : (s.sys.threads t).pc ≠ .closeConnection) (hcomplete : (s.sys.threads t).pc ≠ .complete)
    (hopen : ∀ n, ((s.sys.threads t).pc = .writeOpen ∨ (s.sys.threads t).pc = .readOpen) ∧
      env.openFd = some n → s.socks n = none) :
    { s with sys := s.sys.threadStep t env }.Owners cfg := by
  obtain ⟨th, hframe⟩ := s.sys.threadStep_frame t env
  have hother : ∀ u, u ≠ t → (s.sys.threadStep t env).threads u = s.sys.threads u := fun u hu => by
    rw [hframe.threads, Function.update_of_ne hu]
  refine { h with
    owned := h.owned.step (.thread t env)
    disjoint := fun n hn => ?_
    unborn := fun u hu => ?_
    conn := fun k hk => ?_ }
  · by_cases hf : s.sys.files n = none
    · exact hopen n ((System.threadStep_files hf t env).resolve_left hn)
    · exact h.disjoint n hf
  · have hut : u ≠ t := fun hut => by simp [hut, hs] at hu
    exact (hother u hut).trans (h.unborn u hu)
  · by_cases hkt : k = t
    · subst hkt
      rcases h.conn k hk with ⟨hcount, fd, hfd, ⟨hm, -⟩ | ⟨hr, -, hitem⟩⟩ | ⟨-, -, hpast⟩
      · simp [hs] at hm
      · refine .inl ⟨hcount, fd, hfd, .inr ⟨hr, fun hc => ?_, hitem⟩⟩
        exact (System.threadStep_complete hc).elim hclose hcomplete
      · simp [PastClose, hs, hcomplete] at hpast
    · rcases h.conn k hk with ⟨hcount, fd, hfd, hm | ⟨hr, hth, hitem⟩⟩ | ⟨hcount, hgone, hpast⟩
      · exact .inl ⟨hcount, fd, hfd, .inl hm⟩
      · exact .inl ⟨hcount, fd, hfd, .inr ⟨hr, by rwa [hother k hkt], hitem⟩⟩
      · refine .inr ⟨hcount, hgone, ?_⟩
        rwa [PastClose, hother k hkt]

/-- A thread that has closed its socket goes on to its end. -/
theorem Owners.setHandler (h : s.Owners cfg) {t : ℕ} (hpast : s.PastClose t) (item : ThreadData)
    {stage : Stage} (hstage : stage = .flagged ∨ stage = .ended) :
    { s with
      items := Function.update s.items t (some item)
      handlers := Function.update s.handlers t (some stage) }.Owners cfg := by
  refine { h with unborn := fun u hu => ?_, conn := fun k hk => ?_ }
  · have hut : u ≠ t := fun hut => by simp [hut] at hu
    exact h.unborn u (by simpa [Function.update_of_ne hut] using hu)
  · by_cases hkt : k = t
    · subst hkt
      rcases h.conn k hk with ⟨-, fd, -, ⟨hm, -⟩ | ⟨hr, hth, -⟩⟩ | ⟨hcount, hgone, -⟩
      · simp [PastClose, hm] at hpast
      · simp [PastClose, hr, hth] at hpast
      · refine .inr ⟨hcount, hgone, .inr ?_⟩
        simpa using hstage
    · have hh : Function.update s.handlers t (some stage) k = s.handlers k :=
        Function.update_of_ne hkt _ _
      have hi : Function.update s.items t (some item) k = s.items k := Function.update_of_ne hkt _ _
      simp only [Mine, Theirs, PastClose, hh, hi]
      exact h.conn k hk

/-- The thread closes its socket. -/
theorem Owners.closeConnection (h : s.Owners cfg) {t : ℕ} (hlt : t < s.accepted)
    (hs : s.handlers t = some .running) {item : ThreadData} (hitem : s.items t = some item)
    (hpc : (s.sys.threads t).pc = .closeConnection) (env : Env) :
    (s.threadStep cfg t env).Owners cfg := by
  obtain ⟨hcount, fd, hfd, hitem'⟩ : s.closed.count t = 0 ∧
      ∃ fd, s.socks fd = some (.connection t) ∧ item.connectionFd = fd := by
    rcases h.conn t hlt with ⟨hcount, fd, hfd, ⟨hm, -⟩ | ⟨-, -, it, hit, hconn⟩⟩ | ⟨-, -, hpast⟩
    · simp [hs] at hm
    · obtain rfl : item = it := Option.some.inj (hitem.symm.trans hit)
      exact ⟨hcount, fd, hfd, hconn⟩
    · simp [PastClose, hs, hpc] at hpast
  have hfile : s.sys.files fd = none := by
    by_contra hf
    simp [h.disjoint fd hf] at hfd
  have hsys : s.sys.close (some fd) = s.sys := by
    rw [System.close, ← hfile, Function.update_eq_self]
  have hstep : s.threadStep cfg t env = { s with
      socks := Function.update s.socks fd none
      sys := s.sys.threadStep t env
      closed := s.closed ++ [t] } := by
    simp only [threadStep, hs, hitem, hpc, hitem', hsys, close, closeSock, hfd]
  have hput : s.sys.threadStep t env = s.sys.put t { s.sys.threads t with pc := .complete } := by
    simp only [System.threadStep, hpc]
  have hsocks : ∀ n k, Function.update s.socks fd none n = some (.connection k) ↔
      s.socks n = some (.connection k) ∧ k ≠ t := fun n k => by
    by_cases hn : n = fd
    · subst hn
      simp [hfd, eq_comm]
    · rw [Function.update_of_ne hn]
      refine ⟨fun hk => ⟨hk, ?_⟩, And.left⟩
      rintro rfl
      exact hn (h.unique n fd k hk hfd)
  have hcounts : ∀ k, k ≠ t → (s.closed ++ [t]).count k = s.closed.count k := fun k hk => by
    simp [List.count_append, Ne.symm hk]
  rw [hstep]
  refine ⟨h.owned.step (.thread t env), fun n hn => ?_, fun u hu => ?_, fun k hk => ?_,
    fun n m k hn hm => ?_, fun k hk => ?_⟩
  · simp only [hput, System.put_files] at hn
    by_cases hnfd : n = fd
    · simp [hnfd]
    · simpa [Function.update_of_ne hnfd] using h.disjoint n hn
  · have hut : u ≠ t := fun hut => by simp [hut, hs] at hu
    simp only [hput, System.put_threads, Function.update_of_ne hut]
    exact h.unborn u hu
  · obtain ⟨hcount', hnone⟩ := h.fresh k hk
    have hkt : k ≠ t := (hlt.trans_le hk).ne'
    exact ⟨(hcounts k hkt).trans hcount', fun n hn => hnone n ((hsocks n k).mp hn).1⟩
  · exact h.unique n m k ((hsocks n k).mp hn).1 ((hsocks m k).mp hm).1
  · by_cases hkt : k = t
    · subst hkt
      refine .inr ⟨?_, fun n hn => ((hsocks n k).mp hn).2 rfl, .inl ⟨hs, ?_⟩⟩
      · simp [List.count_append, hcount]
      · simp [hput]
    · have hth : (s.sys.threadStep t env).threads k = s.sys.threads k := by
        simp [hput, Function.update_of_ne hkt]
      rcases h.conn k hk with ⟨hcount', fd', hfd', hown⟩ | ⟨hcount', hgone, hpast⟩
      · refine .inl ⟨(hcounts k hkt).trans hcount', fd', (hsocks fd' k).mpr ⟨hfd', hkt⟩, ?_⟩
        simpa only [Mine, Theirs, hth] using hown
      · refine .inr ⟨(hcounts k hkt).trans hcount', fun n hn => hgone n ((hsocks n k).mp hn).1, ?_⟩
        simpa only [PastClose, hth] using hpast

theorem Owners.threadStep (h : s.Owners cfg) (hb : s.Books l) (t : ℕ) (env : Env) :
    (s.threadStep cfg t env).Owners cfg := by
  cases hs : s.handlers t with
  | none =>
    rw [Process.threadStep, hs]
    exact h
  | some stage =>
    by_cases he : stage = .ended
    · rw [Process.threadStep, hs, he]
      exact h
    obtain ⟨item, hitem⟩ := hb.hasItem t (by simp [hs]) (by simpa [hs] using he)
    cases stage with
    | ended => exact absurd rfl he
    | flagged =>
      have hset := h.setHandler (.inr (.inl hs)) item
        (.inr rfl : Stage.ended = .flagged ∨ Stage.ended = .ended)
      rw [← hitem, Function.update_eq_self] at hset
      simpa only [Process.threadStep, hs, hitem] using hset
    | running =>
      cases hpc : (s.sys.threads t).pc with
      | closeConnection =>
        have hlt := hb.inserted_lt t (hb.created t (by simp [hs]))
        exact h.closeConnection hlt hs hitem hpc env
      | complete =>
        simp only [Process.threadStep, hs, hitem, hpc]
        exact h.setHandler (.inl ⟨hs, hpc⟩) _ (.inl rfl)
      | writeClose | readClose =>
        -- the descriptor is a file of the device, so no socket is closed
        have hfd : (s.sys.threads t).fd.elim s s.closeSock = s := by
          cases hfd : (s.sys.threads t).fd with
          | none => rfl
          | some n =>
            obtain ⟨fPos, hfile⟩ := (h.owned.files t n).mpr ⟨hfd, .inl (by simp [hpc, Pc.opened])⟩
            have hsock := h.disjoint n (by simp [hfile])
            simp only [Option.elim_some, closeSock, hsock, List.append_nil]
            rw [← hsock, Function.update_eq_self]
        simp only [Process.threadStep, hs, hitem, hpc, hfd]
        exact h.sysStep hs (by simp [hpc]) (by simp [hpc]) (by simp [hpc])
      | _ =>
        rw [threadStep_sys hs hitem env (by simp [hpc]) (by simp [hpc]) (by simp [hpc]) (by simp [hpc])]
        refine h.sysStep hs (by simp [hpc]) (by simp [hpc]) fun n ho => ?_
        obtain ⟨m, -, hlow⟩ := Option.bind_eq_some_iff.mp ho.2
        exact (lowestFree_eq_some hlow).2.1

/-- A signal handler that closes the listening socket or nothing. -/
theorem Owners.signal (h : s.Owners cfg) (hs : s.Harmless cfg) (catching : ℕ) :
    { s.close cfg.serverSock with catching := catching }.Owners cfg := by
  have hsys : s.sys.close (some cfg.serverSock) = s.sys := by
    rw [System.close, ← hs.2, Function.update_eq_self]
  have hsocks : ∀ n k, Function.update s.socks cfg.serverSock none n = some (.connection k) ↔
      s.socks n = some (.connection k) := fun n k => by
    by_cases hn : n = cfg.serverSock
    · rcases hs.1 with hs | hs <;> simp [hn, hs]
    · rw [Function.update_of_ne hn]
  have hclosed : (s.closeSock cfg.serverSock).closed = s.closed := by
    rcases hs.1 with hs | hs <;> simp [closeSock, hs]
  simp only [close, hsys]
  refine { h with
    disjoint := fun n hn => ?_
    fresh := fun k hk => ?_
    unique := fun n m k hn hm => h.unique n m k ((hsocks n k).mp hn) ((hsocks m k).mp hm)
    conn := fun k hk => ?_ }
  · by_cases hns : n = cfg.serverSock
    · simp [closeSock, hns]
    · simpa [closeSock, Function.update_of_ne hns] using h.disjoint n hn
  · rw [hclosed]
    exact ⟨(h.fresh k hk).1, fun n => (hsocks n k).not.mpr ((h.fresh k hk).2 n)⟩
  · rw [hclosed]
    rcases h.conn k hk with ⟨hcount, fd, hfd, hown⟩ | ⟨hcount, hgone, hpast⟩
    · exact .inl ⟨hcount, fd, (hsocks fd k).mpr hfd, hown⟩
    · exact .inr ⟨hcount, fun n => (hsocks n k).not.mpr (hgone n), hpast⟩

/-! ### Runs -/

/-- The books and the sockets, as long as `main` is in the accept loop. -/
def Responsible (cfg : Startup) (s : Process) : Prop := s.Kept ∧ (s.pc.accepting → s.Owners cfg)

theorem Responsible.step (h : s.Responsible cfg) {a : ProcLabel} (ha : s.Orderly cfg a) :
    (s.step cfg a).Responsible cfg := by
  refine ⟨h.1.step a, ?_⟩
  by_cases hex : s.pc = .exited
  · rw [step_exited hex]
    exact h.2
  intro hacc
  cases a with
  | main env =>
    rw [step_main hex] at hacc ⊢
    have hacc' := accepting_of_mainStep hacc
    obtain ⟨kept, todo, hbooks, hat⟩ := h.1 hacc'
    exact (h.2 hacc').mainStep hbooks hat ha.1 hacc
  | thread t env =>
    rw [step_thread hex] at hacc ⊢
    rw [(threadStep_main ..).1] at hacc
    obtain ⟨kept, todo, hbooks, -⟩ := h.1 hacc
    exact (h.2 hacc).threadStep hbooks t env
  | signal =>
    rw [step_signal hex] at hacc ⊢
    exact (h.2 hacc).signal (ha.2 rfl) _
  | setTerminate =>
    obtain ⟨catching, flag, hstep⟩ := s.step_setTerminate cfg
    rw [hstep] at hacc ⊢
    have howners := h.2 hacc
    exact { howners with owned := ⟨howners.owned.mutex, howners.owned.files, howners.owned.going⟩ }

theorem run_responsible {as : List ProcLabel}
    (h : Along (Process.step cfg) (Orderly cfg) (.initial cfg) as) :
    (run (Process.step cfg) (.initial cfg) as).Responsible cfg :=
  invariant (fun _ _ hs ha => hs.step ha)
    ⟨fun _ => ⟨[], [], books_initial cfg, trivial⟩, fun _ => owners_initial cfg⟩ h

/-- Before `accept`, `main` is responsible for no socket. -/
theorem Responsible.connectionsOwned (h : s.Responsible cfg) (hpc : s.pc = .accept) :
    s.ConnectionsOwned := by
  have hacc : s.pc.accepting := by rw [hpc]; rfl
  obtain ⟨kept, todo, hbooks, -⟩ := h.1 hacc
  have howners := h.2 hacc
  have hmine : ∀ k fd, ¬ s.Mine k fd := by simp [Mine, hpc]
  refine ⟨fun k hk => ?_, kept ++ todo, hbooks.holds, fun n hn hr hf => ?_⟩
  · rcases howners.conn k hk with ⟨hcount, fd, hfd, hm | ⟨hr, hth, item, hitem, rfl⟩⟩ |
      ⟨hcount, hgone, -⟩
    · exact absurd hm (hmine k fd)
    · exact .inr ⟨hcount, hr, hth, item, hitem, hfd⟩
    · exact .inl ⟨hcount, hgone⟩
  · obtain ⟨item, hitem, hok⟩ := hbooks.item n (.inl hn)
    refine ⟨item, hitem, hok.complete_iff.mpr ?_⟩
    have hlt := hbooks.inserted_lt n (hbooks.mem_iff.mp hn).1
    rcases howners.conn n hlt with ⟨-, fd, -, hm | ⟨hr', -⟩⟩ | ⟨-, -, ⟨hr', -⟩ | hpast⟩
    · exact absurd hm (hmine n fd)
    · exact absurd hr' hr
    · exact absurd hr' hr
    · exact hpast

end Process

/-- In every run of the accept loop, with any accepted connections and any
interleaving with the threads, in which no allocation and no `pthread_create`
fails, and no signal handler closes something else than the listening socket:
whenever `main` is about to call `accept`, every socket that it ever got is
closed, once, or its thread has still to close it, and every element of the list
whose thread does not run is complete. -/
theorem connections_owned (cfg : Startup) (as : List ProcLabel)
    (h : Along (Process.step cfg) (Process.Orderly cfg) (.initial cfg) as) :
    ∀ before, before <+: as → (run (Process.step cfg) (.initial cfg) before).pc = .accept →
      (run (Process.step cfg) (.initial cfg) before).ConnectionsOwned :=
  fun _ hb hpc => (Process.run_responsible (h.shorten hb)).connectionsOwned hpc

/-- Two clients: the first has gone and its element is removed, the second is still
connected. -/
theorem connections_owned_two_clients :
    (run (Process.step (oneClient [])) (.initial (oneClient []))
      (shortConnections ++ List.replicate 12 mainOk)).ConnectionsOwned :=
  connections_owned (oneClient []) (shortConnections ++ List.replicate 12 mainOk) (by decide +kernel) _
    List.prefix_rfl (by decide +kernel)

/-- The first allocation for the first client fails: nobody has its socket. -/
theorem connections_owned_fails :
    ¬ ∀ (cfg : Startup) (as : List ProcLabel), (∀ a ∈ as, a.isSignal = false) →
      ∀ before, before <+: as → (run (Process.step cfg) (.initial cfg) before).pc = .accept →
        (run (Process.step cfg) (.initial cfg) before).ConnectionsOwned := by
  intro h
  have howned := h (oneClient [])
    ([mainOk, mainOk, .main ⟨true, false, true, true⟩] ++ List.replicate 3 mainOk) (by decide +kernel) _
    List.prefix_rfl (by decide +kernel)
  rcases howned.sockets 0 (by decide +kernel) with ⟨hcount, -⟩ | ⟨-, hrunning, -⟩
  · exact absurd hcount (by decide +kernel)
  · exact absurd hrunning (by decide +kernel)

end Aesd.Server
