import Aesd.Server.Cleanup
import Aesd.Server.Descriptors

/-! `main` up to its accept loop, in the build for the character device: the options,
the daemon, the signal handlers, the socket. One step is one call; a signal may come
between any two of them, and as there is only one thread yet, the handler then runs
to its end. What stands in the way of the loop is an exit status. The accept loop
begins with the descriptors that the model of the process begins with, and when a
signal has come before, it ends before it has accepted anything. The descriptor that
`syslog` may open for itself is left out. -/

namespace Aesd.Server

open Run

/-! ### Options -/

/-- The option letters of an argument; `-` alone is no option. -/
def optionLetters : List Char → List Char
  | '-' :: c :: cs => c :: cs
  | _ => []

/-- The loop over `getopt(argc, argv, "d")`, from `run_as_daemon` on, with the order of
glibc: arguments that are no options are passed over, and `--` ends the options. `none`
is the usage message. With `POSIXLY_CORRECT` in the environment the options would end at
the first such argument; this is left out. -/
def getopt : List (List Char) → Bool → Option Bool
  | [], runAsDaemon => some runAsDaemon
  | arg :: args, runAsDaemon =>
    if arg = ['-', '-'] then some runAsDaemon
    else if (optionLetters arg).all (· = 'd') then
      getopt args (runAsDaemon || !(optionLetters arg).isEmpty)
    else none

/-! ### The process before the loop -/

/-- What a descriptor refers to. -/
inductive File where
  | inherited (n : ℕ)
  | devNull
  | listening
  deriving DecidableEq

inductive BootPc where
  | getopt
  | fork
  | setsid
  | chdir
  | openNull
  | dupStdin (null : Option ℕ)
  | dupStdout
  | dupStderr
  | signalTerm
  | signalInt
  | socket
  | setsockopt
  | bind
  | listen
  -- behind a failed `bind` or `listen`
  | closeServer
  | acceptLoop
  | exited (status : ℕ)
  | killed
  deriving DecidableEq

inductive Fork where
  | failed
  | parent
  | child
  deriving DecidableEq

/-- Whether the call of the step succeeds. -/
structure BootEnv where
  fork : Fork
  ok : Bool

/-- `signal` is a SIGTERM or a SIGINT. -/
inductive BootLabel where
  | main (env : BootEnv)
  | signal (term : Bool)

/-- `serverSock` is `none` for -1. `closed` lists what every `close(server_sock)` has
closed. -/
structure Boot where
  pc : BootPc
  args : List (List Char)
  nofile : ℕ
  fds : ℕ → Option File
  catchTerm : Bool
  catchInt : Bool
  serverSock : Option ℕ
  shouldTerminate : Bool
  closed : List (Option File)

namespace Boot

/-- `open` are the descriptors the program is started with. -/
def initial (args : List (List Char)) (nofile : ℕ) (isOpen : ℕ → Bool) : Boot where
  pc := .getopt
  args := args
  nofile := nofile
  fds n := if isOpen n then some (.inherited n) else none
  catchTerm := false
  catchInt := false
  serverSock := none
  shouldTerminate := false
  closed := []

def lowestFree (s : Boot) : Option ℕ := (List.range s.nofile).find? fun n => (s.fds n).isNone

/-- `dup2` fails without an open file at the old number, or with a new one too large. -/
def dup2 (s : Boot) (oldFd : Option ℕ) (newFd : ℕ) : Boot :=
  match oldFd.bind s.fds with
  | none => s
  | some f => if newFd < s.nofile then { s with fds := Function.update s.fds newFd (some f) } else s

def closeServerSock (s : Boot) : Boot :=
  match s.serverSock with
  | none => s
  | some n => { s with fds := Function.update s.fds n none, closed := s.closed ++ [s.fds n] }

/-- A call on `server_sock` that needs the socket. -/
def listening (s : Boot) : Bool := s.serverSock.bind s.fds == some .listening

def mainStep (s : Boot) (env : BootEnv) : Boot :=
  match s.pc with
  | .getopt =>
    match Server.getopt s.args false with
    | none => { s with pc := .exited 1 }
    | some runAsDaemon => { s with pc := if runAsDaemon then .fork else .signalTerm }
  | .fork =>
    match env.fork with
    | .failed => { s with pc := .exited 1 }
    | .parent => { s with pc := .exited 0 }
    | .child => { s with pc := .setsid }
  | .setsid => { s with pc := if env.ok then .chdir else .exited 1 }
  | .chdir => { s with pc := if env.ok then .openNull else .exited 1 }
  | .openNull =>
    match if env.ok then s.lowestFree else none with
    | none => { s with pc := .dupStdin none }
    | some n => { s with fds := Function.update s.fds n (some .devNull), pc := .dupStdin (some n) }
  -- the results of `open` and `dup2` are not tested
  | .dupStdin null => { if env.ok then s.dup2 null 0 else s with pc := .dupStdout }
  | .dupStdout => { if env.ok then s.dup2 (some 0) 1 else s with pc := .dupStderr }
  | .dupStderr => { if env.ok then s.dup2 (some 1) 2 else s with pc := .signalTerm }
  | .signalTerm =>
    if env.ok then { s with catchTerm := true, pc := .signalInt } else { s with pc := .exited 1 }
  | .signalInt =>
    if env.ok then { s with catchInt := true, pc := .socket } else { s with pc := .exited 1 }
  | .socket =>
    match if env.ok then s.lowestFree else none with
    | none => { s with pc := .exited 1 }
    | some n => { s with
        fds := Function.update s.fds n (some .listening)
        serverSock := some n
        pc := .setsockopt }
  -- a failure is only logged
  | .setsockopt => { s with pc := .bind }
  | .bind => { s with pc := if env.ok && s.listening then .listen else .closeServer }
  | .listen => { s with pc := if env.ok && s.listening then .acceptLoop else .closeServer }
  -- a socket that cannot be bound is no failure of the program
  | .closeServer => { s.closeServerSock with pc := .exited 0 }
  | .acceptLoop | .exited _ | .killed => s

/-- `signal_handler`, or the default action. -/
def signalStep (s : Boot) (term : Bool) : Boot :=
  match s.pc with
  | .exited _ | .killed => s
  | _ =>
    if (if term then s.catchTerm else s.catchInt) then { s.closeServerSock with shouldTerminate := true }
    else { s with pc := .killed }

def step (s : Boot) : BootLabel → Boot
  | .main env => s.mainStep env
  | .signal term => s.signalStep term

end Boot

/-! ### Options, as a whole -/

/-- The option letters before a `--`. -/
def letters (args : List (List Char)) : List Char :=
  (args.takeWhile (· ≠ ['-', '-'])).flatMap optionLetters

theorem getopt_eq (args : List (List Char)) (runAsDaemon : Bool) :
    getopt args runAsDaemon =
      if (letters args).all (· = 'd') then some (runAsDaemon || !(letters args).isEmpty) else none := by
  induction args generalizing runAsDaemon with
  | nil => simp [getopt, letters]
  | cons arg args ih =>
    rw [getopt]
    by_cases hend : arg = ['-', '-']
    · simp [hend, letters]
    · have hletters : letters (arg :: args) = optionLetters arg ++ letters args := by
        simp [letters, hend]
      rw [if_neg hend, ih, hletters, List.all_append]
      by_cases harg : (optionLetters arg).all (· = 'd')
      · by_cases hrest : (letters args).all (· = 'd')
        · simp only [harg, hrest, if_true, Bool.and_self]
          cases optionLetters arg <;> simp
        · simp [harg, hrest]
      · simp [harg]

/-! ### The invariant -/

/-- Up to the call of `socket`. -/
def BootPc.early : BootPc → Bool
  | .getopt | .fork | .setsid | .chdir | .openNull | .dupStdin _ | .dupStdout | .dupStderr | .signalTerm
  | .signalInt | .socket => true
  | _ => false

/-- From the call of `socket` to the accept loop. -/
def BootPc.late : BootPc → Bool
  | .setsockopt | .bind | .listen | .closeServer | .acceptLoop => true
  | _ => false

/-- `server_sock` is the lowest number that was free, and refers to the listening
socket or, once it has been closed, to nothing. -/
structure Boot.SockOk (s : Boot) (n : ℕ) : Prop where
  lt : n < s.nofile
  lowest : ∀ m < n, s.fds m ≠ none
  only : ∀ m, s.fds m = some .listening → m = n
  file : s.fds n = some .listening ∨ s.fds n = none
  shut : s.fds n = none → s.shouldTerminate = true ∨ s.pc = .exited 0

structure Boot.Ok (s : Boot) : Prop where
  early : s.pc.early = true → s.serverSock = none
  late : s.pc.late = true → s.serverSock ≠ none
  unset : s.serverSock = none → ∀ n, s.fds n ≠ some .listening
  sock : ∀ n, s.serverSock = some n → s.SockOk n
  closed : ∀ f ∈ s.closed, f = none ∨ f = some .listening
  daemon : s.pc = .fork → Server.getopt s.args false = some true
  status : ∀ status, s.pc = .exited status →
    status = 1 ∧ s.serverSock = none ∨
    status = 0 ∧ (s.serverSock = none → Server.getopt s.args false = some true) ∧
      ∀ n, s.fds n ≠ some .listening

namespace Boot

theorem initial_ok (args : List (List Char)) (nofile : ℕ) (isOpen : ℕ → Bool) :
    (initial args nofile isOpen).Ok where
  early _ := rfl
  late h := by cases h
  unset _ n := by
    simp only [initial]
    split_ifs <;> simp
  sock n h := by cases h
  closed f h := by cases h
  daemon h := by cases h
  status _ h := by cases h

theorem lowestFree_eq_some {s : Boot} {n : ℕ} (h : s.lowestFree = some n) :
    n < s.nofile ∧ s.fds n = none ∧ ∀ m < n, s.fds m ≠ none := by
  rw [lowestFree, List.find?_range_eq_some] at h
  obtain ⟨hfree, hlt, hlow⟩ := h
  exact ⟨List.mem_range.mp hlt, by simpa using hfree,
    fun m hm => by simpa [Option.isSome_iff_ne_none] using hlow m hm⟩

/-- A step that goes on before the socket, and opens no listening one. -/
theorem Ok.early_step {s s' : Boot} (h : s.Ok) (hpc : s.pc.early = true) (hpc' : s'.pc.early = true)
    (hsock : s'.serverSock = s.serverSock) (hclosed : s'.closed = s.closed)
    (hfds : (∀ n, s.fds n ≠ some .listening) → ∀ n, s'.fds n ≠ some .listening)
    (hdaemon : s'.pc = .fork → Server.getopt s'.args false = some true) : s'.Ok where
  early _ := hsock.trans (h.early hpc)
  late hl := by cases hp : s'.pc <;> simp [hp, BootPc.early, BootPc.late] at hpc' hl
  unset _ := hfds (h.unset (h.early hpc))
  sock n hn := by
    rw [hsock, h.early hpc] at hn
    cases hn
  closed := by
    rw [hclosed]
    exact h.closed
  daemon := hdaemon
  status st hst := by simp [hst, BootPc.early] at hpc'

/-- The program ends before it has a socket. -/
theorem Ok.early_exit {s : Boot} (h : s.Ok) (hpc : s.pc.early = true) {status : ℕ}
    (hstatus : status = 1 ∨ status = 0 ∧ Server.getopt s.args false = some true) :
    ({ s with pc := .exited status } : Boot).Ok where
  early _ := h.early hpc
  late hl := by cases hl
  unset := h.unset
  sock n hn := by
    rw [show s.serverSock = none from h.early hpc] at hn
    cases hn
  closed := h.closed
  daemon hd := by cases hd
  status st hst := by
    obtain rfl := BootPc.exited.inj hst
    rcases hstatus with rfl | ⟨rfl, hd⟩
    · exact .inl ⟨rfl, h.early hpc⟩
    · exact .inr ⟨rfl, fun _ => hd, h.unset (h.early hpc)⟩

/-- A step that goes on with the socket. -/
theorem Ok.late_step {s : Boot} (h : s.Ok) (hpc : s.pc.late = true) {pc : BootPc}
    (hpc' : pc.late = true) :
    ({ s with pc := pc } : Boot).Ok where
  early he := by cases pc <;> simp [BootPc.early, BootPc.late] at he hpc'
  late _ := h.late hpc
  unset := h.unset
  sock n hn := by
    have hs := h.sock n hn
    refine ⟨hs.lt, hs.lowest, hs.only, hs.file, fun hnone => .inl ?_⟩
    refine (hs.shut hnone).resolve_right fun hex => ?_
    simp [hex, BootPc.late] at hpc
  closed := h.closed
  daemon hd := by simp [show pc = .fork from hd, BootPc.late] at hpc'
  status st hst := by simp [show pc = .exited st from hst, BootPc.late] at hpc'

/-- Closing `server_sock` leaves the other descriptors alone. -/
theorem Ok.closeServerSock {s : Boot} (h : s.Ok) :
    s.closeServerSock.serverSock = s.serverSock ∧ s.closeServerSock.pc = s.pc ∧
      s.closeServerSock.args = s.args ∧ s.closeServerSock.nofile = s.nofile ∧
      (∀ m, s.closeServerSock.fds m ≠ some .listening) ∧
      (∀ m, s.serverSock ≠ some m → s.closeServerSock.fds m = s.fds m) ∧
      (∀ n, s.serverSock = some n → s.closeServerSock.fds n = none) ∧
      ∀ f ∈ s.closeServerSock.closed, f = none ∨ f = some .listening := by
  cases hsock : s.serverSock with
  | none => simpa [Boot.closeServerSock, hsock] using ⟨h.unset hsock, h.closed⟩
  | some n =>
    have hs := h.sock n hsock
    simp only [Boot.closeServerSock, hsock]
    refine ⟨trivial, trivial, trivial, trivial, fun m => ?_, fun m hm => ?_, fun m hm => ?_,
      fun f hf => ?_⟩
    · by_cases hm : m = n
      · simp [hm]
      · rw [Function.update_of_ne hm]
        exact fun hl => hm (hs.only m hl)
    · exact Function.update_of_ne (fun he => hm (congrArg some he.symm)) _ _
    · rw [← Option.some.inj hm, Function.update_self]
    · rcases List.mem_append.mp hf with hf | hf
      · exact h.closed f hf
      · rw [List.mem_singleton.mp hf]
        exact hs.file.symm

theorem Ok.signal {s : Boot} (h : s.Ok) (hpc : ∀ status, s.pc ≠ .exited status) :
    ({ s.closeServerSock with shouldTerminate := true } : Boot).Ok := by
  obtain ⟨hsock, hpc', hargs, hnofile, hnone, hother, hclosed, hlist⟩ := h.closeServerSock
  refine ⟨?_, ?_, fun _ => hnone, fun n hn => ?_, hlist, ?_, fun st hst => ?_⟩
  · change s.closeServerSock.pc.early = true → s.closeServerSock.serverSock = none
    rw [hpc', hsock]
    exact h.early
  · change s.closeServerSock.pc.late = true → s.closeServerSock.serverSock ≠ none
    rw [hpc', hsock]
    exact h.late
  · have hn' : s.serverSock = some n := hsock.symm.trans hn
    have hs := h.sock n hn'
    refine ⟨?_, fun m hm => ?_, fun m hm => absurd hm (hnone m), .inr (hclosed n hn'), fun _ => .inl rfl⟩
    · change n < s.closeServerSock.nofile
      rw [hnofile]
      exact hs.lt
    · change s.closeServerSock.fds m ≠ none
      rw [hother m fun he => by rw [hn'] at he; exact hm.ne (Option.some.inj he).symm]
      exact hs.lowest m hm
  · change s.closeServerSock.pc = .fork → Server.getopt s.closeServerSock.args false = some true
    rw [hpc', hargs]
    exact h.daemon
  · change s.closeServerSock.pc = .exited st at hst
    rw [hpc'] at hst
    exact absurd hst (hpc st)

theorem Ok.killed {s : Boot} (h : s.Ok) (hpc : ∀ status, s.pc ≠ .exited status) :
    ({ s with pc := .killed } : Boot).Ok where
  early he := by cases he
  late hl := by cases hl
  unset := h.unset
  sock n hn := by
    have hs := h.sock n hn
    exact ⟨hs.lt, hs.lowest, hs.only, hs.file, fun hnone => .inl ((hs.shut hnone).resolve_right (hpc 0))⟩
  closed := h.closed
  daemon hd := by cases hd
  status st hst := by cases hst

theorem Ok.socket {s : Boot} (h : s.Ok) (hpc : s.pc = .socket) {n : ℕ} (hn : s.lowestFree = some n) :
    ({ s with
      fds := Function.update s.fds n (some .listening)
      serverSock := some n
      pc := .setsockopt } : Boot).Ok := by
  obtain ⟨hlt, hfree, hlow⟩ := lowestFree_eq_some hn
  have hnone := h.unset (h.early (by rw [hpc]; rfl))
  constructor
  case early => exact fun he => by cases he
  case late => exact fun _ => Option.some_ne_none n
  case unset => exact fun he => by cases he
  case sock =>
    intro m hm
    obtain rfl := Option.some.inj hm
    refine ⟨hlt, fun m hm => ?_, fun m hm => ?_, .inl (Function.update_self ..), fun he => ?_⟩
    · simpa [Function.update_of_ne hm.ne] using hlow m hm
    · by_contra hne
      exact hnone m (by simpa [Function.update_of_ne hne] using hm)
    · simp at he
  case closed => exact h.closed
  case daemon => exact fun he => by cases he
  case status => exact fun st hst => by cases hst

/-- Giving up behind a failed `bind` or `listen`. -/
theorem Ok.giveUp {s : Boot} (h : s.Ok) (hpc : s.pc = .closeServer) :
    ({ s.closeServerSock with pc := .exited 0 } : Boot).Ok := by
  obtain ⟨hsock, -, hargs, hnofile, hnone, hother, hclosed, hlist⟩ := h.closeServerSock
  have hlate : s.serverSock ≠ none := h.late (by rw [hpc]; rfl)
  constructor
  case early => exact fun he => by cases he
  case late => exact fun he => by cases he
  case unset => exact fun _ => hnone
  case sock =>
    intro n hn
    have hn' : s.serverSock = some n := hsock.symm.trans hn
    have hs := h.sock n hn'
    refine ⟨hnofile.symm ▸ hs.lt, fun m hm => ?_, fun m hm => absurd hm (hnone m), .inr (hclosed n hn'),
      fun _ => .inr rfl⟩
    change s.closeServerSock.fds m ≠ none
    rw [hother m fun he => hm.ne (Option.some.inj (he.symm.trans hn'))]
    exact hs.lowest m hm
  case closed => exact hlist
  case daemon => exact fun he => by cases he
  case status =>
    intro st hst
    obtain rfl := BootPc.exited.inj hst
    exact .inr ⟨rfl, fun he => absurd (hsock.symm.trans he) hlate, hnone⟩

theorem dup2_spec (s : Boot) (oldFd : Option ℕ) (newFd : ℕ) :
    (s.dup2 oldFd newFd).serverSock = s.serverSock ∧ (s.dup2 oldFd newFd).closed = s.closed ∧
      ∀ n f, (s.dup2 oldFd newFd).fds n = some f → ∃ m, s.fds m = some f := by
  unfold dup2
  cases hf : oldFd.bind s.fds with
  | none => exact ⟨rfl, rfl, fun n f hn => ⟨n, hn⟩⟩
  | some f =>
    obtain ⟨m, -, hm⟩ := Option.bind_eq_some_iff.mp hf
    dsimp only
    split_ifs
    · refine ⟨rfl, rfl, fun n g hn => ?_⟩
      by_cases hne : n = newFd
      · exact ⟨m, hm.trans (by simpa [hne] using hn)⟩
      · exact ⟨n, by simpa [Function.update_of_ne hne] using hn⟩
    · exact ⟨rfl, rfl, fun n g hn => ⟨n, hn⟩⟩

/-- A `dup2` of the daemon. -/
theorem Ok.dup {s : Boot} (h : s.Ok) (hpc : s.pc.early = true) {pc : BootPc} (hpc' : pc.early = true)
    (hfork : pc ≠ .fork) (ok : Bool) (oldFd : Option ℕ) (newFd : ℕ) :
    ({ if ok then s.dup2 oldFd newFd else s with pc := pc } : Boot).Ok := by
  obtain ⟨hsock, hclosed, hfds⟩ := s.dup2_spec oldFd newFd
  split_ifs
  · refine h.early_step hpc hpc' hsock hclosed (fun hnone n hn => ?_) fun he => absurd he hfork
    obtain ⟨m, hm⟩ := hfds n _ hn
    exact hnone m hm
  · exact h.early_step hpc hpc' rfl rfl id fun he => absurd he hfork

theorem Ok.step {s : Boot} (h : s.Ok) (a : BootLabel) : (s.step a).Ok := by
  cases a with
  | signal term =>
    rw [Boot.step, signalStep]
    split
    · exact h
    · exact h
    · next hexit _ =>
      split_ifs
      · exact h.signal hexit
      · exact h.killed hexit
      · exact h.signal hexit
      · exact h.killed hexit
  | main env =>
    rw [Boot.step, mainStep]
    cases hpc : s.pc with
    | acceptLoop | exited _ | killed => exact h
    | getopt =>
      dsimp only
      cases hopt : Server.getopt s.args false with
      | none => exact h.early_exit (by rw [hpc]; rfl) (.inl rfl)
      | some runAsDaemon =>
        refine h.early_step (by rw [hpc]; rfl) ?_ rfl rfl id fun hfork => ?_
        · cases runAsDaemon <;> rfl
        · cases runAsDaemon with
          | false => cases hfork
          | true => exact hopt
    | fork =>
      dsimp only
      cases env.fork with
      | failed => exact h.early_exit (by rw [hpc]; rfl) (.inl rfl)
      | parent => exact h.early_exit (by rw [hpc]; rfl) (.inr ⟨rfl, h.daemon hpc⟩)
      | child => exact h.early_step (by rw [hpc]; rfl) rfl rfl rfl id fun hfork => by cases hfork
    | setsid | chdir =>
      dsimp only
      split_ifs
      · exact h.early_step (by rw [hpc]; rfl) rfl rfl rfl id fun hfork => by cases hfork
      · exact h.early_exit (by rw [hpc]; rfl) (.inl rfl)
    | openNull =>
      dsimp only
      split
      · exact h.early_step (by rw [hpc]; rfl) rfl rfl rfl id fun hfork => by cases hfork
      · next n _ =>
        refine h.early_step (by rw [hpc]; rfl) rfl rfl rfl (fun hnone m => ?_) fun hfork => by cases hfork
        by_cases hm : m = n
        · simp [hm]
        · simpa [Function.update_of_ne hm] using hnone m
    | dupStdin null => exact h.dup (by rw [hpc]; rfl) rfl (by simp) env.ok null 0
    | dupStdout => exact h.dup (by rw [hpc]; rfl) rfl (by simp) env.ok (some 0) 1
    | dupStderr => exact h.dup (by rw [hpc]; rfl) rfl (by simp) env.ok (some 1) 2
    | signalTerm | signalInt =>
      dsimp only
      split_ifs
      · exact h.early_step (by rw [hpc]; rfl) rfl rfl rfl id fun hfork => by cases hfork
      · exact h.early_exit (by rw [hpc]; rfl) (.inl rfl)
    | socket =>
      dsimp only
      cases hfd : (if env.ok then s.lowestFree else none) with
      | none => exact h.early_exit (by rw [hpc]; rfl) (.inl rfl)
      | some n =>
        split_ifs at hfd
        exact h.socket hpc hfd
    | setsockopt => exact h.late_step (by rw [hpc]; rfl) rfl
    | bind | listen =>
      dsimp only
      split_ifs
      · exact h.late_step (by rw [hpc]; rfl) rfl
      · exact h.late_step (by rw [hpc]; rfl) rfl
    | closeServer => exact h.giveUp hpc

/-- The arguments and the limit stay the same, and an open descriptor that is not
`server_sock` stays open. -/
structure Frame (s s' : Boot) : Prop where
  args : s'.args = s.args
  nofile : s'.nofile = s.nofile
  keeps : ∀ m, s.fds m ≠ none ∧ s.serverSock ≠ some m → s'.fds m ≠ none ∧ s'.serverSock ≠ some m

theorem Frame.refl (s : Boot) : s.Frame s := ⟨rfl, rfl, fun _ => id⟩

theorem frame_closeServerSock (s : Boot) : s.Frame s.closeServerSock := by
  rw [closeServerSock]
  cases hsock : s.serverSock with
  | none => exact .refl s
  | some n =>
    refine ⟨rfl, rfl, fun m ⟨hopen, hne⟩ => ?_⟩
    have hm : m ≠ n := fun he => hne (by rw [hsock, he])
    simpa [Function.update_of_ne hm, hsock, Ne.symm hm] using hopen

/-- A file is opened at the number `n`. -/
theorem frame_update (s : Boot) (n : ℕ) (f : File) (pc : BootPc) :
    s.Frame { s with fds := Function.update s.fds n (some f), pc := pc } := by
  refine ⟨rfl, rfl, fun m ⟨hopen, hne⟩ => ⟨?_, hne⟩⟩
  by_cases hm : m = n
  · simp [hm]
  · simpa [Function.update_of_ne hm] using hopen

theorem frame_dup2 (s : Boot) (ok : Bool) (oldFd : Option ℕ) (newFd : ℕ) (pc : BootPc) :
    s.Frame { if ok then s.dup2 oldFd newFd else s with pc := pc } := by
  split_ifs
  · rw [dup2]
    split
    · exact ⟨rfl, rfl, fun _ => id⟩
    · split_ifs
      · exact s.frame_update ..
      · exact ⟨rfl, rfl, fun _ => id⟩
  · exact ⟨rfl, rfl, fun _ => id⟩

theorem frame_step (s : Boot) (a : BootLabel) : s.Frame (s.step a) := by
  have hclose (pc : BootPc) (flag : Bool) :
      s.Frame { s.closeServerSock with shouldTerminate := flag, pc := pc } :=
    ⟨s.frame_closeServerSock.args, s.frame_closeServerSock.nofile, s.frame_closeServerSock.keeps⟩
  cases a with
  | signal term =>
    rw [step, signalStep]
    split
    · exact .refl s
    · exact .refl s
    · split_ifs
      · exact hclose ..
      · exact ⟨rfl, rfl, fun _ => id⟩
      · exact hclose ..
      · exact ⟨rfl, rfl, fun _ => id⟩
  | main env =>
    rw [step, mainStep]
    cases hpc : s.pc with
    | dupStdin null => exact s.frame_dup2 env.ok null 0 _
    | dupStdout => exact s.frame_dup2 env.ok (some 0) 1 _
    | dupStderr => exact s.frame_dup2 env.ok (some 1) 2 _
    | closeServer => exact hclose _ s.closeServerSock.shouldTerminate
    | openNull =>
      dsimp only
      split
      · exact ⟨rfl, rfl, fun _ => id⟩
      · exact s.frame_update ..
    | socket =>
      dsimp only
      cases hfd : (if env.ok then s.lowestFree else none) with
      | none => exact ⟨rfl, rfl, fun _ => id⟩
      | some n =>
        -- the number of the socket was free
        split_ifs at hfd
        refine ⟨rfl, rfl, fun m hm => ⟨((s.frame_update n .listening s.pc).keeps m hm).1, fun he => ?_⟩⟩
        obtain rfl : n = m := Option.some.inj he
        exact hm.1 (lowestFree_eq_some hfd).2.1
    | getopt | fork =>
      dsimp only
      split <;> exact ⟨rfl, rfl, fun _ => id⟩
    | signalTerm | signalInt =>
      dsimp only
      split_ifs <;> exact ⟨rfl, rfl, fun _ => id⟩
    | _ => exact ⟨rfl, rfl, fun _ => id⟩

/-- What holds in every run: the invariant, with everything as it was that the program
has been started with. -/
theorem run_ok (args : List (List Char)) (nofile : ℕ) (isOpen : ℕ → Bool) (as : List BootLabel) :
    let s := run step (initial args nofile isOpen) as
    s.Ok ∧ s.args = args ∧ s.nofile = nofile ∧
      ∀ m, isOpen m = true → s.fds m ≠ none ∧ s.serverSock ≠ some m :=
  invariant_of_step (I := fun s : Boot => s.Ok ∧ s.args = args ∧ s.nofile = nofile ∧
      ∀ m, isOpen m = true → s.fds m ≠ none ∧ s.serverSock ≠ some m)
    (fun s a ⟨hok, hargs, hnofile, hopen⟩ =>
      have hframe := s.frame_step a
      ⟨hok.step a, hframe.args.trans hargs, hframe.nofile.trans hnofile,
        fun m hm => hframe.keeps m (hopen m hm)⟩)
    ⟨initial_ok args nofile isOpen, rfl, rfl, fun m hm => by simp [initial, hm]⟩ as

/-- What the accept loop starts with. -/
def startup (s : Boot) (input : ℕ → List SockRead) {n : ℕ} (h : s.SockOk n) : Startup where
  input := input
  nofile := s.nofile
  inherited m := (s.fds m).isSome && decide (m ≠ n)
  serverSock := n
  serverSock_lt := h.lt
  serverSock_free := by simp
  serverSock_lowest m hm := by simp [Option.isSome_iff_ne_none, h.lowest m hm, hm.ne]

/-- The process that enters the accept loop: the one of the model, or what the two
statements of the handler have made of it; only the flag is set when the last signal
came before the socket. -/
def process (s : Boot) (cfg : Startup) : Process :=
  if s.shouldTerminate = false then .initial cfg
  else if s.fds cfg.serverSock = none then
    run (Process.step cfg) (.initial cfg) [.signal, .setTerminate]
  else { Process.initial cfg with sys := { (Process.initial cfg).sys with shouldTerminate := true } }

theorem Ok.process {s : Boot} (h : s.Ok) (hpc : s.pc = .acceptLoop) (input : ℕ → List SockRead) {n : ℕ}
    (hn : s.serverSock = some n) :
    let cfg := s.startup input (h.sock n hn)
    let p := s.process cfg
    p.pc = .loopTest ∧ p.sys.shouldTerminate = s.shouldTerminate ∧
      ∀ m, p.isFree cfg m = (s.fds m).isNone ∧
        p.socks m = if s.fds m = some .listening then some .listening else none := by
  intro cfg p
  have hs := h.sock n hn
  have hother : ∀ m, m ≠ n → s.fds m ≠ some .listening := fun m hm hl => hm (hs.only m hl)
  have hp : p = if s.shouldTerminate = false then .initial cfg
      else if s.fds n = none then run (Process.step cfg) (.initial cfg) [.signal, .setTerminate]
      else { Process.initial cfg with
        sys := { (Process.initial cfg).sys with shouldTerminate := true } } := rfl
  rcases hs.file with hfile | hnone
  · -- the socket is open
    have hsys : ∃ flag, p = { Process.initial cfg with
        sys := { (Process.initial cfg).sys with shouldTerminate := flag } } ∧
          flag = s.shouldTerminate := by
      rw [hp, hfile]
      cases hflag : s.shouldTerminate with
      | false => exact ⟨false, by simp [Process.initial, System.initial], rfl⟩
      | true => exact ⟨true, by simp, rfl⟩
    obtain ⟨flag, hp, hflag⟩ := hsys
    rw [hp]
    refine ⟨rfl, hflag, fun m => ?_⟩
    by_cases hm : m = n
    · subst hm
      simp [Process.isFree, Process.initial, cfg, Boot.startup, hfile]
    · cases hf : s.fds m with
      | none => simp [Process.isFree, Process.initial, cfg, Boot.startup, System.initial, hm, hf]
      | some f =>
        have := hother m hm
        rw [hf] at this
        simp [Process.isFree, Process.initial, cfg, Boot.startup, hm, hf, this]
  · -- a signal has closed it
    have hterm : s.shouldTerminate = true :=
      (hs.shut hnone).resolve_right fun he => BootPc.noConfusion (hpc.symm.trans he)
    rw [if_neg (by rw [hterm]; decide), if_pos hnone] at hp
    rw [hp, hterm]
    refine ⟨rfl, rfl, fun m => ?_⟩
    by_cases hm : m = n
    · subst hm
      simp [Process.step, Process.isFree, Process.initial, Process.close, Process.closeSock, System.close,
        System.initial, cfg, Boot.startup, hnone]
    · have := hother m hm
      cases hf : s.fds m <;> simp_all [Process.step, Process.isFree, Process.initial, Process.close,
        Process.closeSock, System.close, System.initial, cfg, Boot.startup]

end Boot

/-! ### A signal before the loop -/

/-- The way of `main` to its end when the flag is set and there is no connection, with
the number of statements that are left. -/
inductive MainPc.Leaving : MainPc → ℕ → Prop
  | loopTest : Leaving .loopTest 4
  | first : Leaving (.first .cleanup) 3
  | test : Leaving (.test .cleanup none) 2
  | closeServer : Leaving .closeServer 1
  | exited : Leaving .exited 0

theorem MainPc.Leaving.eq_exited {pc : MainPc} (h : pc.Leaving 0) : pc = .exited := by
  cases h
  rfl

/-- The flag is set before anything was accepted, and `k` statements are left. -/
structure Process.Leaving (cfg : Startup) (s : Process) (k : ℕ) : Prop where
  pc : s.pc.Leaving k
  flag : s.sys.shouldTerminate = true
  accepted : s.accepted = 0
  first : s.list.lhFirst = none
  handlers : ∀ t, s.handlers t = none
  socks : ∀ m, s.socks m ≠ none → m = cfg.serverSock ∧ 0 < k

theorem Process.Leaving.close {cfg : Startup} {s : Process} {k k' : ℕ} (h : s.Leaving cfg k)
    {pc : MainPc} (hpc : pc.Leaving k') (catching : ℕ) :
    Leaving cfg { s.close cfg.serverSock with catching := catching, pc := pc } k' where
  pc := hpc
  flag := h.flag
  accepted := h.accepted
  first := h.first
  handlers := h.handlers
  socks m hm := by
    by_cases hmc : m = cfg.serverSock
    · simp [Process.close, closeSock, hmc] at hm
    · exact absurd (h.socks m (by simpa [Process.close, closeSock, hmc] using hm)).1 hmc

/-- Only `main` takes steps, and every one brings it nearer to the end. -/
theorem Process.Leaving.step {cfg : Startup} {s : Process} {k : ℕ} (h : s.Leaving cfg k)
    (a : ProcLabel) : (s.step cfg a).Leaving cfg (k - if a.isMain then 1 else 0) := by
  by_cases hex : s.pc = .exited
  · have hk : k = 0 := by
      have hpc := h.pc
      rw [hex] at hpc
      cases hpc
      rfl
    rw [step_exited hex, hk, Nat.zero_sub]
    exact hk ▸ h
  cases a with
  | main env =>
    rw [step_main hex]
    have hpc := h.pc
    generalize hspc : s.pc = pc at hpc
    have hgo : ∀ {pc' : MainPc}, pc'.Leaving (k - 1) → 0 < k - 1 →
        Leaving cfg { s with pc := pc' } (k - 1) := fun hpc' hk =>
      ⟨hpc', h.flag, h.accepted, h.first, h.handlers, fun m hm => ⟨(h.socks m hm).1, hk⟩⟩
    simp only [ProcLabel.isMain, if_true]
    cases hpc with
    | loopTest => simpa [mainStep, hspc, h.flag] using hgo .first (by decide)
    | first => simpa [mainStep, hspc, h.first] using hgo .test (by decide)
    | test => simpa [mainStep, hspc] using hgo .closeServer (by decide)
    | closeServer =>
      rw [mainStep, hspc]
      exact h.close .exited s.catching
    | exited => exact absurd hspc hex
  | thread t env =>
    rw [step_thread hex]
    simpa [threadStep, h.handlers t, ProcLabel.isMain] using h
  | signal =>
    rw [step_signal hex]
    exact h.close h.pc (s.catching + 1)
  | setTerminate =>
    simp only [Process.step, if_neg hex, ProcLabel.isMain, Bool.false_eq_true, if_false, Nat.sub_zero]
    split_ifs
    · exact h
    · exact ⟨h.pc, rfl, h.accepted, h.first, h.handlers, h.socks⟩

theorem Process.Leaving.run {cfg : Startup} {s : Process} {k : ℕ} (h : s.Leaving cfg k)
    (bs : List ProcLabel) :
    (Run.run (Process.step cfg) s bs).Leaving cfg (k - bs.countP ProcLabel.isMain) := by
  induction bs using List.reverseRecOn with
  | nil => exact h
  | append_singleton bs b ih =>
    rw [run_concat, List.countP_append, ← Nat.sub_sub, List.countP_singleton]
    exact ih.step b

theorem Boot.process_leaving {s : Boot} (cfg : Startup) (h : s.shouldTerminate = true) :
    (s.process cfg).Leaving cfg 4 := by
  rw [Boot.process, if_neg (by simp [h])]
  have hsocks : ∀ m, (Process.initial cfg).socks m ≠ none → m = cfg.serverSock ∧ 0 < 4 := fun m hm => by
    by_contra hne
    exact hm (if_neg fun he => hne ⟨he, by decide⟩)
  split_ifs
  · have hopen : ({ (Process.initial cfg) with
        sys := { (Process.initial cfg).sys with shouldTerminate := true } } : Process).Leaving cfg 4 :=
      ⟨.loopTest, rfl, rfl, rfl, fun _ => rfl, hsocks⟩
    exact hopen.close .loopTest 0
  · exact ⟨.loopTest, rfl, rfl, rfl, fun _ => rfl, hsocks⟩

/-! ### Runs -/

/-- Whatever arguments and open descriptors the program is started with, whatever its
calls return and whenever signals come: when it reaches the accept loop, the process
is one of the three of `Boot.process`, with the same flag and the same descriptors.
`server_sock` is the lowest number that was free, what the program was started with is
still open, and the socket is listening unless a signal has closed it. When the flag is set, also by a
signal that came before the socket, `main` accepts nothing any more: after four
statements it has closed the socket and returned, whatever else happens. -/
theorem boot_starts_process (args : List (List Char)) (nofile : ℕ) (isOpen : ℕ → Bool)
    (as : List BootLabel) (input : ℕ → List SockRead)
    (hloop : (run Boot.step (.initial args nofile isOpen) as).pc = .acceptLoop) :
    let s := run Boot.step (.initial args nofile isOpen) as
    ∃ cfg : Startup, cfg.input = input ∧ cfg.nofile = nofile ∧ s.serverSock = some cfg.serverSock ∧
      let p := s.process cfg
      p.pc = .loopTest ∧ p.sys.shouldTerminate = s.shouldTerminate ∧
        (∀ m, p.isFree cfg m = (s.fds m).isNone ∧
          p.socks m = if s.fds m = some .listening then some .listening else none) ∧
        (∀ m, isOpen m = true → s.fds m ≠ none) ∧
        (s.fds cfg.serverSock = some .listening ∨
          s.fds cfg.serverSock = none ∧ s.shouldTerminate = true) ∧
        (s.shouldTerminate = true → ∀ bs, (run (Process.step cfg) p bs).accepted = 0 ∧
          (4 ≤ bs.countP ProcLabel.isMain → (run (Process.step cfg) p bs).pc = .exited ∧
            ∀ m, (run (Process.step cfg) p bs).socks m = none)) := by
  intro s
  obtain ⟨hok, -, hnofile, hopen⟩ := Boot.run_ok args nofile isOpen as
  obtain ⟨n, hn⟩ := Option.ne_none_iff_exists'.mp (hok.late (by rw [hloop]; rfl))
  have hs : s.SockOk n := hok.sock n hn
  have hexit : s.pc ≠ .exited 0 := fun he => BootPc.noConfusion (hloop.symm.trans he)
  obtain ⟨hpc, hflag, hfds⟩ := hok.process hloop input hn
  refine ⟨s.startup input hs, rfl, hnofile, hn, hpc, hflag, hfds,
    fun m hm => (hopen m hm).1,
    hs.file.imp id fun hnone => ⟨hnone, (hs.shut hnone).resolve_right hexit⟩, fun hterm bs => ?_⟩
  have hrun := (Boot.process_leaving (s.startup input hs) hterm).run bs
  refine ⟨hrun.accepted, fun hlen => ?_⟩
  rw [Nat.sub_eq_zero_of_le hlen] at hrun
  refine ⟨hrun.pc.eq_exited, fun m => ?_⟩
  by_contra hne
  exact absurd (hrun.socks m hne).2 (lt_irrefl 0)

/-- With `-d` and the three standard descriptors open; the one of `/dev/null` stays open
below the socket. A SIGTERM between the two calls of `signal` sets the flag, and the
socket is opened all the same. -/
theorem boot_starts_process_daemon : ∃ cfg : Startup, cfg.nofile = 1024 ∧ cfg.serverSock = 4 ∧
    ∃ p : Process, p.socks 4 = some .listening ∧ p.sys.shouldTerminate = true ∧
      (run (Process.step cfg) p (List.replicate 4 (.main ⟨true, true, true, true⟩))).pc = .exited := by
  obtain ⟨cfg, -, hnofile, hsock, -, hflag, hfds, -, -, hend⟩ := boot_starts_process [['-', 'd']] 1024
    (fun n => decide (n < 3)) (List.replicate 9 (.main ⟨.child, true⟩) ++ .signal true ::
      List.replicate 5 (.main ⟨.child, true⟩)) (fun _ => []) (by decide +kernel)
  refine ⟨cfg, hnofile, Option.some.inj (hsock.symm.trans (by decide +kernel)), _,
    ((hfds 4).2).trans (by decide +kernel), hflag.trans (by decide +kernel),
    ((hend (by decide +kernel) _).2 (by decide)).1⟩

/-- Every other way through `main`, whatever happens: it ends with `EXIT_FAILURE`
before there is a socket, or with `EXIT_SUCCESS`, either as the parent of the daemon
(then `-d` was given, and nothing but `-d`) or without the port, with no listening
socket left. In no state has `close(server_sock)` closed anything else than the
listening socket. -/
theorem boot_exits (args : List (List Char)) (nofile : ℕ) (isOpen : ℕ → Bool) (as : List BootLabel) :
    let s := run Boot.step (.initial args nofile isOpen) as
    (∀ f ∈ s.closed, f = none ∨ f = some .listening) ∧
    ∀ status, s.pc = .exited status →
      status = 1 ∧ s.serverSock = none ∨
      status = 0 ∧ (s.serverSock = none → letters args ≠ [] ∧ ∀ c ∈ letters args, c = 'd') ∧
        ∀ n, s.fds n ≠ some .listening := by
  intro s
  obtain ⟨hok, hargs, -, -⟩ := Boot.run_ok args nofile isOpen as
  refine ⟨hok.closed, fun status hstatus => (hok.status status hstatus).imp id fun h =>
    ⟨h.1, fun hnone => ?_, h.2.2⟩⟩
  have hopt := h.2.1 hnone
  rw [hargs, getopt_eq] at hopt
  split_ifs at hopt with hall
  refine ⟨fun hnil => ?_, fun c hc => by simpa using List.all_eq_true.mp hall c hc⟩
  simp [hnil] at hopt

end Aesd.Server
