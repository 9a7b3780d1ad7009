import Aesd.Server.HandleConnection
import Aesd.Server.Queue

/-! The server process: the accept loop of `main` with its list of connections,
the connection threads, and the signal handler, in the build for the character
device. `main` starts here after `listen`. Every connection gets a number when it
is accepted, and its list element, its `thread_data_t` and its thread go by the
same number.

New descriptors get the lowest free number, that of `accept` when it returns. What was
open before the listening socket stays open. A `read` or `write` on a descriptor of the
device that another thread has closed fails. Left out are the descriptor that `syslog`
opens for itself and that the kernel reserves the one of `accept` on entry. -/

namespace Aesd.Server

open Run Driver

/-- The two traversals of the connection list: `LIST_FOREACH_SAFE` in the accept
loop and `LIST_FOREACH` behind it. -/
inductive Pass where
  | reaping
  | cleanup
  deriving DecidableEq

/-- The statement `main` executes next. `data` and `tvar` are the variables of a
traversal; only `LIST_FOREACH_SAFE` has the second one. -/
inductive MainPc where
  | loopTest
  | accept
  | initConnListItem (k : ℕ) (connFd : ℕ)
  | insertHead (newData : ℕ)
  | create (newData : ℕ)
  -- a traversal of the list
  | first (pass : Pass)
  | test (pass : Pass) (data : Option ℕ)
  | check (pass : Pass) (data : ℕ) (tvar : Option ℕ)
  | join (pass : Pass) (data : ℕ) (tvar : Option ℕ)
  | remove (pass : Pass) (data : ℕ) (tvar : Option ℕ)
  | free (pass : Pass) (data : ℕ) (tvar : Option ℕ)
  | advance (pass : Pass) (data : ℕ) (tvar : Option ℕ)
  | closeServer
  | exited
  deriving DecidableEq

/-- `thread_data_t`; `thread` is not set before the thread is created. -/
structure ThreadData where
  thread : Option ℕ
  threadComplete : Bool
  connectionFd : ℕ
  deriving DecidableEq

/-- The life of a connection thread: in `handle_connection`, behind the assignment
to `thread_complete`, and returned. -/
inductive Stage where
  | running
  | flagged
  | ended
  deriving DecidableEq

inductive Sock where
  | listening
  | connection (k : ℕ)
  deriving DecidableEq

/-- What the process starts with: what the clients will send, the limit for
descriptors, those that are open, and the number `socket` has returned. -/
structure Startup where
  input : ℕ → List SockRead
  nofile : ℕ
  inherited : ℕ → Bool
  serverSock : ℕ
  serverSock_lt : serverSock < nofile
  serverSock_free : inherited serverSock = false
  serverSock_lowest : ∀ n < serverSock, inherited n = true

/-- The process. `catching` counts the signal handlers between their two
statements. The last four fields are the history: the connections whose socket
was closed, the elements inserted (the newest first) and removed, and the threads
joined. -/
structure Process where
  socks : ℕ → Option Sock
  sys : System ℕ
  catching : ℕ
  pc : MainPc
  list : ListMem ℕ
  items : ℕ → Option ThreadData
  handlers : ℕ → Option Stage
  accepted : ℕ
  closed : List ℕ
  inserted : List ℕ
  removed : List ℕ
  joined : List ℕ

/-- Outcomes of the calls `main` makes. An `accept` that is under way when the
listening socket is closed may still return a connection. -/
structure MainEnv where
  accept : Bool
  mallocItem : Bool
  mallocNode : Bool
  create : Bool

/-- A step of `main`, a step of a connection thread, and the two statements of
`signal_handler`. -/
inductive ProcLabel where
  | main (env : MainEnv)
  | thread (t : ℕ) (env : Env)
  | signal
  | setTerminate

namespace Process

def initial (cfg : Startup) : Process where
  socks n := if n = cfg.serverSock then some .listening else none
  sys := .initial cfg.input
  catching := 0
  pc := .loopTest
  list := .initial
  items _ := none
  handlers _ := none
  accepted := 0
  closed := []
  inserted := []
  removed := []
  joined := []

/-! ### Descriptors -/

def isFree (cfg : Startup) (s : Process) (n : ℕ) : Bool :=
  !cfg.inherited n && (s.socks n).isNone && (s.sys.files n).isNone

def lowestFree (cfg : Startup) (s : Process) : Option ℕ := (List.range cfg.nofile).find? (s.isFree cfg)

/-- `close` of a number, as far as it is a socket. -/
def closeSock (s : Process) (n : ℕ) : Process :=
  { s with
    socks := Function.update s.socks n none
    closed := s.closed ++ match s.socks n with
      | some (.connection k) => [k]
      | _ => [] }

def close (s : Process) (n : ℕ) : Process := { s.closeSock n with sys := s.sys.close (some n) }

/-! ### `main` -/

/-- A use of memory that is freed. -/
def faulted (s : Process) : Process := { s with list := { s.list with fault := true } }

/-- `data->item`, with its address. -/
def item (s : Process) (data : ℕ) : Option (ℕ × ThreadData) :=
  match s.list.nodes data with
  | none => none
  | some d => (s.items d.data).map (d.data, ·)

def freeItem (s : Process) (i : ℕ) : Process :=
  match s.items i with
  | none => s.faulted
  | some _ => { s with items := Function.update s.items i none }

def freeConnListItem (s : Process) (listData : ℕ) : Process :=
  match s.list.nodes listData with
  | none => s.faulted
  | some d =>
    let s := s.freeItem d.data
    { s with list := s.list.free listData }

/-- One step of `main`. `server_sock` never becomes -1. -/
def mainStep (cfg : Startup) (s : Process) (env : MainEnv) : Process :=
  match s.pc with
  | .loopTest => { s with pc := if s.sys.shouldTerminate then .first .cleanup else .accept }
  | .accept =>
    match if env.accept then s.lowestFree cfg else none with
    | none => { s with pc := .first .reaping }
    | some clientSock => { s with
        socks := Function.update s.socks clientSock (some (.connection s.accepted))
        accepted := s.accepted + 1
        pc := .initConnListItem s.accepted clientSock }
  | .initConnListItem k connFd =>
    -- a failure of the second `malloc` frees the result of the first
    if env.mallocItem && env.mallocNode then
      { s with
        items := Function.update s.items k (some ⟨none, false, connFd⟩)
        list := s.list.malloc k k
        pc := .insertHead k }
    else { s with pc := .first .reaping }
  | .insertHead newData => { s with
      list := s.list.listInsertHead newData
      inserted := newData :: s.inserted
      pc := .create newData }
  | .create newData =>
    match s.item newData with
    | none => s.faulted
    | some (i, item) =>
      -- the result of `pthread_create` is only logged
      if env.create then
        { s with
          items := Function.update s.items i (some { item with thread := some i })
          handlers := Function.update s.handlers i (some .running)
          pc := .first .reaping }
      else { s with pc := .first .reaping }
  | .first pass => { s with pc := .test pass s.list.lhFirst }
  | .test .reaping none => { s with pc := .loopTest }
  | .test .cleanup none => { s with pc := .closeServer }
  | .test .reaping (some data) =>
    match s.list.nodes data with
    | none => s.faulted
    | some d => { s with pc := .check .reaping data d.leNext }
  | .test .cleanup (some data) => { s with pc := .check .cleanup data none }
  | .check pass data tvar =>
    match s.item data with
    | none => s.faulted
    | some (_, item) =>
      { s with pc := if item.threadComplete then .join pass data tvar else .advance pass data tvar }
  | .join pass data tvar =>
    match s.item data with
    | some (_, { thread := some t, .. }) =>
      if s.handlers t = some .ended then
        { s with joined := s.joined ++ [t], pc := .remove pass data tvar }
      else s
    | _ => s.faulted
  | .remove pass data tvar => { s with
      list := s.list.listRemove data
      removed := s.removed ++ [data]
      pc := .free pass data tvar }
  | .free pass data tvar => { s.freeConnListItem data with pc := .advance pass data tvar }
  | .advance .reaping _ tvar => { s with pc := .test .reaping tvar }
  | .advance .cleanup data _ =>
    match s.list.nodes data with
    | none => s.faulted
    | some d => { s with pc := .test .cleanup d.leNext }
  | .closeServer => { s.close cfg.serverSock with pc := .exited }
  | .exited => s

/-! ### The other threads -/

/-- One step of a connection thread, which uses its `thread_data_t` until it
returns. -/
def threadStep (cfg : Startup) (s : Process) (t : ℕ) (env : Env) : Process :=
  match s.handlers t, s.items t with
  | none, _ | some .ended, _ => s
  | some _, none => s.faulted
  | some .flagged, some _ => { s with handlers := Function.update s.handlers t (some .ended) }
  | some .running, some item =>
    let th := s.sys.threads t
    match th.pc with
    | .closeConnection => { s.close item.connectionFd with
        sys := (s.sys.close (some item.connectionFd)).threadStep t env }
    | .complete => { s with
        items := Function.update s.items t (some { item with threadComplete := true })
        handlers := Function.update s.handlers t (some .flagged) }
    | .writeClose | .readClose =>
      let s := th.fd.elim s s.closeSock
      { s with sys := s.sys.threadStep t env }
    | _ =>
      let env := { env with openFd := env.openFd.bind fun _ => s.lowestFree cfg }
      { s with sys := s.sys.threadStep t env }

/-- When `main` has returned the process is over. -/
def step (cfg : Startup) (s : Process) (a : ProcLabel) : Process :=
  if s.pc = .exited then s
  else
    match a with
    | .main env => s.mainStep cfg env
    | .thread t env => s.threadStep cfg t env
    | .signal => { s.close cfg.serverSock with catching := s.catching + 1 }
    | .setTerminate =>
      if s.catching = 0 then s
      else { s with
        catching := s.catching - 1
        sys := { s.sys with shouldTerminate := true } }

/-- What a traversal finds: the element and its `thread_complete`. -/
def visit (s : Process) : ProcLabel → List (ℕ × Bool)
  | .main _ =>
    match s.pc with
    | .check _ data _ => (s.item data).toList.map fun i => (data, i.2.threadComplete)
    | _ => []
  | _ => []

/-! ### Labels -/

section Labels

variable {cfg : Startup} {s : Process}

theorem step_exited (h : s.pc = .exited) (a : ProcLabel) : s.step cfg a = s := if_pos h

theorem step_main (h : s.pc ≠ .exited) (env : MainEnv) : s.step cfg (.main env) = s.mainStep cfg env :=
  if_neg h

theorem step_thread (h : s.pc ≠ .exited) (t : ℕ) (env : Env) :
    s.step cfg (.thread t env) = s.threadStep cfg t env := if_neg h

theorem step_signal (h : s.pc ≠ .exited) :
    s.step cfg .signal = { s.close cfg.serverSock with catching := s.catching + 1 } := if_neg h

theorem step_setTerminate (cfg : Startup) (s : Process) : ∃ catching shouldTerminate,
    s.step cfg .setTerminate = { s with
      catching := catching
      sys := { s.sys with shouldTerminate := shouldTerminate } } := by
  by_cases hs : s.pc = .exited
  · exact ⟨s.catching, s.sys.shouldTerminate, step_exited hs _⟩
  by_cases hc : s.catching = 0
  · exact ⟨s.catching, s.sys.shouldTerminate, (if_neg hs).trans (if_pos hc)⟩
  · exact ⟨s.catching - 1, true, (if_neg hs).trans (if_neg hc)⟩

@[simp] theorem visit_thread (t : ℕ) (env : Env) : s.visit (.thread t env) = [] := rfl

@[simp] theorem visit_signal : s.visit .signal = [] := rfl

@[simp] theorem visit_setTerminate : s.visit .setTerminate = [] := rfl

end Labels

end Process

end Aesd.Server
