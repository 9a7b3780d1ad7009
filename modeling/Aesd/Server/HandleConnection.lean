import Aesd.Driver.Refinement
import Aesd.Server.ReadLine

/-! The connection threads of `aesdsocket.c`, in the build for the character
device. Every thread runs `handle_connection`; the steps of all threads are
interleaved in any order. One step is one call that other threads can see: to
the mutex, to the device or to a socket. All system calls get their outcome
from outside. A step of a thread that has to wait changes nothing.

The device has no `llseek`, so `lseek` leaves a new file at position 0 and is
not a step of its own. The mutex is called only by threads that may call it, so
`pthread_mutex_lock` and `pthread_mutex_unlock` do not return an error. Log
output is left out, and so is that the kernel restarts a call that a handled signal has
interrupted: here it may fail as well. -/

namespace Aesd.Server

open Segments Run Driver

def connectionBufferSize : ℕ := 65536

/-- Where a thread is: the statement it executes next. -/
inductive Pc where
  -- `handle_connection`
  | readLine
  | writeReturned
  | readReturned
  | closeConnection
  | complete
  -- `filestore_write`
  | writeLock
  | writeOpen
  | write
  | writeUnlock
  | writeClose
  -- `filestore_read_to_dest`
  | readLock
  | readOpen
  | read
  | send
  | readUnlock
  | readClose
  deriving DecidableEq

/-- The local variables of a thread. `fd` is `none` for -1, `ret` the result of
the filestore function, and `reply` collects what the socket has accepted in
the current `filestore_read_to_dest`. -/
structure Thread where
  pc : Pc
  input : List SockRead
  connBuffer : List UInt8
  bytesReceived : ℤ
  operationFailed : Bool
  fd : Option ℕ
  ret : ℤ
  bytesRead : ℕ
  fileBuffer : List Cell
  reply : List Cell

def Thread.initial (input : List SockRead) : Thread where
  pc := .readLine
  input := input
  connBuffer := []
  bytesReceived := 0
  operationFailed := false
  fd := none
  ret := 0
  bytesRead := 0
  fileBuffer := []
  reply := []

/-- What `filestore_write` is given: the first `bytes_received` bytes. -/
def Thread.data (th : Thread) : List UInt8 := th.connBuffer.take th.bytesReceived.toNat

/-- An open file of the device and the thread that opened it. -/
structure OpenFile (ι : Type*) where
  opener : ι
  fPos : ℕ

structure System (ι : Type*) where
  driver : State
  fileMutex : Option ι
  files : ℕ → Option (OpenFile ι)
  shouldTerminate : Bool
  threads : ι → Thread

/-- Outcomes of the calls a step may make: the descriptor `open` returns (one
that is in use already stands for a failure), what the driver meets, and the
number of bytes `send` accepts, at most as many as it is given. -/
structure Env where
  openFd : Option ℕ
  write : WriteEnv
  read : ReadEnv
  send : Option ℕ

inductive Label (ι : Type*) where
  | thread (t : ι) (env : Env)
  | signal

/-- The VFS hands at most `MAX_RW_COUNT` bytes of a request to the driver. -/
def vfsBuf (data : List UInt8) : UserBuf where
  bytes := data.take 2147479552
  count_le := by simp

variable {ι : Type*} [DecidableEq ι]

namespace System

def initial (input : ι → List SockRead) : System ι where
  driver := .initial
  fileMutex := none
  files _ := none
  shouldTerminate := false
  threads t := .initial (input t)

def put (s : System ι) (t : ι) (th : Thread) : System ι :=
  { s with threads := Function.update s.threads t th }

/-- The mutex is of the default type: a thread that owns it and locks it again
waits forever. -/
def lock (s : System ι) (t : ι) (next : Pc) : System ι :=
  match s.fileMutex with
  | none => { s with fileMutex := some t }.put t { s.threads t with pc := next }
  | some _ => s

def unlock (s : System ι) (t : ι) (next : Pc) : System ι :=
  { s with fileMutex := none }.put t { s.threads t with pc := next }

def openDevice (s : System ι) (t : ι) : Option ℕ → Option ℕ × System ι
  | none => (none, s)
  | some n =>
    match s.files n with
    | none => (some n, { s with files := Function.update s.files n (some ⟨t, 0⟩) })
    | some _ => (none, s)

def close (s : System ι) : Option ℕ → System ι
  | none => s
  | some n => { s with files := Function.update s.files n none }

/-- `write` and `read` give -1 when the driver returns an error, and store the
file position only when it does not. -/
def write (s : System ι) (env : WriteEnv) (fd : Option ℕ) (data : List UInt8) : ℤ × System ι :=
  match fd with
  | none => (-1, s)
  | some n =>
    match s.files n with
    | none => (-1, s)
    | some f =>
      let r := aesdWrite env s.driver (vfsBuf data) f.fPos
      if r.retval < 0 then (-1, { s with driver := r.state })
      else (r.retval, { s with
        driver := r.state
        files := Function.update s.files n (some { f with fPos := r.fPos }) })

def read (s : System ι) (env : ReadEnv) (fd : Option ℕ) (count : ℕ) : ℤ × List Cell × System ι :=
  match fd with
  | none => (-1, [], s)
  | some n =>
    match s.files n with
    | none => (-1, [], s)
    | some f =>
      let r := aesdRead env s.driver count f.fPos
      if r.retval < 0 then (-1, r.copied, { s with driver := r.state })
      else (r.retval, r.copied, { s with
        driver := r.state
        files := Function.update s.files n (some { f with fPos := r.fPos }) })

/-- One step of `handle_connection`, or of the filestore function it is in. -/
def threadStep (s : System ι) (t : ι) (env : Env) : System ι :=
  let th := s.threads t
  match th.pc with
  -- the loop test: `read_line` comes first, the two flags are tested after it
  | .readLine =>
    let r := Server.readLine th.input connectionBufferSize
    let go := 0 < r.retval ∧ s.shouldTerminate = false ∧ th.operationFailed = false
    s.put t { th with
      input := r.rest
      connBuffer := r.buffer
      bytesReceived := r.retval
      pc := if go then .writeLock else .closeConnection }
  | .writeLock => s.lock t .writeOpen
  | .writeOpen =>
    let (fd, s) := s.openDevice t env.openFd
    s.put t { th with fd := fd, pc := .write }
  | .write =>
    -- the failing branch returns without unlocking and closing
    let (n, s) := s.write env.write th.fd th.data
    if n = -1 then s.put t { th with ret := -1, pc := .writeReturned }
    else s.put t { th with pc := .writeUnlock }
  | .writeUnlock => s.unlock t .writeClose
  | .writeClose => (s.close th.fd).put t { th with ret := 0, pc := .writeReturned }
  -- whatever `filestore_write` returned, `filestore_read_to_dest` is called
  | .writeReturned =>
    s.put t { th with
      operationFailed := th.operationFailed || th.ret == -1
      ret := 0
      fileBuffer := List.replicate 1024 none
      reply := []
      pc := .readLock }
  | .readLock => s.lock t .readOpen
  | .readOpen =>
    let (fd, s) := s.openDevice t env.openFd
    s.put t { th with fd := fd, ret := if fd = none then -1 else th.ret, pc := .read }
  | .read =>
    -- the result is kept in a `size_t`
    let (n, copied, s) := s.read env.read th.fd 1024
    let bytesRead := (n % 2 ^ 64).toNat
    let th := { th with bytesRead := bytesRead, fileBuffer := overwrite th.fileBuffer 0 copied }
    if 0 < bytesRead ∧ th.ret ≠ -1 then s.put t { th with pc := .send }
    else s.put t { th with
      ret := if bytesRead = 2 ^ 64 - 1 then -1 else th.ret
      pc := .readUnlock }
  | .send =>
    match env.send with
    | none => s.put t { th with ret := -1, pc := .read }
    | some k => s.put t { th with
        reply := th.reply ++ resize th.fileBuffer (min k th.bytesRead)
        pc := .read }
  | .readUnlock => s.unlock t .readClose
  | .readClose => (s.close th.fd).put t { th with pc := .readReturned }
  | .readReturned =>
    s.put t { th with operationFailed := th.operationFailed || th.ret == -1, pc := .readLine }
  | .closeConnection => s.put t { th with pc := .complete }
  | .complete => s

def step (s : System ι) : Label ι → System ι
  | .thread t env => s.threadStep t env
  | .signal => { s with shouldTerminate := true }

/-! ### Outcomes -/

/-- No call of the step fails. -/
def NoFailure (s : System ι) : Label ι → Prop
  | .thread t env =>
    ((s.threads t).pc = .writeOpen ∨ (s.threads t).pc = .readOpen →
      (s.openDevice t env.openFd).1 ≠ none) ∧
    ((s.threads t).pc = .write →
      (s.write env.write (s.threads t).fd (s.threads t).data).1 ≠ -1) ∧
    ((s.threads t).pc = .read → (s.read env.read (s.threads t).fd 1024).1 ≠ -1) ∧
    ((s.threads t).pc = .send → env.send ≠ none)
  | .signal => True

/-- Every call of the step succeeds in full, and the server is not shut down. -/
def Succeeds (s : System ι) : Label ι → Prop
  | .thread t env => s.NoFailure (.thread t env) ∧
      ((s.threads t).pc = .send → (s.threads t).bytesRead ≤ env.send.getD 0)
  | .signal => False

instance (s : System ι) : (a : Label ι) → Decidable (s.NoFailure a)
  | .thread _ _ => inferInstanceAs (Decidable (_ ∧ _))
  | .signal => inferInstanceAs (Decidable True)

instance (s : System ι) : (a : Label ι) → Decidable (s.Succeeds a)
  | .thread _ _ => inferInstanceAs (Decidable (_ ∧ _))
  | .signal => inferInstanceAs (Decidable False)

end System

/-! ### What can be seen from outside -/

/-- A line given to the device, and the reply of a read section. -/
inductive Event (ι : Type*) where
  | wrote (t : ι) (line : List UInt8)
  | replied (t : ι) (bytes : List Cell)
  deriving DecidableEq

def System.event (s : System ι) : Label ι → List (Event ι)
  | .thread t env =>
    match (s.threads t).pc with
    | .write =>
      if (s.write env.write (s.threads t).fd (s.threads t).data).1 = -1 then []
      else [.wrote t (s.threads t).data]
    | .readUnlock => [.replied t (s.threads t).reply]
    | _ => []
  | .signal => []

/-- The events of a run, in order. -/
def trace (input : ι → List SockRead) (as : List (Label ι)) : List (Event ι) :=
  outputs System.step System.event (.initial input) as

end Aesd.Server
