import Aesd.Lib.Atomic
import Aesd.Server.Builds
import Aesd.Server.Snapshots
import Aesd.Server.Timestamp

/-! The threads of the plain-file build: any number of connections and the timer
thread, which adds a timestamp to the data file from time to time. All of them use
one descriptor with one position, so every step of `filestore_write` and
`filestore_read_to_dest` lies under the mutex of the filestore. Calls get their
outcome from outside, and so does a test of `should_terminate`. -/

namespace Aesd.Server

open Segments Run Driver Atomic

/-! ### The filestore under its mutex -/

inductive StorePc where
  -- `filestore_write`
  | write
  | writeUnlock
  -- `filestore_read_to_dest`
  | lseek
  | read
  | send
  | readUnlock
  deriving DecidableEq

/-- The variables of the filestore functions; `reply` collects what the socket has
accepted. -/
structure StoreVars where
  pc : StorePc
  data : List UInt8
  ret : ℤ
  bytesRead : ℕ
  fileBuffer : List Cell
  reply : List Cell

inductive StoreCall where
  | write (data : List UInt8)
  | readToDest

/-- `kept` when the function has returned without unlocking. -/
structure StoreResult where
  ret : ℤ
  reply : List Cell
  kept : Bool
  deriving DecidableEq

/-- How many bytes `write`, `read` and `send` take, at most as many as there are. -/
structure StoreEnv where
  write : Option ℕ
  read : Option ℕ
  send : Option ℕ

def StoreCall.start : StoreCall → StoreVars
  | .write data => ⟨.write, data, 0, 0, [], []⟩
  | .readToDest => ⟨.lseek, [], 0, 0, List.replicate 1024 none, []⟩

def storeStep (v : StoreVars) (env : StoreEnv) (s : FileStore) : (StoreVars ⊕ StoreResult) × FileStore :=
  match v.pc with
  | .write =>
    -- the failing branch returns without unlocking
    let (n, s) := s.write v.data env.write
    if n = -1 then (.inr ⟨-1, [], true⟩, s) else (.inl { v with pc := .writeUnlock }, s)
  | .writeUnlock => (.inr ⟨0, [], false⟩, { s with fileMutex := false })
  | .lseek => (.inl { v with pc := .read }, { s with fPos := 0 })
  | .read =>
    -- the result is kept in a `size_t`
    let (n, copied, s) := s.read env.read
    let bytesRead := (n % 2 ^ 64).toNat
    let v := { v with bytesRead := bytesRead, fileBuffer := overwrite v.fileBuffer 0 copied }
    if 0 < bytesRead ∧ v.ret ≠ -1 then (.inl { v with pc := .send }, s)
    else (.inl { v with
      ret := if bytesRead = 2 ^ 64 - 1 then -1 else v.ret
      pc := .readUnlock }, s)
  | .send =>
    match env.send with
    | none => (.inl { v with ret := -1, pc := .read }, s)
    | some k => (.inl { v with
        reply := v.reply ++ resize v.fileBuffer (min k v.bytesRead)
        pc := .read }, s)
  | .readUnlock => (.inr ⟨v.ret, v.reply, false⟩, { s with fileMutex := false })

/-! ### The threads -/

inductive ConnPc where
  | readLine
  | write
  | read
  | closeConnection
  | complete
  deriving DecidableEq

/-- The variables of `handle_connection`. -/
structure Connection where
  pc : ConnPc
  input : List SockRead
  connBuffer : List UInt8
  bytesReceived : ℤ
  operationFailed : Bool

def Connection.initial (input : List SockRead) : Connection := ⟨.readLine, input, [], 0, false⟩

/-- What `filestore_write` is given. -/
def Connection.data (c : Connection) : List UInt8 := c.connBuffer.take c.bytesReceived.toNat

/-- A thread outside of the filestore functions. The timer thread sleeps, or has a
record in its buffer. -/
inductive FileThread where
  | connection (c : Connection)
  | timer (timestamp : List UInt8) (ready : Bool)

/-- What a thread meets outside: the flag of the signal handler, the time, and what
`strftime` leaves in a buffer that is too small. -/
structure Outside where
  shouldTerminate : Bool
  tm : Tm
  unknown : List UInt8

def FileThread.move : FileThread → Outside → FileThread
  | .timer timestamp _, env =>
    .timer (strftime timestamp (timestampText env.tm ++ [newline]) env.unknown) true
  | .connection c, env =>
    match c.pc with
    -- the loop test: `read_line` comes first, the two flags are tested after it
    | .readLine =>
      let r := Server.readLine c.input connectionBufferSize
      let go := 0 < r.retval ∧ env.shouldTerminate = false ∧ c.operationFailed = false
      .connection { c with
        input := r.rest
        connBuffer := r.buffer
        bytesReceived := r.retval
        pc := if go then .write else .closeConnection }
    | .closeConnection => .connection { c with pc := .complete }
    | _ => .connection c

def FileThread.next : FileThread → Option StoreCall
  | .timer timestamp ready => if ready then some (.write (cString timestamp)) else none
  | .connection c =>
    match c.pc with
    | .write => some (.write c.data)
    | .read => some .readToDest
    | _ => none

/-- Whatever `filestore_write` returned, `filestore_read_to_dest` is called; the
timer thread does not look at the result. -/
def FileThread.leave : FileThread → StoreResult → FileThread
  | .timer timestamp _, _ => .timer timestamp false
  | .connection c, r =>
    .connection { c with
      operationFailed := c.operationFailed || r.ret == -1
      pc := if c.pc = .write then .read else .readLine }

/-- A filestore function has returned: what it was given or has sent, and `ret`. -/
inductive StoreNote where
  | wrote (data : List UInt8) (ret : ℤ)
  | replied (bytes : List Cell) (ret : ℤ)
  deriving DecidableEq

def fileServer : Program FileThread StoreCall Outside StoreVars StoreEnv FileStore StoreResult StoreNote where
  next := FileThread.next
  move := FileThread.move
  enter c s := (c.start, { s with fileMutex := true })
  step := storeStep
  leave := FileThread.leave
  keeps r := r.kept
  moved _ _ := []
  returned _ c r :=
    match c with
    | .write data => [.wrote data r.ret]
    | .readToDest => [.replied r.reply r.ret]

variable {ι : Type*} [DecidableEq ι]

/-- Thread `none` is the timer thread; `timestamp` is what stands in its buffer. -/
def fileThreads (input : ι → List SockRead) (timestamp : List UInt8) : Option ι → FileThread
  | none => .timer timestamp false
  | some t => .connection (.initial (input t))

/-- The server after `init_filestore`, with what the data file holds from before. -/
def fileServerInitial (file : List UInt8) (input : ι → List SockRead) (timestamp : List UInt8) :
    Threads (Option ι) FileThread StoreCall StoreVars FileStore :=
  .initial ⟨file, 0, false⟩ (fileThreads input timestamp)

def fileTrace (file : List UInt8) (input : ι → List SockRead) (timestamp : List UInt8)
    (as : List (Atomic.Label (Option ι) Outside StoreEnv)) : List (Option ι × StoreNote) :=
  outputs fileServer.threadStep fileServer.event (fileServerInitial file input timestamp) as

/-! ### The sections are the filestore functions -/

section Sections

variable {v : StoreVars} {s s' : FileStore} {r : StoreResult} {e : StoreEnv} {es : List StoreEnv}

theorem storeStep_write {k : ℕ} (hpc : v.pc = .write) (hk : e.write = some k) :
    storeStep v e s = (.inl { v with pc := .writeUnlock }, (s.write v.data (some k)).2) := by
  have hcount : ¬ (min (k : ℤ) v.data.length) = -1 := by omega
  simp only [storeStep, hpc, hk, FileStore.write, if_neg hcount]

theorem exec_unlock (hpc : v.pc = .writeUnlock ∨ v.pc = .readUnlock)
    (h : fileServer.exec v es s = some (r, s')) :
    (v.pc = .writeUnlock → r = ⟨0, [], false⟩) ∧ (v.pc = .readUnlock → r = ⟨v.ret, v.reply, false⟩) ∧
      s' = { s with fileMutex := false } := by
  cases es with
  | nil => cases h
  | cons e es =>
    rcases hpc with hpc | hpc
    · have hstep : fileServer.step v e s = (.inr ⟨0, [], false⟩, { s with fileMutex := false }) := by
        simp only [fileServer, storeStep, hpc]
      obtain ⟨rfl, rfl⟩ := Prod.mk.inj (Program.exec_cons_of_return hstep h)
      simp [hpc]
    · have hstep : fileServer.step v e s =
          (.inr ⟨v.ret, v.reply, false⟩, { s with fileMutex := false }) := by
        simp only [fileServer, storeStep, hpc]
      obtain ⟨rfl, rfl⟩ := Prod.mk.inj (Program.exec_cons_of_return hstep h)
      simp [hpc]

theorem exec_write {data : List UInt8} (hs : s.fileMutex = false)
    (h : fileServer.exec (StoreCall.write data).start es { s with fileMutex := true } = some (r, s')) :
    ∃ accepted, s.filestoreWrite data accepted = some (r.ret, s') ∧ r.kept = s'.fileMutex := by
  cases es with
  | nil => cases h
  | cons e es =>
    refine ⟨e.write, ?_⟩
    rw [FileStore.filestoreWrite, if_neg (by simp [hs])]
    set s₁ : FileStore := { s with fileMutex := true }
    have hmutex : (s₁.write data e.write).2.fileMutex = true := by
      cases e.write <;> rfl
    by_cases hn : (s₁.write data e.write).1 = -1
    · have hstep : fileServer.step (StoreCall.write data).start e s₁ =
          (.inr ⟨-1, [], true⟩, (s₁.write data e.write).2) := if_pos hn
      obtain ⟨rfl, rfl⟩ := Prod.mk.inj (Program.exec_cons_of_return hstep h)
      simp only [if_pos hn]
      exact ⟨trivial, hmutex.symm⟩
    · have hstep : fileServer.step (StoreCall.write data).start e s₁ =
          (.inl { (StoreCall.write data).start with pc := .writeUnlock }, (s₁.write data e.write).2) :=
        if_neg hn
      rw [Program.exec_cons hstep] at h
      obtain ⟨hr, -, rfl⟩ := exec_unlock (.inl rfl) h
      rw [hr rfl]
      simp only [if_neg hn]
      exact ⟨trivial, trivial⟩

/-- A `read` whose result goes on to `send`. -/
theorem storeStep_read_send {m : ℤ} {copied : List Cell} (hpc : v.pc = .read)
    (hread : s.read e.read = (m, copied, s')) (hgo : 0 < (m % 2 ^ 64).toNat ∧ v.ret ≠ -1) :
    storeStep v e s = (.inl { v with
      bytesRead := (m % 2 ^ 64).toNat
      fileBuffer := overwrite v.fileBuffer 0 copied
      pc := .send }, s') := by
  simp only [storeStep, hpc, hread]
  exact if_pos hgo

/-- A `read` that ends the loop. -/
theorem storeStep_read_unlock {m : ℤ} {copied : List Cell} (hpc : v.pc = .read)
    (hread : s.read e.read = (m, copied, s')) (hgo : ¬ (0 < (m % 2 ^ 64).toNat ∧ v.ret ≠ -1)) :
    storeStep v e s = (.inl { v with
      bytesRead := (m % 2 ^ 64).toNat
      fileBuffer := overwrite v.fileBuffer 0 copied
      ret := if (m % 2 ^ 64).toNat = 2 ^ 64 - 1 then -1 else v.ret
      pc := .readUnlock }, s') := by
  simp only [storeStep, hpc, hread]
  exact if_neg hgo

/-- What the socket accepts of the buffer. -/
def StoreVars.accepted (v : StoreVars) (send : Option ℕ) : Option (List Cell) :=
  send.map fun k => resize v.fileBuffer (min k v.bytesRead)

theorem storeStep_send (hpc : v.pc = .send) :
    storeStep v e s = (.inl { v with
      ret := if e.send = none then -1 else v.ret
      reply := v.reply ++ (v.accepted e.send).getD []
      pc := .read }, s) := by
  cases hk : e.send <;> simp [storeStep, hpc, hk, StoreVars.accepted]

/-- The loop, from a `read` on. -/
theorem exec_sendLoop (hpc : v.pc = .read) (h : fileServer.exec v es s = some (r, s')) :
    ∃ rounds, let d := sendLoop FileStore.read s v.ret v.fileBuffer rounds
      d.ret = some r.ret ∧ r.reply = v.reply ++ d.sent ∧ s' = { d.state with fileMutex := false } ∧
        r.kept = false := by
  -- a round is two steps, so the induction is on the number of steps
  induction hn : es.length using Nat.strong_induction_on generalizing v s es with
  | _ n ih =>
    cases es with
    | nil => cases h
    | cons e es =>
      rcases hread : s.read e.read with ⟨m, copied, s₁⟩
      by_cases hgo : 0 < (m % 2 ^ 64).toNat ∧ v.ret ≠ -1
      · rw [Program.exec_cons (storeStep_read_send hpc hread hgo)] at h
        set v₁ : StoreVars := { v with
          bytesRead := (m % 2 ^ 64).toNat
          fileBuffer := overwrite v.fileBuffer 0 copied
          pc := .send }
        cases es with
        | nil => cases h
        | cons e₂ es =>
          have hsend := storeStep_send (v := v₁) (e := e₂) (s := s₁) rfl
          rw [Program.exec_cons hsend] at h
          obtain ⟨rounds, hret, hreply, hstate, hkept⟩ := ih es.length (by simp at hn; omega) rfl h rfl
          have hloop : sendLoop FileStore.read s v.ret v.fileBuffer ((e.read, e₂.send) :: rounds) =
              let d := sendLoop FileStore.read s₁ (if e₂.send = none then -1 else v.ret) v₁.fileBuffer rounds
              { d with events := .read (if m = -1 then none else some m.toNat) ::
                  .send v₁.bytesRead (v₁.accepted e₂.send) :: d.events } := by
            rw [sendLoop, hread]
            exact if_pos hgo
          refine ⟨(e.read, e₂.send) :: rounds, ?_⟩
          rw [hloop]
          refine ⟨hret, ?_, hstate, hkept⟩
          rw [hreply, List.append_assoc]
          cases hk : v₁.accepted e₂.send <;> simp [Dump.sent, v₁]
      · rw [Program.exec_cons (storeStep_read_unlock hpc hread hgo)] at h
        obtain ⟨-, hr, rfl⟩ := exec_unlock (.inr rfl) h
        have hloop : sendLoop FileStore.read s v.ret v.fileBuffer [(e.read, none)] =
            ⟨s₁, [.read (if m = -1 then none else some m.toNat)],
              some (if (m % 2 ^ 64).toNat = 2 ^ 64 - 1 then -1 else v.ret)⟩ := by
          rw [sendLoop, hread]
          exact if_neg hgo
        refine ⟨[(e.read, none)], ?_⟩
        rw [hloop, hr rfl]
        exact ⟨rfl, by simp [Dump.sent], rfl, rfl⟩

theorem exec_readToDest (hs : s.fileMutex = false)
    (h : fileServer.exec StoreCall.readToDest.start es { s with fileMutex := true } = some (r, s')) :
    ∃ rounds d, s.filestoreReadToDest rounds = some d ∧ d.ret = some r.ret ∧ d.sent = r.reply ∧
      d.state = s' ∧ s'.fileMutex = false ∧ r.kept = false := by
  cases es with
  | nil => cases h
  | cons e es =>
    have hstep : fileServer.step StoreCall.readToDest.start e { s with fileMutex := true } =
        (.inl { StoreCall.readToDest.start with pc := .read },
          { s with fileMutex := true, fPos := 0 }) := rfl
    rw [Program.exec_cons hstep] at h
    obtain ⟨rounds, hret, hreply, hstate, hkept⟩ := exec_sendLoop rfl h
    refine ⟨rounds, _, if_neg (by simp [hs]), hret, hreply.symm, ?_, by rw [hstate], hkept⟩
    rw [hstate]
    exact if_neg fun hnone => Option.some_ne_none _ (hret.symm.trans hnone)

end Sections

/-! ### Histories -/

/-- The histories of `filestore_write` and `filestore_read_to_dest` as sequential
code, called one after the other, with the store they lead to. -/
inductive FileLegal (file : List UInt8) : List (Option ι × StoreNote) → FileStore → Prop
  | nil : FileLegal file [] ⟨file, 0, false⟩
  | wrote {tr : List (Option ι × StoreNote)} {s s' : FileStore} (h : FileLegal file tr s) (t : Option ι)
      {data : List UInt8} {accepted : Option ℕ} {ret : ℤ}
      (hw : s.filestoreWrite data accepted = some (ret, s')) :
      FileLegal file (tr ++ [(t, .wrote data ret)]) s'
  | replied {tr : List (Option ι × StoreNote)} {s : FileStore} (h : FileLegal file tr s) (t : Option ι)
      {rounds : List (Option ℕ × Option ℕ)} {d : Dump FileStore} {ret : ℤ}
      (hd : s.filestoreReadToDest rounds = some d) (hret : d.ret = some ret) :
      FileLegal file (tr ++ [(t, .replied d.sent ret)]) d.state

theorem FileLegal.serialStep {file : List UInt8} {tr : List (Option ι × StoreNote)}
    {s : Serial (Option ι) FileThread FileStore} (h : FileLegal file tr s.shared)
    (hheld : s.held = s.shared.fileMutex) (b : SerialLabel (Option ι) Outside StoreEnv) :
    FileLegal file (tr ++ fileServer.serialEvent s b) (fileServer.serialStep s b).shared ∧
      (fileServer.serialStep s b).held = (fileServer.serialStep s b).shared.fileMutex := by
  cases b with
  | move t e =>
    have hevent : fileServer.serialEvent s (.move t e) = [] := by
      rw [Program.serialEvent]
      split_ifs <;> rfl
    have hstep : (fileServer.serialStep s (.move t e)).shared = s.shared ∧
        (fileServer.serialStep s (.move t e)).held = s.held := by
      rw [Program.serialStep]
      split_ifs <;> exact ⟨rfl, rfl⟩
    rw [hevent, List.append_nil, hstep.1, hstep.2]
    exact ⟨h, hheld⟩
  | call t es =>
    cases hcalls : fileServer.calls s t es with
    | none =>
      simp only [Program.serialEvent, Program.serialStep, hcalls, List.append_nil]
      exact ⟨h, hheld⟩
    | some x =>
      obtain ⟨c, r, shared⟩ := x
      obtain ⟨hfree, -, hexec⟩ := Program.calls_eq_some hcalls
      rw [hfree] at hheld
      simp only [Program.serialEvent, Program.serialStep, hcalls]
      cases c with
      | write data =>
        obtain ⟨accepted, hw, hkept⟩ := exec_write hheld.symm hexec
        exact ⟨h.wrote t hw, hkept⟩
      | readToDest =>
        obtain ⟨rounds, d, hd, hret, hsent, rfl, hmutex, hkept⟩ := exec_readToDest hheld.symm hexec
        refine ⟨?_, hkept.trans hmutex.symm⟩
        have hreplied := h.replied t hd hret
        rw [hsent] at hreplied
        exact hreplied

theorem fileLegal_serial (file : List UInt8) (d : Option ι → FileThread)
    (bs : List (SerialLabel (Option ι) Outside StoreEnv)) :
    let s₀ : Serial (Option ι) FileThread FileStore := .initial ⟨file, 0, false⟩ d
    let s := run fileServer.serialStep s₀ bs
    FileLegal file (outputs fileServer.serialStep fileServer.serialEvent s₀ bs) s.shared ∧
      s.held = s.shared.fileMutex := by
  intro s₀
  induction bs using List.reverseRecOn with
  | nil => exact ⟨.nil, rfl⟩
  | append_singleton bs b ih =>
    rw [outputs_concat, run_concat]
    exact ih.1.serialStep ih.2 b

/-- The serial run behind a run of the threads. -/
theorem exists_fileLegal (file : List UInt8) (input : ι → List SockRead) (timestamp : List UInt8)
    (as : List (Atomic.Label (Option ι) Outside StoreEnv)) :
    ∃ s' : Serial (Option ι) FileThread FileStore,
      fileServer.Follows (fun _ _ _ => True)
        (run fileServer.threadStep (fileServerInitial file input timestamp) as) s' ∧
      FileLegal file (fileTrace file input timestamp as) s'.shared ∧ s'.held = s'.shared.fileMutex := by
  obtain ⟨bs, -, hout, hfollows⟩ :=
    fileServer.exists_serial (along_stepMeets_true fileServer (fileServerInitial file input timestamp) as)
  refine ⟨_, hfollows, ?_⟩
  rw [fileTrace, fileServerInitial, ← hout]
  exact fileLegal_serial file _ bs

theorem FileStore.filestoreWrite_eq_some {s s' : FileStore} {data : List UInt8} {accepted : Option ℕ}
    {ret : ℤ} (h : s.filestoreWrite data accepted = some (ret, s')) :
    s.fileMutex = false ∧ (ret = -1 ∧ s' = { s with fileMutex := true } ∨
      ∃ k, ret = 0 ∧ s'.file = s.file ++ data.take k ∧ s'.fileMutex = false) := by
  rw [filestoreWrite] at h
  split_ifs at h with hmutex
  refine ⟨by simpa using hmutex, ?_⟩
  cases accepted with
  | none =>
    obtain ⟨rfl, rfl⟩ := Prod.mk.inj (Option.some.inj h)
    exact .inl ⟨rfl, rfl⟩
  | some k =>
    have hcount : ¬ ((min k data.length : ℕ) : ℤ) = -1 := by omega
    simp only [write, ← Nat.cast_min, if_neg hcount] at h
    obtain ⟨rfl, rfl⟩ := Prod.mk.inj (Option.some.inj h)
    exact .inr ⟨k, rfl, rfl, rfl⟩

omit [DecidableEq ι] in
/-- A failed write is the last event, and leaves the mutex locked. -/
theorem FileLegal.failed {file : List UInt8} {tr : List (Option ι × StoreNote)} {s : FileStore}
    (h : FileLegal file tr s) {pre post : List (Option ι × StoreNote)} {t : Option ι} {data : List UInt8}
    (htr : tr = pre ++ (t, .wrote data (-1)) :: post) : post = [] ∧ s.fileMutex = true := by
  induction h generalizing post with
  | nil => simp at htr
  | wrote h u hw ih =>
    obtain ⟨hfree, hcases⟩ := FileStore.filestoreWrite_eq_some hw
    rcases List.eq_nil_or_concat' post with rfl | ⟨post, e, rfl⟩
    · obtain ⟨-, he⟩ := List.append_inj' htr rfl
      simp only [List.cons.injEq, Prod.mk.injEq, StoreNote.wrote.injEq, and_true] at he
      obtain ⟨-, -, rfl⟩ := he
      rcases hcases with ⟨-, rfl⟩ | ⟨k, hret, -⟩
      · exact ⟨rfl, rfl⟩
      · cases hret
    · rw [← List.cons_append, ← List.append_assoc] at htr
      have hlocked := (ih (List.append_inj' htr rfl).1).2
      rw [hfree] at hlocked
      cases hlocked
  | replied h u hd hret ih =>
    rcases List.eq_nil_or_concat' post with rfl | ⟨post, e, rfl⟩
    · obtain ⟨-, he⟩ := List.append_inj' htr rfl
      simp at he
    · rw [← List.cons_append, ← List.append_assoc] at htr
      have hlocked := (ih (List.append_inj' htr rfl).1).2
      rw [FileStore.filestoreReadToDest, if_pos hlocked] at hd
      cases hd

end Aesd.Server
