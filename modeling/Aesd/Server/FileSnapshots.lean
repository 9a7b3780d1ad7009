import Aesd.Server.FileServer

/-! Replies of the plain-file build. As long as every call succeeds in full, the
lines of the connections and the records of the timer thread form one log behind
what the data file held before, and every reply is the whole of it: unlike the
device, the file forgets nothing. -/

namespace Aesd.Server

open Segments Run Driver Atomic

/-! ### Sections that succeed in full -/

/-- `write` takes everything, `read` brings at least a byte when there is one, and
`send` accepts all that was read. -/
def FullOutcome (v : StoreVars) (env : StoreEnv) (_ : FileStore) : Prop :=
  match v.pc with
  | .write => ∃ k ∈ env.write, v.data.length ≤ k
  | .read => ∃ k ∈ env.read, 0 < k
  | .send => ∃ k ∈ env.send, v.bytesRead ≤ k
  | _ => True

instance (v : StoreVars) (env : StoreEnv) (s : FileStore) : Decidable (FullOutcome v env s) := by
  unfold FullOutcome
  split <;> infer_instance

/-- Where a section is that found the contents `file`. -/
def SectionInv (file : List UInt8) (c : StoreCall) (v : StoreVars) (s : FileStore) : Prop :=
  match c, v.pc with
  | .write data, .write => v.data = data ∧ s.file = file
  | .write data, .writeUnlock => s.file = file ++ data
  | .readToDest, .lseek => s.file = file ∧ v.ret = 0 ∧ v.reply = []
  | .readToDest, .read => s.file = file ∧ v.ret = 0 ∧ s.fPos ≤ file.length ∧
      v.reply = (file.take s.fPos).map some
  | .readToDest, .send => s.file = file ∧ v.ret = 0 ∧ s.fPos ≤ file.length ∧
      v.bytesRead ≤ v.fileBuffer.length ∧
      v.reply ++ v.fileBuffer.take v.bytesRead = (file.take s.fPos).map some
  | .readToDest, .readUnlock => s.file = file ∧ v.ret = 0 ∧ v.reply = file.map some
  | _, _ => False

/-- A write appends; a read sends the whole file. -/
def SectionPost (file : List UInt8) (c : StoreCall) (r : StoreResult) (s : FileStore) : Prop :=
  match c with
  | .write data => r = ⟨0, [], false⟩ ∧ s.file = file ++ data
  | .readToDest => r = ⟨0, file.map some, false⟩ ∧ s.file = file

section Sections

variable {file : List UInt8} {c : StoreCall} {v v' : StoreVars} {s s' : FileStore} {e : StoreEnv}
  {r : StoreResult} {es : List StoreEnv}

/-- A `read` that brings `k` bytes, or none at the end. -/
theorem storeStep_read {k : ℕ} (hpc : v.pc = .read) (hret : v.ret = 0) (hk : e.read = some k) :
    let n := min k (min 1024 (s.file.length - s.fPos))
    storeStep v e s = (.inl { v with
        bytesRead := n
        fileBuffer := overwrite v.fileBuffer 0 (((s.file.drop s.fPos).take n).map some)
        pc := if n = 0 then .readUnlock else .send }, { s with fPos := s.fPos + n }) := by
  intro n
  have hsize : ((n : ℤ) % 2 ^ 64).toNat = n := by omega
  simp only [storeStep, hpc, hk, FileStore.read]
  simp only [show min k (min 1024 (s.file.length - s.fPos)) = n from rfl, hsize]
  by_cases hn : n = 0
  · rw [if_neg (by omega), if_neg (by omega), if_pos hn]
  · rw [if_pos ⟨by omega, by omega⟩, if_neg hn]

theorem SectionInv.step (h : SectionInv file c v s) (he : FullOutcome v e s)
    (hstep : storeStep v e s = (.inl v', s')) : SectionInv file c v' s' := by
  cases hpc : v.pc with
  | write =>
    simp only [FullOutcome, hpc] at he
    obtain ⟨k, hk, hlen⟩ := he
    rw [storeStep_write hpc hk] at hstep
    obtain ⟨hv, rfl⟩ := Prod.mk.inj hstep
    obtain rfl := Sum.inl.inj hv
    cases c with
    | readToDest => simp [SectionInv, hpc] at h
    | write data =>
      simp only [SectionInv, hpc] at h
      obtain ⟨rfl, rfl⟩ := h
      simp only [SectionInv, FileStore.write, List.take_of_length_le hlen]
  | lseek =>
    simp only [storeStep, hpc] at hstep
    obtain ⟨hv, rfl⟩ := Prod.mk.inj hstep
    obtain rfl := Sum.inl.inj hv
    cases c with
    | write data => simp [SectionInv, hpc] at h
    | readToDest =>
      simp only [SectionInv, hpc] at h
      obtain ⟨rfl, hret, hreply⟩ := h
      exact ⟨rfl, hret, Nat.zero_le _, by simpa using hreply⟩
  | read =>
    simp only [FullOutcome, hpc] at he
    obtain ⟨k, hk, hpos⟩ := he
    cases c with
    | write data => simp [SectionInv, hpc] at h
    | readToDest =>
      simp only [SectionInv, hpc] at h
      obtain ⟨rfl, hret, hle, hreply⟩ := h
      rw [storeStep_read hpc hret hk] at hstep
      obtain ⟨hv, rfl⟩ := Prod.mk.inj hstep
      obtain rfl := Sum.inl.inj hv
      set n := min k (min 1024 (s.file.length - s.fPos)) with hn
      by_cases hn0 : n = 0
      · -- the end of the file
        have hend : s.fPos = s.file.length := by omega
        simp only [SectionInv, hn0, if_true]
        exact ⟨trivial, hret, by rw [hreply, hend, List.take_length]⟩
      · have hlen : (((s.file.drop s.fPos).take n).map some).length = n := by simp; omega
        simp only [SectionInv, if_neg hn0]
        refine ⟨trivial, hret, by omega, ?_, ?_⟩
        · simp only [overwrite, List.length_append, hlen]
          omega
        · rw [overwrite, List.take_zero, List.nil_append, List.take_append_of_le_length hlen.ge,
            List.take_of_length_le hlen.le, hreply, ← List.map_append, ← List.take_add]
  | send =>
    simp only [FullOutcome, hpc] at he
    obtain ⟨k, hk, hfull⟩ := he
    simp only [storeStep, hpc, Option.mem_def.mp hk] at hstep
    obtain ⟨hv, rfl⟩ := Prod.mk.inj hstep
    obtain rfl := Sum.inl.inj hv
    cases c with
    | write data => simp [SectionInv, hpc] at h
    | readToDest =>
      simp only [SectionInv, hpc] at h
      obtain ⟨rfl, hret, hle, hsize, hreply⟩ := h
      refine ⟨rfl, hret, hle, ?_⟩
      rw [← hreply, Nat.min_eq_right hfull, resize, Nat.sub_eq_zero_of_le hsize]
      simp
  | writeUnlock | readUnlock =>
    simp only [storeStep, hpc] at hstep
    cases (Prod.mk.inj hstep).1

theorem SectionInv.post (h : SectionInv file c v s) (he : FullOutcome v e s)
    (hstep : storeStep v e s = (.inr r, s')) : SectionPost file c r s' := by
  cases hpc : v.pc with
  | write =>
    simp only [FullOutcome, hpc] at he
    obtain ⟨k, hk, -⟩ := he
    rw [storeStep_write hpc hk] at hstep
    cases (Prod.mk.inj hstep).1
  | writeUnlock =>
    simp only [storeStep, hpc] at hstep
    obtain ⟨hr, rfl⟩ := Prod.mk.inj hstep
    obtain rfl := Sum.inr.inj hr
    cases c with
    | readToDest => simp [SectionInv, hpc] at h
    | write data =>
      simp only [SectionInv, hpc] at h
      exact ⟨rfl, h⟩
  | lseek =>
    simp only [storeStep, hpc] at hstep
    cases (Prod.mk.inj hstep).1
  | read =>
    simp only [FullOutcome, hpc] at he
    obtain ⟨k, hk, -⟩ := he
    cases c with
    | write data => simp [SectionInv, hpc] at h
    | readToDest =>
      simp only [SectionInv, hpc] at h
      rw [storeStep_read hpc h.2.1 hk] at hstep
      cases (Prod.mk.inj hstep).1
  | send =>
    simp only [FullOutcome, hpc] at he
    obtain ⟨k, hk, -⟩ := he
    simp only [storeStep, hpc, Option.mem_def.mp hk] at hstep
    cases (Prod.mk.inj hstep).1
  | readUnlock =>
    simp only [storeStep, hpc] at hstep
    obtain ⟨hr, rfl⟩ := Prod.mk.inj hstep
    obtain rfl := Sum.inr.inj hr
    cases c with
    | write data => simp [SectionInv, hpc] at h
    | readToDest =>
      simp only [SectionInv, hpc] at h
      obtain ⟨rfl, hret, hreply⟩ := h
      exact ⟨by rw [hret, hreply], rfl⟩

theorem exec_full (hm : fileServer.Meets FullOutcome c.start es { s with fileMutex := true })
    (h : fileServer.exec c.start es { s with fileMutex := true } = some (r, s')) :
    SectionPost s.file c r s' := by
  refine Program.exec_spec (I := SectionInv s.file c) ?_ ?_ ?_ hm h
  · exact fun _ _ _ _ _ hI he hstep => hI.step he hstep
  · exact fun _ _ _ _ _ hI he hstep => hI.post he hstep
  · cases c with
    | write data => exact ⟨rfl, rfl⟩
    | readToDest => exact ⟨rfl, rfl, rfl⟩

end Sections

/-! ### The invariant -/

variable {ι : Type*} [DecidableEq ι]

def toEvent : Option ι × StoreNote → Event (Option ι)
  | (t, .wrote data _) => .wrote t data
  | (t, .replied bytes _) => .replied t bytes

/-- The lines written and the replies sent in a run of the plain-file build. -/
def fileEvents (file : List UInt8) (input : ι → List SockRead) (timestamp : List UInt8)
    (as : List (Atomic.Label (Option ι) Outside StoreEnv)) : List (Event (Option ι)) :=
  (fileTrace file input timestamp as).map toEvent

def IsTimestamp (line : List UInt8) : Prop := ∃ tm, line = timestampText tm ++ [newline]

def ConnPc.toPc : ConnPc → Pc
  | .readLine => .readLine
  | .write => .writeLock
  | .read => .readLock
  | .closeConnection => .closeConnection
  | .complete => .complete

/-- A connection as a thread of the device build, where a filestore function begins
with the wait for the mutex. -/
def Connection.toThread (c : Connection) : Thread :=
  { Thread.initial c.input with
    pc := c.pc.toPc
    connBuffer := c.connBuffer
    bytesReceived := c.bytesReceived
    operationFailed := c.operationFailed }

/-- The data file is the log, and every thread is where the trace says. -/
structure FileSynced (file : List UInt8) (lines : ι → List (List UInt8)) (tr : List (Event (Option ι)))
    (s : Serial (Option ι) FileThread FileStore) : Prop where
  file : s.shared.file = file ++ ((log tr).map Prod.snd).flatten
  connection : ∀ t, ∃ c, s.thread (some t) = .connection c ∧
    Progress (lines t) (linesOf (some t) (log tr)) (repliesOf (some t) tr).length c.toThread
  timer : ∃ timestamp ready, s.thread none = .timer timestamp ready ∧ timestamp.length = 100 ∧
    (ready = true → IsTimestamp (cString timestamp))
  records : ∀ line ∈ linesOf none (log tr), IsTimestamp line

section Steps

variable {file : List UInt8} {lines : ι → List (List UInt8)} {tr : List (Event (Option ι))}
  {s : Serial (Option ι) FileThread FileStore}

/-- A step of a connection. -/
theorem FileSynced.connection_step (h : FileSynced file lines tr s) {t : ι} {c : Connection}
    {shared : FileStore} {held : Bool} {evs : List (Event (Option ι))}
    (hevs : ∀ u, u ≠ some t → linesOf u (log (tr ++ evs)) = linesOf u (log tr) ∧
      repliesOf u (tr ++ evs) = repliesOf u tr)
    (hfile : shared.file = s.shared.file ++ ((log evs).map Prod.snd).flatten)
    (hc : Progress (lines t) (linesOf (some t) (log (tr ++ evs)))
      (repliesOf (some t) (tr ++ evs)).length c.toThread) :
    FileSynced file lines (tr ++ evs)
      ⟨shared, held, Function.update s.thread (some t) (.connection c)⟩ where
  file := by
    rw [hfile, h.file, log_append, List.map_append, List.flatten_append, List.append_assoc]
  connection u := by
    by_cases hu : u = t
    · subst hu
      exact ⟨c, Function.update_self .., hc⟩
    · obtain ⟨d, hd, hp⟩ := h.connection u
      have hne : some u ≠ some t := fun he => hu (Option.some.inj he)
      refine ⟨d, by simpa [hu] using hd, ?_⟩
      rwa [(hevs _ hne).1, (hevs _ hne).2]
  timer := by
    obtain ⟨timestamp, ready, htimer, hrest⟩ := h.timer
    exact ⟨timestamp, ready, by simpa using htimer, hrest⟩
  records := by
    rw [(hevs none (by simp)).1]
    exact h.records

/-- A step of the timer thread. -/
theorem FileSynced.timer_step (h : FileSynced file lines tr s) {timestamp : List UInt8} {ready : Bool}
    {shared : FileStore} {held : Bool} {evs : List (Event (Option ι))}
    (hevs : ∀ t : ι, linesOf (some t) (log (tr ++ evs)) = linesOf (some t) (log tr) ∧
      repliesOf (some t) (tr ++ evs) = repliesOf (some t) tr)
    (hfile : shared.file = s.shared.file ++ ((log evs).map Prod.snd).flatten)
    (hlen : timestamp.length = 100) (hready : ready = true → IsTimestamp (cString timestamp))
    (hrecords : ∀ line ∈ linesOf none (log (tr ++ evs)), IsTimestamp line) :
    FileSynced file lines (tr ++ evs)
      ⟨shared, held, Function.update s.thread none (.timer timestamp ready)⟩ where
  file := by
    rw [hfile, h.file, log_append, List.map_append, List.flatten_append, List.append_assoc]
  connection u := by
    obtain ⟨d, hd, hp⟩ := h.connection u
    refine ⟨d, by simpa using hd, ?_⟩
    rwa [(hevs u).1, (hevs u).2]
  timer := ⟨timestamp, ready, by simp, hlen, hready⟩
  records := hrecords

/-- The loop test, and the end of the connection. -/
theorem Connection.progress_move {ls wrote : List (List UInt8)} {k : ℕ} {c : Connection}
    (h : Progress ls wrote k c.toThread) (hlines : ∀ l ∈ ls, IsSegment isNewline l ∧ l.length ≤ 65535)
    {env : Outside} (henv : env.shouldTerminate = false) :
    ∃ c', (FileThread.connection c).move env = .connection c' ∧ Progress ls wrote k c'.toThread := by
  cases hpc : c.pc with
  | readLine =>
    have hp := h.readLine (by simp [Connection.toThread, ConnPc.toPc, hpc]) hlines henv
    simp only [FileThread.move, hpc]
    refine ⟨_, rfl, ?_⟩
    convert hp using 1
    simp only [Connection.toThread, Thread.initial, apply_ite ConnPc.toPc]
    rfl
  | closeConnection =>
    simp only [FileThread.move, hpc]
    exact ⟨_, rfl, h.move h.going h.ret rfl (by simp [Connection.toThread, ConnPc.toPc, hpc, Pc.ahead])
      (by simp [Connection.toThread, ConnPc.toPc, hpc, Thread.pending])
      (by simp [Connection.toThread, ConnPc.toPc, hpc])⟩
  | write | read | complete =>
    simp only [FileThread.move, hpc]
    exact ⟨c, rfl, h⟩

/-- A line has been written. -/
theorem Connection.progress_write {ls wrote : List (List UInt8)} {k : ℕ} {c : Connection}
    (h : Progress ls wrote k c.toThread) (hpc : c.pc = .write) {r : StoreResult} (hr : r.ret = 0) :
    ∃ c', (FileThread.connection c).leave r = .connection c' ∧
      Progress ls (wrote ++ [c.data]) k c'.toThread := by
  obtain ⟨todo, hl, hrec, -⟩ := h.split
  have hcount := h.count
  simp only [Connection.toThread, ConnPc.toPc, hpc, Thread.pending, Thread.data, Pc.ahead] at hl hcount
  simp only [FileThread.leave, hpc, hr]
  refine ⟨_, rfl, by simpa [Connection.toThread] using h.going,
    by simp [Connection.toThread, Thread.initial],
    h.clean, ?_, todo, ?_, hrec, by simp [Connection.toThread, ConnPc.toPc]⟩
  · simpa [Connection.toThread, ConnPc.toPc, Pc.ahead] using hcount
  · simpa [Connection.toThread, ConnPc.toPc, Thread.pending, Connection.data] using hl

/-- A reply has been sent. -/
theorem Connection.progress_read {ls wrote : List (List UInt8)} {k : ℕ} {c : Connection}
    (h : Progress ls wrote k c.toThread) (hpc : c.pc = .read) {r : StoreResult} (hr : r.ret = 0) :
    ∃ c', (FileThread.connection c).leave r = .connection c' ∧
      Progress ls wrote (k + 1) c'.toThread := by
  obtain ⟨todo, hl, hrec, -⟩ := h.split
  have hcount := h.count
  simp only [Connection.toThread, ConnPc.toPc, hpc, Thread.pending, Pc.ahead] at hl hcount
  simp only [FileThread.leave, hpc, hr]
  refine ⟨_, rfl, by simpa [Connection.toThread] using h.going,
    by simp [Connection.toThread, Thread.initial],
    h.clean, ?_, todo, ?_, hrec, by simp [Connection.toThread, ConnPc.toPc]⟩
  · simpa [Connection.toThread, ConnPc.toPc, Pc.ahead] using hcount
  · simpa [Connection.toThread, ConnPc.toPc, Thread.pending] using hl

theorem FileSynced.move (h : FileSynced file lines tr s)
    (hlines : ∀ t, ∀ l ∈ lines t, IsSegment isNewline l ∧ l.length ≤ 65535) (t : Option ι) {env : Outside}
    (henv : env.shouldTerminate = false) :
    FileSynced file lines tr { s with thread := Function.update s.thread t ((s.thread t).move env) } := by
  rw [← List.append_nil tr]
  cases t with
  | none =>
    obtain ⟨timestamp, ready, htimer, hlen, -⟩ := h.timer
    obtain ⟨hrecord, hlen'⟩ := cString_strftime hlen env.unknown env.tm
    rw [htimer]
    refine h.timer_step (fun u => by simp) (by simp [log]) hlen' (fun _ => ⟨env.tm, hrecord⟩) ?_
    rw [List.append_nil]
    exact h.records
  | some t =>
    obtain ⟨c, hc, hp⟩ := h.connection t
    obtain ⟨c', hmove, hp'⟩ := Connection.progress_move hp (hlines t) henv
    rw [hc, hmove]
    refine h.connection_step (fun u _ => by simp) (by simp [log]) ?_
    rwa [List.append_nil]

theorem linesOf_log_wrote (t u : Option ι) (line : List UInt8) :
    linesOf u (log (tr ++ [.wrote t line])) =
      if t = u then linesOf u (log tr) ++ [line] else linesOf u (log tr) := by
  rw [log_append]
  exact linesOf_concat t u (log tr) line

theorem linesOf_log_replied (t u : Option ι) (bytes : List Cell) :
    linesOf u (log (tr ++ [.replied t bytes])) = linesOf u (log tr) := by
  rw [log_append]
  exact congrArg (linesOf u) (List.append_nil _)

/-- A filestore function has returned. -/
theorem FileSynced.call (h : FileSynced file lines tr s) {t : Option ι} {c : StoreCall} {r : StoreResult}
    {shared : FileStore} (hnext : (s.thread t).next = some c)
    (hpost : SectionPost s.shared.file c r shared) :
    FileSynced file lines (tr ++ (fileServer.returned (s.thread t) c r).map (toEvent ⟨t, ·⟩))
      ⟨shared, r.kept, Function.update s.thread t ((s.thread t).leave r)⟩ := by
  cases t with
  | none =>
    obtain ⟨timestamp, ready, htimer, hlen, hready⟩ := h.timer
    rw [htimer, FileThread.next] at hnext
    split_ifs at hnext with hr
    obtain rfl := Option.some.inj hnext
    obtain ⟨-, hfile⟩ := hpost
    rw [htimer]
    refine h.timer_step (fun u => ?_) (by simpa [fileServer, toEvent, log] using hfile) hlen (by simp) ?_
    · exact ⟨(linesOf_log_wrote none (some u) _).trans (if_neg (by simp)), repliesOf_concat_wrote ..⟩
    · intro line hline
      change line ∈ linesOf none (log (tr ++ [.wrote none (cString timestamp)])) at hline
      rw [linesOf_log_wrote, if_pos rfl] at hline
      rcases List.mem_append.mp hline with hline | hline
      · exact h.records line hline
      · rw [List.mem_singleton.mp hline]
        exact hready hr
  | some t =>
    obtain ⟨d, hd, hp⟩ := h.connection t
    rw [hd] at hnext ⊢
    cases hpc : d.pc with
    | readLine | closeConnection | complete => simp [FileThread.next, hpc] at hnext
    | write =>
      simp only [FileThread.next, hpc, Option.some.injEq] at hnext
      subst hnext
      obtain ⟨rfl, hfile⟩ := hpost
      obtain ⟨d', hleave, hp'⟩ := Connection.progress_write hp hpc (r := ⟨0, [], false⟩) rfl
      rw [hleave]
      refine h.connection_step (fun u hu => ?_) (by simpa [fileServer, toEvent, log] using hfile) ?_
      · exact ⟨(linesOf_log_wrote (some t) u _).trans (if_neg hu.symm), repliesOf_concat_wrote ..⟩
      · change Progress _ (linesOf _ (log (tr ++ [.wrote (some t) d.data])))
          (repliesOf _ (tr ++ [.wrote (some t) d.data])).length _
        rwa [linesOf_log_wrote, if_pos rfl, repliesOf_concat_wrote]
    | read =>
      simp only [FileThread.next, hpc, Option.some.injEq] at hnext
      subst hnext
      obtain ⟨rfl, hfile⟩ := hpost
      obtain ⟨d', hleave, hp'⟩ :=
        Connection.progress_read hp hpc (r := ⟨0, s.shared.file.map some, false⟩) rfl
      rw [hleave]
      refine h.connection_step (fun u hu => ?_) (by simpa [fileServer, toEvent, log] using hfile) ?_
      · exact ⟨linesOf_log_replied .., (repliesOf_concat_replied ..).trans (if_neg hu.symm)⟩
      · change Progress _ (linesOf _ (log (tr ++ [.replied (some t) (s.shared.file.map some)])))
          (repliesOf _ (tr ++ [.replied (some t) (s.shared.file.map some)])).length _
        rwa [linesOf_log_replied, repliesOf_concat_replied, if_pos rfl, List.length_append]

theorem FileSynced.isSegment (h : FileSynced file lines tr s)
    (hlines : ∀ t, ∀ l ∈ lines t, IsSegment isNewline l ∧ l.length ≤ 65535) {line : List UInt8}
    (hl : line ∈ (log tr).map Prod.snd) : IsSegment isNewline line := by
  obtain ⟨⟨t, line⟩, hmem, rfl⟩ := List.mem_map.mp hl
  have hof : line ∈ linesOf t (log tr) := List.mem_map.mpr ⟨_, List.mem_filter.mpr ⟨hmem, by simp⟩, rfl⟩
  cases t with
  | none =>
    obtain ⟨tm, htm⟩ := h.records line hof
    rw [htm]
    exact isSegment_timestamp tm
  | some t =>
    obtain ⟨c, -, hp⟩ := h.connection t
    obtain ⟨todo, hsplit, -⟩ := hp.split
    refine (hlines t line ?_).1
    rw [hsplit]
    simp [hof]

/-- Only connections read the file. -/
theorem FileSynced.next_readToDest (h : FileSynced file lines tr s) {t : Option ι}
    (hnext : (s.thread t).next = some .readToDest) :
    ∃ u d, t = some u ∧ s.thread (some u) = .connection d ∧ d.pc = .read := by
  cases t with
  | none =>
    obtain ⟨_, ready, htimer, -⟩ := h.timer
    rw [htimer, FileThread.next] at hnext
    split_ifs at hnext
    cases hnext
  | some u =>
    obtain ⟨d, hd, -⟩ := h.connection u
    refine ⟨u, d, rfl, hd, ?_⟩
    rw [hd] at hnext
    cases hpc : d.pc <;> simp [FileThread.next, hpc] at hnext ⊢

theorem FileSynced.step (h : FileSynced file lines tr s)
    (hlines : ∀ t, ∀ l ∈ lines t, IsSegment isNewline l ∧ l.length ≤ 65535)
    {b : SerialLabel (Option ι) Outside StoreEnv}
    (hb : fileServer.SerialMeets (fun _ env => env.shouldTerminate = false) FullOutcome s b) :
    FileSynced file lines (tr ++ (fileServer.serialEvent s b).map toEvent)
      (fileServer.serialStep s b) := by
  cases b with
  | move t env =>
    have hevent : fileServer.serialEvent s (.move t env) = [] := by
      rw [Program.serialEvent]
      split_ifs <;> rfl
    rw [hevent, List.map_nil, List.append_nil, Program.serialStep]
    split_ifs
    · exact h.move hlines t hb
    · exact h
  | call t es =>
    cases hcalls : fileServer.calls s t es with
    | none =>
      simp only [Program.serialEvent, Program.serialStep, hcalls, List.map_nil, List.append_nil]
      exact h
    | some x =>
      obtain ⟨c, r, shared⟩ := x
      obtain ⟨-, hnext, hexec⟩ := Program.calls_eq_some hcalls
      simp only [Program.serialEvent, Program.serialStep, hcalls, List.map_map]
      exact h.call hnext (exec_full (hb c hnext) hexec)

end Steps

/-! ### Runs -/

omit [DecidableEq ι] in
theorem length_serialEvent_le (s : Serial (Option ι) FileThread FileStore)
    (b : SerialLabel (Option ι) Outside StoreEnv) : (fileServer.serialEvent s b).length ≤ 1 := by
  cases b with
  | move t env =>
    rw [Program.serialEvent]
    split_ifs <;> simp [fileServer]
  | call t es =>
    rw [Program.serialEvent]
    split
    · simp
    · next c _ _ _ => cases c <;> simp [fileServer]

section Runs

variable {lines : ι → List (List UInt8)} {input : ι → List SockRead} {timestamp : List UInt8}

theorem SendsLines.initial_fileSynced (h : SendsLines lines input) (file : List UInt8)
    (htimestamp : timestamp.length = 100) :
    FileSynced file lines [] (.initial ⟨file, 0, false⟩ (fileThreads input timestamp)) where
  file := (List.append_nil file).symm
  connection t := by
    refine ⟨_, rfl, rfl, ?_, h.clean t, rfl, lines t, rfl, h.received t, ?_⟩ <;>
      simp [Connection.toThread, Connection.initial, Thread.initial, ConnPc.toPc]
  timer := ⟨timestamp, false, rfl, htimestamp, by simp⟩
  records := by simp [linesOf, log]

theorem SendsLines.run_fileSynced (h : SendsLines lines input) (file : List UInt8)
    (htimestamp : timestamp.length = 100) {bs : List (SerialLabel (Option ι) Outside StoreEnv)}
    (hbs : Along fileServer.serialStep
      (fileServer.SerialMeets (fun _ env => env.shouldTerminate = false) FullOutcome)
      (.initial ⟨file, 0, false⟩ (fileThreads input timestamp)) bs) :
    FileSynced file lines
      ((outputs fileServer.serialStep fileServer.serialEvent
        (.initial ⟨file, 0, false⟩ (fileThreads input timestamp)) bs).map toEvent)
      (run fileServer.serialStep (.initial ⟨file, 0, false⟩ (fileThreads input timestamp)) bs) := by
  induction bs using List.reverseRecOn with
  | nil => exact h.initial_fileSynced file htimestamp
  | append_singleton bs b ih =>
    obtain ⟨hbs, hb⟩ := along_concat.mp hbs
    rw [outputs_concat, List.map_append, run_concat]
    exact (ih hbs).step h.line hb

/-- The serial run behind a run in which every call succeeds in full. -/
theorem SendsLines.exists_serial (h : SendsLines lines input) {file : List UInt8}
    (htimestamp : timestamp.length = 100) {as : List (Atomic.Label (Option ι) Outside StoreEnv)}
    (has : Along fileServer.threadStep
      (Threads.StepMeets (fun _ env => env.shouldTerminate = false) FullOutcome)
      (fileServerInitial file input timestamp) as) :
    ∃ s : Serial (Option ι) FileThread FileStore,
      FileSynced file lines (fileEvents file input timestamp as) s ∧
      (∀ t d, (run fileServer.threadStep (fileServerInitial file input timestamp) as).phase t =
          .outside d →
        s.thread t = d) ∧
      ∀ pre t bytes post, fileEvents file input timestamp as = pre ++ .replied t bytes :: post →
        ∃ s', FileSynced file lines pre s' ∧ bytes = s'.shared.file.map some ∧
          ∃ u d, t = some u ∧ s'.thread (some u) = .connection d ∧ d.pc = .read := by
  obtain ⟨bs, hbs, hout, hfollows⟩ := fileServer.exists_serial has
  have htrace : fileEvents file input timestamp as =
      (outputs fileServer.serialStep fileServer.serialEvent
        (.initial ⟨file, 0, false⟩ (fileThreads input timestamp)) bs).map toEvent := by
    rw [hout]
    rfl
  rw [htrace]
  refine ⟨_, h.run_fileSynced file htimestamp hbs, hfollows.outside, fun pre t bytes post htr => ?_⟩
  obtain ⟨notes, rest, hnotes, rfl, hrest⟩ := List.map_eq_append_iff.mp htr
  obtain ⟨note, rest, rfl, hnote, rfl⟩ := List.map_eq_cons_iff.mp hrest
  obtain ⟨before, b, after, rfl, hbefore, hb⟩ := outputs_split length_serialEvent_le hnotes
  obtain ⟨halong, hmeets, -⟩ := along_append.mp hbs
  have hs := h.run_fileSynced file htimestamp halong
  rw [hbefore] at hs
  refine ⟨_, hs, ?_⟩
  generalize run fileServer.serialStep
      (.initial ⟨file, 0, false⟩ (fileThreads input timestamp)) before = s at *
  cases b with
  | move u env => exact absurd hb (by simp [Program.serialEvent, fileServer])
  | call u es =>
    rw [Program.serialEvent] at hb
    cases hcalls : fileServer.calls s u es with
    | none => simp [hcalls] at hb
    | some x =>
      obtain ⟨c, r, shared⟩ := x
      obtain ⟨-, hnext, hexec⟩ := Program.calls_eq_some hcalls
      have hpost := exec_full (hmeets c hnext) hexec
      rw [hcalls] at hb
      cases c with
      | write data =>
        obtain rfl := List.singleton_injective hb
        cases hnote
      | readToDest =>
        obtain rfl := List.singleton_injective hb
        obtain ⟨rfl, rfl⟩ := Event.replied.inj hnote
        exact ⟨by rw [hpost.1], hs.next_readToDest hnext⟩

/-- Any number of connections that send whole lines of at most 65535 bytes, the timer
thread, any interleaving, every call succeeding in full and no shutdown, and whatever
the data file holds before. The lines of each connection come into the log in order,
all of them once it has ended, with one reply to each, and the timer thread writes
timestamps only. Every reply goes to a connection and is the old contents with the
whole log so far behind it; the `k`-th reply of a connection comes after just its first
`k` lines. -/
theorem file_replies_are_snapshots (lines : ι → List (List UInt8)) (input : ι → List SockRead)
    (h : SendsLines lines input) (file timestamp : List UInt8) (htimestamp : timestamp.length = 100)
    (as : List (Atomic.Label (Option ι) Outside StoreEnv))
    (has : Along fileServer.threadStep
      (Threads.StepMeets (fun _ env => env.shouldTerminate = false) FullOutcome)
      (fileServerInitial file input timestamp) as) :
    let tr := fileEvents file input timestamp as
    (∀ t, linesOf (some t) (log tr) <+: lines t ∧
      ∀ c, (run fileServer.threadStep (fileServerInitial file input timestamp) as).phase (some t) =
          .outside (.connection c) → c.pc = .complete →
        linesOf (some t) (log tr) = lines t ∧ (repliesOf (some t) tr).length = (lines t).length) ∧
    (∀ line ∈ linesOf none (log tr), IsTimestamp line) ∧
    (∀ pre t bytes post, tr = pre ++ .replied t bytes :: post →
      bytes = (file ++ ((log pre).map Prod.snd).flatten).map some ∧
      ∃ u, t = some u ∧ (repliesOf t pre).length < (lines u).length ∧
        linesOf t (log pre) = (lines u).take ((repliesOf t pre).length + 1)) := by
  intro tr
  obtain ⟨s, hs, hphase, hreply⟩ := h.exists_serial htimestamp has
  refine ⟨fun t => ?_, hs.records, fun pre t bytes post htr => ?_⟩
  · obtain ⟨c, hc, hp⟩ := hs.connection t
    obtain ⟨todo, hl, -, hend⟩ := hp.split
    refine ⟨⟨_, by rw [hl, List.append_assoc]⟩, fun c' hc' hpc => ?_⟩
    obtain rfl : c = c' := by
      have hd := hphase _ _ hc'
      rw [hc] at hd
      exact FileThread.connection.inj hd
    have hpc' : c.toThread.pc = .complete := by simp [Connection.toThread, ConnPc.toPc, hpc]
    have hcount := hp.count
    simp only [Thread.pending, hpc', Pc.ahead, hend (.inr hpc'), List.append_nil] at hl hcount
    exact ⟨hl.symm, by rw [hl, hcount]; rfl⟩
  · obtain ⟨s', hs', rfl, u, d, rfl, hd, hpc⟩ := hreply pre t bytes post htr
    obtain ⟨c, hc, hp⟩ := hs'.connection u
    obtain rfl : c = d := by
      rw [hc] at hd
      exact FileThread.connection.inj hd
    have hpc' : c.toThread.pc = .readLock := by simp [Connection.toThread, ConnPc.toPc, hpc]
    obtain ⟨todo, hl, -, -⟩ := hp.split
    have hcount := hp.count
    simp only [Thread.pending, hpc', Pc.ahead, List.append_nil] at hl hcount
    refine ⟨by rw [hs'.file], u, rfl, ?_, by rw [hl, List.take_left' hcount]⟩
    rw [hl, List.length_append]
    omega

/-- Under the same conditions, when the data file begins with whole lines, a reply splits
into these and every line written before it, in order: no line is missing or cut,
however many the others write. -/
theorem file_reply_splits (lines : ι → List (List UInt8)) (input : ι → List SockRead)
    (h : SendsLines lines input) (file timestamp : List UInt8) (hfile : (segments isNewline file).2 = [])
    (htimestamp : timestamp.length = 100) (as : List (Atomic.Label (Option ι) Outside StoreEnv))
    (has : Along fileServer.threadStep
      (Threads.StepMeets (fun _ env => env.shouldTerminate = false) FullOutcome)
      (fileServerInitial file input timestamp) as)
    (pre : List (Event (Option ι))) (t : Option ι) (bytes : List Cell) (post : List (Event (Option ι)))
    (htr : fileEvents file input timestamp as = pre ++ .replied t bytes :: post) :
    ∃ reply : List UInt8, bytes = reply.map some ∧
      segments isNewline reply = ((segments isNewline file).1 ++ (log pre).map Prod.snd, []) := by
  obtain ⟨-, -, -, hreply⟩ := h.exists_serial htimestamp has
  obtain ⟨s, hs, rfl, -⟩ := hreply pre t bytes post htr
  refine ⟨_, rfl, ?_⟩
  obtain ⟨hflat, hseg, -⟩ := segments_spec (p := isNewline) file
  rw [hfile, List.append_nil] at hflat
  have hall : ∀ l ∈ (segments isNewline file).1 ++ (log pre).map Prod.snd, IsSegment isNewline l := by
    intro l hl
    rcases List.mem_append.mp hl with hl | hl
    · exact hseg l hl
    · exact hs.isSegment h.line hl
  have hsplit := segments_flatten_append hall free_nil
  rwa [List.append_nil, List.flatten_append, hflat, ← hs.file] at hsplit

end Runs

/-! ### A run -/

/-- The timer thread stores a record, and the only connection a line; then it reads. -/
def oneTurn : List (Atomic.Label (Option Unit) Outside StoreEnv) :=
  let outside : Outside := ⟨false, epoch, []⟩
  let full : StoreEnv := ⟨some 1024, some 1024, some 1024⟩
  [.move none outside, .enter none, .inside none full, .inside none full,
    .move (some ()) outside, .enter (some ()), .inside (some ()) full, .inside (some ()) full,
    .enter (some ()), .inside (some ()) full, .inside (some ()) full, .inside (some ()) full,
    .inside (some ()) full, .inside (some ()) full, .move (some ()) outside, .move (some ()) outside]

theorem oneTurn_sendsLines :
    SendsLines (fun _ : Unit => [[97, newline]]) (fun _ => [.byte 97, .byte newline]) where
  line _ l hl := by
    rw [List.mem_singleton.mp hl]
    exact ⟨⟨[97], newline, rfl, by decide, rfl⟩, by decide⟩
  received _ := rfl
  clean _ := by decide

theorem oneTurn_full :
    Along fileServer.threadStep (Threads.StepMeets (fun _ env => env.shouldTerminate = false) FullOutcome)
      (fileServerInitial [98, newline] (fun _ : Unit => [.byte 97, .byte newline]) (List.replicate 100 0))
      oneTurn := by
  decide +kernel

theorem file_replies_are_snapshots_oneTurn :
    linesOf (some ()) (log (fileEvents [98, newline] (fun _ : Unit => [.byte 97, .byte newline])
      (List.replicate 100 0) oneTurn)) <+: [[97, newline]] :=
  ((file_replies_are_snapshots _ _ oneTurn_sendsLines _ _ rfl _ oneTurn_full).1 ()).1

theorem file_reply_splits_oneTurn :
    ∃ reply : List UInt8, (repliesOf (some ()) (fileEvents [98, newline]
        (fun _ : Unit => [.byte 97, .byte newline]) (List.replicate 100 0) oneTurn)) = [reply.map some] ∧
      segments isNewline reply =
        ([[98, newline], timestampText epoch ++ [newline], [97, newline]], []) := by
  obtain ⟨reply, hreply, hsplit⟩ := file_reply_splits _ _ oneTurn_sendsLines [98, newline] _
    (by decide) rfl _ oneTurn_full
    [.wrote none (timestampText epoch ++ [newline]), .wrote (some ()) [97, newline]]
    (some ()) (([98, newline] ++ timestampText epoch ++ [newline, 97, newline]).map some) []
    (by decide +kernel)
  refine ⟨reply, ?_, hsplit⟩
  rw [← hreply]
  decide +kernel

end Aesd.Server
