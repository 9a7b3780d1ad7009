import Aesd.Driver.Reader
import Aesd.Server.Mutex

/-! Replies as snapshots of one log. As long as no call fails, the lines are
written one after the other, in the order of the write sections, and a read
section sees them all: the mutex keeps every writer out until the whole content
of the device has been read. -/

namespace Aesd.Server

open Segments Run Driver

variable {ι : Type*} [DecidableEq ι]

/-! ### The log -/

/-- The lines written in a trace, with their connections. -/
def log (tr : List (Event ι)) : List (ι × List UInt8) :=
  tr.filterMap fun
    | .wrote t line => some (t, line)
    | .replied _ _ => none

/-- The lines of one connection in a log. -/
def linesOf (t : ι) (lg : List (ι × List UInt8)) : List (List UInt8) :=
  (lg.filter fun e => e.1 = t).map Prod.snd

/-- The replies of one connection in a trace. -/
def repliesOf (t : ι) (tr : List (Event ι)) : List (List Cell) :=
  tr.filterMap fun
    | .wrote _ _ => none
    | .replied u bytes => if u = t then some bytes else none

omit [DecidableEq ι] in
theorem log_append (tr tr' : List (Event ι)) : log (tr ++ tr') = log tr ++ log tr' :=
  List.filterMap_append

theorem linesOf_concat (t u : ι) (lg : List (ι × List UInt8)) (line : List UInt8) :
    linesOf u (lg ++ [(t, line)]) = if t = u then linesOf u lg ++ [line] else linesOf u lg := by
  simp only [linesOf, List.filter_append, List.map_append]
  split_ifs with h <;> simp [h]

theorem repliesOf_concat_replied (t u : ι) (tr : List (Event ι)) (bytes : List Cell) :
    repliesOf u (tr ++ [.replied t bytes]) =
      if t = u then repliesOf u tr ++ [bytes] else repliesOf u tr := by
  simp only [repliesOf, List.filterMap_append]
  split_ifs with h <;> simp [h]

theorem repliesOf_concat_wrote (t u : ι) (tr : List (Event ι)) (line : List UInt8) :
    repliesOf u (tr ++ [.wrote t line]) = repliesOf u tr := by
  simp [repliesOf]

/-! ### One thread -/

/-- How many lines beyond its replies the thread has written. -/
def Pc.ahead : Pc → ℕ
  | .writeUnlock | .writeClose | .writeReturned | .readLock | .readOpen | .read | .send
  | .readUnlock => 1
  | _ => 0

/-- The line that the thread has received and not yet written. -/
def Thread.pending (th : Thread) : List (List UInt8) :=
  match th.pc with
  | .writeLock | .writeOpen | .write => [th.data]
  | _ => []

/-- The thread has written `wrote` of its `lines` and sent `k` replies. -/
structure Progress (lines wrote : List (List UInt8)) (k : ℕ) (th : Thread) : Prop where
  going : th.operationFailed = false
  ret : th.ret ≠ -1
  clean : .error ∉ th.input
  count : wrote.length = k + th.pc.ahead
  split : ∃ todo, lines = wrote ++ th.pending ++ todo ∧ received th.input = todo.flatten ∧
    (th.pc = .closeConnection ∨ th.pc = .complete → todo = [])

/-- What the thread has sent of the content in its current read section. -/
def Thread.Reads (th : Thread) (t : ι) (files : ℕ → Option (OpenFile ι)) (content : List Cell) :
    Prop :=
  match th.pc with
  | .readLock | .readOpen => th.reply = []
  | .read => ∃ n p, th.fd = some n ∧ files n = some ⟨t, p⟩ ∧ p ≤ content.length ∧
      th.reply = content.take p
  | .send => ∃ n p, th.fd = some n ∧ files n = some ⟨t, p⟩ ∧ p ≤ content.length ∧
      th.bytesRead ≤ th.fileBuffer.length ∧
      th.reply ++ th.fileBuffer.take th.bytesRead = content.take p
  | .readUnlock => th.reply = content
  | _ => True

/-! ### Other threads -/

/-- A step leaves the files of other threads and their positions alone. -/
theorem System.Owned.files_of_ne {s : System ι} (h : s.Owned) (t : ι) (env : Env) {u : ι}
    (hu : u ≠ t) {n p : ℕ} (hn : s.files n = some ⟨u, p⟩) :
    (s.threadStep t env).files n = some ⟨u, p⟩ := by
  -- an open descriptor of `t` is not `n`
  have hfd : (s.threads t).pc.opened → (s.threads t).fd ≠ some n := fun hpc hfd => by
    obtain ⟨q, hq⟩ := (h.files t n).mpr ⟨hfd, .inl hpc⟩
    rw [hn] at hq
    cases hq
    exact hu rfl
  have hlock : ∀ next, (s.lock t next).files n = some ⟨u, p⟩ := fun next => by
    unfold System.lock
    split <;> exact hn
  cases hpc : (s.threads t).pc with
  | writeLock | readLock => simpa only [System.threadStep, hpc] using hlock _
  | writeOpen | readOpen =>
    simp only [System.threadStep, hpc]
    exact System.openDevice_files_of_some hn t env.openFd
  | write =>
    have hw := System.write_files_of_ne (s := s) (hfd (by simp [hpc, Pc.opened])) env.write (s.threads t).data
    simp only [System.threadStep, hpc]
    split_ifs <;> exact hw.trans hn
  | read =>
    have hr := System.read_files_of_ne (s := s) (hfd (by simp [hpc, Pc.opened])) env.read 1024
    simp only [System.threadStep, hpc]
    split_ifs <;> exact hr.trans hn
  | writeClose | readClose =>
    simp only [System.threadStep, hpc]
    exact (System.close_files_of_ne (hfd (by simp [hpc, Pc.opened]))).trans hn
  | send =>
    simp only [System.threadStep, hpc]
    split <;> exact hn
  | _ =>
    simp only [System.threadStep, hpc]
    exact hn

/-! ### The invariant -/

/-- The driver holds the log, and every thread is where the trace says. -/
structure Synced (lines : ι → List (List UInt8)) (tr : List (Event ι)) (s : System ι) : Prop where
  owned : s.Owned
  valid : Valid s.driver
  repr : Repr s.driver ((log tr).map Prod.snd, [])
  running : s.shouldTerminate = false
  progress : ∀ t, Progress (lines t) (linesOf t (log tr)) (repliesOf t tr).length (s.threads t)
  reads : ∀ t, (s.threads t).Reads t s.files s.driver.content

omit [DecidableEq ι] in
theorem Thread.Reads.mono {th : Thread} {t : ι} {files files' : ℕ → Option (OpenFile ι)}
    {content : List Cell} (h : th.Reads t files content)
    (hfiles : ∀ n p, files n = some ⟨t, p⟩ → files' n = some ⟨t, p⟩) :
    th.Reads t files' content := by
  unfold Thread.Reads at h ⊢
  cases hpc : th.pc with
  | read | send =>
    rw [hpc] at h
    obtain ⟨n, p, hfd, hn, hrest⟩ := h
    exact ⟨n, p, hfd, hfiles n p hn, hrest⟩
  | _ =>
    rw [hpc] at h
    exact h

omit [DecidableEq ι] in
/-- Outside the critical sections nothing has been read. -/
theorem Thread.Reads.of_not_critical {th : Thread} {t : ι} {files files' : ℕ → Option (OpenFile ι)}
    {content content' : List Cell} (h : th.Reads t files content) (hpc : th.pc.critical = false) :
    th.Reads t files' content' := by
  unfold Thread.Reads at h ⊢
  cases hpc' : th.pc with
  | readLock => rwa [hpc'] at h
  | readOpen | read | send | readUnlock => simp [hpc', Pc.critical] at hpc
  | _ => trivial

/-- A step that writes nothing. -/
theorem Synced.advance {lines : ι → List (List UInt8)} {tr : List (Event ι)} {s : System ι}
    (h : Synced lines tr s) {t : ι} {env : Env} (th : Thread) (hpc : (s.threads t).pc ≠ .write)
    (hthreads : (s.threadStep t env).threads = Function.update s.threads t th)
    (hprogress : Progress (lines t) (linesOf t (log tr))
      (repliesOf t (tr ++ s.event (.thread t env))).length th)
    (hreads : th.Reads t (s.threadStep t env).files s.driver.content) :
    Synced lines (tr ++ s.event (.thread t env)) (s.step (.thread t env)) := by
  obtain ⟨_, hframe⟩ := s.threadStep_frame t env
  have hdriver := hframe.driver h.valid hpc
  have hlog : log (tr ++ s.event (.thread t env)) = log tr := by
    rcases s.event_cases t env with he | ⟨hw, -⟩ | ⟨-, he⟩
    · rw [he, List.append_nil]
    · exact absurd hw hpc
    · rw [he, log_append]
      exact List.append_nil _
  have hreplies : ∀ u, u ≠ t → repliesOf u (tr ++ s.event (.thread t env)) = repliesOf u tr := by
    intro u hu
    rcases s.event_cases t env with he | ⟨hw, -⟩ | ⟨-, he⟩
    · rw [he, List.append_nil]
    · exact absurd hw hpc
    · rw [he, repliesOf_concat_replied, if_neg (Ne.symm hu)]
  refine ⟨h.owned.step _, ?_, ?_, ?_, fun u => ?_, fun u => ?_⟩
  · rw [System.step, hdriver]
    exact h.valid
  · rw [System.step, hdriver, hlog]
    exact h.repr
  · rw [System.step, hframe.shouldTerminate, h.running]
  · rw [System.step, hthreads, hlog]
    by_cases hu : u = t
    · subst hu
      rwa [Function.update_self]
    · rw [Function.update_of_ne hu, hreplies u hu]
      exact h.progress u
  · rw [System.step, hthreads, hdriver]
    by_cases hu : u = t
    · subst hu
      rwa [Function.update_self]
    · rw [Function.update_of_ne hu]
      exact (h.reads u).mono fun n p hn => h.owned.files_of_ne t env hu hn

/-! ### Steps -/

/-- A step within one phase of the loop body. -/
theorem Progress.move {lines wrote : List (List UInt8)} {k : ℕ} {th th' : Thread}
    (h : Progress lines wrote k th) (hgoing : th'.operationFailed = false) (hret : th'.ret ≠ -1)
    (hinput : th'.input = th.input) (hahead : th'.pc.ahead = th.pc.ahead)
    (hpending : th'.pending = th.pending)
    (hended : th'.pc = .closeConnection ∨ th'.pc = .complete →
      th.pc = .closeConnection ∨ th.pc = .complete) : Progress lines wrote k th' := by
  obtain ⟨todo, hlines, hrec, htodo⟩ := h.split
  exact ⟨hgoing, hret, hinput ▸ h.clean, by rw [hahead, h.count],
    todo, by rw [hpending, hlines], by rw [hinput, hrec], fun he => htodo (hended he)⟩

/-- A step within one phase that shows nothing to the outside. -/
theorem Synced.move {lines : ι → List (List UInt8)} {tr : List (Event ι)} {s : System ι}
    (h : Synced lines tr s) {t : ι} {env : Env} (th : Thread)
    (hpc : (s.threads t).pc ≠ .write ∧ (s.threads t).pc ≠ .readUnlock)
    (hthreads : (s.threadStep t env).threads = Function.update s.threads t th)
    (hgoing : th.operationFailed = false) (hret : th.ret ≠ -1)
    (hinput : th.input = (s.threads t).input) (hahead : th.pc.ahead = (s.threads t).pc.ahead)
    (hpending : th.pending = (s.threads t).pending)
    (hended : th.pc = .closeConnection ∨ th.pc = .complete → (s.threads t).pc = .closeConnection)
    (hreads : th.Reads t (s.threadStep t env).files s.driver.content) :
    Synced lines (tr ++ s.event (.thread t env)) (s.step (.thread t env)) := by
  refine h.advance th hpc.1 hthreads ?_ hreads
  have hevent : s.event (.thread t env) = [] := by
    rcases s.event_cases t env with he | ⟨hw, -⟩ | ⟨hr, -⟩
    · exact he
    · exact absurd hw hpc.1
    · exact absurd hr hpc.2
  rw [hevent, List.append_nil]
  exact (h.progress t).move hgoing hret hinput hahead hpending fun he => .inl (hended he)

/-- The loop test takes the next line, or ends the loop when there is none. -/
theorem Progress.readLine {lines wrote : List (List UInt8)} {k : ℕ} {th : Thread}
    (h : Progress lines wrote k th) (hpc : th.pc = .readLine)
    (hlines : ∀ l ∈ lines, IsSegment isNewline l ∧ l.length ≤ 65535) {running : Bool}
    (hrun : running = false) :
    let r := Server.readLine th.input connectionBufferSize
    Progress lines wrote k { th with
      input := r.rest
      connBuffer := r.buffer
      bytesReceived := r.retval
      pc := if 0 < r.retval ∧ running = false ∧ th.operationFailed = false
        then .writeLock else .closeConnection } := by
  intro r
  have hcount := h.count
  obtain ⟨todo, hl, hrec, -⟩ := h.split
  simp only [Thread.pending, hpc, List.append_nil, Pc.ahead] at hl hcount
  cases todo with
  | nil =>
    obtain ⟨hb, hret, hrest, herr⟩ := readLine_spec (n := connectionBufferSize) (by decide) h.clean
    rw [hrec] at hb hrest
    have hzero : r.retval = 0 := by simp [r, hret, hb, cutAfter]
    have hstop : (if 0 < r.retval ∧ running = false ∧ th.operationFailed = false
        then Pc.writeLock else .closeConnection) = .closeConnection := if_neg (by simp [hzero])
    simp only [hstop]
    exact ⟨h.going, h.ret, herr, hcount, [], by simpa [Thread.pending] using hl,
      by simpa [cutAfter] using hrest, fun _ => rfl⟩
  | cons line todo =>
    obtain ⟨hseg, hlen⟩ := hlines line (by simp [hl])
    obtain ⟨hb, hret, hrest, herr⟩ := readLine_of_isSegment (n := connectionBufferSize) h.clean
      (by rw [hrec, List.flatten_cons]) hseg (by rw [connectionBufferSize]; omega)
    have hpos : 0 < r.retval := by
      have := List.length_pos_iff.mpr hseg.ne_nil
      simp only [r, hret]
      omega
    simp only [if_pos (show 0 < r.retval ∧ running = false ∧ th.operationFailed = false from
      ⟨hpos, hrun, h.going⟩)]
    refine ⟨h.going, h.ret, herr, hcount, todo, ?_, hrest, by simp⟩
    simp only [Thread.pending, Thread.data]
    rw [hb, hret, Int.toNat_natCast, List.take_length, hl]
    simp

omit [DecidableEq ι] in
/-- A successful `read` of at most 1024 bytes gives the content from the file's
position on, nothing only at its end. -/
theorem System.read_content {s : System ι} (hs : Valid s.driver) {t : ι} {fd : Option ℕ} {n p : ℕ}
    (hfd : fd = some n) (hn : s.files n = some ⟨t, p⟩) (hp : p ≤ s.driver.content.length)
    {env : ReadEnv} (h : (s.read env fd 1024).1 ≠ -1) :
    ∃ k : ℕ, k ≤ 1024 ∧ (s.read env fd 1024).1 = k ∧
      (s.read env fd 1024).2.1 = (s.driver.content.drop p).take k ∧
      p + k ≤ s.driver.content.length ∧ (k = 0 → p = s.driver.content.length) ∧
      (s.read env fd 1024).2.2.files n = some ⟨t, p + k⟩ := by
  obtain ⟨m, f, hm, hf, hpos, hret, hcopied, hfiles⟩ := System.read_ok h
  obtain rfl : m = n := Option.some.inj (hm.symm.trans hfd)
  obtain rfl : f = ⟨t, p⟩ := Option.some.inj (hf.symm.trans hn)
  rcases hs.read env 1024 p with ⟨hneg, -⟩ | ⟨hr, hfPos, hc⟩
  · exact absurd hpos (not_le.mpr hneg)
  · have hend := hs.left_pos_iff p
    have hle : p + min 1024 (s.driver.left p) ≤ s.driver.content.length := by
      rcases Nat.eq_zero_or_pos (s.driver.left p) with h0 | hl
      · rw [h0]
        exact hp
      · have := hs.add_left_le hl
        omega
    refine ⟨min 1024 (s.driver.left p), Nat.min_le_left _ _, hret.trans hr, hcopied.trans hc, hle,
      fun h0 => by omega, ?_⟩
    rw [hfiles, hfPos]

/-- The read loop: one chunk more in `file_buffer`, or the whole content sent. -/
theorem Synced.read {lines : ι → List (List UInt8)} {tr : List (Event ι)} {s : System ι}
    (h : Synced lines tr s) {t : ι} {env : Env} (hpc : (s.threads t).pc = .read)
    (hok : (s.read env.read (s.threads t).fd 1024).1 ≠ -1) :
    Synced lines (tr ++ s.event (.thread t env)) (s.step (.thread t env)) := by
  have hp := h.progress t
  obtain ⟨n, p, hfd, hn, hle, hreply⟩ : ∃ n p, (s.threads t).fd = some n ∧
      s.files n = some ⟨t, p⟩ ∧ p ≤ s.driver.content.length ∧
      (s.threads t).reply = s.driver.content.take p := by
    have := h.reads t
    simpa only [Thread.Reads, hpc] using this
  obtain ⟨k, hk, hret, hcopied, hle', hend, hfiles⟩ := System.read_content h.valid hfd hn hle hok
  have hlen : ((s.driver.content.drop p).take k).length = k := by
    rw [List.length_take, List.length_drop]
    omega
  have hsize : ((s.read env.read (s.threads t).fd 1024).1 % 2 ^ 64).toNat = k := by
    rw [hret]
    omega
  have hthreads := (s.read_sameOwners env.read (s.threads t).fd 1024).threads
  have hstep : s.threadStep t env = (s.read env.read (s.threads t).fd 1024).2.2.put t
      { s.threads t with
        bytesRead := k
        fileBuffer := overwrite (s.threads t).fileBuffer 0 ((s.driver.content.drop p).take k)
        pc := if k = 0 then .readUnlock else .send } := by
    simp only [System.threadStep, hpc, hsize, hcopied]
    by_cases hk0 : k = 0
    · rw [if_neg (by omega), if_neg (by omega), if_pos hk0]
    · rw [if_pos ⟨by omega, hp.ret⟩, if_neg hk0]
  by_cases hk0 : k = 0
  · rw [if_pos hk0] at hstep
    refine h.move { s.threads t with
        bytesRead := k
        fileBuffer := overwrite (s.threads t).fileBuffer 0 ((s.driver.content.drop p).take k)
        pc := .readUnlock }
      (by simp [hpc]) (by rw [hstep, System.put_threads, hthreads]) hp.going hp.ret rfl
      (by simp [hpc, Pc.ahead]) (by simp [hpc, Thread.pending]) (by simp) ?_
    simp only [Thread.Reads, hreply, hend hk0, List.take_length]
  · rw [if_neg hk0] at hstep
    refine h.move { s.threads t with
        bytesRead := k
        fileBuffer := overwrite (s.threads t).fileBuffer 0 ((s.driver.content.drop p).take k)
        pc := .send }
      (by simp [hpc]) (by rw [hstep, System.put_threads, hthreads]) hp.going hp.ret rfl
      (by simp [hpc, Pc.ahead]) (by simp [hpc, Thread.pending]) (by simp)
      ⟨n, p + k, hfd, by rw [hstep]; exact hfiles, hle', ?_, ?_⟩
    · simp only [overwrite, List.length_append, hlen]
      omega
    · simp only [overwrite, List.take_zero, List.nil_append, hreply]
      rw [List.take_append_of_le_length hlen.ge, List.take_of_length_le hlen.le, ← List.take_add]

theorem Synced.send {lines : ι → List (List UInt8)} {tr : List (Event ι)} {s : System ι}
    (h : Synced lines tr s) {t : ι} {env : Env} (hpc : (s.threads t).pc = .send)
    (hok : env.send ≠ none) (hfull : (s.threads t).bytesRead ≤ env.send.getD 0) :
    Synced lines (tr ++ s.event (.thread t env)) (s.step (.thread t env)) := by
  have hp := h.progress t
  obtain ⟨n, p, hfd, hn, hle, hsize, hreply⟩ : ∃ n p, (s.threads t).fd = some n ∧
      s.files n = some ⟨t, p⟩ ∧ p ≤ s.driver.content.length ∧
      (s.threads t).bytesRead ≤ (s.threads t).fileBuffer.length ∧
      (s.threads t).reply ++ (s.threads t).fileBuffer.take (s.threads t).bytesRead =
        s.driver.content.take p := by
    have := h.reads t
    simpa only [Thread.Reads, hpc] using this
  obtain ⟨j, hj⟩ := Option.ne_none_iff_exists'.mp hok
  rw [hj, Option.getD_some] at hfull
  have hstep : s.threadStep t env = s.put t { s.threads t with
      reply := (s.threads t).reply ++ resize (s.threads t).fileBuffer (min j (s.threads t).bytesRead)
      pc := .read } := by
    simp only [System.threadStep, hpc, hj]
  refine h.move _ (by simp [hpc]) (congrArg System.threads hstep) hp.going hp.ret rfl
    (by simp [hpc, Pc.ahead]) (by simp [hpc, Thread.pending]) (by simp)
    ⟨n, p, hfd, by rw [hstep]; exact hn, hle, ?_⟩
  rw [← hreply, Nat.min_eq_right hfull, resize, Nat.sub_eq_zero_of_le hsize]
  simp

/-- The line goes behind the others, and no other thread is reading. -/
theorem Synced.write {lines : ι → List (List UInt8)} {tr : List (Event ι)} {s : System ι}
    (h : Synced lines tr s) (hlines : ∀ t, ∀ l ∈ lines t, IsSegment isNewline l ∧ l.length ≤ 65535)
    {t : ι} {env : Env} (hpc : (s.threads t).pc = .write)
    (hok : (s.write env.write (s.threads t).fd (s.threads t).data).1 ≠ -1) :
    Synced lines (tr ++ s.event (.thread t env)) (s.step (.thread t env)) := by
  have hp := h.progress t
  have hcount := hp.count
  obtain ⟨todo, hl, hrec, -⟩ := hp.split
  simp only [Thread.pending, hpc, Pc.ahead] at hl hcount
  obtain ⟨hseg, hlen⟩ := hlines t (s.threads t).data (by simp [hl])
  obtain ⟨hvalid, hrepr⟩ := System.repr_write h.valid h.repr hpc hok
  rw [UserBuf.stored, vfsBuf_bytes hlen, cutAfter_of_isSegment hseg, feed_isSegment _ hseg] at hrepr
  obtain ⟨_, hframe⟩ := s.threadStep_frame t env
  have hevent : s.event (.thread t env) = [.wrote t (s.threads t).data] := by
    simp only [System.event, hpc, if_neg hok]
  have hthreads := (s.write_sameOwners env.write (s.threads t).fd (s.threads t).data).threads
  have hstep : s.threadStep t env = (s.write env.write (s.threads t).fd (s.threads t).data).2.put t
      { s.threads t with pc := .writeUnlock } := by
    simp only [System.threadStep, hpc, if_neg hok]
  have hlog : log (tr ++ s.event (.thread t env)) = log tr ++ [(t, (s.threads t).data)] := by
    rw [hevent, log_append]
    rfl
  have hown : s.fileMutex = some t := (h.owned.mutex t).mpr (.inl (by simp [hpc, Pc.critical]))
  refine ⟨h.owned.step _, hvalid, ?_, ?_, fun u => ?_, fun u => ?_⟩
  · rw [System.step, hlog]
    simpa using hrepr
  · rw [System.step, hframe.shouldTerminate, h.running]
  · rw [System.step, hstep, System.put_threads, hthreads, hlog, linesOf_concat, hevent,
      repliesOf_concat_wrote]
    by_cases hu : u = t
    · subst hu
      rw [Function.update_self, if_pos rfl]
      refine ⟨hp.going, hp.ret, hp.clean, by simpa [Pc.ahead] using hcount, todo, ?_, hrec, by simp⟩
      simpa [Thread.pending] using hl
    · rw [Function.update_of_ne hu, if_neg (Ne.symm hu)]
      exact h.progress u
  · rw [System.step, hstep, System.put_threads, hthreads]
    by_cases hu : u = t
    · subst hu
      rw [Function.update_self]
      trivial
    · rw [Function.update_of_ne hu]
      refine (h.reads u).of_not_critical ?_
      by_contra hcrit
      have := (h.owned.mutex u).mpr (.inl (by simpa using hcrit))
      rw [hown] at this
      exact hu (Option.some.inj this).symm

theorem Synced.lock {lines : ι → List (List UInt8)} {tr : List (Event ι)} {s : System ι}
    (h : Synced lines tr s) {t : ι} {env : Env} {next : Pc}
    (hpc : (s.threads t).pc = .writeLock ∧ next = .writeOpen ∨
      (s.threads t).pc = .readLock ∧ next = .readOpen) :
    Synced lines (tr ++ s.event (.thread t env)) (s.step (.thread t env)) := by
  have hp := h.progress t
  have hevent : s.event (.thread t env) = [] := by
    rcases hpc with ⟨hpc, -⟩ | ⟨hpc, -⟩ <;> simp only [System.event, hpc]
  have hstep : s.threadStep t env = s.lock t next := by
    rcases hpc with ⟨hpc, rfl⟩ | ⟨hpc, rfl⟩ <;> simp only [System.threadStep, hpc]
  cases hm : s.fileMutex with
  | some u =>
    rw [hevent, List.append_nil, System.step, hstep, System.lock, hm]
    exact h
  | none =>
    rw [System.lock, hm] at hstep
    have hr := h.reads t
    rcases hpc with ⟨hpc, rfl⟩ | ⟨hpc, rfl⟩
    · exact h.move { s.threads t with pc := .writeOpen } (by simp [hpc]) (by rw [hstep]; rfl)
        hp.going hp.ret rfl (by simp [hpc, Pc.ahead]) (by simp [hpc, Thread.pending, Thread.data])
        (by simp) trivial
    · exact h.move { s.threads t with pc := .readOpen } (by simp [hpc]) (by rw [hstep]; rfl)
        hp.going hp.ret rfl (by simp [hpc, Pc.ahead]) (by simp [hpc, Thread.pending]) (by simp)
        (by simpa only [Thread.Reads, hpc] using hr)

theorem Synced.openDevice {lines : ι → List (List UInt8)} {tr : List (Event ι)} {s : System ι}
    (h : Synced lines tr s) {t : ι} {env : Env}
    (hpc : (s.threads t).pc = .writeOpen ∨ (s.threads t).pc = .readOpen)
    (hok : (s.openDevice t env.openFd).1 ≠ none) :
    Synced lines (tr ++ s.event (.thread t env)) (s.step (.thread t env)) := by
  have hp := h.progress t
  rcases s.openDevice_cases t env.openFd with ho | ⟨n, -, ho⟩
  · exact absurd (by rw [ho]) hok
  · rcases hpc with hpc | hpc
    · have hstep : s.threadStep t env = (s.openDevice t env.openFd).2.put t
          { s.threads t with fd := some n, pc := .write } := by
        simp only [System.threadStep, hpc, ho]
      exact h.move { s.threads t with fd := some n, pc := .write } (by simp [hpc])
        (by rw [hstep, ho]; rfl) hp.going hp.ret rfl (by simp [hpc, Pc.ahead])
        (by simp [hpc, Thread.pending, Thread.data]) (by simp) trivial
    · have hstep : s.threadStep t env = (s.openDevice t env.openFd).2.put t
          { s.threads t with fd := some n, pc := .read } := by
        simp only [System.threadStep, hpc, ho]
        rfl
      have hreply : (s.threads t).reply = [] := by
        have := h.reads t
        simpa only [Thread.Reads, hpc] using this
      refine h.move { s.threads t with fd := some n, pc := .read } (by simp [hpc])
        (by rw [hstep, ho]; rfl) hp.going hp.ret rfl (by simp [hpc, Pc.ahead])
        (by simp [hpc, Thread.pending]) (by simp) ⟨n, 0, rfl, ?_, Nat.zero_le _, hreply⟩
      rw [hstep, ho]
      exact Function.update_self ..

theorem Synced.step {lines : ι → List (List UInt8)} {tr : List (Event ι)} {s : System ι}
    (hlines : ∀ t, ∀ l ∈ lines t, IsSegment isNewline l ∧ l.length ≤ 65535)
    (h : Synced lines tr s) {a : Label ι} (ha : s.Succeeds a) :
    Synced lines (tr ++ s.event a) (s.step a) := by
  cases a with
  | signal => exact ha.elim
  | thread t env =>
    obtain ⟨⟨hopen, hwrite, hread, hsend⟩, hfull⟩ := ha
    have hp := h.progress t
    cases hpc : (s.threads t).pc with
    | readLine =>
      refine h.advance _ (by simp [hpc]) (by simp only [System.threadStep, hpc]; rfl) ?_ ?_
      · simp only [System.event, hpc, List.append_nil]
        exact hp.readLine hpc (hlines t) h.running
      · unfold Thread.Reads
        dsimp only
        split_ifs <;> trivial
    | writeLock => exact h.lock (.inl ⟨hpc, rfl⟩)
    | readLock => exact h.lock (.inr ⟨hpc, rfl⟩)
    | writeOpen => exact h.openDevice (.inl hpc) (hopen (.inl hpc))
    | readOpen => exact h.openDevice (.inr hpc) (hopen (.inr hpc))
    | write => exact h.write hlines hpc (hwrite hpc)
    | read => exact h.read hpc (hread hpc)
    | send => exact h.send hpc (hsend hpc) (hfull hpc)
    | complete =>
      simp only [System.event, hpc, List.append_nil, System.step, System.threadStep]
      exact h
    | writeUnlock =>
      exact h.move { s.threads t with pc := .writeClose } (by simp [hpc])
        (by simp only [System.threadStep, hpc]; rfl) hp.going hp.ret rfl (by simp [hpc, Pc.ahead])
        (by simp [hpc, Thread.pending]) (by simp) trivial
    | writeClose =>
      exact h.move { s.threads t with ret := 0, pc := .writeReturned } (by simp [hpc])
        (by simp only [System.threadStep, hpc, System.put_threads, System.close_threads])
        hp.going (by simp) rfl (by simp [hpc, Pc.ahead]) (by simp [hpc, Thread.pending]) (by simp)
        trivial
    | writeReturned =>
      exact h.move { s.threads t with
          operationFailed := (s.threads t).operationFailed || (s.threads t).ret == -1
          ret := 0
          fileBuffer := List.replicate 1024 none
          reply := []
          pc := .readLock }
        (by simp [hpc]) (by simp only [System.threadStep, hpc]; rfl) (by simp [hp.going, hp.ret])
        (by simp) rfl (by simp [hpc, Pc.ahead]) (by simp [hpc, Thread.pending]) (by simp) rfl
    | readUnlock =>
      -- the reply is complete, so the thread has one reply more and is level again
      refine h.advance _ (by simp [hpc]) (by simp only [System.threadStep, hpc]; rfl) ?_ ?_
      · obtain ⟨todo, hl, hrec, -⟩ := hp.split
        have hcount := hp.count
        simp only [Thread.pending, hpc, Pc.ahead] at hl hcount
        simp only [System.event, hpc, repliesOf_concat_replied, if_true, List.length_append,
          List.length_singleton]
        exact ⟨hp.going, hp.ret, hp.clean, hcount, todo, hl, hrec, by simp⟩
      · trivial
    | readClose =>
      exact h.move { s.threads t with pc := .readReturned } (by simp [hpc])
        (by simp only [System.threadStep, hpc, System.put_threads, System.close_threads])
        hp.going hp.ret rfl (by simp [hpc, Pc.ahead]) (by simp [hpc, Thread.pending]) (by simp)
        trivial
    | readReturned =>
      exact h.move { s.threads t with
          operationFailed := (s.threads t).operationFailed || (s.threads t).ret == -1
          pc := .readLine }
        (by simp [hpc]) (by simp only [System.threadStep, hpc]; rfl) (by simp [hp.going, hp.ret])
        hp.ret rfl (by simp [hpc, Pc.ahead]) (by simp [hpc, Thread.pending]) (by simp) trivial
    | closeConnection =>
      exact h.move { s.threads t with pc := .complete } (by simp [hpc])
        (by simp only [System.threadStep, hpc]; rfl) hp.going hp.ret rfl (by simp [hpc, Pc.ahead])
        (by simp [hpc, Thread.pending]) (by simp [hpc]) trivial

/-! ### Runs -/

/-- Every connection sends newline-terminated lines of 1 to 65535 bytes and then
closes; calls that read the socket may be interrupted but do not fail. -/
structure SendsLines (lines : ι → List (List UInt8)) (input : ι → List SockRead) : Prop where
  line : ∀ t, ∀ l ∈ lines t, IsSegment isNewline l ∧ l.length ≤ 65535
  received : ∀ t, received (input t) = (lines t).flatten
  clean : ∀ t, .error ∉ input t

theorem SendsLines.initial_synced {lines : ι → List (List UInt8)} {input : ι → List SockRead}
    (h : SendsLines lines input) : Synced lines [] (System.initial input) where
  owned := System.initial_owned input
  valid := initial_valid
  repr := initial_repr
  running := rfl
  progress t := by
    refine ⟨rfl, by simp [System.initial, Thread.initial], h.clean t, rfl, lines t, rfl,
      h.received t, ?_⟩
    simp [System.initial, Thread.initial]
  reads _ := trivial

theorem SendsLines.run_synced {lines : ι → List (List UInt8)} {input : ι → List SockRead}
    (h : SendsLines lines input) {as : List (Label ι)}
    (has : Along System.step System.Succeeds (.initial input) as) :
    Synced lines (trace input as) (run System.step (.initial input) as) := by
  induction as using List.reverseRecOn with
  | nil => exact h.initial_synced
  | append_singleton as a ih =>
    obtain ⟨has, ha⟩ := along_concat.mp has
    rw [trace, outputs_concat, run_concat]
    exact (ih has).step h.line ha

/-- The state in which a reply is completed. -/
theorem SendsLines.reply {lines : ι → List (List UInt8)} {input : ι → List SockRead}
    (h : SendsLines lines input) {as : List (Label ι)}
    (has : Along System.step System.Succeeds (.initial input) as) {pre post : List (Event ι)} {t : ι}
    {bytes : List Cell} (htr : trace input as = pre ++ .replied t bytes :: post) :
    ∃ s : System ι, Synced lines pre s ∧ (s.threads t).pc = .readUnlock ∧
      bytes = (s.threads t).reply := by
  obtain ⟨before, a, after, rfl, hpre, he⟩ := outputs_split System.length_event_le htr
  have hs := h.run_synced (along_append.mp has).1
  rw [trace, hpre] at hs
  refine ⟨_, hs, ?_⟩
  cases a with
  | signal => exact absurd he (by simp [System.event])
  | thread u env =>
    rcases System.event_cases (run System.step (.initial input) before) u env with
      he' | ⟨-, he'⟩ | ⟨hpc, he'⟩
    · rw [he'] at he
      cases he
    · rw [he'] at he
      cases he
    · rw [he'] at he
      cases he
      exact ⟨hpc, rfl⟩

theorem SendsLines.reply_eq {lines : ι → List (List UInt8)} {input : ι → List SockRead}
    (h : SendsLines lines input) {as : List (Label ι)}
    (has : Along System.step System.Succeeds (.initial input) as) {pre post : List (Event ι)} {t : ι}
    {bytes : List Cell} (htr : trace input as = pre ++ .replied t bytes :: post) :
    bytes = (((log pre).map Prod.snd).rtake 10).flatten.map some ∧
      (repliesOf t pre).length < (lines t).length ∧
      linesOf t (log pre) = (lines t).take ((repliesOf t pre).length + 1) := by
  obtain ⟨s, hs, hpc, hreply⟩ := h.reply has htr
  have hp := hs.progress t
  have hcount := hp.count
  obtain ⟨todo, hl, -, -⟩ := hp.split
  have hread := hs.reads t
  simp only [Thread.Reads, Thread.pending, hpc, Pc.ahead, List.append_nil] at hread hl hcount
  refine ⟨by rw [hreply, hread, hs.repr.content], ?_, by rw [hl, List.take_left' hcount]⟩
  rw [hl, List.length_append]
  omega

/-- The log holds nothing but lines that were sent. -/
theorem SendsLines.mem_log {lines : ι → List (List UInt8)} {input : ι → List SockRead}
    (h : SendsLines lines input) {as : List (Label ι)}
    (has : Along System.step System.Succeeds (.initial input) as) {t : ι} {line : List UInt8}
    (hl : (t, line) ∈ log (trace input as)) : line ∈ lines t := by
  obtain ⟨todo, hsplit, -, -⟩ := ((h.run_synced has).progress t).split
  have hmem : line ∈ linesOf t (log (trace input as)) :=
    List.mem_map.mpr ⟨_, List.mem_filter.mpr ⟨hl, by simp⟩, rfl⟩
  rw [hsplit]
  simp [hmem]

/-- Any number of connections, any interleaving, every call succeeding in full.
The lines written form one log. It holds the lines of each connection in order,
all of them once the connection has ended, with one reply to each. A reply is
the concatenation of the last ten lines of the log as it was written before the
reply; the `k`-th reply of a connection comes after just its first `k` lines.
Later replies see longer logs. -/
theorem replies_are_snapshots (lines : ι → List (List UInt8)) (input : ι → List SockRead)
    (h : SendsLines lines input) (as : List (Label ι))
    (has : Along System.step System.Succeeds (.initial input) as) :
    let tr := trace input as
    (∀ t, linesOf t (log tr) <+: lines t ∧
      (((run System.step (.initial input) as).threads t).pc = .complete →
        linesOf t (log tr) = lines t ∧ (repliesOf t tr).length = (lines t).length)) ∧
    (∀ pre t bytes post, tr = pre ++ .replied t bytes :: post →
      log pre <+: log tr ∧ bytes = (((log pre).map Prod.snd).rtake 10).flatten.map some ∧
      (repliesOf t pre).length < (lines t).length ∧
      linesOf t (log pre) = (lines t).take ((repliesOf t pre).length + 1)) ∧
    (∀ pre t bytes mid u bytes' post,
      tr = pre ++ .replied t bytes :: (mid ++ .replied u bytes' :: post) →
      log pre <+: log (pre ++ .replied t bytes :: mid)) := by
  intro tr
  refine ⟨fun t => ?_, fun pre t bytes post htr => ?_, fun pre t bytes mid u bytes' post _ => ?_⟩
  · have hp := (h.run_synced has).progress t
    obtain ⟨todo, hl, -, hend⟩ := hp.split
    refine ⟨⟨_, by rw [hl, List.append_assoc]⟩, fun hpc => ?_⟩
    have hcount := hp.count
    simp only [Thread.pending, hpc, Pc.ahead, hend (.inr hpc), List.append_nil] at hl hcount
    exact ⟨hl.symm, by rw [hl, hcount]; rfl⟩
  · exact ⟨⟨_, by rw [htr, log_append]⟩, h.reply_eq has htr⟩
  · exact ⟨_, (log_append _ _).symm⟩

/-! ### Reading one's own line -/

/-- The line is one of the lines that the bytes split into. -/
def HasLine (bytes : List Cell) (line : List UInt8) : Prop :=
  ∃ reply : List UInt8, bytes = reply.map some ∧ line ∈ (segments isNewline reply).1

/-- The reply to a line, or a later one, contains it when fewer than ten lines
are written between its write section and the read section; otherwise the reply
consists of ten lines written after it. -/
theorem reply_has_own_line (lines : ι → List (List UInt8)) (input : ι → List SockRead)
    (h : SendsLines lines input) (as : List (Label ι))
    (has : Along System.step System.Succeeds (.initial input) as)
    (pre : List (Event ι)) (t : ι) (line : List UInt8) (mid : List (Event ι)) (bytes : List Cell)
    (post : List (Event ι))
    (htr : trace input as = pre ++ .wrote t line :: (mid ++ .replied t bytes :: post)) :
    ((log mid).length < 10 → HasLine bytes line) ∧
      (10 ≤ (log mid).length → bytes = (((log mid).map Prod.snd).rtake 10).flatten.map some) := by
  have htr' : trace input as = (pre ++ .wrote t line :: mid) ++ .replied t bytes :: post := by
    rw [htr, List.append_assoc, List.cons_append]
  obtain ⟨hbytes, -⟩ := h.reply_eq has htr'
  have hlog : (log (pre ++ .wrote t line :: mid)).map Prod.snd =
      (log pre).map Prod.snd ++ line :: (log mid).map Prod.snd := by
    rw [log_append, List.map_append]
    rfl
  rw [hlog] at hbytes
  refine ⟨fun hlt => ⟨_, hbytes, ?_⟩, fun hge => ?_⟩
  · have hseg : ∀ l ∈ ((log pre).map Prod.snd ++ line :: (log mid).map Prod.snd).rtake 10,
        IsSegment isNewline l := by
      intro l hl
      have hl' : l ∈ (log (pre ++ .wrote t line :: mid)).map Prod.snd := by
        rw [hlog]
        exact (List.drop_suffix _ _).subset hl
      obtain ⟨⟨u, l⟩, hu, rfl⟩ := List.mem_map.mp hl'
      have hmem : (u, l) ∈ log (trace input as) := by
        rw [htr', log_append]
        exact List.mem_append_left _ hu
      exact (h.line u l (h.mem_log has hmem)).1
    have hsplit := segments_flatten_append hseg free_nil
    rw [List.append_nil] at hsplit
    rw [hsplit]
    exact (Window.suffix_rtake_append (by rw [List.length_cons, List.length_map]; omega)).subset
      List.mem_cons_self
  · rw [hbytes, ← List.singleton_append, ← List.append_assoc,
      Window.rtake_append_of_le_length (by rwa [List.length_map])]

/-! ### Two runs -/

/-- Eleven connections; each sends one line, a letter of its own. -/
def letterLines (t : Fin 11) : List (List UInt8) := [[97 + UInt8.ofNat t, newline]]

def letterInput (t : Fin 11) : List SockRead := (letterLines t).flatten.map .byte

theorem letterInput_sendsLines : SendsLines letterLines letterInput where
  line t l hl := by
    rw [letterLines, List.mem_singleton] at hl
    subst hl
    have hletter : ∀ t : Fin 11, isNewline (97 + UInt8.ofNat t) = false := by decide
    exact ⟨⟨[97 + UInt8.ofNat t], newline, rfl, by simp [Free, hletter t], rfl⟩, by simp⟩
  received t := received_map_byte _
  clean t := by simp [letterInput]

/-- Two connections take turns until both have ended. -/
def turns : List (Label (Fin 11)) := (List.replicate 40 [okStep 0, okStep 1]).flatten

theorem replies_are_snapshots_turns :
    linesOf 0 (log (trace letterInput turns)) = letterLines 0 ∧
      linesOf 1 (log (trace letterInput turns)) = letterLines 1 := by
  have h := (replies_are_snapshots letterLines letterInput letterInput_sendsLines turns
    (by decide +kernel)).1
  exact ⟨((h 0).2 (by decide +kernel)).1, ((h 1).2 (by decide +kernel)).1⟩

/-- The first connection writes its line; before it reads, the ten others write theirs. -/
def overtaken : List (Label (Fin 11)) :=
  List.replicate 7 (okStep 0) ++
    ((List.finRange 10).flatMap fun t => List.replicate 6 (okStep t.succ)) ++
    List.replicate 24 (okStep 0)

theorem reply_has_own_line_turns :
    HasLine [some 97, some newline, some 98, some newline] [97, newline] :=
  (reply_has_own_line letterLines letterInput letterInput_sendsLines turns (by decide +kernel) []
    0 [97, newline] [.wrote 1 [98, newline]] [some 97, some newline, some 98, some newline]
    [.replied 1 [some 97, some newline, some 98, some newline]] (by decide +kernel)).1 (by decide)

theorem reply_has_own_line_overtaken :
    ¬ ∀ (lines : Fin 11 → List (List UInt8)) (input : Fin 11 → List SockRead)
      (as : List (Label (Fin 11))), SendsLines lines input →
      Along System.step System.Succeeds (.initial input) as →
      ∀ pre t line mid bytes post,
        trace input as = pre ++ .wrote t line :: (mid ++ .replied t bytes :: post) →
        repliesOf t mid = [] → HasLine bytes line := by
  intro h
  -- the reply consists of the lines of the ten others
  obtain ⟨reply, hreply, hmem⟩ := h letterLines letterInput overtaken letterInput_sendsLines
    (by decide +kernel) [] 0 [97, newline]
    ((List.range 10).map fun i => .wrote (Fin.ofNat 11 (i + 1)) [98 + UInt8.ofNat i, newline])
    (((List.range 10).flatMap fun i => [98 + UInt8.ofNat i, newline]).map some) []
    (by decide +kernel) (by decide)
  rw [← List.map_injective_iff.mpr (Option.some_injective UInt8) hreply] at hmem
  revert hmem
  decide

end Aesd.Server
