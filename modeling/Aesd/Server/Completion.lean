import Aesd.Driver.Draining
import Aesd.Driver.Supply
import Aesd.Server.Deadlock
import Aesd.Server.Snapshots
import Mathlib.Data.Set.Finite.Range

/-! Every connection is served to its end. As long as no call fails, a connection
that is neither complete nor waiting for the mutex has work to do, each of its steps
leaves less of it, and while one connection is not complete there is one that can go
on. So whatever the order of the steps, in the end all lines are stored and all
replies sent. -/

namespace Aesd.Server

open Segments Run Driver

variable {ι : Type*} [DecidableEq ι]

/-! ### Work -/

/-- Steps up to the end of the connection if no line is left, with `left` bytes of
the device still to be read. The content is at most ten lines of 65535 bytes. -/
def Pc.work (left : ℕ) : Pc → ℕ
  | .complete => 0
  | .closeConnection => 1
  | .readLine => 2
  | .readReturned => 3
  | .readClose => 4
  | .readUnlock => 5
  | .read => 2 * left + 6
  | .send => 2 * left + 7
  | .readOpen => 2 * 655350 + 7
  | .readLock => 2 * 655350 + 8
  | .writeReturned => 2 * 655350 + 9
  | .writeClose => 2 * 655350 + 10
  | .writeUnlock => 2 * 655350 + 11
  | .write => 2 * 655350 + 12
  | .writeOpen => 2 * 655350 + 13
  | .writeLock => 2 * 655350 + 14

/-- The work of a line that is still in the socket. -/
def lineWork : ℕ := 2 * 655350 + 13

namespace System

/-- The position of the thread's descriptor. -/
def position (s : System ι) (t : ι) : ℕ := (((s.threads t).fd.bind s.files).map OpenFile.fPos).getD 0

def left (s : System ι) (t : ι) : ℕ := s.driver.content.length - s.position t

def work (s : System ι) (t : ι) : ℕ :=
  lineWork * (received (s.threads t).input).countP isNewline + (s.threads t).pc.work (s.left t)

/-- A step of a thread that is not complete and does not wait for another one. -/
def Busy (s : System ι) : Label ι → Prop
  | .thread t _ => (s.threads t).pc ≠ .complete ∧
      ((s.threads t).pc = .writeLock ∨ (s.threads t).pc = .readLock → s.fileMutex = none)
  | .signal => False

instance (s : System ι) : (a : Label ι) → Decidable (s.Busy a)
  | .thread _ _ => inferInstanceAs (Decidable (_ ∧ _))
  | .signal => inferInstanceAs (Decidable False)

end System

theorem countP_of_isSegment {l : List UInt8} (h : IsSegment isNewline l) : l.countP isNewline = 1 := by
  obtain ⟨u, a, rfl, hu, ha⟩ := h
  rw [List.countP_append, List.countP_singleton, if_pos ha,
    List.countP_eq_zero.mpr fun b hb => by simp [hu b hb]]

theorem countP_flatten {ls : List (List UInt8)} (h : ∀ l ∈ ls, IsSegment isNewline l) :
    ls.flatten.countP isNewline = ls.length := by
  induction ls with
  | nil => rfl
  | cons l ls ih =>
    rw [List.flatten_cons, List.countP_append, countP_of_isSegment (h l (by simp)),
      ih fun m hm => h m (by simp [hm]), List.length_cons, Nat.add_comm]

/-- The bytes left matter in the read loop only. -/
theorem Pc.work_congr {pc : Pc} {l l' : ℕ} (h : pc = .read ∨ pc = .send → l = l') :
    pc.work l = pc.work l' := by
  cases pc with
  | read => rw [h (.inl rfl)]
  | send => rw [h (.inr rfl)]
  | _ => rfl

/-! ### A step leaves less work -/

section Steps

variable {lines : ι → List (List UInt8)} {tr : List (Event ι)} {s : System ι} {t : ι} {env : Env}

theorem Synced.length_content_le (h : Synced lines tr s)
    (hlines : ∀ t, ∀ l ∈ lines t, IsSegment isNewline l ∧ l.length ≤ 65535) :
    s.driver.content.length ≤ 655350 := by
  have hbound : ∀ l ∈ ((log tr).map Prod.snd).rtake 10, l.length ≤ 65535 := by
    intro l hl
    obtain ⟨⟨t, l⟩, hmem, rfl⟩ := List.mem_map.mp ((List.drop_suffix _ _).subset hl)
    obtain ⟨todo, hsplit, -⟩ := (h.progress t).split
    refine (hlines t l ?_).2
    rw [hsplit]
    have hof : l ∈ linesOf t (log tr) := List.mem_map.mpr ⟨_, List.mem_filter.mpr ⟨hmem, by simp⟩, rfl⟩
    simp [hof]
  rw [h.repr.content, List.length_map, List.length_flatten]
  dsimp only
  have hsum := List.sum_le_card_nsmul (((log tr).map Prod.snd).rtake 10 |>.map List.length) 65535
    fun n hn => by
      obtain ⟨l, hl, rfl⟩ := List.mem_map.mp hn
      exact hbound l hl
  have hten : (((log tr).map Prod.snd).rtake 10).length ≤ 10 := by
    rw [List.rtake, List.length_drop]
    omega
  rw [List.length_map, smul_eq_mul] at hsum
  omega

/-- A step of `t` is no work of another thread, and takes none from it. -/
theorem Synced.work_of_ne (h : Synced lines tr s) {u : ι} (hu : u ≠ t) :
    (s.threadStep t env).work u = s.work u := by
  obtain ⟨th, hframe⟩ := s.threadStep_frame t env
  have hthread : (s.threadStep t env).threads u = s.threads u := by
    rw [hframe.threads, Function.update_of_ne hu]
  rw [System.work, System.work, hthread]
  congr 1
  refine Pc.work_congr fun hpc => ?_
  -- `u` owns the mutex, so `t` does not write
  have hcrit : (s.threads u).pc.critical := by rcases hpc with hpc | hpc <;> simp [hpc, Pc.critical]
  have hwrite : (s.threads t).pc ≠ .write := fun hw => by
    have hmine := (h.owned.mutex t).mpr (.inl (by simp [hw, Pc.critical]))
    rw [(h.owned.mutex u).mpr (.inl hcrit)] at hmine
    exact hu (Option.some.inj hmine)
  obtain ⟨n, p, hfd, hn⟩ : ∃ n p, (s.threads u).fd = some n ∧ s.files n = some ⟨u, p⟩ := by
    have hreads := h.reads u
    rcases hpc with hpc | hpc <;> simp only [Thread.Reads, hpc] at hreads
    · obtain ⟨n, p, hfd, hn, -⟩ := hreads
      exact ⟨n, p, hfd, hn⟩
    · obtain ⟨n, p, hfd, hn, -⟩ := hreads
      exact ⟨n, p, hfd, hn⟩
  have hn' := h.owned.files_of_ne t env hu hn
  rw [System.left, System.left, hframe.driver h.valid hwrite, System.position, System.position,
    hthread, hfd, Option.bind_some, Option.bind_some, hn, hn']

omit [DecidableEq ι] in
/-- The thread has gone on to a place with less work. -/
theorem System.work_lt_of_pc {s' : System ι} (hinput : (s'.threads t).input = (s.threads t).input)
    (hpc : (s'.threads t).pc.work (s'.left t) < (s.threads t).pc.work (s.left t)) :
    s'.work t < s.work t := by
  rw [System.work, System.work, hinput]
  omega

theorem Synced.work_readLine (h : Synced lines tr s)
    (hlines : ∀ t, ∀ l ∈ lines t, IsSegment isNewline l ∧ l.length ≤ 65535)
    (hpc : (s.threads t).pc = .readLine) : (s.threadStep t env).work t < s.work t := by
  obtain ⟨todo, hl, hrec, -⟩ := (h.progress t).split
  simp only [Thread.pending, hpc, List.append_nil] at hl
  simp only [System.work, System.threadStep, hpc, System.put_threads, Function.update_self]
  cases todo with
  | nil =>
    obtain ⟨hb, hret, hrest, -⟩ :=
      readLine_spec (n := connectionBufferSize) (by decide) (h.progress t).clean
    rw [hrec] at hb hrest
    have hzero : (readLine (s.threads t).input connectionBufferSize).retval = 0 := by
      simp [hret, hb, cutAfter]
    have hnil : received (readLine (s.threads t).input connectionBufferSize).rest = [] := by
      simpa [cutAfter] using hrest
    simp [hzero, hnil, hrec, Pc.work]
  | cons line todo =>
    obtain ⟨hseg, hlen⟩ := hlines t line (by simp [hl])
    obtain ⟨-, -, hrest, -⟩ := readLine_of_isSegment (n := connectionBufferSize) (h.progress t).clean
      (by rw [hrec, List.flatten_cons]) hseg (by rw [connectionBufferSize]; omega)
    rw [hrest, hrec, List.flatten_cons, List.countP_append, countP_of_isSegment hseg, Nat.mul_add,
      lineWork]
    split_ifs <;> simp only [Pc.work] <;> omega

theorem Synced.work_read (h : Synced lines tr s) (hpc : (s.threads t).pc = .read)
    (hok : (s.read env.read (s.threads t).fd 1024).1 ≠ -1) : (s.threadStep t env).work t < s.work t := by
  obtain ⟨n, p, hfd, hn, hle, -⟩ : ∃ n p, (s.threads t).fd = some n ∧
      s.files n = some ⟨t, p⟩ ∧ p ≤ s.driver.content.length ∧
      (s.threads t).reply = s.driver.content.take p := by
    have := h.reads t
    simpa only [Thread.Reads, hpc] using this
  obtain ⟨k, hk, hret, -, hle', -, hfiles⟩ := System.read_content h.valid hfd hn hle hok
  have hdriver := System.read_driver h.valid env.read (s.threads t).fd 1024
  have hsize : ((s.read env.read (s.threads t).fd 1024).1 % 2 ^ 64).toNat = k := by
    rw [hret]
    omega
  have hleft : s.left t = s.driver.content.length - p := by
    rw [System.left, System.position, hfd, Option.bind_some, hn]
    rfl
  by_cases hk0 : 0 < k
  · have hstep : s.threadStep t env = (s.read env.read (s.threads t).fd 1024).2.2.put t
        { s.threads t with
          bytesRead := k
          fileBuffer := overwrite (s.threads t).fileBuffer 0 (s.read env.read (s.threads t).fd 1024).2.1
          pc := .send } := by
      simp only [System.threadStep, hpc, hsize]
      rw [if_pos ⟨hk0, (h.progress t).ret⟩]
    have hleft' : (s.threadStep t env).left t = s.driver.content.length - (p + k) := by
      rw [hfd] at hdriver hfiles
      simp only [System.left, System.position, hstep, System.put_threads, System.put_driver,
        System.put_files, Function.update_self, hdriver, hfd, Option.bind_some, hfiles]
      rfl
    refine System.work_lt_of_pc (by rw [hstep]; simp) ?_
    rw [hleft', hleft, hpc, hstep]
    simp only [System.put_threads, Function.update_self, Pc.work]
    omega
  · refine System.work_lt_of_pc ?_ ?_
    · simp only [System.threadStep, hpc, hsize, if_neg (fun hgo : 0 < k ∧ _ => hk0 hgo.1),
        System.put_threads, Function.update_self]
    · simp only [System.threadStep, hpc, hsize, if_neg (fun hgo : 0 < k ∧ _ => hk0 hgo.1),
        System.put_threads, Function.update_self, Pc.work]
      omega

/-- Every step of a busy thread is a part of its work. -/
theorem Synced.work_step (h : Synced lines tr s)
    (hlines : ∀ t, ∀ l ∈ lines t, IsSegment isNewline l ∧ l.length ≤ 65535)
    (hok : s.Succeeds (.thread t env)) (hbusy : s.Busy (.thread t env)) :
    (s.threadStep t env).work t < s.work t := by
  obtain ⟨⟨hopen, hwrite, hread, hsend⟩, -⟩ := hok
  obtain ⟨hcomplete, hwaits⟩ := hbusy
  cases hpc : (s.threads t).pc with
  | complete => exact absurd hpc hcomplete
  | readLine => exact h.work_readLine hlines hpc
  | read => exact h.work_read hpc (hread hpc)
  | writeLock | readLock =>
    have hfree := hwaits (by simp [hpc])
    refine System.work_lt_of_pc ?_ ?_
    · simp [System.threadStep, hpc, System.lock, hfree]
    · rw [hpc]
      simp [System.threadStep, hpc, System.lock, hfree, Pc.work]
  | writeOpen =>
    rcases s.openDevice_cases t env.openFd with ho | ⟨n, -, ho⟩
    · exact absurd (by rw [ho]) (hopen (.inl hpc))
    · refine System.work_lt_of_pc ?_ ?_ <;> simp [System.threadStep, hpc, ho, Pc.work]
  | readOpen =>
    have hcontent : ((s.threadStep t env).left t) ≤ 655350 := by
      obtain ⟨th, hframe⟩ := s.threadStep_frame t env
      have := h.length_content_le hlines
      rw [System.left, hframe.driver h.valid (by simp [hpc])]
      omega
    rcases s.openDevice_cases t env.openFd with ho | ⟨n, -, ho⟩
    · exact absurd (by rw [ho]) (hopen (.inr hpc))
    · refine System.work_lt_of_pc (by simp [System.threadStep, hpc, ho]) ?_
      have hpc' : ((s.threadStep t env).threads t).pc = .read := by simp [System.threadStep, hpc, ho]
      rw [hpc', hpc, Pc.work, Pc.work]
      omega
  | write =>
    have hw := hwrite hpc
    refine System.work_lt_of_pc ?_ ?_ <;> simp [System.threadStep, hpc, hw, Pc.work]
  | send =>
    have hleft : (s.threadStep t env).left t = s.left t ∧ ((s.threadStep t env).threads t).pc = .read ∧
        ((s.threadStep t env).threads t).input = (s.threads t).input := by
      simp only [System.threadStep, hpc]
      split <;> simp [System.left, System.position]
    refine System.work_lt_of_pc hleft.2.2 ?_
    rw [hleft.1, hleft.2.1, hpc, Pc.work, Pc.work]
    omega
  | writeUnlock | readUnlock =>
    refine System.work_lt_of_pc ?_ ?_ <;> simp [System.threadStep, hpc, System.unlock, Pc.work]
  | writeReturned =>
    refine System.work_lt_of_pc ?_ ?_
    · simp only [System.threadStep, hpc, System.put_threads, Function.update_self]
    · simp only [System.threadStep, hpc, System.put_threads, Function.update_self, Pc.work]
      omega
  | writeClose | readClose | readReturned | closeConnection =>
    refine System.work_lt_of_pc ?_ ?_ <;> simp [System.threadStep, hpc, Pc.work]

end Steps

/-! ### Somebody can go on -/

/-- Synced, and the device has an open file for every `write` and no more memory in
use than the lines written so far. -/
structure Served (lines : ι → List (List UInt8)) (tr : List (Event ι)) (s : System ι) : Prop
    extends Synced lines tr s where
  opened : ∀ t, (s.threads t).pc = .write → (s.threads t).fd ≠ none
  memory : s.driver.mem.heap.bytes ≤ ((log tr).map Prod.snd).flatten.length

section Served

variable {lines : ι → List (List UInt8)} {tr : List (Event ι)} {s : System ι} {t : ι} {env : Env}

/-- A thread comes to `write` from `open` only. -/
theorem System.fd_of_pc_write
    (hopen : (s.threads t).pc = .writeOpen → (s.openDevice t env.openFd).1 ≠ none)
    (hpc : ((s.threadStep t env).threads t).pc = .write) :
    ((s.threadStep t env).threads t).fd ≠ none := by
  have hlock : ∀ next, next ≠ .write → (s.threads t).pc ≠ .write →
      ((s.lock t next).threads t).pc ≠ .write :=
    fun next hnext hne => by
      unfold System.lock
      split
      · simpa using hnext
      · exact hne
  cases hpc' : (s.threads t).pc with
  | writeOpen =>
    simp only [System.threadStep, hpc', System.put_threads, Function.update_self]
    exact hopen hpc'
  | writeLock | readLock =>
    simp only [System.threadStep, hpc'] at hpc
    exact absurd hpc (hlock _ (by simp) (by simp [hpc']))
  | readLine =>
    simp only [System.threadStep, hpc', System.put_threads, Function.update_self] at hpc
    split_ifs at hpc
  | write | read =>
    simp only [System.threadStep, hpc'] at hpc
    split_ifs at hpc <;> simp at hpc
  | send =>
    simp only [System.threadStep, hpc'] at hpc
    split at hpc <;> simp at hpc
  | complete => simp [System.threadStep, hpc'] at hpc
  | writeReturned =>
    simp only [System.threadStep, hpc', System.put_threads, Function.update_self] at hpc
    cases hpc
  | readOpen | writeUnlock | writeClose | readUnlock | readClose | readReturned | closeConnection =>
    simp [System.threadStep, hpc', System.unlock] at hpc

theorem Served.write_memory (h : Served lines tr s)
    (hlines : ∀ t, ∀ l ∈ lines t, IsSegment isNewline l ∧ l.length ≤ 65535)
    (hpc : (s.threads t).pc = .write)
    (hok : (s.write env.write (s.threads t).fd (s.threads t).data).1 ≠ -1) :
    (s.threadStep t env).driver.mem.heap.bytes ≤ s.driver.mem.heap.bytes + (s.threads t).data.length := by
  obtain ⟨todo, hl, -, -⟩ := (h.progress t).split
  simp only [Thread.pending, hpc] at hl
  obtain ⟨hseg, hlen⟩ := hlines t (s.threads t).data (by simp [hl])
  obtain ⟨fPos, -, hdriver⟩ := System.write_ok hok
  have hstep : (s.threadStep t env).driver =
      (aesdWrite env.write s.driver (vfsBuf (s.threads t).data) fPos).state := by
    simp only [System.threadStep, hpc, if_neg hok, System.put_driver, hdriver]
  have heffect := (aesdWrite_effect env.write h.valid.toReady (vfsBuf (s.threads t).data) fPos).2
  have hbytes := heffect.bytes_le (h.repr.size_eq_zero_iff.mpr rfl)
  rwa [UserBuf.stored, vfsBuf_bytes hlen, cutAfter_of_isSegment hseg, ← hstep] at hbytes

theorem Served.step (hlines : ∀ t, ∀ l ∈ lines t, IsSegment isNewline l ∧ l.length ≤ 65535)
    (h : Served lines tr s) {a : Label ι} (ha : s.Succeeds a) :
    Served lines (tr ++ s.event a) (s.step a) := by
  refine ⟨h.toSynced.step hlines ha, ?_, ?_⟩
  all_goals
    cases a with
    | signal => exact ha.elim
    | thread t env => ?_
  · intro u hu
    rw [System.step] at hu ⊢
    by_cases hut : u = t
    · subst hut
      exact System.fd_of_pc_write (fun hpc => ha.1.1 (.inl hpc)) hu
    · obtain ⟨th, hframe⟩ := s.threadStep_frame t env
      rw [hframe.threads, Function.update_of_ne hut] at hu ⊢
      exact h.opened u hu
  · rw [System.step]
    by_cases hpc : (s.threads t).pc = .write
    · have hok := ha.1.2.1 hpc
      have hevent : s.event (.thread t env) = [.wrote t (s.threads t).data] := by
        simp only [System.event, hpc, if_neg hok]
      have hmem := h.write_memory hlines hpc hok
      have hlog : log (tr ++ [.wrote t (s.threads t).data]) = log tr ++ [(t, (s.threads t).data)] :=
        log_append ..
      have hone : (([(t, (s.threads t).data)] : List (ι × List UInt8)).map Prod.snd).flatten.length =
          (s.threads t).data.length := by simp
      rw [hevent, hlog, List.map_append, List.flatten_append, List.length_append, hone]
      exact hmem.trans (Nat.add_le_add_right h.memory _)
    · obtain ⟨th, hframe⟩ := s.threadStep_frame t env
      rw [hframe.driver h.valid hpc, log_append, List.map_append, List.flatten_append, List.length_append]
      exact h.memory.trans (Nat.le_add_right _ _)

omit [DecidableEq ι] in
theorem System.exists_free_fd [Finite ι] (hs : s.Owned) : ∃ n, s.files n = none := by
  obtain ⟨n, hn⟩ := (Set.finite_range fun t => (s.threads t).fd.getD 0).exists_notMem
  refine ⟨n, ?_⟩
  cases hf : s.files n with
  | none => rfl
  | some f =>
    -- an open file is in the hands of the thread that opened it
    have hfd := ((hs.files f.opener n).mp ⟨f.fPos, hf⟩).1
    exact absurd ⟨f.opener, by simp [hfd]⟩ hn

/-- A `write` in the critical section can succeed while there is memory. -/
theorem Served.exists_write (h : Served lines tr s)
    (hlines : ∀ t, ∀ l ∈ lines t, IsSegment isNewline l ∧ l.length ≤ 65535)
    (hroom : 2 * (s.driver.mem.heap.bytes + 65535) < 2 ^ 64) (hpc : (s.threads t).pc = .write) :
    ∃ w, (s.write w (s.threads t).fd (s.threads t).data).1 ≠ -1 := by
  obtain ⟨m, hm⟩ := Option.ne_none_iff_exists'.mp (h.opened t hpc)
  obtain ⟨p, hfile⟩ := (h.owned.files t m).mpr ⟨hm, .inl (by simp [hpc, Pc.opened])⟩
  obtain ⟨todo, hl, -, -⟩ := (h.progress t).split
  simp only [Thread.pending, hpc] at hl
  obtain ⟨-, hlen⟩ := hlines t (s.threads t).data (by simp [hl])
  obtain ⟨w, hw⟩ := h.valid.toReady.exists_write (vfsBuf (s.threads t).data) p
    (by rw [vfsBuf_bytes hlen]; omega)
  refine ⟨w, ?_⟩
  simp only [System.write, hm, hfile, hw]
  rw [if_neg (by omega)]
  dsimp only
  omega

/-- A `read` in the critical section can always succeed. -/
theorem Synced.read_succeeds (h : Synced lines tr s) (hpc : (s.threads t).pc = .read) :
    (s.read .ok (s.threads t).fd 1024).1 ≠ -1 := by
  obtain ⟨m, p, hm, hfile, -⟩ : ∃ n p, (s.threads t).fd = some n ∧ s.files n = some ⟨t, p⟩ ∧
      p ≤ s.driver.content.length ∧ (s.threads t).reply = s.driver.content.take p := by
    have := h.reads t
    simpa only [Thread.Reads, hpc] using this
  obtain ⟨hret, -⟩ := h.valid.read_ok 1024 p
  simp only [System.read, hm, hfile, hret]
  rw [if_neg (by omega)]
  dsimp only
  omega

/-- While a connection is not complete, one of them can go on. -/
theorem Served.exists_busy [Finite ι] (h : Served lines tr s)
    (hlines : ∀ t, ∀ l ∈ lines t, IsSegment isNewline l ∧ l.length ≤ 65535)
    (hroom : 2 * (s.driver.mem.heap.bytes + 65535) < 2 ^ 64) (hrest : ∃ t, (s.threads t).pc ≠ .complete) :
    ∃ t env, s.Succeeds (.thread t env) ∧ s.Busy (.thread t env) := by
  cases hmutex : s.fileMutex with
  | none =>
    -- nobody is in a critical section, so any thread can go on
    obtain ⟨t, ht⟩ := hrest
    have hcrit : ¬ (s.threads t).pc.critical := fun hc => by
      have hmine := (h.owned.mutex t).mpr (.inl hc)
      rw [hmutex] at hmine
      cases hmine
    refine ⟨t, ⟨none, .ok 0 0, .ok, none⟩, ⟨⟨?_, ?_, ?_, ?_⟩, ?_⟩, ht, fun _ => hmutex⟩
    · rintro (hpc | hpc) <;> simp [hpc, Pc.critical] at hcrit
    all_goals
      intro hpc
      simp [hpc, Pc.critical] at hcrit
  | some t =>
    have hp := h.progress t
    have hcrit : (s.threads t).pc.critical := by
      refine ((h.owned.mutex t).mp hmutex).resolve_right ?_
      rintro (⟨-, hret⟩ | ⟨-, hfailed⟩)
      · exact hp.ret hret
      · rw [hp.going] at hfailed
        cases hfailed
    have hbusy : ∀ env, s.Busy (.thread t env) := fun env => by
      refine ⟨fun hpc => by simp [hpc, Pc.critical] at hcrit, ?_⟩
      rintro (hpc | hpc) <;> simp [hpc, Pc.critical] at hcrit
    obtain ⟨n, hn⟩ := System.exists_free_fd h.owned
    cases hpc : (s.threads t).pc with
    | writeOpen | readOpen =>
      have hopen : (s.openDevice t (some n)).1 ≠ none := by simp [System.openDevice, hn]
      exact ⟨t, ⟨some n, .ok 0 0, .ok, none⟩,
        ⟨⟨fun _ => hopen, by simp [hpc], by simp [hpc], by simp [hpc]⟩, by simp [hpc]⟩, hbusy _⟩
    | write =>
      obtain ⟨w, hok⟩ := h.exists_write hlines hroom hpc
      exact ⟨t, ⟨none, w, .ok, none⟩,
        ⟨⟨by simp [hpc], fun _ => hok, by simp [hpc], by simp [hpc]⟩, by simp [hpc]⟩, hbusy _⟩
    | read =>
      have hok := h.read_succeeds hpc
      exact ⟨t, ⟨none, .ok 0 0, .ok, none⟩,
        ⟨⟨by simp [hpc], by simp [hpc], fun _ => hok, by simp [hpc]⟩, by simp [hpc]⟩, hbusy _⟩
    | send =>
      exact ⟨t, ⟨none, .ok 0 0, .ok, some (s.threads t).bytesRead⟩,
        ⟨⟨by simp [hpc], by simp [hpc], by simp [hpc], by simp⟩, fun _ => le_rfl⟩, hbusy _⟩
    | writeUnlock | readUnlock =>
      exact ⟨t, ⟨none, .ok 0 0, .ok, none⟩,
        ⟨⟨by simp [hpc], by simp [hpc], by simp [hpc], by simp [hpc]⟩, by simp [hpc]⟩, hbusy _⟩
    | _ => simp [hpc, Pc.critical] at hcrit

end Served

/-! ### Runs -/

theorem length_flatten_log [Fintype ι] (lg : List (ι × List UInt8)) :
    (lg.map Prod.snd).flatten.length = ∑ t, (linesOf t lg).flatten.length := by
  induction lg using List.reverseRecOn with
  | nil => simp [linesOf]
  | append_singleton lg e ih =>
    obtain ⟨t, line⟩ := e
    have hsum : ∀ u, (linesOf u (lg ++ [(t, line)])).flatten.length =
        (linesOf u lg).flatten.length + if t = u then line.length else 0 := fun u => by
      rw [linesOf_concat]
      split_ifs <;> simp
    rw [Finset.sum_congr rfl fun u _ => hsum u, Finset.sum_add_distrib, ← ih, Finset.sum_ite_eq]
    simp

section Runs

variable {lines : ι → List (List UInt8)} {input : ι → List SockRead}

theorem SendsLines.run_served (h : SendsLines lines input) {as : List (Label ι)}
    (has : Along System.step System.Succeeds (.initial input) as) :
    Served lines (trace input as) (run System.step (.initial input) as) := by
  induction as using List.reverseRecOn with
  | nil => exact ⟨h.initial_synced, fun t hpc => Pc.noConfusion hpc, Nat.zero_le _⟩
  | append_singleton as a ih =>
    obtain ⟨has, ha⟩ := along_concat.mp has
    rw [trace, outputs_concat, run_concat]
    exact (ih has).step h.line ha

theorem Synced.log_length_le [Fintype ι] {tr : List (Event ι)} {s : System ι} (h : Synced lines tr s) :
    ((log tr).map Prod.snd).flatten.length ≤ ∑ t, (lines t).flatten.length := by
  rw [length_flatten_log]
  refine Finset.sum_le_sum fun t _ => ?_
  obtain ⟨todo, hsplit, -⟩ := (h.progress t).split
  rw [hsplit, List.flatten_append, List.flatten_append, List.length_append, List.length_append]
  omega

/-- A busy step leaves less work in total. -/
theorem Synced.total_work_lt [Fintype ι] {tr : List (Event ι)} {s : System ι} (h : Synced lines tr s)
    (hlines : ∀ t, ∀ l ∈ lines t, IsSegment isNewline l ∧ l.length ≤ 65535) {a : Label ι}
    (ha : s.Succeeds a ∧ s.Busy a) : ∑ t, (s.step a).work t < ∑ t, s.work t := by
  cases a with
  | signal => exact ha.2.elim
  | thread t env =>
    refine Finset.sum_lt_sum (fun u _ => ?_) ⟨t, Finset.mem_univ t, h.work_step hlines ha.1 ha.2⟩
    by_cases hu : u = t
    · subst hu
      exact (h.work_step hlines ha.1 ha.2).le
    · exact (h.work_of_ne hu).le

/-- No livelock: connections that send whole lines of at most 65535 bytes, every call
succeeding in full and no signal. Whatever the order of the steps, they take together a
bounded number of steps in which they do not wait. -/
theorem busy_steps_bounded [Fintype ι] (lines : ι → List (List UInt8)) (input : ι → List SockRead)
    (h : SendsLines lines input) (as : List (Label ι))
    (has : Along System.step (fun s a => s.Succeeds a ∧ s.Busy a) (.initial input) as) :
    as.length ≤ ∑ t, (lineWork * (lines t).length + 2) := by
  have hbound := length_le_of_decreasing (I := fun s : System ι => ∃ tr, Synced lines tr s)
    (fun s => ∑ t, s.work t)
    (fun s a hs ha => ⟨⟨_, hs.choose_spec.step h.line ha.1⟩, hs.choose_spec.total_work_lt h.line ha⟩)
    ⟨_, h.initial_synced⟩ has
  have hwork : ∀ t, (System.initial input).work t = lineWork * (lines t).length + 2 := fun t => by
    simp only [System.work, System.initial, Thread.initial, h.received t,
      countP_flatten fun l hl => (h.line t l hl).1, Pc.work]
  simp only [hwork] at hbound
  omega

/-- One connection goes through to its end before the others begin. -/
theorem busy_steps_bounded_alone :
    (List.replicate 17 (okStep (0 : Fin 11))).length ≤ ∑ t, (lineWork * (letterLines t).length + 2) :=
  busy_steps_bounded letterLines letterInput letterInput_sendsLines _ (by decide +kernel)

/-- No deadlock, under the same conditions: wherever a run has come to, the connections
can go on without waiting until all of them are complete. Then every line is in the log
and has its reply. The memory must suffice for all lines, because the driver does not
give back the lines that leave the ring. -/
theorem every_run_completes [Fintype ι] (lines : ι → List (List UInt8)) (input : ι → List SockRead)
    (h : SendsLines lines input) (hroom : 2 * (∑ t, (lines t).flatten.length + 65535) < 2 ^ 64)
    (as : List (Label ι)) (has : Along System.step System.Succeeds (.initial input) as) :
    ∃ bs, Along System.step (fun s a => s.Succeeds a ∧ s.Busy a)
        (run System.step (.initial input) as) bs ∧
      ∀ t, ((run System.step (.initial input) (as ++ bs)).threads t).pc = .complete ∧
        linesOf t (log (trace input (as ++ bs))) = lines t ∧
        (repliesOf t (trace input (as ++ bs))).length = (lines t).length := by
  have hnext : ∀ s : System ι, (∃ tr, Served lines tr s) → ¬ (∀ t, (s.threads t).pc = .complete) →
      ∃ a, s.Succeeds a ∧ s.Busy a := by
    rintro s ⟨tr, hs⟩ hrest
    have hbytes := Nat.add_le_add_right (hs.memory.trans hs.log_length_le) 65535
    obtain ⟨t, env, ht⟩ := hs.exists_busy h.line ((Nat.mul_le_mul_left 2 hbytes).trans_lt hroom)
      (not_forall.mp hrest)
    exact ⟨.thread t env, ht⟩
  obtain ⟨bs, hbs, hfinal⟩ := exists_final (fun s : System ι => ∑ t, s.work t)
    (fun s a hs ha => ⟨⟨_, hs.choose_spec.step h.line ha.1⟩,
      hs.choose_spec.toSynced.total_work_lt h.line ha⟩) hnext ⟨_, h.run_served has⟩
  refine ⟨bs, hbs, fun t => ?_⟩
  have hall : Along System.step System.Succeeds (.initial input) (as ++ bs) :=
    along_append.mpr ⟨has, hbs.of_invariant (I := fun _ => True) (fun _ _ _ _ => trivial)
      (fun _ _ _ ha => ha.1) trivial⟩
  have hcomplete : ((run System.step (.initial input) (as ++ bs)).threads t).pc = .complete := by
    rw [run_append]
    exact hfinal t
  have hp := (h.run_served hall).progress t
  obtain ⟨todo, hl, -, hend⟩ := hp.split
  have hcount := hp.count
  simp only [Thread.pending, hcomplete, Pc.ahead, hend (.inr hcomplete), List.append_nil] at hl hcount
  exact ⟨hcomplete, hl.symm, by rw [hl, hcount]; rfl⟩

theorem every_run_completes_overtaken :
    ∃ bs, ∀ t, linesOf t (log (trace letterInput (overtaken ++ bs))) = letterLines t := by
  obtain ⟨bs, -, hall⟩ := every_run_completes letterLines letterInput letterInput_sendsLines (by decide)
    overtaken (by decide +kernel)
  exact ⟨bs, fun t => (hall t).2.1⟩

end Runs

end Aesd.Server
