import Aesd.Server.Calls

/-! What `handle_connection` passes on of a client's stream. It gets the stream
in pieces: the lines, and what comes after the last newline. `read_line` places
at most 65535 bytes of a piece and discards the rest of it, so the stream is
passed on unchanged as long as no piece is longer, and a longer one is cut. -/

namespace Aesd.Server

open Segments Run Driver

/-! ### The loop on its own -/

/-- What one round of the loop meets: `should_terminate` after `read_line`, and
the results of `filestore_write` and `filestore_read_to_dest`. -/
structure Round where
  shouldTerminate : Bool
  write : ℤ
  read : ℤ

def Round.ok : Round := ⟨false, 0, 0⟩

/-- The buffers that the loop of `handle_connection` passes to `filestore_write`,
and whether it has ended within the given rounds. -/
def handleConnection : Bool → List SockRead → List Round → List (List UInt8) × Bool
  | _, _, [] => ([], false)
  | operationFailed, fd, round :: rounds =>
    let r := readLine fd connectionBufferSize
    if 0 < r.retval ∧ round.shouldTerminate = false ∧ operationFailed = false then
      let failed := operationFailed || round.write == -1 || round.read == -1
      let (buffers, ended) := handleConnection failed r.rest rounds
      (r.buffer.take r.retval.toNat :: buffers, ended)
    else ([], true)

/-- The pieces of a stream, each of them cut to what the buffer holds. -/
def cutPieces (stream : List UInt8) : List (List UInt8) :=
  (pieces isNewline stream).map (·.take 65535)

/-- At the end of the stream `read_line` returns 0. -/
theorem readLine_of_nil {fd : List SockRead} (h : .error ∉ fd) (hfd : received fd = []) :
    (readLine fd connectionBufferSize).retval = 0 ∧
      received (readLine fd connectionBufferSize).rest = [] := by
  obtain ⟨hb, hret, hrest, -⟩ := readLine_spec (n := connectionBufferSize) (by decide) h
  rw [hfd] at hb hrest
  rw [hret, hb, hrest]
  exact ⟨rfl, rfl⟩

/-- Before the end it returns the next piece, cut to fit. -/
theorem readLine_of_ne_nil {fd : List SockRead} (h : .error ∉ fd) (hfd : received fd ≠ []) :
    let r := readLine fd connectionBufferSize
    0 < r.retval ∧ r.retval = r.buffer.length ∧ .error ∉ r.rest ∧
      (received r.rest).length < (received fd).length ∧
      cutPieces (received fd) = r.buffer :: cutPieces (received r.rest) := by
  intro r
  obtain ⟨hb, hret, hrest, herr⟩ := readLine_spec (n := connectionBufferSize) (by decide) h
  have hline : 0 < (cutAfter isNewline (received fd)).length :=
    List.length_pos_iff.mpr (cutAfter_ne_nil hfd)
  have hlen : 0 < r.buffer.length := by
    rw [hb, List.length_take, connectionBufferSize]
    omega
  have hle : (cutAfter isNewline (received fd)).length ≤ (received fd).length :=
    (cutAfter_isPrefix _).length_le
  refine ⟨by rw [hret]; exact_mod_cast hlen, hret, herr, ?_, ?_⟩
  · rw [hrest, List.length_drop]
    omega
  · rw [cutPieces, pieces_of_ne_nil hfd, List.map_cons, ← hrest, hb]
    rfl

/-- With rounds to spare the loop passes on all pieces and ends. -/
theorem handleConnection_ok {fd : List SockRead} (h : .error ∉ fd) {k : ℕ}
    (hk : (received fd).length < k) :
    handleConnection false fd (List.replicate k .ok) = (cutPieces (received fd), true) := by
  induction k generalizing fd with
  | zero => simp at hk
  | succ k ih =>
    rw [List.replicate_succ, handleConnection]
    by_cases hfd : received fd = []
    · rw [if_neg (by simp [(readLine_of_nil h hfd).1]), hfd]
      rfl
    · obtain ⟨hpos, hret, herr, hlt, hcut⟩ := readLine_of_ne_nil h hfd
      rw [if_pos ⟨hpos, rfl, rfl⟩]
      change (_ :: (handleConnection false _ (List.replicate k .ok)).1,
        (handleConnection false _ (List.replicate k .ok)).2) = _
      rw [ih herr (by omega), hret, Int.toNat_natCast, List.take_length, hcut]

/-! ### The thread -/

variable {ι : Type*} [DecidableEq ι]

/-- The buffer with which thread `t` enters `filestore_write` in the step. -/
def System.passes (t : ι) (s : System ι) : Label ι → List (List UInt8)
  | .thread u env =>
    if u = t ∧ (s.threads t).pc = .readLine ∧ ((s.threadStep t env).threads t).pc = .writeLock
    then [((s.threadStep t env).threads t).data] else []
  | .signal => []

/-- No store operation of thread `t` fails, and the server is not shut down. -/
def System.Undisturbed (t : ι) (s : System ι) : Label ι → Prop
  | .thread u env => u = t → s.NoFailure (.thread u env)
  | .signal => False

instance (t : ι) (s : System ι) : (a : Label ι) → Decidable (s.Undisturbed t a)
  | .thread _ _ => inferInstanceAs (Decidable (_ → _))
  | .signal => inferInstanceAs (Decidable False)

omit [DecidableEq ι] in
/-- Only a failed `read` gives the `size_t` value of -1. -/
theorem System.read_size_ne {s : System ι} {env : ReadEnv} {fd : Option ℕ}
    (h : (s.read env fd 1024).1 ≠ -1) : ((s.read env fd 1024).1 % 2 ^ 64).toNat ≠ 2 ^ 64 - 1 := by
  obtain ⟨n, f, -, -, hpos, hret, -⟩ := System.read_ok h
  have hle := aesdRead_retval_le env s.driver 1024 f.fPos
  rw [hret]
  omega

/-- A thread whose store operations succeed goes on without a failure noted. -/
theorem System.NoFailure.going {s : System ι} {t : ι} {env : Env} (hok : s.NoFailure (.thread t env))
    (hgoing : (s.threads t).operationFailed = false) (hret : (s.threads t).ret ≠ -1) :
    ((s.threadStep t env).threads t).operationFailed = false ∧
      ((s.threadStep t env).threads t).ret ≠ -1 := by
  obtain ⟨hopen, hwrite, hread, hsend⟩ := hok
  have hlock : ∀ next, ((s.lock t next).threads t).operationFailed = false ∧
      ((s.lock t next).threads t).ret ≠ -1 := fun next => by
    unfold System.lock
    split
    · simp [hgoing, hret]
    · exact ⟨hgoing, hret⟩
  cases hpc : (s.threads t).pc with
  | writeLock | readLock => simpa only [System.threadStep, hpc] using hlock _
  | readOpen => simp [System.threadStep, hpc, hgoing, hret, hopen (.inr hpc)]
  | write => simp [System.threadStep, hpc, hgoing, hret, hwrite hpc]
  | read =>
    have hsize := System.read_size_ne (hread hpc)
    simp only [System.threadStep, hpc, if_neg hsize]
    split_ifs <;> simp [hgoing, hret]
  | send =>
    obtain ⟨k, hk⟩ := Option.ne_none_iff_exists'.mp (hsend hpc)
    simp [System.threadStep, hpc, hk, hgoing, hret]
  | complete => simp [System.threadStep, hpc, hgoing, hret]
  | writeReturned =>
    simp only [System.threadStep, hpc, System.put_threads, Function.update_self, hgoing]
    simp [hret]
  | readLine | readReturned | closeConnection | writeOpen | writeUnlock | writeClose | readUnlock
  | readClose => simp [System.threadStep, System.unlock, hpc, hgoing, hret]

/-- The loop ends at its test only. -/
theorem System.ended_of_threadStep {s : System ι} {t : ι} {env : Env}
    (hpc : (s.threads t).pc ≠ .readLine)
    (h : ((s.threadStep t env).threads t).pc = .closeConnection ∨
      ((s.threadStep t env).threads t).pc = .complete) :
    (s.threads t).pc = .closeConnection ∨ (s.threads t).pc = .complete := by
  have hlock : ∀ next, next ≠ .closeConnection → next ≠ .complete →
      (s.threads t).pc ≠ .closeConnection → (s.threads t).pc ≠ .complete →
      ((s.lock t next).threads t).pc ≠ .closeConnection ∧
        ((s.lock t next).threads t).pc ≠ .complete := fun next h1 h2 h3 h4 => by
    unfold System.lock
    split
    · simp [h1, h2]
    · exact ⟨h3, h4⟩
  cases hpc' : (s.threads t).pc with
  | readLine => exact absurd hpc' hpc
  | closeConnection => exact .inl rfl
  | complete => exact .inr rfl
  | writeLock =>
    have hl := hlock .writeOpen (by simp) (by simp) (by simp [hpc']) (by simp [hpc'])
    simp only [System.threadStep, hpc'] at h
    exact absurd h (not_or.mpr hl)
  | readLock =>
    have hl := hlock .readOpen (by simp) (by simp) (by simp [hpc']) (by simp [hpc'])
    simp only [System.threadStep, hpc'] at h
    exact absurd h (not_or.mpr hl)
  | write | read | send =>
    simp only [System.threadStep, hpc'] at h
    split at h <;> simp at h
  | writeReturned | readReturned | writeOpen | writeUnlock | writeClose | readOpen | readUnlock
  | readClose =>
    simp only [System.threadStep, System.unlock, hpc', System.put_threads, Function.update_self] at h
    simp at h

/-- The thread has passed on `ps`, and the pieces of the rest of its input are
still to come. -/
structure Passing (stream : List UInt8) (ps : List (List UInt8)) (th : Thread) : Prop where
  going : th.operationFailed = false
  ret : th.ret ≠ -1
  clean : .error ∉ th.input
  split : ps ++ cutPieces (received th.input) = cutPieces stream
  ended : th.pc = .closeConnection ∨ th.pc = .complete → received th.input = []

theorem Passing.readLine {stream : List UInt8} {ps : List (List UInt8)} {s : System ι} {t : ι}
    {env : Env} (h : Passing stream ps (s.threads t)) (hpc : (s.threads t).pc = .readLine)
    (hrun : s.shouldTerminate = false) :
    Passing stream (ps ++ s.passes t (.thread t env)) ((s.threadStep t env).threads t) := by
  have hgoing := h.going
  by_cases hfd : received (s.threads t).input = []
  · obtain ⟨hret, hrest⟩ := readLine_of_nil h.clean hfd
    have herr := (readLine_spec (n := connectionBufferSize) (by decide) h.clean).2.2.2
    have hsplit := h.split
    rw [hfd] at hsplit
    simp only [System.passes, System.threadStep, hpc, hret, System.put_threads, Function.update_self]
    simp only [lt_self_iff_false, false_and, if_false, reduceCtorEq, and_false, List.append_nil]
    exact ⟨hgoing, h.ret, herr, by rwa [hrest], fun _ => hrest⟩
  · obtain ⟨hpos, hret, herr, -, hcut⟩ := readLine_of_ne_nil h.clean hfd
    have hgo : 0 < (Server.readLine (s.threads t).input connectionBufferSize).retval ∧
        s.shouldTerminate = false ∧ (s.threads t).operationFailed = false := ⟨hpos, hrun, hgoing⟩
    have hth : (s.threadStep t env).threads t = { s.threads t with
        input := (Server.readLine (s.threads t).input connectionBufferSize).rest
        connBuffer := (Server.readLine (s.threads t).input connectionBufferSize).buffer
        bytesReceived := (Server.readLine (s.threads t).input connectionBufferSize).retval
        pc := .writeLock } := by
      simp only [System.threadStep, hpc, if_pos hgo, System.put_threads, Function.update_self]
    have hpass : s.passes t (.thread t env) =
        [(Server.readLine (s.threads t).input connectionBufferSize).buffer] := by
      simp only [System.passes, hpc, hth, Thread.data, hret, Int.toNat_natCast, List.take_length,
        and_self, if_true]
    have hsplit := h.split
    rw [hcut, List.append_cons] at hsplit
    rw [hpass, hth]
    exact ⟨hgoing, h.ret, herr, hsplit, by simp⟩

theorem Passing.step {stream : List UInt8} {ps : List (List UInt8)} {s : System ι} {t : ι}
    (h : Passing stream ps (s.threads t)) (hrun : s.shouldTerminate = false) {a : Label ι}
    (ha : s.Undisturbed t a) :
    (s.step a).shouldTerminate = false ∧
      Passing stream (ps ++ s.passes t a) ((s.step a).threads t) := by
  cases a with
  | signal => exact ha.elim
  | thread u env =>
    obtain ⟨th, hframe⟩ := s.threadStep_frame u env
    refine ⟨by rw [System.step, hframe.shouldTerminate, hrun], ?_⟩
    by_cases hu : u = t
    · subst hu
      by_cases hpc : (s.threads u).pc = .readLine
      · exact h.readLine hpc hrun
      · obtain ⟨hgoing, hret⟩ := System.NoFailure.going (ha rfl) h.going h.ret
        have hth : (s.threadStep u env).threads u = th := by rw [hframe.threads, Function.update_self]
        have hinput : ((s.threadStep u env).threads u).input = (s.threads u).input := by
          rw [hth, (hframe.line hpc).1]
        have hpass : s.passes u (.thread u env) = [] := by simp [System.passes, hpc]
        rw [hpass, List.append_nil]
        exact ⟨hgoing, hret, hinput ▸ h.clean, hinput ▸ h.split,
          fun he => hinput ▸ h.ended (System.ended_of_threadStep hpc he)⟩
    · have hth : (s.threadStep u env).threads t = s.threads t := by
        rw [hframe.threads, Function.update_of_ne (Ne.symm hu)]
      have hpass : s.passes t (.thread u env) = [] := by simp [System.passes, hu]
      rw [hpass, List.append_nil, System.step, hth]
      exact h

theorem run_passing {input : ι → List SockRead} {t : ι} (h : .error ∉ input t) {as : List (Label ι)}
    (has : Along System.step (System.Undisturbed t) (.initial input) as) :
    (run System.step (.initial input) as).shouldTerminate = false ∧
      Passing (received (input t)) (outputs System.step (System.passes t) (.initial input) as)
        ((run System.step (.initial input) as).threads t) := by
  induction as using List.reverseRecOn with
  | nil =>
    exact ⟨rfl, rfl, by simp [System.initial, Thread.initial], h, rfl,
      by simp [System.initial, Thread.initial]⟩
  | append_singleton as a ih =>
    obtain ⟨has, ha⟩ := along_concat.mp has
    obtain ⟨hrun, hp⟩ := ih has
    rw [outputs_concat, run_concat]
    exact hp.step hrun ha

/-! ### The stream -/

theorem cutPieces_of_le {stream : List UInt8}
    (h : ∀ l ∈ pieces isNewline stream, l.length ≤ 65535) :
    cutPieces stream = pieces isNewline stream := by
  rw [cutPieces]
  conv_rhs => rw [← List.map_id (pieces isNewline stream)]
  exact List.map_congr_left fun l hl => List.take_of_length_le (h l hl)

theorem cutPieces_of_free {stream : List UInt8} (h : Free isNewline stream) (hne : stream ≠ []) :
    cutPieces stream = [stream.take 65535] := by
  rw [cutPieces, pieces_of_ne_nil hne, cutAfter_of_free h, List.drop_length]
  rfl

/-- The stream of a client up to its orderly end, whatever calls were
interrupted. With no failing store operation, `handle_connection` passes on the
pieces of the stream, each cut to its first 65535 bytes, on its own and in any
interleaving with other threads. If no piece is longer, they make up the stream,
and all of them but possibly the last are newline-terminated lines. -/
theorem stream_passed_on (input : ι → List SockRead) (t : ι) (h : .error ∉ input t) :
    let stream := received (input t)
    (∀ k, stream.length < k →
      handleConnection false (input t) (List.replicate k .ok) = (cutPieces stream, true)) ∧
    (∀ as, Along System.step (System.Undisturbed t) (.initial input) as →
      let ps := outputs System.step (System.passes t) (.initial input) as
      let th := (run System.step (.initial input) as).threads t
      ps <+: cutPieces stream ∧
        (th.pc = .closeConnection ∨ th.pc = .complete → ps = cutPieces stream)) ∧
    ((∀ l ∈ pieces isNewline stream, l.length ≤ 65535) →
      (cutPieces stream).flatten = stream ∧
        ∀ l ∈ (cutPieces stream).dropLast, IsSegment isNewline l) := by
  intro stream
  refine ⟨fun k hk => handleConnection_ok h hk, fun as has => ?_, fun hle => ?_⟩
  · have hp := (run_passing h has).2
    refine ⟨⟨_, hp.split⟩, fun hend => ?_⟩
    have hsplit := hp.split
    rw [hp.ended hend] at hsplit
    simpa [cutPieces] using hsplit
  · rw [cutPieces_of_le hle]
    exact ⟨flatten_pieces stream, fun l hl => isSegment_of_mem_dropLast_pieces hl⟩

/-- A line and a rest, with an interrupted call between them. -/
def interruptedInput (_ : Fin 1) : List SockRead := [.byte 97, .byte newline, .eintr, .byte 98]

/-- Two rounds of the loop, in which the pending entry gets blocks 0 and 1. -/
def twoRounds : List (Label (Fin 1)) :=
  (List.replicate 15 0 ++ List.replicate 17 1).map fun b =>
    .thread 0 ⟨some 3, .ok 99 b, .ok, some 1024⟩

theorem stream_passed_on_interrupted :
    handleConnection false (interruptedInput 0) (List.replicate 4 .ok) =
        ([[97, newline], [98]], true) ∧
      outputs System.step (System.passes 0) (.initial interruptedInput) twoRounds =
        [[97, newline], [98]] := by
  obtain ⟨hloop, hruns, -⟩ := stream_passed_on interruptedInput 0 (by decide)
  exact ⟨hloop 4 (by decide), (hruns twoRounds (by decide +kernel)).2 (by decide +kernel)⟩

/-- One piece of 65536 bytes: its last byte is discarded. -/
theorem stream_passed_on_fails :
    ¬ ∀ (fd : List SockRead) (k : ℕ), .error ∉ fd → (received fd).length < k →
      let r := handleConnection false fd (List.replicate k .ok)
      r.2 = true ∧ r.1.flatten = received fd ∧ ∀ l ∈ r.1.dropLast, IsSegment isNewline l := by
  intro h
  have hlong : ∀ n, 65535 < n → False := fun n hn => by
    have hfree : Free isNewline (List.replicate n 97) := by
      intro a ha
      rw [List.eq_of_mem_replicate ha]
      rfl
    have hne : List.replicate n (97 : UInt8) ≠ [] := List.ne_nil_of_length_pos (by simp; omega)
    have herr : .error ∉ (List.replicate n 97).map SockRead.byte := by simp
    have hflat := (h _ (n + 1) herr (by rw [received_map_byte]; simp)).2.1
    rw [handleConnection_ok herr (by rw [received_map_byte]; simp), received_map_byte,
      cutPieces_of_free hfree hne, List.flatten_singleton] at hflat
    have hlen := congrArg List.length hflat
    rw [List.length_take, List.length_replicate] at hlen
    omega
  exact hlong 65536 (by omega)

end Aesd.Server
