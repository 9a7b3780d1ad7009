import Aesd.Driver.Ownership
import Aesd.Lib.Atomic

/-! The driver under concurrent calls. Any number of processes call `aesd_read` and
`aesd_write` at the same time, and the calls are cut into their statements: the calls
to the kernel, every round of the newline scan, every assignment to the device. All
of them lie between taking the device lock and giving it back. So every interleaving
looks from outside as if each call were one function of the driver state, applied
when it returns. A call whose wait for the lock is interrupted returns at once. -/

namespace Aesd.Driver

open Kmem Run Atomic

/-! ### The statements of a call -/

inductive WritePc where
  | kmalloc
  | copyFromUser
  | scan
  | krealloc
  | memcpy
  | setSize
  | addEntry
  | clearEntry
  | kfree
  | unlock
  deriving DecidableEq

/-- The arguments and variables of `aesd_write`. -/
structure WriteVars where
  env : WriteEnv
  buf : UserBuf
  fPos : ℕ
  pc : WritePc
  kbuf : Ptr
  i : ℕ
  newlinePos : ℤ
  retval : ℤ

inductive ReadPc where
  | find
  | copyToUser (entry : Fin 10) (entryOffsetByte : ℕ)
  | unlock
  deriving DecidableEq

structure ReadVars where
  env : ReadEnv
  count : ℕ
  fPos : ℕ
  pc : ReadPc
  copied : List Cell
  retval : ℤ

inductive CallVars where
  | write (v : WriteVars)
  | read (v : ReadVars)

/-- What a call gives back: the return value, the new `*f_pos`, and the cells that
reached the user's buffer. -/
structure CallResult where
  retval : ℤ
  fPos : ℕ
  copied : List Cell
  deriving DecidableEq

/-- `count` without a newline in `kbuf`, else `copy_size`. -/
def WriteVars.copySize (v : WriteVars) : ℕ :=
  if v.newlinePos = -1 then v.buf.bytes.length else (v.newlinePos + 1).toNat

def writeStep (v : WriteVars) (s : State) : (WriteVars ⊕ CallResult) × State :=
  let count := v.buf.bytes.length
  match v.pc with
  | .kmalloc =>
    let (kbuf, m) := s.mem.kmalloc count v.env.kmalloc
    let pc := if kbuf = .null then .unlock else .copyFromUser
    (.inl { v with kbuf := kbuf, retval := -enomem, pc := pc }, { s with mem := m })
  | .copyFromUser =>
    let (missing, m) := s.mem.copyFromUser v.kbuf v.buf.bytes v.env.uncopied
    if missing ≠ 0 then (.inl { v with retval := -efault, pc := .kfree }, { s with mem := m })
    else (.inl { v with i := 0, pc := .scan }, { s with mem := m })
  | .scan =>
    if v.i < count then
      if (s.mem.load v.kbuf 0 count)[v.i]? = some (some newline) then
        (.inl { v with newlinePos := v.i, pc := .krealloc }, s)
      else (.inl { v with i := v.i + 1 }, s)
    else (.inl { v with pc := .krealloc }, s)
  | .krealloc =>
    let entry := s.dev.entry
    let (p, m) := s.mem.krealloc entry.buffptr (wrap (entry.size + v.copySize)) v.env.krealloc
    let s : State := ⟨{ s.dev with entry := { entry with buffptr := p } }, m⟩
    if p = .null then (.inl { v with retval := -enomem, pc := .kfree }, s)
    else (.inl { v with pc := .memcpy }, s)
  | .memcpy =>
    let entry := s.dev.entry
    let m := s.mem.memcpy entry.buffptr entry.size (s.mem.load v.kbuf 0 v.copySize)
    (.inl { v with pc := .setSize }, { s with mem := m })
  | .setSize =>
    let entry := s.dev.entry
    let s : State := { s with
      dev := { s.dev with entry := { entry with size := wrap (entry.size + v.copySize) } } }
    if v.newlinePos = -1 then (.inl { v with retval := count, pc := .kfree }, s)
    else (.inl { v with pc := .addEntry }, s)
  | .addEntry =>
    (.inl { v with pc := .clearEntry }, { s with
      dev := { s.dev with buffer := aesdCircularBufferAddEntry s.dev.buffer s.dev.entry } })
  | .clearEntry =>
    (.inl { v with retval := count, pc := .kfree }, { s with dev := { s.dev with entry := .zero } })
  | .kfree => (.inl { v with pc := .unlock }, { s with mem := s.mem.kfree v.kbuf })
  | .unlock => (.inr ⟨v.retval, v.fPos, []⟩, { s with dev := { s.dev with lock := false } })

def readStep (v : ReadVars) (s : State) : (ReadVars ⊕ CallResult) × State :=
  match v.pc with
  | .find =>
    match aesdCircularBufferFindEntryOffsetForFpos s.dev.buffer v.fPos 0 with
    | (none, _) => (.inl { v with retval := 0, pc := .unlock }, s)
    | (some i, entryOffsetByte) => (.inl { v with pc := .copyToUser i entryOffsetByte }, s)
  | .copyToUser i entryOffsetByte =>
    let entry := s.dev.buffer.entry i
    let bytesToCopy := min v.count (wrap (entry.size + 2 ^ 64 - entryOffsetByte))
    let missing := min v.env.uncopied bytesToCopy
    let copied := (s.mem.load entry.buffptr entryOffsetByte bytesToCopy).take (bytesToCopy - missing)
    if missing ≠ 0 then (.inl { v with copied := copied, retval := -efault, pc := .unlock }, s)
    else (.inl { v with
      copied := copied
      fPos := wrap (v.fPos + bytesToCopy)
      retval := bytesToCopy
      pc := .unlock }, s)
  | .unlock => (.inr ⟨v.retval, v.fPos, v.copied⟩, { s with dev := { s.dev with lock := false } })

def callStep : CallVars → State → (CallVars ⊕ CallResult) × State
  | .write v, s => (writeStep v s).map (Sum.map .write id) id
  | .read v, s => (readStep v s).map (Sum.map .read id) id

/-! ### Processes -/

/-- Whether the wait for the lock ends with the lock. -/
def Call.locks : Call → Bool
  | .write env _ _ => env.lock
  | .read env _ _ => env.lock

def Call.fPos : Call → ℕ
  | .write _ _ fPos | .read _ _ fPos => fPos

/-- The first statement under the lock. -/
def Call.start : Call → CallVars
  | .write env buf fPos => .write ⟨env, buf, fPos, .kmalloc, .null, 0, -1, -enomem⟩
  | .read env count fPos => .read ⟨env, count, fPos, .find, [], 0⟩

inductive Client where
  | idle
  | calling (c : Call)

inductive CallEvent where
  | invoked (c : Call)
  | returned (c : Call) (r : CallResult)

/-- A process calls the driver whenever it likes, one call at a time. -/
def callers : Program Client Call Call CallVars Unit State CallResult CallEvent where
  next
    | .idle => none
    | .calling c => if c.locks then some c else none
  move
    | .idle, c => .calling c
    | .calling _, _ => .idle
  enter c s := (c.start, { s with dev := { s.dev with lock := true } })
  step l _ s := callStep l s
  leave _ _ := .idle
  keeps _ := false
  moved
    | .idle, c => [.invoked c]
    | .calling c, _ => [.returned c ⟨-erestartsys, c.fPos, []⟩]
  returned _ c r := [.returned c r]

/-! ### One call by itself -/

/-- The call as one function of the state. -/
def Call.result (s : State) : Call → CallResult
  | .write env buf fPos =>
    let r := aesdWrite env s buf fPos
    ⟨r.retval, r.fPos, []⟩
  | .read env count fPos =>
    let r := aesdRead env s count fPos
    ⟨r.retval, r.fPos, r.copied⟩

section Solo

variable {v v' : WriteVars} {s s' : State} {n : ℕ} {x : CallResult × State}

theorem ends_write (h : writeStep v s = (.inl v', s')) (hx : callers.Ends (.write v') s' n x) :
    callers.Ends (.write v) s (n + 1) x :=
  hx.of_step (e := ()) (by simp only [callers, callStep, h]; rfl)

theorem ends_unlock (hpc : v.pc = .unlock) :
    callers.Ends (.write v) s 1
      (⟨v.retval, v.fPos, []⟩, ⟨{ s.dev with lock := false }, s.mem⟩) :=
  .of_return (e := ()) (by simp only [callers, callStep, writeStep, hpc]; rfl) 0

theorem ends_kfree (hpc : v.pc = .kfree) :
    callers.Ends (.write v) s 2
      (⟨v.retval, v.fPos, []⟩, ⟨{ s.dev with lock := false }, s.mem.kfree v.kbuf⟩) := by
  have hstep : writeStep v s =
      (.inl { v with pc := .unlock }, { s with mem := s.mem.kfree v.kbuf }) := by
    simp only [writeStep, hpc]
  exact ends_write hstep (ends_unlock rfl)

/-- What `aesd_write` does behind the scan. -/
def WriteVars.rest (v : WriteVars) (s : State) : CallResult × State :=
  let (ok, entry, m) := growEntry s.mem s.dev.entry v.kbuf v.copySize v.env.krealloc
  let dev := { s.dev with entry := entry, lock := false }
  let m := m.kfree v.kbuf
  if ok = false then (⟨-enomem, v.fPos, []⟩, ⟨dev, m⟩)
  else if v.newlinePos = -1 then (⟨v.buf.bytes.length, v.fPos, []⟩, ⟨dev, m⟩)
  else (⟨v.buf.bytes.length, v.fPos, []⟩,
    ⟨{ dev with buffer := aesdCircularBufferAddEntry s.dev.buffer entry, entry := .zero }, m⟩)

/-- From `memcpy` on, when `krealloc` has given a block. -/
theorem ends_memcpy (hpc : v.pc = .memcpy) :
    let entry := s.dev.entry
    let m := (s.mem.memcpy entry.buffptr entry.size (s.mem.load v.kbuf 0 v.copySize)).kfree v.kbuf
    let entry : BufferEntry := ⟨entry.buffptr, wrap (entry.size + v.copySize)⟩
    callers.Ends (.write v) s 6 (⟨v.buf.bytes.length, v.fPos, []⟩,
      ⟨if v.newlinePos = -1 then { s.dev with entry := entry, lock := false }
        else { s.dev with
          buffer := aesdCircularBufferAddEntry s.dev.buffer entry
          entry := .zero
          lock := false }, m⟩) := by
  intro entry m entry'
  set s₁ : State := { s with
    mem := s.mem.memcpy entry.buffptr entry.size (s.mem.load v.kbuf 0 v.copySize) }
  set s₂ : State := { s₁ with dev := { s.dev with entry := entry' } }
  have hmemcpy : writeStep v s = (.inl { v with pc := .setSize }, s₁) := by
    simp only [writeStep, hpc]
    rfl
  by_cases hn : v.newlinePos = -1
  · have hsize : writeStep { v with pc := .setSize } s₁ =
        (.inl { v with retval := v.buf.bytes.length, pc := .kfree }, s₂) := by
      rw [writeStep]
      exact if_pos hn
    rw [if_pos hn]
    exact (ends_write hmemcpy (ends_write hsize (ends_kfree rfl))).mono (by decide)
  · have hsize : writeStep { v with pc := .setSize } s₁ = (.inl { v with pc := .addEntry }, s₂) := by
      rw [writeStep]
      exact if_neg hn
    have hadd : writeStep { v with pc := .addEntry } s₂ = (.inl { v with pc := .clearEntry },
        { s₂ with
          dev := { s₂.dev with buffer := aesdCircularBufferAddEntry s.dev.buffer entry' } }) := rfl
    have hclear : writeStep { v with pc := .clearEntry }
        { s₂ with dev := { s₂.dev with buffer := aesdCircularBufferAddEntry s.dev.buffer entry' } } =
        (.inl { v with retval := v.buf.bytes.length, pc := .kfree }, { s₂ with
          dev := { s₂.dev with
            buffer := aesdCircularBufferAddEntry s.dev.buffer entry'
            entry := .zero } }) := rfl
    rw [if_neg hn]
    exact ends_write hmemcpy (ends_write hsize (ends_write hadd (ends_write hclear (ends_kfree rfl))))

theorem ends_rest (hpc : v.pc = .krealloc) : callers.Ends (.write v) s 7 (v.rest s) := by
  rcases hk : s.mem.krealloc s.dev.entry.buffptr (wrap (s.dev.entry.size + v.copySize)) v.env.krealloc
    with ⟨p, m⟩
  set s₁ : State := ⟨{ s.dev with entry := { s.dev.entry with buffptr := p } }, m⟩
  by_cases hp : p = .null
  · have hrest : v.rest s = (⟨-enomem, v.fPos, []⟩, ⟨{ s₁.dev with lock := false }, m.kfree v.kbuf⟩) := by
      simp only [WriteVars.rest, growEntry, hk, hp, if_true, s₁]
    have hstep : writeStep v s = (.inl { v with retval := -enomem, pc := .kfree }, s₁) := by
      simp only [writeStep, hpc, hk, hp, if_true, s₁]
    rw [hrest]
    exact (ends_write hstep (ends_kfree rfl)).mono (by decide)
  · have hstep : writeStep v s = (.inl { v with pc := .memcpy }, s₁) := by
      simp only [writeStep, hpc, hk, hp, if_false, s₁]
    have hgrow : growEntry s.mem s.dev.entry v.kbuf v.copySize v.env.krealloc =
        (true, ⟨p, wrap (s.dev.entry.size + v.copySize)⟩,
          m.memcpy p s.dev.entry.size (m.load v.kbuf 0 v.copySize)) := by
      rw [growEntry, hk]
      cases p with
      | null => exact absurd rfl hp
      | zeroSize | block b => rfl
    have hends := ends_write hstep (ends_memcpy rfl)
    rw [WriteVars.rest, hgrow]
    dsimp only
    rw [if_neg (by simp)]
    by_cases hn : v.newlinePos = -1
    · rw [if_pos hn]
      rw [if_pos hn] at hends
      exact hends
    · rw [if_neg hn]
      rw [if_neg hn] at hends
      exact hends

/-- The newline scan, from index `i` on. -/
theorem ends_scan (hpc : v.pc = .scan) (hn : v.newlinePos = -1) :
    let cells := s.mem.load v.kbuf 0 v.buf.bytes.length
    callers.Ends (.write v) s (v.buf.bytes.length - v.i + 8)
      ({ v with newlinePos := scanNewline (cells.drop v.i) v.i }.rest s) := by
  intro cells
  have hlen : cells.length = v.buf.bytes.length := length_resize _ _
  induction hk : v.buf.bytes.length - v.i generalizing v with
  | zero =>
    have hstep : writeStep v s = (.inl { v with pc := .krealloc }, s) := by
      simp only [writeStep, hpc]
      rw [if_neg (by omega)]
    have hscan : scanNewline (cells.drop v.i) v.i = -1 := by
      rw [List.drop_of_length_le (by omega)]
      rfl
    rw [hscan, ← hn]
    exact ends_write hstep (ends_rest rfl)
  | succ k ih =>
    have hi : v.i < cells.length := by omega
    rw [List.drop_eq_getElem_cons hi, scanNewline]
    by_cases hc : cells[v.i] = some newline
    · have hstep : writeStep v s = (.inl { v with newlinePos := v.i, pc := .krealloc }, s) := by
        simp only [writeStep, hpc]
        rw [if_pos (by omega), if_pos (by rw [List.getElem?_eq_getElem hi, hc])]
      rw [if_pos hc]
      exact (ends_write hstep (ends_rest rfl)).mono (by omega)
    · have hstep : writeStep v s = (.inl { v with i := v.i + 1 }, s) := by
        simp only [writeStep, hpc]
        rw [if_pos (by omega), if_neg (by rw [List.getElem?_eq_getElem hi, Option.some.injEq]; exact hc)]
      rw [if_neg hc]
      exact ends_write hstep (ih (v := { v with i := v.i + 1 }) hpc hn hlen (by simp; omega))

end Solo

/-- A bound for the statements of a call. -/
def Call.statements : Call → ℕ
  | .write _ buf _ => buf.bytes.length + 10
  | .read .. => 3

section Copied

variable {env : WriteEnv} {s : State} {buf : UserBuf} {kbuf : Ptr} {m m' : Kmem}

/-- `aesd_write` when the bytes of the user cannot be copied. -/
theorem aesdWrite_of_uncopied (henv : env.lock = true)
    (hk : s.mem.kmalloc buf.bytes.length env.kmalloc = (kbuf, m)) (hnull : kbuf ≠ .null) {missing : ℕ}
    (hc : m.copyFromUser kbuf buf.bytes env.uncopied = (missing + 1, m')) (fPos : ℕ) :
    aesdWrite env s buf fPos = ⟨-efault, fPos, ⟨{ s.dev with lock := false }, m'.kfree kbuf⟩⟩ := by
  rw [aesdWrite, if_neg (by simp [henv]), hk]
  cases kbuf with
  | null => exact absurd rfl hnull
  | zeroSize | block b => simp only [hc]

/-- `aesd_write` when they are. -/
theorem result_of_copied (henv : env.lock = true)
    (hk : s.mem.kmalloc buf.bytes.length env.kmalloc = (kbuf, m)) (hnull : kbuf ≠ .null)
    (hc : m.copyFromUser kbuf buf.bytes env.uncopied = (0, m')) {v : WriteVars} (hv : v.env = env)
    (hbuf : v.buf = buf) (hkbuf : v.kbuf = kbuf)
    (hn : v.newlinePos = scanNewline (m'.load kbuf 0 buf.bytes.length) 0) :
    ((Call.write env buf v.fPos).result s, s.step (.write env buf v.fPos)) =
      v.rest ⟨{ s.dev with lock := true }, m'⟩ := by
  have hwrite : aesdWrite env s buf v.fPos =
      let x := v.rest ⟨{ s.dev with lock := true }, m'⟩
      ⟨x.1.retval, v.fPos, x.2⟩ := by
    rw [aesdWrite, if_neg (by simp [henv]), hk]
    rcases hgrow : growEntry m' s.dev.entry kbuf v.copySize env.krealloc with ⟨ok, entry, m''⟩
    cases kbuf with
    | null => exact absurd rfl hnull
    | zeroSize | block b =>
      simp only [hc, ← hn, WriteVars.rest, hv, hkbuf, hgrow]
      split_ifs with h1 h2 <;> simp_all [WriteVars.copySize]
  have hrest : ∀ s, (v.rest s).1 = ⟨(v.rest s).1.retval, v.fPos, []⟩ := fun s => by
    simp only [WriteVars.rest]
    split_ifs <;> rfl
  simp only [Call.result, State.step, hwrite]
  rw [← hrest]

end Copied

theorem ends_aesdWrite {env : WriteEnv} (henv : env.lock = true) (s : State) (buf : UserBuf) (fPos : ℕ) :
    callers.Ends (Call.write env buf fPos).start { s with dev := { s.dev with lock := true } }
      (buf.bytes.length + 10) ((Call.write env buf fPos).result s, s.step (.write env buf fPos)) := by
  set v : WriteVars := ⟨env, buf, fPos, .kmalloc, .null, 0, -1, -enomem⟩
  set s₀ : State := { s with dev := { s.dev with lock := true } }
  rcases hk : s.mem.kmalloc buf.bytes.length env.kmalloc with ⟨kbuf, m⟩
  by_cases hnull : kbuf = .null
  · have hstep : writeStep v s₀ = (.inl { v with pc := .unlock }, { s₀ with mem := m }) := by
      simp only [writeStep, v, s₀, hk, hnull, if_true]
    have hresult : aesdWrite env s buf fPos =
        ⟨-enomem, fPos, ⟨{ s₀.dev with lock := false }, m⟩⟩ := by
      simp only [aesdWrite, henv, hk, hnull, s₀]
      rfl
    simp only [Call.result, State.step, hresult]
    exact (ends_write hstep (ends_unlock rfl)).mono (by omega)
  · have hstep : writeStep v s₀ =
        (.inl { v with kbuf := kbuf, pc := .copyFromUser }, { s₀ with mem := m }) := by
      simp only [writeStep, v, s₀, hk, hnull, if_false]
    rcases hc : m.copyFromUser kbuf buf.bytes env.uncopied with ⟨_ | missing, m'⟩
    · have hcopy : writeStep { v with kbuf := kbuf, pc := .copyFromUser } { s₀ with mem := m } =
          (.inl { v with kbuf := kbuf, pc := .scan }, { s₀ with mem := m' }) := by
        simp only [writeStep, v, s₀, hc]
        rfl
      have hends := ends_write hstep (ends_write hcopy (ends_scan rfl rfl))
      rw [← result_of_copied henv hk hnull hc rfl rfl rfl rfl] at hends
      exact hends
    · have hcopy : writeStep { v with kbuf := kbuf, pc := .copyFromUser } { s₀ with mem := m } =
          (.inl { v with kbuf := kbuf, retval := -efault, pc := .kfree }, { s₀ with mem := m' }) := by
        simp only [writeStep, v, s₀, hc]
        rfl
      simp only [Call.result, State.step, aesdWrite_of_uncopied henv hk hnull hc]
      exact (ends_write hstep (ends_write hcopy (ends_kfree rfl))).mono (by omega)

theorem ends_read {v v' : ReadVars} {s s' : State} {n : ℕ} {x : CallResult × State}
    (h : readStep v s = (.inl v', s')) (hx : callers.Ends (.read v') s' n x) :
    callers.Ends (.read v) s (n + 1) x :=
  hx.of_step (e := ()) (by simp only [callers, callStep, h]; rfl)

theorem ends_read_unlock {v : ReadVars} (hpc : v.pc = .unlock) (s : State) :
    callers.Ends (.read v) s 1
      (⟨v.retval, v.fPos, v.copied⟩, { s with dev := { s.dev with lock := false } }) :=
  .of_return (e := ()) (by simp only [callers, callStep, readStep, hpc]; rfl) 0

theorem ends_aesdRead {env : ReadEnv} (henv : env.lock = true) (s : State) (count fPos : ℕ) :
    callers.Ends (Call.read env count fPos).start { s with dev := { s.dev with lock := true } }
      3 ((Call.read env count fPos).result s, s.step (.read env count fPos)) := by
  set v : ReadVars := ⟨env, count, fPos, .find, [], 0⟩
  set s₀ : State := { s with dev := { s.dev with lock := true } }
  rcases hf : aesdCircularBufferFindEntryOffsetForFpos s.dev.buffer fPos 0 with ⟨_ | i, off⟩
  · have hfind : readStep v s₀ = (.inl { v with retval := 0, pc := .unlock }, s₀) := by
      simp only [readStep, v, s₀, hf]
    simp only [Call.result, State.step, aesdRead, henv, hf]
    exact (ends_read hfind (ends_read_unlock rfl s₀)).mono (by decide)
  · have hfind : readStep v s₀ = (.inl { v with pc := .copyToUser i off }, s₀) := by
      simp only [readStep, v, s₀, hf]
    set v' : ReadVars := { v with pc := .copyToUser i off }
    set entry := s.dev.buffer.entry i
    set bytesToCopy := min count (wrap (entry.size + 2 ^ 64 - off))
    set missing := min env.uncopied bytesToCopy
    set copied := (s.mem.load entry.buffptr off bytesToCopy).take (bytesToCopy - missing)
    by_cases hmissing : missing = 0
    · have hcopy : readStep v' s₀ = (.inl { v' with
          copied := copied
          fPos := wrap (fPos + bytesToCopy)
          retval := bytesToCopy
          pc := .unlock }, s₀) := if_neg (not_not.mpr hmissing)
      have hread : aesdRead env s count fPos =
          ⟨bytesToCopy, wrap (fPos + bytesToCopy), copied,
            { s with dev := { s.dev with lock := false } }⟩ := by
        simp only [aesdRead, henv, hf]
        exact if_neg (not_not.mpr hmissing)
      simp only [Call.result, State.step, hread]
      exact ends_read hfind (ends_read hcopy (ends_read_unlock rfl s₀))
    · have hcopy : readStep v' s₀ =
          (.inl { v' with copied := copied, retval := -efault, pc := .unlock }, s₀) := if_pos hmissing
      have hread : aesdRead env s count fPos =
          ⟨-efault, fPos, copied, { s with dev := { s.dev with lock := false } }⟩ := by
        simp only [aesdRead, henv, hf]
        exact if_pos hmissing
      simp only [Call.result, State.step, hread]
      exact ends_read hfind (ends_read hcopy (ends_read_unlock rfl s₀))

theorem ends_call {c : Call} (hc : c.locks = true) (s : State) :
    callers.Ends (callers.enter c s).1 (callers.enter c s).2 c.statements (c.result s, s.step c) := by
  cases c with
  | write env buf fPos => exact ends_aesdWrite hc s buf fPos
  | read env count fPos => exact ends_aesdRead hc s count fPos

/-! ### Histories -/

/-- The call a process is in. -/
def Client.call : Client → Option Call
  | .idle => none
  | .calling c => some c

def pendingCall : Phase Client Call CallVars → Option Call
  | .outside d | .inside d _ _ => d.call

variable {ι : Type*} [DecidableEq ι]

/-- The histories in which every call is one function of the driver state, applied
when the call returns, with the state they lead to and the calls still to return. -/
inductive Legal : List (ι × CallEvent) → State → (ι → Option Call) → Prop
  | nil : Legal [] .initial fun _ => none
  | invoked {tr : List (ι × CallEvent)} {s : State} {pending : ι → Option Call}
      (h : Legal tr s pending) (t : ι) (ht : pending t = none) (c : Call) :
      Legal (tr ++ [(t, .invoked c)]) s (Function.update pending t (some c))
  | returned {tr : List (ι × CallEvent)} {s : State} {pending : ι → Option Call}
      (h : Legal tr s pending) (t : ι) (c : Call) (ht : pending t = some c) :
      Legal (tr ++ [(t, .returned c (c.result s))]) (s.step c) (Function.update pending t none)

/-- Processes that have not called the driver yet. -/
def callersInitial : Threads ι Client Call CallVars State := .initial .initial fun _ => .idle

def history (as : List (Label ι Call Unit)) : List (ι × CallEvent) :=
  outputs callers.threadStep callers.event callersInitial as

/-- A refused call has no effect, and returns the same in every state. -/
theorem refused {c : Call} (hc : c.locks = false) (s : State) :
    c.result s = ⟨-erestartsys, c.fPos, []⟩ ∧ s.step c = s := by
  cases c with
  | write env buf fPos => simp_all [Call.result, State.step, Call.locks, Call.fPos, aesdWrite]
  | read env count fPos => simp_all [Call.result, State.step, Call.locks, Call.fPos, aesdRead]

theorem Legal.valid {tr : List (ι × CallEvent)} {s : State} {pending : ι → Option Call}
    (h : Legal tr s pending) : Valid s := by
  induction h with
  | nil => exact initial_valid
  | invoked _ _ _ _ ih => exact ih
  | returned _ _ c _ ih => exact ih.step c

theorem next_eq_some {d : Client} {c : Call} (h : callers.next d = some c) :
    d = .calling c ∧ c.locks = true := by
  cases d with
  | idle => cases h
  | calling c' =>
    simp only [callers, Option.ite_none_right_eq_some, Option.some.injEq] at h
    exact ⟨congrArg _ h.2, h.2 ▸ h.1⟩

/-- One step of a serial run extends its history. -/
theorem Legal.serialStep {tr : List (ι × CallEvent)} {s : Serial ι Client State}
    (h : Legal tr s.shared fun t => (s.thread t).call) (hheld : s.held = false)
    (b : SerialLabel ι Call Unit) :
    Legal (tr ++ callers.serialEvent s b) (callers.serialStep s b).shared
      (fun t => ((callers.serialStep s b).thread t).call) ∧ (callers.serialStep s b).held = false := by
  have hcall : ∀ (t : ι) (d : Client), (fun u => (Function.update s.thread t d u).call) =
      Function.update (fun u => (s.thread u).call) t d.call := fun t d => by
    funext u
    by_cases hu : u = t
    · subst hu
      simp
    · simp [Function.update_of_ne hu]
  cases b with
  | move t e =>
    cases hd : s.thread t with
    | idle =>
      simp only [Program.serialEvent, Program.serialStep, hd, callers, Option.isNone_none, if_true,
        List.map_cons, List.map_nil, hcall]
      exact ⟨h.invoked t (by simp [hd, Client.call]) e, hheld⟩
    | calling c =>
      cases hc : c.locks with
      | true =>
        simp only [Program.serialEvent, Program.serialStep, hd, callers, hc, if_true, Option.isNone_some,
          Bool.false_eq_true, if_false, List.append_nil]
        exact ⟨h, hheld⟩
      | false =>
        have hret := h.returned t c (by simp [hd, Client.call])
        obtain ⟨hresult, hstep⟩ := refused hc s.shared
        rw [hresult, hstep] at hret
        simp only [Program.serialEvent, Program.serialStep, hd, callers, hc, Bool.false_eq_true, if_false,
          Option.isNone_none, if_true, List.map_cons, List.map_nil, hcall]
        exact ⟨hret, hheld⟩
  | call t es =>
    cases hcalls : callers.calls s t es with
    | none =>
      simp only [Program.serialEvent, Program.serialStep, hcalls, List.append_nil]
      exact ⟨h, hheld⟩
    | some x =>
      obtain ⟨c, r, shared⟩ := x
      obtain ⟨-, hnext, hexec⟩ := Program.calls_eq_some hcalls
      obtain ⟨hd, hc⟩ := next_eq_some hnext
      obtain ⟨rfl, rfl⟩ := Prod.mk.inj ((ends_call hc s.shared).exec_eq hexec)
      simp only [Program.serialEvent, Program.serialStep, hcalls]
      simp only [callers, List.map_cons, List.map_nil, hcall]
      exact ⟨h.returned t c (by simp [hd, Client.call]), trivial⟩

theorem legal_serial (bs : List (SerialLabel ι Call Unit)) :
    let s₀ : Serial ι Client State := .initial .initial fun _ => .idle
    let s := run callers.serialStep s₀ bs
    Legal (outputs callers.serialStep callers.serialEvent s₀ bs) s.shared (fun t => (s.thread t).call) ∧
      s.held = false := by
  intro s₀
  induction bs using List.reverseRecOn with
  | nil => exact ⟨.nil, rfl⟩
  | append_singleton bs b ih =>
    rw [outputs_concat, run_concat]
    exact ih.1.serialStep ih.2 b

/-- The serial run that an interleaved run follows. -/
theorem exists_legal (as : List (Label ι Call Unit)) :
    ∃ s' : Serial ι Client State,
      callers.Follows (fun _ _ _ => True) (run callers.threadStep callersInitial as) s' ∧
      Legal (history as) s'.shared (fun t => (s'.thread t).call) ∧ s'.held = false := by
  obtain ⟨bs, -, hout, hfollows⟩ :=
    callers.exists_serial (along_stepMeets_true callers (callersInitial (ι := ι)) as)
  obtain ⟨hlegal, hheld⟩ := legal_serial bs
  rw [hout] at hlegal
  exact ⟨_, hfollows, hlegal, hheld⟩

section Fault

variable {m : Kmem}

theorem fault_kfree (h : m.fault = true) (p : Ptr) : (m.kfree p).fault = true := by
  cases p with
  | null | zeroSize => exact h
  | block b =>
    rw [kfree]
    split_ifs
    · exact h
    · rfl

theorem fault_kmalloc (h : m.fault = true) (size : ℕ) (offer : Option ℕ) :
    (m.kmalloc size offer).2.fault = true := by
  unfold kmalloc
  split_ifs
  · exact h
  · split
    · exact h
    · split_ifs <;> exact h

theorem fault_krealloc (h : m.fault = true) (p : Ptr) (size : ℕ) (offer : Option ℕ) :
    (m.krealloc p size offer).2.fault = true := by
  unfold krealloc
  split_ifs
  · exact fault_kfree h p
  · split
    · split_ifs
      · split
        · exact h
        · split_ifs <;> exact h
      · rfl
    · exact fault_kmalloc h size offer

theorem fault_memcpy (h : m.fault = true) (p : Ptr) (off : ℕ) (xs : List Cell) :
    (m.memcpy p off xs).fault = true := by
  unfold memcpy
  split
  · split_ifs
    · exact h
    · rfl
  · split_ifs
    · exact h
    · rfl

end Fault

/-- No statement takes a fault back. -/
theorem fault_callStep {s : State} (h : s.mem.fault = true) (l : CallVars) :
    (callStep l s).2.mem.fault = true := by
  cases l with
  | read v =>
    have hmem : (readStep v s).2.mem = s.mem := by
      unfold readStep
      split
      · split <;> rfl
      · dsimp only
        split_ifs <;> rfl
      · rfl
    exact (congrArg Kmem.fault hmem).trans h
  | write v =>
    change (writeStep v s).2.mem.fault = true
    unfold writeStep
    split
    · exact fault_kmalloc h _ _
    · dsimp only
      split_ifs <;> exact fault_memcpy h _ _ _
    · dsimp only
      split_ifs <;> exact h
    · dsimp only
      split_ifs <;> exact fault_krealloc h _ _ _
    · exact fault_memcpy h _ _ _
    · dsimp only
      split_ifs <;> exact h
    · exact h
    · exact h
    · exact fault_kfree h _
    · exact h

theorem fault_exec {l : CallVars} {es : List Unit} {s s' : State} {r : CallResult}
    (hexec : callers.exec l es s = some (r, s')) (h : s.mem.fault = true) : s'.mem.fault = true := by
  induction es generalizing l s with
  | nil => cases hexec
  | cons e es ih =>
    have hfault := fault_callStep h l
    rcases hstep : callers.step l e s with ⟨l' | r', s₁⟩
    · rw [Program.exec_cons hstep] at hexec
      exact ih hexec (by rwa [show callStep l s = _ from hstep] at hfault)
    · obtain ⟨rfl, rfl⟩ := Prod.mk.inj (Program.exec_cons_of_return hstep hexec)
      rwa [show callStep l s = _ from hstep] at hfault

/-- Only the last statement gives the lock back. -/
theorem lock_callStep (l : CallVars) (s : State) :
    (callStep l s).1.isLeft → (callStep l s).2.dev.lock = s.dev.lock := by
  cases l with
  | read v =>
    change (Sum.map CallVars.read id (readStep v s).1).isLeft → (readStep v s).2.dev.lock = _
    unfold readStep
    split
    · split <;> exact fun _ => rfl
    · dsimp only
      split_ifs <;> exact fun _ => rfl
    · intro h
      cases h
  | write v =>
    change (Sum.map CallVars.write id (writeStep v s).1).isLeft → (writeStep v s).2.dev.lock = _
    unfold writeStep
    split
    case h_10 =>
      intro h
      cases h
    case h_2 | h_3 | h_4 | h_6 =>
      dsimp only
      split_ifs <;> exact fun _ => rfl
    all_goals exact fun _ => rfl

theorem lock_within {l l' : CallVars} {es : List Unit} {s s' : State}
    (h : callers.within l es s = some (l', s')) : s'.dev.lock = s.dev.lock := by
  induction es generalizing l s with
  | nil =>
    cases h
    rfl
  | cons e es ih =>
    have hlock := lock_callStep l s
    rcases hstep : callers.step l e s with ⟨l₁ | r, s₁⟩
    · rw [Program.within_cons hstep] at h
      rw [show callStep l s = _ from hstep] at hlock
      exact (ih h).trans (hlock rfl)
    · rw [Program.within_cons_of_return hstep] at h
      cases h

omit [DecidableEq ι] in
/-- A call that is under way, and how it ends by itself. -/
theorem ends_of_inside {s : Threads ι Client Call CallVars State} {s' : Serial ι Client State}
    (h : callers.Follows (fun _ _ _ => True) s s') {t : ι} {d : Client} {c : Call} {l : CallVars}
    (ht : s.phase t = .inside d c l) :
    d = .calling c ∧ callers.Ends l s.shared c.statements (c.result s'.shared, s'.shared.step c) := by
  obtain ⟨-, -, -, hnext, es, hwithin, -⟩ := h.inside t d c l ht
  obtain ⟨hd, hc⟩ := next_eq_some hnext
  exact ⟨hd, (ends_call hc s'.shared).within hwithin⟩

/-- The lock is held by a process that is inside. -/
theorem exists_inside (as : List (Label ι Call Unit)) {u : ι}
    (h : (run callers.threadStep callersInitial as).owner = some u) :
    ∃ d c l, (run callers.threadStep callersInitial as).phase u = .inside d c l := by
  obtain ⟨s', hfollows, -, hheld⟩ := exists_legal as
  by_contra hu
  push Not at hu
  have hnobody : ∀ t d c l, (run callers.threadStep callersInitial as).phase t ≠ .inside d c l := by
    intro t d c l ht
    obtain rfl : t = u := Option.some.inj ((hfollows.inside t d c l ht).1.symm.trans h)
    exact hu d c l ht
  have hisSome := (hfollows.quiet hnobody).2
  rw [hheld, h] at hisSome
  cases hisSome

/-- In every interleaving, also in the middle of calls: no statement has freed,
resized or written memory that was not the driver's, at most one process is between
its lock and its unlock, and `dev->lock` tells whether there is one. When there is
none, every entry of the device has a live block of its own. -/
theorem driver_safe_inside (as : List (Label ι Call Unit)) :
    let s := run callers.threadStep callersInitial as
    s.shared.mem.fault = false ∧ (s.shared.dev.lock = true ↔ s.owner ≠ none) ∧
      (∀ t, s.owner = some t ↔ ∃ d c l, s.phase t = .inside d c l) ∧
      (s.owner = none → Valid s.shared) := by
  intro s
  obtain ⟨s', hfollows, hlegal, hheld⟩ := exists_legal as
  have hvalid := hlegal.valid
  by_cases hin : ∃ t d c l, s.phase t = .inside d c l
  · obtain ⟨t, d, c, l, ht⟩ := hin
    obtain ⟨howner, -, -, -, es, hwithin, -⟩ := hfollows.inside t d c l ht
    obtain ⟨-, es', -, hexec⟩ := ends_of_inside hfollows ht
    refine ⟨?_, ?_, fun u => ⟨exists_inside as, fun ⟨d', c', l', hu⟩ => ?_⟩, fun hnone => ?_⟩
    · by_contra hfault
      have := fault_exec hexec (by simpa using hfault)
      rw [(hvalid.step c).no_fault] at this
      cases this
    · exact iff_of_true (lock_within hwithin) (by rw [howner]; simp)
    · rw [hfollows.unique hu ht, howner]
    · rw [howner] at hnone
      cases hnone
  · push Not at hin
    obtain ⟨hshared, hisSome⟩ := hfollows.quiet hin
    rw [hheld] at hisSome
    have howner : s.owner = none := by simpa using hisSome.symm
    have hs : Valid s.shared := by rwa [show s.shared = _ from hshared]
    refine ⟨hs.no_fault, ?_, fun u => ?_, fun _ => hs⟩
    · exact iff_of_false (by rw [hs.unlocked]; simp) (by simp [howner])
    · exact iff_of_false (by simp [howner]) fun ⟨d, c, l, hu⟩ => hin u d c l hu

/-! ### Every call can return -/

/-- The statements that the call under way may still need. -/
def busy (s : Threads ι Client Call CallVars State) : ℕ :=
  match s.owner with
  | none => 0
  | some u =>
    match s.phase u with
    | .inside _ c _ => c.statements
    | .outside _ => 0

/-- The call under way runs to its end and gives the lock back. -/
theorem exists_release (as : List (Label ι Call Unit)) :
    let s := run callers.threadStep callersInitial as
    ∃ bs : List (Label ι Call Unit), bs.length ≤ busy s ∧
      (run callers.threadStep s bs).owner = none ∧
      ∀ t d, s.phase t = .outside d → (run callers.threadStep s bs).phase t = .outside d := by
  intro s
  cases howner : s.owner with
  | none => exact ⟨[], Nat.zero_le _, howner, fun _ _ ht => ht⟩
  | some u =>
    obtain ⟨d, c, l, hu⟩ := exists_inside as howner
    obtain ⟨s', hfollows, -⟩ := exists_legal as
    obtain ⟨-, es, hlen, hexec⟩ := ends_of_inside hfollows hu
    obtain ⟨hrun, -⟩ := callers.run_inside hu hexec
    refine ⟨es.map (.inside u ·), ?_, ?_, fun t d' ht => ?_⟩
    · rw [List.length_map, busy, howner]
      dsimp only
      rw [show s.phase u = _ from hu]
      exact hlen
    · rw [hrun]
      rfl
    · have htu : t ≠ u := fun htu => by
        rw [htu, show s.phase u = _ from hu] at ht
        cases ht
      rw [hrun]
      exact (Function.update_of_ne htu _ _).trans ht

/-- There is no deadlock: from every state that an interleaving leads to, every call
that is under way or waiting can return, after no more statements than the call that
holds the lock and this one have. -/
theorem call_can_return (as : List (Label ι Call Unit)) (t : ι) (c : Call)
    (h : pendingCall ((run callers.threadStep callersInitial as).phase t) = some c) :
    let s := run callers.threadStep callersInitial as
    ∃ (bs : List (Label ι Call Unit)) (r : CallResult), bs.length ≤ busy s + c.statements + 1 ∧
      (t, .returned c r) ∈ outputs callers.threadStep callers.event s bs := by
  intro s
  cases hp : s.phase t with
  | inside d c' l =>
    obtain ⟨s', hfollows, -⟩ := exists_legal as
    obtain ⟨rfl, es, hlen, hexec⟩ := ends_of_inside hfollows hp
    obtain rfl : c' = c := by
      rw [show (run callers.threadStep callersInitial as).phase t = _ from hp] at h
      exact Option.some.inj h
    obtain ⟨-, hout⟩ := callers.run_inside hp hexec
    refine ⟨es.map (.inside t ·), _, ?_, by rw [hout]; exact List.mem_singleton.mpr rfl⟩
    rw [List.length_map]
    omega
  | outside d =>
    obtain rfl : d = .calling c := by
      rw [show (run callers.threadStep callersInitial as).phase t = _ from hp] at h
      cases d with
      | idle => cases h
      | calling c' => exact congrArg _ (Option.some.inj h)
    cases hc : c.locks with
    | false =>
      refine ⟨[.move t c], ⟨-erestartsys, c.fPos, []⟩, by simp, ?_⟩
      simp [outputs, Program.event, hp, callers, hc]
    | true =>
      obtain ⟨bs, hlen, hfree, hkeep⟩ := exists_release as
      change bs.length ≤ busy s at hlen
      set s₁ := run callers.threadStep s bs
      have ht₁ := hkeep t _ hp
      have hnext : callers.next (.calling c) = some c := if_pos hc
      have henter : callers.threadStep s₁ (.enter t) =
          { s₁ with shared := (callers.enter c s₁.shared).2, owner := some t }.put t
            (.inside (.calling c) c (callers.enter c s₁.shared).1) := by
        simp only [Program.threadStep, ht₁, hfree, hnext]
      obtain ⟨es, hlen', hexec⟩ := ends_call hc s₁.shared
      obtain ⟨-, hout⟩ := callers.run_inside
        (s := { s₁ with shared := (callers.enter c s₁.shared).2, owner := some t }.put t
          (.inside (.calling c) c (callers.enter c s₁.shared).1))
        (Function.update_self ..) hexec
      refine ⟨bs ++ .enter t :: es.map (.inside t ·), c.result s₁.shared, ?_, ?_⟩
      · rw [List.length_append, List.length_cons, List.length_map]
        omega
      · rw [outputs_append, outputs, henter, hout]
        exact List.mem_append_right _ (List.mem_append_right _ (List.mem_singleton.mpr rfl))

/-- A process that writes one line. -/
def lineCall : Call := .write (.ok 9 0) ⟨[97, newline], by decide⟩ 0

/-- Process 1 writes a line and holds the lock; process 0 waits with its own. -/
def bothWriting : List (Label ℕ Call Unit) :=
  [.move 0 lineCall, .move 1 lineCall, .enter 1, .inside 1 (), .enter 0]

theorem call_can_return_waiting :
    ∃ (bs : List (Label ℕ Call Unit)) (r : CallResult), bs.length ≤ 25 ∧
      (0, .returned lineCall r) ∈
        outputs callers.threadStep callers.event (run callers.threadStep callersInitial bothWriting) bs :=
  call_can_return bothWriting 0 lineCall rfl

end Aesd.Driver
