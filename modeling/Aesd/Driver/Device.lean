import Aesd.Driver.CircularBuffer
import Aesd.Lib.Run

/-! The character device of `main.c`. A call runs from taking the device lock
to giving it back, so it is one function of the driver state; everything that
may go wrong in it is an argument. The VFS limits the byte count of a call to
`INT_MAX`, which keeps the `int` arithmetic of the newline scan and the
conversions to `ssize_t` exact. Debug output is left out. -/

namespace Aesd.Driver

open Kmem

def newline : UInt8 := 10

def enomem : ℤ := 12
def efault : ℤ := 14
def erestartsys : ℤ := 512

/-- The bytes a user hands to `write`, within the limit of the VFS. -/
structure UserBuf where
  bytes : List UInt8
  count_le : bytes.length ≤ 2147483647

/-- `struct aesd_dev`; `lock` tells whether the mutex is held. -/
structure AesdDev where
  buffer : CircularBuffer
  entry : BufferEntry
  lock : Bool

/-- The device together with the kernel memory it uses. -/
structure State where
  dev : AesdDev
  mem : Kmem

/-- What the kernel answers during one `aesd_write`: whether the lock was
taken, the allocator's offers, and how many bytes the user copy missed. -/
structure WriteEnv where
  lock : Bool
  kmalloc : Option ℕ
  uncopied : ℕ
  krealloc : Option ℕ

/-- Nothing fails; `kbuf` gets block `k` and the pending entry block `c`. -/
def WriteEnv.ok (k c : ℕ) : WriteEnv := ⟨true, some k, 0, some c⟩

structure ReadEnv where
  lock : Bool
  uncopied : ℕ

def ReadEnv.ok : ReadEnv := ⟨true, 0⟩

structure WriteResult where
  retval : ℤ
  fPos : ℕ
  state : State

/-- `copied` are the cells that reached the user's buffer. -/
structure ReadResult where
  retval : ℤ
  fPos : ℕ
  copied : List Cell
  state : State

/-- `memset` to zero, then the explicit initialisations. -/
def aesdDeviceZero : AesdDev := ⟨aesdCircularBufferInit, .zero, false⟩

/-- Module load, given the results of `alloc_chrdev_region` and `cdev_add`. -/
def aesdInitModule (region cdevAdd : ℤ) (dev : AesdDev) : ℤ × AesdDev :=
  if region < 0 then (region, dev) else (cdevAdd, aesdDeviceZero)

/-- The driver after a successful module load. -/
def State.initial : State := ⟨aesdDeviceZero, Kmem.initial⟩

theorem aesdInitModule_initial (dev : AesdDev) : aesdInitModule 0 0 dev = (0, State.initial.dev) := rfl

/-- `loff_t` is kept as its 64-bit pattern: the code only converts it to
`size_t` and adds a `size_t` to it. -/
def aesdRead (env : ReadEnv) (s : State) (count fPos : ℕ) : ReadResult :=
  if env.lock = false then ⟨-erestartsys, fPos, [], s⟩
  else
    let dev := { s.dev with lock := true }
    let unlock : State := { s with dev := { dev with lock := false } }
    match aesdCircularBufferFindEntryOffsetForFpos dev.buffer fPos 0 with
    | (none, _) => ⟨0, fPos, [], unlock⟩
    | (some i, entryOffsetByte) =>
      let entry := dev.buffer.entry i
      let bytesToCopy := min count (wrap (entry.size + 2 ^ 64 - entryOffsetByte))
      let missing := min env.uncopied bytesToCopy
      let copied := (s.mem.load entry.buffptr entryOffsetByte bytesToCopy).take (bytesToCopy - missing)
      if missing ≠ 0 then ⟨-efault, fPos, copied, unlock⟩
      else ⟨bytesToCopy, wrap (fPos + bytesToCopy), copied, unlock⟩

/-- The newline scan of `aesd_write` from index `i` on; `-1` when it fails. -/
def scanNewline : List Cell → ℤ → ℤ
  | [], _ => -1
  | c :: kbuf, i => if c = some newline then i else scanNewline kbuf (i + 1)

/-- Both branches of `aesd_write` resize the pending entry by `n` bytes and
copy the first `n` bytes of `kbuf` behind what it holds. The flag is the
outcome of the `NULL` check, which comes after the assignment to `buffptr`. -/
def growEntry (m : Kmem) (entry : BufferEntry) (kbuf : Ptr) (n : ℕ) (offer : Option ℕ) :
    Bool × BufferEntry × Kmem :=
  match m.krealloc entry.buffptr (wrap (entry.size + n)) offer with
  | (.null, m) => (false, { entry with buffptr := .null }, m)
  | (p, m) => (true, ⟨p, wrap (entry.size + n)⟩, m.memcpy p entry.size (m.load kbuf 0 n))

def aesdWrite (env : WriteEnv) (s : State) (buf : UserBuf) (fPos : ℕ) : WriteResult :=
  let count := buf.bytes.length
  if env.lock = false then ⟨-erestartsys, fPos, s⟩
  else
    let dev := { s.dev with lock := true }
    let exit (retval : ℤ) (dev : AesdDev) (m : Kmem) : WriteResult :=
      ⟨retval, fPos, ⟨{ dev with lock := false }, m⟩⟩
    match s.mem.kmalloc count env.kmalloc with
    | (.null, m) => exit (-enomem) dev m
    | (kbuf, m) =>
      let exitFree (retval : ℤ) (dev : AesdDev) (m : Kmem) : WriteResult :=
        exit retval dev (m.kfree kbuf)
      match m.copyFromUser kbuf buf.bytes env.uncopied with
      | (_ + 1, m) => exitFree (-efault) dev m
      | (0, m) =>
        let newlinePos := scanNewline (m.load kbuf 0 count) 0
        if newlinePos = -1 then
          match growEntry m dev.entry kbuf count env.krealloc with
          | (false, entry, m) => exitFree (-enomem) { dev with entry := entry } m
          | (true, entry, m) => exitFree count { dev with entry := entry } m
        else
          let copySize := (newlinePos + 1).toNat
          match growEntry m dev.entry kbuf copySize env.krealloc with
          | (false, entry, m) => exitFree (-enomem) { dev with entry := entry } m
          | (true, entry, m) => exitFree count
              { dev with buffer := aesdCircularBufferAddEntry dev.buffer entry, entry := .zero } m

/-- Module unload: the pending entry, then `AESD_CIRCULAR_BUFFER_FOREACH`. -/
def aesdCleanupModule (s : State) : Kmem :=
  let free (m : Kmem) (p : Ptr) : Kmem := if p ≠ .null then m.kfree p else m
  (List.finRange 10).foldl (fun m i => free m (s.dev.buffer.entry i).buffptr)
    (free s.mem s.dev.entry.buffptr)

/-! ### Calls -/

/-- One system call on the device, through any open file. -/
inductive Call where
  | write (env : WriteEnv) (buf : UserBuf) (fPos : ℕ)
  | read (env : ReadEnv) (count fPos : ℕ)

def State.step (s : State) : Call → State
  | .write env buf fPos => (aesdWrite env s buf fPos).state
  | .read env count fPos => (aesdRead env s count fPos).state

/-- The bytes an entry holds; unknown cells where its block does not reach. -/
def Kmem.entryBytes (m : Kmem) (e : BufferEntry) : List Cell := m.load e.buffptr 0 e.size

theorem length_entryBytes (m : Kmem) (e : BufferEntry) : (m.entryBytes e).length = e.size :=
  length_resize _ _

@[simp] theorem Kmem.entryBytes_zero (m : Kmem) : m.entryBytes .zero = [] := by
  simp [Kmem.entryBytes, Kmem.load, BufferEntry.zero, resize]

/-- The eleven entries: `none` is the pending one. -/
def AesdDev.entryAt (dev : AesdDev) : Option (Fin 10) → BufferEntry
  | none => dev.entry
  | some i => dev.buffer.entry i

/-- Where `aesd_cleanup_module` looks, in its order. -/
def entryIndices : List (Option (Fin 10)) := none :: (List.finRange 10).map some

/-- The blocks that the entries refer to, in the order of `entryIndices`. -/
def AesdDev.refs (dev : AesdDev) : List ℕ :=
  entryIndices.filterMap fun i => (dev.entryAt i).buffptr.block?

end Aesd.Driver
