import Aesd.Lib.Heap

/-! Kernel memory as the driver sees it. `kmalloc` and `krealloc` are given an
offer by the allocator: no block, or the block to hand out. An offer that is
already in use, or that does not fit into the 64-bit address space any more,
is a failed allocation, so every sequence of offers is a behaviour of some
allocator. A request for no bytes yields `ZERO_SIZE_PTR`, which owns no block.
Freeing, resizing or writing a block that is not live, and writing past the
end of one, raise a fault. -/

namespace Aesd.Driver

/-- A byte of kernel memory; `none` while nothing has been stored in it. -/
abbrev Cell := Option UInt8

inductive Ptr where
  | null
  | zeroSize
  | block (b : ℕ)
  deriving DecidableEq

/-- The block a pointer owns. -/
def Ptr.block? : Ptr → Option ℕ
  | .block b => some b
  | _ => none

structure Kmem where
  heap : Heap Cell
  /-- The blocks given to `kfree`, in order. -/
  freed : List ℕ
  fault : Bool

/-- `size_t` arithmetic. -/
def wrap (n : ℕ) : ℕ := n % 2 ^ 64

theorem wrap_of_lt {n : ℕ} (h : n < 2 ^ 64) : wrap n = n := Nat.mod_eq_of_lt h

/-- Cut or extend to `n` cells; the new ones are uninitialised. -/
def resize (xs : List Cell) (n : ℕ) : List Cell := xs.take n ++ List.replicate (n - xs.length) none

@[simp] theorem length_resize (xs : List Cell) (n : ℕ) : (resize xs n).length = n := by
  simp only [resize, List.length_append, List.length_take, List.length_replicate]
  omega

theorem resize_of_length_eq {xs : List Cell} {n : ℕ} (h : xs.length = n) : resize xs n = xs := by
  simp [resize, h]

theorem resize_add (xs : List Cell) {n : ℕ} (h : xs.length ≤ n) (k : ℕ) :
    resize xs (n + k) = resize xs n ++ List.replicate k none := by
  simp only [resize, List.take_of_length_le h, List.take_of_length_le (h.trans (Nat.le_add_right n k)),
    List.append_assoc, List.append_cancel_left_eq, List.replicate_append_replicate]
  congr 1
  omega

/-- `xs` in place of the cells from `off` on. -/
def overwrite (cells : List Cell) (off : ℕ) (xs : List Cell) : List Cell :=
  cells.take off ++ xs ++ cells.drop (off + xs.length)

namespace Kmem

def initial : Kmem := ⟨Heap.empty, [], false⟩

/-- The cells behind a pointer. -/
def cells (m : Kmem) : Ptr → List Cell
  | .block b => m.heap.block b
  | _ => []

/-- Read `n` cells at offset `off`; beyond the block nothing is known. -/
def load (m : Kmem) (p : Ptr) (off n : ℕ) : List Cell := resize ((m.cells p).drop off) n

def kfree (m : Kmem) : Ptr → Kmem
  | .block b =>
    if b ∈ m.heap.live then ⟨m.heap.free b, m.freed ++ [b], m.fault⟩
    else ⟨m.heap, m.freed ++ [b], true⟩
  | _ => m

def kmalloc (m : Kmem) (size : ℕ) (offer : Option ℕ) : Ptr × Kmem :=
  if size = 0 then (.zeroSize, m)
  else match offer with
    | none => (.null, m)
    | some b =>
      if b ∉ m.heap.live ∧ m.heap.bytes + size < 2 ^ 64 then
        (.block b, { m with heap := m.heap.put b (List.replicate size none) })
      else (.null, m)

/-- The offer may be the old block (resized in place) or a new one (the old
block's bytes are moved and it is released). On failure the old block stays. -/
def krealloc (m : Kmem) (p : Ptr) (size : ℕ) (offer : Option ℕ) : Ptr × Kmem :=
  if size = 0 then (.zeroSize, m.kfree p)
  else match p with
    | .block b =>
      if b ∈ m.heap.live then
        match offer with
        | none => (.null, m)
        | some c =>
          if c ∉ (m.heap.free b).live ∧ (m.heap.free b).bytes + size < 2 ^ 64 then
            (.block c, { m with heap := (m.heap.free b).put c (resize (m.heap.block b) size) })
          else (.null, m)
      else (.null, { m with fault := true })
    | _ => m.kmalloc size offer

/-- Store `xs` at offset `off`. -/
def memcpy (m : Kmem) (p : Ptr) (off : ℕ) (xs : List Cell) : Kmem :=
  match p with
  | .block b =>
    if b ∈ m.heap.live ∧ off + xs.length ≤ (m.heap.block b).length then
      { m with heap := m.heap.put b (overwrite (m.heap.block b) off xs) }
    else { m with fault := true }
  | _ => if xs = [] then m else { m with fault := true }

/-- The number of bytes that could not be copied, and the memory with the
others stored; the kernel fills the missing tail with zeros. -/
def copyFromUser (m : Kmem) (p : Ptr) (bytes : List UInt8) (uncopied : ℕ) : ℕ × Kmem :=
  let missing := min uncopied bytes.length
  (missing, m.memcpy p 0
    ((bytes.take (bytes.length - missing)).map some ++ List.replicate missing (some 0)))

end Kmem

end Aesd.Driver
