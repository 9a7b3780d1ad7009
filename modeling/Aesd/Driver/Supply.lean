import Aesd.Driver.Effect
import Mathlib.Data.Fintype.EquivFin

/-! How much memory the driver asks for. As long as the memory in use and the buffer
together fill less than half of the address space, the allocator can serve a write,
and a write that begins a line takes no more than the bytes it stores. -/

namespace Aesd.Driver

open Segments

theorem bytes_freePtr_le (h : Heap Cell) (p : Ptr) : (freePtr h p).bytes ≤ h.bytes := by
  cases p with
  | null | zeroSize => exact le_rfl
  | block b =>
    have hblock : ∀ c ∈ h.live.erase b, ((h.free b).block c).length = (h.block c).length := fun c hc => by
      rw [Heap.block_free_of_ne h (Finset.ne_of_mem_erase hc)]
    rw [freePtr, Heap.bytes, Heap.live_free, Finset.sum_congr rfl hblock]
    exact Finset.sum_le_sum_of_subset (Finset.erase_subset b h.live)

theorem live_freePtr_subset (h : Heap Cell) (p : Ptr) : (freePtr h p).live ⊆ h.live := by
  cases p with
  | null | zeroSize => exact subset_rfl
  | block b => exact Finset.erase_subset b h.live

section Served

variable {m : Kmem} {size k : ℕ}

theorem kmalloc_ne_null (hk : k ∉ m.heap.live) (hroom : m.heap.bytes + size < 2 ^ 64) :
    (m.kmalloc size (some k)).1 ≠ .null := by
  unfold Kmem.kmalloc
  split_ifs
  · simp
  · simp only [if_pos (And.intro hk hroom)]
    simp

theorem krealloc_ne_null {e : BufferEntry} (he : PendingOk m.heap e) (hk : k ∉ m.heap.live)
    (hroom : m.heap.bytes + size < 2 ^ 64) : (m.krealloc e.buffptr size (some k)).1 ≠ .null := by
  unfold Kmem.krealloc
  split_ifs
  · simp
  · cases hp : e.buffptr with
    | null | zeroSize => exact kmalloc_ne_null hk hroom
    | block b =>
      rw [PendingOk, hp] at he
      have hfree : k ∉ (m.heap.free b).live := fun h => hk (live_freePtr_subset m.heap (.block b) h)
      have hbytes : (m.heap.free b).bytes + size < 2 ^ 64 := by
        have hle := bytes_freePtr_le m.heap (.block b)
        rw [freePtr] at hle
        omega
      simp only [if_pos he.1, if_pos (And.intro hfree hbytes)]
      simp

theorem growEntry_served {e : BufferEntry} (he : PendingOk m.heap e) (hk : k ∉ m.heap.live) {n : ℕ}
    (hroom : m.heap.bytes + (e.size + n) < 2 ^ 64) (kbuf : Ptr) :
    (growEntry m e kbuf n (some k)).1 = true := by
  have hne := krealloc_ne_null he hk hroom
  rw [growEntry, wrap_of_lt (by omega)]
  rcases hr : m.krealloc e.buffptr (e.size + n) (some k) with ⟨p, m'⟩
  rw [hr] at hne
  cases p with
  | null => exact absurd rfl hne
  | zeroSize | block b => rfl

end Served

/-- Whatever the device holds, the kernel can answer so that the write succeeds. -/
theorem Ready.exists_write {s : State} (hs : Ready s) (buf : UserBuf) (fPos : ℕ)
    (hroom : 2 * (s.mem.heap.bytes + buf.bytes.length) < 2 ^ 64) :
    ∃ env, (aesdWrite env s buf fPos).retval = buf.bytes.length := by
  obtain ⟨k, hk⟩ := Infinite.exists_notMem_finset s.mem.heap.live
  have hle : buf.stored.length ≤ buf.bytes.length := (cutAfter_isPrefix _).length_le
  have hsize := hs.size_le
  rcases kmalloc_copyFromUser s.mem buf.bytes (some k) 0 with
    hnull | ⟨kbuf, m₁, m₂, hkbuf, hne, hcopy, hst⟩
  · exact absurd (by rw [hnull]) (kmalloc_ne_null hk (by omega))
  · have hrec : received buf.bytes 0 = buf.bytes := by simp [received]
    rw [hrec] at hst
    have hstaged : m₂.heap.bytes ≤ s.mem.heap.bytes + buf.bytes.length := by
      cases hst with
      | empty h => exact Nat.le_add_right _ _
      | block k hpos hk hb => rw [Heap.bytes_put _ hk, List.length_map]
    obtain ⟨c, hc⟩ := Infinite.exists_notMem_finset m₂.heap.live
    have hgrow : (growEntry m₂ s.dev.entry kbuf buf.stored.length (some c)).1 = true :=
      growEntry_served (hst.pendingOk hs.pending).1 hc (by omega) kbuf
    refine ⟨.ok k c, ?_⟩
    rw [aesdWrite_of_copied fPos rfl hkbuf hne (by simpa [WriteEnv.ok] using hcopy) hst, WriteEnv.ok]
    rcases hg : growEntry m₂ s.dev.entry kbuf buf.stored.length (some c) with ⟨flag, entry, m⟩
    rw [hg] at hgrow
    rw [show flag = true from hgrow]

/-- A write at the beginning of a line. -/
theorem WriteEffect.bytes_le {env : WriteEnv} {s s' : State} {buf : UserBuf} {ret : ℤ}
    (h : WriteEffect env s buf ret s') (hsize : s.dev.entry.size = 0) :
    s'.mem.heap.bytes ≤ s.mem.heap.bytes + buf.stored.length := by
  have hgrown : ∀ {e h}, Grown s.mem s.dev.entry (buf.stored.map some) e h →
      h.bytes ≤ s.mem.heap.bytes + buf.stored.length := fun {e h} hg => by
    cases hg with
    | empty => exact Nat.le_add_right _ _
    | block c hpos hc hb =>
      have hle := bytes_freePtr_le s.mem.heap s.dev.entry.buffptr
      rw [Heap.bytes_put _ hc, List.length_append, length_entryBytes, hsize, List.length_map]
      omega
  cases h with
  | refused | lost => exact Nat.le_add_right _ _
  | pending ho hf hg => exact hgrown hg
  | completed ho hf hg => exact hgrown hg

end Aesd.Driver
