import Aesd.Driver.Device
import Aesd.Lib.Segments

/-! What one `aesd_write` can do. Its temporary buffer lives and dies within
the call, so the net effect is one of three: nothing but a negative result,
the pending entry without its block, or a grown pending entry that either
stays pending or moves into the ring. Everything proved about runs of the
driver goes through this case analysis. -/

namespace Aesd.Driver

open Segments

/-- The newline test, as a terminator predicate. -/
def isNewline (b : UInt8) : Bool := b == newline

/-- The part of a user buffer that `aesd_write` stores: all of it, or what
ends with its first newline. -/
def UserBuf.stored (buf : UserBuf) : List UInt8 := cutAfter isNewline buf.bytes

theorem UserBuf.stored_of_free {buf : UserBuf} (h : Free isNewline buf.bytes) :
    buf.stored = buf.bytes := cutAfter_of_free h

theorem UserBuf.isSegment_stored {buf : UserBuf} (h : ¬ Free isNewline buf.bytes) :
    IsSegment isNewline buf.stored := isSegment_cutAfter h

/-- Release the block a pointer owns, if any. -/
def freePtr (h : Heap Cell) : Ptr → Heap Cell
  | .block b => h.free b
  | _ => h

/-- A pending entry: its block has the entry's size. Without a block the size
is zero, except after a failed `krealloc`. -/
def PendingOk (h : Heap Cell) (e : BufferEntry) : Prop :=
  match e.buffptr with
  | .block b => b ∈ h.live ∧ (h.block b).length = e.size ∧ 0 < e.size
  | .zeroSize => e.size = 0
  | .null => True

theorem PendingOk.length_cells_le {m : Kmem} {e : BufferEntry} (h : PendingOk m.heap e) :
    (m.cells e.buffptr).length ≤ e.size := by
  unfold PendingOk at h
  cases hp : e.buffptr with
  | null => simp [Kmem.cells]
  | zeroSize => simp [Kmem.cells]
  | block b =>
    rw [hp] at h
    exact h.2.1.le

/-! ### The allocator -/

theorem kmalloc_cases (m : Kmem) (size : ℕ) (offer : Option ℕ) :
    (size = 0 ∧ m.kmalloc size offer = (.zeroSize, m)) ∨
      (0 < size ∧ m.kmalloc size offer = (.null, m)) ∨
      ∃ k, 0 < size ∧ k ∉ m.heap.live ∧ m.heap.bytes + size < 2 ^ 64 ∧
        m.kmalloc size offer =
          (.block k, { m with heap := m.heap.put k (List.replicate size none) }) := by
  unfold Kmem.kmalloc
  split_ifs with h0
  · exact .inl ⟨h0, rfl⟩
  · right
    cases offer with
    | none => exact .inl ⟨by omega, rfl⟩
    | some b =>
      dsimp only
      split_ifs with h
      · exact .inr ⟨b, by omega, h.1, h.2, rfl⟩
      · exact .inl ⟨by omega, rfl⟩

theorem krealloc_cases (m : Kmem) (e : BufferEntry) (he : PendingOk m.heap e) {size : ℕ}
    (hsize : 0 < size) (offer : Option ℕ) :
    m.krealloc e.buffptr size offer = (.null, m) ∨
      ∃ c, c ∉ (freePtr m.heap e.buffptr).live ∧
        (freePtr m.heap e.buffptr).bytes + size < 2 ^ 64 ∧
        m.krealloc e.buffptr size offer = (.block c,
          { m with heap := (freePtr m.heap e.buffptr).put c (resize (m.cells e.buffptr) size) }) := by
  have hnew : ∀ p, m.cells p = [] → freePtr m.heap p = m.heap →
      m.krealloc p size offer = m.kmalloc size offer →
      m.krealloc p size offer = (.null, m) ∨ ∃ c, c ∉ (freePtr m.heap p).live ∧
        (freePtr m.heap p).bytes + size < 2 ^ 64 ∧ m.krealloc p size offer = (.block c,
          { m with heap := (freePtr m.heap p).put c (resize (m.cells p) size) }) := by
    intro p hc hf hk
    rw [hc, hf, hk]
    rcases kmalloc_cases m size offer with ⟨h0, -⟩ | ⟨-, h⟩ | ⟨k, -, hl, hb, h⟩
    · omega
    · exact .inl h
    · exact .inr ⟨k, hl, hb, by simpa [resize] using h⟩
  unfold PendingOk at he
  cases hp : e.buffptr with
  | null => exact hnew _ rfl rfl (by simp [Kmem.krealloc, hsize.ne'])
  | zeroSize => exact hnew _ rfl rfl (by simp [Kmem.krealloc, hsize.ne'])
  | block b =>
    rw [hp] at he
    simp only [Kmem.krealloc, hsize.ne', if_false, he.1, if_true, freePtr, Kmem.cells]
    cases offer with
    | none => exact .inl rfl
    | some c =>
      dsimp only
      split_ifs with h
      · exact .inr ⟨c, h.1, h.2, rfl⟩
      · exact .inl rfl

/-! ### Growing the pending entry -/

theorem overwrite_resize {xs : List Cell} {n : ℕ} (h : xs.length ≤ n) (ys : List Cell) :
    overwrite (resize xs (n + ys.length)) n ys = resize xs n ++ ys := by
  rw [resize_add xs h, overwrite, List.take_left' (by simp), List.drop_of_length_le (by simp),
    List.append_nil]

/-- A block other than the entry's own is not touched by resizing the entry. -/
theorem load_of_put_freePtr (m : Kmem) {p q : Ptr} {c : ℕ} (hc : c ∉ (freePtr m.heap p).live)
    (hq : ∀ k, q = .block k → k ∈ m.heap.live ∧ p ≠ .block k) (xs : List Cell) (off n : ℕ) :
    Kmem.load { m with heap := (freePtr m.heap p).put c xs } q off n = m.load q off n := by
  cases q with
  | null => rfl
  | zeroSize => rfl
  | block k =>
    obtain ⟨hl, hp⟩ := hq k rfl
    have hk : k ∈ (freePtr m.heap p).live ∧ (freePtr m.heap p).block k = m.heap.block k := by
      cases p with
      | null => exact ⟨hl, rfl⟩
      | zeroSize => exact ⟨hl, rfl⟩
      | block b =>
        have hkb : k ≠ b := fun h => hp (by rw [h])
        exact ⟨Finset.mem_erase.mpr ⟨hkb, hl⟩, Heap.block_free_of_ne _ hkb⟩
    have hkc : k ≠ c := fun h => hc (h ▸ hk.1)
    simp only [Kmem.load, Kmem.cells]
    rw [Heap.block_put_of_ne _ hkc, hk.2]

/-- The grown entry `e'` and heap `h'`: `data` follows what the entry held. -/
inductive Grown (m : Kmem) (e : BufferEntry) (data : List Cell) : BufferEntry → Heap Cell → Prop
  | empty (h : e.size + data.length = 0) : Grown m e data ⟨.zeroSize, 0⟩ m.heap
  | block (c : ℕ) (hpos : 0 < e.size + data.length) (hc : c ∉ (freePtr m.heap e.buffptr).live)
      (hb : (freePtr m.heap e.buffptr).bytes + (e.size + data.length) < 2 ^ 64) :
      Grown m e data ⟨.block c, e.size + data.length⟩
        ((freePtr m.heap e.buffptr).put c (m.entryBytes e ++ data))

theorem growEntry_cases (m : Kmem) (e : BufferEntry) (he : PendingOk m.heap e) (kbuf : Ptr)
    (hk : ∀ k, kbuf = .block k → k ∈ m.heap.live ∧ e.buffptr ≠ .block k) (n : ℕ)
    (hlt : e.size + n < 2 ^ 64) (offer : Option ℕ) :
    (0 < e.size + n ∧ growEntry m e kbuf n offer = (false, { e with buffptr := .null }, m)) ∨
      ∃ e' h', Grown m e (m.load kbuf 0 n) e' h' ∧
        growEntry m e kbuf n offer = (true, e', { m with heap := h' }) := by
  have hlen : (m.load kbuf 0 n).length = n := length_resize _ _
  unfold growEntry
  rw [wrap_of_lt hlt]
  rcases Nat.eq_zero_or_pos (e.size + n) with h0 | hpos
  · right
    refine ⟨_, _, .empty (by rw [hlen, h0]), ?_⟩
    -- an empty pending entry owns no block, so `krealloc` to size zero frees nothing
    obtain ⟨hs, hn⟩ : e.size = 0 ∧ n = 0 := by omega
    have hfree : m.kfree e.buffptr = m := by
      unfold PendingOk at he
      cases hp : e.buffptr with
      | null => rfl
      | zeroSize => rfl
      | block b => rw [hp] at he; omega
    subst hn
    simp [Kmem.krealloc, hs, hfree, Kmem.memcpy, Kmem.load, resize]
  · rcases krealloc_cases m e he hpos offer with h | ⟨c, hc, hb, h⟩
    · exact .inl ⟨hpos, by rw [h]⟩
    · right
      refine ⟨_, _, .block c (by rwa [hlen]) hc (by rwa [hlen]), ?_⟩
      rw [h]
      dsimp only
      rw [load_of_put_freePtr m hc hk]
      have hcells := overwrite_resize he.length_cells_le (m.load kbuf 0 n)
      rw [hlen] at hcells
      simp only [Kmem.memcpy, Heap.live_put, Finset.mem_insert_self, Heap.block_put_self,
        length_resize, hlen, le_refl, and_self, if_true, Heap.put_put, hcells]
      simp [Kmem.entryBytes, Kmem.load]

/-! ### The temporary buffer -/

theorem scanNewline_of_free {l : List UInt8} (h : Free isNewline l) (i : ℤ) :
    scanNewline (l.map some) i = -1 := by
  induction l generalizing i with
  | nil => rfl
  | cons b l ih =>
    obtain ⟨hb, hl⟩ := free_cons.mp h
    have hne : b ≠ newline := by simpa [isNewline] using hb
    simp [scanNewline, hne, ih hl]

theorem scanNewline_of_not_free {l : List UInt8} (h : ¬ Free isNewline l) (i : ℤ) :
    scanNewline (l.map some) i = i + (cutAfter isNewline l).length - 1 := by
  induction l generalizing i with
  | nil => exact absurd free_nil h
  | cons b l ih =>
    by_cases hb : b = newline
    · simp [scanNewline, cutAfter, isNewline, hb]
    · have hf : isNewline b = false := by simpa [isNewline] using hb
      rw [free_cons, not_and] at h
      simp only [List.map_cons, scanNewline, Option.some.injEq, hb, if_false, cutAfter, hf,
        Bool.false_eq_true, List.length_cons, ih (h hf)]
      omega

/-- The blocks the call allocates for `kbuf`: one, or none when it does not
get that far or asks for no bytes. -/
def kbufBlocks (env : WriteEnv) (s : State) (buf : UserBuf) : List ℕ :=
  if env.lock then (s.mem.kmalloc buf.bytes.length env.kmalloc).1.block?.toList else []

/-- The outcome of the `krealloc` of the call, `none` when it is not reached. -/
def kreallocOutcome (env : WriteEnv) (s : State) (buf : UserBuf) : Option Bool :=
  if env.lock then
    match s.mem.kmalloc buf.bytes.length env.kmalloc with
    | (.null, _) => none
    | (kbuf, m) =>
      match m.copyFromUser kbuf buf.bytes env.uncopied with
      | (_ + 1, _) => none
      | (0, m) => some (growEntry m s.dev.entry kbuf buf.stored.length env.krealloc).1
  else none

/-- The memory while `kbuf` holds the `bytes` of the user. -/
inductive Staged (m : Kmem) (bytes : List UInt8) : Ptr → Kmem → Prop
  | empty (h : bytes = []) : Staged m bytes .zeroSize m
  | block (k : ℕ) (hpos : 0 < bytes.length) (hk : k ∉ m.heap.live)
      (hb : m.heap.bytes + bytes.length < 2 ^ 64) :
      Staged m bytes (.block k) { m with heap := m.heap.put k (bytes.map some) }

namespace Staged

variable {m m' : Kmem} {bytes : List UInt8} {kbuf : Ptr}

theorem load_take (h : Staged m bytes kbuf m') {n : ℕ} (hn : n ≤ bytes.length) :
    m'.load kbuf 0 n = (bytes.take n).map some := by
  cases h with
  | empty h =>
    subst h
    obtain rfl : n = 0 := by simpa using hn
    simp [Kmem.load, resize]
  | block k hpos hk hb =>
    simp only [Kmem.load, Kmem.cells, Heap.block_put_self, List.drop_zero, resize,
      List.length_map, Nat.sub_eq_zero_of_le hn, List.replicate_zero, List.append_nil, List.map_take]

theorem bytes_lt (h : Staged m bytes kbuf m') (hm : m.heap.bytes < 2 ^ 64) :
    m.heap.bytes + bytes.length < 2 ^ 64 := by
  cases h with
  | empty h => simpa [h] using hm
  | block k hpos hk hb => exact hb

theorem pendingOk (h : Staged m bytes kbuf m') {e : BufferEntry} (he : PendingOk m.heap e) :
    PendingOk m'.heap e ∧ m'.entryBytes e = m.entryBytes e ∧
      ∀ k, kbuf = .block k → k ∈ m'.heap.live ∧ e.buffptr ≠ .block k := by
  cases h with
  | empty h => exact ⟨he, rfl, fun k hk => by cases hk⟩
  | block k hpos hk hb =>
    unfold PendingOk at he ⊢
    cases hp : e.buffptr with
    | null =>
      simp only [Kmem.entryBytes, Kmem.load, hp, Kmem.cells, true_and]
      exact fun k' hk' => by cases hk'; simp
    | zeroSize =>
      simp only [hp, Kmem.entryBytes, Kmem.load, Kmem.cells] at he ⊢
      exact ⟨he, trivial, fun k' hk' => by cases hk'; simp⟩
    | block b =>
      rw [hp] at he
      have hbk : b ≠ k := fun h => hk (h ▸ he.1)
      simp only [hp, Kmem.entryBytes, Kmem.load, Kmem.cells, Heap.block_put_of_ne _ hbk]
      refine ⟨⟨Finset.mem_insert_of_mem he.1, he.2⟩, trivial, ?_⟩
      intro k' hk'
      cases hk'
      exact ⟨Finset.mem_insert_self _ _, fun h => hbk (by cases h; rfl)⟩

/-- Releasing `kbuf` restores the heap. -/
theorem kfree_self (h : Staged m bytes kbuf m') :
    m'.kfree kbuf = ⟨m.heap, m.freed ++ kbuf.block?.toList, m.fault⟩ := by
  cases h with
  | empty h => simp [Kmem.kfree, Ptr.block?]
  | block k hpos hk hb =>
    simp [Kmem.kfree, Ptr.block?, Heap.free_of_notMem _ hk]

/-- Growing the pending entry with `kbuf` in place and then releasing `kbuf`
is growing it without `kbuf`. -/
theorem kfree_grown (h : Staged m bytes kbuf m') {e e' : BufferEntry} {data : List Cell}
    {h' : Heap Cell} (he : PendingOk m.heap e) (hg : Grown m' e data e' h') :
    ∃ h'', Grown m e data e' h'' ∧
      Kmem.kfree { m' with heap := h' } kbuf = ⟨h'', m.freed ++ kbuf.block?.toList, m.fault⟩ := by
  obtain ⟨-, hbytes, hne⟩ := h.pendingOk he
  cases h with
  | empty h => exact ⟨h', hg, by simp [Kmem.kfree, Ptr.block?]⟩
  | block k hpos hk hb =>
    have hcomm : freePtr (m.heap.put k (bytes.map some)) e.buffptr =
        (freePtr m.heap e.buffptr).put k (bytes.map some) := by
      cases hp : e.buffptr with
      | null => rfl
      | zeroSize => rfl
      | block b => exact Heap.free_put_comm _ (fun h => (hne k rfl).2 (by rw [hp, h])) _
    have hdead : k ∉ (freePtr m.heap e.buffptr).live := by
      cases hp : e.buffptr with
      | null => exact hk
      | zeroSize => exact hk
      | block b => exact fun h => hk (Finset.mem_of_mem_erase h)
    cases hg with
    | empty hz =>
      refine ⟨m.heap, .empty hz, ?_⟩
      simp [Kmem.kfree, Ptr.block?, Heap.free_of_notMem _ hk]
    | block c hc hcl hcb =>
      simp only at hcl hcb
      rw [hcomm] at hcl hcb
      rw [Heap.bytes_put _ hdead] at hcb
      have hck : c ≠ k := fun h => hcl (by simp [h])
      refine ⟨_, .block c hc (fun h => hcl (by simp [h])) (by omega), ?_⟩
      simp only [Kmem.kfree, Ptr.block?]
      rw [hcomm, if_pos (by simp), Heap.free_put_comm _ hck, Heap.free_put,
        Heap.free_of_notMem _ hdead, hbytes]
      rfl

end Staged

/-- What `copy_from_user` leaves in a buffer for `bytes`. -/
def received (bytes : List UInt8) (uncopied : ℕ) : List UInt8 :=
  bytes.take (bytes.length - min uncopied bytes.length) ++
    List.replicate (min uncopied bytes.length) 0

theorem length_received (bytes : List UInt8) (uncopied : ℕ) :
    (received bytes uncopied).length = bytes.length := by
  simp only [received, List.length_append, List.length_take, List.length_replicate]
  omega

theorem kmalloc_copyFromUser (m : Kmem) (bytes : List UInt8) (offer : Option ℕ) (uncopied : ℕ) :
    m.kmalloc bytes.length offer = (.null, m) ∨
      ∃ kbuf m₁ m₂, m.kmalloc bytes.length offer = (kbuf, m₁) ∧ kbuf ≠ .null ∧
        m₁.copyFromUser kbuf bytes uncopied = (min uncopied bytes.length, m₂) ∧
        Staged m (received bytes uncopied) kbuf m₂ := by
  have hlen := length_received bytes uncopied
  rcases kmalloc_cases m bytes.length offer with ⟨h0, h⟩ | ⟨-, h⟩ | ⟨k, hpos, hk, hb, h⟩
  · obtain rfl := List.eq_nil_of_length_eq_zero h0
    refine .inr ⟨_, _, m, h, by simp, ?_, .empty (by simp [received])⟩
    simp [Kmem.copyFromUser, Kmem.memcpy]
  · exact .inl h
  · refine .inr ⟨_, _, _, h, by simp, ?_, .block k (by omega) hk (by omega)⟩
    have hcells : (bytes.take (bytes.length - min uncopied bytes.length)).map some ++
        List.replicate (min uncopied bytes.length) (some 0) = (received bytes uncopied).map some := by
      simp [received]
    simp only [Kmem.copyFromUser, hcells, Kmem.memcpy, Heap.live_put, Finset.mem_insert_self,
      Heap.block_put_self, List.length_map, hlen, List.length_replicate, zero_add, le_refl,
      and_self, if_true, Heap.put_put]
    simp [overwrite, hlen]

/-! ### The call -/

/-- What a call relies on: the lock is free, the pending entry is in order and
no larger than the memory in use, which fits into the address space. -/
structure Ready (s : State) : Prop where
  unlocked : s.dev.lock = false
  pending : PendingOk s.mem.heap s.dev.entry
  size_le : s.dev.entry.size ≤ s.mem.heap.bytes
  bytes_lt : s.mem.heap.bytes < 2 ^ 64

/-- The memory after a call that leaves the heap `h` behind. -/
def memAfter (env : WriteEnv) (s : State) (buf : UserBuf) (h : Heap Cell) : Kmem :=
  ⟨h, s.mem.freed ++ kbufBlocks env s buf, s.mem.fault⟩

@[simp] theorem heap_memAfter (env : WriteEnv) (s : State) (buf : UserBuf) (h : Heap Cell) :
    (memAfter env s buf h).heap = h := rfl

/-- The return value and the state after `aesd_write`. -/
inductive WriteEffect (env : WriteEnv) (s : State) (buf : UserBuf) : ℤ → State → Prop
  | refused (ret : ℤ) (hret : ret < 0) (ho : kreallocOutcome env s buf = none) :
      WriteEffect env s buf ret ⟨s.dev, memAfter env s buf s.mem.heap⟩
  | lost (ho : kreallocOutcome env s buf = some false)
      (hpos : 0 < s.dev.entry.size + buf.stored.length) :
      WriteEffect env s buf (-enomem)
        ⟨{ s.dev with entry := { s.dev.entry with buffptr := .null } },
          memAfter env s buf s.mem.heap⟩
  | pending (ho : kreallocOutcome env s buf = some true) (hf : Free isNewline buf.bytes)
      {e : BufferEntry} {h : Heap Cell} (hg : Grown s.mem s.dev.entry (buf.stored.map some) e h) :
      WriteEffect env s buf buf.bytes.length ⟨{ s.dev with entry := e }, memAfter env s buf h⟩
  | completed (ho : kreallocOutcome env s buf = some true) (hf : ¬ Free isNewline buf.bytes)
      {e : BufferEntry} {h : Heap Cell} (hg : Grown s.mem s.dev.entry (buf.stored.map some) e h) :
      WriteEffect env s buf buf.bytes.length
        ⟨{ s.dev with buffer := aesdCircularBufferAddEntry s.dev.buffer e, entry := .zero },
          memAfter env s buf h⟩

/-- With the lock, the temporary buffer and the user's bytes at hand, both
branches do the same up to the ring: they grow the entry by `buf.stored`. -/
theorem aesdWrite_of_copied {env : WriteEnv} {s : State} {buf : UserBuf} (fPos : ℕ) {kbuf : Ptr}
    {m₁ m₂ : Kmem} (hl : env.lock = true)
    (hk : s.mem.kmalloc buf.bytes.length env.kmalloc = (kbuf, m₁)) (hnull : kbuf ≠ .null)
    (hc : m₁.copyFromUser kbuf buf.bytes env.uncopied = (0, m₂))
    (hst : Staged s.mem buf.bytes kbuf m₂) :
    aesdWrite env s buf fPos =
      match growEntry m₂ s.dev.entry kbuf buf.stored.length env.krealloc with
      | (false, entry, m) => ⟨-enomem, fPos,
          ⟨{ s.dev with entry := entry, lock := false }, m.kfree kbuf⟩⟩
      | (true, entry, m) => ⟨buf.bytes.length, fPos,
          ⟨if Free isNewline buf.bytes then { s.dev with entry := entry, lock := false }
            else ⟨aesdCircularBufferAddEntry s.dev.buffer entry, .zero, false⟩, m.kfree kbuf⟩⟩ := by
  have hload : m₂.load kbuf 0 buf.bytes.length = buf.bytes.map some := by
    simpa using hst.load_take le_rfl
  unfold aesdWrite
  simp only [hl, Bool.true_eq_false, if_false, hk]
  cases kbuf with
  | null => exact absurd rfl hnull
  | zeroSize | block k =>
    simp only [hc, hload]
    by_cases hf : Free isNewline buf.bytes
    · rw [if_pos (scanNewline_of_free hf 0), UserBuf.stored_of_free hf]
      rcases growEntry m₂ s.dev.entry _ buf.bytes.length env.krealloc with ⟨_ | _, e, m⟩
      · rfl
      · simp [hf]
    · have hlen : 0 < buf.stored.length := List.length_pos_of_ne_nil (UserBuf.isSegment_stored hf).ne_nil
      have hscan := scanNewline_of_not_free hf 0
      rw [zero_add] at hscan
      have hsize : (scanNewline (buf.bytes.map some) 0 + 1).toNat = buf.stored.length := by
        rw [hscan, sub_add_cancel, Int.toNat_natCast]
        rfl
      rw [if_neg (by rw [hscan]; change (buf.stored.length : ℤ) - 1 ≠ -1; omega), hsize]
      rcases growEntry m₂ s.dev.entry _ buf.stored.length env.krealloc with ⟨_ | _, e, m⟩
      · rfl
      · simp [hf]

/-- The same as an effect: the entry loses its block, or grows. -/
theorem aesdWrite_effect_of_copied {env : WriteEnv} {s : State} (hs : Ready s) {buf : UserBuf}
    (fPos : ℕ) {kbuf : Ptr} {m₁ m₂ : Kmem} (hl : env.lock = true)
    (hk : s.mem.kmalloc buf.bytes.length env.kmalloc = (kbuf, m₁)) (hnull : kbuf ≠ .null)
    (hc : m₁.copyFromUser kbuf buf.bytes env.uncopied = (0, m₂))
    (hst : Staged s.mem buf.bytes kbuf m₂) :
    (aesdWrite env s buf fPos).fPos = fPos ∧
      WriteEffect env s buf (aesdWrite env s buf fPos).retval (aesdWrite env s buf fPos).state := by
  have hkb : kbufBlocks env s buf = kbuf.block?.toList := by simp [kbufBlocks, hl, hk]
  have ho : kreallocOutcome env s buf =
      some (growEntry m₂ s.dev.entry kbuf buf.stored.length env.krealloc).1 := by
    rw [kreallocOutcome, if_pos hl, hk]
    cases kbuf with
    | null => exact absurd rfl hnull
    | zeroSize | block k => simp only [hc]
  have hsize := hs.size_le
  have hlt := hst.bytes_lt hs.bytes_lt
  have hle : buf.stored.length ≤ buf.bytes.length := (cutAfter_isPrefix _).length_le
  have hload : m₂.load kbuf 0 buf.stored.length = buf.stored.map some := by
    have htake : buf.bytes.take buf.stored.length = buf.stored :=
      (List.prefix_iff_eq_take.mp (cutAfter_isPrefix _)).symm
    rw [hst.load_take hle, htake]
  obtain ⟨hp2, hb2, hne⟩ := hst.pendingOk hs.pending
  rw [aesdWrite_of_copied fPos hl hk hnull hc hst]
  rcases growEntry_cases m₂ s.dev.entry hp2 kbuf hne buf.stored.length (by omega) env.krealloc
    with ⟨hpos, hg⟩ | ⟨e', h', hgr, hg⟩
  · rw [hg] at ho ⊢
    refine ⟨rfl, ?_⟩
    have hr := WriteEffect.lost ho hpos
    rw [memAfter, hkb, ← hst.kfree_self] at hr
    simpa [hs.unlocked] using hr
  · rw [hg] at ho ⊢
    refine ⟨rfl, ?_⟩
    rw [hload] at hgr
    obtain ⟨h'', hgr', hfree⟩ := hst.kfree_grown hs.pending hgr
    dsimp only
    rw [hfree, ← hkb]
    by_cases hf : Free isNewline buf.bytes
    · simpa [hf, hs.unlocked, memAfter] using WriteEffect.pending ho hf hgr'
    · simpa [hf, hs.unlocked, memAfter] using WriteEffect.completed ho hf hgr'

theorem aesdWrite_effect (env : WriteEnv) {s : State} (hs : Ready s) (buf : UserBuf) (fPos : ℕ) :
    (aesdWrite env s buf fPos).fPos = fPos ∧
      WriteEffect env s buf (aesdWrite env s buf fPos).retval (aesdWrite env s buf fPos).state := by
  have hdev : { s.dev with lock := false } = s.dev := by rw [← hs.unlocked]
  cases hl : env.lock with
  | false =>
    have ho : kreallocOutcome env s buf = none := by simp [kreallocOutcome, hl]
    have hkb : memAfter env s buf s.mem.heap = s.mem := by simp [memAfter, kbufBlocks, hl]
    have hr := WriteEffect.refused (-erestartsys) (by decide) ho
    rw [hkb] at hr
    exact ⟨by simp [aesdWrite, hl], by simpa [aesdWrite, hl] using hr⟩
  | true =>
    rcases kmalloc_copyFromUser s.mem buf.bytes env.kmalloc env.uncopied with
      hk | ⟨kbuf, m₁, m₂, hk, hnull, hc, hst⟩
    · have ho : kreallocOutcome env s buf = none := by simp [kreallocOutcome, hl, hk]
      have hkb : memAfter env s buf s.mem.heap = s.mem := by
        simp [memAfter, kbufBlocks, hl, hk, Ptr.block?]
      have hr := WriteEffect.refused (-enomem) (by decide) ho
      rw [hkb] at hr
      exact ⟨by simp [aesdWrite, hl, hk], by simpa [aesdWrite, hl, hk, hdev] using hr⟩
    · cases hmiss : min env.uncopied buf.bytes.length with
      | succ j =>
        -- bytes are missing, so `kbuf` is freed and nothing else has happened
        rw [hmiss] at hc
        have ho : kreallocOutcome env s buf = none := by
          rw [kreallocOutcome, if_pos hl, hk]
          cases kbuf with
          | null => rfl
          | zeroSize | block k => simp only [hc]
        have hkb : kbufBlocks env s buf = kbuf.block?.toList := by simp [kbufBlocks, hl, hk]
        have hr := WriteEffect.refused (-efault) (by decide) ho
        rw [memAfter, hkb, ← hst.kfree_self] at hr
        cases kbuf with
        | null => exact absurd rfl hnull
        | zeroSize | block k =>
          exact ⟨by simp [aesdWrite, hl, hk, hc], by simpa [aesdWrite, hl, hk, hc, hdev] using hr⟩
      | zero =>
        rw [hmiss] at hc
        have hrec : received buf.bytes env.uncopied = buf.bytes := by simp [received, hmiss]
        rw [hrec] at hst
        exact aesdWrite_effect_of_copied hs fPos hl hk hnull hc hst

end Aesd.Driver
