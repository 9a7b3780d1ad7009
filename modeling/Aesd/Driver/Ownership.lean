import Aesd.Driver.Effect
import Mathlib.Data.List.FinRange
import Mathlib.Data.List.Nodup

/-! Who owns which block. The pending entry and the ten ring entries refer to
pairwise different live blocks, whatever fails, and unloading the module frees
each of them once. That the driver owns nothing else is a different matter: a
write that completes a line in a full ring forgets the block of the entry it
overwrites, and a failed `krealloc` forgets the block of the pending entry. -/

namespace Aesd.Driver

open Segments Run

/-! ### The invariant -/

/-- A ring entry: its block has the entry's size; without one the size is zero. -/
def EntryOk (h : Heap Cell) (e : BufferEntry) : Prop :=
  match e.buffptr with
  | .block b => b ∈ h.live ∧ (h.block b).length = e.size ∧ 0 < e.size
  | _ => e.size = 0

/-- No two entries own the same block. -/
def AesdDev.Distinct (dev : AesdDev) : Prop :=
  ∀ i j b, (dev.entryAt i).buffptr = .block b → (dev.entryAt j).buffptr = .block b → i = j

structure Valid (s : State) : Prop extends Ready s where
  no_fault : s.mem.fault = false
  slots : ∀ i, EntryOk s.mem.heap (s.dev.buffer.entry i)
  distinct : s.dev.Distinct

theorem EntryOk.pendingOk {h : Heap Cell} {e : BufferEntry} (he : EntryOk h e) : PendingOk h e := by
  unfold EntryOk at he
  unfold PendingOk
  cases hp : e.buffptr with
  | null => trivial
  | zeroSize | block b => rwa [hp] at he

theorem PendingOk.live {h : Heap Cell} {e : BufferEntry} (he : PendingOk h e) {b : ℕ}
    (hb : e.buffptr = .block b) : b ∈ h.live := by
  rw [PendingOk, hb] at he
  exact he.1

theorem Valid.live {s : State} (hs : Valid s) {i : Option (Fin 10)} {b : ℕ}
    (hb : (s.dev.entryAt i).buffptr = .block b) : b ∈ s.mem.heap.live := by
  cases i with
  | none => exact hs.pending.live hb
  | some i => exact (hs.slots i).pendingOk.live hb

theorem initial_valid : Valid State.initial where
  unlocked := rfl
  pending := trivial
  size_le := le_rfl
  bytes_lt := by decide
  no_fault := rfl
  slots _ := rfl
  distinct i j b hi _ := by cases i <;> simp [AesdDev.entryAt, State.initial, aesdDeviceZero,
    aesdCircularBufferInit, BufferEntry.zero] at hi

/-! ### Growing the pending entry -/

section Grown

variable {m : Kmem} {e e' : BufferEntry} {data : List Cell} {h' : Heap Cell}

/-- Blocks that the pending entry does not own stay as they are, and the
grown entry owns none of them. -/
theorem Grown.frame (hg : Grown m e data e' h') {b : ℕ} (hb : b ∈ m.heap.live)
    (hne : e.buffptr ≠ .block b) :
    b ∈ h'.live ∧ h'.block b = m.heap.block b ∧ e'.buffptr ≠ .block b := by
  cases hg with
  | empty => exact ⟨hb, rfl, by simp⟩
  | block c hpos hc hlt =>
    have hb' : b ∈ (freePtr m.heap e.buffptr).live ∧
        (freePtr m.heap e.buffptr).block b = m.heap.block b := by
      cases hp : e.buffptr with
      | null => exact ⟨hb, rfl⟩
      | zeroSize => exact ⟨hb, rfl⟩
      | block d =>
        have hbd : b ≠ d := fun h => hne (by rw [hp, h])
        exact ⟨Finset.mem_erase.mpr ⟨hbd, hb⟩, Heap.block_free_of_ne _ hbd⟩
    have hbc : b ≠ c := fun h => hc (h ▸ hb'.1)
    refine ⟨Finset.mem_insert_of_mem hb'.1, ?_, fun h => hbc (by cases h; rfl)⟩
    rw [Heap.block_put_of_ne _ hbc, hb'.2]

theorem Grown.entryOk (hg : Grown m e data e' h') : EntryOk h' e' := by
  cases hg with
  | empty => rfl
  | block c hpos hc hlt =>
    refine ⟨Finset.mem_insert_self _ _, ?_, hpos⟩
    rw [Heap.block_put_self, List.length_append, length_entryBytes]

theorem Grown.bytes_lt (hg : Grown m e data e' h') (hm : m.heap.bytes < 2 ^ 64) :
    h'.bytes < 2 ^ 64 := by
  cases hg with
  | empty => exact hm
  | block c hpos hc hlt =>
    rw [Heap.bytes_put _ hc, List.length_append, length_entryBytes]
    exact hlt

theorem Grown.entryOk_of_ne (hg : Grown m e data e' h') {d : BufferEntry} (hd : EntryOk m.heap d)
    (hne : ∀ b, d.buffptr = .block b → e.buffptr ≠ .block b) : EntryOk h' d := by
  unfold EntryOk at hd ⊢
  cases hp : d.buffptr with
  | null | zeroSize => rwa [hp] at hd
  | block b =>
    rw [hp] at hd
    obtain ⟨hl, hb, -⟩ := hg.frame hd.1 (hne b hp)
    exact ⟨hl, hb ▸ hd.2⟩

end Grown

theorem EntryOk.size_le {h : Heap Cell} {e : BufferEntry} (he : EntryOk h e) : e.size ≤ h.bytes := by
  unfold EntryOk at he
  cases hp : e.buffptr with
  | null | zeroSize => rw [hp] at he; simp only at he; omega
  | block b =>
    rw [hp] at he
    exact he.2.1 ▸ h.length_block_le b

/-! ### Steps -/

theorem aesdRead_state {s : State} (hs : s.dev.lock = false) (env : ReadEnv) (count fPos : ℕ) :
    (aesdRead env s count fPos).state = s := by
  have hdev : { s.dev with lock := false } = s.dev := by rw [← hs]
  unfold aesdRead
  split_ifs
  · rfl
  · dsimp only
    rw [hdev]
    split
    · rfl
    · split_ifs <;> rfl

theorem aesdRead_retval_le (env : ReadEnv) (s : State) (count fPos : ℕ) :
    (aesdRead env s count fPos).retval ≤ count := by
  unfold aesdRead
  split_ifs
  · simp only [erestartsys]
    omega
  · dsimp only
    split
    · exact Int.natCast_nonneg count
    · split_ifs
      · simp only [efault]
        omega
      · exact Int.ofNat_le.mpr (Nat.min_le_left _ _)

/-- The pending entry may be replaced by one that owns a block of its own. -/
theorem AesdDev.Distinct.setEntry {dev : AesdDev} (hd : dev.Distinct) {e : BufferEntry}
    (he : ∀ i b, (dev.buffer.entry i).buffptr = .block b → e.buffptr ≠ .block b) :
    ({ dev with entry := e } : AesdDev).Distinct := by
  intro i j b hi hj
  match i, j with
  | none, none => rfl
  | none, some j => exact absurd hi (he j b hj)
  | some i, none => exact absurd hj (he i b hi)
  | some i, some j => exact hd (some i) (some j) b hi hj

/-- An entry with a block of its own may be inserted into the ring. -/
theorem AesdDev.Distinct.addEntry {dev : AesdDev} (hd : dev.Distinct) {e : BufferEntry}
    (he : ∀ i b, (dev.buffer.entry i).buffptr = .block b → e.buffptr ≠ .block b) :
    ({ dev with buffer := aesdCircularBufferAddEntry dev.buffer e, entry := .zero } :
      AesdDev).Distinct := by
  intro i j b hi hj
  match i, j with
  | none, none => rfl
  | none, some j => simp [AesdDev.entryAt, BufferEntry.zero] at hi
  | some i, none => simp [AesdDev.entryAt, BufferEntry.zero] at hj
  | some i, some j =>
    simp only [AesdDev.entryAt, aesdCircularBufferAddEntry, Function.update_apply] at hi hj
    split_ifs at hi hj with h1 h2 h2
    · rw [h1, h2]
    · exact absurd hi (he j b hj)
    · exact absurd hj (he i b hi)
    · exact hd (some i) (some j) b hi hj

theorem WriteEffect.valid {env : WriteEnv} {s s' : State} {buf : UserBuf} {ret : ℤ} (hs : Valid s)
    (h : WriteEffect env s buf ret s') : Valid s' := by
  have hne : ∀ i b, (s.dev.buffer.entry i).buffptr = .block b → s.dev.entry.buffptr ≠ .block b :=
    fun i b hb hp => by cases hs.distinct none (some i) b hp hb
  cases h with
  | refused _ _ _ => exact { hs with }
  | lost ho hpos =>
    exact { hs with
      pending := trivial
      distinct := hs.distinct.setEntry (by simp) }
  | pending ho hf hg =>
    exact
      { unlocked := hs.unlocked
        pending := hg.entryOk.pendingOk
        size_le := hg.entryOk.size_le
        bytes_lt := hg.bytes_lt hs.bytes_lt
        no_fault := hs.no_fault
        slots := fun i => hg.entryOk_of_ne (hs.slots i) (hne i)
        distinct := hs.distinct.setEntry fun i b hb =>
          (hg.frame (hs.live (i := some i) hb) (hne i b hb)).2.2 }
  | @completed ho hf e h hg =>
    exact
      { unlocked := hs.unlocked
        pending := trivial
        size_le := Nat.zero_le _
        bytes_lt := hg.bytes_lt hs.bytes_lt
        no_fault := hs.no_fault
        slots := fun i => by
          by_cases hi : i = s.dev.buffer.inOffs
          · simpa [aesdCircularBufferAddEntry, hi] using hg.entryOk
          · simpa [aesdCircularBufferAddEntry, hi] using
              hg.entryOk_of_ne (hs.slots i) (hne i)
        distinct := hs.distinct.addEntry fun i b hb =>
          (hg.frame (hs.live (i := some i) hb) (hne i b hb)).2.2 }

theorem Valid.step {s : State} (hs : Valid s) (c : Call) : Valid (s.step c) := by
  cases c with
  | write env buf fPos => exact (aesdWrite_effect env hs.toReady buf fPos).2.valid hs
  | read env count fPos =>
    rw [State.step, aesdRead_state hs.unlocked]
    exact hs

theorem run_valid (cs : List Call) : Valid (run State.step .initial cs) :=
  invariant_of_step (fun _ c hs => hs.step c) initial_valid cs

/-! ### Unloading -/

theorem mem_refs {dev : AesdDev} {b : ℕ} :
    b ∈ dev.refs ↔ ∃ i, (dev.entryAt i).buffptr = .block b := by
  have hall : ∀ i, i ∈ entryIndices := fun i => by cases i <;> simp [entryIndices]
  have hblock : ∀ p : Ptr, p.block? = some b ↔ p = .block b := fun p => by
    cases p <;> simp [Ptr.block?]
  simp only [AesdDev.refs, List.mem_filterMap, hblock, hall, true_and]

theorem AesdDev.Distinct.nodup_refs {dev : AesdDev} (hd : dev.Distinct) : dev.refs.Nodup := by
  have hidx : entryIndices.Nodup := by decide
  refine hidx.filterMap ?_
  intro i j b hi hj
  have hblock : ∀ p : Ptr, b ∈ p.block? → p = .block b := fun p hp => by
    cases p <;> simp_all [Ptr.block?]
  exact hd i j b (hblock _ hi) (hblock _ hj)

theorem length_refs_le (dev : AesdDev) : dev.refs.length ≤ 11 :=
  (List.length_filterMap_le _ _).trans (by decide)

/-- `kfree` on a list of pointers to different live blocks. -/
theorem foldl_kfree (ps : List Ptr) (m : Kmem) (hnd : (ps.filterMap Ptr.block?).Nodup)
    (hl : ∀ b ∈ ps.filterMap Ptr.block?, b ∈ m.heap.live) :
    (ps.foldl Kmem.kfree m).freed = m.freed ++ ps.filterMap Ptr.block? ∧
      (ps.foldl Kmem.kfree m).fault = m.fault ∧
      (ps.foldl Kmem.kfree m).heap.live = m.heap.live \ (ps.filterMap Ptr.block?).toFinset := by
  induction ps generalizing m with
  | nil => simp
  | cons p ps ih =>
    cases p with
    | null | zeroSize => exact ih m hnd hl
    | block b =>
      simp only [Ptr.block?, List.filterMap_cons, List.nodup_cons, List.mem_cons,
        forall_eq_or_imp] at hnd hl
      obtain ⟨hf, hft, hlive⟩ := ih (m.kfree (.block b)) hnd.2 (fun c hc => by
        have hcb : c ≠ b := fun h => hnd.1 (h ▸ hc)
        simpa [Kmem.kfree, hl.1, hcb] using hl.2 c hc)
      simp only [List.foldl_cons, hf, hft, hlive]
      simp only [Kmem.kfree, hl.1, if_true, Heap.live_free, Ptr.block?, List.filterMap_cons,
        List.append_assoc, List.singleton_append, true_and, List.toFinset_cons]
      ext c
      simp only [Finset.mem_sdiff, Finset.mem_erase, Finset.mem_insert, not_or]
      tauto

/-- Unloading frees the blocks referred to, in order, and nothing else. -/
theorem Valid.cleanup {s : State} (hs : Valid s) :
    (aesdCleanupModule s).freed = s.mem.freed ++ s.dev.refs ∧ (aesdCleanupModule s).fault = false ∧
      (aesdCleanupModule s).heap.live = s.mem.heap.live \ s.dev.refs.toFinset := by
  have hfold : aesdCleanupModule s =
      (entryIndices.map fun i => (s.dev.entryAt i).buffptr).foldl Kmem.kfree s.mem := by
    have hfree : ∀ (m : Kmem) (p : Ptr), (if p ≠ .null then m.kfree p else m) = m.kfree p :=
      fun m p => by cases p <;> rfl
    simp only [aesdCleanupModule, hfree, entryIndices, List.map_cons, List.map_map, List.foldl_cons,
      List.foldl_map]
    rfl
  have hrefs : s.dev.refs =
      (entryIndices.map fun i => (s.dev.entryAt i).buffptr).filterMap Ptr.block? := by
    rw [List.filterMap_map]
    rfl
  have h := foldl_kfree (entryIndices.map fun i => (s.dev.entryAt i).buffptr) s.mem
    (hrefs ▸ hs.distinct.nodup_refs) (fun b hb => by
      rw [← hrefs, mem_refs] at hb
      obtain ⟨i, hi⟩ := hb
      exact hs.live hi)
  rw [← hfold, ← hrefs] at h
  exact ⟨h.1, h.2.1.trans hs.no_fault, h.2.2⟩

/-- Every step frees its own temporary buffer and nothing else. -/
theorem Valid.freed_write {s : State} (hs : Valid s) (env : WriteEnv) (buf : UserBuf) (fPos : ℕ) :
    (aesdWrite env s buf fPos).state.mem.freed = s.mem.freed ++ kbufBlocks env s buf := by
  have h := (aesdWrite_effect env hs.toReady buf fPos).2
  generalize (aesdWrite env s buf fPos).retval = ret, (aesdWrite env s buf fPos).state = s' at h
  cases h <;> rfl

/-- Whatever fails: the eleven entries refer to live and pairwise different
blocks, no step has freed or resized a block that was not live, a write frees
exactly the temporary buffer it allocated, a read frees nothing, and unloading
frees every block referred to, each of them once. -/
theorem single_ownership (cs : List Call) :
    let s := run State.step .initial cs
    (∀ i b, (s.dev.entryAt i).buffptr = .block b → b ∈ s.mem.heap.live) ∧
      (∀ i j b, (s.dev.entryAt i).buffptr = .block b →
        (s.dev.entryAt j).buffptr = .block b → i = j) ∧
      (∀ env buf fPos, (aesdWrite env s buf fPos).state.mem.freed =
        s.mem.freed ++ kbufBlocks env s buf) ∧
      (∀ env count fPos, (aesdRead env s count fPos).state.mem = s.mem) ∧
      s.mem.fault = false ∧ (aesdCleanupModule s).fault = false ∧
      (aesdCleanupModule s).freed = s.mem.freed ++ s.dev.refs ∧ s.dev.refs.Nodup ∧
      ∀ b, b ∈ s.dev.refs ↔ ∃ i, (s.dev.entryAt i).buffptr = .block b := by
  intro s
  have hs : Valid s := run_valid cs
  obtain ⟨hfreed, hfault, -⟩ := hs.cleanup
  exact ⟨fun i b hb => hs.live hb, hs.distinct, hs.freed_write,
    fun env count fPos => by rw [aesdRead_state hs.unlocked], hs.no_fault, hfault, hfreed,
    hs.distinct.nodup_refs, fun b => mem_refs⟩

/-! ### Lost blocks -/

/-- The call forgets no block: a failing `krealloc` meets no pending block,
and a line is completed only while the ring has a free slot. -/
def KeepsTrack (s : State) : Call → Prop
  | .write env buf _ =>
    ¬ (kreallocOutcome env s buf = some false ∧ s.dev.entry.buffptr.block? ≠ none) ∧
      ¬ (kreallocOutcome env s buf = some true ∧ ¬ Free isNewline buf.bytes ∧
        s.dev.buffer.full = true)
  | .read _ _ _ => True

/-- Every live block belongs to an entry. -/
def Tracked (s : State) : Prop :=
  ∀ b ∈ s.mem.heap.live, ∃ i, (s.dev.entryAt i).buffptr = .block b

/-- Ring slots that have been written own a block. -/
def RingFilled (b : CircularBuffer) : Prop :=
  ∃ n, b.Shape n ∧ ∀ i : Fin 10, i.val < n → ∃ c, (b.entry i).buffptr = .block c

theorem RingFilled.addEntry {b : CircularBuffer} (h : RingFilled b) {e : BufferEntry} {c : ℕ}
    (he : e.buffptr = .block c) : RingFilled (aesdCircularBufferAddEntry b e) := by
  obtain ⟨n, hn, hblock⟩ := h
  refine ⟨n + 1, hn.addEntry e, fun i hi => ?_⟩
  by_cases hin : i = b.inOffs
  · exact ⟨c, by simpa [aesdCircularBufferAddEntry, hin] using he⟩
  · have hlt : i.val < n := by
      -- the slot with number `n` is the one just written
      by_contra hge
      have hval : i.val = n := by omega
      refine hin (Fin.ext ?_)
      rw [hn.inOffs, Fin.val_ofNat, hval, Nat.mod_eq_of_lt (hval ▸ i.isLt)]
    simpa [aesdCircularBufferAddEntry, hin] using hblock i hlt

theorem Grown.exists_block {m : Kmem} {e e' : BufferEntry} {data : List Cell} {h' : Heap Cell}
    (hg : Grown m e data e' h') (hd : data ≠ []) : ∃ c, e'.buffptr = .block c := by
  cases hg with
  | empty h => exact absurd (List.eq_nil_of_length_eq_zero (by omega)) hd
  | block c => exact ⟨c, rfl⟩

theorem stored_ne_nil {buf : UserBuf} (hf : ¬ Free isNewline buf.bytes) :
    buf.stored.map some ≠ ([] : List Cell) := by
  simpa using (UserBuf.isSegment_stored hf).ne_nil

theorem RingFilled.step {s : State} (hs : Valid s) (h : RingFilled s.dev.buffer) (c : Call) :
    RingFilled (s.step c).dev.buffer := by
  cases c with
  | read env count fPos => rwa [State.step, aesdRead_state hs.unlocked]
  | write env buf fPos =>
    have heff := (aesdWrite_effect env hs.toReady buf fPos).2
    rw [State.step]
    generalize (aesdWrite env s buf fPos).retval = ret, (aesdWrite env s buf fPos).state = s' at heff
    cases heff with
    | refused | lost | pending => exact h
    | completed ho hf hg =>
      obtain ⟨c, hc⟩ := hg.exists_block (stored_ne_nil hf)
      exact h.addEntry hc

/-- What is live after growing the pending entry: the new block, and all
others but the one it replaces. -/
theorem Grown.mem_live {m : Kmem} {e e' : BufferEntry} {data : List Cell} {h' : Heap Cell}
    (he : PendingOk m.heap e) (hg : Grown m e data e' h') {b : ℕ} :
    b ∈ h'.live ↔ e'.buffptr = .block b ∨ (b ∈ m.heap.live ∧ e.buffptr ≠ .block b) := by
  cases hg with
  | empty h =>
    have hne : e.buffptr ≠ .block b := fun hp => by
      rw [PendingOk, hp] at he
      omega
    simp [hne]
  | block c hpos hc hlt =>
    cases hp : e.buffptr with
    | null | zeroSize => simp [freePtr, eq_comm]
    | block d => simp [freePtr, eq_comm, and_comm]

/-- Without its pointer, a pending block stays live and has no owner. -/
theorem Valid.tracked_lost_iff {s : State} (hs : Valid s) (ht : Tracked s) {m : Kmem}
    (hm : m.heap = s.mem.heap) :
    Tracked ⟨{ s.dev with entry := { s.dev.entry with buffptr := .null } }, m⟩ ↔
      s.dev.entry.buffptr.block? = none := by
  unfold Tracked
  rw [hm]
  constructor
  · intro ht'
    cases hp : s.dev.entry.buffptr with
    | null | zeroSize => rfl
    | block b =>
      obtain ⟨i, hi⟩ := ht' b (hs.pending.live hp)
      cases i with
      | none => simp [AesdDev.entryAt] at hi
      | some i => cases hs.distinct none (some i) b hp hi
  · intro hp b hb
    obtain ⟨i, hi⟩ := ht b hb
    cases i with
    | none =>
      change s.dev.entry.buffptr = .block b at hi
      simp [hi, Ptr.block?] at hp
    | some i => exact ⟨some i, hi⟩

theorem Valid.tracked_pending {s : State} (hs : Valid s) (ht : Tracked s) {data : List Cell}
    {e : BufferEntry} {m : Kmem} (hg : Grown s.mem s.dev.entry data e m.heap) :
    Tracked ⟨{ s.dev with entry := e }, m⟩ := by
  intro b hb
  rcases (hg.mem_live hs.pending).mp hb with he | ⟨hl, hne⟩
  · exact ⟨none, he⟩
  · obtain ⟨i, hi⟩ := ht b hl
    cases i with
    | none => exact absurd hi hne
    | some i => exact ⟨some i, hi⟩

/-- A completed line takes a free slot, or the place of an entry whose block
nobody owns any more. -/
theorem Valid.tracked_completed_iff {s : State} (hs : Valid s) (hr : RingFilled s.dev.buffer)
    (ht : Tracked s) {data : List Cell} {e : BufferEntry} {m : Kmem}
    (hg : Grown s.mem s.dev.entry data e m.heap) :
    Tracked ⟨{ s.dev with
        buffer := aesdCircularBufferAddEntry s.dev.buffer e, entry := .zero }, m⟩ ↔
      s.dev.buffer.full = false := by
  obtain ⟨n, hn, hblock⟩ := hr
  have hin : s.dev.buffer.inOffs.val = n % 10 := by rw [hn.inOffs, Fin.val_ofNat]
  constructor
  · intro ht'
    by_contra hfull
    rw [Bool.not_eq_false, hn.full, decide_eq_true_eq] at hfull
    obtain ⟨d, hd⟩ := hblock s.dev.buffer.inOffs (by omega)
    have hne : s.dev.entry.buffptr ≠ .block d := fun hp => by
      cases hs.distinct none (some _) d hp hd
    obtain ⟨hl, -, hed⟩ := hg.frame (hs.live (i := some _) hd) hne
    obtain ⟨i, hi⟩ := ht' d hl
    cases i with
    | none => simp [AesdDev.entryAt, BufferEntry.zero] at hi
    | some i =>
      simp only [AesdDev.entryAt, aesdCircularBufferAddEntry, Function.update_apply] at hi
      split_ifs at hi with h1
      · exact hed hi
      · exact h1 (Option.some.inj (hs.distinct (some i) (some _) d hi hd))
  · intro hfull b hb
    rw [hn.full, decide_eq_false_iff_not] at hfull
    have hzero := hn.unused s.dev.buffer.inOffs (by omega)
    rcases (hg.mem_live hs.pending).mp hb with he | ⟨hl, hne⟩
    · exact ⟨some s.dev.buffer.inOffs, by simpa [AesdDev.entryAt, aesdCircularBufferAddEntry]⟩
    · obtain ⟨i, hi⟩ := ht b hl
      cases i with
      | none => exact absurd hi hne
      | some i =>
        have hne' : i ≠ s.dev.buffer.inOffs := fun h => by
          simp [AesdDev.entryAt, h, hzero, BufferEntry.zero] at hi
        exact ⟨some i, by simpa [AesdDev.entryAt, aesdCircularBufferAddEntry, hne'] using hi⟩

/-- A step keeps track of all blocks exactly when it meets `KeepsTrack`. -/
theorem tracked_step_iff {s : State} (hs : Valid s) (hr : RingFilled s.dev.buffer)
    (ht : Tracked s) (c : Call) : Tracked (s.step c) ↔ KeepsTrack s c := by
  cases c with
  | read env count fPos => simpa [State.step, aesdRead_state hs.unlocked, KeepsTrack] using ht
  | write env buf fPos =>
    have heff := (aesdWrite_effect env hs.toReady buf fPos).2
    rw [State.step, KeepsTrack]
    generalize (aesdWrite env s buf fPos).retval = ret, (aesdWrite env s buf fPos).state = s' at heff
    cases heff with
    | refused ret hret ho => simpa [ho, Tracked] using ht
    | lost ho hpos =>
      have hheap : (memAfter env s buf s.mem.heap).heap = s.mem.heap := rfl
      refine (hs.tracked_lost_iff ht hheap).trans ?_
      simp [ho]
    | pending ho hf hg => exact iff_of_true (hs.tracked_pending ht hg) (by simp [ho, hf])
    | completed ho hf hg =>
      refine (hs.tracked_completed_iff hr ht hg).trans ?_
      simp [ho, hf]

/-- The live blocks are those of the eleven entries, and unloading the module
leaves none. -/
def MemoryTracked (s : State) : Prop :=
  s.mem.heap.live = s.dev.refs.toFinset ∧ s.mem.heap.live.card ≤ 11 ∧
    (aesdCleanupModule s).heap.live = ∅

theorem Valid.memoryTracked_iff {s : State} (hs : Valid s) : MemoryTracked s ↔ Tracked s := by
  constructor
  · rintro ⟨hlive, -⟩ b hb
    rw [hlive, List.mem_toFinset] at hb
    exact mem_refs.mp hb
  · intro ht
    have hlive : s.mem.heap.live = s.dev.refs.toFinset := by
      ext b
      rw [List.mem_toFinset, mem_refs]
      exact ⟨ht b, fun ⟨i, hi⟩ => hs.live hi⟩
    refine ⟨hlive, ?_, ?_⟩
    · rw [hlive]
      exact (List.toFinset_card_le _).trans (length_refs_le _)
    · rw [hs.cleanup.2.2, hlive, Finset.sdiff_self]

/-- Memory is tracked throughout a run exactly when no call forgets a block. -/
theorem memory_tracked_iff (cs : List Call) :
    Always State.step MemoryTracked .initial cs ↔ Along State.step KeepsTrack .initial cs := by
  have hvalid : ∀ before, before <+: cs →
      (MemoryTracked (run State.step .initial before) ↔ Tracked (run State.step .initial before)) :=
    fun before _ => (run_valid before).memoryTracked_iff
  have hiff : Always State.step MemoryTracked .initial cs ↔ Always State.step Tracked .initial cs :=
    forall₂_congr hvalid
  rw [hiff]
  refine always_iff_along (J := fun s => Valid s ∧ RingFilled s.dev.buffer)
    (fun s c h => ⟨h.1.step c, h.2.step h.1 c⟩) (fun s c h ht => tracked_step_iff h.1 h.2 ht c)
    ⟨initial_valid, 0, CircularBuffer.shape_init, fun i hi => absurd hi (Nat.not_lt_zero _)⟩ ?_ cs
  simp [Tracked, State.initial, Kmem.initial]

/-- Eleven lines: the first one's block stays behind, even after unloading. -/
theorem memory_tracked_fails : ¬ ∀ cs, Always State.step MemoryTracked .initial cs := by
  intro h
  have hrun := (h ((List.range 11).map fun c => .write (.ok 100 c) ⟨[newline], by decide⟩ 0)).last
  revert hrun
  unfold MemoryTracked
  decide

end Aesd.Driver
