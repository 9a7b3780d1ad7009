import Aesd.Driver.Reading

/-! Which bytes a reader can get. The size of an entry is meant to be the
number of bytes that writes have copied into its block. A failed `krealloc`
breaks this: `buffptr` is `NULL` afterwards but `size` stays, so the next write
gets a fresh block and leaves `size` uninitialised bytes in front of its own.
Without such a failure every byte that a read delivers comes from a write. -/

namespace Aesd.Driver

open Segments Run Window

/-- The number of bytes that have been copied into the block of a pointer. -/
def Kmem.written (m : Kmem) (p : Ptr) : ℕ := (m.cells p).countP Option.isSome

/-- Every entry's size is the number of bytes copied into its block. -/
def Exact (s : State) : Prop :=
  ∀ i, (s.dev.entryAt i).size = s.mem.written (s.dev.entryAt i).buffptr

/-- No `krealloc` fails while the pending entry holds bytes. -/
def KeepsPending (s : State) : Call → Prop
  | .write env buf _ => ¬ (kreallocOutcome env s buf = some false ∧ 0 < s.dev.entry.size)
  | .read _ _ _ => True

/-- The call hands byte `b` to `aesd_write`. -/
def Call.Supplies (c : Call) (b : UInt8) : Prop :=
  match c with
  | .write _ buf _ => b ∈ buf.bytes
  | .read _ _ _ => False

/-! ### Sizes -/

/-- An entry whose block has its size is exact when the block is all written. -/
theorem EntryOk.exact_iff {m : Kmem} {e : BufferEntry} (h : EntryOk m.heap e) :
    e.size = m.written e.buffptr ↔ ∀ x ∈ m.cells e.buffptr, x.isSome := by
  rw [Kmem.written, ← h.length_cells, eq_comm, List.countP_eq_length]

theorem Kmem.written_eq_of_block {m m' : Kmem} {p : Ptr}
    (h : ∀ b, p = .block b → m'.heap.block b = m.heap.block b) : m'.written p = m.written p := by
  cases p with
  | null | zeroSize => rfl
  | block b => simp only [Kmem.written, Kmem.cells, h b rfl]

/-- The bytes of an exact pending entry are all written. -/
theorem PendingOk.isSome_entryBytes {m : Kmem} {e : BufferEntry} (h : PendingOk m.heap e)
    (hex : e.size = m.written e.buffptr) : ∀ x ∈ m.entryBytes e, x.isSome := by
  unfold PendingOk at h
  cases hp : e.buffptr with
  | null | zeroSize =>
    have h0 : e.size = 0 := by simpa [Kmem.written, hp, Kmem.cells] using hex
    simp [Kmem.entryBytes, Kmem.load, h0, resize]
  | block b =>
    rw [hp] at h
    have hok : EntryOk m.heap e := by rw [EntryOk, hp]; exact h
    rw [hok.entryBytes]
    exact hok.exact_iff.mp hex

/-- Written bytes behind an exact entry make an exact entry. -/
theorem Grown.exact {m : Kmem} {e e' : BufferEntry} {data : List UInt8} {h' : Heap Cell}
    (he : PendingOk m.heap e) (hex : e.size = m.written e.buffptr)
    (hg : Grown m e (data.map some) e' h') (m' : Kmem) (hm : m'.heap = h') :
    e'.size = m'.written e'.buffptr := by
  have hok := hg.entryOk
  rw [← hm] at hok
  rw [hok.exact_iff]
  cases hg with
  | empty h => simp [Kmem.cells]
  | block c hpos hc hlt =>
    simp only [Kmem.cells, hm, Heap.block_put_self, List.mem_append, List.mem_map]
    rintro x (hx | ⟨b, -, rfl⟩)
    · exact he.isSome_entryBytes hex x hx
    · rfl

/-- A step keeps the sizes exact exactly when it meets `KeepsPending`. -/
theorem exact_step_iff {s : State} (hs : Valid s) (hex : Exact s) (c : Call) :
    Exact (s.step c) ↔ KeepsPending s c := by
  cases c with
  | read env count fPos => simpa [State.step, aesdRead_state hs.unlocked, KeepsPending] using hex
  | write env buf fPos =>
    have heff := (aesdWrite_effect env hs.toReady buf fPos).2
    rw [State.step, KeepsPending]
    generalize (aesdWrite env s buf fPos).retval = ret, (aesdWrite env s buf fPos).state = s' at heff
    -- ring entries keep their blocks, and those keep their contents
    have hring : ∀ {e : BufferEntry} {h : Heap Cell},
        Grown s.mem s.dev.entry (buf.stored.map some) e h → ∀ i,
        (s.dev.buffer.entry i).size =
          (memAfter env s buf h).written (s.dev.buffer.entry i).buffptr := by
      intro e h hg i
      rw [Kmem.written_eq_of_block (m := s.mem)]
      · exact hex (some i)
      · intro b hb
        refine (hg.frame (hs.live (i := some i) hb) fun hp => ?_).2.1
        cases hs.distinct none (some i) b hp hb
    cases heff with
    | refused ret hret ho =>
      simp only [ho, reduceCtorEq, false_and, not_false_eq_true, iff_true]
      exact hex
    | lost ho hpos =>
      simp only [ho, true_and, not_lt, Nat.le_zero]
      constructor
      · intro hex'
        simpa [AesdDev.entryAt, Kmem.written, Kmem.cells] using hex' none
      · intro h0 i
        cases i with
        | none => simpa [AesdDev.entryAt, Kmem.written, Kmem.cells] using h0
        | some i => exact hex (some i)
    | pending ho hf hg =>
      simp only [ho, Option.some.injEq, Bool.true_eq_false, false_and, not_false_eq_true, iff_true]
      intro i
      cases i with
      | none => exact hg.exact hs.pending (hex none) _ rfl
      | some i => exact hring hg i
    | @completed ho hf e h hg =>
      simp only [ho, Option.some.injEq, Bool.true_eq_false, false_and, not_false_eq_true, iff_true]
      intro i
      cases i with
      | none => rfl
      | some i =>
        by_cases hi : i = s.dev.buffer.inOffs
        · simpa [AesdDev.entryAt, aesdCircularBufferAddEntry, hi] using
            hg.exact hs.pending (hex none) (memAfter env s buf h) rfl
        · simpa [AesdDev.entryAt, aesdCircularBufferAddEntry, hi] using hring hg i

/-! ### Origin -/

/-- Initialised cells of the entries come from the calls `cs`. -/
def FromUser (cs : List Call) (s : State) : Prop :=
  ∀ i b, some b ∈ s.mem.cells (s.dev.entryAt i).buffptr → ∃ c ∈ cs, c.Supplies b

theorem some_mem_entryBytes {m : Kmem} {e : BufferEntry} {b : UInt8}
    (h : some b ∈ m.entryBytes e) : some b ∈ m.cells e.buffptr := by
  simp only [Kmem.entryBytes, Kmem.load, resize, List.drop_zero, List.mem_append,
    List.mem_replicate, reduceCtorEq, and_false, or_false] at h
  exact List.mem_of_mem_take h

theorem Grown.some_mem {m m' : Kmem} {e e' : BufferEntry} {data : List UInt8} {h' : Heap Cell}
    (hg : Grown m e (data.map some) e' h') (hm : m'.heap = h') {b : UInt8}
    (hb : some b ∈ m'.cells e'.buffptr) : some b ∈ m.cells e.buffptr ∨ b ∈ data := by
  cases hg with
  | empty h => simp [Kmem.cells] at hb
  | block c hpos hc hlt =>
    simp only [Kmem.cells, hm, Heap.block_put_self, List.mem_append, List.mem_map,
      Option.some.injEq, exists_eq_right] at hb
    exact hb.imp_left some_mem_entryBytes

theorem FromUser.step {cs : List Call} {s : State} (hs : Valid s) (h : FromUser cs s) (c : Call) :
    FromUser (cs ++ [c]) (s.step c) := by
  have hold : ∀ {b}, (∃ d ∈ cs, d.Supplies b) → ∃ d ∈ cs ++ [c], d.Supplies b :=
    fun ⟨d, hd, hb⟩ => ⟨d, by simp [hd], hb⟩
  cases c with
  | read env count fPos =>
    rw [State.step, aesdRead_state hs.unlocked]
    exact fun i b hb => hold (h i b hb)
  | write env buf fPos =>
    have heff := (aesdWrite_effect env hs.toReady buf fPos).2
    rw [State.step]
    generalize (aesdWrite env s buf fPos).retval = ret, (aesdWrite env s buf fPos).state = s' at heff
    have hnew : ∀ {e : BufferEntry} {h' : Heap Cell},
        Grown s.mem s.dev.entry (buf.stored.map some) e h' → ∀ {b},
        some b ∈ (memAfter env s buf h').cells e.buffptr →
        ∃ d ∈ cs ++ [.write env buf fPos], d.Supplies b := by
      intro e h' hg b hb
      rcases hg.some_mem rfl hb with hb | hb
      · exact hold (h none b hb)
      · exact ⟨.write env buf fPos, by simp, (cutAfter_isPrefix _).subset hb⟩
    have hring : ∀ {e : BufferEntry} {h' : Heap Cell},
        Grown s.mem s.dev.entry (buf.stored.map some) e h' → ∀ i {b},
        some b ∈ (memAfter env s buf h').cells (s.dev.buffer.entry i).buffptr →
        ∃ d ∈ cs ++ [.write env buf fPos], d.Supplies b := by
      intro e h' hg i b hb
      refine hold (h (some i) b ?_)
      cases hp : (s.dev.buffer.entry i).buffptr with
      | null | zeroSize => simp [hp, Kmem.cells] at hb
      | block c =>
        have hne : s.dev.entry.buffptr ≠ .block c := fun he => by
          cases hs.distinct none (some i) c he hp
        simp only [hp, Kmem.cells, heap_memAfter,
          (hg.frame (hs.live (i := some i) hp) hne).2.1] at hb
        simpa [AesdDev.entryAt, hp, Kmem.cells] using hb
    intro i b hb
    cases heff with
    | refused ret hret ho => exact hold (h i b hb)
    | lost ho hpos =>
      cases i with
      | none => simp [AesdDev.entryAt, Kmem.cells] at hb
      | some i => exact hold (h (some i) b hb)
    | pending ho hf hg =>
      cases i with
      | none => exact hnew hg hb
      | some i => exact hring hg i hb
    | completed ho hf hg =>
      cases i with
      | none => simp [AesdDev.entryAt, BufferEntry.zero, Kmem.cells] at hb
      | some i =>
        simp only [AesdDev.entryAt, aesdCircularBufferAddEntry, Function.update_apply] at hb
        split_ifs at hb
        · exact hnew hg hb
        · exact hring hg i hb

theorem run_fromUser (cs : List Call) : FromUser cs (run State.step .initial cs) := by
  have h := invariant_trace State.step (I := fun cs s => Valid s ∧ FromUser cs s) (s := .initial)
    ⟨initial_valid, fun i b hb => by cases i <;> simp [AesdDev.entryAt, State.initial,
      aesdDeviceZero, aesdCircularBufferInit, BufferEntry.zero, Kmem.cells] at hb⟩
    (fun cs s c h _ => ⟨h.1.step c, h.2.step h.1 c⟩) (along_true _ cs)
  exact h.2

/-- The content consists of cells of the ring entries. -/
theorem Valid.mem_content {s : State} (hs : Valid s) {x : Cell} (hx : x ∈ s.content) :
    ∃ i, x ∈ s.mem.cells (s.dev.entryAt (some i)).buffptr := by
  simp only [State.content, List.mem_flatten, List.mem_map, window] at hx
  obtain ⟨_, ⟨_, ⟨j, -, rfl⟩, rfl⟩, hx⟩ := hx
  exact ⟨_, by rwa [(hs.slots _).entryBytes] at hx⟩

/-- Sizes are exact throughout a run exactly when no `krealloc` fails while
the pending entry holds bytes, and then whatever a read delivers, even one that
fails half way, has been handed to an earlier write. -/
theorem only_user_bytes (cs : List Call) :
    (Always State.step Exact .initial cs ↔ Along State.step KeepsPending .initial cs) ∧
      (Along State.step KeepsPending .initial cs → ∀ env count fPos,
        ∀ x ∈ (aesdRead env (run State.step .initial cs) count fPos).copied,
          ∃ b, x = some b ∧ ∃ c ∈ cs, c.Supplies b) := by
  have hiff : Always State.step Exact .initial cs ↔ Along State.step KeepsPending .initial cs := by
    refine always_iff_along (J := Valid) (fun s c h => h.step c)
      (fun s c h hex => exact_step_iff h hex c) initial_valid ?_ cs
    intro i
    cases i <;> rfl
  refine ⟨hiff, fun hkeep env count fPos x hx => ?_⟩
  have hs := run_valid cs
  have hex := (hiff.mpr hkeep).last
  have hcontent : x ∈ (run State.step .initial cs).content := by
    rcases hs.read env count fPos with ⟨-, -, hpre, -⟩ | ⟨-, -, heq⟩
    · exact List.mem_of_mem_drop (List.mem_of_mem_take (hpre.subset hx))
    · exact List.mem_of_mem_drop (List.mem_of_mem_take (heq ▸ hx))
  obtain ⟨i, hi⟩ := hs.mem_content hcontent
  have hsome := (hs.slots i).exact_iff.mp (hex (some i)) x hi
  obtain ⟨b, rfl⟩ := Option.isSome_iff_exists.mp hsome
  exact ⟨b, rfl, run_fromUser cs (some i) b hi⟩

/-- A pending byte, a failed `krealloc`, and a write that ends the line: the
pending size is one with nothing written, and then the line starts with a byte
that nobody has written. -/
theorem only_user_bytes_fails :
    (¬ ∀ cs, Always State.step Exact .initial cs) ∧
      ¬ ∀ cs env count fPos,
        none ∉ (aesdRead env (run State.step .initial cs) count fPos).copied := by
  constructor
  · intro h
    have hlast := (h [.write (.ok 1 0) ⟨[97], by decide⟩ 0,
      .write ⟨true, some 1, 0, none⟩ ⟨[98], by decide⟩ 0]).last
    revert hlast
    unfold Exact
    decide
  · intro h
    have hread := h [.write (.ok 1 0) ⟨[97], by decide⟩ 0,
      .write ⟨true, some 1, 0, none⟩ ⟨[98], by decide⟩ 0,
      .write (.ok 1 2) ⟨[newline], by decide⟩ 0] ⟨true, 0⟩ 10 0
    revert hread
    decide

end Aesd.Driver
