import Aesd.Driver.Reading

/-! Failing calls. Every path of `aesd_read` and `aesd_write` that returns an
error leaves the ring, the pending entry and the file position as they were and
gives the lock back, but for one: when `krealloc` fails, the pointer to the
pending block has been overwritten by its result. -/

namespace Aesd.Driver

open Run

/-- The ring and the bytes of its entries, and the size and the bytes of the
pending entry, are the same in both states. -/
structure Unchanged (s s' : State) : Prop where
  ring : s'.dev.buffer = s.dev.buffer
  ringBytes : ∀ i, s'.mem.cells (s'.dev.buffer.entry i).buffptr =
    s.mem.cells (s.dev.buffer.entry i).buffptr
  pendingSize : s'.dev.entry.size = s.dev.entry.size
  pendingBytes : s'.mem.cells s'.dev.entry.buffptr = s.mem.cells s.dev.entry.buffptr

theorem Unchanged.rfl' (s : State) : Unchanged s s := ⟨rfl, fun _ => rfl, rfl, rfl⟩

/-- Without a block there is nothing to lose by a null pointer. -/
theorem PendingOk.cells_eq_nil_iff {m : Kmem} {e : BufferEntry} (h : PendingOk m.heap e) :
    m.cells e.buffptr = [] ↔ e.buffptr.block? = none := by
  unfold PendingOk at h
  cases hp : e.buffptr with
  | null | zeroSize => simp [Kmem.cells, Ptr.block?]
  | block b =>
    rw [hp] at h
    obtain ⟨-, hlen, hpos⟩ := h
    have hne : m.heap.block b ≠ [] := List.ne_nil_of_length_pos (by omega)
    simp [Kmem.cells, Ptr.block?, hne]

theorem cells_memAfter (env : WriteEnv) (s : State) (buf : UserBuf) (p : Ptr) :
    (memAfter env s buf s.mem.heap).cells p = s.mem.cells p := by
  cases p <;> rfl

theorem Valid.unchanged_write_iff {s : State} (hs : Valid s) {env : WriteEnv} {buf : UserBuf}
    {fPos : ℕ} (hret : (aesdWrite env s buf fPos).retval < 0) :
    Unchanged s (aesdWrite env s buf fPos).state ↔
      ¬ (kreallocOutcome env s buf = some false ∧ s.dev.entry.buffptr.block? ≠ none) := by
  have heff := (aesdWrite_effect env hs.toReady buf fPos).2
  generalize (aesdWrite env s buf fPos).retval = ret, (aesdWrite env s buf fPos).state = s'
    at heff hret
  cases heff with
  | refused ret hret ho =>
    refine iff_of_true ⟨rfl, fun i => cells_memAfter .., rfl, cells_memAfter ..⟩ ?_
    simp [ho]
  | lost ho hpos =>
    rw [← not_iff_not, not_not, and_iff_right ho, Ne, ← hs.pending.cells_eq_nil_iff, not_iff_not]
    constructor
    · intro h
      exact h.pendingBytes.symm
    · intro h
      exact ⟨rfl, fun i => cells_memAfter .., rfl, h.symm⟩
  | pending ho hf hg => exact absurd hret (by simp)
  | completed ho hf hg => exact absurd hret (by simp)

/-- In every reachable state, whatever fails: a read that returns an error has
changed nothing, and a write that returns one has changed nothing exactly when
`krealloc` has not failed on an entry that owns a block. The file position and
the lock are as before in any case. -/
theorem failed_call_changes_nothing_iff (cs : List Call) :
    let s := run State.step .initial cs
    (∀ env buf fPos, (aesdWrite env s buf fPos).retval < 0 →
      (aesdWrite env s buf fPos).fPos = fPos ∧ (aesdWrite env s buf fPos).state.dev.lock = false ∧
        (Unchanged s (aesdWrite env s buf fPos).state ↔
          ¬ (kreallocOutcome env s buf = some false ∧ s.dev.entry.buffptr.block? ≠ none))) ∧
    (∀ env count fPos, (aesdRead env s count fPos).retval < 0 →
      (aesdRead env s count fPos).fPos = fPos ∧ (aesdRead env s count fPos).state.dev.lock = false ∧
        Unchanged s (aesdRead env s count fPos).state) := by
  intro s
  have hs : Valid s := run_valid cs
  refine ⟨fun env buf fPos hret => ?_, fun env count fPos hret => ?_⟩
  · have hlock : Valid (aesdWrite env s buf fPos).state := hs.step (.write env buf fPos)
    exact ⟨(aesdWrite_effect env hs.toReady buf fPos).1, hlock.unlocked, hs.unchanged_write_iff hret⟩
  · rcases hs.read env count fPos with ⟨-, hpos, -⟩ | ⟨hk, -⟩
    · rw [aesdRead_state hs.unlocked]
      exact ⟨hpos, hs.unlocked, .rfl' s⟩
    · exact absurd hret (by rw [hk]; simp)

/-- One pending byte, then a write whose `krealloc` fails: the byte is gone. -/
theorem failed_call_changes_nothing_fails :
    ¬ ∀ cs env buf fPos, (aesdWrite env (run State.step .initial cs) buf fPos).retval < 0 →
      Unchanged (run State.step .initial cs)
        (aesdWrite env (run State.step .initial cs) buf fPos).state := by
  intro h
  have hbytes := (h [.write (.ok 1 0) ⟨[97], by decide⟩ 0] ⟨true, some 1, 0, none⟩
    ⟨[98], by decide⟩ 0 (by decide)).pendingBytes
  revert hbytes
  decide

end Aesd.Driver
