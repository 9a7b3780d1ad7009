import Aesd.Driver.Ownership
import Mathlib.Algebra.BigOperators.Fin

/-! What `aesd_read` delivers. The content of the device is the concatenation
of its ring entries from `out_offs` on; the pending entry is not part of it. A
read at a position delivers the bytes there, up to the end of the entry it
falls into, and moves the position by as much. -/

namespace Aesd.Driver

open Window CircularBuffer

/-- The bytes of the ten ring entries, oldest first. -/
def State.content (s : State) : List Cell :=
  ((window s.dev.buffer.entry s.dev.buffer.outOffs 10).map s.mem.entryBytes).flatten

/-! ### Sizes -/

theorem EntryOk.length_cells {m : Kmem} {e : BufferEntry} (h : EntryOk m.heap e) :
    (m.cells e.buffptr).length = e.size := by
  unfold EntryOk at h
  cases hp : e.buffptr with
  | null | zeroSize => rw [hp] at h; exact h.symm
  | block b => rw [hp] at h; exact h.2.1

theorem EntryOk.entryBytes {m : Kmem} {e : BufferEntry} (h : EntryOk m.heap e) :
    m.entryBytes e = m.cells e.buffptr := by
  rw [Kmem.entryBytes, Kmem.load, List.drop_zero, resize_of_length_eq h.length_cells]

theorem sum_length_cells (m : Kmem) (ps : List Ptr) :
    (ps.map fun p => (m.cells p).length).sum =
      ((ps.filterMap Ptr.block?).map fun b => (m.heap.block b).length).sum := by
  induction ps with
  | nil => rfl
  | cons p ps ih =>
    cases p with
    | null | zeroSize =>
      rw [List.filterMap_cons_none rfl, ← ih, List.map_cons, List.sum_cons]
      exact Nat.zero_add _
    | block b => simpa [Kmem.cells, Ptr.block?] using ih

/-- The order in which the slots are walked does not matter for their sum. -/
theorem sizeBefore_ten (b : CircularBuffer) : b.sizeBefore 10 = ∑ i, (b.entry i).size := by
  have hsum : b.sizeBefore 10 = ∑ i : Fin 10, (b.entry (b.outOffs + i)).size := by
    rw [sizeBefore, window_map, window, ← List.sum_ofFn, List.ofFn_eq_map]
    rfl
  rw [hsum]
  exact Equiv.sum_comp (Equiv.addLeft b.outOffs) fun i => (b.entry i).size

/-- The ring fits into memory, so adding up its sizes does not wrap. -/
theorem Valid.sizeBefore_lt {s : State} (hs : Valid s) : s.dev.buffer.sizeBefore 10 < 2 ^ 64 := by
  have hrefs : (s.dev.refs.map fun b => (s.mem.heap.block b).length).sum ≤ s.mem.heap.bytes :=
    s.mem.heap.sum_length_le hs.distinct.nodup_refs
  have hptr := sum_length_cells s.mem (entryIndices.map fun i => (s.dev.entryAt i).buffptr)
  rw [List.filterMap_map] at hptr
  have hsum : ∑ i, (s.dev.buffer.entry i).size =
      ((List.finRange 10).map fun i => (s.mem.cells (s.dev.buffer.entry i).buffptr).length).sum := by
    rw [Fin.sum_univ_def]
    congr 1
    exact List.map_congr_left fun i _ => (hs.slots i).length_cells.symm
  have hlt := hs.bytes_lt
  rw [sizeBefore_ten, hsum]
  simp only [entryIndices, List.map_cons, List.map_map, List.sum_cons] at hptr
  simp only [AesdDev.refs, entryIndices] at hrefs
  have := hptr.le.trans hrefs
  simp only [Function.comp_def, AesdDev.entryAt] at this
  omega

theorem State.length_bytesBefore (s : State) (j : ℕ) :
    ((window s.dev.buffer.entry s.dev.buffer.outOffs j).map s.mem.entryBytes).flatten.length =
      s.dev.buffer.sizeBefore j := by
  rw [window_map]
  exact CircularBuffer.length_bytesBefore (fun i => length_entryBytes _ _) j

theorem State.length_content (s : State) : s.content.length = s.dev.buffer.sizeBefore 10 :=
  s.length_bytesBefore 10

/-- Cutting the concatenation inside one of its parts. -/
theorem take_drop_flatten {α : Type*} (ls rs : List (List α)) (x : List α) (o k : ℕ)
    (hk : o + k ≤ x.length) :
    (((ls ++ x :: rs).flatten).drop (ls.flatten.length + o)).take k = (x.drop o).take k := by
  rw [List.flatten_append, List.flatten_cons, ← List.drop_drop, List.drop_left, List.drop_append,
    List.take_append_of_le_length (by simp; omega)]

theorem State.content_take_drop (s : State) {j off k : ℕ} (hj : j < 10)
    (hoff : s.dev.buffer.sizeBefore j ≤ off) (hk : off + k ≤ s.dev.buffer.sizeBefore (j + 1)) :
    (s.content.drop off).take k =
      ((s.mem.entryBytes (s.dev.buffer.entry (s.dev.buffer.outOffs + Fin.ofNat 10 j))).drop
        (off - s.dev.buffer.sizeBefore j)).take k := by
  have hlen := s.length_bytesBefore j
  rw [sizeBefore_succ] at hk
  rw [State.content, window_split _ _ hj, List.map_append, List.map_cons,
    show off = s.dev.buffer.sizeBefore j + (off - s.dev.buffer.sizeBefore j) by omega, ← hlen,
    take_drop_flatten _ _ _ _ _ (by rw [length_entryBytes, hlen]; omega)]
  congr 2
  omega

/-! ### Reads -/

/-- The bytes left in the entry that holds the position, none behind the end. -/
def State.left (s : State) (fPos : ℕ) : ℕ :=
  match aesdCircularBufferFindEntryOffsetForFpos s.dev.buffer fPos 0 with
  | (some i, o) => (s.dev.buffer.entry i).size - o
  | (none, _) => 0

theorem Valid.left_cases {s : State} (hs : Valid s) (fPos : ℕ) :
    (s.content.length ≤ fPos ∧ s.left fPos = 0 ∧
      aesdCircularBufferFindEntryOffsetForFpos s.dev.buffer fPos 0 = (none, 0)) ∨
    ∃ j < 10, s.dev.buffer.sizeBefore j ≤ fPos ∧ fPos < s.dev.buffer.sizeBefore (j + 1) ∧
      s.left fPos = s.dev.buffer.sizeBefore (j + 1) - fPos ∧
      aesdCircularBufferFindEntryOffsetForFpos s.dev.buffer fPos 0 =
        (some (s.dev.buffer.outOffs + Fin.ofNat 10 j), fPos - s.dev.buffer.sizeBefore j) := by
  rw [State.length_content]
  rcases s.dev.buffer.find_eq fPos 0 hs.sizeBefore_lt with ⟨hge, h⟩ | ⟨j, hj, hle, hlt, h⟩
  · exact .inl ⟨hge, by rw [State.left, h], h⟩
  · refine .inr ⟨j, hj, hle, hlt, ?_, h⟩
    rw [State.left, h, sizeBefore_succ]
    dsimp only
    omega

theorem Valid.left_pos_iff {s : State} (hs : Valid s) (fPos : ℕ) :
    0 < s.left fPos ↔ fPos < s.content.length := by
  rcases hs.left_cases fPos with ⟨hge, h, -⟩ | ⟨j, hj, hle, hlt, h, -⟩
  · omega
  · have := s.dev.buffer.sizeBefore_mono (show j + 1 ≤ 10 by omega)
    rw [State.length_content]
    omega

theorem Valid.add_left_le {s : State} (hs : Valid s) {fPos : ℕ} (h : 0 < s.left fPos) :
    fPos + s.left fPos ≤ s.content.length := by
  rcases hs.left_cases fPos with ⟨-, h0, -⟩ | ⟨j, hj, hle, hlt, hl, -⟩
  · omega
  · have := s.dev.buffer.sizeBefore_mono (show j + 1 ≤ 10 by omega)
    rw [State.length_content]
    omega

/-- A read delivers the content at its position, as far as the count and the
entry allow, and moves on by as much. When it fails the position stays, and
what reached the user is a part of the same bytes. -/
theorem Valid.read {s : State} (hs : Valid s) (env : ReadEnv) (count fPos : ℕ) :
    let r := aesdRead env s count fPos
    let k := min count (s.left fPos)
    (r.retval < 0 ∧ r.fPos = fPos ∧ r.copied <+: (s.content.drop fPos).take k ∧
        (env.lock = false ∨ env.uncopied ≠ 0)) ∨
      (r.retval = k ∧ r.fPos = fPos + k ∧ r.copied = (s.content.drop fPos).take k) := by
  intro r k
  cases hl : env.lock with
  | false =>
    left
    simp [r, aesdRead, hl, erestartsys]
  | true =>
    rcases hs.left_cases fPos with ⟨hge, h0, hfind⟩ | ⟨j, hj, hle, hlt, hleft, hfind⟩
    · right
      have hk : k = 0 := by simp [k, h0]
      simp [r, aesdRead, hl, hfind, hk]
    · have hmono := s.dev.buffer.sizeBefore_mono (show j + 1 ≤ 10 by omega)
      have hten := hs.sizeBefore_lt
      have hsucc := s.dev.buffer.sizeBefore_succ j
      set e := s.dev.buffer.entry (s.dev.buffer.outOffs + Fin.ofNat 10 j) with he
      set o := fPos - s.dev.buffer.sizeBefore j with ho
      have hsize : wrap (e.size + 2 ^ 64 - o) = s.left fPos := by
        rw [wrap, show e.size + 2 ^ 64 - o = s.left fPos + 2 ^ 64 by omega, Nat.add_mod_right,
          Nat.mod_eq_of_lt (by omega)]
      have hkle : k ≤ s.left fPos := Nat.min_le_right _ _
      have hload : s.mem.load e.buffptr o k = (s.content.drop fPos).take k := by
        rw [s.content_take_drop hj hle (by omega), ← he, ← ho,
          (hs.slots _).entryBytes, Kmem.load, resize, List.length_drop, ← he,
          (hs.slots (s.dev.buffer.outOffs + Fin.ofNat 10 j)).length_cells, ← he]
        simp [show k - (e.size - o) = 0 by omega]
      have hwrap : wrap (fPos + k) = fPos + k := wrap_of_lt (by omega)
      have hr : r = if min env.uncopied k ≠ 0
          then ⟨-efault, fPos, (s.mem.load e.buffptr o k).take (k - min env.uncopied k), s⟩
          else ⟨k, fPos + k, (s.mem.load e.buffptr o k).take (k - min env.uncopied k), s⟩ := by
        have hdev : { s.dev with lock := false } = s.dev := by rw [← hs.unlocked]
        simp only [r, aesdRead, hl, Bool.true_eq_false, if_false, hfind, ← he, hsize, hdev]
        rw [show min count (s.left fPos) = k from rfl, hwrap]
      rw [hr, hload]
      split_ifs with hmiss
      · left
        refine ⟨by simp [efault], rfl, List.take_prefix _ _, .inr (by omega)⟩
      · right
        refine ⟨rfl, rfl, ?_⟩
        rw [not_not] at hmiss
        simp [hmiss]

end Aesd.Driver
