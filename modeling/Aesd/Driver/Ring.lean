import Aesd.Driver.Reading

/-! The circular buffer on its own. After any insertions into an empty buffer it
is a queue of the ten newest entries. In any state of it, not only those that
insertions lead to, the search for a position agrees with the concatenation of
the ten slots from `out_offs` on. -/

namespace Aesd.Driver

open Window

namespace CircularBuffer

/-! ### Any number of insertions -/

theorem foldl_addEntry (es : List BufferEntry) :
    let b := es.foldl aesdCircularBufferAddEntry aesdCircularBufferInit
    b.Shape es.length ∧ b.held es.length = es.rtake 10 := by
  induction es using List.reverseRecOn with
  | nil => exact ⟨shape_init, rfl⟩
  | append_singleton es e ih =>
    obtain ⟨hshape, hheld⟩ := ih
    rw [List.foldl_append, List.foldl_cons, List.foldl_nil, List.length_append, List.length_singleton]
    refine ⟨hshape.addEntry e, ?_⟩
    rw [hshape.held_addEntry, hheld]
    split_ifs with hn
    · rw [rtake_of_length_le hn.le, rtake_of_length_le (by simp; omega)]
    · rw [tail_rtake (by omega), List.rtake_concat_succ]

/-- A slot outside the window of the entries in use has never been written. -/
theorem Shape.entry_eq_zero {b : CircularBuffer} {n : ℕ} (h : b.Shape n) {i : Fin 10}
    (hi : ∀ j < min n 10, i ≠ b.outOffs + Fin.ofNat 10 j) : b.entry i = .zero := by
  by_cases hn : n < 10
  · refine h.unused i (le_of_not_gt fun hlt => hi i.val (by omega) ?_)
    rw [h.outOffs, if_pos hn, zero_add]
    exact Fin.ext (Nat.mod_eq_of_lt i.isLt).symm
  · refine absurd ?_ (hi (i - b.outOffs).val (by omega))
    rw [Fin.ofNat_val_eq_self]
    exact (add_sub_cancel b.outOffs i).symm

end CircularBuffer

/-- After `n` insertions into an empty buffer the next one goes to slot `n mod 10`,
the buffer is full from ten on, and the slots from `out_offs` on hold the last
`min(n, 10)` entries in the order of insertion; all other slots are zero. -/
theorem ring_keeps_newest (es : List BufferEntry) :
    let n := es.length
    let b := es.foldl aesdCircularBufferAddEntry aesdCircularBufferInit
    b.inOffs.val = n % 10 ∧ (b.full = true ↔ 10 ≤ n) ∧
      b.outOffs.val = (if n < 10 then 0 else n % 10) ∧
      window b.entry b.outOffs (min n 10) = es.rtake (min n 10) ∧
      ∀ i, (∀ j < min n 10, i ≠ b.outOffs + Fin.ofNat 10 j) → b.entry i = .zero := by
  intro n b
  obtain ⟨hshape, hheld⟩ := CircularBuffer.foldl_addEntry es
  refine ⟨?_, ?_, ?_, ?_, fun i hi => hshape.entry_eq_zero hi⟩
  · rw [hshape.inOffs]
    rfl
  · rw [hshape.full, decide_eq_true_iff]
  · rw [hshape.outOffs]
    split_ifs <;> rfl
  · refine hheld.trans ?_
    rcases le_total n 10 with hn | hn
    · rw [Nat.min_eq_left hn, rtake_of_length_le hn, rtake_of_length_le le_rfl]
    · rw [Nat.min_eq_right hn]

/-! ### The search, in any state -/

namespace CircularBuffer

/-- Byte `o` of slot `i` is byte `charOffset` of the slots from `out_offs` on. -/
def Locates (b : CircularBuffer) (charOffset : ℕ) (i : Fin 10) (o : ℕ) : Prop :=
  o < (b.entry i).size ∧ b.sizeBefore (i - b.outOffs).val + o = charOffset

/-- The slot that is `j` slots behind `out_offs`. -/
theorem sub_outOffs {b : CircularBuffer} {j : ℕ} (hj : j < 10) :
    (b.outOffs + Fin.ofNat 10 j - b.outOffs).val = j := by
  rw [add_sub_cancel_left]
  exact Nat.mod_eq_of_lt hj

theorem outOffs_add (b : CircularBuffer) (i : Fin 10) :
    b.outOffs + Fin.ofNat 10 (i - b.outOffs).val = i := by
  rw [Fin.ofNat_val_eq_self]
  exact add_sub_cancel b.outOffs i

/-- The sizes add up to more with every slot, so no position falls into two. -/
theorem Locates.unique {b : CircularBuffer} {charOffset o o' : ℕ} {i i' : Fin 10}
    (h : b.Locates charOffset i o) (h' : b.Locates charOffset i' o') : i' = i ∧ o' = o := by
  obtain ⟨hlt, heq⟩ := h
  obtain ⟨hlt', heq'⟩ := h'
  have hsucc := b.sizeBefore_succ (i - b.outOffs).val
  have hsucc' := b.sizeBefore_succ (i' - b.outOffs).val
  rw [outOffs_add] at hsucc hsucc'
  have hij : (i' - b.outOffs).val = (i - b.outOffs).val := by
    rcases lt_trichotomy (i' - b.outOffs).val (i - b.outOffs).val with hlt | he | hgt
    · have := b.sizeBefore_mono (Nat.add_one_le_of_lt hlt)
      omega
    · exact he
    · have := b.sizeBefore_mono (Nat.add_one_le_of_lt hgt)
      omega
  have hi : i' = i := sub_left_injective (Fin.ext hij)
  subst hi
  exact ⟨rfl, by omega⟩

section Bytes

variable {α : Type*} {b : CircularBuffer} {bytes : Fin 10 → List α}

theorem Locates.getElem? (hbytes : ∀ i, (bytes i).length = (b.entry i).size) {charOffset o : ℕ}
    {i : Fin 10} (h : b.Locates charOffset i o) :
    (bytes i)[o]? = (window bytes b.outOffs 10).flatten[charOffset]? := by
  obtain ⟨hlt, rfl⟩ := h
  rw [window_split bytes b.outOffs (i - b.outOffs).isLt, outOffs_add, List.flatten_append,
    List.flatten_cons, ← length_bytesBefore hbytes, List.getElem?_append_right (by omega),
    Nat.add_sub_cancel_left, List.getElem?_append_left (by rwa [hbytes])]

end Bytes

end CircularBuffer

/-- The search agrees with plain concatenation in every state whose sizes add up to
less than 2^64: it finds an entry exactly below the total size, and this is the one
slot and byte that the position falls on, with the byte that the concatenation has
there. Otherwise it leaves `*entry_offset_byte_rtn` alone. -/
theorem find_agrees_with_concatenation (b : CircularBuffer) (charOffset entryOffsetByteRtn : ℕ)
    (htotal : ∑ i, (b.entry i).size < 2 ^ 64) {α : Type*} (bytes : Fin 10 → List α)
    (hbytes : ∀ i, (bytes i).length = (b.entry i).size) :
    let r := aesdCircularBufferFindEntryOffsetForFpos b charOffset entryOffsetByteRtn
    (r.1 ≠ none ↔ charOffset < ∑ i, (b.entry i).size) ∧
      (∀ i, r.1 = some i → b.Locates charOffset i r.2 ∧
        (∀ i' o', b.Locates charOffset i' o' → i' = i ∧ o' = r.2) ∧
        (bytes i)[r.2]? = (window bytes b.outOffs 10).flatten[charOffset]?) ∧
      (r.1 = none → r.2 = entryOffsetByteRtn) := by
  intro r
  rw [← sizeBefore_ten] at htotal ⊢
  rcases b.find_eq charOffset entryOffsetByteRtn htotal with ⟨hge, hr⟩ | ⟨j, hj, hle, hlt, hr⟩
  · have hr' : r = (none, entryOffsetByteRtn) := hr
    rw [hr']
    refine ⟨?_, fun i hi => absurd hi (by simp), fun _ => rfl⟩
    simp [hge]
  · have hr' : r = (some (b.outOffs + Fin.ofNat 10 j), charOffset - b.sizeBefore j) := hr
    have hmono := b.sizeBefore_mono (show j + 1 ≤ 10 by omega)
    have hloc : b.Locates charOffset (b.outOffs + Fin.ofNat 10 j) (charOffset - b.sizeBefore j) := by
      rw [CircularBuffer.sizeBefore_succ] at hlt
      rw [CircularBuffer.Locates, CircularBuffer.sub_outOffs hj]
      omega
    rw [hr']
    refine ⟨?_, fun i hi => ?_, fun hn => absurd hn (by simp)⟩
    · simp
      omega
    · obtain rfl : b.outOffs + Fin.ofNat 10 j = i := Option.some.inj hi
      exact ⟨hloc, fun i' o' h' => hloc.unique h', hloc.getElem? hbytes⟩

/-- Two entries, of one byte and of two: position 2 is the last byte of the second. -/
theorem find_agrees_two_entries :
    let b := aesdCircularBufferAddEntry (aesdCircularBufferAddEntry aesdCircularBufferInit
      ⟨.block 0, 1⟩) ⟨.block 1, 2⟩
    b.Locates 2 1 1 := by
  intro b
  have h := find_agrees_with_concatenation b 2 0 (by decide)
    (fun i => List.replicate (b.entry i).size ()) (fun _ => List.length_replicate)
  have ho : (aesdCircularBufferFindEntryOffsetForFpos b 2 0).2 = 1 := by decide
  exact ho ▸ (h.2.1 1 (by decide)).1

end Aesd.Driver
