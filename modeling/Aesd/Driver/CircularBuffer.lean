import Aesd.Lib.Window
import Aesd.Driver.Memory
import Mathlib.Algebra.BigOperators.Group.List.Basic

/-! The circular buffer of `aesd-circular-buffer.c`: ten entries, the offsets of
the next write and of the oldest entry, and a flag that tells a full buffer
from an empty one. After any number of insertions the offsets are that number
modulo ten, and the entries read from `out_offs` on are the last ten inserted.
The search for a file position walks the same ten entries and finds the one
that a plain concatenation would put at that position. -/

namespace Aesd.Driver

open Window

/-- `struct aesd_buffer_entry`. -/
structure BufferEntry where
  buffptr : Ptr
  size : ℕ
  deriving DecidableEq

/-- The offsets count modulo `AESDCHAR_MAX_WRITE_OPERATIONS_SUPPORTED`. -/
instance neZeroMaxWriteOperations : NeZero 10 := ⟨by decide⟩

/-- `struct aesd_circular_buffer`. The offsets are `uint8_t` in the source and
only ever hold values below ten. -/
structure CircularBuffer where
  entry : Fin 10 → BufferEntry
  inOffs : Fin 10
  outOffs : Fin 10
  full : Bool

/-- An entry of zero bytes, as `memset` leaves it. -/
def BufferEntry.zero : BufferEntry := ⟨.null, 0⟩

def aesdCircularBufferInit : CircularBuffer := ⟨fun _ => .zero, 0, 0, false⟩

def aesdCircularBufferAddEntry (buffer : CircularBuffer) (addEntry : BufferEntry) :
    CircularBuffer :=
  let entry := Function.update buffer.entry buffer.inOffs addEntry
  let outOffs := if buffer.full then buffer.outOffs + 1 else buffer.outOffs
  let inOffs := buffer.inOffs + 1
  ⟨entry, inOffs, outOffs, decide (inOffs = outOffs)⟩

/-- The search loop with `n` rounds left, at round `i`. -/
def findFrom (buffer : CircularBuffer) (charOffset : ℕ) : (n i currentLength : ℕ) → Option (Fin 10 × ℕ)
  | 0, _, _ => none
  | n + 1, i, currentLength =>
    let entryIndex := buffer.outOffs + Fin.ofNat 10 i
    let size := (buffer.entry entryIndex).size
    if wrap (currentLength + size) > charOffset then
      some (entryIndex, wrap (charOffset + 2 ^ 64 - currentLength))
    else findFrom buffer charOffset n (i + 1) (wrap (currentLength + size))

/-- The entry that holds `charOffset` and the new `*entry_offset_byte_rtn`. -/
def aesdCircularBufferFindEntryOffsetForFpos (buffer : CircularBuffer) (charOffset : ℕ)
    (entryOffsetByteRtn : ℕ) : Option (Fin 10) × ℕ :=
  match findFrom buffer charOffset 10 0 0 with
  | some (i, o) => (some i, o)
  | none => (none, entryOffsetByteRtn)

namespace CircularBuffer

/-! ### Insertion -/

/-- The offsets, the flag and the untouched slots after `n` insertions. -/
structure Shape (b : CircularBuffer) (n : ℕ) : Prop where
  inOffs : b.inOffs = Fin.ofNat 10 n
  full : b.full = decide (10 ≤ n)
  outOffs : b.outOffs = if n < 10 then 0 else Fin.ofNat 10 n
  unused : ∀ i : Fin 10, n ≤ i.val → b.entry i = .zero

/-- The entries in use after `n` insertions, oldest first. -/
def held (b : CircularBuffer) (n : ℕ) : List BufferEntry := window b.entry b.outOffs (min n 10)

/-- All ten slots: those in use, then untouched ones. -/
theorem Shape.window_ten {b : CircularBuffer} {n : ℕ} (h : b.Shape n) :
    window b.entry b.outOffs 10 = b.held n ++ List.replicate (10 - n) .zero := by
  by_cases hn : n < 10
  · have hout : b.outOffs = 0 := by rw [h.outOffs, if_pos hn]
    have hrest : window b.entry (b.outOffs + Fin.ofNat 10 n) (10 - n) =
        List.replicate (10 - n) .zero := by
      rw [List.eq_replicate_iff]
      refine ⟨by simp [window], fun e he => ?_⟩
      simp only [window, List.mem_map, List.mem_range] at he
      obtain ⟨j, hj, rfl⟩ := he
      refine h.unused _ ?_
      rw [hout, zero_add, ← ofNat_add, Fin.val_ofNat, Nat.mod_eq_of_lt (by omega)]
      omega
    rw [held, Nat.min_eq_left hn.le, ← hrest, ← window_add, Nat.add_sub_cancel' hn.le]
  · rw [held, Nat.min_eq_right (by omega), Nat.sub_eq_zero_of_le (by omega), List.replicate_zero,
      List.append_nil]

theorem shape_init : Shape aesdCircularBufferInit 0 where
  inOffs := rfl
  full := rfl
  outOffs := rfl
  unused _ _ := rfl

theorem Shape.inOffs_of_full {b : CircularBuffer} {n : ℕ} (h : Shape b n) (hn : 10 ≤ n) :
    b.inOffs = b.outOffs := by
  rw [h.inOffs, h.outOffs, if_neg (by omega)]

theorem Shape.addEntry {b : CircularBuffer} {n : ℕ} (h : Shape b n) (e : BufferEntry) :
    Shape (aesdCircularBufferAddEntry b e) (n + 1) := by
  have hout : (if b.full then b.outOffs + 1 else b.outOffs) =
      if n + 1 < 10 then 0 else (if n < 10 then 0 else Fin.ofNat 10 (n + 1)) := by
    rw [h.full, h.outOffs, ofNat_succ]
    by_cases hn : n < 10
    · simp [hn, show ¬ 10 ≤ n by omega]
    · simp [hn, show 10 ≤ n by omega, show ¬ n + 1 < 10 by omega]
  refine ⟨?_, ?_, ?_, ?_⟩
  · simp only [aesdCircularBufferAddEntry]
    rw [h.inOffs, ofNat_succ]
  · simp only [aesdCircularBufferAddEntry, hout, h.inOffs, ← ofNat_succ]
    rw [decide_eq_decide]
    -- while the buffer fills up, the offsets meet only at the tenth insertion
    by_cases hn : n < 10
    · simp only [hn, if_true, ite_self]
      constructor
      · intro he
        have := congrArg Fin.val he
        simp only [Fin.val_ofNat, Fin.val_zero] at this
        omega
      · intro he
        rw [show n + 1 = 10 by omega]
        rfl
    · simp [hn, show ¬ n + 1 < 10 by omega, show 10 ≤ n + 1 by omega]
  · simp only [aesdCircularBufferAddEntry, hout]
    by_cases hn : n + 1 < 10
    · simp [hn]
    · by_cases hn9 : n < 10
      · simp only [hn, hn9, if_true, if_false]
        rw [show n + 1 = 10 by omega]
        rfl
      · simp [hn, hn9]
  · intro i hi
    have hne : i ≠ b.inOffs := by
      rw [h.inOffs]
      intro he
      have := congrArg Fin.val he
      have hlt := i.isLt
      simp only [Fin.val_ofNat] at this
      omega
    simp only [aesdCircularBufferAddEntry]
    rw [Function.update_of_ne hne]
    exact h.unused i (by omega)

/-- Insertion appends, and drops the oldest entry once ten are held. -/
theorem Shape.held_addEntry {b : CircularBuffer} {n : ℕ} (h : Shape b n) (e : BufferEntry) :
    held (aesdCircularBufferAddEntry b e) (n + 1) =
      (if n < 10 then held b n else (held b n).tail) ++ [e] := by
  have hout : (aesdCircularBufferAddEntry b e).outOffs =
      if n < 10 then b.outOffs else b.outOffs + 1 := by
    simp only [aesdCircularBufferAddEntry, h.full]
    by_cases hn : n < 10
    · simp [hn]
    · simp [hn, show 10 ≤ n by omega]
  rw [held, hout]
  by_cases hn : n < 10
  · have hin : b.inOffs = b.outOffs + Fin.ofNat 10 n := by
      rw [h.inOffs, h.outOffs, if_pos hn, zero_add]
    simp only [hn, if_true, aesdCircularBufferAddEntry, hin, held,
      Nat.min_eq_left (show n + 1 ≤ 10 by omega), Nat.min_eq_left hn.le]
    exact window_update_end b.entry b.outOffs hn e
  · have hin : b.inOffs = b.outOffs := h.inOffs_of_full (by omega)
    simp only [hn, if_false, aesdCircularBufferAddEntry, hin, held,
      Nat.min_eq_right (show 10 ≤ n + 1 by omega), Nat.min_eq_right (show 10 ≤ n by omega)]
    exact window_update_oldest b.entry b.outOffs (k := 9) rfl e

/-! ### Search -/

/-- The bytes in the first `j` entries from `out_offs` on. -/
def sizeBefore (b : CircularBuffer) (j : ℕ) : ℕ :=
  ((window b.entry b.outOffs j).map BufferEntry.size).sum

theorem sizeBefore_succ (b : CircularBuffer) (j : ℕ) :
    b.sizeBefore (j + 1) = b.sizeBefore j + (b.entry (b.outOffs + Fin.ofNat 10 j)).size := by
  simp [sizeBefore, window_succ]

theorem sizeBefore_mono (b : CircularBuffer) {i j : ℕ} (h : i ≤ j) :
    b.sizeBefore i ≤ b.sizeBefore j := by
  induction j, h using Nat.le_induction with
  | base => exact le_rfl
  | succ j _ ih => rw [sizeBefore_succ]; omega

theorem length_bytesBefore {α : Type*} {b : CircularBuffer} {bytes : Fin 10 → List α}
    (hbytes : ∀ i, (bytes i).length = (b.entry i).size) (j : ℕ) :
    (window bytes b.outOffs j).flatten.length = b.sizeBefore j := by
  rw [List.length_flatten, window_map, sizeBefore, window_map]
  simp only [hbytes]

/-- From round `i` on, with the sizes of the first `i` entries added up and
none of them reaching the offset. -/
theorem findFrom_eq (b : CircularBuffer) (off n i : ℕ) (hle : b.sizeBefore i ≤ off)
    (hlt : b.sizeBefore (i + n) < 2 ^ 64) :
    (b.sizeBefore (i + n) ≤ off ∧ findFrom b off n i (b.sizeBefore i) = none) ∨
      ∃ j, i ≤ j ∧ j < i + n ∧ b.sizeBefore j ≤ off ∧ off < b.sizeBefore (j + 1) ∧
        findFrom b off n i (b.sizeBefore i) =
          some (b.outOffs + Fin.ofNat 10 j, off - b.sizeBefore j) := by
  induction n generalizing i with
  | zero => exact .inl ⟨hle, rfl⟩
  | succ n ih =>
    have hs := b.sizeBefore_succ i
    have hm : b.sizeBefore (i + 1) ≤ b.sizeBefore (i + (n + 1)) := b.sizeBefore_mono (by omega)
    simp only [findFrom]
    rw [← hs, wrap_of_lt (by omega)]
    split_ifs with h
    · refine .inr ⟨i, le_rfl, by omega, hle, h, ?_⟩
      congr 2
      rw [wrap, show off + 2 ^ 64 - b.sizeBefore i = off - b.sizeBefore i + 2 ^ 64 by omega,
        Nat.add_mod_right, Nat.mod_eq_of_lt (by omega)]
    · rw [show i + (n + 1) = i + 1 + n by omega] at hlt ⊢
      rcases ih (i + 1) (by omega) hlt with hn | ⟨j, hij, hj, hrest⟩
      · exact .inl hn
      · exact .inr ⟨j, by omega, hj, hrest⟩

/-- The search succeeds exactly below the total size, at the entry and byte
where the offset falls. -/
theorem find_eq (b : CircularBuffer) (off rtn : ℕ) (hlt : b.sizeBefore 10 < 2 ^ 64) :
    (b.sizeBefore 10 ≤ off ∧ aesdCircularBufferFindEntryOffsetForFpos b off rtn = (none, rtn)) ∨
      ∃ j < 10, b.sizeBefore j ≤ off ∧ off < b.sizeBefore (j + 1) ∧
        aesdCircularBufferFindEntryOffsetForFpos b off rtn =
          (some (b.outOffs + Fin.ofNat 10 j), off - b.sizeBefore j) := by
  have h0 : b.sizeBefore 0 = 0 := rfl
  have h := b.findFrom_eq off 10 0 (by omega) (by simpa using hlt)
  rw [h0, zero_add] at h
  simp only [aesdCircularBufferFindEntryOffsetForFpos]
  rcases h with ⟨hge, hn⟩ | ⟨j, -, hj, hle, hoff, hs⟩
  · exact .inl ⟨hge, by rw [hn]⟩
  · exact .inr ⟨j, hj, hle, hoff, by rw [hs]⟩

end CircularBuffer

end Aesd.Driver
