import Mathlib.Algebra.Group.Fin.Basic
import Mathlib.Algebra.GroupWithZero.Nat
import Mathlib.Data.List.DropRight

/-! Cyclic windows of a finite array: `k` consecutive slots, read from a start
slot on and around the end. Overwriting the slot behind a window lengthens it;
overwriting the oldest slot of a full window and moving its start shifts it by
one. The last elements of a growing list follow the same two laws. -/

namespace Aesd.Window

variable {n : ℕ} [NeZero n] {α β : Type*}

/-- The `k` slots from `out` on. -/
def window (slots : Fin n → α) (out : Fin n) (k : ℕ) : List α :=
  (List.range k).map fun i => slots (out + Fin.ofNat n i)

@[simp] theorem window_zero (slots : Fin n → α) (out : Fin n) : window slots out 0 = [] := rfl

theorem window_succ (slots : Fin n → α) (out : Fin n) (k : ℕ) :
    window slots out (k + 1) = window slots out k ++ [slots (out + Fin.ofNat n k)] := by
  simp [window, List.range_succ]

theorem window_map (f : α → β) (slots : Fin n → α) (out : Fin n) (k : ℕ) :
    (window slots out k).map f = window (fun i => f (slots i)) out k := by
  simp [window]

theorem ofNat_succ (k : ℕ) : Fin.ofNat n (k + 1) = Fin.ofNat n k + 1 := by
  apply Fin.ext
  simp [Fin.val_add, Nat.add_mod]

theorem ofNat_injOn {i j : ℕ} (hi : i < n) (hj : j < n) (h : Fin.ofNat n i = Fin.ofNat n j) :
    i = j := by
  have := congrArg Fin.val h
  simpa [Nat.mod_eq_of_lt hi, Nat.mod_eq_of_lt hj] using this

theorem ofNat_self : Fin.ofNat n n = 0 := by
  apply Fin.ext
  simp

theorem window_succ_left (slots : Fin n → α) (out : Fin n) (k : ℕ) :
    window slots out (k + 1) = slots out :: window slots (out + 1) k := by
  simp only [window, List.range_succ_eq_map, List.map_cons, List.map_map]
  congr 1
  · congr 1
    exact Fin.ext (by simp)
  · apply List.map_congr_left
    intro i _
    simp only [Function.comp]
    rw [show i.succ = i + 1 from rfl, ofNat_succ, add_comm (Fin.ofNat n i) 1, add_assoc]

theorem ofNat_add (a b : ℕ) : Fin.ofNat n (a + b) = Fin.ofNat n a + Fin.ofNat n b := by
  apply Fin.ext
  simp [Fin.val_add, Nat.add_mod]

theorem window_add (slots : Fin n → α) (out : Fin n) (a b : ℕ) :
    window slots out (a + b) = window slots out a ++ window slots (out + Fin.ofNat n a) b := by
  induction b with
  | zero => simp
  | succ b ih =>
    rw [← Nat.add_assoc, window_succ, window_succ, ih, ofNat_add, add_assoc, List.append_assoc]

theorem window_split (slots : Fin n → α) (out : Fin n) {j k : ℕ} (hj : j < k) :
    window slots out k = window slots out j ++
      slots (out + Fin.ofNat n j) :: window slots (out + Fin.ofNat n j + 1) (k - j - 1) := by
  obtain ⟨r, rfl⟩ : ∃ r, k = j + (r + 1) := ⟨k - j - 1, by omega⟩
  rw [window_add, window_succ_left, show j + (r + 1) - j - 1 = r by omega]

/-- A slot outside the window may change. -/
theorem window_update (slots : Fin n → α) (out : Fin n) (k : ℕ) (j : Fin n) (x : α)
    (h : ∀ i < k, j ≠ out + Fin.ofNat n i) :
    window (Function.update slots j x) out k = window slots out k := by
  apply List.map_congr_left
  intro i hi
  exact Function.update_of_ne (h i (List.mem_range.mp hi)).symm x slots

theorem window_update_end (slots : Fin n → α) (out : Fin n) {k : ℕ} (hk : k < n) (x : α) :
    window (Function.update slots (out + Fin.ofNat n k) x) out (k + 1) =
      window slots out k ++ [x] := by
  rw [window_succ, Function.update_self, window_update]
  intro i hi h
  have := ofNat_injOn hk (hi.trans hk) (add_left_cancel h)
  omega

theorem window_update_oldest (slots : Fin n → α) (out : Fin n) {k : ℕ} (hk : k + 1 = n) (x : α) :
    window (Function.update slots out x) (out + 1) (k + 1) =
      (window slots out (k + 1)).tail ++ [x] := by
  have hlast : out + 1 + Fin.ofNat n k = out := by
    rw [add_assoc, add_comm 1, ← ofNat_succ, hk, ofNat_self, add_zero]
  rw [window_succ, hlast, Function.update_self, window_succ_left, List.tail_cons, window_update]
  intro i hi h
  -- only offset `k` leads from the new start back to the old one
  have he : Fin.ofNat n k = Fin.ofNat n i := add_left_cancel (hlast.trans h)
  have := ofNat_injOn (by omega) (by omega) he
  omega

/-- Every slot lies in the window of all slots. -/
theorem mem_window_full (slots : Fin n → α) (out i : Fin n) : slots i ∈ window slots out n := by
  simp only [window, List.mem_map, List.mem_range]
  refine ⟨(i - out).val, (i - out).isLt, ?_⟩
  congr 1
  rw [show Fin.ofNat n (i - out).val = i - out from Fin.ext (Nat.mod_eq_of_lt (i - out).isLt)]
  exact add_sub_cancel out i

/-! ### The last elements of a list -/

theorem rtake_of_length_le {k : ℕ} {l : List α} (h : l.length ≤ k) : l.rtake k = l := by
  simp [List.rtake, Nat.sub_eq_zero_of_le h]

theorem tail_rtake {k : ℕ} {l : List α} (h : k < l.length) :
    (l.rtake (k + 1)).tail = l.rtake k := by
  simp only [List.rtake, List.tail_drop]
  congr 1
  omega

theorem map_rtake (f : α → β) (k : ℕ) (l : List α) : (l.rtake k).map f = (l.map f).rtake k := by
  simp [List.rtake]

theorem rtake_append_of_le_length {l r : List α} {k : ℕ} (h : k ≤ r.length) :
    (l ++ r).rtake k = r.rtake k := by
  rw [List.rtake, List.rtake, List.length_append,
    show l.length + r.length - k = l.length + (r.length - k) by omega, List.drop_append,
    List.drop_eq_nil_of_le (by omega), List.nil_append, Nat.add_sub_cancel_left]

theorem suffix_rtake_append {l r : List α} {k : ℕ} (h : r.length ≤ k) : r <:+ (l ++ r).rtake k := by
  rw [List.rtake, List.drop_append_of_le_length (by rw [List.length_append]; omega)]
  exact List.suffix_append _ _

end Aesd.Window
