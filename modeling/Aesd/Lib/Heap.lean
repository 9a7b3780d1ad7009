import Mathlib.Algebra.BigOperators.Group.Finset.Basic
import Mathlib.Algebra.GroupWithZero.Nat
import Mathlib.Algebra.Order.BigOperators.Group.Finset
import Mathlib.Data.Finset.Basic

/-! Block memory: a finite set of live block identifiers, each block a list of
cells. A block that is not live has no cells, so a heap is determined by its
live set and the contents of its live blocks. Allocation is `put` at an
identifier that is not live; identifiers of freed blocks may come back. -/

namespace Aesd

/-- A heap with cells of type `α`. -/
@[ext] structure Heap (α : Type*) where
  live : Finset ℕ
  block : ℕ → List α
  dead : ∀ b ∉ live, block b = []

namespace Heap

variable {α : Type*}

def empty : Heap α := ⟨∅, fun _ => [], fun _ _ => rfl⟩

/-- Make `b` live with contents `xs`. -/
def put (h : Heap α) (b : ℕ) (xs : List α) : Heap α where
  live := insert b h.live
  block := Function.update h.block b xs
  dead c hc := by
    rw [Finset.mem_insert, not_or] at hc
    rw [Function.update_of_ne hc.1]
    exact h.dead c hc.2

/-- Give `b` back. -/
def free (h : Heap α) (b : ℕ) : Heap α where
  live := h.live.erase b
  block := Function.update h.block b []
  dead c hc := by
    by_cases hb : c = b
    · rw [hb, Function.update_self]
    · rw [Function.update_of_ne hb]
      exact h.dead c (fun hl => hc (Finset.mem_erase.mpr ⟨hb, hl⟩))

/-- The number of cells in use. -/
def bytes (h : Heap α) : ℕ := ∑ b ∈ h.live, (h.block b).length

@[simp] theorem live_empty : (empty : Heap α).live = ∅ := rfl

@[simp] theorem live_put (h : Heap α) (b : ℕ) (xs : List α) :
    (h.put b xs).live = insert b h.live := rfl

@[simp] theorem live_free (h : Heap α) (b : ℕ) : (h.free b).live = h.live.erase b := rfl

@[simp] theorem block_put_self (h : Heap α) (b : ℕ) (xs : List α) : (h.put b xs).block b = xs := by
  simp [put]

theorem block_put_of_ne (h : Heap α) {b c : ℕ} (hc : c ≠ b) (xs : List α) :
    (h.put b xs).block c = h.block c := by simp [put, hc]

theorem block_free_of_ne (h : Heap α) {b c : ℕ} (hc : c ≠ b) : (h.free b).block c = h.block c := by
  simp [free, hc]

@[simp] theorem put_put (h : Heap α) (b : ℕ) (xs ys : List α) : (h.put b xs).put b ys = h.put b ys := by
  ext1
  · simp
  · simp [put]

@[simp] theorem free_put (h : Heap α) (b : ℕ) (xs : List α) : (h.put b xs).free b = h.free b := by
  ext1
  · ext c; simp
  · simp [put, free]

theorem free_of_notMem (h : Heap α) {b : ℕ} (hb : b ∉ h.live) : h.free b = h := by
  ext1
  · exact Finset.erase_eq_of_notMem hb
  · rw [free, Function.update_eq_self_iff]
    exact (h.dead b hb).symm

theorem free_put_comm (h : Heap α) {b c : ℕ} (hbc : b ≠ c) (xs : List α) :
    (h.put b xs).free c = (h.free c).put b xs := by
  ext1
  · ext d
    simp only [live_free, live_put, Finset.mem_erase, Finset.mem_insert]
    constructor
    · rintro ⟨hd, rfl | hl⟩
      · exact .inl rfl
      · exact .inr ⟨hd, hl⟩
    · rintro (rfl | ⟨hd, hl⟩)
      · exact ⟨hbc, .inl rfl⟩
      · exact ⟨hd, .inr hl⟩
  · simp only [put, free]
    exact Function.update_comm hbc _ _ _

theorem length_block_le (h : Heap α) (b : ℕ) : (h.block b).length ≤ h.bytes := by
  by_cases hb : b ∈ h.live
  · exact Finset.single_le_sum (f := fun c => (h.block c).length) (fun _ _ => Nat.zero_le _) hb
  · simp [h.dead b hb]

theorem bytes_put (h : Heap α) {b : ℕ} (hb : b ∉ h.live) (xs : List α) :
    (h.put b xs).bytes = h.bytes + xs.length := by
  rw [bytes, live_put, Finset.sum_insert hb, block_put_self, add_comm]
  congr 1
  apply Finset.sum_congr rfl
  intro c hc
  have hcb : c ≠ b := fun he => hb (he ▸ hc)
  rw [block_put_of_ne h hcb]

/-- Distinct blocks together are no larger than the heap. -/
theorem sum_length_le (h : Heap α) {bs : List ℕ} (hbs : bs.Nodup) :
    (bs.map fun b => (h.block b).length).sum ≤ h.bytes := by
  rw [← List.sum_toFinset _ hbs]
  have hsub : ∑ b ∈ bs.toFinset, (h.block b).length ≤ ∑ b ∈ bs.toFinset ∪ h.live, (h.block b).length :=
    Finset.sum_le_sum_of_subset Finset.subset_union_left
  refine hsub.trans (le_of_eq (Finset.sum_subset Finset.subset_union_right ?_).symm)
  intro b _ hb
  simp [h.dead b hb]

end Heap

end Aesd
