import Mathlib.Data.List.Infix
import Mathlib.Data.List.Flatten

/-! Splitting a stream at its terminators. A segment ends with the first
terminator it contains; what follows the last terminator is the rest. The
splitter is a fold over the stream, so a stream may be fed to it in pieces, and
the split is the only decomposition into segments and a terminator-free rest. -/

namespace Aesd.Segments

variable {α : Type*} (p : α → Bool)

/-- No terminator occurs. -/
def Free (l : List α) : Prop := ∀ a ∈ l, p a = false

/-- A terminator occurs at the end and nowhere else. -/
def IsSegment (l : List α) : Prop := ∃ u a, l = u ++ [a] ∧ Free p u ∧ p a = true

/-- The list up to and with its first terminator, all of it when it has none. -/
def cutAfter : List α → List α
  | [] => []
  | a :: l => if p a then [a] else a :: cutAfter l

/-- One element more: it closes the open segment or extends it. -/
def feed (st : List (List α) × List α) (a : α) : List (List α) × List α :=
  if p a then (st.1 ++ [st.2 ++ [a]], []) else (st.1, st.2 ++ [a])

/-- The closed segments of a stream and its rest. -/
def segments (l : List α) : List (List α) × List α := l.foldl (feed p) ([], [])

instance (l : List α) : Decidable (Free p l) := inferInstanceAs (Decidable (∀ a ∈ l, p a = false))

variable {p}

@[simp] theorem free_nil : Free p [] := by simp [Free]

theorem free_append {l r : List α} : Free p (l ++ r) ↔ Free p l ∧ Free p r := by
  simp only [Free, List.mem_append]
  exact ⟨fun h => ⟨fun a ha => h a (.inl ha), fun a ha => h a (.inr ha)⟩,
    fun h a ha => ha.elim (h.1 a) (h.2 a)⟩

theorem free_cons {a : α} {l : List α} : Free p (a :: l) ↔ p a = false ∧ Free p l := by
  simp [Free]

theorem IsSegment.ne_nil {l : List α} (h : IsSegment p l) : l ≠ [] := by
  obtain ⟨u, a, rfl, _⟩ := h
  simp

theorem isSegment_iff {l : List α} :
    IsSegment p l ↔ Free p l.dropLast ∧ l.getLast?.any p = true := by
  constructor
  · rintro ⟨u, a, rfl, hu, ha⟩
    rw [List.dropLast_concat, List.getLast?_concat, Option.any_some]
    exact ⟨hu, ha⟩
  · rintro ⟨hfree, hlast⟩
    obtain ⟨a, ha, hpa⟩ := (Option.any_eq_true p _).mp hlast
    exact ⟨l.dropLast, a, (List.dropLast_append_getLast? a ha).symm, hfree, hpa⟩

instance (l : List α) : Decidable (IsSegment p l) := decidable_of_iff _ isSegment_iff.symm

/-- Terminator-free elements before a segment lengthen it. -/
theorem IsSegment.free_append {r l : List α} (hr : Free p r) (h : IsSegment p l) :
    IsSegment p (r ++ l) := by
  obtain ⟨u, a, rfl, hu, ha⟩ := h
  exact ⟨r ++ u, a, by simp, Segments.free_append.mpr ⟨hr, hu⟩, ha⟩

/-! ### Cutting after the first terminator -/

theorem cutAfter_of_free {l : List α} (h : Free p l) : cutAfter p l = l := by
  induction l with
  | nil => rfl
  | cons a l ih =>
    obtain ⟨ha, hl⟩ := free_cons.mp h
    simp [cutAfter, ha, ih hl]

theorem isSegment_cutAfter {l : List α} (h : ¬ Free p l) : IsSegment p (cutAfter p l) := by
  induction l with
  | nil => exact absurd free_nil h
  | cons a l ih =>
    rw [free_cons] at h
    cases ha : p a with
    | true => exact ⟨[], a, by simp [cutAfter, ha], free_nil, ha⟩
    | false =>
      have hs := ih (fun hl => h ⟨ha, hl⟩)
      have := hs.free_append (r := [a]) (free_cons.mpr ⟨ha, free_nil⟩)
      simpa [cutAfter, ha] using this

theorem cutAfter_isPrefix (l : List α) : cutAfter p l <+: l := by
  induction l with
  | nil => exact List.prefix_rfl
  | cons a l ih =>
    simp only [cutAfter]
    split_ifs
    · exact ⟨l, rfl⟩
    · exact (List.prefix_cons_inj a).mpr ih

theorem cutAfter_append_of_isSegment {l : List α} (h : IsSegment p l) (r : List α) :
    cutAfter p (l ++ r) = l := by
  obtain ⟨u, a, rfl, hu, ha⟩ := h
  induction u with
  | nil => simp [cutAfter, ha]
  | cons b u ih =>
    obtain ⟨hb, hu⟩ := free_cons.mp hu
    simpa [cutAfter, hb] using ih hu

theorem cutAfter_of_isSegment {l : List α} (h : IsSegment p l) : cutAfter p l = l := by
  simpa using cutAfter_append_of_isSegment h []

/-- Nothing is cut off exactly when a terminator can only be the last element. -/
theorem cutAfter_eq_self_iff {l : List α} : cutAfter p l = l ↔ Free p l.dropLast := by
  constructor
  · intro h
    by_cases hf : Free p l
    · exact fun a ha => hf a (List.mem_of_mem_dropLast ha)
    · obtain ⟨u, a, hl, hu, _⟩ := isSegment_cutAfter hf
      rw [← h, hl, List.dropLast_concat]
      exact hu
  · intro h
    rcases List.eq_nil_or_concat l with rfl | ⟨u, a, rfl⟩
    · rfl
    · rw [List.concat_eq_append] at h ⊢
      rw [List.dropLast_concat] at h
      cases ha : p a with
      | true => exact cutAfter_of_isSegment ⟨u, a, rfl, h, ha⟩
      | false => exact cutAfter_of_free (free_append.mpr ⟨h, free_cons.mpr ⟨ha, free_nil⟩⟩)

/-! ### Feeding the splitter -/

theorem feed_free (st : List (List α) × List α) {w : List α} (h : Free p w) :
    w.foldl (feed p) st = (st.1, st.2 ++ w) := by
  induction w generalizing st with
  | nil => simp
  | cons a w ih =>
    obtain ⟨ha, hw⟩ := free_cons.mp h
    rw [List.foldl_cons, ih _ hw]
    simp [feed, ha]

theorem feed_isSegment (st : List (List α) × List α) {w : List α} (h : IsSegment p w) :
    w.foldl (feed p) st = (st.1 ++ [st.2 ++ w], []) := by
  obtain ⟨u, a, rfl, hu, ha⟩ := h
  rw [List.foldl_append, feed_free st hu]
  simp [feed, ha]

theorem segments_append (l r : List α) :
    segments p (l ++ r) = r.foldl (feed p) (segments p l) := List.foldl_append

/-- A whole number of segments followed by a free rest splits into just these. -/
theorem segments_flatten_append {ls : List (List α)} {r : List α}
    (hls : ∀ l ∈ ls, IsSegment p l) (hr : Free p r) : segments p (ls.flatten ++ r) = (ls, r) := by
  induction ls using List.reverseRecOn generalizing r with
  | nil => simpa [segments] using feed_free ([], []) hr
  | append_singleton ls l ih =>
    have hl := ih (r := []) (fun m hm => hls m (by simp [hm])) free_nil
    rw [List.append_nil] at hl
    rw [List.flatten_append, List.flatten_singleton, List.append_assoc, segments_append, hl,
      List.foldl_append, feed_isSegment _ (hls l (by simp)), feed_free _ hr]
    simp

/-- The split loses nothing, its segments are segments and its rest is free. -/
theorem segments_spec (l : List α) :
    (segments p l).1.flatten ++ (segments p l).2 = l ∧
      (∀ s ∈ (segments p l).1, IsSegment p s) ∧ Free p (segments p l).2 := by
  induction l using List.reverseRecOn with
  | nil => simp [segments]
  | append_singleton l a ih =>
    obtain ⟨hcat, hseg, hfree⟩ := ih
    rw [segments_append, List.foldl_cons, List.foldl_nil]
    cases ha : p a with
    | true =>
      have hlast : IsSegment p ((segments p l).2 ++ [a]) := ⟨_, a, rfl, hfree, ha⟩
      refine ⟨?_, ?_, ?_⟩
      · simp [feed, ha, ← List.append_assoc, hcat]
      · simp only [feed, ha, if_true, List.mem_append, List.mem_singleton]
        rintro s (hs | rfl)
        · exact hseg s hs
        · exact hlast
      · simp [feed, ha]
    | false =>
      refine ⟨?_, ?_, ?_⟩
      · simp [feed, ha, ← List.append_assoc, hcat]
      · simpa [feed, ha] using hseg
      · simpa [feed, ha, free_append, free_cons] using hfree

/-- Behind a whole number of segments a stream splits on its own. -/
theorem segments_flatten {ls : List (List α)} (hls : ∀ m ∈ ls, IsSegment p m) (r : List α) :
    segments p (ls.flatten ++ r) = (ls ++ (segments p r).1, (segments p r).2) := by
  obtain ⟨hcat, hseg, hfree⟩ := segments_spec (p := p) r
  have hall : ∀ m ∈ ls ++ (segments p r).1, IsSegment p m := by
    intro m hm
    rcases List.mem_append.mp hm with hm | hm
    · exact hls m hm
    · exact hseg m hm
  rw [← segments_flatten_append hall hfree, List.flatten_append, List.append_assoc, hcat]

theorem cutAfter_ne_nil {l : List α} (h : l ≠ []) : cutAfter p l ≠ [] := by
  cases l with
  | nil => exact absurd rfl h
  | cons a l =>
    rw [cutAfter]
    split_ifs <;> simp

theorem cutAfter_append_drop (l : List α) :
    cutAfter p l ++ l.drop (cutAfter p l).length = l :=
  List.prefix_iff_eq_append.mp (cutAfter_isPrefix l)

/-- The first segment comes off, and the rest splits on its own. -/
theorem segments_of_not_free {l : List α} (h : ¬ Free p l) :
    segments p l = (cutAfter p l :: (segments p (l.drop (cutAfter p l).length)).1,
      (segments p (l.drop (cutAfter p l).length)).2) := by
  obtain ⟨hcat, hseg, hfree⟩ := segments_spec (p := p) (l.drop (cutAfter p l).length)
  have hall : ∀ s ∈ cutAfter p l :: (segments p (l.drop (cutAfter p l).length)).1, IsSegment p s := by
    intro s hs
    rcases List.mem_cons.mp hs with rfl | hs
    · exact isSegment_cutAfter h
    · exact hseg s hs
  have hsplit := segments_flatten_append hall hfree
  rwa [List.flatten_cons, List.append_assoc, hcat, cutAfter_append_drop] at hsplit

/-! ### Pieces -/

variable (p) in
/-- The segments of a list and its unfinished rest, if there is one. -/
def pieces (l : List α) : List (List α) :=
  (segments p l).1 ++ if (segments p l).2 = [] then [] else [(segments p l).2]

@[simp] theorem pieces_nil : pieces p [] = [] := rfl

theorem pieces_of_ne_nil {l : List α} (h : l ≠ []) :
    pieces p l = cutAfter p l :: pieces p (l.drop (cutAfter p l).length) := by
  by_cases hf : Free p l
  · have hs : segments p l = ([], l) := segments_flatten_append (List.forall_mem_nil _) hf
    rw [pieces, hs, cutAfter_of_free hf, List.drop_length, pieces_nil]
    simp [h]
  · rw [pieces, pieces, segments_of_not_free hf, List.cons_append]

theorem flatten_pieces (l : List α) : (pieces p l).flatten = l := by
  conv_rhs => rw [← (segments_spec (p := p) l).1]
  rw [pieces, List.flatten_append]
  split_ifs with h
  · rw [h, List.flatten_nil]
  · rw [List.flatten_singleton]

/-- All pieces but the last are segments. -/
theorem isSegment_of_mem_dropLast_pieces {l m : List α} (h : m ∈ (pieces p l).dropLast) :
    IsSegment p m := by
  have hseg := (segments_spec (p := p) l).2.1
  rw [pieces] at h
  split_ifs at h
  · rw [List.append_nil] at h
    exact hseg m (List.mem_of_mem_dropLast h)
  · rw [List.dropLast_concat] at h
    exact hseg m h

/-! ### Reading from a position -/

/-- From position `n` of the concatenation to the end of the part it falls into. -/
def restAt : List (List α) → ℕ → List α
  | [], _ => []
  | l :: ls, n => if n < l.length then l.drop n else restAt ls (n - l.length)

theorem restAt_of_le {ls : List (List α)} {n : ℕ} (h : ls.flatten.length ≤ n) : restAt ls n = [] := by
  induction ls generalizing n with
  | nil => rfl
  | cons l ls ih =>
    rw [List.flatten_cons, List.length_append] at h
    rw [restAt, if_neg (by omega), ih (by omega)]

/-- Position `n` falls into part `j`. -/
theorem restAt_eq {ls : List (List α)} {j n : ℕ} (hle : (ls.take j).flatten.length ≤ n)
    (hlt : n < (ls.take (j + 1)).flatten.length) :
    restAt ls n = (ls.flatten.drop n).take ((ls.take (j + 1)).flatten.length - n) := by
  induction ls generalizing j n with
  | nil => simp at hlt
  | cons l ls ih =>
    rw [List.take_succ_cons, List.flatten_cons, List.length_append] at hlt ⊢
    rw [restAt, List.flatten_cons]
    cases j with
    | zero =>
      rw [List.take_zero, List.flatten_nil, List.length_nil, Nat.add_zero] at hlt ⊢
      rw [if_pos hlt, List.drop_append_of_le_length hlt.le, List.take_append_of_le_length (by simp),
        List.take_of_length_le (by simp)]
    | succ j =>
      rw [List.take_succ_cons, List.flatten_cons, List.length_append] at hle
      have hdrop : (l ++ ls.flatten).drop n = ls.flatten.drop (n - l.length) := by
        rw [List.drop_append, List.drop_of_length_le (show l.length ≤ n by omega), List.nil_append]
      rw [if_neg (by omega), ih (j := j) (by omega) (by omega), hdrop]
      congr 1
      omega

theorem restAt_map {β : Type*} (f : α → β) (ls : List (List α)) (n : ℕ) :
    restAt (ls.map (·.map f)) n = (restAt ls n).map f := by
  induction ls generalizing n with
  | nil => rfl
  | cons l ls ih =>
    simp only [List.map_cons, restAt, List.length_map, ih]
    split_ifs
    · rw [List.map_drop]
    · rfl

/-- Empty parts at the end do not count. -/
theorem restAt_append_replicate (ls : List (List α)) (k n : ℕ) :
    restAt (ls ++ List.replicate k []) n = restAt ls n := by
  induction ls generalizing n with
  | nil => exact restAt_of_le (by simp)
  | cons l ls ih => simp only [List.cons_append, restAt, ih]

end Aesd.Segments
