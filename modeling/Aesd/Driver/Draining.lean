import Aesd.Driver.Reader

/-! Reading the device to its end. A read stops at the end of the entry that
holds its position, so it takes several reads to get the whole content, but none
of them comes back empty before the end. -/

namespace Aesd.Driver

open Segments Run CircularBuffer

/-- Read with the given counts, one after the other, until a read returns 0;
`none` while no read has. -/
def drain : State → List ℕ → ℕ → Option (List Cell)
  | _, [], _ => none
  | s, count :: counts, fPos =>
    let r := aesdRead .ok s count fPos
    if r.retval = 0 then some [] else (drain r.state counts r.fPos).map (r.copied ++ ·)

/-! ### One read -/

/-- A read that meets no failure. -/
theorem Valid.read_ok {s : State} (hs : Valid s) (count fPos : ℕ) :
    let r := aesdRead .ok s count fPos
    let k := min count (s.left fPos)
    r.retval = k ∧ r.fPos = fPos + k ∧ r.copied = (s.content.drop fPos).take k ∧ r.state = s := by
  rcases hs.read .ok count fPos with ⟨-, -, -, hfail⟩ | ⟨hret, hpos, hcopied⟩
  · simp [ReadEnv.ok] at hfail
  · exact ⟨hret, hpos, hcopied, aesdRead_state hs.unlocked ..⟩

theorem Valid.min_left_eq_zero_iff {s : State} (hs : Valid s) {count : ℕ} (hc : 0 < count)
    (fPos : ℕ) : min count (s.left fPos) = 0 ↔ s.content.length ≤ fPos := by
  have := hs.left_pos_iff fPos
  omega

theorem Valid.add_min_left_le {s : State} (hs : Valid s) (count fPos : ℕ)
    (hle : fPos ≤ s.content.length) : fPos + min count (s.left fPos) ≤ s.content.length := by
  rcases Nat.eq_zero_or_pos (s.left fPos) with h0 | hpos
  · omega
  · have := hs.add_left_le hpos
    omega

/-! ### All reads -/

/-- Every read but the last one moves on, so more reads than there are bytes
left are enough. -/
theorem Valid.drain_eq {s : State} (hs : Valid s) {counts : List ℕ} (hc : ∀ c ∈ counts, 0 < c)
    {fPos : ℕ} (hle : fPos ≤ s.content.length) (hlen : s.content.length - fPos < counts.length) :
    drain s counts fPos = some (s.content.drop fPos) := by
  induction counts generalizing fPos with
  | nil => simp at hlen
  | cons count counts ih =>
    obtain ⟨hret, hpos, hcopied, hstate⟩ := hs.read_ok count fPos
    have hzero := hs.min_left_eq_zero_iff (hc count (by simp)) fPos
    have hend := hs.add_min_left_le count fPos hle
    rw [List.length_cons] at hlen
    rw [drain]
    set k := min count (s.left fPos) with hk
    rw [hret, hpos, hcopied, hstate]
    split_ifs with h0
    · rw [List.drop_of_length_le (by omega)]
    · rw [ih (fun c hm => hc c (by simp [hm])) hend (by omega), Option.map_some,
        ← List.drop_drop, List.take_append_drop]

/-- In every state that successful writes lead to, with `C` the bytes of the
ring entries, which are those of the last ten lines: a read at `p` delivers the
bytes of `C` from `p` on, as many as the count and the entry around `p` allow,
none of them only behind the end, and moves the position along. Reading from
position 0 with any positive counts ends after at most `|C|` reads that return
something, and what they return is `C`. -/
theorem draining_yields_content (cs : List Call) (h : Along State.step WriteSucceeds .initial cs) :
    let s := run State.step .initial cs
    let C := s.content
    C = ((segments isNewline (cs.flatMap Call.stored)).1.rtake 10).flatten.map some ∧
    (∀ p count, 0 < count → ∃ k : ℕ,
      let r := aesdRead .ok s count p
      r.retval = k ∧ r.copied = (C.drop p).take k ∧ r.copied.length = k ∧ r.fPos = p + k ∧
      (k = 0 ↔ C.length ≤ p) ∧
      (p < C.length → ∃ j < 10, s.dev.buffer.sizeBefore j ≤ p ∧ p < s.dev.buffer.sizeBefore (j + 1) ∧
        k = min count (s.dev.buffer.sizeBefore (j + 1) - p))) ∧
    (∀ counts : List ℕ, (∀ c ∈ counts, 0 < c) → C.length < counts.length →
      drain s counts 0 = some C) := by
  intro s C
  have hs : Valid s := run_valid cs
  refine ⟨(run_repr h).content, fun p count hcount => ?_, fun counts hc hlen => ?_⟩
  · obtain ⟨hret, hpos, hcopied, -⟩ := hs.read_ok count p
    have hzero := hs.min_left_eq_zero_iff hcount p
    refine ⟨min count (s.left p), hret, hcopied, ?_, hpos, hzero, fun hlt => ?_⟩
    · have hend := hs.add_min_left_le count p
      rw [hcopied, List.length_take, List.length_drop]
      omega
    · rcases hs.left_cases p with ⟨hge, -⟩ | ⟨j, hj, hle, hlt', hleft, -⟩
      · exact absurd hlt (not_lt.mpr hge)
      · exact ⟨j, hj, hle, hlt', by rw [hleft]⟩
  · simpa using hs.drain_eq hc (Nat.zero_le _) (by simpa using hlen)

/-- A line and an unfinished one. -/
def lineAndRest : List Call :=
  [.write (.ok 9 0) ⟨[97, 98, 99, newline], by decide⟩ 0, .write (.ok 9 1) ⟨[100], by decide⟩ 0]

theorem draining_yields_content_two_writes :
    drain (run State.step .initial lineAndRest) (List.replicate 5 3) 0 =
      some [some 97, some 98, some 99, some newline] := by
  have hcontent : (run State.step .initial lineAndRest).content =
      [some 97, some 98, some 99, some newline] := by decide
  rw [← hcontent]
  exact (draining_yields_content lineAndRest (by decide)).2.2 (List.replicate 5 3) (by decide)
    (by rw [hcontent]; decide)

end Aesd.Driver
