import Mathlib.Data.List.Nodup
import Mathlib.Logic.Function.Basic

/-! The doubly linked lists of `queue.h`. An element holds the next one and the
address of the link that points to it, which is the list head or the next-field of
another element. Elements are named by numbers that are used for one allocation
only; a freed element is no longer there, and looking it up is recorded as a
fault. -/

namespace Aesd.Server

/-- The address of a link: `&LIST_FIRST(head)` or `&LIST_NEXT(n)`. -/
inductive Link where
  | first
  | next (n : ℕ)
  deriving DecidableEq

/-- An element: what the list is for, and its `LIST_ENTRY`. -/
structure ListNode (α : Type*) where
  data : α
  leNext : Option ℕ
  lePrev : Link

/-- `LIST_HEAD` and the elements in memory. -/
structure ListMem (α : Type*) where
  lhFirst : Option ℕ
  nodes : ℕ → Option (ListNode α)
  fault : Bool

namespace ListMem

variable {α : Type*}

/-- `LIST_INIT`, before anything is allocated. -/
def initial : ListMem α := ⟨none, fun _ => none, false⟩

/-- A new element; its links are not initialised. -/
def malloc (m : ListMem α) (n : ℕ) (data : α) : ListMem α :=
  { m with nodes := Function.update m.nodes n (some ⟨data, none, .first⟩) }

def free (m : ListMem α) (n : ℕ) : ListMem α :=
  match m.nodes n with
  | none => { m with fault := true }
  | some _ => { m with nodes := Function.update m.nodes n none }

/-- A store into a field of element `n`. -/
def modify (m : ListMem α) (n : ℕ) (f : ListNode α → ListNode α) : ListMem α :=
  match m.nodes n with
  | none => { m with fault := true }
  | some d => { m with nodes := Function.update m.nodes n (some (f d)) }

/-- A store through the address of a link. -/
def assign (m : ListMem α) (link : Link) (target : Option ℕ) : ListMem α :=
  match link with
  | .first => { m with lhFirst := target }
  | .next n => m.modify n fun d => { d with leNext := target }

/-- `LIST_INSERT_HEAD`. -/
def listInsertHead (m : ListMem α) (n : ℕ) : ListMem α :=
  let first := m.lhFirst
  let m := m.modify n fun d => { d with leNext := first }
  let m := match first with
    | none => m
    | some k => m.modify k fun d => { d with lePrev := .next n }
  let m := { m with lhFirst := some n }
  m.modify n fun d => { d with lePrev := .first }

/-- `LIST_REMOVE`. The element keeps its own links. -/
def listRemove (m : ListMem α) (n : ℕ) : ListMem α :=
  match m.nodes n with
  | none => { m with fault := true }
  | some d =>
    let m := match d.leNext with
      | none => m
      | some k => m.modify k fun e => { e with lePrev := d.lePrev }
    m.assign d.lePrev d.leNext

/-! ### Lists -/

/-- The address of the link behind the elements `l`. -/
def linkAfter (l : List ℕ) : Link :=
  match l.getLast? with
  | none => .first
  | some n => .next n

/-- Memory holds the list `l`: all links, forward and back, are those of `l`. -/
structure Holds (m : ListMem α) (l : List ℕ) : Prop where
  nodup : l.Nodup
  first : m.lhFirst = l.head?
  node : ∀ l₁ n l₂, l = l₁ ++ n :: l₂ →
    ∃ d, m.nodes n = some d ∧ d.leNext = l₂.head? ∧ d.lePrev = linkAfter l₁

variable {m : ListMem α} {n : ℕ} {l : List ℕ}

theorem holds_initial : (initial : ListMem α).Holds [] :=
  ⟨List.nodup_nil, rfl, fun l₁ n l₂ h => by simp at h⟩

@[simp] theorem linkAfter_concat (l : List ℕ) (n : ℕ) : linkAfter (l ++ [n]) = .next n := by
  simp [linkAfter]

/-- Only the last element counts. -/
theorem linkAfter_append (l : List ℕ) {l' : List ℕ} (h : l' ≠ []) :
    linkAfter (l ++ l') = linkAfter l' := by
  simp [linkAfter, List.getLast?_append_of_ne_nil _ h]

theorem Holds.present (h : m.Holds l) (hn : n ∈ l) : ∃ d, m.nodes n = some d := by
  obtain ⟨l₁, l₂, rfl⟩ := List.append_of_mem hn
  obtain ⟨d, hd, -⟩ := h.node l₁ n l₂ rfl
  exact ⟨d, hd⟩

/-- A list is held as long as its elements and the head stay. -/
theorem Holds.congr (h : m.Holds l) {m' : ListMem α} (hfirst : m'.lhFirst = m.lhFirst)
    (hnodes : ∀ n ∈ l, m'.nodes n = m.nodes n) : m'.Holds l := by
  refine ⟨h.nodup, hfirst.trans h.first, fun l₁ n l₂ hl => ?_⟩
  rw [hnodes n (by simp [hl])]
  exact h.node l₁ n l₂ hl

/-! ### Memory -/

theorem Holds.malloc (h : m.Holds l) (hn : n ∉ l) (data : α) : (m.malloc n data).Holds l :=
  h.congr rfl fun _ hk => Function.update_of_ne (ne_of_mem_of_not_mem hk hn) _ _

theorem free_of_some {d : ListNode α} (hd : m.nodes n = some d) :
    m.free n = { m with nodes := Function.update m.nodes n none } := by
  rw [ListMem.free, hd]

theorem Holds.free (h : m.Holds l) (hn : n ∉ l) : (m.free n).Holds l := by
  cases hd : m.nodes n with
  | none => exact h.congr (by rw [ListMem.free, hd]) fun _ _ => by rw [ListMem.free, hd]
  | some d =>
    rw [free_of_some hd]
    exact h.congr rfl fun _ hk => Function.update_of_ne (ne_of_mem_of_not_mem hk hn) _ _

theorem modify_of_some {d : ListNode α} (hd : m.nodes n = some d) (f : ListNode α → ListNode α) :
    m.modify n f = { m with nodes := Function.update m.nodes n (some (f d)) } := by
  rw [modify, hd]

/-- What the elements are for does not change with their links. -/
theorem data_modify (m : ListMem α) (n : ℕ) {f : ListNode α → ListNode α}
    (hf : ∀ d, (f d).data = d.data) (k : ℕ) :
    ((m.modify n f).nodes k).map ListNode.data = (m.nodes k).map ListNode.data := by
  cases hd : m.nodes n with
  | none => rw [modify, hd]
  | some d =>
    rw [modify_of_some hd]
    by_cases hk : k = n
    · subst hk
      simp [hd, hf]
    · simp [Function.update_of_ne hk]

theorem data_listInsertHead (m : ListMem α) (n k : ℕ) :
    ((m.listInsertHead n).nodes k).map ListNode.data = (m.nodes k).map ListNode.data := by
  unfold listInsertHead
  cases m.lhFirst <;> simp [data_modify]

theorem data_listRemove (m : ListMem α) (n k : ℕ) :
    ((m.listRemove n).nodes k).map ListNode.data = (m.nodes k).map ListNode.data := by
  unfold listRemove
  cases m.nodes n with
  | none => rfl
  | some d =>
    obtain ⟨data, next, prev⟩ := d
    cases next <;> cases prev <;> simp [assign, data_modify]

/-! ### Inserting and removing -/

/-- What `LIST_INSERT_HEAD` leaves in memory. -/
theorem Holds.listInsertHead_eq (h : m.Holds l) {d : ListNode α} (hd : m.nodes n = some d)
    (hn : n ∉ l) :
    (m.listInsertHead n).lhFirst = some n ∧ (m.listInsertHead n).fault = m.fault ∧
      (m.listInsertHead n).nodes n = some ⟨d.data, l.head?, .first⟩ ∧
      (∀ k l', l = k :: l' → ∃ e, m.nodes k = some e ∧
        (m.listInsertHead n).nodes k = some { e with lePrev := .next n }) ∧
      ∀ k, k ≠ n → some k ≠ l.head? → (m.listInsertHead n).nodes k = m.nodes k := by
  simp only [ListMem.listInsertHead, modify_of_some hd, h.first]
  cases l with
  | nil =>
    simp only [List.head?_nil]
    rw [modify_of_some (d := { d with leNext := none }) (Function.update_self ..)]
    simp only [Function.update_idem]
    exact ⟨trivial, trivial, Function.update_self .., by simp, fun k hk _ => Function.update_of_ne hk _ _⟩
  | cons j l' =>
    obtain ⟨e, he, -⟩ := h.node [] j l' rfl
    have hj : j ≠ n := fun hjn => hn (by simp [hjn])
    simp only [List.head?_cons]
    rw [modify_of_some (n := j) (d := e) (by simpa [Function.update_of_ne hj] using he)]
    rw [modify_of_some (n := n) (d := { d with leNext := some j })
      (by simp [Function.update_of_ne hj.symm])]
    refine ⟨rfl, rfl, Function.update_self .., fun k l'' hk => ?_, fun k hk hkj => ?_⟩
    · obtain ⟨rfl, -⟩ := List.cons.inj hk
      exact ⟨e, he, by simp [Function.update_of_ne hj]⟩
    · have hkj' : k ≠ j := fun hk => hkj (by rw [hk])
      simp [Function.update_of_ne hk, Function.update_of_ne hkj']

/-- `LIST_INSERT_HEAD` puts the element in front. -/
theorem Holds.listInsertHead (h : m.Holds l) {d : ListNode α} (hd : m.nodes n = some d)
    (hn : n ∉ l) : (m.listInsertHead n).Holds (n :: l) := by
  obtain ⟨hfirst, -, hnode, hhead, hother⟩ := h.listInsertHead_eq hd hn
  refine ⟨List.nodup_cons.mpr ⟨hn, h.nodup⟩, hfirst, fun l₁ k l₂ hl => ?_⟩
  cases l₁ with
  | nil =>
    obtain ⟨rfl, rfl⟩ := List.cons.inj hl
    exact ⟨_, hnode, rfl, rfl⟩
  | cons a l₁ =>
    obtain ⟨rfl, htl⟩ := List.cons.inj hl
    replace htl : l = l₁ ++ k :: l₂ := htl
    clear hl
    obtain ⟨e, he, hnext, hprev⟩ := h.node l₁ k l₂ htl
    cases l₁ with
    | nil =>
      -- the old first element gets a new back link
      obtain ⟨e', he', hk⟩ := hhead k l₂ htl
      obtain rfl : e' = e := Option.some.inj (he'.symm.trans he)
      exact ⟨_, hk, hnext, rfl⟩
    | cons b l₁ =>
      have hkn : k ≠ n := fun he => hn (by simp [htl, he])
      have hkb : some k ≠ l.head? := by
        have hnd := h.nodup
        rw [htl] at hnd ⊢
        intro hkb
        obtain rfl : k = b := by simpa using hkb
        simp at hnd
      rw [hother k hkn hkb]
      exact ⟨e, he, hnext, hprev⟩

/-- The element behind `n` gets the back link of `n`. -/
theorem Holds.relink {l₁ l₂ : List ℕ} (h : m.Holds (l₁ ++ n :: l₂)) :
    let m' := match l₂.head? with
      | none => m
      | some k => m.modify k fun e => { e with lePrev := linkAfter l₁ }
    m'.lhFirst = m.lhFirst ∧ m'.fault = m.fault ∧
      (∀ k l', l₂ = k :: l' → ∃ e, m.nodes k = some e ∧
        m'.nodes k = some { e with lePrev := linkAfter l₁ }) ∧
      ∀ k, some k ≠ l₂.head? → m'.nodes k = m.nodes k := by
  cases l₂ with
  | nil => exact ⟨rfl, rfl, by simp, fun k _ => rfl⟩
  | cons k l' =>
    obtain ⟨e, he, -⟩ := h.node (l₁ ++ [n]) k l' (by simp)
    simp only [List.head?_cons, modify_of_some he]
    refine ⟨trivial, trivial, fun j l'' hj => ?_, fun j hj => ?_⟩
    · obtain ⟨rfl, -⟩ := List.cons.inj hj
      exact ⟨e, he, Function.update_self ..⟩
    · exact Function.update_of_ne (fun hjk => hj (by rw [hjk])) _ _

/-- What `LIST_REMOVE` leaves in memory. -/
theorem Holds.listRemove_eq {l₁ l₂ : List ℕ} (h : m.Holds (l₁ ++ n :: l₂)) :
    (m.listRemove n).lhFirst = (l₁ ++ l₂).head? ∧ (m.listRemove n).fault = m.fault ∧
      (∀ k l', l₁ = l' ++ [k] → ∃ e, m.nodes k = some e ∧
        (m.listRemove n).nodes k = some { e with leNext := l₂.head? }) ∧
      (∀ k l', l₂ = k :: l' → ∃ e, m.nodes k = some e ∧
        (m.listRemove n).nodes k = some { e with lePrev := linkAfter l₁ }) ∧
      ∀ k, some k ≠ l₁.getLast? → some k ≠ l₂.head? → (m.listRemove n).nodes k = m.nodes k := by
  obtain ⟨d, hd, hnext, hprev⟩ := h.node l₁ n l₂ rfl
  obtain ⟨hfirst, hfault, hhead, hother⟩ := h.relink
  simp only [ListMem.listRemove, hd, hnext, hprev]
  set m' : ListMem α := match l₂.head? with
    | none => m
    | some k => m.modify k fun e => { e with lePrev := linkAfter l₁ }
  rcases List.eq_nil_or_concat' l₁ with rfl | ⟨l', p, rfl⟩
  · exact ⟨rfl, hfault, by simp, hhead, fun k _ hk => hother k hk⟩
  · have hp : some p ≠ l₂.head? := by
      have hnd := h.nodup
      intro hp
      obtain ⟨l'', rfl⟩ := List.head?_eq_some_iff.mp hp.symm
      simp [List.nodup_append] at hnd
    obtain ⟨e, he, -⟩ := h.node l' p (n :: l₂) (by simp)
    rw [linkAfter_concat, assign, modify_of_some (d := e) ((hother p hp).trans he)]
    refine ⟨?_, hfault, fun k l'' hk => ?_, fun k l'' hk => ?_, fun k hkp hk => ?_⟩
    · rw [hfirst, h.first]
      simp
    · obtain ⟨-, rfl⟩ : l' = l'' ∧ p = k := by simpa using hk
      exact ⟨e, he, Function.update_self ..⟩
    · obtain ⟨e', he', hk'⟩ := hhead k l'' hk
      have hkp : k ≠ p := fun hkp => hp (by simp [hk, hkp])
      exact ⟨e', he', (Function.update_of_ne hkp _ _).trans (by simpa using hk')⟩
    · have hne : k ≠ p := fun hne => hkp (by simp [hne])
      exact (Function.update_of_ne hne _ _).trans (hother k hk)

/-- `LIST_REMOVE` takes out the element. -/
theorem Holds.listRemove {l₁ l₂ : List ℕ} (h : m.Holds (l₁ ++ n :: l₂)) :
    (m.listRemove n).Holds (l₁ ++ l₂) := by
  obtain ⟨hfirst, -, hlast, hhead, hother⟩ := h.listRemove_eq
  have hnd := h.nodup
  refine ⟨hnd.sublist (by simp), hfirst, fun a k b hl => ?_⟩
  have hsplit : (∃ c, a = l₁ ++ c ∧ l₂ = c ++ k :: b) ∨ ∃ c, l₁ = a ++ k :: c ∧ b = c ++ l₂ := by
    rcases List.append_eq_append_iff.mp hl with hc | ⟨c, hl₁, hc⟩
    · exact .inl hc
    · cases c with
      | nil => exact .inl ⟨[], by simpa using hl₁.symm, hc.symm⟩
      | cons x c =>
        obtain ⟨rfl, rfl⟩ := List.cons.inj hc
        exact .inr ⟨c, hl₁, rfl⟩
  rcases hsplit with ⟨c, rfl, rfl⟩ | ⟨c, rfl, rfl⟩
  · -- behind the removed element
    obtain ⟨e, he, hnext, hprev⟩ := h.node (l₁ ++ n :: c) k b (by simp)
    cases c with
    | nil =>
      obtain ⟨e', he', hk⟩ := hhead k b rfl
      obtain rfl : e' = e := Option.some.inj (he'.symm.trans he)
      exact ⟨_, hk, hnext, by simp⟩
    | cons x c =>
      have hlink : linkAfter (l₁ ++ n :: x :: c) = linkAfter (l₁ ++ x :: c) := by
        rw [linkAfter_append l₁ (List.cons_ne_nil x c), List.append_cons,
          linkAfter_append _ (List.cons_ne_nil x c)]
      rw [hother k ?_ ?_]
      · exact ⟨e, he, hnext, hprev.trans hlink⟩
      · intro hk
        have := List.mem_of_getLast? hk.symm
        grind
      · grind
  · -- before it
    obtain ⟨e, he, hnext, hprev⟩ := h.node a k (c ++ n :: l₂) (by simp)
    cases c with
    | nil =>
      obtain ⟨e', he', hk⟩ := hlast k a rfl
      obtain rfl : e' = e := Option.some.inj (he'.symm.trans he)
      exact ⟨_, hk, by simp, hprev⟩
    | cons x c =>
      rw [hother k ?_ ?_]
      · exact ⟨e, he, hnext, hprev⟩
      · intro hk
        rw [List.getLast?_append_of_ne_nil _ (by simp), List.getLast?_cons_cons] at hk
        have := List.mem_of_getLast? hk.symm
        grind
      · intro hk
        have := List.mem_of_head? hk.symm
        grind

end ListMem

end Aesd.Server
