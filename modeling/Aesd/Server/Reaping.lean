import Aesd.Server.Process

/-! The bookkeeping of the accept loop. The connection list holds what was inserted
and not yet removed, and the reaping pass splits it into what it has kept and what
it has still to look at. A thread that has not been joined still has its
`thread_data_t`, so neither `main` nor the threads use freed memory. -/

namespace Aesd.Server

open Run

/-- The element that is not in the list although `main` refers to it. -/
def MainPc.holds : MainPc → Option ℕ
  | .insertHead n | .free _ n _ => some n
  | _ => none

/-- In the accept loop, or on the way out of it. -/
def MainPc.accepting : MainPc → Bool
  | .test .cleanup _ | .check .cleanup _ _ | .join .cleanup _ _ | .remove .cleanup _ _
  | .free .cleanup _ _ | .advance .cleanup _ _ | .closeServer | .exited => false
  | _ => true

/-- In the reaping pass. -/
def MainPc.reaping : MainPc → Bool
  | .first .reaping | .test .reaping _ | .check .reaping _ _ | .join .reaping _ _
  | .remove .reaping _ _ | .free .reaping _ _ | .advance .reaping _ _ => true
  | _ => false

/-- The places of the reaping pass, one by one. -/
inductive MainPc.Reaps : MainPc → Prop
  | first : Reaps (.first .reaping)
  | test (data : Option ℕ) : Reaps (.test .reaping data)
  | check (n : ℕ) (tvar : Option ℕ) : Reaps (.check .reaping n tvar)
  | join (n : ℕ) (tvar : Option ℕ) : Reaps (.join .reaping n tvar)
  | remove (n : ℕ) (tvar : Option ℕ) : Reaps (.remove .reaping n tvar)
  | free (n : ℕ) (tvar : Option ℕ) : Reaps (.free .reaping n tvar)
  | advance (n : ℕ) (tvar : Option ℕ) : Reaps (.advance .reaping n tvar)

theorem MainPc.reaps {pc : MainPc} (h : pc.reaping) : pc.Reaps := by
  cases pc with
  | first pass | test pass _ | check pass _ _ | join pass _ _ | remove pass _ _ | free pass _ _
  | advance pass _ _ =>
    cases pass with
    | reaping => constructor
    | cleanup => simp [MainPc.reaping] at h
  | _ => simp [MainPc.reaping] at h

/-- The elements a pass has found not complete. -/
def incomplete (visits : List (ℕ × Bool)) : List ℕ := (visits.filter fun v => !v.2).map Prod.fst

/-- A `thread_data_t` agrees with the life of its thread. -/
structure ThreadData.Ok (n : ℕ) (handler : Option Stage) (item : ThreadData) : Prop where
  complete_iff : item.threadComplete = true ↔ handler = some .flagged ∨ handler = some .ended
  thread : handler ≠ none → item.thread = some n

namespace Process

/-- The connection list is `l`, and everything `main` or a thread refers to is
there. -/
structure Books (s : Process) (l : List ℕ) : Prop where
  holds : s.list.Holds l
  no_fault : s.list.fault = false
  listed : l = s.inserted.filter fun n => n ∉ s.removed
  inserted_nodup : s.inserted.Nodup
  inserted_lt : ∀ n ∈ s.inserted, n < s.accepted
  removed_joined : ∀ n ∈ s.removed, n ∈ s.joined
  joined_nodup : s.joined.Nodup
  joined_ended : ∀ n ∈ s.joined, s.handlers n = some .ended
  joined_listed : ∀ n ∈ l, n ∈ s.joined → ∃ tvar, s.pc = .remove .reaping n tvar
  created : ∀ n, s.handlers n ≠ none → n ∈ s.inserted
  node : ∀ n, n ∈ l ∨ s.pc.holds = some n → (s.list.nodes n).map ListNode.data = some n
  item : ∀ n, n ∈ l ∨ s.pc.holds = some n → ∃ item, s.items n = some item ∧ item.Ok n (s.handlers n)

/-- Where `main` is in the list: behind `kept`, before `todo`. -/
def At (s : Process) (kept todo : List ℕ) : Prop :=
  match s.pc with
  | .loopTest | .accept | .first _ => True
  | .initConnListItem n _ | .insertHead n => n < s.accepted ∧ n ∉ s.inserted
  | .create n => n ∈ kept ++ todo ∧ s.handlers n = none
  | .test .reaping data => data = todo.head?
  | .check .reaping n tvar => ∃ rest, todo = n :: rest ∧ tvar = rest.head?
  | .join .reaping n tvar => (∃ rest, todo = n :: rest ∧ tvar = rest.head?) ∧ s.handlers n ≠ none
  | .remove .reaping n tvar => (∃ rest, todo = n :: rest ∧ tvar = rest.head?) ∧ n ∈ s.joined
  | .free .reaping n tvar => n ∈ s.removed ∧ tvar = todo.head?
  | .advance .reaping _ tvar => tvar = todo.head?
  | _ => False

/-- The pass began with the list `l₀` and has made `visits`: it has kept what it
found not complete, and the rest of `l₀` is to do. An element that is to be
removed is visited and still in the list. -/
def Swept (s : Process) (l₀ : List ℕ) (visits : List (ℕ × Bool)) (kept todo : List ℕ) : Prop :=
  match s.pc with
  | .first _ => visits = [] ∧ kept ++ todo = l₀
  | .join _ _ _ | .remove _ _ _ => kept = incomplete visits ∧ l₀ = visits.map Prod.fst ++ todo.tail
  | .loopTest => kept = incomplete visits ∧ l₀ = visits.map Prod.fst ∧ todo = []
  | _ => kept = incomplete visits ∧ l₀ = visits.map Prod.fst ++ todo

variable {cfg : Startup} {s : Process} {l kept todo : List ℕ} {n : ℕ}

/-! ### Consequences -/

theorem books_initial (cfg : Startup) : (Process.initial cfg).Books [] where
  holds := ListMem.holds_initial
  no_fault := rfl
  listed := rfl
  inserted_nodup := List.nodup_nil
  inserted_lt := by simp [initial]
  removed_joined := by simp [initial]
  joined_nodup := List.nodup_nil
  joined_ended := by simp [initial]
  joined_listed := by simp
  created := by simp [initial]
  node := by simp [initial, MainPc.holds]
  item := by simp [initial, MainPc.holds]

namespace Books

theorem mem_iff (h : s.Books l) : n ∈ l ↔ n ∈ s.inserted ∧ n ∉ s.removed := by
  rw [h.listed, List.mem_filter, decide_eq_true_iff]

theorem handlers_eq_none (h : s.Books l) (hn : n ∉ s.inserted) : s.handlers n = none := by
  by_contra hs
  exact hn (h.created n hs)

theorem removed_inserted (h : s.Books l) (hn : n ∈ s.removed) : n ∈ s.inserted :=
  h.created n (by rw [h.joined_ended n (h.removed_joined n hn)]; simp)

/-- A thread that was not joined is in the list. -/
theorem mem_of_not_joined (h : s.Books l) (hn : n ∈ s.inserted) (hj : n ∉ s.joined) : n ∈ l :=
  h.mem_iff.mpr ⟨hn, fun hr => hj (h.removed_joined n hr)⟩

theorem not_joined (h : s.Books l) (hpc : ∀ tvar, s.pc ≠ .remove .reaping n tvar) (hn : n ∈ l) :
    n ∉ s.joined := fun hj => by
  obtain ⟨tvar, hr⟩ := h.joined_listed n hn hj
  exact hpc tvar hr

/-- The `thread_data_t` behind an element of the list. -/
theorem item_eq (h : s.Books l) (hn : n ∈ l) :
    ∃ item, s.items n = some item ∧ s.item n = some (n, item) ∧ item.Ok n (s.handlers n) := by
  obtain ⟨item, hitem, hok⟩ := h.item n (.inl hn)
  obtain ⟨d, hd, hdata⟩ := Option.map_eq_some_iff.mp (h.node n (.inl hn))
  refine ⟨item, hitem, ?_, hok⟩
  rw [Process.item, hd]
  simp [hdata, hitem]

/-- A thread that has not returned still has its `thread_data_t`. -/
theorem items_of_handler (h : s.Books l) (hs : s.handlers n ≠ none)
    (he : s.handlers n ≠ some .ended) : n ∈ l ∧ n ∉ s.joined := by
  have hj : n ∉ s.joined := fun hj => he (h.joined_ended n hj)
  exact ⟨h.mem_of_not_joined (h.created n hs) hj, hj⟩

/-! ### Steps of `main` -/

/-- Only the program counter changes. -/
theorem goto (h : s.Books l) {pc : MainPc} (hholds : pc.holds = none)
    (hpc : ∀ n tvar, s.pc ≠ .remove .reaping n tvar) : { s with pc := pc }.Books l :=
  { h with
    joined_listed := fun n hn hj => absurd hj (h.not_joined (hpc n) hn)
    node := fun n hn => h.node n (.inl (hn.resolve_right (by simp [hholds])))
    item := fun n hn => h.item n (.inl (hn.resolve_right (by simp [hholds]))) }

theorem accept (h : s.Books l) (hpc : s.pc = .accept) {socks : ℕ → Option Sock} {connFd : ℕ} :
    { s with
      socks := socks
      accepted := s.accepted + 1
      pc := .initConnListItem s.accepted connFd }.Books l :=
  { h.goto (rfl : (MainPc.initConnListItem s.accepted connFd).holds = none) (by simp [hpc]) with
    inserted_lt := fun n hn => (h.inserted_lt n hn).trans (Nat.lt_succ_self _) }

/-- Both allocations succeed. -/
theorem initConnListItem (h : s.Books l) {connFd : ℕ} (hpc : s.pc = .initConnListItem n connFd)
    (hn : n ∉ s.inserted) :
    { s with
      items := Function.update s.items n (some ⟨none, false, connFd⟩)
      list := s.list.malloc n n
      pc := .insertHead n }.Books l := by
  have hnl : n ∉ l := fun hnl => hn (h.mem_iff.mp hnl).1
  have hnone : s.handlers n = none := h.handlers_eq_none hn
  have hcases : ∀ k, k ∈ l ∨ (MainPc.insertHead n).holds = some k → k ∈ l ∧ k ≠ n ∨ k = n := by
    rintro k (hk | hk)
    · exact .inl ⟨hk, ne_of_mem_of_not_mem hk hnl⟩
    · exact .inr (Option.some.inj hk).symm
  refine { h with
    holds := h.holds.malloc hnl n
    joined_listed := fun k hk hj => absurd hj (h.not_joined (by simp [hpc]) hk)
    node := fun k hk => ?_
    item := fun k hk => ?_ }
  · rcases hcases k hk with ⟨hk, hne⟩ | rfl
    · simpa [ListMem.malloc, Function.update_of_ne hne] using h.node k (.inl hk)
    · simp [ListMem.malloc]
  · rcases hcases k hk with ⟨hk, hne⟩ | rfl
    · simpa [Function.update_of_ne hne] using h.item k (.inl hk)
    · exact ⟨_, Function.update_self .., by simp [hnone], by simp [hnone]⟩

theorem insertHead (h : s.Books l) (hpc : s.pc = .insertHead n) (hlt : n < s.accepted)
    (hn : n ∉ s.inserted) :
    { s with
      list := s.list.listInsertHead n
      inserted := n :: s.inserted
      pc := .create n }.Books (n :: l) := by
  have hnl : n ∉ l := fun hnl => hn (h.mem_iff.mp hnl).1
  have hheld : s.pc.holds = some n := by rw [hpc]; rfl
  have hcases : ∀ k, k ∈ n :: l ∨ (MainPc.create n).holds = some k → k ∈ l ∨ s.pc.holds = some k := by
    rintro k (hk | hk)
    · rcases List.mem_cons.mp hk with rfl | hk
      · exact .inr hheld
      · exact .inl hk
    · cases hk
  obtain ⟨d, hd, -⟩ := Option.map_eq_some_iff.mp (h.node n (.inr hheld))
  obtain ⟨-, hfault, -⟩ := h.holds.listInsertHead_eq hd hnl
  exact { h with
    holds := h.holds.listInsertHead hd hnl
    no_fault := hfault.trans h.no_fault
    listed := by
      have hr : n ∉ s.removed := fun hr => hn (h.removed_inserted hr)
      rw [List.filter_cons_of_pos (by simpa using hr), ← h.listed]
    inserted_nodup := List.nodup_cons.mpr ⟨hn, h.inserted_nodup⟩
    inserted_lt := fun k hk => by
      rcases List.mem_cons.mp hk with rfl | hk
      · exact hlt
      · exact h.inserted_lt k hk
    joined_listed := fun k hk hj => by
      rcases List.mem_cons.mp hk with rfl | hk
      · exact absurd (h.created k (by rw [h.joined_ended k hj]; simp)) hn
      · exact absurd hj (h.not_joined (by simp [hpc]) hk)
    created := fun k hk => List.mem_cons_of_mem n (h.created k hk)
    node := fun k hk => (ListMem.data_listInsertHead ..).trans (h.node k (hcases k hk))
    item := fun k hk => h.item k (hcases k hk) }

/-- A thread starts, or moves on; it is not joined yet. -/
theorem setHandler (h : s.Books l) (hn : n ∈ l) (hnj : n ∉ s.joined) {stage : Stage}
    {item : ThreadData} (hok : item.Ok n (some stage)) :
    { s with
      items := Function.update s.items n (some item)
      handlers := Function.update s.handlers n (some stage) }.Books l := by
  refine { h with joined_ended := fun k hj => ?_, created := fun k hk => ?_, item := fun k hk => ?_ }
  · exact (Function.update_of_ne (ne_of_mem_of_not_mem hj hnj) _ _).trans (h.joined_ended k hj)
  · by_cases hkn : k = n
    · rw [hkn]
      exact (h.mem_iff.mp hn).1
    · exact h.created k ((Function.update_of_ne hkn _ _).symm.trans_ne hk)
  · dsimp only
    by_cases hkn : k = n
    · subst hkn
      rw [Function.update_self, Function.update_self]
      exact ⟨item, rfl, hok⟩
    · rw [Function.update_of_ne hkn, Function.update_of_ne hkn]
      exact h.item k hk

theorem join (h : s.Books l) {tvar : Option ℕ} (hpc : s.pc = .join .reaping n tvar) (hn : n ∈ l)
    (he : s.handlers n = some .ended) :
    { s with joined := s.joined ++ [n], pc := .remove .reaping n tvar }.Books l := by
  have hnj : n ∉ s.joined := h.not_joined (by simp [hpc]) hn
  exact { h with
    removed_joined := fun k hk => List.mem_append_left _ (h.removed_joined k hk)
    joined_nodup := by
      rw [List.nodup_append]
      exact ⟨h.joined_nodup, List.nodup_singleton n, fun a ha b hb => by
        rw [List.mem_singleton.mp hb]
        exact ne_of_mem_of_not_mem ha hnj⟩
    joined_ended := fun k hk => by
      rcases List.mem_append.mp hk with hk | hk
      · exact h.joined_ended k hk
      · rwa [List.mem_singleton.mp hk]
    joined_listed := fun k hk hj => by
      rcases List.mem_append.mp hj with hj | hj
      · exact absurd hj (h.not_joined (by simp [hpc]) hk)
      · exact ⟨tvar, by rw [List.mem_singleton.mp hj]⟩
    node := fun k hk => h.node k (.inl (hk.resolve_right (by simp [MainPc.holds])))
    item := fun k hk => h.item k (.inl (hk.resolve_right (by simp [MainPc.holds]))) }

theorem remove {rest : List ℕ} (h : s.Books (kept ++ n :: rest)) {tvar : Option ℕ}
    (hpc : s.pc = .remove .reaping n tvar) (hj : n ∈ s.joined) :
    { s with
      list := s.list.listRemove n
      removed := s.removed ++ [n]
      pc := .free .reaping n tvar }.Books (kept ++ rest) := by
  obtain ⟨-, hfault, -⟩ := h.holds.listRemove_eq
  have hsub : ∀ k, k ∈ kept ++ rest → k ∈ kept ++ n :: rest := fun k hk => by
    simp only [List.mem_append, List.mem_cons] at hk ⊢
    tauto
  have hne : ∀ k ∈ kept ++ rest, k ≠ n := by
    have hnd := h.holds.nodup
    rw [List.nodup_middle, List.nodup_cons] at hnd
    exact fun k hk => ne_of_mem_of_not_mem hk hnd.1
  have hfilter : (kept ++ n :: rest).filter (fun k => k ≠ n) = (kept ++ rest).filter (fun k => k ≠ n) := by
    simp [List.filter_append]
  have hcases : ∀ k, k ∈ kept ++ rest ∨ (MainPc.free .reaping n tvar).holds = some k →
      k ∈ kept ++ n :: rest := by
    rintro k (hk | hk)
    · exact hsub k hk
    · rw [← Option.some.inj hk]
      simp
  exact { h with
    holds := h.holds.listRemove
    no_fault := hfault.trans h.no_fault
    listed := by
      rw [← List.filter_eq_self.mpr fun k hk => decide_eq_true (hne k hk), ← hfilter, h.listed,
        List.filter_filter]
      refine List.filter_congr fun k _ => ?_
      simp [and_comm]
    removed_joined := fun k hk => by
      rcases List.mem_append.mp hk with hk | hk
      · exact h.removed_joined k hk
      · rwa [List.mem_singleton.mp hk]
    joined_listed := fun k hk hkj => by
      obtain ⟨tvar', hpc'⟩ := h.joined_listed k (hsub k hk) hkj
      rw [hpc, MainPc.remove.injEq] at hpc'
      exact absurd hpc'.2.1.symm (hne k hk)
    node := fun k hk => (ListMem.data_listRemove ..).trans (h.node k (.inl (hcases k hk)))
    item := fun k hk => h.item k (.inl (hcases k hk)) }

/-- The element is in memory with its `thread_data_t`, and not in the list. -/
theorem freeConnListItem_eq (h : s.Books l) (hn : s.pc.holds = some n) :
    s.freeConnListItem n = { s with
      items := Function.update s.items n none
      list := { s.list with nodes := Function.update s.list.nodes n none } } := by
  obtain ⟨d, hd, hdata⟩ := Option.map_eq_some_iff.mp (h.node n (.inr hn))
  obtain ⟨item, hitem, -⟩ := h.item n (.inr hn)
  simp only [freeConnListItem, freeItem, hd, hdata, hitem, ListMem.free_of_some hd]

theorem free (h : s.Books l) {tvar : Option ℕ} (hpc : s.pc = .free .reaping n tvar)
    (hr : n ∈ s.removed) : { s.freeConnListItem n with pc := .advance .reaping n tvar }.Books l := by
  have hnl : n ∉ l := fun hnl => (h.mem_iff.mp hnl).2 hr
  have hheld : s.pc.holds = some n := by rw [hpc]; rfl
  obtain ⟨d, hd, -⟩ := Option.map_eq_some_iff.mp (h.node n (.inr hheld))
  have hcases : ∀ k, k ∈ l ∨ (MainPc.advance .reaping n tvar).holds = some k → k ∈ l ∧ k ≠ n := by
    rintro k (hk | hk)
    · exact ⟨hk, ne_of_mem_of_not_mem hk hnl⟩
    · cases hk
  rw [h.freeConnListItem_eq hheld]
  refine { h with
    holds := ListMem.free_of_some hd ▸ h.holds.free hnl
    joined_listed := fun k hk hj => absurd hj (h.not_joined (by simp [hpc]) hk)
    node := fun k hk => ?_
    item := fun k hk => ?_ }
  · obtain ⟨hk, hne⟩ := hcases k hk
    simpa [Function.update_of_ne hne] using h.node k (.inl hk)
  · obtain ⟨hk, hne⟩ := hcases k hk
    simpa [Function.update_of_ne hne] using h.item k (.inl hk)

/-! ### The other steps -/

/-- The books do not depend on descriptors and on what the threads do. -/
theorem frame (h : s.Books l) (socks : ℕ → Option Sock) (sys : System ℕ) (catching : ℕ)
    (closed : List ℕ) :
    { s with socks := socks, sys := sys, catching := catching, closed := closed }.Books l :=
  { h with }

end Books

/-- What a step of a thread may change: descriptors, its `thread_complete`, and
how far it is. -/
structure ThreadFrame (s s' : Process) : Prop where
  pc : s'.pc = s.pc
  list : s'.list = s.list
  accepted : s'.accepted = s.accepted
  inserted : s'.inserted = s.inserted
  removed : s'.removed = s.removed
  joined : s'.joined = s.joined
  handlers : ∀ n, s'.handlers n = none ↔ s.handlers n = none
  ended : ∀ n, s.handlers n = some .ended → s'.handlers n = some .ended
  items : ∀ n, s'.items n = none ↔ s.items n = none
  complete : ∀ n item item', s.items n = some item → s'.items n = some item' →
    item.threadComplete → item'.threadComplete

/-- A running thread closes, opens or does something in the system, or it sets
`thread_complete`. -/
theorem threadStep_running (cfg : Startup) {t : ℕ} {item : ThreadData}
    (hs : s.handlers t = some .running) (hitem : s.items t = some item) (env : Env) :
    ((s.sys.threads t).pc = .complete ∧ s.threadStep cfg t env = { s with
      items := Function.update s.items t (some { item with threadComplete := true })
      handlers := Function.update s.handlers t (some .flagged) }) ∨
    ((s.sys.threads t).pc ≠ .complete ∧ ∃ socks sys closed,
      s.threadStep cfg t env = { s with socks := socks, sys := sys, closed := closed }) := by
  cases hpc : (s.sys.threads t).pc with
  | complete => exact .inl ⟨rfl, by simp only [threadStep, hs, hitem, hpc]⟩
  | closeConnection =>
    simp only [threadStep, hs, hitem, hpc]
    exact .inr ⟨by simp, _, _, _, rfl⟩
  | writeClose | readClose =>
    simp only [threadStep, hs, hitem, hpc]
    cases (s.sys.threads t).fd <;> exact .inr ⟨by simp, _, _, _, rfl⟩
  | _ =>
    simp only [threadStep, hs, hitem, hpc]
    exact .inr ⟨by simp, s.socks, _, s.closed, rfl⟩

/-- The thread has its `thread_data_t` as long as it runs. -/
def HasItem (s : Process) (t : ℕ) : Prop :=
  s.handlers t ≠ none → s.handlers t ≠ some .ended → ∃ item, s.items t = some item

/-- A step of a thread that has its `thread_data_t`: nothing, something with
descriptors and in the system, or the next stage. -/
theorem threadStep_cases {t : ℕ} (h : s.HasItem t) (cfg : Startup) (env : Env) :
    (∃ socks sys closed,
      s.threadStep cfg t env = { s with socks := socks, sys := sys, closed := closed }) ∨
    ∃ stage item item' stage', s.handlers t = some stage ∧ stage ≠ .ended ∧ s.items t = some item ∧
      item'.thread = item.thread ∧ item'.connectionFd = item.connectionFd ∧
      (item.threadComplete → item'.threadComplete) ∧
      (stage = .running ∧ stage' = .flagged ∧ item'.threadComplete = true ∨
        stage = .flagged ∧ stage' = .ended ∧ item' = item) ∧
      s.threadStep cfg t env = { s with
        items := Function.update s.items t (some item')
        handlers := Function.update s.handlers t (some stage') } := by
  cases hs : s.handlers t with
  | none => exact .inl ⟨s.socks, s.sys, s.closed, by rw [threadStep, hs]⟩
  | some stage =>
    by_cases he : stage = .ended
    · exact .inl ⟨s.socks, s.sys, s.closed, by rw [threadStep, hs, he]⟩
    obtain ⟨item, hitem⟩ := h (by simp [hs]) (by simpa [hs] using he)
    cases stage with
    | ended => exact absurd rfl he
    | flagged =>
      refine .inr ⟨.flagged, item, item, .ended, rfl, he, hitem, rfl, rfl, id, .inr ⟨rfl, rfl, rfl⟩, ?_⟩
      simp only [threadStep, hs, hitem]
      rw [← hitem, Function.update_eq_self]
    | running =>
      rcases threadStep_running cfg hs hitem env with ⟨-, hstep⟩ | ⟨-, hstep⟩
      · exact .inr ⟨.running, item, { item with threadComplete := true }, .flagged, rfl, he, hitem,
          rfl, rfl, fun _ => rfl, .inl ⟨rfl, rfl, rfl⟩, hstep⟩
      · exact .inl hstep

theorem threadFrame {t : ℕ} (h : s.HasItem t) (cfg : Startup) (env : Env) :
    s.ThreadFrame (s.threadStep cfg t env) := by
  rcases threadStep_cases h cfg env with ⟨socks, sys, closed, hstep⟩ |
    ⟨stage, item, item', stage', hs, he, hitem, -, -, hmono, -, hstep⟩
  · rw [hstep]
    exact ⟨rfl, rfl, rfl, rfl, rfl, rfl, fun _ => Iff.rfl, fun _ => id, fun _ => Iff.rfl,
      fun n it it' hit hit' hc => Option.some.inj (hit.symm.trans hit') ▸ hc⟩
  · rw [hstep]
    refine ⟨rfl, rfl, rfl, rfl, rfl, rfl, fun n => ?_, fun n hended => ?_, fun n => ?_,
      fun n it it' hit hit' => ?_⟩
    all_goals by_cases hn : n = t
    · simp [hn, hs]
    · simp [Function.update_of_ne hn]
    · rw [hn, hs] at hended
      exact absurd (Option.some.inj hended) he
    · simpa [Function.update_of_ne hn] using hended
    · simp [hn, hitem]
    · simp [Function.update_of_ne hn]
    · subst hn
      obtain rfl : it = item := Option.some.inj (hit.symm.trans hitem)
      obtain rfl : item' = it' := by simpa using hit'
      exact hmono
    · have hit'' : s.items n = some it' := by simpa [Function.update_of_ne hn] using hit'
      rw [Option.some.inj (hit.symm.trans hit'')]
      exact id

theorem Books.hasItem (h : s.Books l) (t : ℕ) : s.HasItem t := fun hs he => by
  obtain ⟨item, hitem, -⟩ := h.item t (.inl (h.items_of_handler hs he).1)
  exact ⟨item, hitem⟩

/-- No step of a thread uses freed memory. -/
theorem Books.threadStep (h : s.Books l) (cfg : Startup) (t : ℕ) (env : Env) :
    (s.threadStep cfg t env).Books l := by
  rcases threadStep_cases (h.hasItem t) cfg env with ⟨socks, sys, closed, hstep⟩ |
    ⟨stage, item, item', stage', hs, he, hitem, hthread, -, -, hstage, hstep⟩
  · rw [hstep]
    exact h.frame socks sys s.catching closed
  · have hne : s.handlers t ≠ none := by simp [hs]
    obtain ⟨hl, hj⟩ := h.items_of_handler hne (by simpa [hs] using he)
    obtain ⟨it, hit, hok⟩ := h.item t (.inl hl)
    obtain rfl : item = it := Option.some.inj (hitem.symm.trans hit)
    rw [hstep]
    refine h.setHandler hl hj ⟨?_, fun _ => hthread.trans (hok.thread hne)⟩
    rcases hstage with ⟨rfl, rfl, hc⟩ | ⟨rfl, rfl, rfl⟩
    · simp [hc]
    · simpa [hs] using hok.complete_iff

theorem At.congr (h : s.At kept todo) {s' : Process} (hf : s.ThreadFrame s') : s'.At kept todo := by
  unfold At at h ⊢
  rw [hf.pc, hf.accepted, hf.inserted, hf.removed, hf.joined]
  cases hpc : s.pc <;> simp_all [hf.handlers]

/-! ### All steps of `main` -/

theorem incomplete_concat_true (visits : List (ℕ × Bool)) (n : ℕ) :
    incomplete (visits ++ [(n, true)]) = incomplete visits := by
  simp [incomplete]

theorem incomplete_concat_false (visits : List (ℕ × Bool)) (n : ℕ) :
    incomplete (visits ++ [(n, false)]) = incomplete visits ++ [n] := by
  simp [incomplete]

/-- A step of the reaping pass keeps the books and moves on in the list as it
should. -/
theorem Books.reapingStep (cfg : Startup) (h : s.Books (kept ++ todo)) (hat : s.At kept todo)
    (env : MainEnv) (hreap : s.pc.reaping) :
    ∃ kept' todo', (s.mainStep cfg env).Books (kept' ++ todo') ∧
      (s.mainStep cfg env).At kept' todo' ∧
      ∀ l₀ visits, s.Swept l₀ visits kept todo →
        (s.mainStep cfg env).Swept l₀ (visits ++ s.visit (.main env)) kept' todo' := by
  rw [At] at hat
  rw [Process.visit]
  simp only [Swept]
  obtain ⟨pc, hpc, hreaps⟩ : ∃ pc, s.pc = pc ∧ pc.Reaps := ⟨_, rfl, MainPc.reaps hreap⟩
  cases hreaps with
  | first =>
    simp only [Process.mainStep, hpc]
    refine ⟨[], kept ++ todo, h.goto rfl (by simp [hpc]), h.holds.first, ?_⟩
    rintro l₀ visits ⟨rfl, rfl⟩
    exact ⟨rfl, rfl⟩
  | test data =>
    rw [hpc] at hat
    obtain rfl : data = todo.head? := hat
    cases todo with
    | nil =>
      simp only [Process.mainStep, hpc, List.head?_nil, List.append_nil]
      refine ⟨kept, [], by simpa using h.goto rfl (by simp [hpc]), trivial, ?_⟩
      rintro l₀ visits ⟨hkept, hl₀⟩
      exact ⟨hkept, hl₀, rfl⟩
    | cons n rest =>
      obtain ⟨d, hd, hnext, -⟩ := h.holds.node kept n rest rfl
      simp only [Process.mainStep, hpc, List.head?_cons, hd, List.append_nil]
      exact ⟨kept, n :: rest, h.goto rfl (by simp [hpc]), ⟨rest, rfl, hnext⟩, fun _ _ hs => hs⟩
  | check n tvar =>
    rw [hpc] at hat
    obtain ⟨rest, rfl, rfl⟩ := hat
    obtain ⟨item, hitem, heq, hok⟩ := h.item_eq (n := n) (by simp)
    simp only [Process.mainStep, hpc, heq, Option.toList_some, List.map_cons, List.map_nil]
    cases hc : item.threadComplete with
    | true =>
      have hs : s.handlers n ≠ none := by
        rcases hok.complete_iff.mp hc with hs | hs <;> simp [hs]
      refine ⟨kept, n :: rest, h.goto rfl (by simp [hpc]), ⟨⟨rest, rfl, rfl⟩, hs⟩, ?_⟩
      rintro l₀ visits ⟨rfl, rfl⟩
      simp [incomplete_concat_true]
    | false =>
      refine ⟨kept ++ [n], rest, by simpa using h.goto rfl (by simp [hpc]), rfl, ?_⟩
      rintro l₀ visits ⟨rfl, rfl⟩
      simp [incomplete_concat_false]
  | join n tvar =>
    rw [hpc] at hat
    obtain ⟨⟨rest, rfl, rfl⟩, hs⟩ := hat
    obtain ⟨item, hitem, heq, hok⟩ := h.item_eq (n := n) (by simp)
    obtain ⟨thread, threadComplete, connectionFd⟩ := item
    obtain rfl : thread = some n := hok.thread hs
    simp only [Process.mainStep, hpc, heq, List.append_nil]
    by_cases he : s.handlers n = some .ended
    · rw [if_pos he]
      exact ⟨kept, n :: rest, h.join hpc (by simp) he, ⟨⟨rest, rfl, rfl⟩, by simp⟩, fun _ _ hs => hs⟩
    · rw [if_neg he]
      refine ⟨kept, n :: rest, h, ?_, fun _ _ hs => ?_⟩
      · rw [At, hpc]
        exact ⟨⟨rest, rfl, rfl⟩, hs⟩
      · rwa [hpc]
  | remove n tvar =>
    rw [hpc] at hat
    obtain ⟨⟨rest, rfl, rfl⟩, hj⟩ := hat
    simp only [Process.mainStep, hpc, List.append_nil]
    exact ⟨kept, rest, h.remove hpc hj, ⟨by simp, rfl⟩, fun _ _ hs => hs⟩
  | free n tvar =>
    rw [hpc] at hat
    simp only [Process.mainStep, hpc, List.append_nil]
    exact ⟨kept, todo, h.free hpc hat.1, hat.2, fun _ _ hs => hs⟩
  | advance n tvar =>
    rw [hpc] at hat
    simp only [Process.mainStep, hpc, List.append_nil]
    exact ⟨kept, todo, h.goto rfl (by simp [hpc]), hat, fun _ _ hs => hs⟩

/-- Every step of `main` that stays in the accept loop keeps the books. -/
theorem Books.mainStep (h : s.Books (kept ++ todo)) (hat : s.At kept todo) (env : MainEnv)
    (hnext : (s.mainStep cfg env).pc.accepting) :
    ∃ kept' todo', (s.mainStep cfg env).Books (kept' ++ todo') ∧
      (s.mainStep cfg env).At kept' todo' := by
  by_cases hreap : s.pc.reaping
  · obtain ⟨kept', todo', hbooks, hat', -⟩ := h.reapingStep cfg hat env hreap
    exact ⟨kept', todo', hbooks, hat'⟩
  rw [At] at hat
  cases hpc : s.pc with
  | loopTest =>
    simp only [Process.mainStep, hpc]
    refine ⟨kept, todo, h.goto (by split_ifs <;> rfl) (by simp [hpc]), ?_⟩
    unfold At
    split_ifs <;> trivial
  | accept =>
    simp only [Process.mainStep, hpc]
    cases (if env.accept then s.lowestFree cfg else none) with
    | none => exact ⟨kept, todo, h.goto rfl (by simp [hpc]), trivial⟩
    | some clientSock =>
      refine ⟨kept, todo, h.accept hpc, ⟨Nat.lt_succ_self _, fun hn => ?_⟩⟩
      exact absurd (h.inserted_lt _ hn) (lt_irrefl _)
  | initConnListItem k connFd =>
    rw [hpc] at hat
    simp only [Process.mainStep, hpc]
    split_ifs
    · exact ⟨kept, todo, h.initConnListItem hpc hat.2, hat⟩
    · exact ⟨kept, todo, h.goto rfl (by simp [hpc]), trivial⟩
  | insertHead k =>
    rw [hpc] at hat
    simp only [Process.mainStep, hpc]
    exact ⟨k :: kept, todo, h.insertHead hpc hat.1 hat.2, ⟨by simp, h.handlers_eq_none hat.2⟩⟩
  | create k =>
    rw [hpc] at hat
    obtain ⟨hk, hs⟩ := hat
    obtain ⟨item, hitem, heq, hok⟩ := h.item_eq hk
    simp only [Process.mainStep, hpc, heq]
    split_ifs
    · have hok' : { item with thread := some k }.Ok k (some .running) :=
        ⟨by simpa [hs] using hok.complete_iff, fun _ => rfl⟩
      have hset := h.setHandler hk (h.not_joined (by simp [hpc]) hk) hok'
      exact ⟨kept, todo, hset.goto rfl (by simp [hpc]), trivial⟩
    · exact ⟨kept, todo, h.goto rfl (by simp [hpc]), trivial⟩
  | first pass =>
    cases pass with
    | reaping => simp [hpc, MainPc.reaping] at hreap
    | cleanup => simp [Process.mainStep, hpc, MainPc.accepting] at hnext
  | test pass _ | check pass _ _ | join pass _ _ | remove pass _ _ | free pass _ _ | advance pass _ _ =>
    cases pass with
    | reaping => simp [hpc, MainPc.reaping] at hreap
    | cleanup => simp [hpc] at hat
  | closeServer | exited => simp [hpc] at hat

/-! ### Runs -/

/-- Whatever a thread does, it touches neither the links nor `main`. -/
theorem threadStep_main (cfg : Startup) (s : Process) (t : ℕ) (env : Env) :
    (s.threadStep cfg t env).pc = s.pc ∧ (s.threadStep cfg t env).list.nodes = s.list.nodes := by
  rcases hs : s.handlers t with _ | stage
  · simp only [threadStep, hs, and_self]
  rcases hitem : s.items t with _ | item
  · cases stage <;> simp only [threadStep, hs, hitem, faulted, and_self]
  cases stage with
  | running =>
    rcases threadStep_running cfg hs hitem env with ⟨-, hstep⟩ | ⟨-, socks, sys, closed, hstep⟩ <;>
      rw [hstep] <;> exact ⟨rfl, rfl⟩
  | flagged | ended => simp only [threadStep, hs, hitem, and_self]

/-- There is no way back into the accept loop. -/
theorem accepting_of_mainStep {env : MainEnv} (h : (s.mainStep cfg env).pc.accepting) :
    s.pc.accepting := by
  cases hpc : s.pc with
  | test pass data =>
    cases pass with
    | reaping => rfl
    | cleanup => cases data <;> simp [mainStep, hpc, MainPc.accepting] at h
  | check pass data tvar =>
    cases pass with
    | reaping => rfl
    | cleanup =>
      simp only [mainStep, hpc] at h
      split at h
      · simp [faulted, hpc, MainPc.accepting] at h
      · dsimp only at h
        split_ifs at h <;> simp [MainPc.accepting] at h
  | join pass data tvar =>
    cases pass with
    | reaping => rfl
    | cleanup =>
      simp only [mainStep, hpc] at h
      split at h
      · split_ifs at h <;> simp [hpc, MainPc.accepting] at h
      · simp [faulted, hpc, MainPc.accepting] at h
  | advance pass data tvar =>
    cases pass with
    | reaping => rfl
    | cleanup =>
      simp only [mainStep, hpc] at h
      split at h <;> simp [faulted, hpc, MainPc.accepting] at h
  | remove pass data tvar | free pass data tvar =>
    cases pass with
    | reaping => rfl
    | cleanup => simp [mainStep, hpc, MainPc.accepting] at h
  | closeServer | exited => simp [mainStep, hpc, MainPc.accepting] at h
  | _ => rfl

/-- The books are kept in the accept loop and on the way out of it. -/
def Kept (s : Process) : Prop :=
  s.pc.accepting → ∃ kept todo, s.Books (kept ++ todo) ∧ s.At kept todo

theorem Kept.step (h : s.Kept) (a : ProcLabel) : (s.step cfg a).Kept := by
  by_cases hex : s.pc = .exited
  · rwa [step_exited hex]
  intro hacc
  cases a with
  | main env =>
    rw [step_main hex] at hacc ⊢
    obtain ⟨kept, todo, hbooks, hat⟩ := h (accepting_of_mainStep hacc)
    exact hbooks.mainStep hat env hacc
  | thread t env =>
    rw [step_thread hex] at hacc ⊢
    rw [(threadStep_main ..).1] at hacc
    obtain ⟨kept, todo, hbooks, hat⟩ := h hacc
    exact ⟨kept, todo, hbooks.threadStep cfg t env, hat.congr (threadFrame (hbooks.hasItem t) cfg env)⟩
  | signal =>
    rw [step_signal hex] at hacc ⊢
    obtain ⟨kept, todo, hbooks, hat⟩ := h hacc
    exact ⟨kept, todo, hbooks.frame .., hat⟩
  | setTerminate =>
    obtain ⟨catching, flag, hstep⟩ := s.step_setTerminate cfg
    rw [hstep] at hacc ⊢
    obtain ⟨kept, todo, hbooks, hat⟩ := h hacc
    exact ⟨kept, todo, hbooks.frame .., hat⟩

theorem run_kept (cfg : Startup) (as : List ProcLabel) : (run (step cfg) (.initial cfg) as).Kept :=
  invariant_of_step (fun _ a h => h.step a) (fun _ => ⟨[], [], books_initial cfg, trivial⟩) as

/-! ### One pass -/

/-- The item is there and `thread_complete` is set. -/
def Complete (s : Process) (n : ℕ) : Prop := ∃ item, s.items n = some item ∧ item.threadComplete = true

/-- A step of the pass, or of anyone else during it. -/
theorem Books.passStep (h : s.Books (kept ++ todo)) (hat : s.At kept todo) (hreap : s.pc.reaping)
    {l₀ : List ℕ} {visits : List (ℕ × Bool)} (hswept : s.Swept l₀ visits kept todo) (a : ProcLabel) :
    ∃ kept' todo', (s.step cfg a).Books (kept' ++ todo') ∧ (s.step cfg a).At kept' todo' ∧
      (s.step cfg a).Swept l₀ (visits ++ s.visit a) kept' todo' := by
  have hex : s.pc ≠ .exited := fun hex => by simp [hex, MainPc.reaping] at hreap
  cases a with
  | main env =>
    obtain ⟨kept', todo', hbooks, hat', hswept'⟩ := h.reapingStep cfg hat env hreap
    rw [step_main hex]
    exact ⟨kept', todo', hbooks, hat', hswept' l₀ visits hswept⟩
  | thread t env =>
    have hframe := threadFrame (h.hasItem t) cfg env
    rw [step_thread hex, visit_thread, List.append_nil]
    refine ⟨kept, todo, h.threadStep cfg t env, hat.congr hframe, ?_⟩
    rw [Swept] at hswept ⊢
    rwa [hframe.pc]
  | signal =>
    rw [step_signal hex, visit_signal, List.append_nil]
    exact ⟨kept, todo, h.frame .., hat, hswept⟩
  | setTerminate =>
    obtain ⟨catching, flag, hstep⟩ := s.step_setTerminate cfg
    rw [hstep, visit_setTerminate, List.append_nil]
    exact ⟨kept, todo, h.frame .., hat, hswept⟩

theorem Books.visit (h : s.Books (kept ++ todo)) (hat : s.At kept todo) {a : ProcLabel} {b : Bool}
    (hv : (n, b) ∈ s.visit a) : ∃ item, s.items n = some item ∧ item.threadComplete = b := by
  cases a with
  | main env =>
    rw [Process.visit] at hv
    cases hpc : s.pc with
    | check pass k tvar =>
      rw [At, hpc] at hat
      cases pass with
      | cleanup => exact absurd hat id
      | reaping =>
        obtain ⟨rest, rfl, -⟩ := hat
        obtain ⟨item, hitem, heq, -⟩ := h.item_eq (n := k) (by simp)
        simp only [hpc, heq, Option.toList_some, List.map_cons, List.map_nil, List.mem_singleton,
          Prod.mk.injEq] at hv
        obtain ⟨rfl, rfl⟩ := hv
        exact ⟨item, hitem, rfl⟩
    | _ => simp [hpc] at hv
  | thread t env => simp at hv
  | signal => simp at hv
  | setTerminate => simp at hv

theorem items_of_freeConnListItem {data : ℕ} {item : ThreadData}
    (h : (s.freeConnListItem data).items n = some item) : s.items n = some item := by
  rw [freeConnListItem] at h
  split at h
  · exact h
  · next d hd =>
    dsimp only at h
    rw [freeItem] at h
    split at h
    · exact h
    · by_cases hn : n = d.data
      · simp [hn] at h
      · simpa [Function.update_of_ne hn] using h

/-- The pass sets no flag. -/
theorem items_of_mainStep {env : MainEnv} (hreap : s.pc.reaping) {item : ThreadData}
    (h : (s.mainStep cfg env).items n = some item) : s.items n = some item := by
  obtain ⟨pc, hpc, hreaps⟩ : ∃ pc, s.pc = pc ∧ pc.Reaps := ⟨_, rfl, MainPc.reaps hreap⟩
  cases hreaps with
  | test data =>
    cases data with
    | none => simpa only [mainStep, hpc] using h
    | some data =>
      simp only [mainStep, hpc] at h
      split at h <;> exact h
  | check data tvar =>
    simp only [mainStep, hpc] at h
    split at h <;> exact h
  | join data tvar =>
    simp only [mainStep, hpc] at h
    split at h
    · split_ifs at h <;> exact h
    · exact h
  | free data tvar =>
    simp only [mainStep, hpc] at h
    exact items_of_freeConnListItem h
  | advance data tvar =>
    simpa only [mainStep, hpc] using h
  | first | remove data tvar => simpa only [mainStep, hpc] using h

/-- What is complete stays complete during the pass. -/
theorem Books.complete_step (h : s.Books l) (hreap : s.pc.reaping)
    (hc : ∀ item, s.items n = some item → item.threadComplete = true) (a : ProcLabel) :
    ∀ item, (s.step cfg a).items n = some item → item.threadComplete = true := by
  have hex : s.pc ≠ .exited := fun hex => by simp [hex, MainPc.reaping] at hreap
  intro item hitem
  cases a with
  | main env =>
    rw [step_main hex] at hitem
    exact hc item (items_of_mainStep hreap hitem)
  | thread t env =>
    rw [step_thread hex] at hitem
    have hframe := threadFrame (h.hasItem t) cfg env
    obtain ⟨old, hold⟩ := Option.ne_none_iff_exists'.mp
      ((hframe.items n).not.mp (by simp [hitem]))
    exact hframe.complete n old item hold hitem (hc old hold)
  | signal =>
    rw [step_signal hex] at hitem
    exact hc item hitem
  | setTerminate =>
    obtain ⟨catching, flag, hstep⟩ := s.step_setTerminate cfg
    rw [hstep] at hitem
    exact hc item hitem

/-- In a pass that began in `s₀` with the list `l` and has made `visits`. -/
structure InPass (s₀ : Process) (l : List ℕ) (visits : List (ℕ × Bool)) (s : Process) : Prop where
  swept : ∃ kept todo, s.Books (kept ++ todo) ∧ s.At kept todo ∧ s.Swept l visits kept todo
  complete : ∀ n, s₀.Complete n →
    (∀ item, s.items n = some item → item.threadComplete = true) ∧ (n, false) ∉ visits

theorem InPass.step {s₀ : Process} {visits : List (ℕ × Bool)} (h : s₀.InPass l visits s)
    (hreap : s.pc.reaping) (a : ProcLabel) : s₀.InPass l (visits ++ s.visit a) (s.step cfg a) := by
  obtain ⟨kept, todo, hbooks, hat, hswept⟩ := h.swept
  refine ⟨hbooks.passStep hat hreap hswept a, fun n hn => ?_⟩
  obtain ⟨hflag, hvisits⟩ := h.complete n hn
  refine ⟨hbooks.complete_step hreap hflag a, fun hmem => ?_⟩
  rcases List.mem_append.mp hmem with hmem | hmem
  · exact hvisits hmem
  · obtain ⟨item, hitem, hfalse⟩ := hbooks.visit hat hmem
    simp [hflag item hitem] at hfalse

theorem Books.inPass (h : s.Books l) (hpc : s.pc = .first .reaping) {as : List ProcLabel}
    (hpass : Along (Process.step cfg) (fun s _ => s.pc.reaping) s as) :
    s.InPass l (outputs (Process.step cfg) Process.visit s as) (run (Process.step cfg) s as) := by
  induction as using List.reverseRecOn with
  | nil =>
    refine ⟨⟨[], l, h, ?_, ?_⟩, fun n hn => ⟨fun item hitem => ?_, by simp [outputs]⟩⟩
    · rw [run_nil, At, hpc]
      trivial
    · rw [run_nil, Swept, hpc]
      exact ⟨rfl, rfl⟩
    · obtain ⟨old, hold, hc⟩ := hn
      rwa [← Option.some.inj (hold.symm.trans hitem)]
  | append_singleton as a ih =>
    rw [along_concat] at hpass
    rw [outputs_concat, run_concat]
    exact (ih hpass.1).step hpass.2 a

/-- A whole pass over the list `l`: it visits every element, in order, keeps those
that it finds not complete, and finds complete what was complete when it began. -/
theorem Books.pass (h : s.Books l) (hpc : s.pc = .first .reaping) {as : List ProcLabel}
    (hpass : Along (Process.step cfg) (fun s _ => s.pc.reaping) s as)
    (hend : (run (Process.step cfg) s as).pc = .loopTest) :
    let visits := outputs (Process.step cfg) Process.visit s as
    visits.map Prod.fst = l ∧ (run (Process.step cfg) s as).list.Holds (incomplete visits) ∧
      ∀ n, s.Complete n → n ∉ incomplete visits := by
  have hinv := h.inPass hpc hpass
  obtain ⟨kept, todo, hbooks, -, hswept⟩ := hinv.swept
  rw [Swept, hend] at hswept
  obtain ⟨rfl, hl, rfl⟩ := hswept
  refine ⟨hl.symm, by simpa using hbooks.holds, fun n hn hmem => ?_⟩
  obtain ⟨v, hv, rfl⟩ := List.mem_map.mp hmem
  rw [List.mem_filter, Bool.not_eq_true'] at hv
  exact (hinv.complete v.1 hn).2 (hv.2 ▸ hv.1)

end Process

/-- In every run, as long as `main` has not left the accept loop: the connection
list holds the elements inserted and not yet removed, each once; nothing freed is
ever used; an element or its `thread_data_t` is gone only when its thread has
returned and was joined; no thread is joined twice. A reaping pass visits all
elements in order, keeps in this order those it finds not complete, and removes
all that were complete when it began. -/
theorem thread_bookkeeping (cfg : Startup) (as : List ProcLabel) :
    let s := run (Process.step cfg) (.initial cfg) as
    s.pc.accepting → ∃ l, s.list.Holds l ∧ s.list.fault = false ∧
      l = s.inserted.filter (fun n => n ∉ s.removed) ∧ s.inserted.Nodup ∧
      (∀ n ∈ s.inserted, s.list.nodes n = none ∨ s.items n = none →
        s.handlers n = some .ended ∧ n ∈ s.joined) ∧
      s.joined.Nodup ∧
      (s.pc = .first .reaping → ∀ pass,
        Along (Process.step cfg) (fun s _ => s.pc.reaping) s pass →
        (run (Process.step cfg) s pass).pc = .loopTest →
        let visits := outputs (Process.step cfg) Process.visit s pass
        visits.map Prod.fst = l ∧ (run (Process.step cfg) s pass).list.Holds (incomplete visits) ∧
          ∀ n, s.Complete n → n ∉ incomplete visits) := by
  intro s hacc
  obtain ⟨kept, todo, h, -⟩ := Process.run_kept cfg as hacc
  refine ⟨kept ++ todo, h.holds, h.no_fault, h.listed, h.inserted_nodup, fun n hn hgone => ?_,
    h.joined_nodup, fun hpc pass hpass hend => h.pass hpc hpass hend⟩
  by_cases hj : n ∈ s.joined
  · exact ⟨h.joined_ended n hj, hj⟩
  · have hl := h.mem_of_not_joined hn hj
    obtain ⟨item, hitem, -⟩ := h.item n (.inl hl)
    obtain ⟨d, hd⟩ := h.holds.present hl
    rcases hgone with hgone | hgone
    · cases hgone.symm.trans hd
    · cases hgone.symm.trans hitem

/-- Three descriptors are open, and the listening socket gets number 3. -/
def oneClient (input : List SockRead) : Startup where
  input _ := input
  nofile := 8
  inherited n := decide (n < 3)
  serverSock := 3
  serverSock_lt := by decide
  serverSock_free := by decide
  serverSock_lowest n hn := decide_eq_true hn

/-- A step of `main`, or of a thread, in which nothing fails. -/
def mainOk : ProcLabel := .main ⟨true, true, true, true⟩

def threadOk (t : ℕ) : ProcLabel := .thread t ⟨some 0, .ok 99 t, ⟨true, 0⟩, some 1024⟩

/-- Two clients that send nothing: the thread of the first has ended when the second is
connected. -/
def shortConnections : List ProcLabel :=
  List.replicate 11 mainOk ++ List.replicate 4 (threadOk 0) ++ List.replicate 4 mainOk

/-- The reaping pass removes the element of the first one and keeps the other. -/
theorem thread_bookkeeping_short_connections :
    let s := run (Process.step (oneClient [])) (.initial (oneClient [])) shortConnections
    s.list.Holds [1, 0] ∧
      (run (Process.step (oneClient [])) s (List.replicate 11 mainOk)).list.Holds [1] := by
  intro s
  obtain ⟨l, hl, -, hlist, -, -, -, hpass⟩ :=
    thread_bookkeeping (oneClient []) shortConnections (by decide +kernel)
  obtain rfl : l = [1, 0] := hlist.trans (by decide +kernel)
  exact ⟨hl, (hpass (by decide +kernel) (List.replicate 11 mainOk) (by decide +kernel)
    (by decide +kernel)).2.1⟩

end Aesd.Server
