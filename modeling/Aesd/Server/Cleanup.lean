import Aesd.Server.Reaping

/-! The traversal of the connection list behind the accept loop. It is the reaping
pass with `LIST_FOREACH` in place of `LIST_FOREACH_SAFE`: it advances through the
element it stands on, also when it has just freed it. So it is safe exactly when it
never finds a complete item, and then there is nothing for it to do. -/

namespace Aesd.Server

open Run

/-- Whether the label is a step of `main`. -/
def ProcLabel.isMain : ProcLabel → Bool
  | .main _ => true
  | _ => false

namespace Process

/-- The connection list is `l`: all its elements have their `thread_data_t`, with
any flags, and so have the threads that run. -/
structure Listed (s : Process) (l : List ℕ) : Prop where
  holds : s.list.Holds l
  no_fault : s.list.fault = false
  item : ∀ n ∈ l, ∃ p, s.item n = some p
  hasItem : ∀ t, s.HasItem t

/-- The element is there and `thread_complete` is set. -/
def Found (s : Process) (n : ℕ) : Prop := ∃ p, s.item n = some p ∧ p.2.threadComplete = true

/-- The traversal does not find a complete item in this step. -/
def NotComplete (s : Process) (a : ProcLabel) : Prop := ∀ v ∈ s.visit a, v.2 = false

instance (s : Process) (a : ProcLabel) : Decidable (s.NotComplete a) :=
  inferInstanceAs (Decidable (∀ _ ∈ _, _))

/-- The traversal has come to its end, or to a use of freed memory. -/
def Over (s : Process) : Prop := s.pc = .closeServer ∨ s.pc = .exited ∨ s.list.fault = true

instance (s : Process) : Decidable s.Over := inferInstanceAs (Decidable (_ ∨ _ ∨ _))

/-- What the traversal is for. It began in `s₀` with the list `l`, has made
`visits` and has come to `s`: it has used nothing freed and visited everything, it
has left what was not complete when visited, and what was complete from the
start is joined, removed and freed once. -/
structure CleanedUp (s₀ : Process) (l : List ℕ) (visits : List (ℕ × Bool)) (s : Process) : Prop where
  no_fault : s.list.fault = false
  visited : visits.map Prod.fst = l
  left : s.list.Holds (incomplete visits)
  once : ∀ n ∈ l, ∀ i item, s₀.item n = some (i, item) → item.threadComplete = true →
    s.removed.count n = s₀.removed.count n + 1 ∧ s.list.nodes n = none ∧ s.items i = none ∧
      ∀ t, item.thread = some t → s.joined.count t = s₀.joined.count t + 1

variable {cfg : Startup} {s s₀ : Process} {l : List ℕ} {visits : List (ℕ × Bool)} {c n : ℕ}

/-- The list as the accept loop leaves it. -/
theorem Books.toListed (h : s.Books l) : s.Listed l where
  holds := h.holds
  no_fault := h.no_fault
  item n hn := by
    obtain ⟨item, -, heq, -⟩ := h.item_eq hn
    exact ⟨_, heq⟩
  hasItem := h.hasItem

theorem run_listed (cfg : Startup) (as : List ProcLabel) :
    let s := run (step cfg) (.initial cfg) as
    s.pc.accepting → s.Listed (s.inserted.filter fun n => n ∉ s.removed) := by
  intro s hacc
  obtain ⟨kept, todo, h, -⟩ := run_kept cfg as hacc
  exact h.listed ▸ h.toListed

/-! ### Nothing complete -/

/-- Where the traversal is after `c` steps of `main`. -/
def Sweeping (s : Process) (l : List ℕ) (visits : List (ℕ × Bool)) (c : ℕ) : Prop :=
  match s.pc with
  | .first .cleanup => visits = [] ∧ c = 0
  | .test .cleanup data =>
    ∃ todo, l = visits.map Prod.fst ++ todo ∧ data = todo.head? ∧ c = 3 * visits.length + 1
  | .check .cleanup n _ => ∃ rest, l = visits.map Prod.fst ++ n :: rest ∧ c = 3 * visits.length + 2
  | .advance .cleanup n _ =>
    ∃ before rest, visits.map Prod.fst = before ++ [n] ∧ l = before ++ n :: rest ∧
      c = 3 * visits.length
  | .closeServer | .exited => visits.map Prod.fst = l
  | _ => False

/-- The traversal has found nothing complete so far, and changed nothing. -/
structure Sweep (s₀ : Process) (l : List ℕ) (visits : List (ℕ × Bool)) (c : ℕ) (s : Process) : Prop where
  listed : s.Listed l
  found : ∀ n, s₀.Found n → s.Found n ∧ (n, false) ∉ visits
  all : ∀ v ∈ visits, v.2 = false
  pos : s.Sweeping l visits c

theorem item_eq_some_iff {i : ℕ} {item : ThreadData} : s.item n = some (i, item) ↔
    ∃ d, s.list.nodes n = some d ∧ d.data = i ∧ s.items i = some item := by
  rw [Process.item]
  cases s.list.nodes n with
  | none => simp
  | some d =>
    simp only [Option.map_eq_some_iff, Prod.mk.injEq, Option.some.injEq, exists_eq_left']
    constructor
    · rintro ⟨it, hit, rfl, rfl⟩
      exact ⟨rfl, hit⟩
    · rintro ⟨rfl, hit⟩
      exact ⟨item, hit, rfl, rfl⟩

theorem ThreadFrame.item {s' : Process} (hf : s.ThreadFrame s') {p : ℕ × ThreadData}
    (h : s.item n = some p) : ∃ p', s'.item n = some p' ∧ (p.2.threadComplete → p'.2.threadComplete) := by
  obtain ⟨i, item⟩ := p
  obtain ⟨d, hd, hi, hitem⟩ := item_eq_some_iff.mp h
  obtain ⟨item', hitem'⟩ := Option.ne_none_iff_exists'.mp ((hf.items i).not.mpr (by simp [hitem]))
  exact ⟨(i, item'), item_eq_some_iff.mpr ⟨d, by rw [hf.list, hd], hi, hitem'⟩,
    hf.complete i item item' hitem hitem'⟩

theorem Listed.congr (h : s.Listed l) {s' : Process} (hf : s.ThreadFrame s') : s'.Listed l where
  holds := hf.list ▸ h.holds
  no_fault := hf.list ▸ h.no_fault
  item n hn := by
    obtain ⟨p, hp⟩ := h.item n hn
    obtain ⟨p', hp', -⟩ := hf.item hp
    exact ⟨p', hp'⟩
  hasItem t hs he := by
    obtain ⟨item, hitem⟩ := h.hasItem t ((hf.handlers t).not.mp hs) fun h' => he (hf.ended t h')
    exact Option.ne_none_iff_exists'.mp ((hf.items t).not.mpr (by simp [hitem]))

theorem Found.congr (h : s.Found n) {s' : Process} (hf : s.ThreadFrame s') : s'.Found n := by
  obtain ⟨p, hp, hc⟩ := h
  obtain ⟨p', hp', hmono⟩ := hf.item hp
  exact ⟨p', hp', hmono hc⟩

theorem Sweep.goto (h : s₀.Sweep l visits c s) {pc : MainPc} {c' : ℕ}
    (hpos : { s with pc := pc }.Sweeping l visits c') : s₀.Sweep l visits c' { s with pc := pc } :=
  ⟨{ h.listed with }, h.found, h.all, hpos⟩

/-- The places of the traversal, one by one. -/
inductive Stop : List ℕ → List (ℕ × Bool) → ℕ → MainPc → Prop
  | first (l : List ℕ) : Stop l [] 0 (.first .cleanup)
  | test (visits : List (ℕ × Bool)) (todo : List ℕ) :
      Stop (visits.map Prod.fst ++ todo) visits (3 * visits.length + 1) (.test .cleanup todo.head?)
  | check (visits : List (ℕ × Bool)) (n : ℕ) (rest : List ℕ) (tvar : Option ℕ) :
      Stop (visits.map Prod.fst ++ n :: rest) visits (3 * visits.length + 2) (.check .cleanup n tvar)
  | advance (visits : List (ℕ × Bool)) (before : List ℕ) (n : ℕ) (rest : List ℕ) (tvar : Option ℕ)
      (hvisits : visits.map Prod.fst = before ++ [n]) :
      Stop (before ++ n :: rest) visits (3 * visits.length) (.advance .cleanup n tvar)
  | closeServer (visits : List (ℕ × Bool)) (c : ℕ) : Stop (visits.map Prod.fst) visits c .closeServer
  | exited (visits : List (ℕ × Bool)) (c : ℕ) : Stop (visits.map Prod.fst) visits c .exited

theorem Sweeping.stop (h : s.Sweeping l visits c) : ∃ pc, s.pc = pc ∧ Stop l visits c pc := by
  rw [Sweeping] at h
  split at h
  case h_1 hs =>
    obtain ⟨rfl, rfl⟩ := h
    exact ⟨_, hs, .first l⟩
  case h_2 data hs =>
    obtain ⟨todo, rfl, rfl, rfl⟩ := h
    exact ⟨_, hs, .test visits todo⟩
  case h_3 n tvar hs =>
    obtain ⟨rest, rfl, rfl⟩ := h
    exact ⟨_, hs, .check visits n rest tvar⟩
  case h_4 n tvar hs =>
    obtain ⟨before, rest, hvisits, rfl, rfl⟩ := h
    exact ⟨_, hs, .advance visits before n rest tvar hvisits⟩
  case h_5 hs => exact ⟨_, hs, h ▸ .closeServer visits c⟩
  case h_6 hs => exact ⟨_, hs, h ▸ .exited visits c⟩
  case h_7 => exact absurd h id

/-- A step of `main` that finds nothing complete. -/
theorem Sweep.mainStep (h : s₀.Sweep l visits c s) (env : MainEnv)
    (hnot : s.NotComplete (.main env)) :
    s₀.Sweep l (visits ++ s.visit (.main env)) (c + 1) (s.mainStep cfg env) := by
  obtain ⟨pc, hs, hstop⟩ := h.pos.stop
  rw [NotComplete, visit] at hnot
  rw [visit]
  cases hstop with
  | first =>
    simp only [Process.mainStep, hs, List.append_nil]
    exact h.goto ⟨l, rfl, h.listed.holds.first, rfl⟩
  | test visits todo =>
    cases todo with
    | nil =>
      rw [List.append_nil] at h ⊢
      simp only [Process.mainStep, hs, List.head?_nil, List.append_nil]
      exact h.goto (rfl : { s with pc := .closeServer }.Sweeping _ _ _)
    | cons n rest =>
      simp only [Process.mainStep, hs, List.head?_cons, List.append_nil]
      exact h.goto ⟨rest, rfl, rfl⟩
  | check visits n rest tvar =>
    obtain ⟨p, hp⟩ := h.listed.item n (by simp)
    have hfalse : p.2.threadComplete = false := by
      simpa only [hs, hp, Option.toList_some, List.map_cons, List.map_nil, List.forall_mem_singleton]
        using hnot
    simp only [Process.mainStep, hs, hp, hfalse, Option.toList_some, List.map_cons, List.map_nil]
    refine ⟨{ h.listed with }, fun m hm => ⟨(h.found m hm).1, ?_⟩, ?_, visits.map Prod.fst, rest,
      by simp, rfl, by simp; omega⟩
    · rw [List.mem_append, not_or]
      refine ⟨(h.found m hm).2, fun hmem => ?_⟩
      obtain rfl : m = n := by simpa using hmem
      obtain ⟨q, hq, hc⟩ := (h.found m hm).1
      rw [hp] at hq
      rw [← Option.some.inj hq, hfalse] at hc
      cases hc
    · intro v hv
      rcases List.mem_append.mp hv with hv | hv
      · exact h.all v hv
      · rw [List.mem_singleton.mp hv]
  | advance visits before n rest tvar hvisits =>
    obtain ⟨d, hd, hnext, -⟩ := h.listed.holds.node before n rest rfl
    simp only [Process.mainStep, hs, hd, List.append_nil]
    exact h.goto ⟨rest, by simp [hvisits], hnext, rfl⟩
  | closeServer =>
    simp only [Process.mainStep, hs, List.append_nil]
    exact ⟨{ h.listed with }, h.found, h.all, rfl⟩
  | exited =>
    simp only [Process.mainStep, hs, List.append_nil]
    exact ⟨h.listed, h.found, h.all, by rw [Sweeping, hs]⟩

theorem Sweep.step (h : s₀.Sweep l visits c s) {a : ProcLabel} (hnot : s.NotComplete a) :
    s₀.Sweep l (visits ++ s.visit a) (c + if a.isMain then 1 else 0) (s.step cfg a) := by
  by_cases hex : s.pc = .exited
  · have hvisit : s.visit a = [] := by cases a <;> simp [visit, hex]
    have hpos := h.pos
    rw [Sweeping, hex] at hpos
    rw [step_exited hex, hvisit, List.append_nil]
    exact ⟨h.listed, h.found, h.all, by rwa [Sweeping, hex]⟩
  cases a with
  | main env =>
    rw [step_main hex]
    exact h.mainStep env hnot
  | thread t env =>
    have hframe := threadFrame (h.listed.hasItem t) cfg env
    rw [step_thread hex, visit_thread, List.append_nil]
    refine ⟨h.listed.congr hframe, fun n hn => ⟨(h.found n hn).1.congr hframe, (h.found n hn).2⟩,
      h.all, ?_⟩
    rw [Sweeping, hframe.pc]
    exact h.pos
  | signal =>
    rw [step_signal hex, visit_signal, List.append_nil]
    exact ⟨{ h.listed with }, h.found, h.all, h.pos⟩
  | setTerminate =>
    obtain ⟨catching, flag, hstep⟩ := s.step_setTerminate cfg
    rw [hstep, visit_setTerminate, List.append_nil]
    exact ⟨{ h.listed with }, h.found, h.all, h.pos⟩

theorem Listed.sweep (h : s.Listed l) (hpc : s.pc = .first .cleanup) {as : List ProcLabel}
    (hnot : Along (Process.step cfg) NotComplete s as) :
    s.Sweep l (outputs (Process.step cfg) visit s as) (as.countP ProcLabel.isMain)
      (run (Process.step cfg) s as) := by
  induction as using List.reverseRecOn with
  | nil =>
    refine ⟨h, fun n hn => ⟨hn, by simp [outputs]⟩, by simp [outputs], ?_⟩
    rw [run_nil, Sweeping, hpc]
    exact ⟨rfl, rfl⟩
  | append_singleton as a ih =>
    rw [along_concat] at hnot
    rw [outputs_concat, run_concat, List.countP_append, List.countP_singleton]
    exact (ih hnot.1).step hnot.2

/-! ### Something complete -/

/-- Once a complete item is found, the traversal frees it and has to advance from
there. -/
def Doomed (s : Process) : Prop :=
  ∃ n tvar, s.pc = .join .cleanup n tvar ∨ s.pc = .remove .cleanup n tvar ∨
    s.pc = .free .cleanup n tvar ∨ s.pc = .advance .cleanup n tvar ∧ s.list.nodes n = none

theorem freeConnListItem_nodes (s : Process) (n : ℕ) : (s.freeConnListItem n).list.nodes n = none := by
  have hlist : ∀ i, (s.freeItem i).list.nodes = s.list.nodes := fun i => by
    rw [freeItem]
    split <;> rfl
  rw [freeConnListItem]
  cases hd : s.list.nodes n with
  | none => exact hd
  | some d =>
    dsimp only
    rw [ListMem.free_of_some (d := d) (by rw [hlist, hd])]
    exact Function.update_self ..

theorem Doomed.mainStep (h : s.Doomed) (env : MainEnv) : (s.mainStep cfg env).Doomed := by
  obtain ⟨n, tvar, hpc | hpc | hpc | ⟨hpc, hnone⟩⟩ := h
  · simp only [Process.mainStep, hpc]
    split
    · split_ifs
      · exact ⟨n, tvar, .inr (.inl rfl)⟩
      · exact ⟨n, tvar, .inl hpc⟩
    · exact ⟨n, tvar, .inl hpc⟩
  · simp only [Process.mainStep, hpc]
    exact ⟨n, tvar, .inr (.inr (.inl rfl))⟩
  · simp only [Process.mainStep, hpc]
    exact ⟨n, tvar, .inr (.inr (.inr ⟨rfl, freeConnListItem_nodes s n⟩))⟩
  · simp only [Process.mainStep, hpc, hnone]
    exact ⟨n, tvar, .inr (.inr (.inr ⟨hpc, hnone⟩))⟩

theorem Doomed.congr (h : s.Doomed) {s' : Process} (hpc : s'.pc = s.pc)
    (hnodes : s'.list.nodes = s.list.nodes) : s'.Doomed := by
  obtain ⟨n, tvar, h⟩ := h
  exact ⟨n, tvar, by rwa [hpc, hnodes]⟩

theorem Doomed.step (h : s.Doomed) (a : ProcLabel) : (s.step cfg a).Doomed := by
  by_cases hex : s.pc = .exited
  · rwa [step_exited hex]
  cases a with
  | main env =>
    rw [step_main hex]
    exact h.mainStep env
  | thread t env =>
    obtain ⟨hpc, hnodes⟩ := threadStep_main cfg s t env
    rw [step_thread hex]
    exact h.congr hpc hnodes
  | signal =>
    rw [step_signal hex]
    exact h.congr rfl rfl
  | setTerminate =>
    obtain ⟨catching, flag, hstep⟩ := s.step_setTerminate cfg
    rw [hstep]
    exact h.congr rfl rfl

/-- A doomed traversal does not come to an end. -/
theorem Doomed.fault (h : s.Doomed) (hover : s.Over) : s.list.fault = true := by
  obtain ⟨n, tvar, h⟩ := h
  rcases hover with hpc | hpc | hfault
  · simp [hpc] at h
  · simp [hpc] at h
  · exact hfault

theorem Sweep.doomed (h : s₀.Sweep l visits c s) {a : ProcLabel} (hnot : ¬ s.NotComplete a) :
    (s.step cfg a).Doomed := by
  cases a with
  | main env =>
    rw [NotComplete, visit] at hnot
    obtain ⟨pc, hs, hstop⟩ := h.pos.stop
    cases hstop with
    | check visits n rest tvar =>
      obtain ⟨p, hp⟩ := h.listed.item n (by simp)
      have hc : p.2.threadComplete = true := by simpa [hs, hp] using hnot
      rw [step_main (by simp [hs])]
      simp only [Process.mainStep, hs, hp, hc]
      exact ⟨n, tvar, .inl rfl⟩
    | _ => simp [hs] at hnot
  | thread t env => simp [NotComplete] at hnot
  | signal => simp [NotComplete] at hnot
  | setTerminate => simp [NotComplete] at hnot

theorem Listed.along_or_doomed (h : s.Listed l) (hpc : s.pc = .first .cleanup) (as : List ProcLabel) :
    Along (Process.step cfg) NotComplete s as ∨ (run (Process.step cfg) s as).Doomed := by
  induction as using List.reverseRecOn with
  | nil => exact .inl trivial
  | append_singleton as a ih =>
    rw [along_concat, run_concat]
    rcases ih with ih | ih
    · by_cases hnot : (run (Process.step cfg) s as).NotComplete a
      · exact .inl ⟨ih, hnot⟩
      · exact .inr ((h.sweep hpc ih).doomed hnot)
    · exact .inr (ih.step a)

/-! ### Both -/

/-- All elements are visited and left when nothing complete is found. -/
theorem Sweep.cleanedUp (h : s₀.Sweep l visits c s) (hover : s.Over) : s₀.CleanedUp l visits s := by
  have hvisited : visits.map Prod.fst = l := by
    have hpos := h.pos
    rcases hover with hpc | hpc | hfault
    · rwa [Sweeping, hpc] at hpos
    · rwa [Sweeping, hpc] at hpos
    · simp [h.listed.no_fault] at hfault
  have hleft : incomplete visits = l := by
    rw [incomplete, List.filter_eq_self.mpr fun v hv => by simp [h.all v hv], hvisited]
  refine ⟨h.listed.no_fault, hvisited, hleft ▸ h.listed.holds, fun n hn i item hitem hc => ?_⟩
  obtain ⟨v, hv, rfl⟩ := List.mem_map.mp (hvisited ▸ hn)
  exact absurd (h.all v hv ▸ hv) (h.found v.1 ⟨_, hitem, hc⟩).2

/-- The traversal ends in time: three steps of `main` for an element. -/
theorem Sweep.over (h : s₀.Sweep l visits c s) (hc : 3 * l.length + 2 ≤ c) : s.Over := by
  obtain ⟨pc, hs, hstop⟩ := h.pos.stop
  cases hstop with
  | closeServer => exact .inl hs
  | exited => exact .inr (.inl hs)
  | first => omega
  | test visits todo =>
    simp only [List.length_append, List.length_map] at hc
    omega
  | check visits n rest tvar =>
    simp only [List.length_append, List.length_map, List.length_cons] at hc
    omega
  | advance visits before n rest tvar hvisits =>
    have hlen := congrArg List.length hvisits
    simp only [List.length_append, List.length_map, List.length_cons, List.length_nil]
      at hc hlen
    omega

end Process

/-- For every connection list, with any flags, and every run from the start of the
traversal: when it is over, it has done what it is for exactly when no item was
complete when the traversal came to it, and then it is over after three steps of
`main` for every element and two more. -/
theorem cleanup_safe_iff (cfg : Startup) (s : Process) (l : List ℕ) (hl : s.Listed l)
    (hpc : s.pc = .first .cleanup) (as : List ProcLabel) :
    let s' := run (Process.step cfg) s as
    (s'.Over → (s.CleanedUp l (outputs (Process.step cfg) Process.visit s as) s' ↔
      Along (Process.step cfg) Process.NotComplete s as)) ∧
    (Along (Process.step cfg) Process.NotComplete s as →
      3 * l.length + 2 ≤ as.countP ProcLabel.isMain → s'.Over) := by
  intro s'
  refine ⟨fun hover => ⟨fun hclean => ?_, fun hnot => (hl.sweep hpc hnot).cleanedUp hover⟩,
    fun hnot hcount => (hl.sweep hpc hnot).over hcount⟩
  refine (hl.along_or_doomed hpc as).resolve_right fun hdoomed => ?_
  have hfault : s'.list.fault = true := hdoomed.fault hover
  rw [hclean.no_fault] at hfault
  cases hfault

/-- `n` steps of `main`, then the server is told to terminate. -/
def terminated (n : ℕ) : List ProcLabel :=
  List.replicate n mainOk ++ [.signal, .setTerminate] ++ List.replicate 2 mainOk

/-- Two clients are connected and their threads still run: the traversal leaves them. -/
theorem cleanup_safe_running :
    let s := run (Process.step (oneClient [])) (.initial (oneClient [])) (terminated 22)
    s.CleanedUp [1, 0] [(1, false), (0, false)]
      (run (Process.step (oneClient [])) s (List.replicate 8 mainOk)) := by
  intro s
  have hl : s.Listed [1, 0] := Process.run_listed (oneClient []) (terminated 22) (by decide +kernel)
  have h := cleanup_safe_iff (oneClient []) s [1, 0] hl (by decide +kernel) (List.replicate 8 mainOk)
  have hnot : Along (Process.step (oneClient [])) Process.NotComplete s (List.replicate 8 mainOk) := by
    decide +kernel
  have hvisits : outputs (Process.step (oneClient [])) Process.visit s (List.replicate 8 mainOk) =
      [(1, false), (0, false)] := by decide +kernel
  rw [hvisits] at h
  exact (h.1 (h.2 hnot (by decide))).mpr hnot

/-- Its thread has ended: the traversal frees the element and advances from it. -/
theorem cleanup_safe_fails :
    ¬ ∀ (cfg : Startup) (s : Process) (l : List ℕ), s.Listed l → s.pc = .first .cleanup →
      ∀ as : List ProcLabel, (run (Process.step cfg) s as).Over →
        s.CleanedUp l (outputs (Process.step cfg) Process.visit s as) (run (Process.step cfg) s as) := by
  intro h
  have hl := Process.run_listed (oneClient [])
    (List.replicate 9 mainOk ++ List.replicate 4 (threadOk 0) ++ terminated 0)
    (by decide +kernel)
  have hclean := h (oneClient []) _ _ hl (by decide +kernel) (List.replicate 7 mainOk) (by decide +kernel)
  exact absurd hclean.no_fault (by decide +kernel)

end Aesd.Server
