import Aesd.Server.Cleanup
import Aesd.Server.Descriptors

/-! How long it takes to shut down. Once `should_terminate` is set, `main` may accept
one more connection and finishes the reaping pass, and then it goes through the list
once more. The number of statements this takes is bounded by the number of
connections, whatever the threads do meanwhile, and `main` never waits for a thread
that still serves its connection: `pthread_join` is called when `thread_complete` is
set, and then the thread only has to return. The count ends when `main` has returned, or
where the last traversal advances from an element that it has freed; behind that nothing
is said. -/

namespace Aesd.Server

open Run

namespace Process

/-- The thread that `main` waits for in `pthread_join`. -/
def waitsFor (s : Process) : Option ℕ :=
  match s.pc with
  | .join _ data _ =>
    match s.item data with
    | some (_, { thread := some t, .. }) => if s.handlers t = some .ended then none else some t
    | _ => none
  | _ => none

/-- `main` executes a statement while the process shuts down and is not over. -/
def shutdownMoves (s : Process) : ProcLabel → List Unit
  | .main _ => if s.sys.shouldTerminate ∧ ¬ s.Over ∧ s.waitsFor = none then [()] else []
  | _ => []

/-- The number of elements of the connection list. -/
def listLength (s : Process) : ℕ := (s.inserted.filter fun n => n ∉ s.removed).length

variable {cfg : Startup} {s : Process} {l kept todo : List ℕ} {visits : List (ℕ × Bool)} {k n : ℕ}

/-! ### Items -/

/-- An item stays in order, whatever a thread does, and complete once it is. -/
theorem item_threadStep (cfg : Startup) {item : ThreadData} (hitem : s.item n = some (n, item))
    (hok : item.Ok n (s.handlers n))
    {t : ℕ} (ht : s.HasItem t) (env : Env) :
    ∃ item', (s.threadStep cfg t env).item n = some (n, item') ∧
      item'.Ok n ((s.threadStep cfg t env).handlers n) ∧
        (item.threadComplete → item'.threadComplete) := by
  obtain ⟨d, hd, hdn, hn⟩ := item_eq_some_iff.mp hitem
  rcases threadStep_cases ht cfg env with ⟨socks, sys, closed, hstep⟩ |
    ⟨stage, it, it', stage', hs, -, hit, hthread, -, hmono, hstage, hstep⟩
  · rw [hstep]
    exact ⟨item, hitem, hok, id⟩
  · rw [hstep]
    by_cases hnt : n = t
    · subst hnt
      obtain rfl : item = it := Option.some.inj (hn.symm.trans hit)
      refine ⟨it', item_eq_some_iff.mpr ⟨d, hd, hdn, by simp⟩, ⟨?_, fun _ => ?_⟩, hmono⟩
      · rcases hstage with ⟨rfl, rfl, hc⟩ | ⟨rfl, rfl, rfl⟩
        · simp [hc]
        · simpa [hs] using hok.complete_iff
      · rw [hthread, hok.thread (by simp [hs])]
    · refine ⟨item, item_eq_some_iff.mpr ⟨d, hd, hdn, ?_⟩, ?_, id⟩
      · simpa [Function.update_of_ne hnt] using hn
      · simpa [Function.update_of_ne hnt] using hok

theorem waitsFor_eq_some {t : ℕ} (h : s.waitsFor = some t) :
    ∃ pass n tvar, s.pc = .join pass n tvar := by
  cases hpc : s.pc with
  | join pass n tvar => exact ⟨pass, n, tvar, rfl⟩
  | _ => simp [waitsFor, hpc] at h

/-- When `main` joins a thread, its item is complete. -/
def JoinReady (s : Process) : Prop :=
  ∀ pass n tvar, s.pc = .join pass n tvar →
    ∃ item, s.item n = some (n, item) ∧ item.Ok n (s.handlers n) ∧ item.threadComplete = true

theorem JoinReady.threadStep (h : s.JoinReady) (cfg : Startup) {t : ℕ} (ht : s.HasItem t) (env : Env) :
    (s.threadStep cfg t env).JoinReady := by
  intro pass n tvar hpc
  rw [(threadStep_main cfg s t env).1] at hpc
  obtain ⟨item, hitem, hok, hc⟩ := h pass n tvar hpc
  obtain ⟨item', hitem', hok', hmono⟩ := item_threadStep cfg hitem hok ht env
  exact ⟨item', hitem', hok', hmono hc⟩

theorem joinReady_of_pc (h : ∀ pass n tvar, s.pc ≠ .join pass n tvar) : s.JoinReady :=
  fun pass n tvar hpc => absurd hpc (h pass n tvar)

/-- Joining a thread that has set `thread_complete`. -/
theorem JoinReady.cases (h : s.JoinReady) (cfg : Startup) {pass : Pass} {tvar : Option ℕ}
    (hpc : s.pc = .join pass n tvar) :
    (s.handlers n = some .flagged ∧ s.waitsFor = some n ∧ ∀ env, s.mainStep cfg env = s) ∨
    (s.handlers n = some .ended ∧ s.waitsFor = none ∧ ∀ env, s.mainStep cfg env =
      { s with joined := s.joined ++ [n], pc := .remove pass n tvar }) := by
  obtain ⟨⟨thread, threadComplete, connectionFd⟩, hitem, hok, hc⟩ := h pass n tvar hpc
  have hhandler := hok.complete_iff.mp hc
  obtain rfl : thread = some n := hok.thread (by rcases hhandler with h | h <;> simp [h])
  rcases hhandler with hf | he
  · left
    refine ⟨hf, by simp [waitsFor, hpc, hitem, hf], fun env => ?_⟩
    simp [mainStep, hpc, hitem, hf]
  · right
    refine ⟨he, by simp [waitsFor, hpc, hitem, he], fun env => ?_⟩
    simp [mainStep, hpc, hitem, he]

/-- While `main` waits for a thread it does nothing. -/
theorem JoinReady.mainStep_eq (h : s.JoinReady) (hwait : s.waitsFor ≠ none) (env : MainEnv) :
    s.mainStep cfg env = s := by
  obtain ⟨t, hw⟩ := Option.ne_none_iff_exists'.mp hwait
  obtain ⟨pass, n, tvar, hpc⟩ := waitsFor_eq_some hw
  rcases h.cases cfg hpc with ⟨-, -, hstep⟩ | ⟨-, hw, -⟩
  · exact hstep env
  · exact absurd hw hwait

/-! ### What is left to do -/

end Process

/-- Statements from a place of the accept loop to the end of the cleanup, with `n`
elements in the list, and in a reaping pass over `m` elements with `r` of them to
visit. -/
def MainPc.left (pc : MainPc) (n m r : ℕ) : ℕ :=
  match pc with
  | .first .cleanup => 3 * n + 6
  | .loopTest => 3 * n + 7
  | .test .reaping _ => 3 * m + 6 * r + 8
  | .check .reaping _ _ => 3 * m + 6 * r + 7
  | .join .reaping _ _ => 3 * m + 6 * r + 12
  | .remove .reaping _ _ => 3 * m + 6 * r + 11
  | .free .reaping _ _ => 3 * m + 6 * r + 10
  | .advance .reaping _ _ => 3 * m + 6 * r + 9
  | .first .reaping => 9 * n + 9
  | .create _ => 9 * n + 10
  | .insertHead _ => 9 * n + 20
  | .initConnListItem _ _ => 9 * n + 21
  | .accept => 9 * n + 22
  | _ => 0

namespace Process

variable {cfg : Startup} {s : Process} {l kept todo : List ℕ} {visits : List (ℕ × Bool)} {k n : ℕ}

/-- From `s` on `main` executes at most `k` statements until it is over. -/
inductive Left (s : Process) (k : ℕ) : Prop
  /-- In the accept loop, but not in a reaping pass. -/
  | loop {kept todo : List ℕ} (hb : s.Books (kept ++ todo)) (hat : s.At kept todo)
      (hacc : s.pc.accepting) (hreap : s.pc.reaping = false) (hk : s.pc.left s.listLength 0 0 ≤ k)
  | pass {kept todo l : List ℕ} {visits : List (ℕ × Bool)} (hb : s.Books (kept ++ todo))
      (hat : s.At kept todo) (hreap : s.pc.reaping) (hswept : s.Swept l visits kept todo) (hj : s.JoinReady)
      (hk : s.pc.left s.listLength l.length (l.length - visits.length) ≤ k)
  /-- The traversal behind the loop, before it finds a complete item. -/
  | sweep {s₀ : Process} {l : List ℕ} {visits : List (ℕ × Bool)} {c : ℕ} (h : s₀.Sweep l visits c s)
      (hitems : ∀ n ∈ l, ∃ item, s.item n = some (n, item) ∧ item.Ok n (s.handlers n))
      (hk : 3 * l.length + 6 ≤ c + k)
  /-- It has found one. -/
  | join {n : ℕ} {tvar : Option ℕ} (hpc : s.pc = .join .cleanup n tvar) (hj : s.JoinReady)
      (hitems : ∀ t, s.HasItem t) (hk : 4 ≤ k)
  | remove {n : ℕ} {tvar : Option ℕ} (hpc : s.pc = .remove .cleanup n tvar) (hk : 3 ≤ k)
  | free {n : ℕ} {tvar : Option ℕ} (hpc : s.pc = .free .cleanup n tvar) (hk : 2 ≤ k)
  /-- It has to advance from an element that is freed. -/
  | advance {n : ℕ} {tvar : Option ℕ} (hpc : s.pc = .advance .cleanup n tvar)
      (hnone : s.list.nodes n = none) (hk : s.list.fault = true ∨ 1 ≤ k)

theorem Books.listLength (h : s.Books l) : s.listLength = l.length := by
  rw [Process.listLength, ← h.listed]

theorem length_shutdownMoves_le (s : Process) (a : ProcLabel) : (s.shutdownMoves a).length ≤ 1 := by
  cases a with
  | main env =>
    rw [shutdownMoves]
    split_ifs <;> simp
  | _ => simp [shutdownMoves]

/-! ### Steps of `main` -/

/-- Outside the reaping pass. -/
theorem Books.loopStep (hb : s.Books (kept ++ todo)) (hat : s.At kept todo) (hacc : s.pc.accepting)
    (hreap : s.pc.reaping = false) (hfirst : s.pc ≠ .first .cleanup) (cfg : Startup) (env : MainEnv) :
    let s' := s.mainStep cfg env
    s'.pc.accepting ∧ (s'.pc = .first .reaping ∨ s'.pc.reaping = false) ∧
      (s'.pc = .first .cleanup → s.sys.shouldTerminate = true) ∧
      (s.sys.shouldTerminate = true →
        s'.pc.left s'.listLength 0 0 + 1 ≤ s.pc.left s.listLength 0 0) := by
  intro s'
  cases hpc : s.pc with
  | loopTest =>
    cases hflag : s.sys.shouldTerminate with
    | true =>
      have hs' : s' = { s with pc := .first .cleanup } := by simp [s', Process.mainStep, hpc, hflag]
      rw [hs']
      exact ⟨rfl, .inr rfl, fun _ => rfl, fun _ => le_rfl⟩
    | false =>
      have hs' : s' = { s with pc := .accept } := by simp [s', Process.mainStep, hpc, hflag]
      rw [hs']
      exact ⟨rfl, .inr rfl, by simp, by simp⟩
  | accept =>
    cases hfd : (if env.accept then s.lowestFree cfg else none) with
    | none =>
      have hs' : s' = { s with pc := .first .reaping } := by simp [s', Process.mainStep, hpc, hfd]
      rw [hs']
      exact ⟨rfl, .inl rfl, by simp, fun _ => by simp only [MainPc.left, Process.listLength]; omega⟩
    | some fd =>
      have hs' : s' = { s with
          socks := Function.update s.socks fd (some (.connection s.accepted))
          accepted := s.accepted + 1
          pc := .initConnListItem s.accepted fd } := by simp [s', Process.mainStep, hpc, hfd]
      rw [hs']
      exact ⟨rfl, .inr rfl, by simp, fun _ => le_rfl⟩
  | initConnListItem j fd =>
    simp only [s', Process.mainStep, hpc]
    split_ifs
    · exact ⟨rfl, .inr rfl, by simp, fun _ => le_rfl⟩
    · exact ⟨rfl, .inl rfl, by simp, fun _ => by simp only [MainPc.left, Process.listLength]; omega⟩
  | insertHead j =>
    simp only [s', Process.mainStep, hpc]
    refine ⟨rfl, .inr rfl, by simp, fun _ => ?_⟩
    simp only [MainPc.left, Process.listLength, List.filter_cons]
    split_ifs
    · rw [List.length_cons]
      omega
    · omega
  | create j =>
    rw [At, hpc] at hat
    obtain ⟨item, hitem, heq, hok⟩ := hb.item_eq hat.1
    simp only [s', Process.mainStep, hpc, heq]
    split_ifs
    · exact ⟨rfl, .inl rfl, by simp, fun _ => le_rfl⟩
    · exact ⟨rfl, .inl rfl, by simp, fun _ => le_rfl⟩
  | first pass =>
    cases pass with
    | reaping => simp [hpc, MainPc.reaping] at hreap
    | cleanup => exact absurd hpc hfirst
  | test pass _ | check pass _ _ | join pass _ _ | remove pass _ _ | free pass _ _ | advance pass _ _ =>
    cases pass with
    | reaping => simp [hpc, MainPc.reaping] at hreap
    | cleanup => simp [hpc, MainPc.accepting] at hacc
  | closeServer | exited => simp [hpc, MainPc.accepting] at hacc

theorem length_incomplete_le (visits : List (ℕ × Bool)) :
    (incomplete visits).length ≤ visits.length := by
  rw [incomplete, List.length_map]
  exact List.length_filter_le _ _

/-- In the reaping pass, when `main` does not wait. -/
theorem Books.passStep_left (hb : s.Books (kept ++ todo)) (hat : s.At kept todo) (hreap : s.pc.reaping)
    (hswept : s.Swept l visits kept todo) (hj : s.JoinReady) (hwait : s.waitsFor = none) (cfg : Startup)
    (env : MainEnv) :
    let s' := s.mainStep cfg env
    s'.JoinReady ∧ (s'.pc.reaping = true ∨ s'.pc = .loopTest) ∧
      s'.pc.left s'.listLength l.length (l.length - (visits ++ s.visit (.main env)).length) + 1 ≤
        s.pc.left s.listLength l.length (l.length - visits.length) := by
  intro s'
  rw [At] at hat
  rw [Swept] at hswept
  have hlist := hb.listLength
  obtain ⟨pc, hpc, hreaps⟩ : ∃ pc, s.pc = pc ∧ pc.Reaps := ⟨_, rfl, MainPc.reaps hreap⟩
  rw [Process.visit]
  cases hreaps with
  | first =>
    rw [hpc] at hswept
    obtain ⟨rfl, rfl⟩ := hswept
    simp only [s', Process.mainStep, hpc]
    refine ⟨joinReady_of_pc (by simp), .inl rfl, ?_⟩
    simp only [MainPc.left, hlist, List.length_append, List.length_nil]
    omega
  | test data =>
    rw [hpc] at hat hswept
    obtain rfl : data = todo.head? := hat
    obtain ⟨rfl, rfl⟩ := hswept
    cases todo with
    | nil =>
      have hle := length_incomplete_le visits
      simp only [s', Process.mainStep, hpc, List.head?_nil]
      refine ⟨joinReady_of_pc (by simp), .inr trivial, ?_⟩
      simp only [MainPc.left, Process.listLength] at hlist ⊢
      simp only [hlist, List.append_nil, List.length_map]
      omega
    | cons n rest =>
      obtain ⟨d, hd, -⟩ := hb.holds.node _ n rest rfl
      simp only [s', Process.mainStep, hpc, List.head?_cons, hd, List.append_nil]
      exact ⟨joinReady_of_pc (by simp), .inl rfl, le_rfl⟩
  | check n tvar =>
    rw [hpc] at hat hswept
    obtain ⟨rest, rfl, rfl⟩ := hat
    obtain ⟨rfl, rfl⟩ := hswept
    obtain ⟨item, hitem, heq, hok⟩ := hb.item_eq (n := n) (by simp)
    simp only [s', Process.mainStep, hpc, heq, Option.toList_some, List.map_cons, List.map_nil]
    cases hc : item.threadComplete with
    | true =>
      refine ⟨fun pass m tvar' hm => ?_, .inl rfl, ?_⟩
      · simp only [if_true, MainPc.join.injEq] at hm
        obtain ⟨-, rfl, -⟩ := hm
        exact ⟨item, heq, hok, hc⟩
      · simp only [if_true, MainPc.left, List.length_append, List.length_map, List.length_cons,
          List.length_nil]
        omega
    | false =>
      refine ⟨joinReady_of_pc (by simp), .inl rfl, ?_⟩
      simp only [Bool.false_eq_true, if_false, MainPc.left, List.length_append, List.length_map,
        List.length_cons, List.length_nil]
      omega
  | join n tvar =>
    rcases hj.cases cfg hpc with ⟨-, hw, -⟩ | ⟨-, -, hstep⟩
    · rw [hwait] at hw
      cases hw
    · rw [show s' = _ from hstep env, hpc, List.append_nil]
      exact ⟨joinReady_of_pc (by simp), .inl rfl, le_rfl⟩
  | remove n tvar =>
    simp only [s', Process.mainStep, hpc, List.append_nil]
    exact ⟨joinReady_of_pc (by simp), .inl rfl, le_rfl⟩
  | free n tvar =>
    simp only [s', Process.mainStep, hpc, List.append_nil]
    exact ⟨joinReady_of_pc (by simp), .inl rfl, le_rfl⟩
  | advance n tvar =>
    simp only [s', Process.mainStep, hpc, List.append_nil]
    exact ⟨joinReady_of_pc (by simp), .inl rfl, le_rfl⟩

/-- The traversal behind the loop changes nothing before it finds a complete item. -/
theorem Sweep.main_same {s₀ : Process} {c : ℕ} (h : s₀.Sweep l visits c s) (cfg : Startup)
    (env : MainEnv) :
    (s.mainStep cfg env).list = s.list ∧ (s.mainStep cfg env).items = s.items ∧
      (s.mainStep cfg env).handlers = s.handlers := by
  obtain ⟨pc, hs, hstop⟩ := h.pos.stop
  cases hstop with
  | test visits todo => cases todo <;> simp [Process.mainStep, hs]
  | check visits n rest tvar =>
    obtain ⟨p, hp⟩ := h.listed.item n (by simp)
    simp [Process.mainStep, hs, hp]
  | advance visits before n rest tvar hvisits =>
    obtain ⟨d, hd, -⟩ := h.listed.holds.node before n rest rfl
    simp [Process.mainStep, hs, hd]
  | _ => simp [Process.mainStep, hs, Process.close, closeSock]

theorem Sweep.left_main {s₀ : Process} {c : ℕ} (h : s₀.Sweep l visits c s)
    (hitems : ∀ n ∈ l, ∃ item, s.item n = some (n, item) ∧ item.Ok n (s.handlers n))
    (hk : 3 * l.length + 6 ≤ c + k) (env : MainEnv) :
    ∃ k', Left (s.mainStep cfg env) k' ∧ (s.shutdownMoves (.main env)).length + k' ≤ k := by
  have hmoves := s.length_shutdownMoves_le (.main env)
  have hlt : s.shutdownMoves (.main env) ≠ [] → 1 ≤ k := fun hne => by
    by_contra hk0
    refine hne (if_neg fun hm => hm.2.1 (h.over (by omega)))
  by_cases hnot : s.NotComplete (.main env)
  · obtain ⟨hlist, hit, hhandlers⟩ := h.main_same cfg env
    refine ⟨k - (s.shutdownMoves (.main env)).length,
      .sweep (h.mainStep env hnot) (fun n hn => ?_) (by omega), ?_⟩
    · rw [Process.item, hlist, hit, hhandlers]
      exact hitems n hn
    · rcases Nat.eq_zero_or_pos (s.shutdownMoves (.main env)).length with h0 | hpos
      · omega
      · have := hlt (List.ne_nil_of_length_pos hpos)
        omega
  · rw [NotComplete, visit] at hnot
    obtain ⟨pc, hs, hstop⟩ := h.pos.stop
    cases hstop with
    | check visits n rest tvar =>
      obtain ⟨item, heq, hok⟩ := hitems n (by simp)
      have hc : item.threadComplete = true := by simpa [hs, heq] using hnot
      have hstep : s.mainStep cfg env = { s with pc := .join .cleanup n tvar } := by
        simp [Process.mainStep, hs, heq, hc]
      rw [hstep]
      refine ⟨4, .join rfl (fun pass m tvar' hm => ?_) (h.listed.hasItem) le_rfl, ?_⟩
      · obtain ⟨-, rfl, -⟩ := MainPc.join.inj hm
        exact ⟨item, heq, hok, hc⟩
      · simp only [List.length_append, List.length_map, List.length_cons] at hk
        omega
    | _ => simp [hs] at hnot

/-- In the accept loop again, at the start of a reaping pass or outside of it. -/
theorem Books.left (hb : s.Books (kept ++ todo)) (hat : s.At kept todo) (hacc : s.pc.accepting)
    (hpc : s.pc = .first .reaping ∨ s.pc.reaping = false) (hk : s.pc.left s.listLength 0 0 ≤ k) :
    Left s k := by
  rcases hpc with hpc | hpc
  · have hswept : s.Swept (kept ++ todo) [] kept todo := by
      rw [Swept, hpc]
      exact ⟨rfl, rfl⟩
    refine .pass hb hat (by rw [hpc]; rfl) hswept (joinReady_of_pc (by simp [hpc])) ?_
    rwa [hpc] at hk ⊢
  · exact .loop hb hat hacc hpc hk

/-- A step of `main`. -/
theorem Left.main (h : Left s k) (hflag : s.sys.shouldTerminate = true) (cfg : Startup) (env : MainEnv) :
    ∃ k', Left (s.mainStep cfg env) k' ∧ (s.shutdownMoves (.main env)).length + k' ≤ k := by
  have hmoves := s.length_shutdownMoves_le (.main env)
  cases h with
  | @loop kept todo hb hat hacc hreap hk =>
    by_cases hfirst : s.pc = .first .cleanup
    · have hsweep : s.Sweep (kept ++ todo) [] 0 s := by
        refine ⟨hb.toListed, fun n hn => ⟨hn, List.not_mem_nil⟩, nofun, ?_⟩
        rw [Sweeping, hfirst]
        exact ⟨rfl, rfl⟩
      have hitems : ∀ n ∈ kept ++ todo,
          ∃ item, s.item n = some (n, item) ∧ item.Ok n (s.handlers n) := by
        intro n hn
        obtain ⟨item, -, heq, hok⟩ := hb.item_eq hn
        exact ⟨item, heq, hok⟩
      rw [hfirst, MainPc.left, hb.listLength] at hk
      exact hsweep.left_main hitems (by omega) env
    · obtain ⟨hacc', hpc', -, hle⟩ := hb.loopStep hat hacc hreap hfirst cfg env
      specialize hle hflag
      obtain ⟨kept', todo', hb', hat'⟩ := hb.mainStep hat env hacc'
      exact ⟨_, hb'.left hat' hacc' hpc' le_rfl, by omega⟩
  | @pass kept todo l visits hb hat hreap hswept hj hk =>
    by_cases hwait : s.waitsFor = none
    · obtain ⟨hj', hpc', hle⟩ := hb.passStep_left hat hreap hswept hj hwait cfg env
      obtain ⟨kept', todo', hb', hat', hswept'⟩ := hb.reapingStep cfg hat env hreap
      rcases hpc' with hpc' | hpc'
      · exact ⟨_, .pass hb' hat' hpc' (hswept' l visits hswept) hj' le_rfl, by omega⟩
      · rw [hpc'] at hle
        change 3 * (s.mainStep cfg env).listLength + 7 + 1 ≤ _ at hle
        refine ⟨3 * (s.mainStep cfg env).listLength + 7, ?_, by omega⟩
        exact hb'.left hat' (by rw [hpc']; rfl) (.inr (by rw [hpc']; rfl)) (by rw [hpc']; exact le_rfl)
    · rw [hj.mainStep_eq hwait]
      refine ⟨k, .pass hb hat hreap hswept hj hk, ?_⟩
      simp [shutdownMoves, hwait]
  | sweep h hitems hk => exact h.left_main hitems hk env
  | @join n tvar hpc hj hitems hk =>
    rcases hj.cases cfg hpc with ⟨-, hw, hstep⟩ | ⟨-, -, hstep⟩
    · rw [hstep]
      refine ⟨k, .join hpc hj hitems hk, ?_⟩
      simp [shutdownMoves, hw]
    · rw [hstep]
      exact ⟨3, .remove rfl le_rfl, by omega⟩
  | remove hpc hk =>
    simp only [Process.mainStep, hpc]
    exact ⟨2, .free rfl le_rfl, by omega⟩
  | @free n tvar hpc hk =>
    simp only [Process.mainStep, hpc]
    exact ⟨1, .advance rfl (freeConnListItem_nodes s n) (.inr le_rfl), by omega⟩
  | advance hpc hnone hk =>
    simp only [Process.mainStep, hpc, hnone]
    refine ⟨0, .advance hpc hnone (.inl rfl), ?_⟩
    rcases hk with hfault | hk
    · simp [shutdownMoves, Over, hfault]
    · omega

/-! ### Steps of the others -/

theorem fault_threadStep (h : s.list.fault = true) (cfg : Startup) (t : ℕ) (env : Env) :
    (s.threadStep cfg t env).list.fault = true := by
  rcases hs : s.handlers t with _ | stage
  · simpa only [threadStep, hs] using h
  rcases hitem : s.items t with _ | item
  · cases stage with
    | ended => simpa only [threadStep, hs] using h
    | running | flagged => simp only [threadStep, hs, hitem, faulted]
  cases stage with
  | running =>
    rcases threadStep_running cfg hs hitem env with ⟨-, hstep⟩ | ⟨-, socks, sys, closed, hstep⟩ <;>
      rwa [hstep]
  | flagged | ended => simpa only [threadStep, hs, hitem] using h

theorem HasItem.threadStep {u : ℕ} (hu : s.HasItem u) (t : ℕ) (ht : s.HasItem t) (cfg : Startup)
    (env : Env) :
    (s.threadStep cfg t env).HasItem u := by
  have hf := threadFrame ht cfg env
  intro hs he
  obtain ⟨item, hitem⟩ := hu ((hf.handlers u).not.mp hs) fun h => he (hf.ended u h)
  exact Option.ne_none_iff_exists'.mp ((hf.items u).not.mpr (by simp [hitem]))

theorem Left.threadStep (h : Left s k) (hex : s.pc ≠ .exited) (cfg : Startup) (t : ℕ) (env : Env) :
    Left (s.threadStep cfg t env) k := by
  obtain ⟨hpc, hnodes⟩ := threadStep_main cfg s t env
  cases h with
  | loop hb hat hacc hreap hk =>
    have hf := threadFrame (hb.hasItem t) cfg env
    refine .loop (hb.threadStep cfg t env) (hat.congr hf) (by rwa [hpc]) (by rwa [hpc]) ?_
    rwa [Process.listLength, hpc, hf.inserted, hf.removed]
  | @pass kept todo l visits hb hat hreap hswept hj hk =>
    have hf := threadFrame (hb.hasItem t) cfg env
    have hswept' : (s.threadStep cfg t env).Swept l visits kept todo := by
      rw [Swept] at hswept ⊢
      rwa [hpc]
    refine .pass (hb.threadStep cfg t env) (hat.congr hf) (by rwa [hpc]) hswept'
      (hj.threadStep cfg (hb.hasItem t) env) ?_
    rwa [Process.listLength, hpc, hf.inserted, hf.removed]
  | sweep h hitems hk =>
    have hnot : s.NotComplete (.thread t env) := by simp [NotComplete]
    have hsweep : Sweep _ _ _ _ (s.step cfg (.thread t env)) := h.step hnot
    rw [step_thread hex, visit_thread, List.append_nil] at hsweep
    refine .sweep hsweep (fun n hn => ?_) hk
    obtain ⟨item, hitem, hok⟩ := hitems n hn
    obtain ⟨item', hitem', hok', -⟩ := item_threadStep cfg hitem hok (h.listed.hasItem t) env
    exact ⟨item', hitem', hok'⟩
  | join hpc' hj hitems hk =>
    exact .join (hpc.trans hpc') (hj.threadStep cfg (hitems t) env)
      (fun u => (hitems u).threadStep t (hitems t) cfg env) hk
  | remove hpc' hk => exact .remove (hpc.trans hpc') hk
  | free hpc' hk => exact .free (hpc.trans hpc') hk
  | advance hpc' hnone hk =>
    exact .advance (hpc.trans hpc') (by rw [hnodes, hnone])
      (hk.imp (fun h => fault_threadStep h cfg t env) id)

/-- What a signal handler changes does not matter to `main`. -/
theorem Left.frame (h : Left s k) (socks : ℕ → Option Sock) (sys : System ℕ) (catching : ℕ)
    (closed : List ℕ) :
    Left { s with socks := socks, sys := sys, catching := catching, closed := closed } k := by
  cases h with
  | loop hb hat hacc hreap hk => exact .loop (hb.frame socks sys catching closed) hat hacc hreap hk
  | pass hb hat hreap hswept hj hk =>
    exact .pass (hb.frame socks sys catching closed) hat hreap hswept hj hk
  | sweep h hitems hk => exact .sweep ⟨{ h.listed with }, h.found, h.all, h.pos⟩ hitems hk
  | join hpc hj hitems hk => exact .join hpc hj hitems hk
  | remove hpc hk => exact .remove hpc hk
  | free hpc hk => exact .free hpc hk
  | advance hpc hnone hk => exact .advance hpc hnone hk

/-! ### Runs -/

theorem mainStep_flag (cfg : Startup) (s : Process) (env : MainEnv) :
    s.accepted ≤ (s.mainStep cfg env).accepted ∧
      (s.mainStep cfg env).sys.shouldTerminate = s.sys.shouldTerminate := by
  by_cases hc : s.pc = .closeServer
  · simp only [Process.mainStep, hc]
    exact ⟨le_rfl, rfl⟩
  by_cases ha : s.pc = .accept
  · simp only [Process.mainStep, ha]
    split <;> exact ⟨by dsimp only; omega, rfl⟩
  · obtain ⟨-, hsys, -, haccepted⟩ := mainStep_same cfg ha hc env
    exact ⟨haccepted.ge, by rw [hsys]⟩

theorem threadStep_flag (cfg : Startup) (s : Process) (t : ℕ) (env : Env) :
    (s.threadStep cfg t env).accepted = s.accepted ∧
      (s.threadStep cfg t env).sys.shouldTerminate = s.sys.shouldTerminate := by
  have hsys : ∀ (sys : System ℕ) env, (sys.threadStep t env).shouldTerminate = sys.shouldTerminate := by
    intro sys env
    obtain ⟨_, hframe⟩ := sys.threadStep_frame t env
    exact hframe.shouldTerminate
  rcases hs : s.handlers t with _ | stage
  · simp only [Process.threadStep, hs, and_self]
  rcases hitem : s.items t with _ | item
  · cases stage <;> simp only [Process.threadStep, hs, hitem, faulted, and_self]
  cases stage with
  | flagged | ended => simp only [Process.threadStep, hs, hitem, and_self]
  | running =>
    cases hpc : (s.sys.threads t).pc with
    | complete => simp only [Process.threadStep, hs, hitem, hpc, and_self]
    | writeClose | readClose =>
      simp only [Process.threadStep, hs, hitem, hpc, hsys]
      cases (s.sys.threads t).fd <;> exact ⟨rfl, rfl⟩
    | closeConnection =>
      simp only [Process.threadStep, hs, hitem, hpc, hsys]
      exact ⟨rfl, rfl⟩
    | _ => simp only [Process.threadStep, hs, hitem, hpc, hsys, and_self]

theorem Books.listLength_le (h : s.Books l) : s.listLength ≤ s.accepted := by
  have hsub : s.inserted.toFinset ⊆ Finset.range s.accepted := fun n hn =>
    Finset.mem_range.mpr (h.inserted_lt n (List.mem_toFinset.mp hn))
  have hcard := Finset.card_le_card hsub
  rw [List.toFinset_card_of_nodup h.inserted_nodup, Finset.card_range] at hcard
  exact (List.length_filter_le _ _).trans hcard

/-- A pass that has found everything before the place where `main` is not complete. -/
theorem At.exists_swept (hat : s.At kept todo) (hreap : s.pc.reaping) :
    ∃ visits, s.Swept (kept ++ todo) visits kept todo := by
  have hkept : incomplete (kept.map fun n => (n, false)) = kept := by
    simp [incomplete, List.filter_map, Function.comp_def]
  have hfst : (kept.map fun n => (n, false)).map Prod.fst = kept := by simp [Function.comp_def]
  obtain ⟨pc, hpc, hreaps⟩ : ∃ pc, s.pc = pc ∧ pc.Reaps := ⟨_, rfl, MainPc.reaps hreap⟩
  rw [At, hpc] at hat
  cases hreaps with
  | first => exact ⟨[], by simp only [Swept, hpc, and_self]⟩
  | join n _ | remove n _ =>
    obtain ⟨⟨rest, rfl, -⟩, -⟩ := hat
    refine ⟨kept.map (fun n => (n, false)) ++ [(n, true)], ?_⟩
    simp only [Swept, hpc, incomplete_concat_true, hkept, List.map_append, hfst]
    simp
  | _ => exact ⟨kept.map fun n => (n, false), by simp only [Swept, hpc, hkept, hfst, and_self]⟩

/-- Wherever `main` is in its loop. -/
theorem Books.left_accepting (hb : s.Books (kept ++ todo)) (hat : s.At kept todo)
    (hacc : s.pc.accepting) (hj : s.JoinReady) : Left s (9 * s.accepted + 22) := by
  have hle := hb.listLength_le
  cases hreap : s.pc.reaping with
  | false =>
    refine .loop hb hat hacc hreap ?_
    cases hpc : s.pc with
    | first pass => cases pass <;> simp only [MainPc.left] <;> omega
    | test pass _ | check pass _ _ | join pass _ _ | remove pass _ _ | free pass _ _ | advance pass _ _ =>
      cases pass with
      | reaping => simp [hpc, MainPc.reaping] at hreap
      | cleanup => simp [hpc, MainPc.accepting] at hacc
    | _ =>
      simp only [MainPc.left]
      omega
  | true =>
    obtain ⟨visits, hswept⟩ := hat.exists_swept hreap
    refine .pass hb hat hreap hswept hj ?_
    rw [hb.listLength] at hle ⊢
    obtain ⟨pc, hpc, hreaps⟩ : ∃ pc, s.pc = pc ∧ pc.Reaps := ⟨_, rfl, MainPc.reaps hreap⟩
    cases hreaps <;> simp only [hpc, MainPc.left] <;> omega

/-- The flag is not set yet. -/
structure Serving (s : Process) : Prop where
  flag : s.sys.shouldTerminate = false
  kept : ∃ kept todo, s.Books (kept ++ todo) ∧ s.At kept todo
  accepting : s.pc.accepting
  first : s.pc ≠ .first .cleanup
  joinReady : s.JoinReady

theorem Serving.left (h : s.Serving) : Left s (9 * s.accepted + 22) := by
  obtain ⟨kept, todo, hb, hat⟩ := h.kept
  exact hb.left_accepting hat h.accepting h.joinReady

theorem Serving.main (h : s.Serving) (cfg : Startup) (env : MainEnv) :
    (s.mainStep cfg env).Serving := by
  obtain ⟨kept, todo, hb, hat⟩ := h.kept
  have hflag : (s.mainStep cfg env).sys.shouldTerminate = false :=
    (mainStep_flag cfg s env).2.trans h.flag
  cases hreap : s.pc.reaping with
  | false =>
    obtain ⟨hacc, hpc, hfirst, -⟩ := hb.loopStep hat h.accepting hreap h.first cfg env
    refine ⟨hflag, hb.mainStep hat env hacc, hacc, fun hf => ?_,
      joinReady_of_pc fun pass n tvar hj => ?_⟩
    · rw [h.flag] at hfirst
      exact absurd (hfirst hf) (by simp)
    · rw [hj] at hacc hpc
      cases pass with
      | reaping => simp [MainPc.reaping] at hpc
      | cleanup => simp [MainPc.accepting] at hacc
  | true =>
    by_cases hwait : s.waitsFor = none
    · obtain ⟨visits, hswept⟩ := hat.exists_swept hreap
      obtain ⟨hj, hpc, -⟩ := hb.passStep_left hat hreap hswept h.joinReady hwait cfg env
      obtain ⟨kept', todo', hb', hat', -⟩ := hb.reapingStep cfg hat env hreap
      have hacc : (s.mainStep cfg env).pc.accepting ∧ (s.mainStep cfg env).pc ≠ .first .cleanup := by
        rcases hpc with hpc | hpc
        · obtain ⟨pc, hp, hreaps⟩ : ∃ pc, (s.mainStep cfg env).pc = pc ∧ pc.Reaps :=
            ⟨_, rfl, MainPc.reaps hpc⟩
          rw [hp]
          cases hreaps <;> exact ⟨rfl, by simp⟩
        · rw [hpc]
          exact ⟨rfl, by simp⟩
      exact ⟨hflag, ⟨kept', todo', hb', hat'⟩, hacc.1, hacc.2, hj⟩
    · rw [h.joinReady.mainStep_eq hwait]
      exact h

theorem Serving.threadStep (h : s.Serving) (cfg : Startup) (t : ℕ) (env : Env) :
    (s.threadStep cfg t env).Serving := by
  obtain ⟨kept, todo, hb, hat⟩ := h.kept
  have hf := threadFrame (hb.hasItem t) cfg env
  refine ⟨(threadStep_flag cfg s t env).2.trans h.flag,
    ⟨kept, todo, hb.threadStep cfg t env, hat.congr hf⟩, ?_, ?_, h.joinReady.threadStep cfg (hb.hasItem t) env⟩
  · rw [hf.pc]
    exact h.accepting
  · rw [hf.pc]
    exact h.first

theorem Serving.frame (h : s.Serving) (socks : ℕ → Option Sock) (sys : System ℕ)
    (hsys : sys.shouldTerminate = false) (catching : ℕ) (closed : List ℕ) :
    { s with socks := socks, sys := sys, catching := catching, closed := closed }.Serving := by
  obtain ⟨kept, todo, hb, hat⟩ := h.kept
  exact ⟨hsys, ⟨kept, todo, hb.frame socks sys catching closed, hat⟩, h.accepting, h.first, h.joinReady⟩

theorem shutdownMoves_eq_nil (h : s.sys.shouldTerminate = false) (a : ProcLabel) :
    s.shutdownMoves a = [] := by
  cases a with
  | main env => simp [shutdownMoves, h]
  | _ => rfl

/-- The flag is not set, or `c` statements were executed since and `k` are left. -/
def Ending (c : ℕ) (s : Process) : Prop :=
  (s.Serving ∧ c = 0) ∨ (s.sys.shouldTerminate = true ∧ ∃ k, Left s k ∧ c + k ≤ 9 * s.accepted + 22)

theorem Ending.step {c : ℕ} (h : s.Ending c) (cfg : Startup) (a : ProcLabel) :
    (s.step cfg a).Ending (c + (s.shutdownMoves a).length) := by
  by_cases hex : s.pc = .exited
  · have hmoves : s.shutdownMoves a = [] := by
      cases a with
      | main env => simp [shutdownMoves, Over, hex]
      | _ => rfl
    rwa [step_exited hex, hmoves]
  rcases h with ⟨hs, rfl⟩ | ⟨hflag, k, hleft, hk⟩
  · rw [shutdownMoves_eq_nil hs.flag]
    cases a with
    | main env =>
      rw [step_main hex]
      exact .inl ⟨hs.main cfg env, rfl⟩
    | thread t env =>
      rw [step_thread hex]
      exact .inl ⟨hs.threadStep cfg t env, rfl⟩
    | signal =>
      rw [step_signal hex]
      exact .inl ⟨hs.frame _ (s.sys.close (some cfg.serverSock)) hs.flag _ _, rfl⟩
    | setTerminate =>
      rw [Process.step, if_neg hex]
      dsimp only
      split_ifs
      · exact .inl ⟨hs, rfl⟩
      · exact .inr ⟨rfl, _, hs.left.frame .., by simp⟩
  · right
    cases a with
    | main env =>
      obtain ⟨k', hleft', hk'⟩ := hleft.main hflag cfg env
      obtain ⟨haccepted, hflag'⟩ := mainStep_flag cfg s env
      rw [step_main hex]
      exact ⟨hflag'.trans hflag, k', hleft', by omega⟩
    | thread t env =>
      obtain ⟨haccepted, hflag'⟩ := threadStep_flag cfg s t env
      rw [step_thread hex]
      exact ⟨hflag'.trans hflag, k, hleft.threadStep hex cfg t env, by rw [haccepted]; exact hk⟩
    | signal =>
      rw [step_signal hex]
      exact ⟨hflag, k, hleft.frame .., hk⟩
    | setTerminate =>
      rw [Process.step, if_neg hex]
      dsimp only
      split_ifs
      · exact ⟨hflag, k, hleft, hk⟩
      · exact ⟨rfl, k, hleft.frame .., hk⟩

theorem run_ending (cfg : Startup) (as : List ProcLabel) :
    (run (step cfg) (.initial cfg) as).Ending
      (outputs (step cfg) shutdownMoves (.initial cfg) as).length := by
  induction as using List.reverseRecOn with
  | nil =>
    exact .inl ⟨⟨rfl, ⟨[], [], books_initial cfg, trivial⟩, rfl, nofun, joinReady_of_pc nofun⟩, rfl⟩
  | append_singleton as a ih =>
    rw [run_concat, outputs_concat, List.length_append]
    exact ih.step cfg a

theorem Left.joinReady (h : Left s k) : s.JoinReady := by
  cases h with
  | loop hb hat hacc hreap hk =>
    refine joinReady_of_pc fun pass n tvar hpc => ?_
    rw [hpc] at hacc hreap
    cases pass with
    | reaping => simp [MainPc.reaping] at hreap
    | cleanup => simp [MainPc.accepting] at hacc
  | pass hb hat hreap hswept hj hk => exact hj
  | sweep h hitems hk =>
    refine joinReady_of_pc fun pass n tvar hpc => ?_
    obtain ⟨pc, hs, hstop⟩ := h.pos.stop
    rw [hpc] at hs
    subst hs
    cases hstop
  | join hpc hj hitems hk => exact hj
  | remove hpc hk => exact joinReady_of_pc (by simp [hpc])
  | free hpc hk => exact joinReady_of_pc (by simp [hpc])
  | advance hpc hnone hk => exact joinReady_of_pc (by simp [hpc])

theorem Ending.joinReady {c : ℕ} (h : s.Ending c) : s.JoinReady := by
  rcases h with ⟨hs, -⟩ | ⟨-, k, hleft, -⟩
  · exact hs.joinReady
  · exact hleft.joinReady

/-- The thread that `main` waits for has only to return. -/
theorem JoinReady.flagged (h : s.JoinReady) {t : ℕ} (hw : s.waitsFor = some t) :
    s.handlers t = some .flagged ∧ ∀ env, (s.step cfg (.thread t env)).waitsFor = none := by
  obtain ⟨pass, n, tvar, hpc⟩ := waitsFor_eq_some hw
  rcases h.cases cfg hpc with ⟨hf, hw', -⟩ | ⟨-, hw', -⟩
  · obtain rfl : n = t := Option.some.inj (hw'.symm.trans hw)
    obtain ⟨item, hitem, -⟩ := h pass n tvar hpc
    obtain ⟨-, -, -, hn⟩ := item_eq_some_iff.mp hitem
    refine ⟨hf, fun env => ?_⟩
    have hstep : s.step cfg (.thread n env) =
        { s with handlers := Function.update s.handlers n (some .ended) } := by
      rw [step_thread (by simp [hpc])]
      simp only [Process.threadStep, hf, hn]
    have hready := h.threadStep cfg (t := n) (fun _ _ => ⟨item, hn⟩) env
    rw [← step_thread (by simp [hpc]), hstep] at hready
    rw [hstep]
    rcases hready.cases cfg hpc with ⟨hf', -⟩ | ⟨-, hw', -⟩
    · simp at hf'
    · exact hw'
  · rw [hw'] at hw
    cases hw

end Process

/-- From the moment `should_terminate` is set, and until it has returned or advances from
an element that is freed, `main` executes at most nine statements for a connection and
22 more, whatever the threads, the clients and further signals do. In every run, as long
as `main` has done neither, when it waits for a thread in `pthread_join`, that thread has
set `thread_complete`, and its next step ends the waiting. -/
theorem shutdown_bounded (cfg : Startup) (as : List ProcLabel) :
    let s := run (Process.step cfg) (.initial cfg) as
    (outputs (Process.step cfg) Process.shutdownMoves (.initial cfg) as).length ≤ 9 * s.accepted + 22 ∧
      ∀ t, s.waitsFor = some t → s.handlers t = some .flagged ∧
        ∀ env, (s.step cfg (.thread t env)).waitsFor = none := by
  intro s
  have h := Process.run_ending cfg as
  refine ⟨?_, fun t hw => h.joinReady.flagged hw⟩
  rcases h with ⟨-, hnone⟩ | ⟨-, k, -, hk⟩
  · rw [hnone]
    exact Nat.zero_le _
  · exact Nat.le_of_add_right_le hk

end Aesd.Server
