import Mathlib.Logic.Function.Basic
import Aesd.Lib.Run

/-! Code under a lock is atomic. Any number of threads run programs of their own;
from time to time one of them enters a section, which works on shared data under
one lock, step by step. Every interleaving of the steps has the same events, in the
same order, as a serial run: there every section is a single step, taken at the
moment the section returns. A section may return without giving the lock back. -/

namespace Aesd.Atomic

open Run

/-- The program of a thread. `δ` is what a thread knows outside of sections, `κ` the
sections it can ask for, `L` what it knows inside of one, `ρ` what a section
returns and `S` the shared data; steps outside and inside get their outcomes from
`η` and `ε`, and `ω` are the events. -/
structure Program (δ κ η L ε S ρ ω : Type*) where
  next : δ → Option κ
  move : δ → η → δ
  enter : κ → S → L × S
  step : L → ε → S → (L ⊕ ρ) × S
  leave : δ → ρ → δ
  keeps : ρ → Bool
  moved : δ → η → List ω
  returned : δ → κ → ρ → List ω

variable {ι δ κ η L ε S ρ ω : Type*}

/-! ### Sections by themselves -/

namespace Program

variable (P : Program δ κ η L ε S ρ ω)

/-- The steps of a section that has not returned. -/
def within (l : L) : List ε → S → Option (L × S)
  | [], s => some (l, s)
  | e :: es, s =>
    match P.step l e s with
    | (.inl l, s) => within l es s
    | (.inr _, _) => none

/-- A section that returns with the last of its steps. -/
def exec (l : L) : List ε → S → Option (ρ × S)
  | [], _ => none
  | e :: es, s =>
    match P.step l e s with
    | (.inl l, s) => exec l es s
    | (.inr r, s) => if es.isEmpty then some (r, s) else none

/-- Every step of the section meets `R`. -/
def Meets (R : L → ε → S → Prop) (l : L) : List ε → S → Prop
  | [], _ => True
  | e :: es, s => R l e s ∧
    match P.step l e s with
    | (.inl l, s) => Meets R l es s
    | (.inr _, _) => True

variable {P} {R : L → ε → S → Prop} {l l' : L} {es : List ε} {e : ε} {s s' : S}

theorem within_cons {l₁ : L} {s₁ : S} (h : P.step l e s = (.inl l₁, s₁)) :
    P.within l (e :: es) s = P.within l₁ es s₁ := by
  rw [within, h]

theorem within_cons_of_return {r : ρ} {s₁ : S} (h : P.step l e s = (.inr r, s₁)) :
    P.within l (e :: es) s = none := by
  rw [within, h]

theorem exec_cons {l₁ : L} {s₁ : S} (h : P.step l e s = (.inl l₁, s₁)) :
    P.exec l (e :: es) s = P.exec l₁ es s₁ := by
  rw [exec, h]

theorem exec_singleton {r : ρ} {s₁ : S} (h : P.step l e s = (.inr r, s₁)) :
    P.exec l [e] s = some (r, s₁) := by
  rw [exec, h]
  rfl

theorem exec_cons_of_return {r : ρ} {s₁ : S} (h : P.step l e s = (.inr r, s₁)) {x : ρ × S}
    (hx : P.exec l (e :: es) s = some x) : x = (r, s₁) := by
  rw [exec, h] at hx
  dsimp only at hx
  split_ifs at hx
  exact (Option.some.inj hx).symm

theorem within_concat {l'' : L} {s'' : S} (h : P.within l es s = some (l', s'))
    (hstep : P.step l' e s' = (.inl l'', s'')) : P.within l (es ++ [e]) s = some (l'', s'') := by
  induction es generalizing l s with
  | nil =>
    cases h
    exact within_cons hstep
  | cons a es ih =>
    rcases ha : P.step l a s with ⟨l₁ | r, s₁⟩
    · rw [within_cons ha] at h
      rw [List.cons_append, within_cons ha]
      exact ih h
    · rw [within_cons_of_return ha] at h
      cases h

theorem exec_concat {r : ρ} {s'' : S} (h : P.within l es s = some (l', s'))
    (hstep : P.step l' e s' = (.inr r, s'')) : P.exec l (es ++ [e]) s = some (r, s'') := by
  induction es generalizing l s with
  | nil =>
    cases h
    exact exec_singleton hstep
  | cons a es ih =>
    rcases ha : P.step l a s with ⟨l₁ | r, s₁⟩
    · rw [within_cons ha] at h
      rw [List.cons_append, exec_cons ha]
      exact ih h
    · rw [within_cons_of_return ha] at h
      cases h

theorem Meets.concat (hm : P.Meets R l es s) (h : P.within l es s = some (l', s')) (hR : R l' e s') :
    P.Meets R l (es ++ [e]) s := by
  induction es generalizing l s with
  | nil =>
    cases h
    refine ⟨hR, ?_⟩
    split <;> trivial
  | cons a es ih =>
    refine ⟨hm.1, ?_⟩
    have hm := hm.2
    rcases ha : P.step l a s with ⟨l₁ | r, s₁⟩
    · rw [within_cons ha] at h
      rw [ha] at hm
      exact ih hm h
    · trivial

/-- What every step keeps, and what the last one gives. -/
theorem exec_spec {I : L → S → Prop} {Post : ρ → S → Prop}
    (hinl : ∀ l e s l' s', I l s → R l e s → P.step l e s = (.inl l', s') → I l' s')
    (hinr : ∀ l e s r s', I l s → R l e s → P.step l e s = (.inr r, s') → Post r s') {r : ρ}
    (h0 : I l s) (hm : P.Meets R l es s) (hexec : P.exec l es s = some (r, s')) : Post r s' := by
  induction es generalizing l s with
  | nil => cases hexec
  | cons e es ih =>
    obtain ⟨hR, hm⟩ := hm
    rcases hstep : P.step l e s with ⟨l₁ | r₁, s₁⟩
    · rw [exec_cons hstep] at hexec
      rw [hstep] at hm
      exact ih (hinl l e s l₁ s₁ h0 hR hstep) hm hexec
    · obtain ⟨rfl, rfl⟩ := Prod.mk.inj (exec_cons_of_return hstep hexec)
      exact hinr l e s r s' h0 hR hstep

variable (P) in
/-- With the right outcomes the section returns within `n` steps. -/
def Ends (l : L) (s : S) (n : ℕ) (x : ρ × S) : Prop := ∃ es, es.length ≤ n ∧ P.exec l es s = some x

theorem Ends.of_return {r : ρ} (h : P.step l e s = (.inr r, s')) (n : ℕ) : P.Ends l s (n + 1) (r, s') :=
  ⟨[e], by simp, exec_singleton h⟩

theorem Ends.of_step {n : ℕ} {x : ρ × S} (h : P.Ends l' s' n x) (hstep : P.step l e s = (.inl l', s')) :
    P.Ends l s (n + 1) x := by
  obtain ⟨es, hlen, hexec⟩ := h
  exact ⟨e :: es, by simpa using hlen, by rw [exec_cons hstep, hexec]⟩

theorem Ends.mono {m n : ℕ} {x : ρ × S} (h : P.Ends l s m x) (hmn : m ≤ n) : P.Ends l s n x := by
  obtain ⟨es, hlen, hexec⟩ := h
  exact ⟨es, hlen.trans hmn, hexec⟩

/-- Without a choice of outcomes there is one way to go on from where the section is. -/
theorem Ends.within [Subsingleton ε] {n : ℕ} {x : ρ × S} (h : P.Ends l s n x)
    (hwithin : P.within l es s = some (l', s')) : P.Ends l' s' n x := by
  obtain ⟨es', hlen, hexec⟩ := h
  induction es generalizing l s n es' with
  | nil =>
    cases hwithin
    exact ⟨es', hlen, hexec⟩
  | cons a es ih =>
    cases es' with
    | nil => cases hexec
    | cons b es' =>
      obtain rfl := Subsingleton.elim a b
      rcases ha : P.step l a s with ⟨l₁ | r, s₁⟩
      · rw [within_cons ha] at hwithin
        rw [exec_cons ha] at hexec
        rw [List.length_cons] at hlen
        exact (ih hwithin es' (Nat.le_refl _) hexec).mono (by omega)
      · rw [within_cons_of_return ha] at hwithin
        cases hwithin

theorem Ends.exec_eq [Subsingleton ε] {n : ℕ} {x y : ρ × S} (h : P.Ends l s n x)
    (hexec : P.exec l es s = some y) : y = x := by
  obtain ⟨es', -, hexec'⟩ := h
  induction es generalizing l s es' with
  | nil => cases hexec
  | cons a es ih =>
    cases es' with
    | nil => cases hexec'
    | cons b es' =>
      obtain rfl := Subsingleton.elim a b
      rcases ha : P.step l a s with ⟨l₁ | r, s₁⟩
      · rw [exec_cons ha] at hexec hexec'
        exact ih hexec es' hexec'
      · exact (exec_cons_of_return ha hexec).trans (exec_cons_of_return ha hexec').symm

end Program

/-! ### Interleaved runs -/

inductive Phase (δ κ L : Type*) where
  | outside (d : δ)
  | inside (d : δ) (c : κ) (l : L)

structure Threads (ι δ κ L S : Type*) where
  shared : S
  owner : Option ι
  phase : ι → Phase δ κ L

inductive Label (ι η ε : Type*) where
  | move (t : ι) (e : η)
  | enter (t : ι)
  | inside (t : ι) (e : ε)

def Label.thread : Label ι η ε → ι
  | .move t _ | .enter t | .inside t _ => t

def Threads.initial (s : S) (d : ι → δ) : Threads ι δ κ L S := ⟨s, none, fun t => .outside (d t)⟩

variable [DecidableEq ι]

def Threads.put (s : Threads ι δ κ L S) (t : ι) (p : Phase δ κ L) : Threads ι δ κ L S :=
  { s with phase := Function.update s.phase t p }

theorem Threads.put_phase_self (s : Threads ι δ κ L S) (t : ι) (p : Phase δ κ L) :
    (s.put t p).phase t = p := Function.update_self ..

theorem Threads.put_phase_of_ne (s : Threads ι δ κ L S) {t u : ι} (hu : u ≠ t) (p : Phase δ κ L) :
    (s.put t p).phase u = s.phase u := Function.update_of_ne hu ..

namespace Program

variable (P : Program δ κ η L ε S ρ ω)

/-- A thread that finds the lock taken waits: its step changes nothing. -/
def threadStep (s : Threads ι δ κ L S) : Label ι η ε → Threads ι δ κ L S
  | .move t e =>
    match s.phase t with
    | .outside d => if (P.next d).isNone then s.put t (.outside (P.move d e)) else s
    | .inside .. => s
  | .enter t =>
    match s.phase t, s.owner with
    | .outside d, none =>
      match P.next d with
      | none => s
      | some c =>
        let (l, shared) := P.enter c s.shared
        { s with shared := shared, owner := some t }.put t (.inside d c l)
    | _, _ => s
  | .inside t e =>
    match s.phase t with
    | .outside _ => s
    | .inside d c l =>
      match P.step l e s.shared with
      | (.inl l, shared) => { s with shared := shared }.put t (.inside d c l)
      | (.inr r, shared) =>
        { s with shared := shared, owner := if P.keeps r then s.owner else none }.put t
          (.outside (P.leave d r))

def event (s : Threads ι δ κ L S) : Label ι η ε → List (ι × ω)
  | .move t e =>
    match s.phase t with
    | .outside d => if (P.next d).isNone then (P.moved d e).map (t, ·) else []
    | .inside .. => []
  | .enter _ => []
  | .inside t e =>
    match s.phase t with
    | .outside _ => []
    | .inside d c l =>
      match P.step l e s.shared with
      | (.inl _, _) => []
      | (.inr r, _) => (P.returned d c r).map (t, ·)

/-- The other threads stay where they are. -/
theorem threadStep_phase_of_ne (s : Threads ι δ κ L S)
    {a : Label ι η ε} {u : ι} (hu : u ≠ a.thread) : (P.threadStep s a).phase u = s.phase u := by
  cases a with
  | move t e =>
    rw [threadStep]
    split
    · split_ifs
      · exact Function.update_of_ne hu _ _
      · rfl
    · rfl
  | enter t =>
    rw [threadStep]
    split
    · split
      · rfl
      · exact Function.update_of_ne hu _ _
    · rfl
  | inside t e =>
    rw [threadStep]
    split
    · rfl
    · split <;> exact Function.update_of_ne hu _ _

/-- Nobody takes a step under the lock, and nobody gets it, when it is kept by a thread
outside. -/
theorem threadStep_of_lost {s : Threads ι δ κ L S}
    (hlost : s.owner ≠ none) (hq : ∀ t d c l, s.phase t ≠ .inside d c l) (a : Label ι η ε) :
    P.threadStep s a = s ∨ ∃ t d d', s.phase t = .outside d ∧ P.next d = none ∧
      P.threadStep s a = s.put t (.outside d') := by
  cases a with
  | move t e =>
    cases ht : s.phase t with
    | inside d c l => exact absurd ht (hq t d c l)
    | outside d =>
      simp only [threadStep, ht]
      split_ifs with hnext
      · exact .inr ⟨t, d, _, ht, Option.isNone_iff_eq_none.mp hnext, rfl⟩
      · exact .inl rfl
  | enter t =>
    obtain ⟨u, hu⟩ := Option.ne_none_iff_exists'.mp hlost
    left
    cases ht : s.phase t <;> simp [threadStep, ht, hu]
  | inside t e =>
    cases ht : s.phase t with
    | inside d c l => exact absurd ht (hq t d c l)
    | outside d => exact .inl (by simp only [threadStep, ht])

end Program

/-- Steps outside meet `Q` and steps inside meet `R`. -/
def Threads.StepMeets (Q : δ → η → Prop) (R : L → ε → S → Prop) (s : Threads ι δ κ L S) :
    Label ι η ε → Prop
  | .move t e => ∀ d, s.phase t = .outside d → Q d e
  | .enter _ => True
  | .inside t e => ∀ d c l, s.phase t = .inside d c l → R l e s.shared

instance decidableStepMeets (Q : δ → η → Prop) (R : L → ε → S → Prop) [∀ d e, Decidable (Q d e)]
    [∀ l e s, Decidable (R l e s)] (s : Threads ι δ κ L S) : ∀ a, Decidable (s.StepMeets Q R a)
  | .move t e =>
    match h : s.phase t with
    | .outside d => decidable_of_iff (Q d e) (by simp [Threads.StepMeets, h])
    | .inside .. => isTrue (by simp [Threads.StepMeets, h])
  | .enter _ => isTrue trivial
  | .inside t e =>
    match h : s.phase t with
    | .outside _ => isTrue (by simp [Threads.StepMeets, h])
    | .inside _ _ l => decidable_of_iff (R l e s.shared) (by simp [Threads.StepMeets, h])

theorem along_stepMeets_true (P : Program δ κ η L ε S ρ ω) (s : Threads ι δ κ L S)
    (as : List (Label ι η ε)) :
    Along P.threadStep (Threads.StepMeets (fun _ _ => True) fun _ _ _ => True) s as := by
  refine Along.of_invariant (P := fun _ _ => True) (I := fun _ => True) (fun _ _ _ _ => trivial)
    (fun s a _ _ => ?_) trivial (along_true s as)
  cases a <;> simp [Threads.StepMeets]

/-! ### Serial runs -/

structure Serial (ι δ S : Type*) where
  shared : S
  held : Bool
  thread : ι → δ

inductive SerialLabel (ι η ε : Type*) where
  | move (t : ι) (e : η)
  | call (t : ι) (es : List ε)

def Serial.initial (s : S) (d : ι → δ) : Serial ι δ S := ⟨s, false, d⟩

namespace Program

variable (P : Program δ κ η L ε S ρ ω)

/-- The section that a thread asks for and can get, with what it does. -/
def calls (s : Serial ι δ S) (t : ι) (es : List ε) : Option (κ × ρ × S) :=
  if s.held then none
  else (P.next (s.thread t)).bind fun c =>
    let (l, shared) := P.enter c s.shared
    (P.exec l es shared).map (c, ·)

variable {P} in
omit [DecidableEq ι] in
theorem calls_eq_some {s : Serial ι δ S} {t : ι} {es : List ε} {c : κ} {r : ρ} {shared : S}
    (h : P.calls s t es = some (c, r, shared)) :
    s.held = false ∧ P.next (s.thread t) = some c ∧
      P.exec (P.enter c s.shared).1 es (P.enter c s.shared).2 = some (r, shared) := by
  rw [calls] at h
  split_ifs at h with hheld
  obtain ⟨c', hnext, hmap⟩ := Option.bind_eq_some_iff.mp h
  obtain ⟨x, hexec, hx⟩ := Option.map_eq_some_iff.mp hmap
  cases hx
  exact ⟨by simpa using hheld, hnext, hexec⟩

def serialStep (s : Serial ι δ S) : SerialLabel ι η ε → Serial ι δ S
  | .move t e =>
    if (P.next (s.thread t)).isNone then
      { s with thread := Function.update s.thread t (P.move (s.thread t) e) }
    else s
  | .call t es =>
    match P.calls s t es with
    | none => s
    | some (_, r, shared) =>
      ⟨shared, P.keeps r, Function.update s.thread t (P.leave (s.thread t) r)⟩

def serialEvent (s : Serial ι δ S) : SerialLabel ι η ε → List (ι × ω)
  | .move t e => if (P.next (s.thread t)).isNone then (P.moved (s.thread t) e).map (t, ·) else []
  | .call t es =>
    match P.calls s t es with
    | none => []
    | some (c, r, _) => (P.returned (s.thread t) c r).map (t, ·)

def SerialMeets (Q : δ → η → Prop) (R : L → ε → S → Prop) (s : Serial ι δ S) : SerialLabel ι η ε → Prop
  | .move t e => Q (s.thread t) e
  | .call t es => ∀ c, P.next (s.thread t) = some c →
      P.Meets R (P.enter c s.shared).1 es (P.enter c s.shared).2

/-! ### Both -/

/-- The serial run is where the sections that have returned lead to. The one that is
under way has not begun there. -/
structure Follows (R : L → ε → S → Prop) (s : Threads ι δ κ L S) (s' : Serial ι δ S) : Prop where
  outside : ∀ t d, s.phase t = .outside d → s'.thread t = d
  inside : ∀ t d c l, s.phase t = .inside d c l →
    s.owner = some t ∧ s'.held = false ∧ s'.thread t = d ∧ P.next d = some c ∧
      ∃ es, P.within (P.enter c s'.shared).1 es (P.enter c s'.shared).2 = some (l, s.shared) ∧
        P.Meets R (P.enter c s'.shared).1 es (P.enter c s'.shared).2
  quiet : (∀ t d c l, s.phase t ≠ .inside d c l) → s.shared = s'.shared ∧ s'.held = s.owner.isSome

variable {P} {Q : δ → η → Prop} {R : L → ε → S → Prop} {s : Threads ι δ κ L S} {s' : Serial ι δ S}

omit [DecidableEq ι] in
theorem follows_initial (P : Program δ κ η L ε S ρ ω) (R : L → ε → S → Prop) (s : S) (d : ι → δ) :
    P.Follows R (Threads.initial s d) (Serial.initial s d) where
  outside t d' h := by
    cases h
    rfl
  inside t d' c l h := by cases h
  quiet _ := ⟨rfl, rfl⟩

omit [DecidableEq ι] in
/-- Two threads are never inside at the same time. -/
theorem Follows.unique (h : P.Follows R s s') {t u : ι} {d d' : δ} {c c' : κ} {l l' : L}
    (ht : s.phase t = .inside d c l) (hu : s.phase u = .inside d' c' l') : t = u :=
  Option.some.inj ((h.inside t d c l ht).1.symm.trans (h.inside u d' c' l' hu).1)

omit [DecidableEq ι] in
/-- When a section has kept the lock, nobody is inside and the lock is not free. -/
theorem Follows.lost (h : P.Follows R s s') (hheld : s'.held = true) :
    (∀ t d c l, s.phase t ≠ .inside d c l) ∧ s.owner ≠ none := by
  have hnobody : ∀ t d c l, s.phase t ≠ .inside d c l := fun t d c l ht => by
    rw [(h.inside t d c l ht).2.1] at hheld
    cases hheld
  refine ⟨hnobody, fun howner => ?_⟩
  have hquiet := (h.quiet hnobody).2
  rw [hheld, howner] at hquiet
  cases hquiet

/-- A step outside. -/
theorem Follows.move (h : P.Follows R s s') {t : ι} {d : δ} (ht : s.phase t = .outside d) (d' : δ) :
    P.Follows R (s.put t (.outside d')) { s' with thread := Function.update s'.thread t d' } where
  outside u d₁ hu := by
    by_cases hut : u = t
    · subst hut
      simp only [Threads.put, Function.update_self, Phase.outside.injEq] at hu ⊢
      exact hu
    · simp only [Threads.put, Function.update_of_ne hut] at hu ⊢
      exact h.outside u d₁ hu
  inside u d₁ c l hu := by
    have hut : u ≠ t := fun hut => by simp [Threads.put, hut] at hu
    simp only [Threads.put, Function.update_of_ne hut] at hu ⊢
    exact h.inside u d₁ c l hu
  quiet hq := by
    refine h.quiet fun u d₁ c l hu => ?_
    have hut : u ≠ t := fun hut => by simp [hut, ht] at hu
    exact hq u d₁ c l (by simpa [Threads.put, Function.update_of_ne hut] using hu)

/-- Entering is not yet seen in the serial run. -/
theorem Follows.enter (h : P.Follows R s s') {t : ι} {d : δ} {c : κ} (ht : s.phase t = .outside d)
    (hnext : P.next d = some c) (howner : s.owner = none) :
    P.Follows R ({ s with shared := (P.enter c s.shared).2, owner := some t }.put t
      (.inside d c (P.enter c s.shared).1)) s' := by
  have hnobody : ∀ u d c l, s.phase u ≠ .inside d c l := fun u d c l hu =>
    absurd (h.inside u d c l hu).1 (by simp [howner])
  obtain ⟨hshared, hheld⟩ := h.quiet hnobody
  refine ⟨fun u d₁ hu => ?_, fun u d₁ c₁ l hu => ?_, fun hq => ?_⟩
  · have hut : u ≠ t := fun hut => by simp [Threads.put, hut] at hu
    exact h.outside u d₁ (by simpa [Threads.put, Function.update_of_ne hut] using hu)
  · by_cases hut : u = t
    · subst hut
      simp only [Threads.put, Function.update_self, Phase.inside.injEq] at hu
      obtain ⟨rfl, rfl, rfl⟩ := hu
      refine ⟨rfl, by rw [hheld, howner]; rfl, h.outside u d ht, hnext, [], ?_, trivial⟩
      rw [← hshared]
      rfl
    · simp only [Threads.put, Function.update_of_ne hut] at hu
      exact absurd hu (hnobody u d₁ c₁ l)
  · exact absurd (by simp [Threads.put]) (hq t d c (P.enter c s.shared).1)

/-- A section goes on. -/
theorem Follows.within (h : P.Follows R s s') {t : ι} {d : δ} {c : κ} {l l' : L} {e : ε} {shared : S}
    (ht : s.phase t = .inside d c l) (hstep : P.step l e s.shared = (.inl l', shared))
    (hR : R l e s.shared) : P.Follows R ({ s with shared := shared }.put t (.inside d c l')) s' := by
  refine ⟨fun u d₁ hu => ?_, fun u d₁ c₁ l₁ hu => ?_, fun hq => ?_⟩
  · have hut : u ≠ t := fun hut => by simp [Threads.put, hut] at hu
    exact h.outside u d₁ (by simpa [Threads.put, Function.update_of_ne hut] using hu)
  · by_cases hut : u = t
    · subst hut
      simp only [Threads.put, Function.update_self, Phase.inside.injEq] at hu
      obtain ⟨rfl, rfl, rfl⟩ := hu
      obtain ⟨howner, hheld, hthread, hnext, es, hwithin, hmeets⟩ := h.inside u d c l ht
      exact ⟨howner, hheld, hthread, hnext, es ++ [e], within_concat hwithin hstep,
        hmeets.concat hwithin hR⟩
    · simp only [Threads.put, Function.update_of_ne hut] at hu
      exact absurd (h.unique hu ht) hut
  · exact absurd (by simp [Threads.put]) (hq t d c l')

/-- A section returns: in the serial run it is called now. -/
theorem Follows.returned (h : P.Follows R s s') {t : ι} {d : δ} {c : κ} {l : L} {e : ε} {r : ρ}
    {shared : S} (ht : s.phase t = .inside d c l) (hstep : P.step l e s.shared = (.inr r, shared))
    (hR : R l e s.shared) : ∃ es, P.calls s' t es = some (c, r, shared) ∧
      P.SerialMeets Q R s' (.call t es) ∧
      P.Follows R ({ s with shared := shared, owner := if P.keeps r then s.owner else none }.put t
          (.outside (P.leave d r)))
        ⟨shared, P.keeps r, Function.update s'.thread t (P.leave (s'.thread t) r)⟩ := by
  obtain ⟨howner, hheld, hthread, hnext, es, hwithin, hmeets⟩ := h.inside t d c l ht
  refine ⟨es ++ [e], ?_, ?_, ?_⟩
  · rw [calls, if_neg (by simp [hheld]), hthread, hnext, Option.bind_some]
    dsimp only
    rw [exec_concat hwithin hstep, Option.map_some]
  · intro c' hc'
    rw [hthread, hnext] at hc'
    obtain rfl := Option.some.inj hc'
    exact hmeets.concat hwithin hR
  · refine ⟨fun u d₁ hu => ?_, fun u d₁ c₁ l₁ hu => ?_, fun _ => ⟨rfl, ?_⟩⟩
    · by_cases hut : u = t
      · subst hut
        simp only [Threads.put, Function.update_self, Phase.outside.injEq] at hu ⊢
        rw [hthread, hu]
      · simp only [Threads.put, Function.update_of_ne hut] at hu ⊢
        exact h.outside u d₁ hu
    · have hut : u ≠ t := fun hut => by simp [Threads.put, hut] at hu
      simp only [Threads.put, Function.update_of_ne hut] at hu
      exact absurd (h.unique hu ht) hut
    · cases P.keeps r <;> simp [Threads.put, howner]

theorem Follows.step (h : P.Follows R s s') {a : Label ι η ε} (ha : s.StepMeets Q R a) :
    ∃ bs : List (SerialLabel ι η ε), Along P.serialStep (P.SerialMeets Q R) s' bs ∧
      outputs P.serialStep P.serialEvent s' bs = P.event s a ∧
      P.Follows R (P.threadStep s a) (run P.serialStep s' bs) := by
  cases a with
  | move t e =>
    cases ht : s.phase t with
    | inside d c l =>
      simp only [threadStep, event, ht]
      exact ⟨[], trivial, rfl, h⟩
    | outside d =>
      have hthread := h.outside t d ht
      refine ⟨[.move t e], ⟨?_, trivial⟩, ?_, ?_⟩
      · rw [SerialMeets, hthread]
        exact ha d ht
      · simp only [outputs, serialEvent, event, ht, hthread, List.append_nil]
      · simp only [run_cons, run_nil, serialStep, threadStep, ht, hthread]
        split_ifs
        · exact h.move ht _
        · exact h
  | enter t =>
    refine ⟨[], trivial, rfl, ?_⟩
    cases ht : s.phase t with
    | inside d c l =>
      simp only [threadStep, ht]
      exact h
    | outside d =>
      cases howner : s.owner with
      | some u =>
        simp only [threadStep, ht, howner]
        exact h
      | none =>
        cases hnext : P.next d with
        | none =>
          simp only [threadStep, ht, howner, hnext]
          exact h
        | some c =>
          simp only [threadStep, ht, howner, hnext]
          exact h.enter ht hnext howner
  | inside t e =>
    cases ht : s.phase t with
    | outside d =>
      simp only [threadStep, event, ht]
      exact ⟨[], trivial, rfl, h⟩
    | inside d c l =>
      rcases hstep : P.step l e s.shared with ⟨l' | r, shared⟩
      · simp only [threadStep, event, ht, hstep]
        exact ⟨[], trivial, rfl, h.within ht hstep (ha d c l ht)⟩
      · obtain ⟨es, hcalls, hmeets, hfollows⟩ := h.returned (Q := Q) ht hstep (ha d c l ht)
        refine ⟨[.call t es], ⟨hmeets, trivial⟩, ?_, ?_⟩
        · simp only [outputs, serialEvent, event, ht, hstep, hcalls, List.append_nil]
          rw [(h.inside t d c l ht).2.2.1]
        · simp only [run_cons, run_nil, serialStep, hcalls, threadStep, ht, hstep]
          exact hfollows

/-- Every interleaved run has the events of a serial run, in the same order, and
leads to the same data. -/
theorem exists_serial (P : Program δ κ η L ε S ρ ω) {shared : S} {d : ι → δ} {as : List (Label ι η ε)}
    (h : Along P.threadStep (Threads.StepMeets Q R) (.initial shared d) as) :
    ∃ bs : List (SerialLabel ι η ε),
      Along P.serialStep (P.SerialMeets Q R) (.initial shared d) bs ∧
      outputs P.serialStep P.serialEvent (.initial shared d) bs =
        outputs P.threadStep P.event (.initial shared d) as ∧
      P.Follows R (run P.threadStep (.initial shared d) as)
        (run P.serialStep (.initial shared d) bs) := by
  induction as using List.reverseRecOn with
  | nil => exact ⟨[], trivial, rfl, follows_initial P R shared d⟩
  | append_singleton as a ih =>
    rw [along_concat] at h
    obtain ⟨bs, halong, hout, hfollows⟩ := ih h.1
    obtain ⟨bs', halong', hout', hfollows'⟩ := hfollows.step h.2
    refine ⟨bs ++ bs', along_append.mpr ⟨halong, halong'⟩, ?_, ?_⟩
    · rw [outputs_append, outputs_concat, hout, hout']
    · rw [run_concat, run_append]
      exact hfollows'

/-- A section goes through when nobody else takes steps. -/
theorem run_inside (P : Program δ κ η L ε S ρ ω) {s : Threads ι δ κ L S} {t : ι} {d : δ} {c : κ} {l : L}
    {r : ρ} {shared : S} {es : List ε} (ht : s.phase t = .inside d c l)
    (hexec : P.exec l es s.shared = some (r, shared)) :
    run P.threadStep s (es.map (.inside t ·)) =
        { s with shared := shared, owner := if P.keeps r then s.owner else none }.put t
          (.outside (P.leave d r)) ∧
      outputs P.threadStep P.event s (es.map (.inside t ·)) = (P.returned d c r).map (t, ·) := by
  induction es generalizing s l with
  | nil => cases hexec
  | cons e es ih =>
    rw [List.map_cons, run_cons, outputs]
    rcases hstep : P.step l e s.shared with ⟨l' | r', shared'⟩
    · rw [exec_cons hstep] at hexec
      simp only [threadStep, event, ht, hstep, List.nil_append]
      obtain ⟨hrun, hout⟩ := ih (s := { s with shared := shared' }.put t (.inside d c l'))
        (by simp [Threads.put]) hexec
      exact ⟨by rw [hrun]; simp [Threads.put], hout⟩
    · obtain ⟨rfl, rfl⟩ := Prod.mk.inj (exec_cons_of_return hstep hexec)
      have hes : es = [] := by
        rw [exec, hstep] at hexec
        cases es with
        | nil => rfl
        | cons e' es => cases hexec
      subst hes
      simp only [threadStep, event, ht, hstep, List.map_nil, run_nil, outputs, List.append_nil, and_self]

end Program

end Aesd.Atomic
