import Mathlib.Data.List.Infix

/-! Finite runs of a total step function. A run is a list of labels; a blocked
or refused label leaves the state alone, so every label can be taken in every
state. Conditions on steps are judged in the state before the step, invariants
in every state a run passes through, and outputs are collected in order. -/

namespace Aesd.Run

variable {σ ℓ ω : Type*} (step : σ → ℓ → σ)

def run (s : σ) (as : List ℓ) : σ := as.foldl step s

@[simp] theorem run_nil (s : σ) : run step s [] = s := rfl

@[simp] theorem run_cons (s : σ) (a : ℓ) (as : List ℓ) :
    run step s (a :: as) = run step (step s a) as := rfl

theorem run_append (s : σ) (as bs : List ℓ) :
    run step s (as ++ bs) = run step (run step s as) bs := List.foldl_append

theorem run_concat (s : σ) (as : List ℓ) (a : ℓ) :
    run step s (as ++ [a]) = step (run step s as) a := by
  rw [run_append, run_cons, run_nil]

/-- Every step of the run meets `P`. -/
def Along (P : σ → ℓ → Prop) : σ → List ℓ → Prop
  | _, [] => True
  | s, a :: as => P s a ∧ Along P (step s a) as

/-- `I` holds in every state the run passes through, the last one included. -/
def Always (I : σ → Prop) (s : σ) (as : List ℓ) : Prop :=
  ∀ before, before <+: as → I (run step s before)

/-- Everything the steps of the run put out, in order. -/
def outputs (out : σ → ℓ → List ω) : σ → List ℓ → List ω
  | _, [] => []
  | s, a :: as => out s a ++ outputs out (step s a) as

instance decidableAlong (P : σ → ℓ → Prop) [∀ s a, Decidable (P s a)] :
    ∀ s as, Decidable (Along step P s as)
  | _, [] => inferInstanceAs (Decidable True)
  | s, a :: as =>
    have := decidableAlong P (step s a) as
    inferInstanceAs (Decidable (P s a ∧ Along step P (step s a) as))

variable {step}

theorem along_true (s : σ) (as : List ℓ) : Along step (fun _ _ => True) s as := by
  induction as generalizing s with
  | nil => trivial
  | cons a as ih => exact ⟨trivial, ih _⟩

theorem along_append {P : σ → ℓ → Prop} {s : σ} {as bs : List ℓ} :
    Along step P s (as ++ bs) ↔ Along step P s as ∧ Along step P (run step s as) bs := by
  induction as generalizing s with
  | nil => simp [Along]
  | cons a as ih => simp only [List.cons_append, Along, ih, run_cons, and_assoc]

theorem along_concat {P : σ → ℓ → Prop} {s : σ} {as : List ℓ} {a : ℓ} :
    Along step P s (as ++ [a]) ↔ Along step P s as ∧ P (run step s as) a := by
  simp [along_append, Along]

theorem outputs_append (out : σ → ℓ → List ω) (s : σ) (as bs : List ℓ) :
    outputs step out s (as ++ bs) = outputs step out s as ++ outputs step out (run step s as) bs := by
  induction as generalizing s with
  | nil => rfl
  | cons a as ih => simp only [List.cons_append, outputs, ih, run_cons, List.append_assoc]

theorem outputs_concat (out : σ → ℓ → List ω) (s : σ) (as : List ℓ) (a : ℓ) :
    outputs step out s (as ++ [a]) = outputs step out s as ++ out (run step s as) a := by
  simp [outputs_append, outputs]

/-- When steps put out at most one item, every item belongs to one step. -/
theorem outputs_split {out : σ → ℓ → List ω} (hone : ∀ s a, (out s a).length ≤ 1) {s : σ}
    {as : List ℓ} {pre post : List ω} {e : ω} (h : outputs step out s as = pre ++ e :: post) :
    ∃ before a after, as = before ++ a :: after ∧ outputs step out s before = pre ∧
      out (run step s before) a = [e] := by
  induction as generalizing s pre with
  | nil => simp [outputs] at h
  | cons a as ih =>
    rw [outputs] at h
    rcases hout : out s a with _ | ⟨x, _ | ⟨y, ys⟩⟩
    · rw [hout, List.nil_append] at h
      obtain ⟨before, b, after, rfl, hpre, he⟩ := ih h
      exact ⟨a :: before, b, after, rfl, by rw [outputs, hout, List.nil_append, hpre], he⟩
    · rw [hout, List.singleton_append] at h
      cases pre with
      | nil =>
        obtain ⟨rfl, -⟩ := List.cons.inj h
        exact ⟨[], a, as, rfl, rfl, hout⟩
      | cons p pre =>
        obtain ⟨rfl, htail⟩ := List.cons.inj h
        obtain ⟨before, b, after, rfl, hpre, he⟩ := ih htail
        exact ⟨a :: before, b, after, rfl, by rw [outputs, hout, hpre]; rfl, he⟩
    · have := hone s a
      rw [hout] at this
      simp at this

/-- What every admissible step keeps holds at the end of an admissible run. -/
theorem invariant {P : σ → ℓ → Prop} {I : σ → Prop} (hstep : ∀ s a, I s → P s a → I (step s a))
    {s : σ} (h0 : I s) {as : List ℓ} (h : Along step P s as) : I (run step s as) := by
  induction as generalizing s with
  | nil => exact h0
  | cons a as ih => exact ih (hstep s a h0 h.1) h.2

/-- The same for steps without any condition. -/
theorem invariant_of_step {I : σ → Prop} (hstep : ∀ s a, I s → I (step s a)) {s : σ} (h0 : I s)
    (as : List ℓ) : I (run step s as) := by
  induction as generalizing s with
  | nil => exact h0
  | cons a as ih => exact ih (hstep s a h0)

/-- A condition that an invariant gives holds along the run. -/
theorem Along.of_invariant {P Q : σ → ℓ → Prop} {I : σ → Prop}
    (hstep : ∀ s a, I s → P s a → I (step s a)) (hQ : ∀ s a, I s → P s a → Q s a) {s : σ}
    (h0 : I s) {as : List ℓ} (h : Along step P s as) : Along step Q s as := by
  induction as generalizing s with
  | nil => trivial
  | cons a as ih => exact ⟨hQ s a h0 h.1, ih (hstep s a h0 h.1) h.2⟩

theorem Along.mono {P Q : σ → ℓ → Prop} {s : σ} {as : List ℓ} (h : Along step P s as)
    (hPQ : ∀ s a, P s a → Q s a) : Along step Q s as :=
  Along.of_invariant (I := fun _ => True) (fun _ _ _ _ => trivial) (fun s a _ => hPQ s a) trivial h

variable (step) in
/-- An invariant may speak about the labels of the run so far. -/
theorem invariant_trace {P : σ → ℓ → Prop} {I : List ℓ → σ → Prop} {s : σ} (h0 : I [] s)
    (hstep : ∀ before t a, I before t → P t a → I (before ++ [a]) (step t a)) {as : List ℓ}
    (h : Along step P s as) : I as (run step s as) := by
  induction as using List.reverseRecOn with
  | nil => exact h0
  | append_singleton as a ih =>
    rw [along_concat] at h
    rw [run_concat]
    exact hstep as _ a (ih h.1) h.2

theorem Along.shorten {P : σ → ℓ → Prop} {s : σ} {as bs : List ℓ} (h : Along step P s bs)
    (hp : as <+: bs) : Along step P s as := by
  obtain ⟨cs, rfl⟩ := hp
  exact (along_append.mp h).1

theorem Always.shorten {I : σ → Prop} {s : σ} {as bs : List ℓ} (h : Always step I s bs)
    (hp : as <+: bs) : Always step I s as :=
  fun cs hc => h cs (hc.trans hp)

theorem Always.last {I : σ → Prop} {s : σ} {as : List ℓ} (h : Always step I s as) :
    I (run step s as) := h as List.prefix_rfl

theorem always_concat {I : σ → Prop} {s : σ} {as : List ℓ} {a : ℓ} :
    Always step I s (as ++ [a]) ↔ Always step I s as ∧ I (step (run step s as) a) := by
  constructor
  · intro h
    exact ⟨h.shorten (List.prefix_append _ _), by simpa only [run_concat] using h.last⟩
  · rintro ⟨h, hl⟩ cs hc
    rcases List.prefix_concat_iff.mp hc with rfl | hc
    · rwa [run_concat]
    · exact h cs hc

/-- `J` is kept by every admissible step. If, under `J` and `I`, such a step keeps `I`
exactly when it meets `P`, then `I` holds throughout an admissible run exactly when all
of its steps meet `P`. -/
theorem always_iff_along_of {P Q : σ → ℓ → Prop} {I J : σ → Prop}
    (hJ : ∀ s a, J s → Q s a → J (step s a))
    (hI : ∀ s a, J s → Q s a → I s → (I (step s a) ↔ P s a)) {s : σ} (hJ0 : J s) (hI0 : I s)
    {as : List ℓ} (has : Along step Q s as) : Always step I s as ↔ Along step P s as := by
  induction as using List.reverseRecOn with
  | nil =>
    refine ⟨fun _ => trivial, fun _ cs hc => ?_⟩
    rw [List.prefix_nil.mp hc]
    exact hI0
  | append_singleton as a ih =>
    obtain ⟨has, ha⟩ := along_concat.mp has
    rw [always_concat, along_concat, ih has]
    refine and_congr_right fun h => hI _ a (invariant hJ hJ0 has) ha ?_
    exact ((ih has).mpr h).last

/-- The same for steps without any condition. -/
theorem always_iff_along {P : σ → ℓ → Prop} {I J : σ → Prop} (hJ : ∀ s a, J s → J (step s a))
    (hI : ∀ s a, J s → I s → (I (step s a) ↔ P s a)) {s : σ} (hJ0 : J s) (hI0 : I s)
    (as : List ℓ) : Always step I s as ↔ Along step P s as :=
  always_iff_along_of (Q := fun _ _ => True) (fun s a h _ => hJ s a h) (fun s a h _ => hI s a h)
    hJ0 hI0 (along_true s as)

/-! ### Runs that end -/

/-- Steps that make a measure smaller are no more than it. -/
theorem length_le_of_decreasing {P : σ → ℓ → Prop} {I : σ → Prop} (μ : σ → ℕ)
    (h : ∀ s a, I s → P s a → I (step s a) ∧ μ (step s a) < μ s) {s : σ} (hs : I s) {as : List ℓ}
    (has : Along step P s as) : as.length + μ (run step s as) ≤ μ s := by
  induction as generalizing s with
  | nil => simp
  | cons a as ih =>
    obtain ⟨hI, hlt⟩ := h s a hs has.1
    have := ih hI has.2
    rw [List.length_cons, run_cons]
    omega

/-- When such a step is possible in every state that is not final, a final state can
be reached from everywhere. -/
theorem exists_final {P : σ → ℓ → Prop} {I F : σ → Prop} (μ : σ → ℕ)
    (h : ∀ s a, I s → P s a → I (step s a) ∧ μ (step s a) < μ s)
    (hnext : ∀ s, I s → ¬ F s → ∃ a, P s a) {s : σ} (hs : I s) :
    ∃ as, Along step P s as ∧ F (run step s as) := by
  induction hn : μ s using Nat.strong_induction_on generalizing s with
  | _ n ih =>
    by_cases hF : F s
    · exact ⟨[], trivial, hF⟩
    · obtain ⟨a, ha⟩ := hnext s hs hF
      obtain ⟨hI, hlt⟩ := h s a hs ha
      obtain ⟨as, has, hfinal⟩ := ih _ (hn ▸ hlt) hI rfl
      exact ⟨a :: as, ⟨ha, has⟩, hfinal⟩

/-! ### Specifications -/

variable {τ : Type*}

/-- The events are those of a path from `v` to `w` of a specification `R`. -/
def Path (R : τ → ω → τ → Prop) : τ → List ω → τ → Prop
  | v, [], w => v = w
  | v, e :: es, w => ∃ u, R v e u ∧ Path R u es w

theorem Path.append {R : τ → ω → τ → Prop} {u v w : τ} {es fs : List ω} (h : Path R u es v)
    (h' : Path R v fs w) : Path R u (es ++ fs) w := by
  induction es generalizing u with
  | nil => exact h.symm ▸ h'
  | cons e es ih =>
    obtain ⟨t, ht, hp⟩ := h
    exact ⟨t, ht, ih hp⟩

/-- If every admissible step is matched by a path of the specification over what it puts
out, so is every admissible run. -/
theorem exists_path {P : σ → ℓ → Prop} {out : σ → ℓ → List ω} {R : τ → ω → τ → Prop} {I : σ → τ → Prop}
    (hstep : ∀ s a v, I s v → P s a → ∃ w, Path R v (out s a) w ∧ I (step s a) w) {s : σ} {v : τ}
    (h0 : I s v) {as : List ℓ} (h : Along step P s as) :
    ∃ w, Path R v (outputs step out s as) w ∧ I (run step s as) w := by
  induction as generalizing s v with
  | nil => exact ⟨v, rfl, h0⟩
  | cons a as ih =>
    obtain ⟨u, hu, hI⟩ := hstep s a v h0 h.1
    obtain ⟨w, hw, hfinal⟩ := ih hI h.2
    exact ⟨w, hu.append hw, hfinal⟩

/-! ### Parts -/

variable {κ : Type*}

/-- In admissible runs `f` shows a part of the system that takes the steps `labels` on
its own. -/
structure IsPart (step : σ → ℓ → σ) (step' : τ → κ → τ) (f : σ → τ) (labels : σ → ℓ → List κ)
    (P : σ → ℓ → Prop) (I : σ → Prop) : Prop where
  keep : ∀ s a, I s → P s a → I (step s a)
  part : ∀ s a, I s → P s a → f (step s a) = run step' (f s) (labels s a)

namespace IsPart

variable {step' : τ → κ → τ} {f : σ → τ} {labels : σ → ℓ → List κ} {P : σ → ℓ → Prop} {I : σ → Prop}

theorem run_eq (h : IsPart step step' f labels P I) {s : σ} (h0 : I s) {as : List ℓ}
    (has : Along step P s as) : f (run step s as) = run step' (f s) (outputs step labels s as) := by
  induction as generalizing s with
  | nil => rfl
  | cons a as ih =>
    rw [run_cons, outputs, run_append, ← h.part s a h0 has.1]
    exact ih (h.keep s a h0 has.1) has.2

theorem outputs_eq (h : IsPart step step' f labels P I) (out : τ → κ → List ω) {s : σ} (h0 : I s)
    {as : List ℓ} (has : Along step P s as) : outputs step' out (f s) (outputs step labels s as) =
      outputs step (fun s a => outputs step' out (f s) (labels s a)) s as := by
  induction as generalizing s with
  | nil => rfl
  | cons a as ih =>
    rw [outputs, outputs, outputs_append, ← h.part s a h0 has.1, ih (h.keep s a h0 has.1) has.2]

theorem along_iff (h : IsPart step step' f labels P I) (Q : τ → κ → Prop) {s : σ} (h0 : I s)
    {as : List ℓ} (has : Along step P s as) : Along step' Q (f s) (outputs step labels s as) ↔
      Along step (fun s a => Along step' Q (f s) (labels s a)) s as := by
  induction as generalizing s with
  | nil => exact Iff.rfl
  | cons a as ih =>
    rw [outputs, along_append, ← h.part s a h0 has.1, ih (h.keep s a h0 has.1) has.2, Along]

end IsPart

end Aesd.Run
