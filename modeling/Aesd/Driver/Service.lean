import Aesd.Driver.Module
import Aesd.Driver.Contents
import Aesd.Driver.Reader

/-! What the device is for, over any number of loads. A load starts an empty log of
lines. A successful write adds to it, up to the first newline of the buffer, and
reports all of the buffer; a successful read returns what is left of the line at the
position of its file, in the last ten lines, and moves this one position. Failed calls
do nothing, as long as no `krealloc` fails while an unfinished line is held. -/

namespace Aesd.Driver

open Segments Run Window CircularBuffer

/-- The log while the module is loaded, and the positions of the open files. -/
structure Service where
  log : Option LineLog
  files : ℕ → Option ℕ

inductive ServiceEvent where
  | load
  | unload
  | openFile (file : ℕ)
  | release (file : ℕ)
  | wrote (file : ℕ) (bytes : List UInt8) (retval : ℤ)
  | got (file count : ℕ) (bytes : List Cell) (retval : ℤ)
  deriving DecidableEq

namespace Service

def initial : Service := ⟨none, fun _ => none⟩

inductive Step : Service → ServiceEvent → Service → Prop
  | load {v : Service} (hlog : v.log = none) : Step v .load { v with log := some ([], []) }
  | unload {v : Service} (hlog : v.log ≠ none) (hfiles : ∀ file, v.files file = none) :
      Step v .unload { v with log := none }
  | openFile {v : Service} {file : ℕ} (hlog : v.log ≠ none) (hfile : v.files file = none) :
      Step v (.openFile file) { v with files := Function.update v.files file (some 0) }
  | release {v : Service} {file : ℕ} (hfile : v.files file ≠ none) :
      Step v (.release file) { v with files := Function.update v.files file none }
  | wrote {v : Service} {file : ℕ} {st : LineLog} (hlog : v.log = some st) (hfile : v.files file ≠ none)
      (bytes : List UInt8) :
      Step v (.wrote file bytes bytes.length)
        { v with log := some ((cutAfter isNewline bytes).foldl (feed isNewline) st) }
  | got {v : Service} {file fPos : ℕ} {st : LineLog} (hlog : v.log = some st)
      (hfile : v.files file = some fPos)
      (count : ℕ) {bytes : List UInt8} (hbytes : bytes = (restAt (st.1.rtake 10) fPos).take count) :
      Step v (.got file count (bytes.map some) bytes.length)
        { v with files := Function.update v.files file (some (fPos + bytes.length)) }

end Service

/-! ### The events of a run -/

namespace ModuleState

/-- What a call achieves; a failed one is no event. -/
def events (s : ModuleState) : ModuleCall → List ServiceEvent
  | .insmod env =>
    if s.loaded = false ∧ (aesdInitModule env s.fresh).1 = 0 then [.load] else []
  | .rmmod => if s.loaded ∧ s.refcount = 0 then [.unload] else []
  | .openFile file major => if s.cdev = some major ∧ s.files file = none then [.openFile file] else []
  | .release file => if (s.files file).isSome then [.release file] else []
  | .write file env buf =>
    match s.files file with
    | none => []
    | some fPos =>
      let r := aesdWrite env s.driver buf fPos
      if 0 ≤ r.retval then [.wrote file buf.bytes r.retval] else []
  | .read file env count =>
    match s.files file with
    | none => []
    | some fPos =>
      let r := aesdRead env s.driver count fPos
      if 0 ≤ r.retval then [.got file count r.copied r.retval] else []

/-- No `krealloc` fails while the pending entry holds bytes. -/
def KeepsPending (s : ModuleState) : ModuleCall → Prop
  | .write file env buf => ∀ fPos ∈ s.files file, Driver.KeepsPending s.driver (.write env buf fPos)
  | _ => True

/-- The module as the service `v`. -/
structure Represents (s : ModuleState) (v : Service) : Prop where
  files : v.files = s.files
  log : ∀ st, v.log = some st → Repr s.driver st
  loaded : s.loaded = true ↔ v.log ≠ none

end ModuleState

/-! ### The calls of the driver -/

/-- A call that fails without losing the pending entry leaves the log as it was. -/
theorem Repr.write {s : State} {st : LineLog} (hs : Valid s) (hr : Repr s st) {env : WriteEnv}
    {buf : UserBuf}
    {fPos : ℕ} (hkeep : KeepsPending s (.write env buf fPos)) :
    Repr (aesdWrite env s buf fPos).state
      (if 0 ≤ (aesdWrite env s buf fPos).retval then buf.stored.foldl (feed isNewline) st else st) := by
  split_ifs with hret
  · exact hr.step (c := .write env buf fPos) hs hret
  · have heff := (aesdWrite_effect env hs.toReady buf fPos).2
    generalize (aesdWrite env s buf fPos).retval = ret, (aesdWrite env s buf fPos).state = s' at heff hret
    cases heff with
    | refused ret hneg ho => exact ⟨hr.shape, hr.ring, hr.pending⟩
    | lost ho hpos =>
      have hsize : s.dev.entry.size = 0 := Nat.eq_zero_of_not_pos fun h => hkeep ⟨ho, h⟩
      refine ⟨hr.shape, hr.ring, ?_⟩
      rw [hr.size_eq_zero_iff.mp hsize]
      simp [Kmem.entryBytes, Kmem.load, hsize, resize]
    | pending | completed => exact absurd (Int.natCast_nonneg buf.bytes.length) hret

/-- The bytes left in the entry at a position are the rest of the line there. -/
theorem Repr.take_left {s : State} {st : LineLog} (hs : Valid s) (hr : Repr s st) (fPos : ℕ) :
    (s.content.drop fPos).take (s.left fPos) = (restAt (st.1.rtake 10) fPos).map some := by
  set ws := (window s.dev.buffer.entry s.dev.buffer.outOffs 10).map s.mem.entryBytes with hws
  have hlines : ws = (st.1.rtake 10).map (·.map some) ++ List.replicate (10 - st.1.length) [] := by
    rw [hws, hr.shape.window_ten, List.map_append, hr.ring, List.map_replicate, Kmem.entryBytes_zero]
  have hrest : (restAt (st.1.rtake 10) fPos).map some = restAt ws fPos := by
    rw [hlines, restAt_append_replicate, restAt_map]
  have hbefore : ∀ j ≤ 10, (ws.take j).flatten.length = s.dev.buffer.sizeBefore j := fun j hj => by
    rw [← s.length_bytesBefore, hws, ← List.map_take]
    congr 3
    simp [window, List.take_range, Nat.min_eq_left hj, ← List.map_take]
  rw [hrest]
  rcases hs.left_cases fPos with ⟨hge, hleft, -⟩ | ⟨j, hj, hle, hlt, hleft, -⟩
  · rw [hleft, List.take_zero, restAt_of_le hge]
  · rw [← hbefore j (by omega)] at hle
    rw [← hbefore (j + 1) (by omega)] at hlt hleft
    rw [hleft, restAt_eq hle hlt]
    rfl

/-- A successful read, in terms of the log. -/
theorem Repr.read {s : State} {st : LineLog} (hs : Valid s) (hr : Repr s st) {env : ReadEnv}
    {count fPos : ℕ}
    (hret : 0 ≤ (aesdRead env s count fPos).retval) :
    let bytes := (restAt (st.1.rtake 10) fPos).take count
    (aesdRead env s count fPos).retval = bytes.length ∧
    (aesdRead env s count fPos).fPos = fPos + bytes.length ∧
      (aesdRead env s count fPos).copied = bytes.map some := by
  intro bytes
  rcases hs.read env count fPos with ⟨hneg, -⟩ | ⟨hk, hpos, hcopied⟩
  · omega
  · have hbytes : (s.content.drop fPos).take (min count (s.left fPos)) = bytes.map some := by
      rw [← List.take_take, hr.take_left hs, List.map_take]
    have hlen : bytes.length = min count (s.left fPos) := by
      have hsame := congrArg List.length hbytes
      rw [List.length_map, List.length_take, List.length_drop] at hsame
      rw [← hsame]
      rcases Nat.eq_zero_or_pos (s.left fPos) with h0 | hl
      · omega
      · have := hs.add_left_le hl
        omega
    rw [hk, hpos, hcopied, hlen, hbytes]
    exact ⟨rfl, rfl, rfl⟩

/-! ### Runs -/

namespace ModuleState

theorem initial_represents (taken : Finset ℕ) : (initial taken).Represents Service.initial where
  files := rfl
  log := nofun
  loaded := iff_of_false nofun (fun h => h rfl)

namespace Represents

variable {taken : Finset ℕ} {s : ModuleState} {v : Service}

theorem exists_log (h : s.Represents v) (hl : s.loaded = true) : ∃ st, v.log = some st :=
  Option.ne_none_iff_exists'.mp (h.loaded.mp hl)

theorem write (h : s.Represents v) (hok : s.Ok taken) {file : ℕ} {env : WriteEnv} {buf : UserBuf}
    (hkeep : s.KeepsPending (.write file env buf)) :
    ∃ w, Run.Path Service.Step v (s.events (.write file env buf)) w ∧
      (s.step (.write file env buf)).Represents w := by
  cases hfile : s.files file with
  | none => exact ⟨v, by simp [events, hfile, Run.Path], by simpa [ModuleState.step, hfile] using h⟩
  | some fPos =>
    have hl := hok.loaded hfile
    have hs := hok.valid hl
    obtain ⟨st, hst⟩ := h.exists_log hl
    have hrepr := (h.log st hst).write hs (hkeep fPos hfile)
    have hpos : (aesdWrite env s.driver buf fPos).fPos = fPos :=
      (aesdWrite_effect env hs.toReady buf fPos).1
    have hfiles : Function.update s.files file (some fPos) = s.files := by
      rw [Function.update_eq_self_iff, hfile]
    simp only [events, ModuleState.step, hfile, hpos, ite_self, hfiles]
    split_ifs at hrepr ⊢ with hret
    · rw [(hs.write_completes hret).1]
      refine ⟨_, ⟨_, .wrote hst (by rw [h.files, hfile]; simp) buf.bytes, rfl⟩, ?_⟩
      exact ⟨h.files, fun st' hst' => by cases hst'; exact hrepr, iff_of_true hl (by simp)⟩
    · refine ⟨v, rfl, ?_⟩
      exact ⟨h.files, fun st' hst' => by cases hst.symm.trans hst'; exact hrepr, h.loaded⟩

theorem read (h : s.Represents v) (hok : s.Ok taken) (file : ℕ) (env : ReadEnv) (count : ℕ) :
    ∃ w, Run.Path Service.Step v (s.events (.read file env count)) w ∧
      (s.step (.read file env count)).Represents w := by
  cases hfile : s.files file with
  | none => exact ⟨v, by simp [events, hfile, Run.Path], by simpa [ModuleState.step, hfile] using h⟩
  | some fPos =>
    have hl := hok.loaded hfile
    have hs := hok.valid hl
    obtain ⟨st, hst⟩ := h.exists_log hl
    simp only [events, ModuleState.step, hfile, aesdRead_state hs.unlocked]
    split_ifs with hret
    · obtain ⟨hk, hpos, hcopied⟩ := (h.log st hst).read hs hret
      rw [hk, hpos, hcopied]
      refine ⟨_, ⟨_, .got hst (h.files ▸ hfile) count rfl, rfl⟩, ?_⟩
      exact ⟨by rw [h.files], h.log, h.loaded⟩
    · have hfiles : Function.update s.files file (some fPos) = s.files := by
        rw [Function.update_eq_self_iff, hfile]
      exact ⟨v, rfl, by rw [hfiles, h.files], h.log, h.loaded⟩

theorem step (h : s.Represents v) (hok : s.Ok taken) {c : ModuleCall} (hkeep : s.KeepsPending c) :
    ∃ w, Run.Path Service.Step v (s.events c) w ∧ (s.step c).Represents w := by
  cases c with
  | insmod env =>
    cases hl : s.loaded with
    | true => exact ⟨v, by simp [events, hl, Run.Path], by simpa [ModuleState.step, hl] using h⟩
    | false =>
      have hlog : v.log = none := by
        by_contra hlog
        rw [h.loaded.mpr hlog] at hl
        cases hl
      rcases insmod_cases env hl with ⟨hret, major, hfree, heq⟩ | ⟨hret, major, device, owner, heq⟩
      · rw [events, if_pos ⟨hl, hret⟩, heq]
        refine ⟨_, ⟨_, .load hlog, rfl⟩, h.files, ?_, iff_of_true rfl (by simp)⟩
        rintro st ⟨⟩
        exact ⟨shape_init, rfl, rfl⟩
      · rw [events, if_neg (fun hc => hret hc.2), heq]
        refine ⟨v, rfl, h.files, fun st hst => ?_, h.loaded⟩
        cases hlog.symm.trans hst
  | rmmod =>
    rw [events, ModuleState.step]
    split_ifs with hc
    · have hlog := h.loaded.mp hc.1
      refine ⟨_, ⟨_, .unload hlog fun file => ?_, rfl⟩, h.files, by simp, iff_of_false (by simp) (by simp)⟩
      rw [h.files, hok.no_files hc.2]
    · exact ⟨v, rfl, h⟩
  | openFile file major =>
    by_cases hc : s.cdev = some major ∧ s.files file = none
    · rw [events, ModuleState.step, if_pos hc, if_pos hc]
      have hlog := h.loaded.mp (hok.loaded_of_cdev hc.1)
      have hfile : v.files file = none := by rw [h.files, hc.2]
      exact ⟨_, ⟨_, .openFile hlog hfile, rfl⟩, by rw [h.files], h.log, h.loaded⟩
    · rw [events, ModuleState.step, if_neg hc, if_neg hc]
      exact ⟨v, rfl, h⟩
  | release file =>
    by_cases hc : (s.files file).isSome
    · rw [events, ModuleState.step, if_pos hc, if_pos hc]
      have hfile : v.files file ≠ none := h.files ▸ Option.isSome_iff_ne_none.mp hc
      exact ⟨_, ⟨_, .release hfile, rfl⟩, by rw [h.files], h.log, h.loaded⟩
    · rw [events, ModuleState.step, if_neg hc, if_neg hc]
      exact ⟨v, rfl, h⟩
  | write file env buf => exact h.write hok hkeep
  | read file env count => exact h.read hok file env count

end Represents

instance (s : State) : (c : Call) → Decidable (Driver.KeepsPending s c)
  | .write _ _ _ => inferInstanceAs (Decidable (¬ (_ ∧ _)))
  | .read _ _ _ => inferInstanceAs (Decidable True)

instance (s : ModuleState) : (c : ModuleCall) → Decidable (s.KeepsPending c)
  | .write file _ _ => inferInstanceAs (Decidable (∀ fPos ∈ s.files file, _))
  | .insmod _ | .rmmod | .openFile _ _ | .release _ | .read _ _ _ => inferInstanceAs (Decidable True)

end ModuleState

open ModuleState

/-- Every run, over any number of loads and files, with any failures but a `krealloc`
that fails while an unfinished line is held: what its calls achieve is a behaviour of
the service, and the driver holds the log of the service at the end. -/
theorem module_refines_service (taken : Finset ℕ) (cs : List ModuleCall)
    (h : Along step ModuleState.KeepsPending (initial taken) cs) :
    ∃ v, Run.Path Service.Step .initial (outputs step events (initial taken) cs) v ∧
      (run step (initial taken) cs).Represents v := by
  have hstep : ∀ s c v, s.Ok taken ∧ s.Represents v → s.KeepsPending c →
      ∃ w, Run.Path Service.Step v (events s c) w ∧ (step s c).Ok taken ∧ (step s c).Represents w := by
    rintro s c v ⟨hok, hrep⟩ hc
    obtain ⟨w, hw, hrep'⟩ := hrep.step hok hc
    exact ⟨w, hw, hok.step c, hrep'⟩
  obtain ⟨v, hpath, -, hrep⟩ := exists_path (I := fun s v => s.Ok taken ∧ s.Represents v) hstep
    ⟨initial_ok taken, initial_represents taken⟩ h
  exact ⟨v, hpath, hrep⟩

/-- A line is written and read; then the module is unloaded and loaded again. -/
def reload : List ModuleCall :=
  [.insmod ⟨0, 240, 0, le_rfl⟩, .openFile 3 240, .write 3 (.ok 9 0) ⟨[98, newline], by decide⟩,
    .read 3 .ok 5, .release 3, .rmmod, .insmod ⟨0, 240, 0, le_rfl⟩, .openFile 3 240, .read 3 .ok 5]

theorem module_refines_service_reload : ∃ v, Run.Path Service.Step .initial
    [.load, .openFile 3, .wrote 3 [98, newline] 2, .got 3 5 [some 98, some newline] 2, .release 3,
      .unload, .load, .openFile 3, .got 3 5 [] 0] v := by
  obtain ⟨v, hpath, -⟩ := module_refines_service ∅ reload (by decide)
  have hevents : outputs step events (initial ∅) reload =
      [.load, .openFile 3, .wrote 3 [98, newline] 2, .got 3 5 [some 98, some newline] 2, .release 3,
        .unload, .load, .openFile 3, .got 3 5 [] 0] := by decide +kernel
  exact ⟨v, hevents ▸ hpath⟩

end Aesd.Driver
