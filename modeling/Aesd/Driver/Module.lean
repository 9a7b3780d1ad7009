import Aesd.Driver.Supply
import Aesd.Driver.Ownership

/-! The life of the module: loading, opening, calls through open files, closing,
unloading, any number of times. The kernel finds the device under the number that
`cdev_add` was given; as `cdev.owner` is set, every open file keeps the module in
memory, and `rmmod` is refused as long as there is one. The minor number is always 0,
so a device number is its major number. What the kernel gives and refuses is an
argument, and calls through a file whose module is gone are recorded in `oops`. -/

namespace Aesd.Driver

open Run

def ebusy : ℤ := 16

/-- What the kernel answers while the module is loaded: the result of
`alloc_chrdev_region` with the number it hands out, and the result of `cdev_add`. -/
structure InitEnv where
  region : ℤ
  major : ℕ
  cdevAdd : ℤ
  cdevAdd_le : cdevAdd ≤ 0

/-- The static data of the module and what the kernel keeps about it. -/
structure ModuleState where
  aesdMajor : ℕ
  device : AesdDev
  /-- `aesd_device.cdev.owner` is `THIS_MODULE`. -/
  owner : Bool
  mem : Kmem
  /-- The major numbers that drivers have registered. -/
  regions : Finset ℕ
  /-- The number under which `aesd_device.cdev` is found. -/
  cdev : Option ℕ
  loaded : Bool
  refcount : ℕ
  /-- The open files of the device, with their positions. -/
  files : ℕ → Option ℕ
  oops : Bool

inductive ModuleCall where
  | insmod (env : InitEnv)
  | rmmod
  /-- Open a device node with the given number; the new file is `file`. -/
  | openFile (file major : ℕ)
  | release (file : ℕ)
  | write (file : ℕ) (env : WriteEnv) (buf : UserBuf)
  | read (file : ℕ) (env : ReadEnv) (count : ℕ)

namespace ModuleState

/-- Before the module is loaded for the first time, other drivers have the numbers `taken`. -/
def initial (taken : Finset ℕ) : ModuleState :=
  ⟨0, aesdDeviceZero, false, Kmem.initial, taken, none, false, 0, fun _ => none, false⟩

/-- The driver proper. -/
def driver (s : ModuleState) : State := ⟨s.device, s.mem⟩

/-- A number is handed out to one driver only; without one `dev` stays 0. -/
def allocChrdevRegion (env : InitEnv) (s : ModuleState) : ℤ × ℕ × ModuleState :=
  if env.region < 0 then (env.region, 0, s)
  else if env.major = 0 ∨ env.major ∈ s.regions then (-ebusy, 0, s)
  else (0, env.major, { s with regions := insert env.major s.regions })

def unregisterChrdevRegion (s : ModuleState) (major : ℕ) : ModuleState :=
  { s with regions := s.regions.erase major }

def aesdSetupCdev (cdevAdd : ℤ) (s : ModuleState) : ℤ × ModuleState :=
  (cdevAdd, { s with owner := true, cdev := if cdevAdd = 0 then some s.aesdMajor else s.cdev })

def aesdInitModule (env : InitEnv) (s : ModuleState) : ℤ × ModuleState :=
  let (result, dev, s) := s.allocChrdevRegion env
  let s := { s with aesdMajor := dev }
  if result < 0 then (result, s)
  else
    let (result, s) := aesdSetupCdev env.cdevAdd { s with device := aesdDeviceZero, owner := false }
    if result ≠ 0 then (result, s.unregisterChrdevRegion dev)
    else (result, s)

/-- Deleting a `cdev` that has not been added is a fault. -/
def aesdCleanupModule (s : ModuleState) : ModuleState :=
  let s := { s with mem := Driver.aesdCleanupModule s.driver }
  let s := { s with cdev := none, oops := s.oops || s.cdev.isNone }
  s.unregisterChrdevRegion s.aesdMajor

/-- `aesd_open` and `aesd_release` only set `private_data`, to the one device there is. -/
def aesdOpen (s : ModuleState) : ℤ × ModuleState := (0, { s with oops := s.oops || !s.loaded })

def aesdRelease (s : ModuleState) : ℤ × ModuleState := (0, { s with oops := s.oops || !s.loaded })

/-- The static data of a module that has just been brought into memory. -/
def fresh (s : ModuleState) : ModuleState :=
  { s with aesdMajor := 0, device := aesdDeviceZero, owner := false }

/-- The number of an open file is not given to another one, and the position of a file
moves on when the call has succeeded. -/
def step (s : ModuleState) : ModuleCall → ModuleState
  | .insmod env =>
    if s.loaded then s
    else
      let (result, s) := aesdInitModule env s.fresh
      { s with loaded := decide (result = 0) }
  | .rmmod =>
    if s.loaded ∧ s.refcount = 0 then { s.aesdCleanupModule with loaded := false } else s
  | .openFile file major =>
    if s.cdev = some major ∧ s.files file = none then
      let s := { s with refcount := if s.owner then s.refcount + 1 else s.refcount }
      { s.aesdOpen.2 with files := Function.update s.files file (some 0) }
    else s
  | .release file =>
    if (s.files file).isSome then
      let s := { s.aesdRelease.2 with files := Function.update s.files file none }
      { s with refcount := if s.owner then s.refcount - 1 else s.refcount }
    else s
  | .write file env buf =>
    match s.files file with
    | none => s
    | some fPos =>
      let r := aesdWrite env s.driver buf fPos
      { s with
        device := r.state.dev
        mem := r.state.mem
        files := Function.update s.files file (some (if 0 ≤ r.retval then r.fPos else fPos))
        oops := s.oops || !s.loaded }
  | .read file env count =>
    match s.files file with
    | none => s
    | some fPos =>
      let r := aesdRead env s.driver count fPos
      { s with
        device := r.state.dev
        mem := r.state.mem
        files := Function.update s.files file (some (if 0 ≤ r.retval then r.fPos else fPos))
        oops := s.oops || !s.loaded }

/-! ### The invariant -/

/-- While the module is loaded, it has its number and its `cdev` and the driver is in
order; otherwise nothing of it is left. Every open file counts as a user. -/
structure Ok (taken : Finset ℕ) (s : ModuleState) : Prop where
  no_oops : s.oops = false
  no_fault : s.mem.fault = false
  bytes_lt : s.mem.heap.bytes < 2 ^ 64
  owner : s.loaded = true → s.owner = true
  cdev : s.cdev = if s.loaded then some s.aesdMajor else none
  regions : s.regions = if s.loaded then insert s.aesdMajor taken else taken
  fresh : s.loaded = true → s.aesdMajor ∉ taken
  valid : s.loaded = true → Valid s.driver
  files : ∃ F : Finset ℕ, (∀ file, file ∈ F ↔ s.files file ≠ none) ∧ F.card = s.refcount
  used : s.refcount ≠ 0 → s.loaded = true

theorem initial_ok (taken : Finset ℕ) : (initial taken).Ok taken where
  no_oops := rfl
  no_fault := rfl
  bytes_lt := initial_valid.bytes_lt
  owner := nofun
  cdev := rfl
  regions := rfl
  fresh := nofun
  valid := nofun
  files := ⟨∅, fun _ => by simp [initial], rfl⟩
  used h := absurd rfl h

/-! ### Loading and unloading -/

/-- The zeroed device is in order whatever memory is in use. -/
theorem valid_zero {m : Kmem} (hfault : m.fault = false) (hbytes : m.heap.bytes < 2 ^ 64) :
    Valid ⟨aesdDeviceZero, m⟩ where
  unlocked := rfl
  pending := trivial
  size_le := Nat.zero_le _
  bytes_lt := hbytes
  no_fault := hfault
  slots _ := rfl
  distinct i j b hi _ := by
    cases i <;> simp [AesdDev.entryAt, aesdDeviceZero, aesdCircularBufferInit, BufferEntry.zero] at hi

/-- The module gets a number of its own and its `cdev`, or everything is as before but
for the static data, which goes away with the module. -/
theorem init_cases (env : InitEnv) (s : ModuleState) :
    (∃ major, major ∉ s.regions ∧ s.aesdInitModule env =
      (0, { s with
        aesdMajor := major
        device := aesdDeviceZero
        owner := true
        regions := insert major s.regions
        cdev := some major })) ∨
    ∃ result ≠ 0, ∃ major device owner,
      s.aesdInitModule env =
        (result, { s with aesdMajor := major, device := device, owner := owner }) := by
  rw [aesdInitModule, allocChrdevRegion]
  split_ifs with hneg htaken
  · exact .inr ⟨_, hneg.ne, 0, s.device, s.owner, if_pos hneg⟩
  · exact .inr ⟨_, by decide, 0, s.device, s.owner, if_pos (by decide)⟩
  · obtain ⟨-, hfree⟩ := not_or.mp htaken
    by_cases hadd : env.cdevAdd = 0
    · exact .inl ⟨env.major, hfree, by simp [aesdSetupCdev, hadd]⟩
    · refine .inr ⟨env.cdevAdd, hadd, env.major, aesdDeviceZero, true, ?_⟩
      simp [aesdSetupCdev, hadd, unregisterChrdevRegion, Finset.erase_insert hfree]

/-- The result and the device are those of `aesd_init_module` without its registrations. -/
theorem init_eq (env : InitEnv) (s : ModuleState) :
    ((s.aesdInitModule env).1, (s.aesdInitModule env).2.device) =
      Driver.aesdInitModule (s.allocChrdevRegion env).1 env.cdevAdd s.device := by
  have hbusy : -ebusy < 0 := by decide
  by_cases hneg : env.region < 0
  · simp [aesdInitModule, Driver.aesdInitModule, allocChrdevRegion, hneg]
  · by_cases htaken : env.major = 0 ∨ env.major ∈ s.regions
    · simp only [aesdInitModule, Driver.aesdInitModule, allocChrdevRegion, hneg, htaken, if_true,
        if_false, hbusy]
    · by_cases hadd : env.cdevAdd = 0 <;>
        simp [aesdInitModule, Driver.aesdInitModule, allocChrdevRegion, hneg, htaken, aesdSetupCdev, hadd,
          unregisterChrdevRegion]

theorem insmod_cases (env : InitEnv) {s : ModuleState} (hl : s.loaded = false) :
    ((aesdInitModule env s.fresh).1 = 0 ∧ ∃ major, major ∉ s.regions ∧ s.step (.insmod env) =
      { s with
        aesdMajor := major
        device := aesdDeviceZero
        owner := true
        regions := insert major s.regions
        cdev := some major
        loaded := true }) ∨
    ((aesdInitModule env s.fresh).1 ≠ 0 ∧ ∃ major device owner,
      s.step (.insmod env) = { s with aesdMajor := major, device := device, owner := owner }) := by
  have hstep : s.step (.insmod env) =
      { (aesdInitModule env s.fresh).2 with loaded := decide ((aesdInitModule env s.fresh).1 = 0) } := by
    rw [step, if_neg (by simp [hl])]
  rw [hstep]
  rcases init_cases env s.fresh with ⟨major, hfree, heq⟩ | ⟨result, hne, major, device, owner, heq⟩
  · rw [heq]
    exact .inl ⟨rfl, major, hfree, rfl⟩
  · rw [heq, decide_eq_false hne, ← hl]
    exact .inr ⟨hne, major, device, owner, rfl⟩

theorem bytes_kfree_le (m : Kmem) (p : Ptr) : (m.kfree p).heap.bytes ≤ m.heap.bytes := by
  cases p with
  | null | zeroSize => exact le_rfl
  | block b =>
    rw [Kmem.kfree]
    split_ifs
    · exact bytes_freePtr_le m.heap (.block b)
    · exact le_rfl

theorem bytes_cleanup_le (s : State) : (Driver.aesdCleanupModule s).heap.bytes ≤ s.mem.heap.bytes := by
  have hfree : ∀ (m : Kmem) (p : Ptr),
      (if p ≠ .null then m.kfree p else m).heap.bytes ≤ m.heap.bytes := by
    intro m p
    split_ifs
    · exact bytes_kfree_le m p
    · exact le_rfl
  rw [Driver.aesdCleanupModule]
  refine List.foldlRecOn (motive := fun m : Kmem => m.heap.bytes ≤ s.mem.heap.bytes) _ _ (hfree _ _) ?_
  exact fun m hm i _ => (hfree m _).trans hm

namespace Ok

variable {taken : Finset ℕ} {s : ModuleState}

theorem no_files (h : s.Ok taken) (hr : s.refcount = 0) (file : ℕ) : s.files file = none := by
  obtain ⟨F, hF, hcard⟩ := h.files
  by_contra hne
  have hmem := (hF file).mpr hne
  rw [Finset.card_eq_zero.mp (hcard.trans hr)] at hmem
  exact absurd hmem (Finset.notMem_empty file)

/-- A module with an open file is in use. -/
theorem loaded (h : s.Ok taken) {file fPos : ℕ} (hfile : s.files file = some fPos) : s.loaded = true := by
  refine h.used fun hr => ?_
  rw [h.no_files hr file] at hfile
  cases hfile

theorem loaded_of_cdev (h : s.Ok taken) {major : ℕ} (hc : s.cdev = some major) : s.loaded = true := by
  by_contra hl
  rw [h.cdev, if_neg hl] at hc
  cases hc

theorem insmod (h : s.Ok taken) (hl : s.loaded = false) (env : InitEnv) :
    (s.step (.insmod env)).Ok taken := by
  have hregions : s.regions = taken := by rw [h.regions, hl]; rfl
  rcases insmod_cases env hl with ⟨-, major, hfree, heq⟩ | ⟨-, major, device, owner, heq⟩
  · rw [heq]
    exact
      { h with
        owner := fun _ => rfl
        cdev := rfl
        regions := by rw [hregions]; rfl
        fresh := fun _ => hregions ▸ hfree
        valid := fun _ => valid_zero h.no_fault h.bytes_lt
        used := fun _ => rfl }
  · rw [heq]
    exact
      { h with
        owner := fun hl' => Bool.noConfusion (hl.symm.trans hl')
        cdev := by rw [h.cdev, hl]; rfl
        regions := h.regions.trans (by rw [hl]; rfl)
        fresh := fun hl' => Bool.noConfusion (hl.symm.trans hl')
        valid := fun hl' => Bool.noConfusion (hl.symm.trans hl') }

theorem rmmod (h : s.Ok taken) (hl : s.loaded = true) (hr : s.refcount = 0) :
    ({ s.aesdCleanupModule with loaded := false } : ModuleState).Ok taken := by
  obtain ⟨-, hfault, -⟩ := (h.valid hl).cleanup
  exact
    { no_oops := by simp [aesdCleanupModule, unregisterChrdevRegion, h.no_oops, h.cdev, hl]
      no_fault := hfault
      bytes_lt := (bytes_cleanup_le s.driver).trans_lt h.bytes_lt
      owner := nofun
      cdev := rfl
      regions := by
        simp [aesdCleanupModule, unregisterChrdevRegion, h.regions, hl, Finset.erase_insert (h.fresh hl)]
      fresh := nofun
      valid := nofun
      files := h.files
      used := fun hne => absurd hr hne }

/-- A call on an open file keeps the driver in order. -/
theorem call (h : s.Ok taken) {file fPos : ℕ} (hfile : s.files file = some fPos) (fPos' : ℕ) {t : State}
    (ht : Valid t) :
    ({ s with
      device := t.dev
      mem := t.mem
      files := Function.update s.files file (some fPos')
      oops := s.oops || !s.loaded } : ModuleState).Ok taken := by
  have hl := h.loaded hfile
  obtain ⟨F, hF, hcard⟩ := h.files
  exact
    { h with
      no_oops := by simp [h.no_oops, hl]
      no_fault := ht.no_fault
      bytes_lt := ht.bytes_lt
      valid := fun _ => ht
      files := by
        refine ⟨F, fun f => ?_, hcard⟩
        by_cases hf : f = file
        · simp [hF, hf, hfile]
        · simp [hF, hf] }

theorem openFile (h : s.Ok taken) {file major : ℕ} (hc : s.cdev = some major)
    (hfile : s.files file = none) :
    (s.step (.openFile file major)).Ok taken := by
  have hl := h.loaded_of_cdev hc
  obtain ⟨F, hF, hcard⟩ := h.files
  have hnew : file ∉ F := fun hf => (hF file).mp hf hfile
  have hstep : s.step (.openFile file major) =
      { s with refcount := s.refcount + 1, files := Function.update s.files file (some 0) } := by
    simp [step, hc, hfile, aesdOpen, h.owner hl, hl]
  rw [hstep]
  exact
    { h with
      files := by
        refine ⟨insert file F, fun f => ?_, by rw [Finset.card_insert_of_notMem hnew, hcard]⟩
        by_cases hf : f = file
        · simp [hf]
        · simp [hF, hf]
      used := fun _ => hl }

theorem release (h : s.Ok taken) {file fPos : ℕ} (hfile : s.files file = some fPos) :
    (s.step (.release file)).Ok taken := by
  have hl := h.loaded hfile
  obtain ⟨F, hF, hcard⟩ := h.files
  have hmem : file ∈ F := (hF file).mpr (by simp [hfile])
  have hstep : s.step (.release file) =
      { s with refcount := s.refcount - 1, files := Function.update s.files file none } := by
    simp [step, hfile, aesdRelease, h.owner hl, hl]
  rw [hstep]
  exact
    { h with
      files := by
        refine ⟨F.erase file, fun f => ?_, by rw [Finset.card_erase_of_mem hmem, hcard]⟩
        by_cases hf : f = file
        · simp [hf]
        · simp [hF, hf]
      used := fun _ => hl }

theorem step (h : s.Ok taken) (c : ModuleCall) : (s.step c).Ok taken := by
  cases c with
  | insmod env =>
    cases hl : s.loaded with
    | false => exact h.insmod hl env
    | true => simpa [ModuleState.step, hl] using h
  | rmmod =>
    rw [ModuleState.step]
    split_ifs with hc
    · exact h.rmmod hc.1 hc.2
    · exact h
  | openFile file major =>
    by_cases hc : s.cdev = some major ∧ s.files file = none
    · exact h.openFile hc.1 hc.2
    · rwa [ModuleState.step, if_neg hc]
  | release file =>
    cases hfile : s.files file with
    | none => simpa [ModuleState.step, hfile] using h
    | some fPos => exact h.release hfile
  | write file env buf =>
    cases hfile : s.files file with
    | none => simpa [ModuleState.step, hfile] using h
    | some fPos =>
      simp only [ModuleState.step, hfile]
      exact h.call hfile _ ((h.valid (h.loaded hfile)).step (.write env buf fPos))
  | read file env count =>
    cases hfile : s.files file with
    | none => simpa [ModuleState.step, hfile] using h
    | some fPos =>
      simp only [ModuleState.step, hfile]
      exact h.call hfile _ ((h.valid (h.loaded hfile)).step (.read env count fPos))

end Ok

theorem run_ok (taken : Finset ℕ) (cs : List ModuleCall) : (run step (initial taken) cs).Ok taken :=
  invariant_of_step (fun _ c h => h.step c) (initial_ok taken) cs

end ModuleState

open ModuleState

/-- However often the module is loaded and unloaded, whatever fails meanwhile and
whatever calls come: nothing ever runs in a module that is gone, and no block is freed
or resized that is not live. While the module is loaded it holds one number that no
other driver had, its `cdev` is found under this number, and the driver is in order;
otherwise it holds nothing and no file is open. It can be unloaded exactly when no
file is open. -/
theorem module_lifecycle (taken : Finset ℕ) (cs : List ModuleCall) :
    let s := run step (initial taken) cs
    s.oops = false ∧ s.mem.fault = false ∧
      (∃ F : Finset ℕ, (∀ file, file ∈ F ↔ s.files file ≠ none) ∧ F.card = s.refcount) ∧
      (s.loaded = true → s.cdev = some s.aesdMajor ∧ s.aesdMajor ∉ taken ∧
        s.regions = insert s.aesdMajor taken ∧ Valid s.driver) ∧
      (s.loaded = false → s.cdev = none ∧ s.regions = taken ∧ ∀ file, s.files file = none) ∧
      ((s.step .rmmod).loaded = false ↔ s.loaded = false ∨ ∀ file, s.files file = none) := by
  intro s
  have h : s.Ok taken := run_ok taken cs
  have hunused : s.loaded = false → s.refcount = 0 := fun hl => by
    by_contra hr
    rw [h.used hr] at hl
    cases hl
  refine ⟨h.no_oops, h.no_fault, h.files, fun hl => ?_, fun hl => ?_, ?_⟩
  · exact ⟨by rw [h.cdev, hl]; rfl, h.fresh hl, by rw [h.regions, hl]; rfl, h.valid hl⟩
  · exact ⟨by rw [h.cdev, hl]; rfl, by rw [h.regions, hl]; rfl, h.no_files (hunused hl)⟩
  · rw [step]
    split_ifs with hc
    · exact iff_of_true rfl (.inr (h.no_files hc.2))
    · constructor
      · exact .inl
      · rintro (hl | hnone)
        · exact hl
        · by_contra hl
          refine hc ⟨by simpa using hl, ?_⟩
          obtain ⟨F, hF, hcard⟩ := h.files
          rw [← hcard, Finset.card_eq_zero, Finset.eq_empty_iff_forall_notMem]
          exact fun file hmem => (hF file).mp hmem (hnone file)

/-! ### Memory over many loads -/

namespace ModuleState

/-- The call forgets no block. -/
def KeepsTrack (s : ModuleState) : ModuleCall → Prop
  | .write file env buf =>
    ∀ fPos, s.files file = some fPos → Driver.KeepsTrack s.driver (.write env buf fPos)
  | _ => True

/-- The live blocks are those that the entries of the loaded module refer to. -/
def MemoryTracked (s : ModuleState) : Prop :=
  s.mem.heap.live = if s.loaded then s.device.refs.toFinset else ∅

end ModuleState

theorem Valid.tracked_iff {s : State} (hs : Valid s) :
    Tracked s ↔ s.mem.heap.live = s.dev.refs.toFinset := by
  constructor
  · exact fun ht => (hs.memoryTracked_iff.mpr ht).1
  · intro hlive b hb
    rw [hlive, List.mem_toFinset] at hb
    exact mem_refs.mp hb

theorem refs_zero : aesdDeviceZero.refs = [] := rfl

namespace ModuleState

variable {taken : Finset ℕ} {s : ModuleState}

/-- What a call does to a driver in memory: nothing, or it is loaded, or unloaded, or
one call of the driver goes through an open file. -/
theorem Ok.driver_cases (h : s.Ok taken) (c : ModuleCall) :
    (s.KeepsTrack c ∧ (s.step c).loaded = s.loaded ∧ (s.step c).mem = s.mem ∧
      (s.loaded = true → (s.step c).device = s.device)) ∨
    (s.KeepsTrack c ∧ s.loaded = false ∧ (s.step c).loaded = true ∧
      (s.step c).driver = ⟨aesdDeviceZero, s.mem⟩) ∨
    (s.KeepsTrack c ∧ s.loaded = true ∧ (s.step c).loaded = false ∧
      (s.step c).mem = Driver.aesdCleanupModule s.driver) ∨
    ∃ d : Call, (s.KeepsTrack c ↔ Driver.KeepsTrack s.driver d) ∧ s.loaded = true ∧
      (s.step c).loaded = true ∧ (s.step c).driver = s.driver.step d := by
  cases c with
  | insmod env =>
    cases hl : s.loaded with
    | true =>
      rw [ModuleState.step, if_pos hl]
      exact .inl ⟨trivial, hl, rfl, fun _ => rfl⟩
    | false =>
      rcases insmod_cases env hl with ⟨-, major, hfree, heq⟩ | ⟨-, major, device, owner, heq⟩
      · rw [heq]
        exact .inr (.inl ⟨trivial, rfl, rfl, rfl⟩)
      · rw [heq]
        exact .inl ⟨trivial, hl, rfl, nofun⟩
  | rmmod =>
    rw [ModuleState.step]
    split_ifs with hc
    · exact .inr (.inr (.inl ⟨trivial, hc.1, rfl, rfl⟩))
    · exact .inl ⟨trivial, rfl, rfl, fun _ => rfl⟩
  | openFile file major =>
    rw [ModuleState.step]
    split_ifs <;> exact .inl ⟨trivial, rfl, rfl, fun _ => rfl⟩
  | release file =>
    rw [ModuleState.step]
    split_ifs <;> exact .inl ⟨trivial, rfl, rfl, fun _ => rfl⟩
  | write file env buf =>
    cases hfile : s.files file with
    | none => exact .inl (by simp [ModuleState.step, ModuleState.KeepsTrack, hfile])
    | some fPos =>
      refine .inr (.inr (.inr ⟨.write env buf fPos, by simp [ModuleState.KeepsTrack, hfile], h.loaded hfile, ?_⟩))
      simp [ModuleState.step, hfile, h.loaded hfile, driver, State.step]
  | read file env count =>
    cases hfile : s.files file with
    | none => exact .inl (by simp [ModuleState.step, ModuleState.KeepsTrack, hfile])
    | some fPos =>
      refine .inr (.inr (.inr ⟨.read env count fPos, iff_of_true trivial trivial, h.loaded hfile, ?_⟩))
      simp [ModuleState.step, hfile, h.loaded hfile, driver, State.step]

theorem Ok.memoryTracked_step (h : s.Ok taken) (hr : s.loaded = true → RingFilled s.device.buffer)
    (ht : s.MemoryTracked) (c : ModuleCall) : (s.step c).MemoryTracked ↔ s.KeepsTrack c := by
  rw [MemoryTracked] at ht
  rcases h.driver_cases c with ⟨hkeep, hl', hmem, hdev⟩ | ⟨hkeep, hl, hl', hdriver⟩ |
      ⟨hkeep, hl, hl', hmem⟩ | ⟨d, hkeep, hl, hl', hdriver⟩
  · refine iff_of_true ?_ hkeep
    rw [MemoryTracked, hmem, ht, hl']
    split_ifs with hl
    · rw [hdev hl]
    · rfl
  · refine iff_of_true ?_ hkeep
    obtain ⟨hdev, hmem⟩ := State.mk.inj hdriver
    rw [MemoryTracked, if_pos hl', hdev, hmem, ht, hl, refs_zero]
    rfl
  · refine iff_of_true ?_ hkeep
    rw [if_pos hl] at ht
    rw [MemoryTracked, hl', hmem, (h.valid hl).cleanup.2.2, driver, ht]
    simp
  · have hs := h.valid hl
    rw [if_pos hl] at ht
    rw [hkeep, ← tracked_step_iff hs (hr hl) (hs.tracked_iff.mpr ht) d, (hs.step d).tracked_iff,
      ← hdriver, MemoryTracked, if_pos hl']
    rfl

theorem Ok.ringFilled_step (h : s.Ok taken) (hr : s.loaded = true → RingFilled s.device.buffer)
    (c : ModuleCall) (hl' : (s.step c).loaded = true) : RingFilled (s.step c).device.buffer := by
  rcases h.driver_cases c with ⟨-, hloaded, -, hdev⟩ | ⟨-, -, -, hdriver⟩ | ⟨-, -, hgone, -⟩ |
      ⟨d, -, hl, -, hdriver⟩
  · rw [hloaded] at hl'
    rw [hdev hl']
    exact hr hl'
  · rw [(State.mk.inj hdriver).1]
    exact ⟨0, CircularBuffer.shape_init, fun i hi => absurd hi (Nat.not_lt_zero _)⟩
  · rw [hgone] at hl'
    cases hl'
  · have hring : RingFilled (s.driver.step d).dev.buffer := (hr hl).step (h.valid hl) d
    rwa [← hdriver] at hring

end ModuleState

/-- Over any number of loads, the memory in use is exactly what the loaded module refers
to, and none while it is not loaded, if and only if no write forgets a block: none
whose `krealloc` fails on a pending block, and none that completes a line in a full
ring. -/
theorem module_memory_tracked_iff (taken : Finset ℕ) (cs : List ModuleCall) :
    Always step ModuleState.MemoryTracked (initial taken) cs ↔
      Along step ModuleState.KeepsTrack (initial taken) cs :=
  always_iff_along (J := fun s : ModuleState =>
    s.Ok taken ∧ (s.loaded = true → RingFilled s.device.buffer))
    (fun _ c h => ⟨h.1.step c, h.1.ringFilled_step h.2 c⟩)
    (fun _ c h ht => h.1.memoryTracked_step h.2 ht c) ⟨initial_ok taken, fun hl => nomatch hl⟩ rfl cs

end Aesd.Driver
