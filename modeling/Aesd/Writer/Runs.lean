import Aesd.Lib.Run
import Aesd.Writer.Main
import Mathlib.Data.Nat.Digits.Defs
import Mathlib.Data.Set.Card

/-! Many runs of `writer` on one file system. As long as every run has an exit
status, each file is a log: its old content and behind it, in order, what the runs that
name it have written. A run that succeeds writes its line, but `main` does not look at
what `fclose` returns, so a success may leave the beginning of the line only, as a
failure may. The loop of `finder-test.sh` is such a sequence of runs, and leaves the
files that `finder.sh` is to count. -/

namespace Aesd.Writer

open PathName Run

/-- One run of the program. -/
structure Invocation where
  env : Env
  argv : List CString

namespace Invocation

def outcome (fs : FileSystem) (c : Invocation) : Outcome := main c.env fs c.argv

def step (fs : FileSystem) (c : Invocation) : FileSystem := (c.outcome fs).fs

/-- The run has an exit status. -/
def Ends (fs : FileSystem) (c : Invocation) : Prop := (c.outcome fs).status ≠ none

instance (fs : FileSystem) (c : Invocation) : Decidable (c.Ends fs) :=
  inferInstanceAs (Decidable (_ ≠ _))

/-- The file that the run is to write. -/
def target (fs : FileSystem) (c : Invocation) : Option Place :=
  match c.argv with
  | _ :: path :: _ :: _ => some (fs.place path.bytes)
  | _ => none

/-- The string and a newline. -/
def line (c : Invocation) : List UInt8 :=
  match c.argv with
  | _ :: _ :: stringToWrite :: _ => stringToWrite.bytes ++ [newline]
  | _ => []

/-- The run comes to an open file. -/
def opens (fs : FileSystem) (c : Invocation) : Bool :=
  match c.argv with
  | _ :: path :: _ :: _ =>
    ((makeDir c.env fs ((dirname path.bytes).getD [dot])).bind fun fs =>
      openFile c.env fs path.bytes).isSome
  | _ => false

/-- What the run adds, and where. -/
def added (fs : FileSystem) (c : Invocation) : List (Place × List UInt8) :=
  if c.opens fs then (c.target fs).toList.map fun f => (f, c.env.reached c.line) else []

/-- What a run that ends has done: it has freed what `malloc` returned, and it has added
the beginning of its line at most. With a success this is all of the line unless `fclose`
failed, with a failure it is nothing unless `fprintf` failed. -/
structure Reported (fs : FileSystem) (c : Invocation) : Prop where
  freed : ∀ p ∈ (c.outcome fs).freed, ∃ b, c.env.malloc = some b ∧ p = .block b
  part : ∀ w ∈ c.added fs, c.target fs = some w.1 ∧ w.2 <+: c.line
  success : (c.outcome fs).status = some .success → ∃ f, c.target fs = some f ∧
    c.added fs = [(f, if c.env.fclose then c.line else c.line.take c.env.written)]
  failure : (c.outcome fs).status = some .failure →
    c.opens fs = false ∧ c.added fs = [] ∨
    c.env.fprintf = false ∧ ∃ f, c.target fs = some f ∧ c.added fs = [(f, c.line.take c.env.written)]

end Invocation

/-- The bytes added to one file. -/
def addedTo (f : Place) (lines : List (Place × List UInt8)) : List UInt8 :=
  (lines.filter (·.1 = f)).flatMap Prod.snd

theorem addedTo_append (f : Place) (lines lines' : List (Place × List UInt8)) :
    addedTo f (lines ++ lines') = addedTo f lines ++ addedTo f lines' := by
  rw [addedTo, List.filter_append, List.flatMap_append, addedTo, addedTo]

/-- Nothing is lost, `lines` are appended, and files other than `t` are the same. -/
structure Extended (t : Option Place) (lines : List (Place × List UInt8)) (fs fs' : FileSystem) :
    Prop where
  dirs : fs.dirs ⊆ fs'.dirs
  cwd : fs'.cwd = fs.cwd
  kept : ∀ f, fs.files f ≠ none → fs'.files f ≠ none
  other : ∀ f, t ≠ some f → fs'.files f = fs.files f
  content : ∀ f, (fs'.files f).getD [] = (fs.files f).getD [] ++ addedTo f lines

variable {t : Option Place} {fs fs' : FileSystem}

theorem extended_of_grown (h : fs.Grown fs') : Extended t [] fs fs' where
  dirs := h.dirs
  cwd := h.cwd
  kept f hf := by rwa [h.files]
  other f _ := by rw [h.files]
  content f := by rw [h.files, addedTo, List.filter_nil, List.flatMap_nil, List.append_nil]

theorem Extended.trans {lines lines' : List (Place × List UInt8)} {fs'' : FileSystem}
    (h : Extended t lines fs fs') (h' : Extended t lines' fs' fs'') :
    Extended t (lines ++ lines') fs fs'' where
  dirs := h.dirs.trans h'.dirs
  cwd := h'.cwd.trans h.cwd
  kept f hf := h'.kept f (h.kept f hf)
  other f hf := (h'.other f hf).trans (h.other f hf)
  content f := by rw [h'.content, h.content, addedTo_append, List.append_assoc]

theorem extended_of_appendAt {place : Place} {bytes : List UInt8}
    (h : fs.appendAt place bytes = some fs') :
    Extended (some place) [(place, bytes)] fs fs' := by
  obtain ⟨-, hdirs, hcwd, -⟩ := FileSystem.appendAt_eq_some h
  have hfiles := FileSystem.appendAt_files h
  refine ⟨hdirs.ge, hcwd, fun f hf => ?_, fun f hf => ?_, fun f => ?_⟩
  · by_cases hfp : f = place
    · simp [hfiles, hfp]
    · rwa [hfiles, Function.update_of_ne hfp]
  · rw [hfiles, Function.update_of_ne fun hfp => hf (by rw [hfp])]
  · by_cases hfp : f = place
    · simp [hfiles, hfp, addedTo]
    · rw [hfiles, Function.update_of_ne hfp, addedTo,
        List.filter_cons_of_neg (by simpa using Ne.symm hfp)]
      simp

/-- An opened file is there, and otherwise nothing has changed. -/
theorem extended_of_fopen {path : List UInt8} {place : Place} (h : fs.fopen path = some (place, fs')) :
    place = fs.place path ∧ Extended (some place) [] fs fs' := by
  obtain ⟨hplace, happend⟩ := FileSystem.fopen_eq_some h
  have hext := extended_of_appendAt happend
  refine ⟨hplace, { hext with content := fun f => ?_ }⟩
  rw [hext.content f]
  by_cases hf : place = f <;> simp [addedTo, hf]

/-- `fopen`, `fprintf` and `fclose` add what reaches the file. -/
theorem writeLine_extended (env : Env) (fs : FileSystem) (path line : List UInt8) :
    let r := writeLine env fs path line
    Extended (some (fs.place path))
        (if (openFile env fs path).isSome then [(fs.place path, env.reached line)] else []) fs r.2 ∧
      r.1 = if (openFile env fs path).isSome ∧ env.fprintf = true then .success else .failure := by
  rw [writeLine]
  cases hopen : openFile env fs path with
  | none => exact ⟨extended_of_grown (.refl fs), rfl⟩
  | some x =>
    obtain ⟨place, fs₁⟩ := x
    rw [openFile] at hopen
    split_ifs at hopen
    obtain ⟨fs₂, h₂⟩ := exists_appendAt_of_fopen hopen (env.reached line)
    obtain ⟨rfl, h₁⟩ := extended_of_fopen hopen
    simp only [h₂, Option.getD_some, Option.isSome_some, true_and]
    exact ⟨h₁.trans (extended_of_appendAt h₂), trivial⟩

theorem makeDir_grown {env : Env} {dir : List UInt8} (h0 : 0 ∉ dir) (hdir : dir ≠ [])
    (h : makeDir env fs dir = some fs') : fs.Grown fs' := by
  rw [makeDir] at h
  split_ifs at h
  · exact Option.some.inj h ▸ .refl fs
  · rw [mkdir_eq _ _ h0 hdir] at h
    exact Option.some.inj h ▸ FileSystem.grown_foldl_of env.grown_tryMkdir fs _

theorem Env.reached_isPrefix (env : Env) (line : List UInt8) : env.reached line <+: line := by
  rw [reached]
  split_ifs
  · exact List.prefix_rfl
  · exact List.take_prefix _ _

/-- What `dirname` returns is not empty and has no null byte in it. -/
theorem dirname_ok {path : List UInt8} (h0 : 0 ∉ path) :
    (dirname path).getD [dot] ≠ [] ∧ 0 ∉ (dirname path).getD [dot] := by
  have hparent : ∀ p : List UInt8, parent p <+: p := fun p => List.rdropWhile_prefix _ _
  have htrim : ∀ p : List UInt8, trim p <+: p := fun p => List.rdropWhile_prefix _ _
  rw [dirname]
  set lastSlash :=
    if path.getLast? = some slash ∧ trim path ≠ [] then parent (trim path) else parent path with hl
  have hpre : lastSlash <+: path := by
    rw [hl]
    split_ifs
    · exact (hparent _).trans (htrim _)
    · exact hparent _
  have htake : lastSlash ≠ [] → ∀ k, path.take (k + 1) ≠ [] ∧ 0 ∉ path.take (k + 1) := fun hne k => by
    have hpos := (List.length_pos_iff.mpr hne).trans_le hpre.length_le
    refine ⟨?_, fun h => h0 (List.mem_of_mem_take h)⟩
    rw [← List.length_pos_iff, List.length_take]
    omega
  split_ifs with hnil hroot htwo
  · exact ⟨by simp, by decide⟩
  · exact htake hnil 1
  · exact htake hnil 0
  · exact ⟨hroot, fun h => h0 (hpre.subset ((htrim _).subset h))⟩

namespace Invocation

/-- A run that ends lacks arguments, or it has come to `fopen`, with all directories that
were there. -/
theorem Ends.cases {c : Invocation} (h : c.Ends fs) :
    (c.outcome fs = ⟨some .failure, [], fs⟩ ∧ c.opens fs = false) ∨
    ∃ b path fs₁, c.env.malloc = some b ∧ fs.Grown fs₁ ∧ c.target fs = some (fs.place path) ∧
      c.opens fs = (openFile c.env fs₁ path).isSome ∧
      c.outcome fs = ⟨some (writeLine c.env fs₁ path c.line).1, [.block b],
        (writeLine c.env fs₁ path c.line).2⟩ := by
  obtain ⟨env, argv⟩ := c
  rw [Ends, outcome] at h
  rcases argv with _ | ⟨argv0, _ | ⟨path, _ | ⟨str, rest⟩⟩⟩
  · exact .inl ⟨rfl, rfl⟩
  · exact .inl ⟨rfl, rfl⟩
  · exact .inl ⟨rfl, rfl⟩
  right
  cases hb : env.malloc with
  | none => simp [main, hb] at h
  | some b =>
    obtain ⟨hne, hnull⟩ := dirname_ok path.noNull
    cases hmake : makeDir env fs ((dirname path.bytes).getD [dot]) with
    | none => simp [main, hb, hmake] at h
    | some fs₁ =>
      have hgrown := makeDir_grown hnull hne hmake
      refine ⟨b, path.bytes, fs₁, rfl, hgrown, rfl, by simp [opens, hmake], ?_⟩
      cases hdir : dirname path.bytes with
      | none =>
        rw [hdir, Option.getD_none] at hmake
        simp [main, hb, hdir, hmake] at h
      | some dir =>
        rw [hdir, Option.getD_some] at hmake
        exact main_eq hb hdir hmake argv0 rest

theorem added_part {c : Invocation} {w : Place × List UInt8} (hw : w ∈ c.added fs) :
    c.target fs = some w.1 ∧ w.2 <+: c.line := by
  rw [added] at hw
  split_ifs at hw
  · obtain ⟨f, hf, rfl⟩ := List.mem_map.mp hw
    exact ⟨Option.mem_toList.mp hf, c.env.reached_isPrefix _⟩
  · exact absurd hw List.not_mem_nil

/-- One run that ends. -/
theorem Ends.extended {c : Invocation} (h : c.Ends fs) :
    Extended (c.target fs) (c.added fs) fs (c.step fs) ∧ c.Reported fs := by
  rcases h.cases with ⟨houtcome, hopens⟩ | ⟨b, path, fs₁, hb, hgrown, htarget, hopens, houtcome⟩
  · have hadded : c.added fs = [] := by rw [added, hopens, if_neg Bool.false_ne_true]
    rw [step, houtcome, hadded]
    exact ⟨extended_of_grown (.refl fs), by simp [houtcome], fun w => added_part,
      by simp [houtcome], fun _ => .inl ⟨hopens, hadded⟩⟩
  · obtain ⟨hext, hstatus⟩ := writeLine_extended c.env fs₁ path c.line
    have hadded : c.added fs =
        if (openFile c.env fs₁ path).isSome then [(fs.place path, c.env.reached c.line)] else [] := by
      rw [added, hopens, htarget, Option.toList_some, List.map_singleton]
    have hext := (extended_of_grown hgrown).trans hext
    rw [hgrown.place, List.nil_append, ← hadded, ← htarget] at hext
    refine ⟨by rwa [step, houtcome], fun p hp => ⟨b, hb, ?_⟩, fun w => added_part, fun hs => ?_,
      fun hs => ?_⟩
    · rwa [houtcome, List.mem_singleton] at hp
    · rw [houtcome, Option.some.injEq, hstatus] at hs
      split_ifs at hs with hok
      obtain ⟨hopen, hprint⟩ := hok
      refine ⟨fs.place path, htarget, ?_⟩
      rw [hadded, if_pos hopen, Env.reached, hprint, Bool.true_and]
    · rw [houtcome, Option.some.injEq, hstatus] at hs
      split_ifs at hs with hok
      by_cases hopen : (openFile c.env fs₁ path).isSome
      · have hprint : c.env.fprintf = false := by simpa [hopen] using hok
        refine .inr ⟨hprint, fs.place path, htarget, ?_⟩
        rw [hadded, if_pos hopen, Env.reached, if_neg (by simp [hprint])]
      · rw [hopens, hadded, if_neg hopen]
        exact .inl ⟨by simpa using hopen, rfl⟩

theorem target_congr (h : fs'.cwd = fs.cwd) (c : Invocation) : c.target fs' = c.target fs := by
  rw [target, target]
  split
  · rw [FileSystem.place_congr h]
  · rfl

end Invocation

open Invocation

/-- For every number of runs on one file system, whatever `malloc`, `mkdir`, `fopen`,
`fprintf` and `fclose` answer in each of them: as long as every run has an exit status,
each file ends as its old content and what the runs that name it have added, in order,
which is all of the line or the beginning of it as `Reported` says; no directory and no
file is lost, and no file is touched that is not named. -/
theorem writer_runs_append (fs : FileSystem) (cs : List Invocation) (h : Along step Ends fs cs) :
    let fs' := run step fs cs
    fs.dirs ⊆ fs'.dirs ∧ fs'.cwd = fs.cwd ∧ (∀ f, fs.files f ≠ none → fs'.files f ≠ none) ∧
      (∀ f, (∀ c ∈ cs, c.target fs ≠ some f) → fs'.files f = fs.files f) ∧
      (∀ f, (fs'.files f).getD [] = (fs.files f).getD [] ++ addedTo f (outputs step added fs cs)) ∧
      Along step Reported fs cs := by
  induction cs generalizing fs with
  | nil =>
    exact ⟨Finset.Subset.refl _, rfl, fun _ => id, fun _ _ => rfl, fun _ => (List.append_nil _).symm,
      trivial⟩
  | cons c cs ih =>
    obtain ⟨hext, hreported⟩ := h.1.extended
    obtain ⟨hdirs, hcwd, hkept, hother, hcontent, hrest⟩ := ih (c.step fs) h.2
    refine ⟨hext.dirs.trans hdirs, hcwd.trans hext.cwd, fun f hf => hkept f (hext.kept f hf),
      fun f hf => ?_, fun f => ?_, hreported, hrest⟩
    · rw [run_cons, hother f fun d hd => ?_, hext.other f (hf c (by simp))]
      rw [target_congr hext.cwd]
      exact hf d (List.mem_cons_of_mem c hd)
    · rw [run_cons, hcontent f, hext.content f, outputs, addedTo_append, List.append_assoc]

/-- `writer /a/b` with `x`, with `y` where `fprintf` fails behind the first byte, with `z`
where `fclose` fails and nothing has reached the file, and with `w`. The third run
reports a success. -/
theorem writer_runs_append_failures :
    let call (env : Env) (c : UInt8) (h : 0 ∉ [c]) : Invocation :=
      ⟨env, [⟨[], by decide⟩, ⟨[47, 97, 47, 98], by decide⟩, ⟨[c], h⟩]⟩
    ((run step .empty
      [call envOk 120 (by decide), call { envOk with fprintf := false, written := 1 } 121 (by decide),
        call { envOk with fclose := false } 122 (by decide), call envOk 119 (by decide)]).files
          [[98], [97]]).getD [] = [120, newline, 121, 119, newline] := by
  intro call
  rw [(writer_runs_append _ _ (by decide +kernel)).2.2.2.2.1]
  decide +kernel

/-! ### The loop of `finder-test.sh` -/

/-- A number as `seq` prints it. -/
def decimal (i : ℕ) : List UInt8 := (Nat.digits 10 i).reverse.map fun d => UInt8.ofNat (48 + d)

theorem le_of_mem_decimal {i : ℕ} {c : UInt8} (h : c ∈ decimal i) : 48 ≤ c.toNat := by
  obtain ⟨d, hd, rfl⟩ := List.mem_map.mp h
  have hlt : d < 10 := Nat.digits_lt_base (by decide) (List.mem_reverse.mp hd)
  rw [UInt8.toNat_ofNat']
  omega

theorem decimal_injective : Function.Injective decimal := by
  have hdigits : ∀ i, (decimal i).map (fun c => c.toNat - 48) = (Nat.digits 10 i).reverse := fun i => by
    rw [decimal, List.map_map]
    refine (List.map_congr_left fun d hd => ?_).trans (List.map_id _)
    have hlt : d < 10 := Nat.digits_lt_base (by decide) (List.mem_reverse.mp hd)
    rw [Function.comp_apply, UInt8.toNat_ofNat', id]
    omega
  intro i j h
  have hrev : (Nat.digits 10 i).reverse = (Nat.digits 10 j).reverse := by rw [← hdigits, h, hdigits]
  exact Nat.digits_inj_iff.mp (List.reverse_injective hrev)

/-- `${username}$i.txt` -/
def fileName (username : List UInt8) (i : ℕ) : Name := username ++ decimal i ++ [46, 116, 120, 116]

theorem fileName_injective (username : List UInt8) : Function.Injective (fileName username) :=
  fun _ _ h => decimal_injective (List.append_cancel_left (List.append_cancel_right h))

theorem notMem_fileName {username : List UInt8} {c : UInt8} (hu : c ∉ username) (hdigit : c.toNat < 48)
    (hdot : c ≠ dot) (i : ℕ) : c ∉ fileName username i := by
  simp only [fileName, List.mem_append, not_or]
  refine ⟨⟨hu, fun h => absurd (le_of_mem_decimal h) (by omega)⟩, fun h => ?_⟩
  simp only [List.mem_cons, List.not_mem_nil, or_false] at h
  rcases h with rfl | rfl | rfl | rfl
  · exact hdot rfl
  all_goals simp at hdigit

theorem length_fileName (username : List UInt8) (i : ℕ) : 4 ≤ (fileName username i).length := by
  simp only [fileName, List.length_append, List.length_cons]
  omega

/-- `"$WRITEDIR/${username}$i.txt"` -/
def filePath (writeDir username : CString) (i : ℕ) : CString where
  bytes := writeDir.bytes ++ slash :: fileName username.bytes i
  noNull h := by
    rcases List.mem_append.mp h with h | h
    · exact writeDir.noNull h
    · rcases List.mem_cons.mp h with h | h
      · cases h
      · exact notMem_fileName username.noNull (by decide) (by decide) i h

/-- `writer "$WRITEDIR/${username}$i.txt" "$WRITESTR"` -/
def writerCall (env : ℕ → Env) (writeDir username writeStr : CString) (i : ℕ) : Invocation :=
  ⟨env i, [⟨[119, 114, 105, 116, 101, 114], by decide⟩, filePath writeDir username i, writeStr]⟩

/-- `for i in $( seq 1 $NUMFILES)` -/
def writerCalls (env : ℕ → Env) (writeDir username writeStr : CString) (numFiles : ℕ) :
    List Invocation :=
  (List.range' 1 numFiles).map (writerCall env writeDir username writeStr)

/-- A name in a directory. -/
theorem place_in_dir {p : List UInt8} {name : Name} (hp : p ≠ []) (hs : slash ∉ name)
    (hlen : 3 ≤ name.length) :
    fs.place (p ++ slash :: name) = name :: fs.place p := by
  have hne : name ≠ [] ∧ name ≠ [dot] ∧ name ≠ [dot, dot] := by
    refine ⟨?_, ?_, ?_⟩ <;> rintro rfl <;> simp at hlen
  rw [FileSystem.place, FileSystem.place, components_append_slash, components_of_notMem hs,
    if_neg hne.1, FileSystem.start_append hp, List.foldl_append, List.foldl_cons, List.foldl_nil,
    enter, if_neg hne.2.1, if_neg hne.2.2]

theorem ancestors_in_dir {p : List UInt8} {name : Name} (hp : fs.isDir p) (hs : slash ∉ name) :
    ∀ q ∈ ancestors (p ++ slash :: name), fs.place q ∈ fs.dirs := by
  rw [FileSystem.isDir, Bool.and_eq_true, decide_eq_true_iff] at hp
  rw [← FileSystem.isSome_walk_parent_iff, parent_append_slash, parent_eq_nil_iff.mpr hs,
    FileSystem.walk_concat_slash hp.1]
  exact hp.2

/-- A run that writes to a file in an existing directory, when nothing fails. -/
theorem main_in_dir {env : Env} {b : ℕ} (hb : env.malloc = some b) (hopen : env.fopen = true)
    (hprint : env.fprintf = true) (hclose : env.fclose = true) {path : CString} (hs : slash ∈ path.bytes)
    (hlast : path.bytes.getLast? ≠ some slash) (hanc : ∀ q ∈ ancestors path.bytes, fs.place q ∈ fs.dirs)
    (hnot : fs.place path.bytes ∉ fs.dirs) (argv0 str : CString) :
    ∃ fs', main env fs [argv0, path, str] = ⟨some .success, [.block b], fs'⟩ ∧ fs'.dirs = fs.dirs ∧
      fs'.cwd = fs.cwd ∧ fs'.files = Function.update fs.files (fs.place path.bytes)
        (some ((fs.files (fs.place path.bytes)).getD [] ++ (str.bytes ++ [newline]))) := by
  obtain ⟨dir, hdir, hne, hpre, hcomp, -⟩ := dirname_spec hlast hs
  have hmake : makeDir env fs dir = some fs := by
    rw [makeDir, (isDir_dirname hne hpre hcomp).mpr hanc, if_pos rfl]
  obtain ⟨fs₁, hf, h₁⟩ := FileSystem.exists_fopen_eq (List.ne_nil_of_mem hs) hlast hanc hnot
  obtain ⟨fs₂, h₂⟩ := exists_appendAt_of_fopen hf (str.bytes ++ [newline])
  obtain ⟨-, hdirs₁, hcwd₁, -⟩ := FileSystem.appendAt_eq_some h₁
  obtain ⟨-, hdirs₂, hcwd₂, -⟩ := FileSystem.appendAt_eq_some h₂
  refine ⟨fs₂, ?_, hdirs₂.trans hdirs₁, hcwd₂.trans hcwd₁, ?_⟩
  · rw [main_eq hb hdir hmake]
    simp only [writeLine, openFile, Env.reached, hopen, hprint, hclose, Bool.and_self, if_true, hf, h₂,
      Option.getD_some]
  · rw [FileSystem.appendAt_files h₂, FileSystem.appendAt_files h₁]
    simp

/-- What the script has prepared before the loop: the directory exists and is empty. -/
structure Prepared (fs : FileSystem) (writeDir username : CString) : Prop where
  isDir : fs.isDir writeDir.bytes
  noDir : ∀ name, name :: fs.place writeDir.bytes ∉ fs.dirs
  noFile : ∀ name, fs.files (name :: fs.place writeDir.bytes) = none
  username : slash ∉ username.bytes

/-- The places of the files that the loop makes. -/
def filePlaces (fs : FileSystem) (writeDir username : CString) (numFiles : ℕ) : List Place :=
  (List.range' 1 numFiles).map fun i => fileName username.bytes i :: fs.place writeDir.bytes

section

variable {env : ℕ → Env} {writeDir username : CString}

theorem mem_filePlaces {numFiles : ℕ} {f : Place} : f ∈ filePlaces fs writeDir username numFiles ↔
    ∃ i, 1 ≤ i ∧ i ≤ numFiles ∧ fileName username.bytes i :: fs.place writeDir.bytes = f := by
  simp only [filePlaces, List.mem_map, List.mem_range'_1]
  exact exists_congr fun i => by rw [and_assoc, Nat.add_comm, Nat.lt_succ_iff]

theorem nodup_filePlaces (fs : FileSystem) (writeDir username : CString) (numFiles : ℕ) :
    (filePlaces fs writeDir username numFiles).Nodup :=
  (List.nodup_map_iff fun _ _ h => fileName_injective _ (List.cons.inj h).1).mpr List.nodup_range'

theorem Prepared.place_filePath (h : Prepared fs writeDir username) (i : ℕ) :
    fs.place (filePath writeDir username i).bytes =
      fileName username.bytes i :: fs.place writeDir.bytes := by
  have hne : writeDir.bytes ≠ [] := (FileSystem.isDir_iff.mp h.isDir).1
  exact place_in_dir hne (notMem_fileName h.username (by decide) (by decide) i) (by
    have := length_fileName username.bytes i
    omega)

theorem filePath_getLast (i : ℕ) : (filePath writeDir username i).bytes.getLast? ≠ some slash := by
  have hlast : (filePath writeDir username i).bytes =
      (writeDir.bytes ++ slash :: (username.bytes ++ decimal i ++ [46, 116, 120])) ++ [116] := by
    simp [filePath, fileName]
  rw [hlast, List.getLast?_concat]
  decide

/-- One call of the loop, in a file system with the same directories. -/
theorem Prepared.writerCall (h : Prepared fs writeDir username)
    (henv : ∀ i, (env i).malloc ≠ none ∧ (env i).fopen = true ∧ (env i).fprintf = true ∧
      (env i).fclose = true)
    (hdirs : fs'.dirs = fs.dirs) (hcwd : fs'.cwd = fs.cwd) (writeStr : CString) (i : ℕ) :
    let c := Writer.writerCall env writeDir username writeStr i
    let f := fileName username.bytes i :: fs.place writeDir.bytes
    (c.outcome fs').status = some .success ∧ (c.step fs').dirs = fs.dirs ∧ (c.step fs').cwd = fs.cwd ∧
      (c.step fs').files =
        Function.update fs'.files f
          (some ((fs'.files f).getD [] ++ (writeStr.bytes ++ [newline]))) := by
  have hslash := notMem_fileName h.username (by decide) (by decide) i
  have hplace : fs'.place (filePath writeDir username i).bytes = _ :=
    (FileSystem.place_congr hcwd _).trans (h.place_filePath i)
  have hanc : ∀ q ∈ ancestors (filePath writeDir username i).bytes, fs'.place q ∈ fs'.dirs := by
    intro q hq
    rw [hdirs, FileSystem.place_congr hcwd]
    exact ancestors_in_dir h.isDir hslash q hq
  obtain ⟨hmalloc, hopen, hprint, hclose⟩ := henv i
  obtain ⟨b, hb⟩ := Option.ne_none_iff_exists'.mp hmalloc
  obtain ⟨fs'', hmain, hdirs', hcwd', hfiles'⟩ := main_in_dir hb hopen hprint hclose
    (by simp [filePath]) (filePath_getLast i) hanc (by rw [hplace, hdirs]; exact h.noDir _)
    ⟨[119, 114, 105, 116, 101, 114], by decide⟩ writeStr
  rw [hplace] at hfiles'
  simp only [Invocation.outcome, Invocation.step, Writer.writerCall, hmain, true_and]
  exact ⟨hdirs'.trans hdirs, hcwd'.trans hcwd, hfiles'⟩

/-- The loop, call by call. -/
theorem Prepared.writerCalls (h : Prepared fs writeDir username)
    (henv : ∀ i, (env i).malloc ≠ none ∧ (env i).fopen = true ∧ (env i).fprintf = true ∧
      (env i).fclose = true)
    (writeStr : CString) (n : ℕ) :
    Along step (fun fs c => (c.outcome fs).status = some .success) fs
        (Writer.writerCalls env writeDir username writeStr n) ∧
      (run step fs (Writer.writerCalls env writeDir username writeStr n)).dirs = fs.dirs ∧
      (run step fs (Writer.writerCalls env writeDir username writeStr n)).cwd = fs.cwd ∧
      ∀ f, (run step fs (Writer.writerCalls env writeDir username writeStr n)).files f =
        if f ∈ filePlaces fs writeDir username n then some (writeStr.bytes ++ [newline])
        else fs.files f := by
  induction n with
  | zero => exact ⟨trivial, rfl, rfl, fun f => by rw [if_neg (by simp [filePlaces])]; rfl⟩
  | succ n ih =>
    obtain ⟨hsuccess, hdirs, hcwd, hfiles⟩ := ih
    have hcalls : Writer.writerCalls env writeDir username writeStr (n + 1) =
        Writer.writerCalls env writeDir username writeStr n ++
          [Writer.writerCall env writeDir username writeStr (1 + n)] := by
      rw [Writer.writerCalls, List.range'_1_concat, List.map_append, List.map_singleton,
        Writer.writerCalls]
    rw [hcalls, run_concat, along_concat]
    obtain ⟨hstatus, hdirs', hcwd', hfiles'⟩ := h.writerCall henv hdirs hcwd writeStr (1 + n)
    refine ⟨⟨hsuccess, hstatus⟩, hdirs', hcwd', fun f => ?_⟩
    have hplaces : filePlaces fs writeDir username (n + 1) = filePlaces fs writeDir username n ++
        [fileName username.bytes (1 + n) :: fs.place writeDir.bytes] := by
      rw [filePlaces, List.range'_1_concat, List.map_append, List.map_singleton, filePlaces]
    have hnodup := nodup_filePlaces fs writeDir username (n + 1)
    rw [hplaces, List.nodup_append] at hnodup
    rw [hfiles', hplaces]
    by_cases hf : f = fileName username.bytes (1 + n) :: fs.place writeDir.bytes
    · have hnew : f ∉ filePlaces fs writeDir username n := fun hmem =>
        hnodup.2.2 f hmem f (by simp [hf]) rfl
      have hnone : fs.files f = none := by rw [hf, h.noFile]
      rw [← hf, Function.update_self, hfiles, if_neg hnew, hnone]
      simp
    · rw [Function.update_of_ne hf, hfiles]
      simp [hf]

/-- `find $1 -type f` finds files under the directory. -/
def filesUnder (fs : FileSystem) (d : Place) : Set Place := {f | fs.files f ≠ none ∧ d <:+ f}

theorem Prepared.filesUnder (h : Prepared fs writeDir username) (hdirs : fs'.dirs = fs.dirs)
    {f : Place} (hf : f ∈ Writer.filesUnder fs' (fs.place writeDir.bytes)) :
    ∃ name, f = name :: fs.place writeDir.bytes := by
  obtain ⟨hfile, before, rfl⟩ := hf
  rcases before with _ | ⟨name, between⟩
  · exact absurd (fs'.file_notMem _ (hdirs ▸ (FileSystem.isDir_iff.mp h.isDir).2.2)) hfile
  · rcases between.eq_nil_or_concat' with rfl | ⟨outer, inner, rfl⟩
    · exact ⟨name, rfl⟩
    · have htail : outer ++ [inner] ++ fs.place writeDir.bytes ∈ fs.dirs :=
        hdirs ▸ fs'.file_tail_mem _ hfile
      rw [List.append_assoc] at htail
      exact absurd (FileSystem.suffix_mem (List.suffix_append _ _) htail) (h.noDir inner)

end

/-- For every number of files, every directory that was just made, every user name without
a slash and every string: when nothing fails, no run of `writer` stops the loop, which
runs under `set -e`; the loop makes the files `$i.txt` with the user's name in front,
each with the string as its only line, it changes nothing else, and there are as many
files under the directory as the script has asked for. -/
theorem finder_test_writes_files (env : ℕ → Env) (fs : FileSystem)
    (writeDir username writeStr : CString) (numFiles : ℕ) (h : Prepared fs writeDir username)
    (henv : ∀ i, (env i).malloc ≠ none ∧ (env i).fopen = true ∧ (env i).fprintf = true ∧
      (env i).fclose = true) :
    let cs := writerCalls env writeDir username writeStr numFiles
    let fs' := run step fs cs
    Along step (fun fs c => (c.outcome fs).status = some .success) fs cs ∧ fs'.dirs = fs.dirs ∧
      (∀ f, fs'.files f = if f ∈ filePlaces fs writeDir username numFiles then
        some (writeStr.bytes ++ [newline]) else fs.files f) ∧
      (filesUnder fs' (fs.place writeDir.bytes)).ncard = numFiles := by
  intro cs fs'
  obtain ⟨hsuccess, hdirs, -, hfiles⟩ := h.writerCalls henv writeStr numFiles
  refine ⟨hsuccess, hdirs, hfiles, ?_⟩
  have hunder : filesUnder fs' (fs.place writeDir.bytes) =
      (filePlaces fs writeDir username numFiles).toFinset := by
    ext f
    rw [Finset.mem_coe, List.mem_toFinset]
    constructor
    · intro hf
      obtain ⟨name, rfl⟩ := h.filesUnder hdirs hf
      by_contra hnot
      have hfile := hf.1
      rw [hfiles, if_neg hnot, h.noFile] at hfile
      exact hfile rfl
    · intro hf
      obtain ⟨i, -, -, rfl⟩ := mem_filePlaces.mp hf
      exact ⟨by rw [hfiles, if_pos hf]; simp, List.suffix_cons _ _⟩
  rw [hunder, Set.ncard_coe_finset, List.toFinset_card_of_nodup (nodup_filePlaces ..), filePlaces,
    List.length_map, List.length_range']

/-- Two files in a new directory `/d`. -/
theorem finder_test_writes_files_two :
    (filesUnder (run step (FileSystem.empty.tryMkdir [47, 100])
      (writerCalls (fun _ => envOk) ⟨[47, 100], by decide⟩ ⟨[117], by decide⟩ ⟨[120], by decide⟩ 2))
        [[100]]).ncard = 2 := by
  have hdirs : (FileSystem.empty.tryMkdir [47, 100]).dirs = {[[100]], []} := by decide
  have hplace : (FileSystem.empty.tryMkdir [47, 100]).place [47, 100] = [[100]] := by decide
  have h : Prepared (FileSystem.empty.tryMkdir [47, 100]) ⟨[47, 100], by decide⟩ ⟨[117], by decide⟩ :=
    ⟨by decide, fun name => by rw [hplace, hdirs]; simp,
      fun name => by rw [(FileSystem.grown_tryMkdir _ _).1.files]; rfl, by decide⟩
  have hcount := (finder_test_writes_files (fun _ => envOk) _ _ _ ⟨[120], by decide⟩ 2 h
    fun _ => ⟨by decide, rfl, rfl, rfl⟩).2.2.2
  rwa [hplace] at hcount

end Aesd.Writer
