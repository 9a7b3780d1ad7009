import Aesd.Writer.Mkdir

/-! `main` of `writer.c`: take the directory part of the path, make it if it is not
there, and append a line to the file. `dirname` cuts its argument in place or
returns a static string, and `main` gives what it returns to `free`. The file has
its line exactly when the path has a slash and `_mkdir`, which sees 255 bytes of the
directory part, has made what was missing.

The stream is buffered. When `fprintf` or `fclose` fails, the file has got the beginning
of the line, whatever stdio had passed on by the end of the program. -/

namespace Aesd.Writer

open PathName

/-- A path without the slashes at its end. -/
def trim (p : List UInt8) : List UInt8 := p.rdropWhile (· = slash)

/-- `dirname` of glibc: its argument, cut in place; `none` for the static string. -/
def dirname (path : List UInt8) : Option (List UInt8) :=
  -- slashes at the end are skipped, unless there is nothing else
  let lastSlash :=
    if path.getLast? = some slash ∧ trim path ≠ [] then parent (trim path) else parent path
  if lastSlash = [] then none
  else if trim lastSlash = [] then some (path.take (if lastSlash.length = 2 then 2 else 1))
  else some (trim lastSlash)

/-- What `free` is given: a block of `malloc`, or the static string of `dirname`. -/
inductive Pointer where
  | block (b : ℕ)
  | dot
  deriving DecidableEq

inductive ExitStatus where
  | success
  | failure
  deriving DecidableEq

/-- How the calls turn out that do not depend on the file system alone. -/
structure Env where
  malloc : Option ℕ
  /-- The stack that `_mkdir` finds in its buffer. -/
  garbage : Fin 256 → UInt8
  mkdir : List UInt8 → Bool
  fopen : Bool
  fprintf : Bool
  fclose : Bool
  /-- How much of the line has reached the file when `fprintf` or `fclose` fails. -/
  written : ℕ

/-- The end of a run; there is no exit status when it is undefined. -/
structure Outcome where
  status : Option ExitStatus
  freed : List Pointer
  fs : FileSystem

def Env.tryMkdir (env : Env) (fs : FileSystem) (p : List UInt8) : FileSystem :=
  if env.mkdir p then fs.tryMkdir p else fs

/-- The directory part, made if `stat` does not find it. -/
def makeDir (env : Env) (fs : FileSystem) (dir : List UInt8) : Option FileSystem :=
  if fs.isDir dir then some fs else mkdir env.tryMkdir env.garbage dir fs

/-- `fopen(path, "a+")` -/
def openFile (env : Env) (fs : FileSystem) (path : List UInt8) : Option (Place × FileSystem) :=
  if env.fopen then fs.fopen path else none

/-- What the file gets of a line. -/
def Env.reached (env : Env) (line : List UInt8) : List UInt8 :=
  if env.fprintf && env.fclose then line else line.take env.written

/-- `fopen`, `fprintf` and `fclose`. Only a failure of `fclose` goes unnoticed. -/
def writeLine (env : Env) (fs : FileSystem) (path line : List UInt8) : ExitStatus × FileSystem :=
  match openFile env fs path with
  | none => (.failure, fs)
  | some (file, fs) =>
    (if env.fprintf then .success else .failure, (fs.appendAt file (env.reached line)).getD fs)

def newline : UInt8 := 10

def main (env : Env) (fs : FileSystem) : List CString → Outcome
  | _ :: path :: stringToWrite :: _ =>
    match env.malloc with
    | none => ⟨none, [], fs⟩  -- `strcpy` to a null pointer
    | some b =>
      let ptr := if (dirname path.bytes).isSome then Pointer.block b else .dot
      let dir := (dirname path.bytes).getD [dot]
      match makeDir env fs dir with
      | none => ⟨none, [], fs⟩
      | some fs =>
        if ptr = .block b then
          let (status, fs) := writeLine env fs path.bytes (stringToWrite.bytes ++ [newline])
          ⟨some status, [ptr], fs⟩
        else ⟨none, [ptr], fs⟩
  | _ => ⟨some .failure, [], fs⟩

/-! ### The directory part -/

theorem trim_concat_slash (p : List UInt8) : trim (p ++ [slash]) = trim p :=
  List.rdropWhile_concat_pos _ _ _ (by simp)

theorem trim_concat {c : UInt8} (hc : c ≠ slash) (p : List UInt8) : trim (p ++ [c]) = p ++ [c] :=
  List.rdropWhile_concat_neg _ _ _ (by simpa using hc)

theorem components_trim (p : List UInt8) : components (trim p) = components p := by
  induction p using List.reverseRecOn with
  | nil => rfl
  | append_singleton p c ih =>
    by_cases hc : c = slash
    · rw [hc, trim_concat_slash, ih, components_concat_slash]
    · rw [trim_concat hc]

theorem components_eq_nil {p : List UInt8} (h : ∀ x ∈ p, x = slash) : components p = [] := by
  have htrim : trim p = [] := List.rdropWhile_eq_nil_iff.mpr fun x hx => by simpa using h x hx
  rw [← components_trim, htrim, components_nil]

/-- Behind a trimmed path stands a slash. -/
theorem exists_eq_trim_append (p : List UInt8) :
    ∃ r, p ++ [slash] = trim (p ++ [slash]) ++ slash :: r := by
  induction p using List.reverseRecOn with
  | nil => exact ⟨[], by simp [trim]⟩
  | append_singleton p c ih =>
    by_cases hc : c = slash
    · obtain ⟨r, hr⟩ := ih
      refine ⟨r ++ [slash], ?_⟩
      rw [hc, trim_concat_slash]
      conv_lhs => rw [hr]
      simp
    · exact ⟨[], by rw [trim_concat_slash, trim_concat hc]⟩

theorem parent_eq_nil_iff {p : List UInt8} : parent p = [] ↔ slash ∉ p := by
  rw [parent, List.rdropWhile_eq_nil_iff]
  simp only [decide_eq_true_eq]
  exact ⟨fun h hs => h _ hs rfl, fun h x hx hxs => h (hxs ▸ hx)⟩

theorem dirname_eq_none {path : List UInt8} (hs : slash ∉ path) : dirname path = none := by
  have hlast : path.getLast? ≠ some slash := fun h => hs (List.mem_of_getLast? h)
  simp [dirname, hlast, parent_eq_nil_iff.mpr hs]

/-- The directory part of a path with a name at its end. It is one of the ancestors,
or it is the root. -/
theorem dirname_spec {path : List UInt8} (hlast : path.getLast? ≠ some slash) (hs : slash ∈ path) :
    ∃ dir, dirname path = some dir ∧ dir ≠ [] ∧ dir <+: path ∧
      components dir = components (parent path) ∧
      (components dir = [] ∨ dir ∈ ancestors path ∧ dir.getLast? ≠ some slash) := by
  have hne : parent path ≠ [] := fun h => parent_eq_nil_iff.mp h hs
  obtain ⟨n, -, hpath⟩ := exists_name path
  have hpre : parent path <+: path := ⟨n, hpath.symm⟩
  simp only [dirname, hlast, false_and, if_false, hne]
  by_cases htrim : trim (parent path) = []
  · -- only slashes in front of the name: the cut is behind the first or the second
    have hall : ∀ x ∈ parent path, x = slash := fun x hx => by
      simpa using List.rdropWhile_eq_nil_iff.mp htrim x hx
    have hlen := List.length_pos_iff.mpr hne
    set k := if (parent path).length = 2 then 2 else 1 with hk
    have hk' : 1 ≤ k ∧ k ≤ (parent path).length := by
      rw [hk]
      split_ifs <;> omega
    have htake : path.take k = (parent path).take k := by
      conv_lhs => rw [hpath]
      exact List.take_append_of_le_length hk'.2
    have hdir : components (path.take k) = [] := by
      rw [htake]
      exact components_eq_nil fun x hx => hall x (List.mem_of_mem_take hx)
    rw [if_pos htrim]
    refine ⟨_, rfl, ?_, List.take_prefix _ _, hdir.trans (components_eq_nil hall).symm, .inl hdir⟩
    rw [htake, ← List.length_pos_iff, List.length_take]
    omega
  · rw [if_neg htrim]
    have hcut : trim (parent path) <+: parent path := List.rdropWhile_prefix _ _
    refine ⟨_, rfl, htrim, hcut.trans hpre, components_trim _, .inr ⟨?_, ?_⟩⟩
    · obtain ⟨a, ha⟩ := (parent_eq_nil_or path).resolve_left hne
      obtain ⟨r, hr⟩ := exists_eq_trim_append a
      rw [← ha] at hr
      refine mem_ancestors.mpr ⟨htrim, r ++ n, ?_⟩
      conv_lhs => rw [hpath, hr]
      simp
    · rw [List.getLast?_eq_some_getLast htrim]
      simpa [trim] using List.rdropWhile_last_not _ _ htrim

theorem isDir_dirname {fs : FileSystem} {path dir : List UInt8} (hne : dir ≠ []) (hpre : dir <+: path)
    (hcomp : components dir = components (parent path)) :
    fs.isDir dir ↔ ∀ q ∈ ancestors path, fs.place q ∈ fs.dirs := by
  have hstart : fs.start dir = fs.start (parent path) := by
    obtain ⟨r, rfl⟩ := hpre
    rw [FileSystem.start_parent, FileSystem.start_append hne]
  rw [← FileSystem.isSome_walk_parent_iff, FileSystem.isDir, FileSystem.walk, FileSystem.walk, hcomp,
    hstart]
  simp [hne]

/-! ### The line -/

theorem Env.grown_tryMkdir (env : Env) (fs : FileSystem) (p : List UInt8) :
    fs.Grown (env.tryMkdir fs p) := by
  rw [tryMkdir]
  split_ifs
  · exact (fs.grown_tryMkdir p).1
  · exact .refl fs

/-- A file that was opened can be written to. -/
theorem exists_appendAt_of_fopen {fs fs₁ : FileSystem} {path : List UInt8} {file : Place}
    (h : fs.fopen path = some (file, fs₁)) (bytes : List UInt8) :
    ∃ fs₂, fs₁.appendAt file bytes = some fs₂ := by
  obtain ⟨rfl, h₁⟩ := FileSystem.fopen_eq_some h
  obtain ⟨-, hdirs₁, -⟩ := FileSystem.appendAt_eq_some h₁
  exact Option.isSome_iff_exists.mp (FileSystem.isSome_appendAt_iff.mpr
    (hdirs₁ ▸ FileSystem.isSome_appendAt_iff.mp (Option.isSome_of_eq_some h₁)))

/-- The line is written, and the ancestors of the path exist, exactly when the
ancestors existed before and the path was not a directory. -/
theorem writeLine_iff {env : Env} (hopen : env.fopen = true) (hprint : env.fprintf = true)
    (hclose : env.fclose = true) {fs : FileSystem} {path : List UInt8} (hne : path ≠ [])
    (hlast : path.getLast? ≠ some slash) (line : List UInt8) :
    let r := writeLine env fs path line
    (r.1 = .success ∧ (∀ q ∈ ancestors path, r.2.isDir q) ∧
      r.2.files (fs.place path) = some ((fs.files (fs.place path)).getD [] ++ line)) ↔
    (∀ q ∈ ancestors path, fs.place q ∈ fs.dirs) ∧ fs.place path ∉ fs.dirs := by
  intro r
  have hr : r = writeLine env fs path line := rfl
  simp only [writeLine, openFile, Env.reached, hopen, hprint, hclose, Bool.and_self, if_true] at hr
  constructor
  · rintro ⟨hsuccess, hdirs, -⟩
    cases hf : fs.fopen path with
    | none => simp [hr, hf] at hsuccess
    | some x =>
      obtain ⟨file, fs₁⟩ := x
      obtain ⟨fs₂, h₂⟩ := exists_appendAt_of_fopen hf line
      obtain ⟨rfl, h₁⟩ := FileSystem.fopen_eq_some hf
      obtain ⟨hnot, hdirs₁, hcwd₁, -⟩ := FileSystem.appendAt_eq_some h₁
      obtain ⟨-, hdirs₂, hcwd₂, -⟩ := FileSystem.appendAt_eq_some h₂
      simp only [hr, hf, h₂, Option.getD_some] at hdirs
      refine ⟨fun q hq => ?_, hnot⟩
      have hq := (FileSystem.isDir_iff.mp (hdirs q hq)).2.2
      rwa [hdirs₂, hdirs₁, FileSystem.place_congr (hcwd₂.trans hcwd₁)] at hq
  · rintro ⟨hanc, hnot⟩
    obtain ⟨fs₁, hf, h₁⟩ := FileSystem.exists_fopen_eq hne hlast hanc hnot
    obtain ⟨fs₂, h₂⟩ := exists_appendAt_of_fopen hf line
    obtain ⟨-, hdirs₁, hcwd₁, hfile₁⟩ := FileSystem.appendAt_eq_some h₁
    obtain ⟨-, hdirs₂, hcwd₂, hfile₂⟩ := FileSystem.appendAt_eq_some h₂
    simp only [hf, h₂, Option.getD_some] at hr
    rw [hr]
    refine ⟨rfl, fun q hq => ?_, ?_⟩
    · refine FileSystem.isDir_of_mem_ancestors (fun a ha => ?_) hq
      rw [hdirs₂, hdirs₁, FileSystem.place_congr (hcwd₂.trans hcwd₁)]
      exact hanc a ha
    · rw [hfile₂, hfile₁]
      simp

/-! ### A whole run -/

/-- What `main` is given: a path that ends in a name, ancestors of it that are no
regular files, directories that can be made in their parents, and a file that can be
opened and written once its directory exists, so that it is neither a directory nor one
of its own ancestors. -/
structure Setting (env : Env) (fs : FileSystem) (path : List UInt8) : Prop where
  mkdir : ∀ p, env.mkdir p = true
  fopen : env.fopen = true
  fprintf : env.fprintf = true
  fclose : env.fclose = true
  nonempty : path ≠ []
  name : path.getLast? ≠ some slash
  noFile : ∀ q ∈ ancestors path, fs.files (fs.place q) = none
  notDir : fs.place path ∉ fs.dirs
  notAncestor : ∀ q ∈ ancestors path, fs.place q ≠ fs.place path

/-- What `main` is for: it frees what `malloc` returned, exits with `EXIT_SUCCESS`,
all ancestors of the path exist, and the file is longer by the line. -/
structure Appended (env : Env) (fs : FileSystem) (path stringToWrite : List UInt8) (o : Outcome) :
    Prop where
  freed : ∀ p ∈ o.freed, ∃ b, env.malloc = some b ∧ p = .block b
  status : o.status = some .success
  ancestors : ∀ q ∈ ancestors path, o.fs.isDir q
  content : o.fs.files (fs.place path) =
    some ((fs.files (fs.place path)).getD [] ++ (stringToWrite ++ [newline]))

/-- The directory part exists, or the paths that `_mkdir` tries are enough: every
ancestor exists or is one of them, and none of them is the file that is to be
made. -/
def Enough (fs : FileSystem) (path dir : List UInt8) : Prop :=
  fs.isDir dir = true ∨
    (∀ q ∈ ancestors path, fs.place q ∈ fs.dirs ∨ ∃ a ∈ attempts dir, fs.place a = fs.place q) ∧
    (fs.files (fs.place path) = none → ∀ a ∈ attempts dir, fs.place a ≠ fs.place path)

instance (fs : FileSystem) (path dir : List UInt8) : Decidable (Enough fs path dir) :=
  inferInstanceAs (Decidable (_ ∨ _ ∧ (_ → _)))

variable {env : Env} {fs : FileSystem} {path dir : List UInt8}

theorem cut_isPrefix (dir : List UInt8) : cut dir <+: dir := by
  have htake : dir.take 255 <+: dir := List.take_prefix _ _
  have hlast : (dir.take 255).dropLast <+: dir.take 255 := List.dropLast_prefix _
  simp only [cut]
  split_ifs
  · exact hlast.trans htake
  · exact htake

/-- After `_mkdir` the ancestors exist and the file can be opened exactly when its
attempts are enough. -/
theorem Setting.attempts_iff (h : Setting env fs path) (hpre : dir <+: path)
    (hdir : fs.isDir dir = false) :
    let fs₁ := (attempts dir).foldl FileSystem.tryMkdir fs
    ((∀ q ∈ ancestors path, fs₁.place q ∈ fs₁.dirs) ∧ fs₁.place path ∉ fs₁.dirs) ↔
      Enough fs path dir := by
  intro fs₁
  have hgrown : fs.Grown fs₁ := fs.grown_foldl (attempts dir)
  have hmade : ∀ a ∈ attempts dir, fs.files (fs.place a) = none → fs.place a ∈ fs₁.dirs :=
    fun a ha hf => place_mem_attempts
      (fun q hq => h.noFile q (ancestors_subset ((cut_isPrefix dir).trans hpre) hq)) ha hf
  simp only [hgrown.place, Enough, hdir, Bool.false_eq_true, false_or]
  constructor
  · rintro ⟨hanc, hnot⟩
    refine ⟨fun q hq => FileSystem.mem_dirs_foldl (hanc q hq), fun hf a ha heq => hnot ?_⟩
    rw [← heq]
    exact hmade a ha (by rwa [heq])
  · rintro ⟨hanc, hnot⟩
    refine ⟨fun q hq => ?_, fun hmem => ?_⟩
    · rcases hanc q hq with hd | ⟨a, ha, heq⟩
      · exact hgrown.dirs hd
      · rw [← heq]
        exact hmade a ha (by rw [heq]; exact h.noFile q hq)
    · -- a file keeps `mkdir` from making a directory in its place
      have hf : fs.files (fs.place path) = none := by
        rw [← hgrown.files]
        exact fs₁.file_notMem _ hmem
      rcases FileSystem.mem_dirs_foldl hmem with hd | ⟨a, ha, heq⟩
      · exact h.notDir hd
      · exact hnot hf a ha heq

theorem Setting.tryMkdir (h : Setting env fs path) : env.tryMkdir = FileSystem.tryMkdir := by
  funext fs p
  rw [Env.tryMkdir, if_pos (h.mkdir p)]

theorem Setting.appended_iff (h : Setting env fs path) {b : ℕ} (hb : env.malloc = some b)
    {fs₁ : FileSystem} (hgrown : fs.Grown fs₁) (stringToWrite : List UInt8) :
    let r := writeLine env fs₁ path (stringToWrite ++ [newline])
    Appended env fs path stringToWrite ⟨some r.1, [.block b], r.2⟩ ↔
      (∀ q ∈ ancestors path, fs₁.place q ∈ fs₁.dirs) ∧ fs₁.place path ∉ fs₁.dirs := by
  intro r
  refine Iff.trans ?_ (writeLine_iff h.fopen h.fprintf h.fclose h.nonempty h.name
    (stringToWrite ++ [newline]))
  rw [hgrown.place, hgrown.files]
  constructor
  · rintro ⟨-, hstatus, hdirs, hcontent⟩
    exact ⟨Option.some.inj hstatus, hdirs, hcontent⟩
  · rintro ⟨hstatus, hdirs, hcontent⟩
    refine ⟨fun p hp => ⟨b, hb, by simpa using hp⟩, ?_, hdirs, hcontent⟩
    exact congrArg some hstatus

/-- What `main` does with a path that has a slash. -/
theorem main_eq {path stringToWrite : CString} {b : ℕ} (hb : env.malloc = some b)
    (hdir : dirname path.bytes = some dir) {fs₁ : FileSystem} (hmake : makeDir env fs dir = some fs₁)
    (argv0 : CString) (rest : List CString) :
    let r := writeLine env fs₁ path.bytes (stringToWrite.bytes ++ [newline])
    main env fs (argv0 :: path :: stringToWrite :: rest) = ⟨some r.1, [.block b], r.2⟩ := by
  simp [main, hb, hdir, hmake]

/-- A directory part of at most 255 bytes is no problem: `_mkdir` makes all of it. -/
theorem Setting.enough_of_length_le (h : Setting env fs path) (hs : slash ∈ path)
    (hdir : dirname path = some dir) (hlen : dir.length ≤ 255) : Enough fs path dir := by
  obtain ⟨dir', hdir', hne, hpre, hcomp, hcases⟩ := dirname_spec h.name hs
  obtain rfl : dir = dir' := Option.some.inj (hdir.symm.trans hdir')
  rcases hcases with hroot | ⟨hanc, hlast⟩
  · exact .inl (by simp [FileSystem.isDir, FileSystem.walk, hroot, hne, FileSystem.resolve])
  · have hcut : cut dir = dir := by
      simp only [cut]
      rw [List.take_of_length_le hlen, if_neg hlast]
    have hmem : ∀ a ∈ attempts dir, a ∈ ancestors path := fun a ha => by
      rw [attempts, hcut] at ha
      rcases List.mem_append.mp ha with ha | ha
      · exact ancestors_subset hpre ha
      · rwa [List.mem_singleton.mp ha]
    have hmade := isDir_attempts (fun a ha => h.noFile a (hmem a ha)) (q := dir)
      (by simp [attempts, hcut]) hne
    have hplaces := (isDir_dirname hne hpre hcomp).mp hmade
    simp only [(fs.grown_foldl (attempts dir)).place] at hplaces
    refine .inr ⟨fun q hq => FileSystem.mem_dirs_foldl (hplaces q hq), fun _ a ha => ?_⟩
    exact h.notAncestor a (hmem a ha)

/-- For every path that ends in a name, every string and every file system in which
nothing but the program itself can fail: `main` frees what `malloc` returned and
succeeds, all ancestors of the path exist and the line stands at the end of the file,
exactly when `malloc` returns a block, the path has a slash, and its directory part
exists or needs nothing beyond what `_mkdir` tries with its first 255 bytes. -/
theorem writer_appends_line_iff (env : Env) (fs : FileSystem) (argv0 path stringToWrite : CString)
    (rest : List CString) (h : Setting env fs path.bytes) :
    Appended env fs path.bytes stringToWrite.bytes
        (main env fs (argv0 :: path :: stringToWrite :: rest)) ↔
      env.malloc ≠ none ∧ slash ∈ path.bytes ∧
        ∀ dir, dirname path.bytes = some dir → Enough fs path.bytes dir := by
  cases hb : env.malloc with
  | none =>
    refine iff_of_false (fun ha => ?_) (by simp)
    have := ha.status
    simp [main, hb] at this
  | some b =>
    by_cases hs : slash ∈ path.bytes
    · obtain ⟨dir, hdir, hne, hpre, hcomp, -⟩ := dirname_spec h.name hs
      have hnull : 0 ∉ dir := fun h0 => path.noNull (hpre.subset h0)
      have hcond : (some b ≠ none ∧ slash ∈ path.bytes ∧
          ∀ d, dirname path.bytes = some d → Enough fs path.bytes d) ↔ Enough fs path.bytes dir := by
        simp [hs, hdir]
      rw [hcond]
      cases hd : fs.isDir dir with
      | true =>
        have hmake : makeDir env fs dir = some fs := by rw [makeDir, hd, if_pos rfl]
        rw [main_eq hb hdir hmake]
        refine (h.appended_iff hb (.refl fs) stringToWrite.bytes).trans ?_
        exact iff_of_true ⟨(isDir_dirname hne hpre hcomp).mp hd, h.notDir⟩ (.inl hd)
      | false =>
        have hmake : makeDir env fs dir = some ((attempts dir).foldl FileSystem.tryMkdir fs) := by
          rw [makeDir, hd, if_neg Bool.false_ne_true, mkdir_eq _ _ hnull hne, h.tryMkdir]
        rw [main_eq hb hdir hmake]
        refine (h.appended_iff hb (fs.grown_foldl _) stringToWrite.bytes).trans ?_
        exact h.attempts_iff hpre hd
    · refine iff_of_false (fun ha => ?_) (fun hc => hs hc.2.1)
      have := ha.status
      cases hm : makeDir env fs [dot] <;> simp [main, hb, dirname_eq_none hs, hm] at this

/-- All calls succeed. -/
def envOk : Env := ⟨some 0, fun _ => 0, fun _ => true, true, true, true, 0⟩

/-- `writer /a/b x` from an empty root. -/
theorem writer_appends_line_absolute :
    Appended envOk .empty [47, 97, 47, 98] [120] (main envOk .empty
      [⟨[], by decide⟩, ⟨[47, 97, 47, 98], by decide⟩, ⟨[120], by decide⟩]) := by
  have h : Setting envOk .empty [47, 97, 47, 98] :=
    ⟨fun _ => rfl, rfl, rfl, rfl, by decide, by decide, fun _ _ => rfl, by decide, by decide⟩
  refine (writer_appends_line_iff envOk .empty ⟨[], by decide⟩ ⟨[47, 97, 47, 98], by decide⟩
    ⟨[120], by decide⟩ [] h).mpr ⟨by decide, by decide, fun dir hdir => ?_⟩
  obtain rfl : [47, 97] = dir := Option.some.inj (by rw [← hdir]; decide)
  exact h.enough_of_length_le (by decide) hdir (by decide)

/-- `writer b x`: the static string of `dirname` is given to `free`. -/
theorem writer_appends_line_fails :
    ¬ ∀ (env : Env) (fs : FileSystem) (argv0 path stringToWrite : CString), env.malloc ≠ none →
      Setting env fs path.bytes → Appended env fs path.bytes stringToWrite.bytes
        (main env fs [argv0, path, stringToWrite]) := by
  intro h
  have happended := h envOk .empty ⟨[], by decide⟩ ⟨[98], by decide⟩ ⟨[120], by decide⟩ (by decide)
    ⟨fun _ => rfl, rfl, rfl, rfl, by decide, by decide, fun _ _ => rfl, by decide, by decide⟩
  obtain ⟨b, -, hb⟩ := happended.freed .dot (by decide)
  exact absurd hb (by simp)

end Aesd.Writer
