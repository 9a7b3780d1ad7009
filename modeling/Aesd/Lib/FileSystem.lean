import Mathlib.Data.Finset.Insert
import Mathlib.Data.List.DropRight

/-! Path names and a file system without links: a set of directories and the
contents of the files in them. A place is a list of names, innermost first; a
path is resolved name by name, and every directory on the way has to exist.
Making the directories on the way to a path, the shortest prefix first, makes
its parent resolve. -/

namespace Aesd

namespace PathName

def slash : UInt8 := 47

def dot : UInt8 := 46

/-- The name of an entry in a directory. -/
abbrev Name := List UInt8

/-- The names from a directory or file up to the root. -/
abbrev Place := List Name

/-- The names between the slashes. -/
def components (p : List UInt8) : List Name :=
  (p.splitOnP (· == slash)).filter (· ≠ [])

/-- The path up to its last slash, which is kept. -/
def parent (p : List UInt8) : List UInt8 := p.rdropWhile (· ≠ slash)

/-- The prefixes in front of a slash, the shortest first; the empty one, in front
of a leading slash, is left out. -/
def ancestors (p : List UInt8) : List (List UInt8) :=
  ((List.range p.length).filter fun k => 1 ≤ k ∧ p[k]? = some slash).map p.take

/-- The place a name leads to from the place `d`. -/
def enter (d : Place) (n : Name) : Place :=
  if n = [dot] then d else if n = [dot, dot] then d.tail else n :: d

/-! ### Names -/

@[simp] theorem components_nil : components [] = [] := rfl

theorem components_append_slash (a b : List UInt8) :
    components (a ++ slash :: b) = components a ++ components b := by
  simp only [components]
  rw [List.splitOnP_append_cons _ _ (by simp), List.filter_append]

@[simp] theorem components_concat_slash (a : List UInt8) :
    components (a ++ [slash]) = components a := by
  rw [components_append_slash, components_nil, List.append_nil]

theorem components_of_notMem {a : List UInt8} (h : slash ∉ a) :
    components a = if a = [] then [] else [a] := by
  have hs : a.splitOnP (· == slash) = [a] := by
    refine List.splitOnP_eq_singleton fun x hx => ?_
    simpa using fun hxs : x = slash => h (hxs ▸ hx)
  simp only [components, hs]
  by_cases ha : a = [] <;> simp [ha]

/-! ### Parents and ancestors -/

@[simp] theorem parent_nil : parent [] = [] := rfl

@[simp] theorem parent_concat_slash (a : List UInt8) : parent (a ++ [slash]) = a ++ [slash] :=
  List.rdropWhile_concat_neg _ _ _ (by simp)

theorem parent_concat {c : UInt8} (hc : c ≠ slash) (a : List UInt8) :
    parent (a ++ [c]) = parent a :=
  List.rdropWhile_concat_pos _ _ _ (by simpa using hc)

theorem parent_append_slash (a b : List UInt8) :
    parent (a ++ slash :: b) = a ++ slash :: parent b := by
  induction b using List.reverseRecOn with
  | nil => simp
  | append_singleton b c ih =>
    rw [← List.cons_append, ← List.append_assoc]
    by_cases hc : c = slash
    · rw [hc, parent_concat_slash, parent_concat_slash]
      simp
    · rw [parent_concat hc, parent_concat hc, ih]

/-- A path is its parent and the name behind it. -/
theorem exists_name (p : List UInt8) : ∃ n, slash ∉ n ∧ p = parent p ++ n := by
  induction p using List.reverseRecOn with
  | nil => exact ⟨[], by simp, rfl⟩
  | append_singleton p c ih =>
    by_cases hc : c = slash
    · exact ⟨[], by simp, by simp [hc]⟩
    · obtain ⟨n, hn, hp⟩ := ih
      refine ⟨n ++ [c], by simpa [Ne.symm hc] using hn, ?_⟩
      rw [parent_concat hc, ← List.append_assoc, ← hp]

theorem parent_eq_nil_or (p : List UInt8) : parent p = [] ∨ ∃ a, parent p = a ++ [slash] := by
  induction p using List.reverseRecOn with
  | nil => exact .inl rfl
  | append_singleton p c ih =>
    by_cases hc : c = slash
    · exact .inr ⟨p, by rw [hc, parent_concat_slash]⟩
    · rwa [parent_concat hc]

theorem components_eq (p : List UInt8) :
    ∃ n, p = parent p ++ n ∧
      components p = components (parent p) ++ if n = [] then [] else [n] := by
  obtain ⟨n, hn, hp⟩ := exists_name p
  refine ⟨n, hp, ?_⟩
  rw [← components_of_notMem hn]
  rcases parent_eq_nil_or p with h | ⟨a, h⟩
  · rw [h, List.nil_append] at hp
    rw [h, hp, components_nil, List.nil_append]
  · rw [h] at hp
    conv_lhs => rw [hp]
    rw [h, List.append_assoc, List.singleton_append, components_append_slash,
      components_concat_slash]

theorem ancestors_concat (a : List UInt8) (c : UInt8) :
    ancestors (a ++ [c]) = ancestors a ++ if a ≠ [] ∧ c = slash then [a] else [] := by
  have hold : ∀ k ∈ List.range a.length, (a ++ [c])[k]? = a[k]? ∧ (a ++ [c]).take k = a.take k :=
    fun k hk => by
      have hk := List.mem_range.mp hk
      exact ⟨List.getElem?_append_left hk, List.take_append_of_le_length hk.le⟩
  simp only [ancestors, List.length_append, List.length_singleton, List.range_succ,
    List.filter_append, List.map_append]
  congr 1
  · rw [List.filter_congr fun k hk => by rw [(hold k hk).1]]
    exact List.map_congr_left fun k hk => (hold k (List.mem_of_mem_filter hk)).2
  · by_cases hc : a ≠ [] ∧ c = slash
    · simp [hc, Nat.one_le_iff_ne_zero]
    · rw [if_neg hc]
      simpa [Nat.one_le_iff_ne_zero] using hc

theorem mem_ancestors {p q : List UInt8} :
    q ∈ ancestors p ↔ q ≠ [] ∧ ∃ r, p = q ++ slash :: r := by
  simp only [ancestors, List.mem_map, List.mem_filter, List.mem_range, decide_eq_true_eq]
  constructor
  · rintro ⟨k, ⟨hk, h1, hs⟩, rfl⟩
    refine ⟨?_, p.drop (k + 1), ?_⟩
    · rw [← List.length_pos_iff, List.length_take]
      omega
    · rw [List.getElem?_eq_getElem hk, Option.some.injEq] at hs
      rw [← hs, ← List.drop_eq_getElem_cons hk, List.take_append_drop]
  · rintro ⟨hq, r, rfl⟩
    refine ⟨q.length, ⟨by simp, List.length_pos_iff.mpr hq, by simp⟩, by simp⟩

theorem ancestors_subset {p q : List UInt8} (h : q <+: p) : ancestors q ⊆ ancestors p := by
  obtain ⟨r, rfl⟩ := h
  intro a ha
  obtain ⟨hne, b, rfl⟩ := mem_ancestors.mp ha
  exact mem_ancestors.mpr ⟨hne, b ++ r, by simp⟩

end PathName

open PathName

/-- Directories and the contents of files. The root exists, every directory and
every file stands in a directory, and nothing is both. -/
structure FileSystem where
  dirs : Finset Place
  files : Place → Option (List UInt8)
  /-- The working directory. -/
  cwd : Place
  root_mem : [] ∈ dirs
  cwd_mem : cwd ∈ dirs
  tail_mem : ∀ d ∈ dirs, d.tail ∈ dirs
  file_tail_mem : ∀ f, files f ≠ none → f.tail ∈ dirs
  file_notMem : ∀ d ∈ dirs, files d = none

namespace FileSystem

/-- Nothing but the root, which is the working directory. -/
def empty : FileSystem where
  dirs := {[]}
  files _ := none
  cwd := []
  root_mem := Finset.mem_singleton_self _
  cwd_mem := Finset.mem_singleton_self _
  tail_mem d hd := by rw [Finset.mem_singleton.mp hd]; exact Finset.mem_singleton_self _
  file_tail_mem f hf := absurd rfl hf
  file_notMem _ _ := rfl

/-- Where the resolution of a path starts. -/
def start (fs : FileSystem) (p : List UInt8) : Place :=
  if p.head? = some slash then [] else fs.cwd

/-- The place a path names, whether there is something or not. -/
def place (fs : FileSystem) (p : List UInt8) : Place :=
  (components p).foldl enter (fs.start p)

/-- The directory that names lead to from `d`, if all on the way exist. -/
def resolve (fs : FileSystem) (d : Place) : List Name → Option Place
  | [] => some d
  | n :: ns => if enter d n ∈ fs.dirs then fs.resolve (enter d n) ns else none

def walk (fs : FileSystem) (p : List UInt8) : Option Place :=
  fs.resolve (fs.start p) (components p)

/-- `stat` succeeds and finds a directory. -/
def isDir (fs : FileSystem) (p : List UInt8) : Bool := p ≠ [] && (fs.walk p).isSome

/-- The place where the last name of a path is to be made or opened. -/
def walkParent (fs : FileSystem) (p : List UInt8) : Option Place :=
  (components p).getLast?.bind fun n =>
    (fs.resolve (fs.start p) (components p).dropLast).map fun d => enter d n

/-- A new directory, where there is nothing yet. -/
def mkdirAt (fs : FileSystem) (t : Place) : Option FileSystem :=
  if h : t.tail ∈ fs.dirs ∧ t ∉ fs.dirs ∧ fs.files t = none then
    some { fs with
      dirs := insert t fs.dirs
      root_mem := Finset.mem_insert_of_mem fs.root_mem
      cwd_mem := Finset.mem_insert_of_mem fs.cwd_mem
      tail_mem := fun d hd => Finset.mem_insert_of_mem <| by
        rcases Finset.mem_insert.mp hd with rfl | hd
        · exact h.1
        · exact fs.tail_mem d hd
      file_tail_mem := fun f hf => Finset.mem_insert_of_mem (fs.file_tail_mem f hf)
      file_notMem := fun d hd => by
        rcases Finset.mem_insert.mp hd with rfl | hd
        · exact h.2.2
        · exact fs.file_notMem d hd }
  else none

/-- `mkdir`; `none` when it fails. -/
def mkdir (fs : FileSystem) (p : List UInt8) : Option FileSystem :=
  if p = [] then none else (fs.walkParent p).bind fs.mkdirAt

/-- Bytes at the end of a file, which is created if there is none. -/
def appendAt (fs : FileSystem) (t : Place) (bytes : List UInt8) : Option FileSystem :=
  if h : t.tail ∈ fs.dirs ∧ t ∉ fs.dirs then
    some { fs with
      files := Function.update fs.files t (some ((fs.files t).getD [] ++ bytes))
      file_tail_mem := fun f hf => by
        by_cases hft : f = t
        · exact hft ▸ h.1
        · rw [Function.update_of_ne hft] at hf
          exact fs.file_tail_mem f hf
      file_notMem := fun d hd => by
        have hdt : d ≠ t := fun hdt => h.2 (hdt ▸ hd)
        rw [Function.update_of_ne hdt]
        exact fs.file_notMem d hd }
  else none

/-- `fopen` for appending: the place of the file. -/
def fopen (fs : FileSystem) (p : List UInt8) : Option (Place × FileSystem) :=
  if p = [] ∨ p.getLast? = some slash then none
  else (fs.walkParent p).bind fun t => (fs.appendAt t []).map fun fs' => (t, fs')

/-! ### Resolution -/

variable {fs fs' : FileSystem} {p q : List UInt8}

theorem resolve_append (d : Place) (ns ms : List Name) :
    fs.resolve d (ns ++ ms) = (fs.resolve d ns).bind fun e => fs.resolve e ms := by
  induction ns generalizing d with
  | nil => rfl
  | cons n ns ih =>
    simp only [List.cons_append, resolve]
    split_ifs
    · exact ih _
    · rfl

theorem resolve_eq_some {d e : Place} {ns : List Name}
    (h : fs.resolve d ns = some e) : e = ns.foldl enter d ∧ (d ∈ fs.dirs → e ∈ fs.dirs) := by
  induction ns generalizing d with
  | nil =>
    obtain rfl : d = e := Option.some.inj h
    exact ⟨rfl, id⟩
  | cons n ns ih =>
    rw [resolve] at h
    split_ifs at h with hn
    obtain ⟨he, hmem⟩ := ih h
    exact ⟨he, fun _ => hmem hn⟩

theorem start_mem (p : List UInt8) : fs.start p ∈ fs.dirs := by
  rw [start]
  split_ifs
  · exact fs.root_mem
  · exact fs.cwd_mem

theorem walk_eq_some {d : Place} (h : fs.walk p = some d) :
    d = fs.place p ∧ d ∈ fs.dirs := by
  obtain ⟨hd, hmem⟩ := resolve_eq_some h
  exact ⟨hd, hmem (fs.start_mem p)⟩

theorem start_append (hp : p ≠ []) (r : List UInt8) : fs.start (p ++ r) = fs.start p := by
  rw [start, start, List.head?_append_of_ne_nil _ hp]

theorem start_parent (p : List UInt8) : fs.start (parent p) = fs.start p := by
  obtain ⟨n, hn, hp⟩ := exists_name p
  by_cases h : parent p = []
  · rw [h] at hp ⊢
    rw [start, start, if_neg (by simp), if_neg]
    intro hs
    rw [hp, List.nil_append] at hs
    exact hn (List.mem_of_mem_head? hs)
  · conv_rhs => rw [hp]
    rw [start_append h]

/-- A path leads to a directory when its parent does and the directory is there. -/
theorem isSome_walk_iff :
    (fs.walk p).isSome ↔ (fs.walk (parent p)).isSome ∧ fs.place p ∈ fs.dirs := by
  obtain ⟨n, -, hc⟩ := components_eq p
  rw [walk, walk, place, start_parent, hc, resolve_append, List.foldl_append]
  cases hw : fs.resolve (fs.start p) (components (parent p)) with
  | none => simp
  | some d =>
    obtain ⟨hd, hmem⟩ := resolve_eq_some hw
    rw [← hd]
    by_cases hn : n = []
    · simpa [hn, resolve] using hmem (fs.start_mem p)
    · by_cases he : enter d n ∈ fs.dirs <;> simp [hn, resolve, he]

theorem walk_concat_slash (hp : p ≠ []) : fs.walk (p ++ [slash]) = fs.walk p := by
  rw [walk, walk, components_concat_slash, start_append hp]

/-- Every directory on the way to an existing parent exists. -/
theorem isSome_walk_of_mem_ancestors (h : (fs.walk (parent p)).isSome) (hq : q ∈ ancestors p) :
    (fs.walk q).isSome := by
  obtain ⟨hne, r, rfl⟩ := mem_ancestors.mp hq
  rw [parent_append_slash, walk, components_append_slash, start_append hne, resolve_append] at h
  rw [walk]
  cases hw : fs.resolve (fs.start q) (components q) with
  | none => simp [hw] at h
  | some d => rfl

/-- The parent of a path resolves when the places of all ancestors are
directories. -/
theorem isSome_walk_parent_iff :
    (fs.walk (parent p)).isSome ↔ ∀ q ∈ ancestors p, fs.place q ∈ fs.dirs := by
  constructor
  · intro h q hq
    exact (isSome_walk_iff.mp (isSome_walk_of_mem_ancestors h hq)).2
  · intro h
    induction p using List.reverseRecOn with
    | nil => rfl
    | append_singleton p c ih =>
      have hp := ih fun q hq => h q (ancestors_subset (List.prefix_append p [c]) hq)
      by_cases hc : c = slash
      · subst hc
        rw [parent_concat_slash]
        by_cases hne : p = []
        · subst hne
          rfl
        · rw [walk_concat_slash hne, isSome_walk_iff]
          exact ⟨hp, h p (mem_ancestors.mpr ⟨hne, [], rfl⟩)⟩
      · rwa [parent_concat hc]

theorem isDir_iff : fs.isDir p ↔
    p ≠ [] ∧ (∀ q ∈ ancestors p, fs.place q ∈ fs.dirs) ∧ fs.place p ∈ fs.dirs := by
  rw [isDir, Bool.and_eq_true, decide_eq_true_iff, isSome_walk_iff, isSome_walk_parent_iff]

/-- When the places of all ancestors are directories, all ancestors exist. -/
theorem isDir_of_mem_ancestors (h : ∀ q ∈ ancestors p, fs.place q ∈ fs.dirs)
    (hq : q ∈ ancestors p) : fs.isDir q := by
  obtain ⟨hne, r, rfl⟩ := mem_ancestors.mp hq
  refine isDir_iff.mpr ⟨hne, fun a ha => h a ?_, h q hq⟩
  exact ancestors_subset (List.prefix_append q (slash :: r)) ha

/-- Whatever a directory stands in is a directory. -/
theorem suffix_mem {d e : Place} (h : d <:+ e) (he : e ∈ fs.dirs) : d ∈ fs.dirs := by
  obtain ⟨before, rfl⟩ := h
  induction before with
  | nil => exact he
  | cons n before ih => exact ih (fs.tail_mem _ he)

/-! ### What a call changes -/

/-- The same file system, possibly with more directories. -/
structure Grown (fs fs' : FileSystem) : Prop where
  dirs : fs.dirs ⊆ fs'.dirs
  files : fs'.files = fs.files
  cwd : fs'.cwd = fs.cwd

theorem Grown.refl (fs : FileSystem) : fs.Grown fs := ⟨Finset.Subset.refl _, rfl, rfl⟩

theorem Grown.trans {fs'' : FileSystem} (h : fs.Grown fs') (h' : fs'.Grown fs'') : fs.Grown fs'' :=
  ⟨h.dirs.trans h'.dirs, h'.files.trans h.files, h'.cwd.trans h.cwd⟩

theorem place_congr (h : fs'.cwd = fs.cwd) (p : List UInt8) : fs'.place p = fs.place p := by
  rw [place, place, start, start, h]

theorem Grown.place (h : fs.Grown fs') (p : List UInt8) : fs'.place p = fs.place p :=
  place_congr h.cwd p

/-- `mkdir` with its result ignored. -/
def tryMkdir (fs : FileSystem) (p : List UInt8) : FileSystem := (fs.mkdir p).getD fs

theorem mkdirAt_eq_some {t : Place} (h : fs.mkdirAt t = some fs') :
    fs.Grown fs' ∧ fs'.dirs = insert t fs.dirs := by
  rw [mkdirAt] at h
  split_ifs at h
  obtain rfl := Option.some.inj h
  exact ⟨⟨Finset.subset_insert _ _, rfl, rfl⟩, rfl⟩

theorem walkParent_eq_some {t : Place} (h : fs.walkParent p = some t) :
    t = fs.place p := by
  obtain ⟨n, hn, h⟩ := Option.bind_eq_some_iff.mp h
  obtain ⟨d, hd, rfl⟩ := Option.map_eq_some_iff.mp h
  rw [place, (resolve_eq_some hd).1]
  conv_rhs => rw [← List.dropLast_append_getLast? n hn, List.foldl_append]
  rfl

theorem tail_enter_mem {d : Place} (hd : d ∈ fs.dirs) (n : Name) :
    (enter d n).tail ∈ fs.dirs := by
  rw [enter]
  split_ifs
  · exact fs.tail_mem d hd
  · exact fs.tail_mem _ (fs.tail_mem d hd)
  · exact hd

/-- With existing ancestors, the last name of a path is looked for in its parent. -/
theorem walkParent_eq (h : ∀ q ∈ ancestors p, fs.place q ∈ fs.dirs) (hp : fs.place p ∉ fs.dirs) :
    fs.walkParent p = some (fs.place p) ∧ (fs.place p).tail ∈ fs.dirs := by
  obtain ⟨d, hd⟩ := Option.isSome_iff_exists.mp (isSome_walk_parent_iff.mpr h)
  obtain ⟨rfl, hmem⟩ := walk_eq_some hd
  obtain ⟨n, -, hc⟩ := components_eq p
  have hplace : fs.place p = (if n = [] then [] else [n]).foldl enter (fs.place (parent p)) := by
    rw [place, place, hc, List.foldl_append, start_parent]
  have hn : n ≠ [] := fun hn => hp (by rwa [hplace, if_pos hn])
  rw [if_neg hn] at hplace hc
  rw [walk, start_parent] at hd
  refine ⟨?_, hplace ▸ tail_enter_mem hmem n⟩
  rw [walkParent, hc, List.getLast?_concat, List.dropLast_concat, hd, hplace]
  rfl

theorem grown_tryMkdir (fs : FileSystem) (p : List UInt8) :
    fs.Grown (fs.tryMkdir p) ∧ (fs.tryMkdir p).dirs ⊆ insert (fs.place p) fs.dirs := by
  cases h : fs.mkdir p with
  | none =>
    rw [tryMkdir, h]
    exact ⟨.refl fs, Finset.subset_insert _ _⟩
  | some fs' =>
    rw [tryMkdir, h]
    rw [mkdir] at h
    split_ifs at h
    obtain ⟨t, ht, h⟩ := Option.bind_eq_some_iff.mp h
    obtain ⟨hgrown, hdirs⟩ := mkdirAt_eq_some h
    rw [walkParent_eq_some ht] at hdirs
    exact ⟨hgrown, hdirs.le⟩

/-- `mkdir` leaves a directory when the ancestors exist and no file is in its way. -/
theorem place_mem_tryMkdir (h : ∀ q ∈ ancestors p, fs.place q ∈ fs.dirs)
    (hf : fs.files (fs.place p) = none) : fs.place p ∈ (fs.tryMkdir p).dirs := by
  by_cases hp : fs.place p ∈ fs.dirs
  · exact (fs.grown_tryMkdir p).1.dirs hp
  · obtain ⟨hw, htail⟩ := walkParent_eq h hp
    have hne : p ≠ [] := by
      rintro rfl
      exact hp fs.cwd_mem
    simp [tryMkdir, mkdir, hne, hw, mkdirAt, htail, hp, hf]

/-! ### Many calls -/

theorem grown_foldl_of {call : FileSystem → List UInt8 → FileSystem}
    (h : ∀ (fs : FileSystem) p, fs.Grown (call fs p)) (fs : FileSystem) (ps : List (List UInt8)) :
    fs.Grown (ps.foldl call fs) := by
  induction ps generalizing fs with
  | nil => exact .refl fs
  | cons p ps ih => exact (h fs p).trans (ih _)

theorem grown_foldl (fs : FileSystem) (ps : List (List UInt8)) :
    fs.Grown (ps.foldl tryMkdir fs) := grown_foldl_of (fun fs p => (fs.grown_tryMkdir p).1) fs ps

/-- A directory was there before, or one of the calls has named it. -/
theorem mem_dirs_foldl {ps : List (List UInt8)} {d : Place}
    (h : d ∈ (ps.foldl tryMkdir fs).dirs) : d ∈ fs.dirs ∨ ∃ q ∈ ps, fs.place q = d := by
  induction ps generalizing fs with
  | nil => exact .inl h
  | cons p ps ih =>
    obtain ⟨hgrown, hsub⟩ := fs.grown_tryMkdir p
    rcases ih h with hd | ⟨q, hq, hd⟩
    · rcases Finset.mem_insert.mp (hsub hd) with rfl | hd
      · exact .inr ⟨p, by simp, rfl⟩
      · exact .inl hd
    · exact .inr ⟨q, by simp [hq], (hgrown.place q).symm.trans hd⟩

/-- Making the ancestors of a path in turn, with no file in the way, makes all of
them. -/
theorem place_mem_foldl (h : ∀ q ∈ ancestors p, fs.files (fs.place q) = none) :
    ∀ q ∈ ancestors p, fs.place q ∈ ((ancestors p).foldl tryMkdir fs).dirs := by
  induction p using List.reverseRecOn with
  | nil => simp [ancestors]
  | append_singleton p c ih =>
    have hold := ih fun q hq => h q (ancestors_subset (List.prefix_append p [c]) hq)
    rw [ancestors_concat] at h ⊢
    split_ifs at h ⊢ with hc
    · have hgrown := fs.grown_foldl (ancestors p)
      rw [List.foldl_append, List.foldl_cons, List.foldl_nil]
      set fs₁ := (ancestors p).foldl tryMkdir fs
      intro q hq
      rcases List.mem_append.mp hq with hq | hq
      · exact (fs₁.grown_tryMkdir p).1.dirs (hold q hq)
      · obtain rfl := List.mem_singleton.mp hq
        rw [← hgrown.place]
        refine place_mem_tryMkdir (fun a ha => ?_) ?_
        · rw [hgrown.place]
          exact hold a ha
        · rw [hgrown.place, hgrown.files]
          exact h q (by simp)
    · simpa using hold

/-! ### Appending -/

theorem appendAt_eq_some {t : Place} {bytes : List UInt8}
    (h : fs.appendAt t bytes = some fs') :
    t ∉ fs.dirs ∧ fs'.dirs = fs.dirs ∧ fs'.cwd = fs.cwd ∧
      fs'.files t = some ((fs.files t).getD [] ++ bytes) := by
  rw [appendAt] at h
  split_ifs at h with ht
  obtain rfl := Option.some.inj h
  exact ⟨ht.2, rfl, rfl, Function.update_self ..⟩

theorem appendAt_files {t : Place} {bytes : List UInt8} (h : fs.appendAt t bytes = some fs') :
    fs'.files = Function.update fs.files t (some ((fs.files t).getD [] ++ bytes)) := by
  rw [appendAt] at h
  split_ifs at h
  obtain rfl := Option.some.inj h
  rfl

theorem isSome_appendAt_iff {t : Place} {bytes : List UInt8} :
    (fs.appendAt t bytes).isSome ↔ t.tail ∈ fs.dirs ∧ t ∉ fs.dirs := by
  rw [appendAt]
  split_ifs with h
  · exact iff_of_true rfl h
  · exact iff_of_false (by simp) h

theorem fopen_eq_some {t : Place} (h : fs.fopen p = some (t, fs')) :
    t = fs.place p ∧ fs.appendAt t [] = some fs' := by
  rw [fopen] at h
  split_ifs at h
  obtain ⟨t', ht, h⟩ := Option.bind_eq_some_iff.mp h
  obtain ⟨fs'', hfs, h⟩ := Option.map_eq_some_iff.mp h
  obtain ⟨rfl, rfl⟩ := Prod.mk.inj h
  exact ⟨walkParent_eq_some ht, hfs⟩

/-- A file can be opened in an existing directory, unless it is a directory. -/
theorem exists_fopen_eq (hne : p ≠ []) (hlast : p.getLast? ≠ some slash)
    (hanc : ∀ q ∈ ancestors p, fs.place q ∈ fs.dirs) (hp : fs.place p ∉ fs.dirs) :
    ∃ fs', fs.fopen p = some (fs.place p, fs') ∧ fs.appendAt (fs.place p) [] = some fs' := by
  obtain ⟨hw, htail⟩ := walkParent_eq hanc hp
  obtain ⟨fs', hfs⟩ := Option.isSome_iff_exists.mp (isSome_appendAt_iff.mpr ⟨htail, hp⟩)
  exact ⟨fs', by simp [fopen, hne, hlast, hw, hfs], hfs⟩

end FileSystem

end Aesd
