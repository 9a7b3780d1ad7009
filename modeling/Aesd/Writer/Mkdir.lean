import Aesd.Lib.FileSystem
import Aesd.Driver.Memory

/-! `_mkdir` of `writer.c`. It copies the path into a buffer of 256 bytes, cuts the
buffer in place at every slash, calls `mkdir` and puts the slash back. Every access
to the buffer is checked here: an index outside of it leaves no result. -/

namespace Aesd.Writer

open PathName Driver

/-- A string argument: no null byte stands in it. -/
structure CString where
  bytes : List UInt8
  noNull : 0 ∉ bytes

/-- The index of the first null byte of a buffer. -/
def strlen (tmp : List UInt8) : Option ℕ := tmp.findIdx? (· = 0)

/-- The string that a call reads from a buffer. -/
def string (tmp : List UInt8) : Option (List UInt8) := (strlen tmp).map tmp.take

/-- `snprintf(tmp, sizeof(tmp), "%s", dir)`. -/
def snprintf (tmp dir : List UInt8) : List UInt8 :=
  let written := dir.take (tmp.length - 1) ++ [0]
  written ++ tmp.drop written.length

section

variable {σ : Type} (call : σ → List UInt8 → σ)

/-- The loop at index `p`, with `n` bytes of the buffer from there on. -/
def mkdirLoop : (n p : ℕ) → List UInt8 → σ → Option (List UInt8 × σ)
  | 0, _, _, _ => none
  | n + 1, p, tmp, fs => do
    let c ← tmp[p]?
    if c = 0 then some (tmp, fs)
    else if c = slash then do
      let path ← string (tmp.set p 0)
      mkdirLoop n (p + 1) ((tmp.set p 0).set p slash) (call fs path)
    else mkdirLoop n (p + 1) tmp fs

/-- `_mkdir`, whose buffer has the bytes `garbage` before. `call` is what `mkdir`
does; its result is ignored. -/
def mkdir (garbage : Fin 256 → UInt8) (dir : List UInt8) (fs : σ) : Option σ := do
  let tmp := snprintf (List.ofFn garbage) dir
  let len ← strlen tmp
  let last ← tmp[wrap (len + 2 ^ 64 - 1)]?
  let tmp := if last = slash then tmp.set (wrap (len + 2 ^ 64 - 1)) 0 else tmp
  let (tmp, fs) ← mkdirLoop call 255 1 tmp fs
  let path ← string tmp
  some (call fs path)

end

/-- The first 255 bytes, without a final slash. -/
def cut (dir : List UInt8) : List UInt8 :=
  let s := dir.take 255
  if s.getLast? = some slash then s.dropLast else s

/-- The paths that `_mkdir` gives to `mkdir`. -/
def attempts (dir : List UInt8) : List (List UInt8) := ancestors (cut dir) ++ [cut dir]

/-! ### Strings in a buffer -/

variable {s rest : List UInt8}

theorem strlen_eq (hs : 0 ∉ s) (rest : List UInt8) : strlen (s ++ 0 :: rest) = some s.length := by
  rw [strlen, List.findIdx?_append, List.findIdx?_eq_none_iff.mpr]
  · simp [List.findIdx?_cons]
  · intro x hx
    simpa using fun hx0 : x = 0 => hs (hx0 ▸ hx)

theorem string_eq (hs : 0 ∉ s) (rest : List UInt8) : string (s ++ 0 :: rest) = some s := by
  rw [string, strlen_eq hs, Option.map_some, List.take_left]

theorem set_of_lt {p : ℕ} (hp : p < s.length) (rest : List UInt8) (c : UInt8) :
    (s ++ 0 :: rest).set p c = s.take p ++ c :: (s.drop (p + 1) ++ 0 :: rest) := by
  rw [List.set_append_left _ _ hp, List.set_eq_take_append_cons_drop, if_pos hp, List.append_assoc,
    List.cons_append]

/-! ### The loop -/

section

variable {σ : Type} (call : σ → List UInt8 → σ)

/-- From index `p` on, with the ancestors of the first `p` bytes done. -/
theorem mkdirLoop_eq (hs : 0 ∉ s) (rest : List UInt8) (fs : σ) {n p : ℕ} (h1 : 1 ≤ p)
    (hp : p ≤ s.length) (hn : s.length < p + n) :
    mkdirLoop call n p (s ++ 0 :: rest) ((ancestors (s.take p)).foldl call fs) =
      some (s ++ 0 :: rest, (ancestors s).foldl call fs) := by
  induction n generalizing p with
  | zero => omega
  | succ n ih =>
    rcases hp.eq_or_lt with rfl | hlt
    · simp [mkdirLoop]
    · have hget : (s ++ 0 :: rest)[p]? = some s[p] := by
        rw [List.getElem?_append_left hlt, List.getElem?_eq_getElem hlt]
      have hne : s[p] ≠ 0 := fun h0 => hs (h0 ▸ List.getElem_mem hlt)
      have htake : s.take (p + 1) = s.take p ++ [s[p]] := List.take_succ_eq_append_getElem hlt
      have ih := ih (Nat.le_add_left 1 p) hlt (by omega)
      rw [htake, ancestors_concat] at ih
      simp only [mkdirLoop, hget, Option.bind_eq_bind, Option.bind_some, if_neg hne]
      by_cases hsl : s[p] = slash
      · have hnil : s.take p ≠ [] := by
          rw [← List.length_pos_iff, List.length_take]
          omega
        have hback : ((s ++ 0 :: rest).set p 0).set p slash = s ++ 0 :: rest := by
          rw [List.set_set, List.set_append_left _ _ hlt, ← hsl, List.set_getElem_self]
        rw [if_pos hsl, hback, set_of_lt hlt, string_eq (fun h0 => hs (List.mem_of_mem_take h0))]
        rw [if_pos ⟨hnil, hsl⟩, List.foldl_append] at ih
        exact ih
      · rw [if_neg hsl]
        rwa [if_neg (fun h => hsl h.2), List.append_nil] at ih

/-- The loop and the call behind it. After the cut of a single slash the buffer
starts with two null bytes, and the loop stops at the second one. -/
theorem mkdirLoop_start (hs : 0 ∉ s) (hlen : s.length ≤ 255) {rest : List UInt8}
    (hnil : s = [] → rest.head? = some 0) (fs : σ) :
    mkdirLoop call 255 1 (s ++ 0 :: rest) fs =
      some (s ++ 0 :: rest, (ancestors s).foldl call fs) := by
  by_cases h : s = []
  · subst h
    obtain ⟨rest, rfl⟩ : ∃ r, rest = 0 :: r := by
      cases rest with
      | nil => simp at hnil
      | cons c r => exact ⟨r, by simpa using hnil rfl⟩
    rfl
  · obtain ⟨c, r, rfl⟩ := List.exists_cons_of_ne_nil h
    exact mkdirLoop_eq call hs rest fs le_rfl (by simp) (by omega)

/-- The buffer after the copy. -/
theorem snprintf_eq {tmp : List UInt8} (htmp : tmp.length = 256) (dir : List UInt8) :
    ∃ rest, snprintf tmp dir = dir.take 255 ++ 0 :: rest := by
  refine ⟨tmp.drop (dir.take 255 ++ [0]).length, ?_⟩
  simp only [snprintf, htmp]
  rw [List.append_assoc, List.singleton_append]

/-- `_mkdir` stays in its buffer and makes its attempts in turn. -/
theorem mkdir_eq (garbage : Fin 256 → UInt8) {dir : List UInt8} (h0 : 0 ∉ dir) (hdir : dir ≠ [])
    (fs : σ) : mkdir call garbage dir fs = some ((attempts dir).foldl call fs) := by
  obtain ⟨rest, htmp⟩ := snprintf_eq (List.length_ofFn (f := garbage)) dir
  have hnull : 0 ∉ dir.take 255 := fun h => h0 (List.mem_of_mem_take h)
  obtain ⟨s, c, hs⟩ : ∃ s c, dir.take 255 = s ++ [c] := by
    obtain ⟨c, r, hdir⟩ := List.exists_cons_of_ne_nil hdir
    exact ⟨_, _, (List.dropLast_append_getLast (by simp [hdir])).symm⟩
  have hlen : s.length + 1 ≤ 255 := by
    have := congrArg List.length hs
    simp only [List.length_take, List.length_append, List.length_singleton] at this
    omega
  rw [hs] at hnull htmp
  have hnull' : 0 ∉ s := fun h0 => hnull (List.mem_append_left _ h0)
  have hidx : wrap ((s ++ [c]).length + 2 ^ 64 - 1) = s.length := by
    rw [wrap, List.length_append, List.length_singleton]
    omega
  have hcut : cut dir = if c = slash then s else s ++ [c] := by
    rw [cut, hs]
    simp
  have hlast : (s ++ [c] ++ 0 :: rest)[s.length]? = some c := by simp
  simp only [mkdir, htmp, strlen_eq hnull, hidx, hlast, Option.bind_eq_bind, Option.bind_some,
    attempts, hcut]
  split_ifs with hc
  · have hset : (s ++ [c] ++ 0 :: rest).set s.length 0 = s ++ 0 :: 0 :: rest := by
      simp
    rw [hset, mkdirLoop_start call hnull' (by omega) (fun _ => rfl), Option.bind_some,
      string_eq hnull', Option.bind_some, List.foldl_append]
    rfl
  · rw [mkdirLoop_start call hnull (by simpa using hlen) (by simp), Option.bind_some,
      string_eq hnull, Option.bind_some, List.foldl_append]
    rfl

end

/-! ### In a file system -/

theorem foldl_concat (calls paths : List (List UInt8)) :
    paths.foldl (fun calls path => calls ++ [path]) calls = calls ++ paths := by
  induction paths generalizing calls with
  | nil => simp
  | cons p ps ih => rw [List.foldl_cons, ih, List.append_assoc, List.singleton_append]

/-- With no file in the way of the ancestors, an attempt at a place without a file
leaves a directory there. -/
theorem place_mem_attempts {fs : FileSystem} {dir q : List UInt8}
    (h : ∀ q ∈ ancestors (cut dir), fs.files (fs.place q) = none) (hq : q ∈ attempts dir)
    (hf : fs.files (fs.place q) = none) :
    fs.place q ∈ ((attempts dir).foldl FileSystem.tryMkdir fs).dirs := by
  have hgrown := fs.grown_foldl (ancestors (cut dir))
  have hmade := FileSystem.place_mem_foldl h
  rw [attempts, List.foldl_append, List.foldl_cons, List.foldl_nil]
  set fs₁ := (ancestors (cut dir)).foldl FileSystem.tryMkdir fs
  rcases List.mem_append.mp hq with hq | hq
  · exact (fs₁.grown_tryMkdir (cut dir)).1.dirs (hmade q hq)
  · obtain rfl := List.mem_singleton.mp hq
    rw [← hgrown.place]
    refine FileSystem.place_mem_tryMkdir (fun a ha => ?_) ?_
    · rw [hgrown.place]
      exact hmade a ha
    · rw [hgrown.place, hgrown.files]
      exact hf

/-- With no file in the way, all attempted directories exist afterwards. -/
theorem isDir_attempts {fs : FileSystem} {dir q : List UInt8}
    (h : ∀ q ∈ attempts dir, fs.files (fs.place q) = none) (hq : q ∈ attempts dir) (hne : q ≠ []) :
    ((attempts dir).foldl FileSystem.tryMkdir fs).isDir q := by
  have hplace : ∀ a ∈ attempts dir, ((attempts dir).foldl FileSystem.tryMkdir fs).place a ∈
      ((attempts dir).foldl FileSystem.tryMkdir fs).dirs := fun a ha => by
    rw [(fs.grown_foldl (attempts dir)).place]
    exact place_mem_attempts (fun b hb => h b (List.mem_append_left _ hb)) ha (h a ha)
  have hanc : ∀ a ∈ ancestors (cut dir), a ∈ attempts dir := fun a ha => List.mem_append_left _ ha
  rcases List.mem_append.mp hq with hqa | hqs
  · exact FileSystem.isDir_of_mem_ancestors (fun a ha => hplace a (hanc a ha)) hqa
  · obtain rfl := List.mem_singleton.mp hqs
    exact FileSystem.isDir_iff.mpr ⟨hne, fun a ha => hplace a (hanc a ha), hplace _ hq⟩

/-- For every path that is not empty, whatever stands in the buffer before: no
access leaves the buffer, and with `s` the first 255 bytes of the path without a
final slash, `mkdir` is given all prefixes of `s` in front of a slash, the shortest
first, and then `s`. With no regular file at the place of one of these, all of them
are directories in the end. -/
theorem mkdir_makes_ancestors (garbage : Fin 256 → UInt8) (dir : CString) (hdir : dir.bytes ≠ []) :
    let s := cut dir.bytes
    mkdir (fun calls path => calls ++ [path]) garbage dir.bytes [] = some (ancestors s ++ [s]) ∧
      ∀ fs : FileSystem, (∀ q ∈ ancestors s ++ [s], fs.files (fs.place q) = none) →
        ∃ fs', mkdir FileSystem.tryMkdir garbage dir.bytes fs = some fs' ∧
          ∀ q ∈ ancestors s ++ [s], q ≠ [] → fs'.isDir q := by
  intro s
  refine ⟨?_, fun fs hfs => ⟨_, mkdir_eq _ garbage dir.noNull hdir fs, fun q hq hne => ?_⟩⟩
  · rw [mkdir_eq _ garbage dir.noNull hdir, foldl_concat]
    rfl
  · exact isDir_attempts hfs hq hne

/-- From an empty root, `_mkdir("/a/b/")` makes `/a` and then `/a/b`. -/
theorem mkdir_makes_two_directories :
    ∃ fs', mkdir FileSystem.tryMkdir (fun _ => 0) [47, 97, 47, 98, 47] .empty = some fs' ∧
      fs'.isDir [47, 97] ∧ fs'.isDir [47, 97, 47, 98] := by
  obtain ⟨fs', hfs, hdirs⟩ := (mkdir_makes_ancestors (fun _ => 0) ⟨[47, 97, 47, 98, 47], by decide⟩
    (by decide)).2 .empty (fun _ _ => rfl)
  exact ⟨fs', hfs, hdirs _ (by decide) (by decide), hdirs _ (by decide) (by decide)⟩

end Aesd.Writer
