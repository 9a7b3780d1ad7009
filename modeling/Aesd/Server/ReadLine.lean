import Aesd.Driver.Effect

/-! `read_line`: a line from a socket, byte by byte. The loop ends at a newline,
at the end of file or at an error; it goes on after an interrupted call, and it
drops the bytes that do not fit into the buffer. -/

namespace Aesd.Server

open Segments Driver

/-- What one `read(fd, &ch, 1)` on the socket gives. The list of outcomes ends
where the peer has closed: every further call returns 0. -/
inductive SockRead where
  | byte (ch : UInt8)
  | eintr
  | error
  deriving DecidableEq

/-- `buffer` are the bytes placed before the terminating null byte. -/
structure LineResult where
  retval : ℤ
  buffer : List UInt8
  rest : List SockRead

/-- The loop with the bytes placed so far; `totRead` is their number. -/
def readLineLoop (n : ℕ) (buf : List UInt8) : List SockRead → LineResult
  | [] => ⟨buf.length, buf, []⟩
  | .eintr :: rest => readLineLoop n buf rest
  | .error :: rest => ⟨-1, buf, rest⟩
  | .byte ch :: rest =>
    -- discard > (n - 1) bytes
    let buf := if buf.length < n - 1 then buf ++ [ch] else buf
    if ch = newline then ⟨buf.length, buf, rest⟩ else readLineLoop n buf rest

def readLine (fd : List SockRead) (n : ℕ) : LineResult :=
  if n = 0 then ⟨-1, [], fd⟩ else readLineLoop n [] fd

/-- The bytes that arrive on the socket. -/
def received (fd : List SockRead) : List UInt8 :=
  fd.filterMap fun
    | .byte ch => some ch
    | .eintr => none
    | .error => none

@[simp] theorem received_nil : received [] = [] := rfl

@[simp] theorem received_byte (ch : UInt8) (fd : List SockRead) :
    received (.byte ch :: fd) = ch :: received fd := rfl

@[simp] theorem received_map_byte (l : List UInt8) : received (l.map .byte) = l := by
  induction l with
  | nil => rfl
  | cons ch l ih => rw [List.map_cons, received_byte, ih]

theorem isNewline_eq_true {ch : UInt8} : isNewline ch = true ↔ ch = newline := by
  simp [isNewline]

theorem take_take_append {α : Type*} (m : ℕ) (l r : List α) :
    (l.take m ++ r).take m = (l ++ r).take m := by
  rw [List.take_append, List.take_append, List.take_take, Nat.min_self, List.length_take]
  congr 2
  omega

/-- Without a failing call, the loop consumes the bytes up to the next newline
and places as many of them as fit. -/
theorem readLineLoop_spec {n : ℕ} {fd : List SockRead} (h : .error ∉ fd) {buf : List UInt8}
    (hbuf : buf.length ≤ n - 1) :
    let r := readLineLoop n buf fd
    let line := cutAfter isNewline (received fd)
    r.buffer = (buf ++ line).take (n - 1) ∧ r.retval = r.buffer.length ∧
      received r.rest = (received fd).drop line.length ∧ .error ∉ r.rest := by
  induction fd generalizing buf with
  | nil => simp [readLineLoop, cutAfter, List.take_of_length_le hbuf]
  | cons e fd ih =>
    obtain ⟨he, hfd⟩ := not_or.mp (mt List.mem_cons.mpr h)
    cases e with
    | error => exact absurd rfl he
    | eintr => exact ih hfd hbuf
    | byte ch =>
      -- the next byte is placed exactly when it is still among the first `n - 1`
      have hnext : (if buf.length < n - 1 then buf ++ [ch] else buf) =
          (buf ++ [ch]).take (n - 1) := by
        split_ifs with hlt
        · rw [List.take_of_length_le (by simp; omega)]
        · rw [List.take_append_of_le_length (by omega), List.take_of_length_le hbuf]
      have hle : ((buf ++ [ch]).take (n - 1)).length ≤ n - 1 := by simp
      by_cases hch : ch = newline
      · have hcut : cutAfter isNewline (received (.byte ch :: fd)) = [ch] := by
          simp [cutAfter, isNewline_eq_true.mpr hch]
        simp only [readLineLoop, if_pos hch, hnext, hcut]
        simpa using hfd
      · have hcut : cutAfter isNewline (received (.byte ch :: fd)) =
            ch :: cutAfter isNewline (received fd) := by
          simp [cutAfter, mt isNewline_eq_true.mp hch]
        obtain ⟨hb, hret, hrest, herr⟩ := ih hfd hle
        simp only [readLineLoop, if_neg hch, hnext, hcut]
        refine ⟨?_, hret, by simpa using hrest, herr⟩
        rw [hb, take_take_append, List.append_assoc, List.singleton_append]

theorem readLine_spec {n : ℕ} (hn : n ≠ 0) {fd : List SockRead} (h : .error ∉ fd) :
    let r := readLine fd n
    let line := cutAfter isNewline (received fd)
    r.buffer = line.take (n - 1) ∧ r.retval = r.buffer.length ∧
      received r.rest = (received fd).drop line.length ∧ .error ∉ r.rest := by
  rw [readLine, if_neg hn]
  have h0 : ([] : List UInt8).length ≤ n - 1 := Nat.zero_le _
  simpa using readLineLoop_spec h h0

/-- A line that fits is placed as a whole, and the next call starts behind it. -/
theorem readLine_of_isSegment {n : ℕ} {fd : List SockRead} (h : .error ∉ fd)
    {line bytes : List UInt8} (hfd : received fd = line ++ bytes) (hl : IsSegment isNewline line)
    (hlen : line.length < n) :
    let r := readLine fd n
    r.buffer = line ∧ r.retval = line.length ∧ received r.rest = bytes ∧ .error ∉ r.rest := by
  have hn : n ≠ 0 := by omega
  obtain ⟨hb, hret, hrest, herr⟩ := readLine_spec hn h
  rw [hfd, cutAfter_append_of_isSegment hl] at hb hrest
  rw [List.take_of_length_le (by omega)] at hb
  rw [hb] at hret
  exact ⟨hb, hret, by rw [hrest, List.drop_left], herr⟩

/-- A buffer that contains a newline is the next whole line of the socket. -/
theorem readLine_of_newline {n : ℕ} (hn : n ≠ 0) {fd : List SockRead} (h : .error ∉ fd)
    (hnl : ¬ Free isNewline (readLine fd n).buffer) :
    IsSegment isNewline (readLine fd n).buffer ∧
      received fd = (readLine fd n).buffer ++ received (readLine fd n).rest := by
  obtain ⟨hb, hret, hrest, herr⟩ := readLine_spec hn h
  have hfree : ¬ Free isNewline (received fd) := fun hf => by
    rw [hb] at hnl
    exact hnl fun a ha =>
      hf a ((cutAfter_isPrefix _).subset (List.mem_of_mem_take ha))
  have hseg := isSegment_cutAfter hfree
  have hall : (readLine fd n).buffer = cutAfter isNewline (received fd) := by
    rw [hb]
    refine List.take_of_length_le ?_
    obtain ⟨u, a, hu, hfu, -⟩ := hseg
    by_contra hlt
    -- only the last byte of the line is a newline, and it did not fit
    rw [hb, hu, List.take_append_of_le_length (by simp [hu] at hlt; omega)] at hnl
    exact hnl fun c hc => hfu c (List.mem_of_mem_take hc)
  refine ⟨hall ▸ hseg, ?_⟩
  rw [hall, hrest]
  exact (List.prefix_iff_eq_append.mp (cutAfter_isPrefix _)).symm

end Aesd.Server
