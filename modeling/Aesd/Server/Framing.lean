import Aesd.Server.Origins

/-! Whose bytes the lines in the ring are. Every connection is cut into lines on
its own, but the pending entry of the driver is shared by all of them. A buffer
that reaches the driver without a newline, the unterminated tail of a stream or
a line that did not fit, stays pending, and the next line of any connection is
appended to it. The lines of the connections stay apart exactly as long as a line
is written only while nothing is pending. -/

namespace Aesd.Server

open Segments Run Driver

variable {ι : Type*}

/-- `line` is one of the newline-terminated lines of the stream and begins at `start`. -/
def LineAt (stream : List UInt8) (start : ℕ) (line : List UInt8) : Prop :=
  let lines := (segments isNewline stream).1
  ∃ n, lines[n]? = some line ∧ start = (lines.take n).flatten.length

/-- The byte stands at its place in what its connection has received so far. -/
def Traced.Received (stream : ι → List UInt8) (w : Traced ι) (o : Source ι) : Prop :=
  ((stream o.conn).take ((w.sys.threads o.conn).taken (stream o.conn)))[o.pos]? = some o.byte

/-- The record is right: byte for byte it is what the device holds, and all these bytes
have been received where it says. -/
structure Traced.Faithful (stream : ι → List UInt8) (w : Traced ι) : Prop where
  ring : ∀ i, w.sys.driver.mem.entryBytes (w.sys.driver.dev.buffer.entry i) =
    (w.origins.ring i).map fun o => some o.byte
  pending : w.sys.driver.mem.entryBytes w.sys.driver.dev.entry =
    w.origins.pending.map fun o => some o.byte
  received : ∀ o, (o ∈ w.origins.pending ∨ ∃ i, o ∈ w.origins.ring i) → w.Received stream o

/-- Every entry of the ring is, from its first byte to its last, one line that one
connection has received. -/
def Traced.Separate (stream : ι → List UInt8) (w : Traced ι) : Prop :=
  ∀ i, (w.sys.driver.dev.buffer.entry i).size ≠ 0 →
    ∃ t start line, LineAt (stream t) start line ∧ w.origins.ring i = sources t start line

/-- A newline is written only while nothing is pending. -/
def System.NothingPending (s : System ι) : Label ι → Prop
  | .thread t _ => (s.threads t).pc = .write → ¬ Free isNewline (s.threads t).data →
      s.driver.dev.entry.size = 0
  | .signal => True

instance (s : System ι) : (a : Label ι) → Decidable (s.NothingPending a)
  | .thread _ _ => inferInstanceAs (Decidable (_ → _))
  | .signal => inferInstanceAs (Decidable True)

/-! ### One thread -/

theorem Thread.afterReadLine_data {th : Thread} (h : .error ∉ th.input) (pc : Pc) :
    (th.afterReadLine pc).data = (readLine th.input connectionBufferSize).buffer := by
  have hret := (readLine_spec (n := connectionBufferSize) (by decide) h).2.1
  simp only [Thread.data, Thread.afterReadLine, hret, Int.toNat_natCast, List.take_length]

/-- A thread between its stream and the device: the rest of the input begins where a
line of the stream has ended, the buffer holds what was received from `start` on, and
a buffer with a newline in it is a whole line. -/
structure Framed (stream : List UInt8) (start : ℕ) (th : Thread) : Prop where
  clean : .error ∉ th.input
  suffix : received th.input <:+ stream
  rest : received th.input = [] ∨
    ∃ ls : List (List UInt8), (∀ l ∈ ls, IsSegment isNewline l) ∧
      stream = ls.flatten ++ received th.input
  short : th.pc.toWrite → th.data.length ≤ 65535
  data : th.pc.toWrite → th.data <+: stream.drop start ∧ start + th.data.length ≤ th.taken stream
  cut : th.pc.toWrite → Free isNewline th.data →
    received th.input = [] ∨ start + th.data.length < th.taken stream
  line : th.pc.toWrite → ¬ Free isNewline th.data →
    IsSegment isNewline th.data ∧ LineAt stream start th.data

theorem Framed.move {stream : List UInt8} {start : ℕ} {th th' : Thread} (h : Framed stream start th)
    (hinput : th'.input = th.input) (hdata : th'.data = th.data)
    (hpc : th'.pc.toWrite → th.pc.toWrite) : Framed stream start th' := by
  have htaken : th'.taken stream = th.taken stream := by rw [Thread.taken, Thread.taken, hinput]
  exact {
    clean := hinput ▸ h.clean
    suffix := hinput ▸ h.suffix
    rest := hinput ▸ h.rest
    short := fun hw => hdata ▸ h.short (hpc hw)
    data := fun hw => by rw [hdata, htaken]; exact h.data (hpc hw)
    cut := fun hw hf => by
      rw [hdata] at hf ⊢
      rw [hinput, htaken]
      exact h.cut (hpc hw) hf
    line := fun hw => hdata ▸ h.line (hpc hw) }

/-- What is left of a stream begins where the part that was received ends. -/
theorem Thread.drop_taken {stream : List UInt8} {th : Thread} (h : received th.input <:+ stream) :
    stream.drop (th.taken stream) = received th.input ∧
      th.taken stream + (received th.input).length = stream.length := by
  obtain ⟨before, hb⟩ := h
  have hlen : stream.length = before.length + (received th.input).length := by
    rw [← hb, List.length_append]
  have htaken : th.taken stream = before.length := by rw [Thread.taken, hlen]; omega
  refine ⟨?_, by omega⟩
  rw [htaken, ← hb, List.drop_left]

theorem Framed.readLine {stream : List UInt8} {start : ℕ} {th : Thread} (h : Framed stream start th)
    (pc : Pc) : Framed stream (th.taken stream) (th.afterReadLine pc) ∧
      th.taken stream ≤ (th.afterReadLine pc).taken stream := by
  obtain ⟨hb, -, hrest, herr⟩ := readLine_spec (n := connectionBufferSize) (by decide) h.clean
  have hdata := Thread.afterReadLine_data h.clean pc
  have hinput : received (th.afterReadLine pc).input =
      (received th.input).drop (cutAfter isNewline (received th.input)).length := hrest
  have hsuffix : received (th.afterReadLine pc).input <:+ stream :=
    hinput ▸ (List.drop_suffix _ _).trans h.suffix
  have hlen := (cutAfter_isPrefix (p := isNewline) (received th.input)).length_le
  -- what the call has consumed
  have htaken : (th.afterReadLine pc).taken stream =
      th.taken stream + (cutAfter isNewline (received th.input)).length := by
    have h1 := (Thread.drop_taken h.suffix).2
    have h2 := (Thread.drop_taken hsuffix).2
    rw [hinput, List.length_drop] at h2
    omega
  have hbuf : (th.afterReadLine pc).data = (cutAfter isNewline (received th.input)).take 65535 :=
    hdata.trans hb
  refine ⟨⟨herr, hsuffix, ?_, fun _ => ?_, fun _ => ⟨?_, ?_⟩, fun _ hf => ?_, fun _ hnl => ?_⟩,
    by omega⟩
  · -- without a newline all of the input is consumed, otherwise one line of it
    rw [hinput]
    by_cases hf : Free isNewline (received th.input)
    · left
      rw [cutAfter_of_free hf, List.drop_length]
    · rcases h.rest with h0 | ⟨ls, hls, hs⟩
      · exact absurd (h0 ▸ free_nil) hf
      · refine .inr ⟨ls ++ [cutAfter isNewline (received th.input)], ?_, ?_⟩
        · intro l hl
          rcases List.mem_append.mp hl with hl | hl
          · exact hls l hl
          · rw [List.mem_singleton.mp hl]
            exact isSegment_cutAfter hf
        · rw [List.flatten_concat, List.append_assoc, cutAfter_append_drop]
          exact hs
  · rw [hbuf]
    simp
  · rw [(Thread.drop_taken h.suffix).1, hbuf]
    exact (List.take_prefix _ _).trans (cutAfter_isPrefix _)
  · rw [htaken, hbuf, List.length_take]
    omega
  · -- a free buffer is the end of the stream, or the line did not fit into it
    by_cases hfree : Free isNewline (received th.input)
    · left
      rw [hinput, cutAfter_of_free hfree, List.drop_length]
    · right
      have hseg := isSegment_cutAfter hfree
      rw [hbuf] at hf ⊢
      rw [htaken, List.length_take]
      by_contra hlt
      rw [List.take_of_length_le (by omega)] at hf
      obtain ⟨u, a, hu, -, ha⟩ := hseg
      rw [hf a (by simp [hu])] at ha
      exact absurd ha Bool.false_ne_true
  · rw [hdata] at hnl ⊢
    obtain ⟨hseg, hrec⟩ := readLine_of_newline (by decide) h.clean hnl
    rcases h.rest with h0 | ⟨ls, hls, hs⟩
    · rw [h0] at hrec
      exact absurd (List.append_eq_nil_iff.mp hrec.symm).1 hseg.ne_nil
    · refine ⟨hseg, ls.length, ?_, ?_⟩
      · have hfirst : ∀ m ∈ ls ++ [(Server.readLine th.input connectionBufferSize).buffer],
            IsSegment isNewline m := by
          intro m hm
          rcases List.mem_append.mp hm with hm | hm
          · exact hls m hm
          · rwa [List.mem_singleton.mp hm]
        rw [hs, hrec, ← List.append_assoc, ← List.flatten_concat, segments_flatten hfirst]
        simp
      · rw [hs, segments_flatten hls, List.take_left, ← hs]
        have htotal := (Thread.drop_taken h.suffix).2
        conv at htotal => rhs; rw [hs, List.length_append]
        omega

/-- What is stored of a buffer is all of it. -/
theorem Framed.stored {stream : List UInt8} {start : ℕ} {th : Thread} (h : Framed stream start th)
    (hw : th.pc.toWrite) : (vfsBuf th.data).bytes = th.data ∧ (vfsBuf th.data).stored = th.data := by
  have hbytes := vfsBuf_bytes (h.short hw)
  refine ⟨hbytes, ?_⟩
  rw [UserBuf.stored, hbytes]
  by_cases hf : Free isNewline th.data
  · exact cutAfter_of_free hf
  · exact cutAfter_of_isSegment (h.line hw hf).1

/-- The bytes of a buffer stand in what was received. -/
theorem Framed.getElem?_stream {stream : List UInt8} {start : ℕ} {th : Thread}
    (h : Framed stream start th) (hw : th.pc.toWrite) {k : ℕ} {b : UInt8} (hk : th.data[k]? = some b) :
    (stream.take (th.taken stream))[start + k]? = some b := by
  obtain ⟨⟨after, hdata⟩, hlen⟩ := h.data hw
  obtain ⟨hlt, -⟩ := List.getElem?_eq_some_iff.mp hk
  rw [List.getElem?_take_of_lt (by omega), ← List.getElem?_drop, ← hdata,
    List.getElem?_append_left hlt, hk]

/-- Between the byte at `pos` and the next line that the thread may write something is
missing. -/
def Thread.Gap (stream : List UInt8) (start : ℕ) (th : Thread) (pos : ℕ) : Prop :=
  if th.pc.toWrite then pos + 1 < start else received th.input = [] ∨ pos + 1 < th.taken stream

theorem Framed.gap_move {stream : List UInt8} {start pos : ℕ} {th th' : Thread}
    (h : Framed stream start th) (hgap : th.Gap stream start pos) (hinput : th'.input = th.input)
    (hpc : th'.pc.toWrite → th.pc.toWrite) : th'.Gap stream start pos := by
  have htaken : th'.taken stream = th.taken stream := by rw [Thread.taken, Thread.taken, hinput]
  rw [Thread.Gap] at hgap ⊢
  by_cases hw' : th'.pc.toWrite
  · rw [if_pos hw']
    rwa [if_pos (hpc hw')] at hgap
  · rw [if_neg hw', hinput, htaken]
    by_cases hw : th.pc.toWrite
    · rw [if_pos hw] at hgap
      have := (h.data hw).2
      exact .inr (by omega)
    · rwa [if_neg hw] at hgap

theorem Framed.gap_readLine {stream : List UInt8} {start pos : ℕ} {th : Thread}
    (h : Framed stream start th) (hgap : th.Gap stream start pos) (hw : ¬ th.pc.toWrite) (pc : Pc)
    (hpos : pc.toWrite → 0 < (Server.readLine th.input connectionBufferSize).retval) :
    (th.afterReadLine pc).Gap stream (th.taken stream) pos := by
  obtain ⟨hb, hret, hrest, -⟩ := readLine_spec (n := connectionBufferSize) (by decide) h.clean
  have hle := (h.readLine pc).2
  rw [Thread.Gap, if_neg hw] at hgap
  rw [Thread.Gap]
  change if pc.toWrite then _ else received (Server.readLine th.input connectionBufferSize).rest = [] ∨ _
  rcases hgap with hnil | hlt
  · -- nothing is left, so there is no next line
    have hzero : ¬ pc.toWrite := fun hw' => by
      have := hpos hw'
      rw [hret, hb, hnil] at this
      simp [cutAfter] at this
    rw [if_neg hzero, hrest, hnil]
    exact .inl rfl
  · split_ifs
    · exact hlt
    · exact .inr (by omega)

/-! ### All threads -/

variable [DecidableEq ι]

variable {stream : ι → List UInt8} {w : Traced ι}

namespace Traced

/-- The record is right, the threads are framed, and no pending byte is followed at once
by a line of its own stream. -/
structure Sound (stream : ι → List UInt8) (w : Traced ι) : Prop where
  valid : Valid w.sys.driver
  faithful : w.Faithful stream
  framed : ∀ t, Framed (stream t) (w.origins.start t) (w.sys.threads t)
  gap : ∀ o ∈ w.origins.pending,
    (w.sys.threads o.conn).Gap (stream o.conn) (w.origins.start o.conn) o.pos

theorem Sound.threads_step (h : w.Sound stream) (a : Label ι) (u : ι) :
    let w' := w.step stream a
    Framed (stream u) (w'.origins.start u) (w'.sys.threads u) ∧
      (∀ o ∈ w.origins.pending, o.conn = u →
        (w'.sys.threads u).Gap (stream u) (w'.origins.start u) o.pos) ∧
      (w.sys.threads u).taken (stream u) ≤ (w'.sys.threads u).taken (stream u) := by
  refine threads_keep (T := fun u start th => Framed (stream u) start th ∧
    (∀ o ∈ w.origins.pending, o.conn = u → th.Gap (stream u) start o.pos) ∧
    (w.sys.threads u).taken (stream u) ≤ th.taken (stream u))
    (fun t n th th' hT hinput hdata hpc => ?_) (fun t n th pc hT hw hpos => ?_) (fun t => ?_) a u
  · obtain ⟨hf, hgap, hle⟩ := hT
    refine ⟨hf.move hinput hdata hpc, fun o ho hc => hf.gap_move (hgap o ho hc) hinput hpc, ?_⟩
    exact hle.trans_eq (by rw [Thread.taken, Thread.taken, hinput])
  · obtain ⟨hf, hgap, hle⟩ := hT
    obtain ⟨hf', hmono⟩ := hf.readLine pc
    exact ⟨hf', fun o ho hc => hf.gap_readLine (hgap o ho hc) hw pc hpos, hle.trans hmono⟩
  · exact ⟨h.framed t, fun o ho hc => hc ▸ h.gap o ho, le_rfl⟩

theorem Sound.received_step (h : w.Sound stream) (a : Label ι) {o : Source ι}
    (ho : w.Received stream o) : (w.step stream a).Received stream o := by
  have hmono := (h.threads_step a o.conn).2.2
  rw [Received, List.getElem?_take] at ho ⊢
  split_ifs at ho with hlt
  rw [if_pos (by omega)]
  exact ho

/-- The pending bytes and the buffer of a thread behind them. -/
def line (w : Traced ι) (t : ι) : List (Source ι) :=
  w.origins.pending ++ sources t (w.origins.start t) (w.sys.threads t).data

omit [DecidableEq ι] in
theorem Sound.line_bytes (h : w.Sound stream) (t : ι) :
    w.sys.driver.mem.entryBytes w.sys.driver.dev.entry ++ (w.sys.threads t).data.map some =
      (w.line t).map fun o => some o.byte := by
  rw [line, List.map_append, ← h.faithful.pending]
  conv_lhs => rw [← map_byte_sources t (w.origins.start t) (w.sys.threads t).data, List.map_map]
  rfl

omit [DecidableEq ι] in
theorem Sound.line_received (h : w.Sound stream) {t : ι} (hw : (w.sys.threads t).pc.toWrite)
    {o : Source ι} (ho : o ∈ w.line t) : w.Received stream o := by
  rcases List.mem_append.mp ho with ho | ho
  · exact h.faithful.received o (.inl ho)
  · obtain ⟨k, hk, rfl, hpos⟩ := mem_sources.mp ho
    rw [Received, hpos]
    exact (h.framed o.conn).getElem?_stream hw hk

/-- Behind a buffer without a newline something is missing, or nothing comes any more. -/
theorem Sound.line_gap (h : w.Sound stream) {t : ι} (hw : (w.sys.threads t).pc.toWrite)
    (hf : Free isNewline (w.sys.threads t).data) {a : Label ι}
    (hthread : (w.step stream a).sys.threads t = { w.sys.threads t with pc := .writeUnlock })
    {o : Source ι} (ho : o ∈ w.line t) :
    ((w.step stream a).sys.threads o.conn).Gap (stream o.conn)
      ((w.step stream a).origins.start o.conn) o.pos := by
  rcases List.mem_append.mp ho with ho | ho
  · exact (h.threads_step a o.conn).2.1 o ho rfl
  · obtain ⟨k, hk, rfl, hpos⟩ := mem_sources.mp ho
    obtain ⟨hlt, -⟩ := List.getElem?_eq_some_iff.mp hk
    rw [hthread, Thread.Gap, if_neg (by simp [Pc.toWrite])]
    refine ((h.framed o.conn).cut hw hf).imp id fun hcut => ?_
    change _ < (w.sys.threads o.conn).taken _
    omega

/-- A `write` puts the buffer behind the pending bytes, in the memory of the driver as in
the record. -/
theorem Sound.step (h : w.Sound stream) {a : Label ι} (ha : w.sys.NoFailure a) :
    (w.step stream a).Sound stream := by
  have hthreads := h.threads_step a
  rcases step_cases stream h.valid ha with
    ⟨-, hdriver, hring, hpending⟩ | ⟨t, env, fPos, rfl, hpc, hret, hdriver, horigins, hthread⟩
  · refine ⟨hdriver ▸ h.valid, ⟨?_, ?_, ?_⟩, fun u => (hthreads u).1, ?_⟩
    · rw [hdriver, hring]
      exact h.faithful.ring
    · rw [hdriver, hpending]
      exact h.faithful.pending
    · rw [hpending, hring]
      exact fun o ho => h.received_step a (h.faithful.received o ho)
    · rw [hpending]
      exact fun o ho => (hthreads o.conn).2.1 o ho rfl
  · have hw : (w.sys.threads t).pc.toWrite = true := by simp [hpc, Pc.toWrite]
    obtain ⟨hbytes, hstored⟩ := (h.framed t).stored hw
    refine ⟨hdriver ▸ h.valid.step _, ⟨fun i => ?_, ?_, fun o ho => ?_⟩, fun u => (hthreads u).1,
      fun o ho => ?_⟩
    · rw [hdriver, h.valid.write_ring hret, horigins, Origins.store_ring, hstored, h.line_bytes]
      split_ifs
      · rfl
      · exact h.faithful.ring i
    · rw [hdriver, (h.valid.write_completes hret).2.2, horigins, Origins.store_pending, hstored,
        h.line_bytes]
      split_ifs <;> rfl
    · rw [horigins] at ho
      refine h.received_step _ ?_
      rcases Origins.mem_store ho with ho | ho
      · rw [hstored] at ho
        exact h.line_received hw ho
      · exact h.faithful.received o (.inr ho)
    · rw [horigins, Origins.store_pending, hbytes, hstored] at ho
      split_ifs at ho with hf
      · exact h.line_gap hw hf hthread ho
      · exact absurd ho List.not_mem_nil

omit [DecidableEq ι] in
theorem Faithful.size_ne_zero_iff (h : w.Faithful stream) (i : Fin 10) :
    (w.sys.driver.dev.buffer.entry i).size ≠ 0 ↔ w.origins.ring i ≠ [] := by
  rw [← length_entryBytes w.sys.driver.mem, h.ring, List.length_map, ne_eq, List.length_eq_zero_iff]

omit [DecidableEq ι] in
theorem Faithful.size_eq_zero_iff (h : w.Faithful stream) :
    w.sys.driver.dev.entry.size = 0 ↔ w.origins.pending = [] := by
  rw [← length_entryBytes w.sys.driver.mem, h.pending, List.length_map, List.length_eq_zero_iff]

omit [DecidableEq ι] in
/-- A buffer with a newline makes one line of one connection of what is pending exactly
when nothing is. -/
theorem Sound.line_iff (h : w.Sound stream) {t : ι} (hw : (w.sys.threads t).pc.toWrite)
    (hnl : ¬ Free isNewline (w.sys.threads t).data) :
    (∃ u start line, LineAt (stream u) start line ∧ w.line t = sources u start line) ↔
      w.origins.pending = [] := by
  obtain ⟨hseg, hat⟩ := (h.framed t).line hw hnl
  constructor
  · rintro ⟨u, start, line, -, heq⟩
    by_contra hne
    -- the last pending byte and the first byte of the buffer
    obtain ⟨before, o, hpending⟩ := (List.eq_nil_or_concat' _).resolve_left hne
    obtain ⟨b, after, hdata⟩ := List.exists_cons_of_ne_nil hseg.ne_nil
    have hlast : (w.line t)[before.length]? = some o := by
      simp [Traced.line, hpending]
    have hfirst : (w.line t)[before.length + 1]? = some ⟨t, w.origins.start t, b⟩ := by
      rw [Traced.line, hpending, List.getElem?_append_right (by simp), getElem?_sources, hdata]
      simp
    rw [heq, getElem?_sources, Option.map_eq_some_iff] at hlast hfirst
    obtain ⟨c, -, rfl⟩ := hlast
    obtain ⟨d, -, hd⟩ := hfirst
    obtain ⟨rfl, hstart, -⟩ := Source.mk.inj hd
    have hgap := h.gap _ (by rw [hpending]; exact List.mem_concat_self)
    rw [Thread.Gap, if_pos hw] at hgap
    simp only at hgap
    omega
  · intro hnil
    exact ⟨t, _, _, hat, by rw [line, hnil, List.nil_append]⟩

/-- A step keeps the lines of the connections apart exactly when it meets the condition. -/
theorem Sound.separate_iff (h : w.Sound stream) {a : Label ι} (ha : w.sys.NoFailure a)
    (hsep : w.Separate stream) :
    (w.step stream a).Separate stream ↔ w.sys.NothingPending a := by
  have hfaithful := (h.step ha).faithful
  simp only [Separate, hfaithful.size_ne_zero_iff, h.faithful.size_ne_zero_iff] at hsep ⊢
  rcases step_cases stream h.valid ha with
    ⟨hpc, -, hring, -⟩ | ⟨t, env, fPos, rfl, hpc, hret, hdriver, horigins, -⟩
  · rw [hring]
    refine iff_of_true hsep ?_
    cases a with
    | signal => trivial
    | thread t env => exact fun hw => absurd hw (hpc t env rfl)
  · have hw : (w.sys.threads t).pc.toWrite = true := by simp [hpc, Pc.toWrite]
    obtain ⟨hbytes, hstored⟩ := (h.framed t).stored hw
    have hcond : w.sys.NothingPending (.thread t env) ↔
        (¬ Free isNewline (w.sys.threads t).data → w.origins.pending = []) := by
      rw [System.NothingPending, h.faithful.size_eq_zero_iff]
      exact forall_prop_of_true hpc
    simp only [horigins, Origins.store_ring, hbytes, hstored, hcond]
    by_cases hf : Free isNewline (w.sys.threads t).data
    · refine iff_of_true (fun i => ?_) (fun hnl => absurd hf hnl)
      rw [if_neg (fun hc => hc.1 hf)]
      exact hsep i
    · -- the new line is the only entry that may be of several connections
      rw [forall_prop_of_true hf, ← h.line_iff hw hf]
      constructor
      · intro hall
        have hnew := hall w.sys.driver.dev.buffer.inOffs
        rw [if_pos ⟨hf, rfl⟩] at hnew
        refine hnew fun hnil => ?_
        have hdata := congrArg List.length (List.append_eq_nil_iff.mp hnil).2
        rw [length_sources, List.length_nil, List.length_eq_zero_iff] at hdata
        exact hf (hdata ▸ free_nil)
      · intro hline i
        split_ifs
        · exact fun _ => hline
        · exact hsep i

end Traced

/-! ### Streams of whole lines -/

/-- The rest of the input and a buffer to be written are whole lines that fit. -/
structure WholeLines (th : Thread) : Prop where
  clean : .error ∉ th.input
  rest : ∃ todo : List (List UInt8), (∀ l ∈ todo, IsSegment isNewline l ∧ l.length ≤ 65535) ∧
    received th.input = todo.flatten
  line : th.pc.toWrite → IsSegment isNewline th.data ∧ th.data.length ≤ 65535

omit [DecidableEq ι] in
theorem WholeLines.readLine {th : Thread} (h : WholeLines th) (pc : Pc)
    (hpos : pc.toWrite → 0 < (readLine th.input connectionBufferSize).retval) :
    WholeLines (th.afterReadLine pc) := by
  obtain ⟨todo, htodo, hrec⟩ := h.rest
  have hdata := Thread.afterReadLine_data h.clean pc
  cases todo with
  | nil =>
    obtain ⟨hb, hret, hrest, herr⟩ :=
      readLine_spec (n := connectionBufferSize) (by decide) h.clean
    rw [hrec] at hb hrest
    refine ⟨herr, ⟨[], by simp, hrest⟩, fun hw => ?_⟩
    have := hpos hw
    rw [hret, hb] at this
    simp [cutAfter] at this
  | cons line todo =>
    obtain ⟨hseg, hlen⟩ := htodo line (by simp)
    obtain ⟨hb, -, hrest, herr⟩ := readLine_of_isSegment (n := connectionBufferSize) h.clean
      (by rw [hrec, List.flatten_cons]) hseg (by rw [connectionBufferSize]; omega)
    refine ⟨herr, ⟨todo, fun l hl => htodo l (by simp [hl]), hrest⟩, fun _ => ?_⟩
    rw [hdata, hb]
    exact ⟨hseg, hlen⟩

namespace Traced

structure AllWhole (w : Traced ι) : Prop where
  valid : Valid w.sys.driver
  pending : w.sys.driver.mem.entryBytes w.sys.driver.dev.entry = []
  whole : ∀ t, WholeLines (w.sys.threads t)

theorem AllWhole.step (h : w.AllWhole) {a : Label ι} (ha : w.sys.NoFailure a) :
    (w.step stream a).AllWhole := by
  have hwhole : ∀ u, WholeLines ((w.step stream a).sys.threads u) :=
    threads_keep (T := fun _ _ => WholeLines)
      (fun t _ th th' hth hinput hdata hw =>
        ⟨hinput ▸ hth.clean, hinput ▸ hth.rest, fun h' => hdata ▸ hth.line (hw h')⟩)
      (fun t _ th pc hth _ => hth.readLine pc) h.whole a
  rcases step_cases stream h.valid ha with
    ⟨-, hdriver, -, -⟩ | ⟨t, env, fPos, rfl, hpc, hret, hdriver, -, -⟩
  · exact ⟨hdriver ▸ h.valid, hdriver ▸ h.pending, hwhole⟩
  · obtain ⟨⟨u, b, hdata, -, hb⟩, hlen⟩ := (h.whole t).line (by simp [hpc, Pc.toWrite])
    refine ⟨hdriver ▸ h.valid.step _, ?_, hwhole⟩
    rw [hdriver, (h.valid.write_completes hret).2.2, vfsBuf_bytes hlen, if_neg fun hf => ?_]
    rw [hf b (by simp [hdata])] at hb
    exact absurd hb Bool.false_ne_true

end Traced

theorem Framed.initial {input : List SockRead} (h : .error ∉ input) :
    Framed (received input) 0 (Thread.initial input) := by
  have hpc : (Thread.initial input).pc.toWrite = false := rfl
  refine ⟨h, List.suffix_rfl, .inr ⟨[], by simp, rfl⟩, ?_, ?_, ?_, ?_⟩ <;> simp [hpc]

/-- Any connections, any streams of bytes, any interleaving without a failing call. The
record changes nothing, and in every state it says rightly who has received each byte of
the device, and at which place. Every entry of the ring is, in every state, one
newline-terminated line of one connection exactly when a buffer with a newline is
written only while the pending entry is empty. This is so when every stream consists of
lines of at most 65535 bytes and ends with a newline. -/
theorem lines_not_mixed (input : ι → List SockRead) (hclean : ∀ t, .error ∉ input t) :
    let stream := fun t => received (input t)
    (∀ as, Along (Traced.step stream) (fun w a => w.sys.NoFailure a) (.initial input) as →
      (run (Traced.step stream) (.initial input) as).sys = run System.step (.initial input) as ∧
      Always (Traced.step stream) (Traced.Faithful stream) (.initial input) as ∧
      (Always (Traced.step stream) (Traced.Separate stream) (.initial input) as ↔
        Along (Traced.step stream) (fun w a => w.sys.NothingPending a) (.initial input) as)) ∧
    ((∀ t, (segments isNewline (stream t)).2 = [] ∧
        ∀ l ∈ (segments isNewline (stream t)).1, l.length ≤ 65535) →
      ∀ as, Along (Traced.step stream) (fun w a => w.sys.NoFailure a) (.initial input) as →
        Along (Traced.step stream) (fun w a => w.sys.NothingPending a) (.initial input) as) := by
  intro stream
  have h0 : (Traced.initial input).Sound stream :=
    ⟨initial_valid, ⟨fun i => rfl, rfl, by simp [Traced.initial]⟩, fun t => .initial (hclean t),
      by simp [Traced.initial]⟩
  refine ⟨fun as has => ⟨Traced.run_sys .., fun before hb => ?_, ?_⟩, fun hwhole as has => ?_⟩
  · exact (invariant (I := Traced.Sound stream) (fun w a h ha => h.step ha) h0
      (has.shorten hb)).faithful
  · exact always_iff_along_of (fun w a h ha => h.step ha) (fun w a h ha hs => h.separate_iff ha hs)
      h0 (fun i hi => absurd rfl hi) has
  · refine Along.of_invariant (I := Traced.AllWhole) (fun w a h ha => h.step ha) (fun w a h _ => ?_)
      ?_ has
    · cases a with
      | signal => trivial
      | thread t env =>
        intro _ _
        rw [← length_entryBytes w.sys.driver.mem, h.pending, List.length_nil]
    · refine ⟨initial_valid, rfl, fun t => ?_⟩
      obtain ⟨hcat, hseg, -⟩ := segments_spec (p := isNewline) (stream t)
      obtain ⟨hnil, hlen⟩ := hwhole t
      rw [hnil, List.append_nil] at hcat
      exact ⟨hclean t, ⟨_, fun l hl => ⟨hseg l hl, hlen l hl⟩, hcat.symm⟩,
        by simp [Traced.initial, System.initial, Thread.initial, Pc.toWrite]⟩

/-- The first stream ends without a newline. -/
def tailInput (t : Fin 2) : List SockRead :=
  if t = 0 then [.byte 97, .byte 98] else [.byte 99, .byte newline]

/-- Both connections write what they have received. -/
def writeBoth (t u : Fin 2) : List (Label (Fin 2)) :=
  List.replicate 6 (okStep t) ++ List.replicate 6 (okStep u)

/-- The tail comes last and stays pending. -/
theorem lines_not_mixed_tail_last :
    let w := run (Traced.step fun t => received (tailInput t)) (.initial tailInput) (writeBoth 1 0)
    (w.sys.driver.dev.buffer.entry 0).size = 2 ∧ w.sys.driver.dev.entry.size = 2 ∧
      w.Separate (fun t => received (tailInput t)) ∧ w.Faithful fun t => received (tailInput t) := by
  obtain ⟨-, hfaithful, hiff⟩ :=
    (lines_not_mixed tailInput (by decide)).1 (writeBoth 1 0) (by decide +kernel)
  exact ⟨by decide +kernel, by decide +kernel, (hiff.mpr (by decide +kernel)).last, hfaithful.last⟩

/-- The tail comes first: the ring holds the bytes of both connections as one line. -/
theorem lines_mixed :
    ¬ ∀ (input : Fin 2 → List SockRead) (as : List (Label (Fin 2))), (∀ t, .error ∉ input t) →
      Along (Traced.step fun t => received (input t)) (fun w a => w.sys.NoFailure a) (.initial input) as →
      Always (Traced.step fun t => received (input t))
        (Traced.Separate fun t => received (input t)) (.initial input) as := by
  intro h
  obtain ⟨t, start, line, -, hring⟩ := (h tailInput (writeBoth 0 1) (by decide) (by decide +kernel)).last
    0 (by decide +kernel)
  have hmixed : (run (Traced.step fun t => received (tailInput t)) (.initial tailInput)
      (writeBoth 0 1)).origins.ring 0 = [⟨0, 0, 97⟩, ⟨0, 1, 98⟩, ⟨1, 0, 99⟩, ⟨1, 1, newline⟩] := by
    decide +kernel
  rw [hmixed] at hring
  have hconn : ∀ o ∈ sources t start line, o.conn = t := fun o ho => by
    obtain ⟨k, -, hc, -⟩ := mem_sources.mp ho
    exact hc
  rw [← hring] at hconn
  have h0 := hconn ⟨0, 0, 97⟩ (by simp)
  have h1 := hconn ⟨1, 0, 99⟩ (by simp)
  exact absurd (h0.trans h1.symm) (by decide)

end Aesd.Server
