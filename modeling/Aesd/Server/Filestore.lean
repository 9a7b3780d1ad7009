import Aesd.Driver.Draining
import Aesd.Server.HandleConnection

/-! The filestore functions as sequential code. Both builds of the server send
the data file with the same loop: read up to 1024 bytes, send them, until `read`
returns 0 or something has failed. The loop is a function of what its calls give,
whatever is behind the descriptor. The result of `read` is kept in a `size_t`, so
a failure looks like a large number of bytes to the loop test and to `send`. -/

namespace Aesd.Server

open Driver Run

/-- A call of the loop: how many bytes a `read` has stored in `file_buffer`, and
the length a `send` was given, with the bytes it has accepted. -/
inductive StoreEvent where
  | read (stored : Option ℕ)
  | send (length : ℕ) (accepted : Option (List Cell))
  deriving DecidableEq

/-- The state behind the descriptor, the calls made, and the result of the
function; `none` while the loop is still running. -/
structure Dump (σ : Type*) where
  state : σ
  events : List StoreEvent
  ret : Option ℤ

/-- The bytes the socket has accepted. -/
def Dump.sent {σ : Type*} (d : Dump σ) : List Cell :=
  d.events.flatMap fun
    | .send _ (some bytes) => bytes
    | _ => []

variable {σ ρ : Type*}

/-- The loop of `filestore_read_to_dest`, in both builds. `read` is one
`read(fd, file_buffer, 1024)`; every round has the outcome of its `read` and, if
it comes to it, the number of bytes `send` accepts. -/
def sendLoop (read : σ → ρ → ℤ × List Cell × σ) :
    σ → ℤ → List Cell → List (ρ × Option ℕ) → Dump σ
  | s, _, _, [] => ⟨s, [], none⟩
  | s, ret, fileBuffer, (env, send) :: rounds =>
    let (n, copied, s) := read s env
    let bytesRead := (n % 2 ^ 64).toNat
    let fileBuffer := overwrite fileBuffer 0 copied
    let event := .read (if n = -1 then none else some n.toNat)
    if 0 < bytesRead ∧ ret ≠ -1 then
      let accepted := send.map fun k => resize fileBuffer (min k bytesRead)
      let d := sendLoop read s (if send = none then -1 else ret) fileBuffer rounds
      { d with events := event :: .send bytesRead accepted :: d.events }
    else ⟨s, [event], some (if bytesRead = 2 ^ 64 - 1 then -1 else ret)⟩

/-- `filestore_read_to_dest` of the device build, from `open` to the end of the
loop; the function returns what the loop leaves in `ret`. -/
def filestoreReadToDest (read : σ → ρ → ℤ × List Cell × σ) (s : σ) (opened : Bool)
    (rounds : List (ρ × Option ℕ)) : Dump σ :=
  sendLoop read s (if opened then 0 else -1) (List.replicate 1024 none) rounds

/-! ### One round -/

section Round

variable {read : σ → ρ → ℤ × List Cell × σ} {s s' : σ} {env : ρ} {copied : List Cell} {ret : ℤ}
  {fileBuffer : List Cell} {send : Option ℕ} {rounds : List (ρ × Option ℕ)}

/-- A `read` that stores something is followed by a `send`. -/
theorem sendLoop_chunk {k : ℕ} (hread : read s env = ((k : ℤ), copied, s')) (hpos : 0 < k) (hk : k ≤ 1024)
    (hret : ret ≠ -1) :
    sendLoop read s ret fileBuffer ((env, send) :: rounds) =
      let buf := overwrite fileBuffer 0 copied
      let d := sendLoop read s' (if send = none then -1 else ret) buf rounds
      { d with events := .read (some k) ::
          .send k (send.map fun j => resize buf (min j k)) :: d.events } := by
  have hsize : ((k : ℤ) % 2 ^ 64).toNat = k := by omega
  have hne : (k : ℤ) ≠ -1 := by omega
  rw [sendLoop, hread]
  dsimp only
  rw [hsize, if_pos ⟨hpos, hret⟩, if_neg hne, Int.toNat_natCast]

/-- The loop ends with a `read` of nothing, and with any after a failure. -/
theorem sendLoop_last {k : ℕ} (hread : read s env = ((k : ℤ), copied, s')) (hk : k ≤ 1024)
    (hlast : k = 0 ∨ ret = -1) :
    sendLoop read s ret fileBuffer ((env, send) :: rounds) = ⟨s', [.read (some k)], some ret⟩ := by
  have hsize : ((k : ℤ) % 2 ^ 64).toNat = k := by omega
  have hne : (k : ℤ) ≠ -1 := by omega
  rw [sendLoop, hread]
  dsimp only
  rw [hsize, if_neg (by rintro ⟨h0, h1⟩; omega), if_neg hne, Int.toNat_natCast,
    if_neg (show k ≠ 2 ^ 64 - 1 by omega)]

/-- A failed `read` ends the loop only after another failure. -/
theorem sendLoop_failed (hread : read s env = (-1, copied, s')) :
    sendLoop read s ret fileBuffer ((env, send) :: rounds) =
      if ret = -1 then ⟨s', [.read none], some (-1)⟩ else
        let buf := overwrite fileBuffer 0 copied
        let d := sendLoop read s' (if send = none then -1 else ret) buf rounds
        { d with events := .read none ::
            .send (2 ^ 64 - 1) (send.map fun j => resize buf (min j (2 ^ 64 - 1))) :: d.events } := by
  have hsize : ((-1 : ℤ) % 2 ^ 64).toNat = 2 ^ 64 - 1 := by omega
  rw [sendLoop, hread]
  dsimp only
  rw [hsize, if_pos rfl, if_pos rfl]
  by_cases hret : ret = -1
  · rw [if_neg (by simp [hret]), if_pos hret]
  · rw [if_pos ⟨by omega, hret⟩, if_neg hret]

end Round

/-! ### Any outcomes -/

/-- What a successful `read` of at most 1024 bytes has stored. -/
structure Chunk where
  bytes : List UInt8
  length_le : bytes.length ≤ 1024

/-- A `read` with nothing but its outcome behind it. -/
def readOutcome (_ : Unit) : Option Chunk → ℤ × List Cell × Unit
  | none => (-1, [], ())
  | some c => (c.bytes.length, c.bytes.map some, ())

/-- Every `send` is given the number of bytes that the `read` right before it has
stored, none comes after a failed `read`, and a failed `read` makes the function
return -1. -/
def SendsWhatItRead (events : List StoreEvent) (ret : Option ℤ) : Prop :=
  (∀ pre length accepted post, events = pre ++ .send length accepted :: post →
    length ≤ 1024 ∧ .read none ∉ pre ∧ ∃ before, pre = before ++ [.read (some length)]) ∧
  (.read none ∈ events → ∀ r, ret = some r → r = -1)

/-- No `read` fails before one has returned 0 or a `send` has failed. -/
def ReadsSucceed : List (Option Chunk × Option ℕ) → Prop
  | [] => True
  | (none, _) :: _ => False
  | (some c, send) :: rounds => c.bytes = [] ∨ send = none ∨ ReadsSucceed rounds

/-- Without a `send` there is only the result to check. -/
theorem sendsWhatItRead_of_read {stored : Option ℕ} {ret : Option ℤ} :
    SendsWhatItRead [.read stored] ret ↔ (stored = none → ∀ r, ret = some r → r = -1) := by
  constructor
  · rintro ⟨-, h⟩ rfl
    exact h (by simp)
  · intro h
    refine ⟨fun pre length accepted post he => ?_, fun hmem => h ?_⟩
    · rcases pre with _ | ⟨e, _ | ⟨e', pre⟩⟩ <;> simp at he
    · simpa [eq_comm] using hmem

/-- A round that reads `n` bytes and sends `n` bytes does no harm. -/
theorem sendsWhatItRead_cons {n : ℕ} (hn : n ≤ 1024) {accepted : Option (List Cell)}
    {events : List StoreEvent} {ret : Option ℤ} :
    SendsWhatItRead (.read (some n) :: .send n accepted :: events) ret ↔
      SendsWhatItRead events ret := by
  constructor
  · rintro ⟨hsend, hret⟩
    refine ⟨fun pre length acc post he => ?_, fun hmem => hret (by simp [hmem])⟩
    obtain ⟨hle, hnone, before, hb⟩ := hsend (.read (some n) :: .send n accepted :: pre) length acc post
      (by rw [he]; rfl)
    refine ⟨hle, fun hmem => hnone (by simp [hmem]), ?_⟩
    rcases before with _ | ⟨e, _ | ⟨e', before⟩⟩
    · simp at hb
    · simp at hb
    · exact ⟨before, by simpa using (List.cons.inj (List.cons.inj hb).2).2⟩
  · rintro ⟨hsend, hret⟩
    refine ⟨fun pre length acc post he => ?_, fun hmem => hret (by simpa using hmem)⟩
    rcases pre with _ | ⟨e, _ | ⟨e', pre⟩⟩
    · simp at he
    · simp only [List.cons_append, List.nil_append, List.cons.injEq, StoreEvent.send.injEq] at he
      obtain ⟨rfl, ⟨rfl, -⟩, -⟩ := he
      exact ⟨hn, by simp, [], rfl⟩
    · simp only [List.cons_append, List.cons.injEq] at he
      obtain ⟨rfl, rfl, he⟩ := he
      obtain ⟨hle, hnone, before, hb⟩ := hsend pre length acc post he
      exact ⟨hle, by simpa using hnone, _ :: _ :: before, by rw [hb]; rfl⟩

/-- The loop entered with `ret`: it meets the requirement exactly when `ret` says
already that something has failed, or the reads succeed. -/
theorem sendLoop_sendsWhatItRead_iff (ret : ℤ) (fileBuffer : List Cell)
    (rounds : List (Option Chunk × Option ℕ)) :
    let d := sendLoop readOutcome () ret fileBuffer rounds
    SendsWhatItRead d.events d.ret ↔ ret = -1 ∨ ReadsSucceed rounds := by
  induction rounds generalizing ret fileBuffer with
  | nil => simp [sendLoop, SendsWhatItRead, ReadsSucceed]
  | cons round rounds ih =>
    obtain ⟨read, send⟩ := round
    cases read with
    | none =>
      have hread : readOutcome () none = (-1, [], ()) := rfl
      rw [sendLoop_failed hread]
      by_cases hret : ret = -1
      · simp [hret, sendsWhatItRead_of_read]
      · -- the failed read goes on to `send`
        simp only [hret, ReadsSucceed, or_self, iff_false]
        intro h
        have := (h.1 [.read none] (2 ^ 64 - 1) _ _ rfl).1
        omega
    | some c =>
      have hread : readOutcome () (some c) =
          ((c.bytes.length : ℤ), c.bytes.map some, ()) := rfl
      by_cases hgo : 0 < c.bytes.length ∧ ret ≠ -1
      · have hc : c.bytes ≠ [] := List.ne_nil_of_length_pos hgo.1
        rw [sendLoop_chunk hread hgo.1 c.length_le hgo.2]
        refine (sendsWhatItRead_cons c.length_le).trans ((ih _ _).trans ?_)
        cases send <;> simp [ReadsSucceed, hgo.2, hc]
      · have hlast : c.bytes.length = 0 ∨ ret = -1 := by
          rw [not_and_or, not_lt, Nat.le_zero, not_not] at hgo
          exact hgo
        rw [sendLoop_last hread c.length_le hlast]
        refine iff_of_true (sendsWhatItRead_of_read.mpr (by simp)) ?_
        rcases hlast with h0 | hret
        · exact .inr (.inl (List.length_eq_zero_iff.mp h0))
        · exact .inl hret

/-- For every sequence of outcomes: the server only sends what it has read, and
reports a failed `read`, exactly when `open` fails or no `read` fails before one
has returned 0 or a `send` has failed. -/
theorem sends_what_it_read_iff (opened : Bool) (rounds : List (Option Chunk × Option ℕ)) :
    let d := filestoreReadToDest readOutcome () opened rounds
    SendsWhatItRead d.events d.ret ↔ opened = false ∨ ReadsSucceed rounds := by
  intro d
  refine (sendLoop_sendsWhatItRead_iff _ _ rounds).trans (or_congr_left ?_)
  cases opened <;> simp

/-- The first `read` fails: `send` is given 2^64 - 1 bytes. -/
theorem sends_what_it_read_fails :
    ¬ ∀ opened rounds, let d := filestoreReadToDest readOutcome () opened rounds
      SendsWhatItRead d.events d.ret := by
  intro h
  have hle := ((h true [(none, some 1)]).1 [.read none] (2 ^ 64 - 1) _ [] rfl).1
  omega

/-! ### Short counts -/

/-- `rest s` is what is left to read in `s`: a `read` takes the first part of it,
at most 1024 bytes and nothing only at the end. -/
structure ReadsRest (read : σ → ρ → ℤ × List Cell × σ) (Inv : σ → Prop) (rest : σ → List Cell) :
    Prop where
  next : ∀ s env, Inv s → ∃ (k : ℕ) (s' : σ), read s env = ((k : ℤ), (rest s).take k, s') ∧
    k ≤ 1024 ∧ k ≤ (rest s).length ∧ (k = 0 → rest s = []) ∧ rest s' = (rest s).drop k ∧ Inv s'

/-- Every `send` accepts all that the `read` before it has stored. -/
def FullSends (read : σ → ρ → ℤ × List Cell × σ) : σ → List (ρ × Option ℕ) → Prop
  | _, [] => True
  | s, (env, send) :: rounds =>
    (read s env).1 = 0 ∨
      ((read s env).1 ≤ send.getD 0 ∧ FullSends read (read s env).2.2 rounds)

instance decidableFullSends (read : σ → ρ → ℤ × List Cell × σ) :
    ∀ s rounds, Decidable (FullSends read s rounds)
  | _, [] => inferInstanceAs (Decidable True)
  | s, (env, _) :: rounds =>
    have := decidableFullSends read (read s env).2.2 rounds
    inferInstanceAs (Decidable (_ ∨ (_ ∧ _)))

/-- After a failure nothing more is sent, and the result is -1. -/
theorem sendLoop_neg_one (read : σ → ρ → ℤ × List Cell × σ) (s : σ) (fileBuffer : List Cell)
    (rounds : List (ρ × Option ℕ)) :
    (sendLoop read s (-1) fileBuffer rounds).ret ≠ some 0 ∧
      (sendLoop read s (-1) fileBuffer rounds).sent = [] := by
  cases rounds with
  | nil => exact ⟨by simp [sendLoop], rfl⟩
  | cons round rounds =>
    rw [sendLoop]
    dsimp only
    rw [if_neg (by simp), ite_self]
    exact ⟨by simp, rfl⟩

theorem resize_overwrite {buf xs : List Cell} {j : ℕ} (hj : j ≤ xs.length) :
    resize (overwrite buf 0 xs) j = xs.take j := by
  rw [resize, overwrite, List.take_zero, List.nil_append, List.take_append_of_le_length hj,
    Nat.sub_eq_zero_of_le (by rw [List.length_append]; omega), List.replicate_zero, List.append_nil]

/-- The socket gets no more than there is to read, and when the function returns 0
it has got all of it exactly when every `send` was full. -/
theorem ReadsRest.sendLoop {read : σ → ρ → ℤ × List Cell × σ} {Inv : σ → Prop}
    {rest : σ → List Cell} (h : ReadsRest read Inv rest) {s : σ} (hs : Inv s)
    (fileBuffer : List Cell) (rounds : List (ρ × Option ℕ)) :
    let d := Server.sendLoop read s 0 fileBuffer rounds
    d.sent.length ≤ (rest s).length ∧
      (d.ret = some 0 → (d.sent = rest s ↔ FullSends read s rounds)) := by
  induction rounds generalizing s fileBuffer with
  | nil => exact ⟨Nat.zero_le _, by simp [Server.sendLoop]⟩
  | cons round rounds ih =>
    obtain ⟨env, send⟩ := round
    obtain ⟨k, s', hread, hk, hle, hend, hrest, hs'⟩ := h.next s env hs
    rw [FullSends, hread]
    rcases Nat.eq_zero_or_pos k with rfl | hpos
    · rw [sendLoop_last hread (by omega) (.inl rfl), hend rfl]
      exact ⟨Nat.zero_le _, fun _ => iff_of_true rfl (.inl rfl)⟩
    · rw [sendLoop_chunk hread hpos hk (by decide)]
      have hlen : ((rest s).take k).length = k := by
        rw [List.length_take]
        omega
      have hk0 : (k : ℤ) ≠ 0 := by omega
      cases send with
      | none =>
        have hneg := sendLoop_neg_one read s' (overwrite fileBuffer 0 ((rest s).take k)) rounds
        refine ⟨?_, fun hret => absurd hret hneg.1⟩
        change ([] ++ Dump.sent _).length ≤ _
        rw [if_pos rfl, hneg.2]
        exact Nat.zero_le _
      | some j =>
        obtain ⟨hshort, hiff⟩ := ih hs' (overwrite fileBuffer 0 ((rest s).take k))
        rw [hrest, List.length_drop] at hshort
        dsimp only
        rw [if_neg (by simp)]
        set d := Server.sendLoop read s' 0 (overwrite fileBuffer 0 ((rest s).take k)) rounds with hd
        have hsent : Dump.sent { d with events := .read (some k) :: .send k ((some j).map fun j =>
            resize (overwrite fileBuffer 0 ((rest s).take k)) (min j k)) :: d.events } =
            (rest s).take (min j k) ++ d.sent := by
          change resize _ (min j k) ++ d.sent = _
          rw [resize_overwrite (by omega), List.take_take, Nat.min_eq_left (Nat.min_le_right j k)]
        rw [hsent]
        refine ⟨?_, fun hret => ?_⟩
        · rw [List.length_append, List.length_take]
          omega
        · have hiff' := hiff hret
          rw [hrest] at hiff'
          simp only [hk0, false_or, Option.getD_some, Int.ofNat_le, ← hiff']
          constructor
          · intro heq
            have hlen' := congrArg List.length heq
            rw [List.length_append, List.length_take] at hlen'
            have hjk : k ≤ j := by omega
            refine ⟨hjk, ?_⟩
            rw [Nat.min_eq_right hjk] at heq
            exact List.append_cancel_left (heq.trans (List.take_append_drop k _).symm)
          · rintro ⟨hjk, heq⟩
            rw [Nat.min_eq_right hjk, heq, List.take_append_drop]

/-- Nothing a `read` keeps is lost in the loop. -/
theorem sendLoop_state {read : σ → ρ → ℤ × List Cell × σ} {P : σ → Prop}
    (h : ∀ s env, P s → P (read s env).2.2) {s : σ} (hs : P s) (ret : ℤ) (fileBuffer : List Cell)
    (rounds : List (ρ × Option ℕ)) : P (sendLoop read s ret fileBuffer rounds).state := by
  induction rounds generalizing s ret fileBuffer with
  | nil => exact hs
  | cons round rounds ih =>
    rw [sendLoop]
    dsimp only
    by_cases hgo : 0 < ((read s round.1).1 % 2 ^ 64).toNat ∧ ret ≠ -1
    · rw [if_pos hgo]
      exact ih (h s round.1 hs) _ _
    · rw [if_neg hgo]
      exact h s round.1 hs

/-- With more rounds than bytes left, and every `send` full, the loop ends. -/
theorem ReadsRest.sendLoop_full {read : σ → ρ → ℤ × List Cell × σ} {Inv : σ → Prop}
    {rest : σ → List Cell} (h : ReadsRest read Inv rest) {s : σ} (hs : Inv s)
    (fileBuffer : List Cell) (env : ρ) {n : ℕ} (hn : (rest s).length < n) :
    let d := Server.sendLoop read s 0 fileBuffer (List.replicate n (env, some 1024))
    d.ret = some 0 ∧ d.sent = rest s := by
  intro d
  have hret : d.ret = some 0 ∧ FullSends read s (List.replicate n (env, some 1024)) := by
    simp only [d]
    clear d
    induction n generalizing s fileBuffer with
    | zero => simp at hn
    | succ n ih =>
      obtain ⟨k, s', hread, hk, hle, hend, hrest, hs'⟩ := h.next s env hs
      rw [List.replicate_succ, FullSends, hread]
      rcases Nat.eq_zero_or_pos k with rfl | hpos
      · rw [sendLoop_last hread (by omega) (.inl rfl)]
        exact ⟨rfl, .inl rfl⟩
      · rw [sendLoop_chunk hread hpos hk (by decide)]
        have hlen : (rest s').length < n := by
          rw [hrest, List.length_drop]
          omega
        obtain ⟨hret, hfull⟩ := ih hs' (overwrite fileBuffer 0 ((rest s).take k)) hlen
        exact ⟨hret, .inr ⟨Int.ofNat_le.mpr hk, hfull⟩⟩
  exact ⟨hret.1, ((h.sendLoop hs fileBuffer _).2 hret.1).mpr hret.2⟩

/-- A `read` of a file of which `rest` is left, with any count that is permitted:
`short + 1`, or as much as there is and as fits. -/
def readRest (rest : List Cell) (short : ℕ) : ℤ × List Cell × List Cell :=
  let k := min (short + 1) (min 1024 rest.length)
  (k, rest.take k, rest.drop k)

theorem readsRest_readRest : ReadsRest readRest (fun _ => True) id where
  next rest short _ := by
    refine ⟨_, _, rfl, by omega, Nat.min_le_right _ _ |>.trans (Nat.min_le_right _ _), ?_, rfl, trivial⟩
    intro h0
    exact List.length_eq_zero_iff.mp (show rest.length = 0 by omega)

/-- The device behind the descriptor: the driver and the position of the file. -/
def readDevice (s : State × ℕ) (env : ReadEnv) : ℤ × List Cell × (State × ℕ) :=
  let r := aesdRead env s.1 1024 s.2
  (if r.retval < 0 then -1 else r.retval, r.copied, (r.state, r.fPos))

theorem readsRest_readDevice : ReadsRest (fun s (_ : Unit) => readDevice s .ok)
    (fun s => Valid s.1 ∧ s.2 ≤ s.1.content.length) (fun s => s.1.content.drop s.2) where
  next s _ hs := by
    obtain ⟨s, fPos⟩ := s
    obtain ⟨hs, hle⟩ : Valid s ∧ fPos ≤ s.content.length := hs
    obtain ⟨hret, hpos, hcopied, hstate⟩ := hs.read_ok 1024 fPos
    have hzero := hs.min_left_eq_zero_iff (by omega : 0 < 1024) fPos
    have hend := hs.add_min_left_le 1024 fPos hle
    refine ⟨min 1024 (s.left fPos), (s, fPos + min 1024 (s.left fPos)), ?_, Nat.min_le_left _ _, ?_,
      fun h0 => List.drop_of_length_le (hzero.mp h0), by rw [List.drop_drop], hs, hend⟩
    · rw [readDevice]
      dsimp only
      rw [hret, hpos, hcopied, hstate, if_neg (by omega)]
    · change min 1024 (s.left fPos) ≤ (s.content.drop fPos).length
      rw [List.length_drop]
      omega

/-- Whatever counts `read` and `send` come back with: when
`filestore_read_to_dest` returns 0, the socket has accepted the whole content
exactly when every `send` has accepted all it was given. So it is for the counts
of `aesd_read`, in every state of the device. -/
theorem complete_dump_iff (opened : Bool) :
    (∀ content rounds, (filestoreReadToDest readRest content opened rounds).ret = some 0 →
      ((filestoreReadToDest readRest content opened rounds).sent = content ↔
        FullSends readRest content rounds)) ∧
    (∀ cs rounds, let s := run State.step .initial cs
      let read := fun s (_ : Unit) => readDevice s .ok
      (filestoreReadToDest read (s, 0) opened rounds).ret = some 0 →
        ((filestoreReadToDest read (s, 0) opened rounds).sent = s.content ↔
          FullSends read (s, 0) rounds)) := by
  cases opened with
  | false =>
    exact ⟨fun content rounds hret => absurd hret (sendLoop_neg_one ..).1,
      fun cs rounds hret => absurd hret (sendLoop_neg_one ..).1⟩
  | true =>
    exact ⟨fun content rounds hret => (readsRest_readRest.sendLoop trivial _ rounds).2 hret,
      fun cs rounds hret => (readsRest_readDevice.sendLoop (s := (_, 0))
        ⟨run_valid cs, Nat.zero_le _⟩ _ rounds).2 hret⟩

/-- Two short reads, and all of what they bring is accepted. -/
theorem complete_dump_two_reads :
    (filestoreReadToDest readRest [some 97, some 98, some newline] true
      [(1, some 2), (0, some 7), (0, none)]).sent = [some 97, some 98, some newline] :=
  ((complete_dump_iff true).1 [some 97, some 98, some newline] [(1, some 2), (0, some 7), (0, none)]
    (by decide +kernel)).mpr (by decide +kernel)

/-- One byte of three is accepted, and the function returns 0 all the same. -/
theorem complete_dump_fails :
    ¬ ∀ content opened rounds, (filestoreReadToDest readRest content opened rounds).ret = some 0 →
      (filestoreReadToDest readRest content opened rounds).sent = content := by
  intro h
  have hsent := h [some 97, some 98, some newline] true [(9, some 1), (0, none)] (by decide +kernel)
  revert hsent
  decide +kernel

/-! ### The thread -/

namespace System

variable {ι : Type*} [DecidableEq ι]

theorem put_put (s : System ι) (t : ι) (th th' : Thread) : (s.put t th).put t th' = s.put t th' := by
  simp [put]

/-- `read` does not look at the threads. -/
theorem read_put (s : System ι) (t : ι) (th : Thread) (env : ReadEnv) (fd : Option ℕ)
    (count : ℕ) :
    (s.put t th).read env fd count = ((s.read env fd count).1, (s.read env fd count).2.1,
      (s.read env fd count).2.2.put t th) := by
  unfold read put
  cases fd with
  | none => rfl
  | some n =>
    cases hn : s.files n with
    | none => simp only [hn]
    | some f =>
      simp only [hn]
      split_ifs <;> rfl

theorem put_threads_self (s : System ι) (t : ι) (th : Thread) : (s.put t th).threads t = th :=
  Function.update_self ..

theorem threadStep_read (s : System ι) (t : ι) {th : Thread} (hpc : th.pc = .read) (env : Env) :
    (s.put t th).threadStep t env =
      let r := s.read env.read th.fd 1024
      let bytesRead := (r.1 % 2 ^ 64).toNat
      let th := { th with bytesRead := bytesRead, fileBuffer := overwrite th.fileBuffer 0 r.2.1 }
      if 0 < bytesRead ∧ th.ret ≠ -1 then r.2.2.put t { th with pc := .send }
      else r.2.2.put t { th with
        ret := if bytesRead = 2 ^ 64 - 1 then -1 else th.ret
        pc := .readUnlock } := by
  simp only [threadStep, put_threads_self, hpc, read_put, put_put]

theorem threadStep_send (s : System ι) (t : ι) {th : Thread} (hpc : th.pc = .send) (env : Env) :
    (s.put t th).threadStep t env = s.put t { th with
      ret := if env.send = none then -1 else th.ret
      reply := th.reply ++
        ((env.send.map fun k => resize th.fileBuffer (min k th.bytesRead)).getD [])
      pc := .read } := by
  cases hsend : env.send <;> simp [threadStep, put_threads_self, hpc, hsend, put_put]

/-- A thread in the read section that runs alone does what the loop does. -/
theorem run_sendLoop (t : ι) (rounds : List (ReadEnv × Option ℕ)) (s : System ι) {th : Thread}
    (hpc : th.pc = .read) {r : ℤ}
    (hret : (sendLoop (fun s env => read s env th.fd 1024) s th.ret th.fileBuffer rounds).ret =
      some r) :
    ∃ envs : List Env, let s' := run step (s.put t th) (envs.map (.thread t))
      (s'.threads t).pc = .readUnlock ∧ (s'.threads t).ret = r ∧ (s'.threads t).reply = th.reply ++
        (sendLoop (fun s env => read s env th.fd 1024) s th.ret th.fileBuffer rounds).sent := by
  induction rounds generalizing s th with
  | nil => simp [sendLoop] at hret
  | cons round rounds ih =>
    obtain ⟨env, send⟩ := round
    have hread := s.threadStep_read t hpc ⟨none, .ok 0 0, env, send⟩
    rw [sendLoop] at hret ⊢
    dsimp only at hret hread ⊢
    by_cases hgo : 0 < ((s.read env th.fd 1024).1 % 2 ^ 64).toNat ∧ th.ret ≠ -1
    · -- a chunk: one step reads it and one sends it
      rw [if_pos hgo] at hret hread ⊢
      set s₁ := (s.read env th.fd 1024).2.2
      set bytesRead := ((s.read env th.fd 1024).1 % 2 ^ 64).toNat
      set buf := overwrite th.fileBuffer 0 (s.read env th.fd 1024).2.1
      let accepted := send.map fun k => resize buf (min k bytesRead)
      let th' : Thread := { th with
        bytesRead := bytesRead
        fileBuffer := buf
        ret := if send = none then -1 else th.ret
        reply := th.reply ++ accepted.getD []
        pc := .read }
      obtain ⟨envs, hpc', hret', hreply⟩ := ih s₁ (rfl : th'.pc = .read) hret
      refine ⟨⟨none, .ok 0 0, env, send⟩ :: ⟨none, .ok 0 0, env, send⟩ :: envs, ?_⟩
      have hrun : step (step (s.put t th) (.thread t ⟨none, .ok 0 0, env, send⟩))
          (.thread t ⟨none, .ok 0 0, env, send⟩) = s₁.put t th' := by
        rw [step, step, hread, threadStep_send _ _ rfl]
      rw [List.map_cons, List.map_cons, run_cons, run_cons, hrun]
      refine ⟨hpc', hret', hreply.trans ?_⟩
      change (th.reply ++ accepted.getD []) ++ _ = th.reply ++ (([] : List Cell) ++ (_ ++ _))
      rw [List.append_assoc, List.nil_append]
      cases send <;> rfl
    · rw [if_neg hgo] at hret hread ⊢
      refine ⟨[⟨none, .ok 0 0, env, send⟩], ?_⟩
      rw [List.map_singleton, run_cons, run_nil, step, hread, put_threads_self]
      exact ⟨rfl, Option.some.inj hret, (List.append_nil _).symm⟩

end System

end Aesd.Server
