import Aesd.Server.ReadLine
import Mathlib.Data.Nat.Digits.Lemmas

/-! The record of the timer thread. `timer_thread` formats the local time into a
buffer of 100 bytes and stores what stands in it up to the null byte. The program
does not set a locale, so names and digits are those of the C locale. Whatever the
time is, the record fits and is one line. -/

namespace Aesd.Server

open Segments Driver

/-- `struct tm` as `localtime` fills it: the fields that the format reads. The year
counts from 1900, and `gmtoff` are seconds east of Greenwich. -/
structure Tm where
  sec : ℕ
  min : ℕ
  hour : ℕ
  mday : ℕ
  mon : ℕ
  year : ℤ
  wday : ℕ
  gmtoff : ℤ
  sec_le : sec ≤ 60
  min_lt : min < 60
  hour_lt : hour < 24
  mday_le : mday ≤ 31
  mon_lt : mon < 12
  year_int : -2 ^ 31 ≤ year ∧ year < 2 ^ 31
  wday_lt : wday < 7
  gmtoff_lt : gmtoff.natAbs < 360000

/-- The first of January 1970. -/
def epoch : Tm where
  sec := 0
  min := 0
  hour := 0
  mday := 1
  mon := 0
  year := 70
  wday := 4
  gmtoff := 0
  sec_le := by decide
  min_lt := by decide
  hour_lt := by decide
  mday_le := by decide
  mon_lt := by decide
  year_int := by decide
  wday_lt := by decide
  gmtoff_lt := by decide

def ascii (cs : List Char) : List UInt8 := cs.map fun c => UInt8.ofNat c.toNat

/-- At least `width` digits, with zeros in front. -/
def decimal (width n : ℕ) : List UInt8 :=
  List.replicate (width - (Nat.digits 10 n).length) 48 ++
    (Nat.digits 10 n).reverse.map fun d => UInt8.ofNat (48 + d)

def sign (n : ℤ) (positive : List UInt8) : List UInt8 := if n < 0 then ascii ['-'] else positive

/-- `%a`; a number that is no weekday gives a question mark. -/
def weekday (wday : ℕ) : List UInt8 :=
  ascii ([['S', 'u', 'n'], ['M', 'o', 'n'], ['T', 'u', 'e'], ['W', 'e', 'd'], ['T', 'h', 'u'],
    ['F', 'r', 'i'], ['S', 'a', 't']].getD wday ['?'])

/-- `%b`. -/
def month (mon : ℕ) : List UInt8 :=
  ascii ([['J', 'a', 'n'], ['F', 'e', 'b'], ['M', 'a', 'r'], ['A', 'p', 'r'], ['M', 'a', 'y'],
    ['J', 'u', 'n'], ['J', 'u', 'l'], ['A', 'u', 'g'], ['S', 'e', 'p'], ['O', 'c', 't'],
    ['N', 'o', 'v'], ['D', 'e', 'c']].getD mon ['?'])

/-- `timestamp:%a, %d %b %Y %H:%M:%S %z` without the newline behind it. -/
def timestampText (tm : Tm) : List UInt8 :=
  let year := tm.year + 1900
  let minutes := tm.gmtoff.natAbs / 60
  ascii ['t', 'i', 'm', 'e', 's', 't', 'a', 'm', 'p', ':'] ++ weekday tm.wday ++ ascii [',', ' '] ++
    decimal 2 tm.mday ++ ascii [' '] ++ month tm.mon ++ ascii [' '] ++
    sign year [] ++ decimal 1 year.natAbs ++ ascii [' '] ++
    decimal 2 tm.hour ++ ascii [':'] ++ decimal 2 tm.min ++ ascii [':'] ++ decimal 2 tm.sec ++
    ascii [' '] ++ sign tm.gmtoff (ascii ['+']) ++ decimal 4 (minutes / 60 * 100 + minutes % 60)

/-- `strftime` stores the text and a null byte if both fit into the buffer. Otherwise
what stands in it is not known. -/
def strftime (buffer text unknown : List UInt8) : List UInt8 :=
  if text.length < buffer.length then text ++ 0 :: buffer.drop (text.length + 1) else unknown

/-- The string in a buffer, without its null byte. -/
def cString (buffer : List UInt8) : List UInt8 := buffer.takeWhile (· ≠ 0)

/-! ### One line -/

/-- No null byte and no newline. -/
def Plain (l : List UInt8) : Prop := ∀ b ∈ l, b ≠ 0 ∧ b ≠ newline

instance (l : List UInt8) : Decidable (Plain l) := List.decidableBAll _ l

theorem plain_append {l r : List UInt8} : Plain (l ++ r) ↔ Plain l ∧ Plain r := by
  simp only [Plain, List.mem_append]
  exact ⟨fun h => ⟨fun b hb => h b (.inl hb), fun b hb => h b (.inr hb)⟩,
    fun h b hb => hb.elim (h.1 b) (h.2 b)⟩

theorem plain_decimal (width n : ℕ) : Plain (decimal width n) := by
  refine plain_append.mpr ⟨fun b hb => ?_, fun b hb => ?_⟩
  · rw [List.eq_of_mem_replicate hb]
    decide
  · obtain ⟨d, hd, rfl⟩ := List.mem_map.mp hb
    have hlt : d < 10 := Nat.digits_lt_base (by decide) (List.mem_reverse.mp hd)
    interval_cases d <;> decide

theorem length_decimal_le {width k n : ℕ} (hw : width ≤ k) (h : n < 10 ^ k) :
    (decimal width n).length ≤ k := by
  have hle := (Nat.digits_length_le_iff (b := 10) (by decide) n).mpr h
  simp only [decimal, List.length_append, List.length_replicate, List.length_map, List.length_reverse]
  omega

theorem plain_sign (n : ℤ) {positive : List UInt8} (h : Plain positive) : Plain (sign n positive) := by
  rw [sign]
  split_ifs
  · decide
  · exact h

theorem length_sign_le (n : ℤ) {positive : List UInt8} (h : positive.length ≤ 1) :
    (sign n positive).length ≤ 1 := by
  rw [sign]
  split_ifs
  · decide
  · exact h

theorem plain_weekday {wday : ℕ} (h : wday < 7) : Plain (weekday wday) ∧ (weekday wday).length = 3 := by
  interval_cases wday <;> decide

theorem plain_month {mon : ℕ} (h : mon < 12) : Plain (month mon) ∧ (month mon).length = 3 := by
  interval_cases mon <;> decide

theorem plain_timestampText (tm : Tm) : Plain (timestampText tm) := by
  unfold timestampText
  simp only [plain_append, plain_decimal, (plain_weekday tm.wday_lt).1,
    (plain_month tm.mon_lt).1, plain_sign _ (show Plain [] by decide),
    plain_sign _ (show Plain (ascii ['+']) by decide), and_true]
  decide

theorem length_timestampText_le (tm : Tm) : (timestampText tm).length ≤ 48 := by
  have hyear : (tm.year + 1900).natAbs < 10 ^ 10 := by
    have := tm.year_int
    omega
  have hoff : tm.gmtoff.natAbs / 60 / 60 * 100 + tm.gmtoff.natAbs / 60 % 60 < 10 ^ 4 := by
    have := tm.gmtoff_lt
    omega
  have h1 := length_decimal_le (le_refl 2) (show tm.mday < 10 ^ 2 by have := tm.mday_le; omega)
  have h2 := length_decimal_le (le_refl 2) (show tm.hour < 10 ^ 2 by have := tm.hour_lt; omega)
  have h3 := length_decimal_le (le_refl 2) (show tm.min < 10 ^ 2 by have := tm.min_lt; omega)
  have h4 := length_decimal_le (le_refl 2) (show tm.sec < 10 ^ 2 by have := tm.sec_le; omega)
  have h5 := length_decimal_le (show 1 ≤ 10 by decide) hyear
  have h6 := length_decimal_le (le_refl 4) hoff
  have h7 : (sign (tm.year + 1900) []).length ≤ 1 := length_sign_le _ (by decide)
  have h8 : (sign tm.gmtoff (ascii ['+'])).length ≤ 1 := length_sign_le _ (by decide)
  unfold timestampText
  simp only [List.length_append, (plain_weekday tm.wday_lt).2, (plain_month tm.mon_lt).2,
    ascii, List.length_map, List.length_cons, List.length_nil] at h8 ⊢
  omega

theorem cString_append {text : List UInt8} (h : 0 ∉ text) (rest : List UInt8) :
    cString (text ++ 0 :: rest) = text := by
  induction text with
  | nil => rfl
  | cons b text ih =>
    rw [List.mem_cons, not_or] at h
    have ih := ih h.2
    rw [cString] at ih ⊢
    rw [List.cons_append, List.takeWhile_cons_of_pos (by simpa using Ne.symm h.1), ih]

/-- For every local time and whatever stands in the buffer before, the record is the
formatted time with a newline behind it. -/
theorem cString_strftime {timestamp : List UInt8} (h : timestamp.length = 100) (unknown : List UInt8)
    (tm : Tm) :
    cString (strftime timestamp (timestampText tm ++ [newline]) unknown) = timestampText tm ++ [newline] ∧
      (strftime timestamp (timestampText tm ++ [newline]) unknown).length = 100 := by
  have hlen := length_timestampText_le tm
  have hnull : 0 ∉ timestampText tm ++ [newline] := fun h0 => by
    rcases List.mem_append.mp h0 with h0 | h0
    · exact (plain_timestampText tm 0 h0).1 rfl
    · exact absurd (List.mem_singleton.mp h0) (by decide)
  rw [strftime, if_pos (by simp; omega)]
  refine ⟨cString_append hnull _, ?_⟩
  simp only [List.length_append, List.length_cons, List.length_nil, List.length_drop]
  omega

theorem isSegment_timestamp (tm : Tm) : IsSegment isNewline (timestampText tm ++ [newline]) :=
  ⟨_, _, rfl, fun b hb => by simpa [isNewline] using (plain_timestampText tm b hb).2, rfl⟩

end Aesd.Server
