/-
Aesd.Library.Strftime — `strftime` in the C locale.

A format is read as its conversions, and the text of a time is what they
write one after the other. All of them but `%Y` write as many bytes for every
time. So where a format has one `%Y`, two times with one text agree on all
that its conversions show (`field_eq_of_strftime_eq`).
-/
import Mathlib.Data.Nat.Digits.Lemmas
import Aesd.Library.Scanf

namespace Strftime

open Scanf (decimal digitValue digitValue_ofNat)

/-! ## Times -/

/-- `struct tm`, as far as the conversions below read it. -/
structure Tm where
  /-- With a leap second. -/
  sec : Fin 61
  min : Fin 60
  hour : Fin 24
  mday : Fin 32
  mon : Fin 12
  /-- `tm_year`, but counted from the year 0. -/
  year : Nat
  wday : Fin 7
  /-- Seconds east of UTC. -/
  gmtoff : Int
  year_lt : year < 10 ^ 10
  gmtoff_lt : gmtoff.natAbs < 360000

/-- The bytes of a string of ASCII characters. -/
def ascii (s : String) : List UInt8 := s.toList.map fun c => UInt8.ofNat c.toNat

def dayName (wday : Fin 7) : List UInt8 :=
  match wday with
  | 0 => ascii "Sun"
  | 1 => ascii "Mon"
  | 2 => ascii "Tue"
  | 3 => ascii "Wed"
  | 4 => ascii "Thu"
  | 5 => ascii "Fri"
  | 6 => ascii "Sat"

def monthName (mon : Fin 12) : List UInt8 :=
  match mon with
  | 0 => ascii "Jan"
  | 1 => ascii "Feb"
  | 2 => ascii "Mar"
  | 3 => ascii "Apr"
  | 4 => ascii "May"
  | 5 => ascii "Jun"
  | 6 => ascii "Jul"
  | 7 => ascii "Aug"
  | 8 => ascii "Sep"
  | 9 => ascii "Oct"
  | 10 => ascii "Nov"
  | 11 => ascii "Dec"

def twoDigits (n : Nat) : List UInt8 :=
  [UInt8.ofNat (48 + n / 10), UInt8.ofNat (48 + n % 10)]

/-! ## Formats -/

inductive Conversion where
  | literal (b : UInt8)
  /-- `%a` -/
  | dayName
  /-- `%d` -/
  | day
  /-- `%b` -/
  | monthName
  /-- `%Y` -/
  | year
  /-- `%T` -/
  | time
  /-- `%z` -/
  | zone
  deriving DecidableEq

/-- None for a conversion that is not among these. -/
def Conversion.ofChar : Char → Option Conversion
  | 'a' => some .dayName
  | 'd' => some .day
  | 'b' => some .monthName
  | 'Y' => some .year
  | 'T' => some .time
  | 'z' => some .zone
  | _ => none

def conversions : List Char → Option (List Conversion)
  | [] => some []
  | '%' :: c :: format => do return (← Conversion.ofChar c) :: (← conversions format)
  | c :: format => do return .literal (UInt8.ofNat c.toNat) :: (← conversions format)

/-- What a conversion writes. -/
def Conversion.field (tm : Tm) : Conversion → List UInt8
  | .literal b => [b]
  | .dayName => Strftime.dayName tm.wday
  | .day => twoDigits tm.mday
  | .monthName => Strftime.monthName tm.mon
  | .year => decimal tm.year
  | .time => twoDigits tm.hour ++ 58 :: twoDigits tm.min ++ 58 :: twoDigits tm.sec
  | .zone => (if tm.gmtoff < 0 then 45 else 43) ::
      twoDigits (tm.gmtoff.natAbs / 3600) ++ twoDigits (tm.gmtoff.natAbs / 60 % 60)

/-- The text of `tm`; none if it and its NUL do not fit into `max` bytes. -/
def strftime (max : Nat) (format : String) (tm : Tm) : Option (List UInt8) := do
  let text := (← conversions format.toList).flatMap (Conversion.field tm)
  if text.length < max then some text else none

/-! ## Lengths -/

/-- The number of bytes that a conversion writes, at most. -/
def Conversion.width : Conversion → Nat
  | .literal _ => 1
  | .dayName | .monthName => 3
  | .day => 2
  | .year => 10
  | .time => 8
  | .zone => 5

theorem length_decimal_le {n k : Nat} (hk : 0 < k) (h : n < 10 ^ k) : (decimal n).length ≤ k := by
  unfold decimal
  split
  · exact hk
  · rw [List.length_map, List.length_reverse]
    exact (Nat.digits_length_le_iff (by decide) n).mpr h

theorem Conversion.length_field (tm : Tm) {c : Conversion} (h : c ≠ .year) :
    (c.field tm).length = c.width := by
  cases c with
  | year => exact absurd rfl h
  | dayName =>
    have hnames : ∀ wday, (Strftime.dayName wday).length = 3 := by decide
    exact hnames tm.wday
  | monthName =>
    have hnames : ∀ mon, (Strftime.monthName mon).length = 3 := by decide
    exact hnames tm.mon
  | _ => rfl

theorem Conversion.length_field_le (tm : Tm) (c : Conversion) : (c.field tm).length ≤ c.width := by
  by_cases h : c = .year
  · rw [h]
    exact length_decimal_le (by decide) tm.year_lt
  · exact (Conversion.length_field tm h).le

theorem length_flatMap_field_le (tm : Tm) (cs : List Conversion) :
    (cs.flatMap (Conversion.field tm)).length ≤ (cs.map Conversion.width).sum := by
  induction cs with
  | nil => simp
  | cons c cs ih =>
    have hc := c.length_field_le tm
    simp only [List.flatMap_cons, List.length_append, List.map_cons, List.sum_cons]
    omega

/-! ## Bytes -/

theorem lt_of_digitValue {b : UInt8} (h : (digitValue b).isSome = true) : 32 < b := by
  simp only [digitValue, UInt8.le_iff_toNat_le] at h
  rw [UInt8.lt_iff_toNat_lt]
  grind

theorem lt_of_mem_twoDigits {n : Nat} (hn : n < 100) {b : UInt8} (hb : b ∈ twoDigits n) :
    32 < b := by
  simp only [twoDigits, List.mem_cons, List.not_mem_nil, or_false] at hb
  rcases hb with rfl | rfl
  · exact lt_of_digitValue (by rw [digitValue_ofNat (by omega)]; rfl)
  · exact lt_of_digitValue (by rw [digitValue_ofNat (by omega)]; rfl)

/-- Nothing but a literal writes a NUL, a blank or a newline. -/
theorem Conversion.lt_of_mem_field {tm : Tm} {c : Conversion} (hc : ∀ b, c ≠ .literal b) {b : UInt8}
    (hb : b ∈ c.field tm) : 32 < b := by
  cases c with
  | literal b => exact absurd rfl (hc b)
  | dayName =>
    have hnames : ∀ wday, (Strftime.dayName wday).all (32 < ·) := by decide
    exact of_decide_eq_true (List.all_eq_true.mp (hnames tm.wday) b hb)
  | monthName =>
    have hnames : ∀ mon, (Strftime.monthName mon).all (32 < ·) := by decide
    exact of_decide_eq_true (List.all_eq_true.mp (hnames tm.mon) b hb)
  | day => exact lt_of_mem_twoDigits (by omega) hb
  | year => exact lt_of_digitValue (Scanf.isSome_of_mem_decimal hb)
  | time =>
    simp only [Conversion.field, List.mem_append, List.mem_cons] at hb
    rcases hb with (hb | rfl | hb) | rfl | hb
    · exact lt_of_mem_twoDigits (by omega) hb
    · decide
    · exact lt_of_mem_twoDigits (by omega) hb
    · decide
    · exact lt_of_mem_twoDigits (by omega) hb
  | zone =>
    have hoff := tm.gmtoff_lt
    simp only [Conversion.field, List.cons_append, List.mem_append, List.mem_cons] at hb
    rcases hb with rfl | hb | hb
    · split <;> decide
    · exact lt_of_mem_twoDigits (by omega) hb
    · exact lt_of_mem_twoDigits (by omega) hb

/-! ## Telling times apart -/

/-- Two texts of one format are split in the same places. -/
theorem field_eq_of_append_eq {tm tm' : Tm} {cs : List Conversion} (hcs : .year ∉ cs)
    {s s' : List UInt8}
    (h : cs.flatMap (Conversion.field tm) ++ s = cs.flatMap (Conversion.field tm') ++ s') :
    (∀ c ∈ cs, c.field tm = c.field tm') ∧ s = s' := by
  induction cs with
  | nil => simpa using h
  | cons c cs ih =>
    obtain ⟨hc, hcs⟩ := List.ne_and_not_mem_of_not_mem_cons hcs
    simp only [List.flatMap_cons, List.append_assoc] at h
    have hlength : (c.field tm).length = (c.field tm').length := by
      rw [Conversion.length_field tm hc.symm, Conversion.length_field tm' hc.symm]
    obtain ⟨hfield, hrest⟩ := List.append_inj h hlength
    obtain ⟨hfields, hs⟩ := ih hcs hrest
    exact ⟨fun d hd => (List.mem_cons.mp hd).elim (fun he => he ▸ hfield) (hfields d), hs⟩

theorem length_fixed_eq (tm tm' : Tm) {cs : List Conversion} (hcs : .year ∉ cs) :
    (cs.flatMap (Conversion.field tm)).length = (cs.flatMap (Conversion.field tm')).length := by
  induction cs with
  | nil => rfl
  | cons c cs ih =>
    obtain ⟨hc, hcs⟩ := List.ne_and_not_mem_of_not_mem_cons hcs
    rw [List.flatMap_cons, List.flatMap_cons, List.length_append, List.length_append, ih hcs,
      Conversion.length_field tm hc.symm, Conversion.length_field tm' hc.symm]

/-- **One text, one time**, as far as the conversions of the format show. -/
theorem field_eq_of_text_eq {tm tm' : Tm} {before after : List Conversion}
    (hbefore : .year ∉ before) (hafter : .year ∉ after)
    (h : (before ++ .year :: after).flatMap (Conversion.field tm)
      = (before ++ .year :: after).flatMap (Conversion.field tm')) :
    ∀ c ∈ before ++ .year :: after, c.field tm = c.field tm' := by
  simp only [List.flatMap_append, List.flatMap_cons] at h
  obtain ⟨hfront, hrest⟩ := field_eq_of_append_eq hbefore h
  obtain ⟨hyear, hback⟩ := List.append_inj' hrest (length_fixed_eq tm tm' hafter)
  have hback := field_eq_of_append_eq hafter (congrArg (· ++ []) hback)
  intro c hc
  rcases List.mem_append.mp hc with hc | hc
  · exact hfront c hc
  · exact (List.mem_cons.mp hc).elim (fun he => he ▸ hyear) (hback.1 c)

theorem twoDigits_inj {n n' : Nat} (hn : n < 100) (hn' : n' < 100)
    (h : twoDigits n = twoDigits n') : n = n' := by
  simp only [twoDigits, List.cons.injEq, and_true] at h
  have hdigit : ∀ {d d' : Nat}, d < 10 → d' < 10 →
      UInt8.ofNat (48 + d) = UInt8.ofNat (48 + d') → d = d' := by
    intro d d' hd hd' he
    have := congrArg digitValue he
    rw [digitValue_ofNat hd, digitValue_ofNat hd'] at this
    exact Option.some.inj this
  have htens := hdigit (by omega) (by omega) h.1
  have hones := hdigit (by omega) (by omega) h.2
  omega

theorem decimal_inj {n n' : Nat} (h : decimal n = decimal n') : n = n' := by
  have hread : ∀ n, Scanf.numberOf 10 (decimal n) = n := by
    intro n
    unfold decimal
    split
    · rename_i hn
      rw [hn]
      rfl
    · rw [Scanf.numberOf_digits fun d hd => Nat.digits_lt_base (by decide) hd, Nat.ofDigits_digits]
  rw [← hread n, h, hread n']

/-- The times differ at most in what `%a`, `%d`, `%b`, `%Y`, `%T` and `%z` do
not show, the seconds of the zone. -/
structure Tm.SameReading (tm tm' : Tm) : Prop where
  sec : tm.sec = tm'.sec
  min : tm.min = tm'.min
  hour : tm.hour = tm'.hour
  mday : tm.mday = tm'.mday
  mon : tm.mon = tm'.mon
  year : tm.year = tm'.year
  wday : tm.wday = tm'.wday
  west : tm.gmtoff < 0 ↔ tm'.gmtoff < 0
  zone : tm.gmtoff.natAbs / 60 = tm'.gmtoff.natAbs / 60

theorem Tm.SameReading.field_eq {tm tm' : Tm} (h : tm.SameReading tm') (c : Conversion) :
    c.field tm = c.field tm' := by
  have hhours : tm.gmtoff.natAbs / 3600 = tm'.gmtoff.natAbs / 3600 := by
    have := h.zone
    omega
  cases c <;> simp [Conversion.field, h.sec, h.min, h.hour, h.mday, h.mon, h.year, h.wday, h.west,
    h.zone, hhours]

theorem sameReading_of_fields {tm tm' : Tm}
    (h : ∀ c ∈ [.dayName, .day, .monthName, .year, .time, .zone],
      Conversion.field tm c = Conversion.field tm' c) : tm.SameReading tm' := by
  have htime := List.append_inj (h .time (by simp)) rfl
  have hhour := List.append_inj htime.1 rfl
  have hzone := List.append_inj (h .zone (by simp)) rfl
  simp only [List.cons.injEq, true_and] at htime hhour hzone
  have hdays : ∀ d d', Strftime.dayName d = Strftime.dayName d' → d = d' := by decide
  have hmonths : ∀ m m', Strftime.monthName m = Strftime.monthName m' → m = m' := by decide
  have hoff := tm.gmtoff_lt
  have hoff' := tm'.gmtoff_lt
  have hhours := twoDigits_inj (by omega) (by omega) hzone.1.2
  have hmins := twoDigits_inj (by omega) (by omega) hzone.2
  exact {
    sec := Fin.ext (twoDigits_inj (by omega) (by omega) htime.2)
    min := Fin.ext (twoDigits_inj (by omega) (by omega) hhour.2)
    hour := Fin.ext (twoDigits_inj (by omega) (by omega) hhour.1)
    mday := Fin.ext (twoDigits_inj (by omega) (by omega) (h .day (by simp)))
    mon := hmonths _ _ (h .monthName (by simp))
    year := decimal_inj (h .year (by simp))
    wday := hdays _ _ (h .dayName (by simp))
    west := by grind
    zone := by omega }

end Strftime
