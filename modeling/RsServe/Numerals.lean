import Mathlib.Algebra.Order.Ring.Int
import RsServe.CString

/-! Whole numbers in text, as `%d` prints and reads them. -/

namespace RsServe.Numerals
open CString

def IsDigit (c : UInt8) : Prop := 48 ≤ c ∧ c ≤ 57

instance (c : UInt8) : Decidable (IsDigit c) := inferInstanceAs (Decidable (_ ∧ _))

def digitsValue : Nat → Bytes → Nat
  | value, [] => value
  | value, c :: text =>
    if IsDigit c then digitsValue (10 * value + (c.toNat - 48)) text else value

def scanDigits : Bytes → Option Nat
  | [] => none
  | c :: text => if IsDigit c then some (digitsValue 0 (c :: text)) else none

def isSpace (c : UInt8) : Bool := c == 32 || (9 ≤ c && c ≤ 13)

def minus : UInt8 := 45
def plus : UInt8 := 43

/-- What `%d` reads, whatever an int holds; none where there is no number. -/
def scanInt (text : Bytes) : Option ℤ :=
  let rest := text.dropWhile isSpace
  if rest.head? = some minus then (scanDigits rest.tail).map fun value => -Int.ofNat value
  else if rest.head? = some plus then (scanDigits rest.tail).map Int.ofNat
  else (scanDigits rest).map Int.ofNat

/-- strtol stops at the ends of a long. -/
def strtol (text : Bytes) : ℤ := max (-2 ^ 63) (min (2 ^ 63 - 1) ((scanInt text).getD 0))

/-- The long is cut to an int. -/
def atoi (text : Bytes) : ℤ := (strtol text).bmod (2 ^ 32)

def printInt : ℤ → Bytes
  | .ofNat n => decimal n
  | .negSucc n => minus :: decimal (n + 1)

theorem toUInt8_digit {c : Char} (h : c.isDigit) :
    IsDigit c.toNat.toUInt8 ∧ c.toNat.toUInt8.toNat = c.toNat := by
  have range : 48 ≤ c.toNat ∧ c.toNat ≤ 57 := by
    simpa [Char.isDigit, UInt32.le_iff_toNat_le] using h
  have same : c.toNat.toUInt8.toNat = c.toNat := by
    rw [Nat.toUInt8, UInt8.toNat_ofNat']
    omega
  refine ⟨⟨UInt8.le_iff_toNat_le.2 ?_, UInt8.le_iff_toNat_le.2 ?_⟩, same⟩
  · rw [same]
    exact range.1
  · rw [same]
    exact range.2

theorem isDigit_toDigits (n : Nat) : ∀ c ∈ Nat.toDigits 10 n, c.isDigit := fun _ =>
  Nat.isDigit_of_mem_toDigits (by decide) (by decide)

theorem digitsValue_digits (digits : List Char) (h : ∀ c ∈ digits, c.isDigit) (value : Nat) :
    digitsValue value (digits.map fun c => c.toNat.toUInt8) = Nat.ofDigitChars 10 digits value := by
  induction digits generalizing value with
  | nil => rfl
  | cons c digits ih =>
    obtain ⟨digit, same⟩ := toUInt8_digit (h c (by simp))
    rw [List.map_cons, digitsValue, if_pos digit, same, ih (fun d hd => h d (by simp [hd])),
      Nat.ofDigitChars_cons]
    rfl

theorem digitsValue_decimal (n : Nat) : digitsValue 0 (decimal n) = n := by
  rw [decimal, digitsValue_digits _ (isDigit_toDigits n), Nat.ofDigitChars_ten_toDigits]

theorem decimal_eq_cons (n : Nat) : ∃ c rest, decimal n = c :: rest ∧ IsDigit c := by
  cases htext : Nat.toDigits 10 n with
  | nil => exact absurd htext Nat.toDigits_ne_nil
  | cons c rest =>
    have digit := (toUInt8_digit (isDigit_toDigits n c (by simp [htext]))).1
    exact ⟨c.toNat.toUInt8, rest.map fun c => c.toNat.toUInt8, by rw [decimal, htext]; rfl, digit⟩

theorem scanDigits_decimal (n : Nat) : scanDigits (decimal n) = some n := by
  obtain ⟨c, rest, htext, digit⟩ := decimal_eq_cons n
  rw [htext, scanDigits, if_pos digit, ← htext, digitsValue_decimal]

theorem scanInt_printInt (n : ℤ) : scanInt (printInt n) = some n := by
  cases n with
  | ofNat n =>
    obtain ⟨c, rest, htext, digit⟩ := decimal_eq_cons n
    have plain : isSpace c = false ∧ c ≠ minus ∧ c ≠ plus := by
      unfold isSpace minus plus IsDigit at *
      grind
    have kept : (decimal n).dropWhile isSpace = decimal n := by
      rw [htext, List.dropWhile_cons, plain.1]
      rfl
    rw [printInt, scanInt, kept]
    simp only [htext, List.head?_cons, Option.some_inj, plain.2.1, plain.2.2, if_false]
    rw [← htext, scanDigits_decimal, Option.map_some]
  | negSucc n =>
    have kept : (minus :: decimal (n + 1)).dropWhile isSpace = minus :: decimal (n + 1) := rfl
    rw [printInt, scanInt, kept]
    simp only [List.head?_cons, if_true, List.tail_cons]
    rw [scanDigits_decimal, Option.map_some]
    rfl

end RsServe.Numerals
