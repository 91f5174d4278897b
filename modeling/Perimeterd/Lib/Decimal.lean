import Perimeterd.Lib.Json

/-!
# Integers in JSON

The decimal text of an integer is a JSON number, and reading it gives the integer back.
-/

namespace Lib.Json

open List

def digitByte (d : Nat) : UInt8 := UInt8.ofNat (0x30 + d)

def decimalNat (n : Nat) : Bytes :=
  if n = 0 then [0x30] else (Nat.digits 10 n).reverse.map digitByte

def decimalText (z : Int) : Bytes :=
  if z < 0 then 0x2D :: decimalNat z.natAbs else decimalNat z.natAbs

def parseNat (s : Bytes) : Option Nat :=
  if s ≠ [] ∧ s.all digit then some (s.foldl (fun n a => n * 10 + (a.toNat - 0x30)) 0) else none

/-- `strconv.ParseInt` of a number's text: no fraction and no exponent. -/
def parseInt : Bytes → Option Int
  | [] => none
  | a :: rest =>
      if a = 0x2D then (parseNat rest).map fun n : Nat => -(n : Int)
      else (parseNat (a :: rest)).map fun n : Nat => (n : Int)

/-- `strconv.Atoi`: a number that may carry a sign, and of 64 bits. -/
def atoi (s : Bytes) : Option Int :=
  let value := match s with
    | 0x2B :: rest => (parseNat rest).map fun n : Nat => (n : Int)
    | s => parseInt s
  value.filter fun z => -2 ^ 63 ≤ z ∧ z < 2 ^ 63

theorem digitByte_toNat {d : Nat} (h : d < 10) : (digitByte d).toNat = 0x30 + d := by
  rw [digitByte, UInt8.toNat_ofNat_of_lt']
  exact Nat.lt_trans (Nat.add_lt_add_left h 0x30) (by decide)

theorem digit_digitByte {d : Nat} (h : d < 10) : digit (digitByte d) = true := by
  have hd := digitByte_toNat h
  simp only [digit, Bool.and_eq_true, decide_eq_true_eq, UInt8.le_iff_toNat_le, hd]
  exact ⟨Nat.le_add_right _ _, Nat.add_le_add_left (Nat.le_of_lt_succ h) 0x30⟩

theorem decimalNat_digits (n : Nat) : (decimalNat n).all digit = true := by
  unfold decimalNat
  split
  · rfl
  · simp only [all_map, all_eq_true, mem_reverse]
    intro d hd
    exact digit_digitByte (Nat.digits_lt_base (by decide) hd)

theorem decimalNat_ne_nil (n : Nat) : decimalNat n ≠ [] := by
  unfold decimalNat
  split
  · simp
  case isFalse h => simpa using Nat.digits_ne_nil_iff_ne_zero.mpr h

theorem foldl_digits (ds : List Nat) (h : ∀ d ∈ ds, d < 10) :
    (ds.reverse.map digitByte).foldl (fun n a => n * 10 + (a.toNat - 0x30)) 0 =
      Nat.ofDigits 10 ds := by
  induction ds with
  | nil => rfl
  | cons d ds ih =>
    have hd : (digitByte d).toNat - 0x30 = d := by
      rw [digitByte_toNat (h d mem_cons_self)]
      omega
    rw [reverse_cons, map_append, foldl_append,
      ih fun e he => h e (mem_cons_of_mem _ he), Nat.ofDigits_cons]
    simp only [map_cons, map_nil, foldl_cons, foldl_nil, hd]
    omega

theorem parseNat_decimalNat (n : Nat) : parseNat (decimalNat n) = some n := by
  rw [parseNat, if_pos ⟨decimalNat_ne_nil n, decimalNat_digits n⟩, decimalNat]
  split
  case isTrue h => rw [h]; rfl
  case isFalse =>
    rw [foldl_digits _ fun d hd => Nat.digits_lt_base (by decide) hd, Nat.ofDigits_digits]

theorem digit_first {a : UInt8} (h : digit a = true) : a ≠ 0x2D := by
  rintro rfl
  cases h

theorem parseInt_decimalText (z : Int) : parseInt (decimalText z) = some z := by
  unfold decimalText
  split
  case isTrue h =>
    rw [parseInt, if_pos rfl, parseNat_decimalNat, Option.map_some]
    congr 1
    omega
  case isFalse h =>
    obtain ⟨a, rest, hrest⟩ := exists_cons_of_ne_nil (decimalNat_ne_nil z.natAbs)
    have hal := decimalNat_digits z.natAbs
    rw [hrest, all_cons, Bool.and_eq_true] at hal
    rw [hrest, parseInt, if_neg (digit_first hal.1), ← hrest, parseNat_decimalNat, Option.map_some]
    congr 1
    omega

theorem atoi_decimalNat {n : Nat} (h : n < 2 ^ 63) : atoi (decimalNat n) = some (n : Int) := by
  have hp : parseInt (decimalNat n) = some (n : Int) := parseInt_decimalText (n : Int)
  obtain ⟨a, rest, hrest⟩ := exists_cons_of_ne_nil (decimalNat_ne_nil n)
  have hal := decimalNat_digits n
  rw [hrest, all_cons, Bool.and_eq_true] at hal
  unfold atoi
  split
  case h_1 heq =>
    rw [hrest, cons.injEq] at heq
    rw [heq.1] at hal
    cases hal.1
  case h_2 =>
    rw [hp, Option.filter_some, if_pos (by simp; omega)]

/-! ## The text is a number -/

theorem digit_numeric {a : UInt8} (h : digit a = true) : numeric a = true := by
  unfold digit at h
  unfold numeric
  rw [h]
  rfl

theorem numeric_decimalText (z : Int) : (decimalText z).all numeric = true := by
  have hal : (decimalNat z.natAbs).all numeric = true := by
    rw [all_eq_true]
    exact fun a ha => digit_numeric (all_eq_true.mp (decimalNat_digits z.natAbs) a ha)
  unfold decimalText
  split
  · rw [all_cons, hal]
    rfl
  · exact hal

theorem integerPart_decimalNat (n : Nat) : integerPart (decimalNat n) = some [] := by
  by_cases hn : n = 0
  · rw [hn]
    rfl
  obtain ⟨a, rest, hrest⟩ := exists_cons_of_ne_nil (decimalNat_ne_nil n)
  have hal := decimalNat_digits n
  rw [hrest, all_cons, Bool.and_eq_true] at hal
  have hz : a ≠ 0x30 := by
    have hl := Nat.getLast_digit_ne_zero 10 hn
    have hne : Nat.digits 10 n ≠ [] := Nat.digits_ne_nil_iff_ne_zero.mpr hn
    have hh : (decimalNat n).head? = some (digitByte ((Nat.digits 10 n).getLast hne)) := by
      rw [decimalNat, if_neg hn, List.head?_map, List.head?_reverse, List.getLast?_eq_getLast_of_ne_nil hne]
      rfl
    rw [hrest, List.head?_cons, Option.some.injEq] at hh
    intro ha
    have hvalue := digitByte_toNat (Nat.digits_lt_base (b := 10) (by decide) (getLast_mem hne))
    rw [← hh, ha] at hvalue
    have : (0x30 : UInt8).toNat = 0x30 := rfl
    omega
  have hd : rest.dropWhile digit = [] :=
    dropWhile_eq_nil_iff.mpr fun b hb => all_eq_true.mp hal.2 b hb
  rw [hrest, integerPart, if_neg hz, if_pos hal.1, hd]

theorem isNumber_decimalText (z : Int) : isNumber (decimalText z) = true := by
  unfold decimalText
  split
  · simp only [isNumber, integerPart_decimalNat]
    rfl
  · obtain ⟨a, rest, hrest⟩ := exists_cons_of_ne_nil (decimalNat_ne_nil z.natAbs)
    have hal := decimalNat_digits z.natAbs
    have hin := integerPart_decimalNat z.natAbs
    rw [hrest, all_cons, Bool.and_eq_true] at hal
    rw [hrest] at hin ⊢
    unfold isNumber
    split
    case h_1 heq => exact absurd (List.cons.inj heq).1 (digit_first hal.1)
    case h_2 =>
      simp only [hin]
      rfl

def decimal (z : Int) : Number :=
  ⟨decimalText z, by rw [numeric_decimalText, isNumber_decimalText]; rfl⟩

end Lib.Json
