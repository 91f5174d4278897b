import Perimeterd.Lib.Utf8

/-!
# JSON texts

Trees, their printing and their parsing, byte by byte, with the conventions of Go's `encoding/json`:
the printer escapes what HTML would take for markup, and both printer and parser put U+FFFD in the
place of every byte that belongs to no character. The printer writes the three bytes of U+FFFD
itself, as Go does since its `encoding/json` is built on version 2 of the package; before, it wrote
the six bytes of its escape, which the parser took for the same character.

Strings are byte strings and may be anything. **Parsing what was printed gives the tree with every
string replaced by its valid form** (`parse_print`), and **that tree prints like the one it was made
of** (`print_coerced`). Together they say that text which went through printing and parsing once is
stable: a file can be compared with what its own contents print as.
-/

namespace Lib

open Utf8 List

/-! ## Strings -/

namespace Json

/-- `"`. -/
abbrev quotation : UInt8 := 0x22

/-- `\`. -/
abbrev backslash : UInt8 := 0x5C

def hexDigit (n : UInt8) : UInt8 := if n < 10 then 0x30 + n else 0x57 + n

/-- A character below U+0080 as the printer writes it. -/
def quoteByte (a : UInt8) : Bytes :=
  if a = quotation ∨ a = backslash then [backslash, a]
  else if a = 0x08 then ascii "\\b"
  else if a = 0x0C then ascii "\\f"
  else if a = 0x0A then ascii "\\n"
  else if a = 0x0D then ascii "\\r"
  else if a = 0x09 then ascii "\\t"
  else if a < 0x20 ∨ a = 0x3C ∨ a = 0x3E ∨ a = 0x26 then
    ascii "\\u00" ++ [hexDigit (a >>> 4), hexDigit (a &&& 0xF)]
  else [a]

/-- U+2028 and U+2029 end a line in JavaScript and are escaped; every longer character is copied. -/
def quoteRune (r : Rune) : Bytes :=
  match r.bytes with
  | [a] => quoteByte a
  | bytes =>
      if bytes = [0xE2, 0x80, 0xA8] then ascii "\\u2028"
      else if bytes = [0xE2, 0x80, 0xA9] then ascii "\\u2029"
      else bytes

def quoteChunk : Chunk → Bytes
  | .rune r => quoteRune r
  | .bad _ => Rune.replacement.bytes

/-- A string between its quotation marks. -/
def quote (s : Bytes) : Bytes := quotation :: ((split s).flatMap quoteChunk ++ [quotation])

/-- The value of a hexadecimal digit of either case. -/
def hexValue (a : UInt8) : Option Nat :=
  if 0x30 ≤ a ∧ a ≤ 0x39 then some (a.toNat - 0x30)
  else if 0x61 ≤ a ∧ a ≤ 0x66 then some (a.toNat - 0x57)
  else if 0x41 ≤ a ∧ a ≤ 0x46 then some (a.toNat - 0x37)
  else none

def hexCode (a b c d : UInt8) : Option Nat := do
  let a ← hexValue a
  let b ← hexValue b
  let c ← hexValue c
  let d ← hexValue d
  some (((a * 16 + b) * 16 + c) * 16 + d)

def encodeRune (r : Nat) : Bytes :=
  let byte (n : Nat) : UInt8 := UInt8.ofNat n
  if r < 0x80 then [byte r]
  else if r < 0x800 then [byte (0xC0 + r / 64), byte (0x80 + r % 64)]
  else if 0xD800 ≤ r ∧ r < 0xE000 ∨ 0x110000 ≤ r then Rune.replacement.bytes
  else if r < 0x10000 then
    [byte (0xE0 + r / 4096), byte (0x80 + r / 64 % 64), byte (0x80 + r % 64)]
  else
    [byte (0xF0 + r / 262144), byte (0x80 + r / 4096 % 64), byte (0x80 + r / 64 % 64),
      byte (0x80 + r % 64)]

/-- The code unit of a `\u` escape that stands in front. -/
def escapedUnit : Bytes → Option (Nat × Bytes)
  | 0x5C :: 0x75 :: a :: b :: c :: d :: rest => (hexCode a b c d).map (·, rest)
  | _ => none

/-- A code unit, with the one that follows when the two make a surrogate pair. -/
def pairUnits (unit : Nat) (rest : Bytes) : Bytes × Bytes :=
  if 0xD800 ≤ unit ∧ unit < 0xE000 then
    match escapedUnit rest with
    | some (low, rest') =>
        if unit < 0xDC00 ∧ 0xDC00 ≤ low ∧ low < 0xE000 then
          (encodeRune ((unit - 0xD800) * 1024 + (low - 0xDC00) + 0x10000), rest')
        else (Rune.replacement.bytes, rest)
    | none => (Rune.replacement.bytes, rest)
  else (encodeRune unit, rest)

def unitEscape : Bytes → Option (Bytes × Bytes)
  | a :: b :: c :: d :: rest => (hexCode a b c d).map (pairUnits · rest)
  | _ => none

def escape : Bytes → Option (Bytes × Bytes)
  | [] => none
  | a :: rest =>
      if a = quotation ∨ a = backslash ∨ a = 0x2F then some ([a], rest)
      else if a = 0x62 then some ([0x08], rest)
      else if a = 0x66 then some ([0x0C], rest)
      else if a = 0x6E then some ([0x0A], rest)
      else if a = 0x72 then some ([0x0D], rest)
      else if a = 0x74 then some ([0x09], rest)
      else if a = 0x75 then unitEscape rest
      else none

/-- The characters up to the closing quotation mark, and what follows it. -/
def unquote : Nat → Bytes → Option (Bytes × Bytes)
  | 0, _ => none
  | _ + 1, [] => none
  | n + 1, a :: rest =>
      if a = quotation then some ([], rest)
      else if a = backslash then do
        let (u, rest) ← escape rest
        let (s, rest) ← unquote n rest
        some (u ++ s, rest)
      else if a < 0x20 then none
      else do
        let (s, rest') ← unquote n (next a rest).2
        some ((next a rest).1.mend.raw ++ s, rest')

theorem unquote_escape (n : Nat) (t u rest : Bytes) (h : escape t = some (u, rest)) :
    unquote (n + 1) (backslash :: t) = (unquote n rest).map fun r => (u ++ r.1, r.2) := by
  rw [unquote, if_neg (by decide), if_pos rfl, h]
  simp only [Option.bind_eq_bind, Option.bind_some]
  cases unquote n rest <;> rfl

theorem unquote_next (n : Nat) (a : UInt8) (t : Bytes) (hqu : a ≠ quotation)
    (hsl : a ≠ backslash) (hc : ¬ a < 0x20) :
    unquote (n + 1) (a :: t) =
      (unquote n (next a t).2).map fun r => ((next a t).1.mend.raw ++ r.1, r.2) := by
  rw [unquote, if_neg hqu, if_neg hsl, if_neg hc]
  cases unquote n (next a t).2 <;> rfl

theorem hexCode_byte (a : UInt8) (h : a < 0x80) :
    hexCode 0x30 0x30 (hexDigit (a >>> 4)) (hexDigit (a &&& 0xF)) = some a.toNat ∧
      encodeRune a.toNat = [a] := by
  have hal : ∀ n < 128,
      hexCode 0x30 0x30 (hexDigit (UInt8.ofNat n >>> 4)) (hexDigit (UInt8.ofNat n &&& 0xF)) =
        some (UInt8.ofNat n).toNat ∧ encodeRune (UInt8.ofNat n).toNat = [UInt8.ofNat n] := by
    decide +kernel
  simpa using hal a.toNat (UInt8.lt_iff_toNat_lt.mp h)

theorem escape_unit (a b c d : UInt8) (rest : Bytes) (unit : Nat) (h : hexCode a b c d = some unit)
    (hp : unit < 0xD800 ∨ 0xE000 ≤ unit) :
    escape (0x75 :: a :: b :: c :: d :: rest) = some (encodeRune unit, rest) := by
  rw [escape, if_neg (by decide), if_neg (by decide), if_neg (by decide), if_neg (by decide),
    if_neg (by decide), if_neg (by decide), if_pos rfl, unitEscape, h, Option.map_some, pairUnits,
    if_neg (by omega)]

theorem rune_first (r : Rune) (a : UInt8) (rest : Bytes) (h : r.bytes = a :: rest) :
    a < 0x80 ↔ rest = [] := by
  have hw := r.whole
  rw [h] at hw
  constructor
  · intro ha
    simp only [lead, if_pos ha, length_cons] at hw
    exact length_eq_zero_iff.mp (by omega)
  · rintro rfl
    by_contra ha
    simp [lead, ha] at hw

theorem unquote_quoteByte (n : Nat) (r : Rune) (a : UInt8) (h : r.bytes = [a]) (t : Bytes) :
    unquote (n + 1) (quoteByte a ++ t) = (unquote n t).map fun u => (a :: u.1, u.2) := by
  have hl : a < 0x80 := (rune_first r a [] h).mpr rfl
  unfold quoteByte
  split
  case isTrue hse =>
    refine unquote_escape n (a :: t) [a] t ?_
    rw [escape, if_pos (hse.imp_right Or.inl)]
  split
  case isTrue hb => exact hb ▸ unquote_escape n _ [0x08] t rfl
  split
  case isTrue hf => exact hf ▸ unquote_escape n _ [0x0C] t rfl
  split
  case isTrue hn => exact hn ▸ unquote_escape n _ [0x0A] t rfl
  split
  case isTrue hr => exact hr ▸ unquote_escape n _ [0x0D] t rfl
  split
  case isTrue ht => exact ht ▸ unquote_escape n _ [0x09] t rfl
  split
  case isTrue =>
    obtain ⟨hco, hru⟩ := hexCode_byte a hl
    have hsm : a.toNat < 0xD800 := Nat.lt_trans (UInt8.lt_iff_toNat_lt.mp hl) (by decide)
    refine unquote_escape n _ [a] t ?_
    rw [← hru]
    exact escape_unit _ _ _ _ t _ hco (Or.inl hsm)
  case isFalse hse _ _ _ _ _ hc =>
    rw [not_or] at hse hc
    have hne : next a t = (.rune r, t) := next_rune r t a t (by rw [h]; rfl)
    rw [singleton_append, unquote_next n a t hse.1 hse.2 hc.1, hne]
    simp [Chunk.mend, Chunk.raw, h]

theorem unquote_quoteRune (n : Nat) (r : Rune) (t : Bytes) :
    unquote (n + 1) (quoteRune r ++ t) = (unquote n t).map fun u => (r.bytes ++ u.1, u.2) := by
  unfold quoteRune
  split
  case h_1 a ha =>
    rw [ha]
    exact unquote_quoteByte n r a ha t
  case h_2 hl =>
    split
    case isTrue h => exact h ▸ unquote_escape n _ _ t (escape_unit 0x32 0x30 0x32 0x38 t 0x2028 rfl (by decide))
    split
    case isTrue h => exact h ▸ unquote_escape n _ _ t (escape_unit 0x32 0x30 0x32 0x39 t 0x2029 rfl (by decide))
    -- A longer character has no byte below 0x80, so the parser takes it whole.
    obtain ⟨a, rest, hbytes⟩ := exists_cons_of_ne_nil r.nonempty
    have hh : ¬ a < 0x80 := by
      intro ha
      rw [(rune_first r a rest hbytes).mp ha] at hbytes
      exact hl a hbytes
    have hne : next a (rest ++ t) = (.rune r, t) := next_rune r t a (rest ++ t) (by rw [hbytes]; rfl)
    rw [hbytes, cons_append, unquote_next n a (rest ++ t), hne]
    · simp [Chunk.mend, Chunk.raw, hbytes]
    all_goals
      rintro h
      apply hh
      first
      | exact h ▸ by decide
      | exact Nat.lt_trans h (by decide)

theorem quoteChunk_mend (c : Chunk) : quoteChunk c.mend = quoteChunk c := by
  cases c with
  | rune r => rfl
  | bad b => exact (by decide +kernel : quoteRune .replacement = Rune.replacement.bytes)

theorem unquote_quoteChunk (n : Nat) (c : Chunk) (t : Bytes) :
    unquote (n + 1) (quoteChunk c ++ t) = (unquote n t).map fun u => (c.mend.raw ++ u.1, u.2) := by
  rw [← quoteChunk_mend]
  cases c with
  | rune r => exact unquote_quoteRune n r t
  | bad b => exact unquote_quoteRune n .replacement t

theorem unquote_chunks (cs : List Chunk) (n : Nat) (hn : cs.length < n) (rest : Bytes) :
    unquote n (cs.flatMap quoteChunk ++ quotation :: rest) = some (join (cs.map Chunk.mend), rest) := by
  induction cs generalizing n with
  | nil =>
    obtain ⟨n, rfl⟩ : ∃ m, n = m + 1 := ⟨n - 1, by omega⟩
    rw [flatMap_nil, nil_append, unquote, if_pos rfl]
    rfl
  | cons c cs ih =>
    rw [length_cons] at hn
    obtain ⟨n, rfl⟩ : ∃ m, n = m + 1 := ⟨n - 1, by omega⟩
    rw [flatMap_cons, append_assoc, unquote_quoteChunk, ih n (by omega), Option.map_some]
    rfl

theorem quoteByte_ne_nil (a : UInt8) : quoteByte a ≠ [] := by
  unfold quoteByte
  repeat' split
  all_goals simp [ascii]

theorem quoteChunk_ne_nil (c : Chunk) : quoteChunk c ≠ [] := by
  cases c with
  | bad b => exact Rune.replacement.nonempty
  | rune r =>
    simp only [quoteChunk, quoteRune]
    split
    · exact quoteByte_ne_nil _
    split
    · simp [ascii]
    split
    · simp [ascii]
    · exact r.nonempty

theorem length_le_flatMap_quoteChunk (cs : List Chunk) : cs.length ≤ (cs.flatMap quoteChunk).length := by
  induction cs with
  | nil => exact Nat.le_refl _
  | cons c cs ih =>
    have hp := length_pos_iff.mpr (quoteChunk_ne_nil c)
    rw [flatMap_cons, length_append, length_cons]
    omega

theorem quote_append (s rest : Bytes) :
    quote s ++ rest = quotation :: ((split s).flatMap quoteChunk ++ quotation :: rest) := by
  simp [quote]

theorem unquote_quote (s rest : Bytes) :
    unquote ((split s).flatMap quoteChunk ++ quotation :: rest).length
      ((split s).flatMap quoteChunk ++ quotation :: rest) = some (coerce s, rest) := by
  apply unquote_chunks
  have hlen := length_le_flatMap_quoteChunk (split s)
  rw [length_append, length_cons]
  omega

theorem quote_coerce (s : Bytes) : quote (coerce s) = quote s := by
  rw [quote, quote, split_coerce, flatMap_map]
  simp only [quoteChunk_mend]

/-! ## Numbers -/

/-- The characters numbers are made of. -/
def numeric (a : UInt8) : Bool :=
  (0x30 ≤ a && a ≤ 0x39) || a == 0x2D || a == 0x2B || a == 0x2E || a == 0x65 || a == 0x45

def digit (a : UInt8) : Bool := 0x30 ≤ a && a ≤ 0x39

/-- `0`, or digits that do not begin with it; and what follows. -/
def integerPart : Bytes → Option Bytes
  | [] => none
  | a :: rest =>
      if a = 0x30 then some rest
      else if digit a then some (rest.dropWhile digit)
      else none

/-- One digit or more, and what follows. -/
def digits : Bytes → Option Bytes
  | [] => none
  | a :: rest => if digit a then some (rest.dropWhile digit) else none

def fraction : Bytes → Option Bytes
  | 0x2E :: rest => digits rest
  | s => some s

def exponent : Bytes → Option Bytes
  | a :: rest =>
      if a = 0x65 ∨ a = 0x45 then
        match rest with
        | b :: rest' => if b = 0x2B ∨ b = 0x2D then digits rest' else digits rest
        | [] => none
      else some (a :: rest)
  | [] => some []

def isNumber (s : Bytes) : Bool :=
  let body := match s with
    | 0x2D :: rest => rest
    | s => s
  ((integerPart body).bind fraction).bind exponent == some []

structure Number where
  text : Bytes
  shape : (text.all numeric && isNumber text) = true
deriving DecidableEq

theorem Number.numeric (n : Number) : n.text.all Json.numeric = true :=
  (Bool.and_eq_true_iff.mp n.shape).1

theorem Number.ne_nil (n : Number) : n.text ≠ [] := by
  intro h
  have hsh := n.shape
  rw [h] at hsh
  cases hsh

end Json

/-! ## Trees -/

inductive Json where
  | null
  | bool (b : Bool)
  | num (n : Json.Number)
  | str (s : Bytes)
  | arr (items : List Json)
  | obj (members : List (Bytes × Json))

namespace Json

mutual

def print : Json → Bytes
  | null => ascii "null"
  | bool true => ascii "true"
  | bool false => ascii "false"
  | num n => n.text
  | str s => quote s
  | arr [] => ascii "[]"
  | arr (j :: js) => 0x5B :: (print j ++ printItems js)
  | obj [] => ascii "\x7b\x7d"
  | obj ((k, j) :: ms) => 0x7B :: (quote k ++ 0x3A :: (print j ++ printMembers ms))

/-- The items after the first, and the closing bracket. -/
def printItems : List Json → Bytes
  | [] => [0x5D]
  | j :: js => 0x2C :: (print j ++ printItems js)

/-- The members after the first, and the closing brace. -/
def printMembers : List (Bytes × Json) → Bytes
  | [] => [0x7D]
  | (k, j) :: ms => 0x2C :: (quote k ++ 0x3A :: (print j ++ printMembers ms))

end

mutual

/-- The tree with every string, keys included, in its valid form. -/
def coerced : Json → Json
  | null => null
  | bool b => bool b
  | num n => num n
  | str s => str (coerce s)
  | arr js => arr (coercedItems js)
  | obj ms => obj (coercedMembers ms)

def coercedItems : List Json → List Json
  | [] => []
  | j :: js => coerced j :: coercedItems js

def coercedMembers : List (Bytes × Json) → List (Bytes × Json)
  | [] => []
  | (k, j) :: ms => (coerce k, coerced j) :: coercedMembers ms

end

mutual

/-- No object of the tree repeats a key. -/
def distinct : Json → Bool
  | null | bool _ | num _ | str _ => true
  | arr js => distinctItems js
  | obj ms => decide (ms.map (·.1)).Nodup && distinctMembers ms

def distinctItems : List Json → Bool
  | [] => true
  | j :: js => distinct j && distinctItems js

def distinctMembers : List (Bytes × Json) → Bool
  | [] => true
  | (_, j) :: ms => distinct j && distinctMembers ms

end

/-! ## Parsing -/

def space (a : UInt8) : Bool := a == 0x20 || a == 0x09 || a == 0x0A || a == 0x0D

def skip (s : Bytes) : Bytes := s.dropWhile space

def literal (word : String) (j : Json) (s : Bytes) : Option (Json × Bytes) :=
  if (ascii word).isPrefixOf s then some (j, s.drop word.length) else none

def parseNumber (s : Bytes) : Option (Json × Bytes) :=
  if h : ((s.takeWhile numeric).all numeric && isNumber (s.takeWhile numeric)) = true then
    some (num ⟨_, h⟩, s.dropWhile numeric)
  else none

/-- A key, its colon, and what follows. -/
def parseKey (s : Bytes) : Option (Bytes × Bytes) :=
  match skip s with
  | 0x22 :: rest =>
      match unquote rest.length rest with
      | some (k, rest) =>
          match skip rest with
          | 0x3A :: rest => some (k, rest)
          | _ => none
      | none => none
  | _ => none

mutual

/-- A value in front of a text, and what follows it. -/
def parseValue : Nat → Bytes → Option (Json × Bytes)
  | 0, _ => none
  | n + 1, s =>
      match skip s with
      | [] => none
      | a :: rest =>
          if a = quotation then (unquote rest.length rest).map fun r => (str r.1, r.2)
          else if a = 0x5B then
            match skip rest with
            | 0x5D :: rest => some (arr [], rest)
            | rest => do
                let (j, rest) ← parseValue n rest
                let (js, rest) ← parseItems n rest
                some (arr (j :: js), rest)
          else if a = 0x7B then
            match skip rest with
            | 0x7D :: rest => some (obj [], rest)
            | rest => do
                let (k, rest) ← parseKey rest
                let (j, rest) ← parseValue n rest
                let (ms, rest) ← parseMembers n rest
                some (obj ((k, j) :: ms), rest)
          else if a = 0x6E then literal "null" null (a :: rest)
          else if a = 0x74 then literal "true" (bool true) (a :: rest)
          else if a = 0x66 then literal "false" (bool false) (a :: rest)
          else parseNumber (a :: rest)

def parseItems : Nat → Bytes → Option (List Json × Bytes)
  | 0, _ => none
  | n + 1, s =>
      match skip s with
      | 0x5D :: rest => some ([], rest)
      | 0x2C :: rest => do
          let (j, rest) ← parseValue n rest
          let (js, rest) ← parseItems n rest
          some (j :: js, rest)
      | _ => none

def parseMembers : Nat → Bytes → Option (List (Bytes × Json) × Bytes)
  | 0, _ => none
  | n + 1, s =>
      match skip s with
      | 0x7D :: rest => some ([], rest)
      | 0x2C :: rest => do
          let (k, rest) ← parseKey rest
          let (j, rest) ← parseValue n rest
          let (ms, rest) ← parseMembers n rest
          some ((k, j) :: ms, rest)
      | _ => none

end

def parse (s : Bytes) : Option Json :=
  match parseValue s.length s with
  | some (j, rest) => if skip rest = [] then some j else none
  | none => none

/-! ## What parsing makes of a printed tree -/

/-- A text that does not carry a number on. -/
def Ends (s : Bytes) : Prop := ∀ a ∈ s.head?, numeric a = false

theorem skip_cons {a : UInt8} (s : Bytes) (h : space a = false) : skip (a :: s) = a :: s := by
  rw [skip, dropWhile_cons_of_neg (by simp [h])]

theorem parseKey_quote (k rest : Bytes) :
    parseKey (quote k ++ 0x3A :: rest) = some (coerce k, rest) := by
  rw [quote_append, parseKey, skip_cons _ (by decide)]
  simp only
  rw [unquote_quote]
  simp only [skip_cons _ (show space 0x3A = false by decide)]

theorem parseNumber_text (n : Number) (rest : Bytes) (h : Ends rest) :
    parseNumber (n.text ++ rest) = some (num n, rest) := by
  have hal : ∀ a ∈ n.text, numeric a = true := all_eq_true.mp n.numeric
  have hrest : rest.takeWhile numeric = [] ∧ rest.dropWhile numeric = rest := by
    cases rest with
    | nil => exact ⟨rfl, rfl⟩
    | cons a rest =>
      have ha : numeric a = false := h a rfl
      simp [ha]
  have hta : (n.text ++ rest).takeWhile numeric = n.text := by
    rw [takeWhile_append_of_pos hal, hrest.1, append_nil]
  have hd : (n.text ++ rest).dropWhile numeric = rest := by
    rw [dropWhile_append_of_pos hal, hrest.2]
  unfold parseNumber
  simp only [hta, hd]
  rw [dif_pos n.shape]

/-- A character that opens no string, no array, no object and no word. -/
def opensNumber (a : UInt8) : Bool :=
  !space a && a != quotation && a != 0x5B && a != 0x7B && a != 0x5D && a != 0x6E && a != 0x74 &&
    a != 0x66

theorem numeric_opensNumber (a : UInt8) (h : numeric a = true) : opensNumber a = true := by
  have hal : ∀ n < 256, numeric (UInt8.ofNat n) = true → opensNumber (UInt8.ofNat n) = true := by
    decide +kernel
  have ha : UInt8.ofNat a.toNat = a := by simp
  have := hal a.toNat a.toNat_lt
  rw [ha] at this
  exact this h

theorem Number.first (n : Number) : ∃ a t, n.text = a :: t ∧ opensNumber a = true := by
  obtain ⟨a, t, ht⟩ := exists_cons_of_ne_nil n.ne_nil
  have hal := n.numeric
  rw [ht, all_cons, Bool.and_eq_true] at hal
  exact ⟨a, t, ht, numeric_opensNumber a hal.1⟩

theorem print_first (j : Json) : ∃ a t, print j = a :: t ∧ space a = false ∧ a ≠ 0x5D := by
  cases j with
  | null => exact ⟨_, _, rfl, by decide, by decide⟩
  | bool b => cases b <;> exact ⟨_, _, rfl, by decide, by decide⟩
  | num n =>
    obtain ⟨a, t, ht, ha⟩ := n.first
    simp only [opensNumber, Bool.and_eq_true, Bool.not_eq_true', bne_iff_ne] at ha
    exact ⟨a, t, ht, ha.1.1.1.1.1.1.1, ha.1.1.1.2⟩
  | str s => exact ⟨_, _, rfl, by decide, by decide⟩
  | arr js => cases js <;> exact ⟨_, _, rfl, by decide, by decide⟩
  | obj ms => cases ms <;> exact ⟨_, _, rfl, by decide, by decide⟩

theorem ends_printItems (js : List Json) (rest : Bytes) : Ends (printItems js ++ rest) := by
  cases js <;> simp [Ends, printItems] <;> decide

theorem ends_printMembers (ms : List (Bytes × Json)) (rest : Bytes) :
    Ends (printMembers ms ++ rest) := by
  rcases ms with _ | ⟨⟨k, j⟩, ms⟩ <;> simp [Ends, printMembers] <;> decide

theorem literal_word (word : String) (j : Json) (rest : Bytes) :
    literal word j (ascii word ++ rest) = some (j, rest) := by
  have hlen : word.length = (ascii word).length := by
    rw [ascii, length_map, String.length_toList]
  have hp : (ascii word).isPrefixOf (ascii word ++ rest) = true :=
    isPrefixOf_iff_prefix.mpr (prefix_append _ _)
  rw [literal, if_pos hp, hlen, drop_left]

mutual

-- The length of what is left to read is fuel enough.
theorem parseValue_print : ∀ (j : Json) (n : Nat) (rest : Bytes), (print j).length ≤ n → Ends rest →
    parseValue n (print j ++ rest) = some (coerced j, rest)
  | null, n + 1, rest, _, _ => by
      exact literal_word "null" null rest
  | bool true, n + 1, rest, _, _ => literal_word "true" (bool true) rest
  | bool false, n + 1, rest, _, _ => literal_word "false" (bool false) rest
  | num m, 0, _, hn, _ => absurd (length_eq_zero_iff.mp (Nat.le_zero.mp hn)) m.ne_nil
  | num m, n + 1, rest, _, hen => by
      obtain ⟨a, t, ht, ha⟩ := m.first
      simp only [opensNumber, Bool.and_eq_true, Bool.not_eq_true', bne_iff_ne] at ha
      obtain ⟨⟨⟨⟨⟨⟨⟨hsp, hqu⟩, har⟩, ho⟩, -⟩, hnul⟩, htr⟩, hf⟩ := ha
      have hnu := parseNumber_text m rest hen
      rw [ht, cons_append] at hnu
      rw [print, ht, cons_append, parseValue, skip_cons _ hsp]
      simp only [if_neg hqu, if_neg har, if_neg ho, if_neg hnul, if_neg htr, if_neg hf]
      exact hnu
  | str s, n + 1, rest, _, _ => by
      rw [print, quote_append, parseValue, skip_cons _ (by decide)]
      simp only [if_pos]
      rw [unquote_quote]
      rfl
  | arr [], n + 1, rest, _, _ => rfl
  | arr (j :: js), n + 1, rest, hn, _ => by
      have hsi : (print j).length ≤ n ∧ (printItems js).length ≤ n := by
        simp only [print, length_cons, length_append] at hn
        omega
      obtain ⟨a, t, ht, hsp, hc⟩ := print_first j
      have hvalue := parseValue_print j n (printItems js ++ rest) hsi.1 (ends_printItems js rest)
      have hit := parseItems_print js n rest hsi.2
      rw [print, cons_append, append_assoc, parseValue, skip_cons _ (by decide)]
      rw [ht, cons_append] at hvalue ⊢
      simp only [skip_cons _ hsp]
      rw [if_neg (by decide), if_pos trivial]
      split
      case h_1 heq => exact absurd (List.cons.inj heq).1 hc
      case h_2 => simp [hvalue, hit, coerced, coercedItems]
  | obj [], n + 1, rest, _, _ => rfl
  | obj ((k, j) :: ms), n + 1, rest, hn, _ => by
      have hsi : (print j).length ≤ n ∧ (printMembers ms).length ≤ n := by
        simp only [print, length_cons, length_append] at hn
        omega
      have hvalue := parseValue_print j n (printMembers ms ++ rest) hsi.1 (ends_printMembers ms rest)
      have hme := parseMembers_print ms n rest hsi.2
      have hkey := parseKey_quote k (print j ++ (printMembers ms ++ rest))
      rw [quote_append] at hkey
      simp only [print, cons_append, append_assoc, quote_append]
      rw [parseValue, skip_cons _ (by decide)]
      simp only [skip_cons _ (show space quotation = false by decide)]
      rw [if_neg (by decide), if_neg (by decide), if_pos trivial]
      split
      case h_1 heq => exact absurd (List.cons.inj heq).1 (by decide)
      case h_2 => simp [hkey, hvalue, hme, coerced, coercedMembers]

theorem parseItems_print : ∀ (js : List Json) (n : Nat) (rest : Bytes), (printItems js).length ≤ n →
    parseItems n (printItems js ++ rest) = some (coercedItems js, rest)
  | [], n + 1, rest, _ => rfl
  | j :: js, n + 1, rest, hn => by
      have hsi : (print j).length ≤ n ∧ (printItems js).length ≤ n := by
        simp only [printItems, length_cons, length_append] at hn
        omega
      have hvalue := parseValue_print j n (printItems js ++ rest) hsi.1 (ends_printItems js rest)
      have hit := parseItems_print js n rest hsi.2
      rw [printItems, cons_append, append_assoc, parseItems, skip_cons _ (by decide)]
      simp [hvalue, hit, coercedItems]

theorem parseMembers_print : ∀ (ms : List (Bytes × Json)) (n : Nat) (rest : Bytes),
    (printMembers ms).length ≤ n →
    parseMembers n (printMembers ms ++ rest) = some (coercedMembers ms, rest)
  | [], n + 1, rest, _ => rfl
  | (k, j) :: ms, n + 1, rest, hn => by
      have hsi : (print j).length ≤ n ∧ (printMembers ms).length ≤ n := by
        simp only [printMembers, length_cons, length_append] at hn
        omega
      have hvalue := parseValue_print j n (printMembers ms ++ rest) hsi.1 (ends_printMembers ms rest)
      have hme := parseMembers_print ms n rest hsi.2
      have hkey := parseKey_quote k (print j ++ (printMembers ms ++ rest))
      simp only [printMembers, cons_append, append_assoc]
      rw [parseMembers, skip_cons _ (by decide)]
      simp [hkey, hvalue, hme, coercedMembers]

end

/-- **Parsing a printed tree gives the tree with every string in its valid form.** -/
theorem parse_print (j : Json) : parse (print j) = some (coerced j) := by
  have hvalue := parseValue_print j (print j).length [] le_rfl (fun a ha => by cases ha)
  rw [append_nil] at hvalue
  rw [parse, hvalue]
  rfl

/-! ## The members of an object as they stand in the text -/

/-- The bytes of the value in front of a text, and what follows it. -/
def rawValue (s : Bytes) : Option (Bytes × Bytes) :=
  match parseValue (skip s).length (skip s) with
  | some (_, rest) => some ((skip s).take ((skip s).length - rest.length), rest)
  | none => none

/-- The members up to the closing brace, the first of them not yet read. -/
def rawMembersFrom : Nat → Bytes → Option (List (Bytes × Bytes) × Bytes)
  | 0, _ => none
  | n + 1, s => do
      let (k, rest) ← parseKey s
      let (raw, rest) ← rawValue rest
      match skip rest with
      | 0x7D :: rest => some ([(k, raw)], rest)
      | 0x2C :: rest => do
          let (ms, rest) ← rawMembersFrom n rest
          some ((k, raw) :: ms, rest)
      | _ => none

/-- The members of the object a text holds, each with the bytes of its value. -/
def rawMembers (s : Bytes) : Option (List (Bytes × Bytes)) :=
  match skip s with
  | 0x7B :: rest =>
      match skip rest with
      | 0x7D :: rest => if skip rest = [] then some [] else none
      | rest =>
          match rawMembersFrom s.length rest with
          | some (ms, rest) => if skip rest = [] then some ms else none
          | none => none
  | _ => none

theorem rawValue_print (j : Json) (rest : Bytes) (h : Ends rest) :
    rawValue (print j ++ rest) = some (print j, rest) := by
  have hskip : skip (print j ++ rest) = print j ++ rest := by
    obtain ⟨a, t, ht, hsp, -⟩ := print_first j
    rw [ht, cons_append, skip_cons _ hsp]
  have hf : (print j).length ≤ (print j ++ rest).length := by simp
  rw [rawValue, hskip, parseValue_print j _ rest hf h]
  simp only [length_append, Nat.add_sub_cancel, take_left]

theorem rawMembersFrom_print (k : Bytes) (j : Json) (ms : List (Bytes × Json)) (n : Nat)
    (hn : ms.length < n) :
    rawMembersFrom n (quote k ++ 0x3A :: (print j ++ printMembers ms)) =
      some ((coerce k, print j) :: ms.map fun m => (coerce m.1, print m.2), []) := by
  induction ms generalizing k j n with
  | nil =>
    obtain ⟨n, rfl⟩ : ∃ m, n = m + 1 := ⟨n - 1, by omega⟩
    rw [rawMembersFrom, parseKey_quote]
    simp only [Option.bind_eq_bind, Option.bind_some]
    rw [rawValue_print j _ (by simpa using ends_printMembers [] [])]
    rfl
  | cons m ms ih =>
    obtain ⟨k', j'⟩ := m
    rw [length_cons] at hn
    obtain ⟨n, rfl⟩ : ∃ m, n = m + 1 := ⟨n - 1, by omega⟩
    rw [rawMembersFrom, parseKey_quote]
    simp only [Option.bind_eq_bind, Option.bind_some]
    rw [rawValue_print j _ (by simpa using ends_printMembers ((k', j') :: ms) [])]
    simp only [Option.bind_some, printMembers, skip_cons _ (show space 0x2C = false by decide)]
    rw [ih k' j' n (by omega)]
    rfl

theorem length_le_printMembers (ms : List (Bytes × Json)) : ms.length ≤ (printMembers ms).length := by
  induction ms with
  | nil => exact Nat.zero_le _
  | cons m ms ih =>
    simp only [printMembers, length_cons, length_append]
    omega

theorem rawMembers_print (m : Bytes × Json) (ms : List (Bytes × Json)) :
    rawMembers (print (obj (m :: ms))) = some ((m :: ms).map fun m => (coerce m.1, print m.2)) := by
  obtain ⟨k, j⟩ := m
  have hlen := length_le_printMembers ms
  have hread := rawMembersFrom_print k j ms (print (obj ((k, j) :: ms))).length (by
    simp only [print, length_cons, length_append]
    omega)
  have hqu := quote_append k (0x3A :: (print j ++ printMembers ms))
  rw [rawMembers]
  simp only [print] at hread ⊢
  rw [hqu] at hread ⊢
  rw [skip_cons _ (show space 0x7B = false by decide)]
  simp only [skip_cons _ (show space quotation = false by decide)]
  split
  case h_1 heq => exact absurd (List.cons.inj heq).1 (by decide)
  case h_2 =>
    rw [hread]
    rfl

/-! ## Printing the valid form -/

mutual

/-- **The valid form of a tree is printed like the tree itself.** -/
theorem print_coerced : ∀ j : Json, print (coerced j) = print j
  | null | bool _ | num _ | arr [] | obj [] => rfl
  | str s => quote_coerce s
  | arr (j :: js) => by
      simp only [coerced, coercedItems, print, print_coerced j, printItems_coerced js]
  | obj ((k, j) :: ms) => by
      simp only [coerced, coercedMembers, print, quote_coerce, print_coerced j,
        printMembers_coerced ms]

theorem printItems_coerced : ∀ js : List Json, printItems (coercedItems js) = printItems js
  | [] => rfl
  | j :: js => by simp only [coercedItems, printItems, print_coerced j, printItems_coerced js]

theorem printMembers_coerced : ∀ ms : List (Bytes × Json),
    printMembers (coercedMembers ms) = printMembers ms
  | [] => rfl
  | (k, j) :: ms => by
      simp only [coercedMembers, printMembers, quote_coerce, print_coerced j,
        printMembers_coerced ms]

end

end Json

end Lib
