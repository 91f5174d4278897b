import Perimeterd.Lib.Marshal
import Perimeterd.Netip

/-!
# Addresses as text

The model never writes an address itself: what `net/netip` prints and reads is a parameter of the
modules that need it, with the law that a printed prefix is read back. This module is one such text
form, for runs on given inputs. IPv4 is `net/netip`'s own notation, four decimal numbers that have
no superfluous zero; an IPv6 address is written as `Addr.StringExpanded` does, with every zero in
place, so that nothing has to be said about which run of zeros is left out.

Both are a number's digits to some base, written in groups and joined by a byte that no group holds.
-/

namespace Perimeterd.Netip

open Lib List

/-! ## Digits to a base -/

/-- The last `k` digits of a number, the most significant one first. -/
def digitsTo (b : Nat) : Nat → Nat → List Nat
  | 0, _ => []
  | k + 1, n => digitsTo b k (n / b) ++ [n % b]

def ofDigitsTo (b : Nat) (ds : List Nat) : Nat := ds.foldl (fun n d => n * b + d) 0

variable {b k n : Nat}

theorem ofDigitsTo_digitsTo (h : n < b ^ k) : ofDigitsTo b (digitsTo b k n) = n := by
  induction k generalizing n with
  | zero =>
    rw [pow_zero, Nat.lt_one_iff] at h
    rw [h]
    rfl
  | succ k ih =>
    have hdiv : n / b < b ^ k := Nat.div_lt_of_lt_mul (by rwa [pow_succ, mul_comm] at h)
    have hrest := ih hdiv
    unfold ofDigitsTo at hrest
    rw [digitsTo, ofDigitsTo, foldl_append, hrest, foldl_cons, foldl_nil, Nat.div_add_mod']

theorem length_digitsTo (n : Nat) : (digitsTo b k n).length = k := by
  induction k generalizing n with
  | zero => rfl
  | succ k ih => rw [digitsTo, length_append, ih, length_singleton]

theorem lt_of_mem_digitsTo (hb : 0 < b) {d : Nat} (h : d ∈ digitsTo b k n) : d < b := by
  induction k generalizing n with
  | zero => cases h
  | succ k ih =>
    rcases mem_append.mp h with h | h
    · exact ih h
    · rw [mem_singleton.mp h]
      exact Nat.mod_lt n hb

/-! ## Groups -/

/-- How the groups of an address are written and read. -/
structure Groups where
  /-- The byte between two groups. -/
  sep : UInt8
  /-- Groups are digits to this base. -/
  base : Nat
  base_pos : 0 < base
  write : Nat → Bytes
  read : Bytes → Option Nat
  read_write : ∀ d < base, read (write d) = some d
  sep_plain : sep < 0x80 ∧ sep ≠ 0x2F
  write_plain : ∀ d < base, ∀ a ∈ write d, a < 0x80 ∧ a ≠ sep ∧ a ≠ 0x2F

theorem mem_intercalate {sep a : UInt8} {ls : List Bytes} (h : a ∈ [sep].intercalate ls) :
    a = sep ∨ ∃ l ∈ ls, a ∈ l := by
  induction ls with
  | nil => cases h
  | cons l ls ih =>
    cases ls with
    | nil => exact .inr ⟨l, mem_cons_self, by simpa using h⟩
    | cons l' ls =>
      rw [intercalate_cons_cons, mem_append, mem_append, mem_singleton] at h
      rcases h with (hl | hsep) | hrest
      · exact .inr ⟨l, mem_cons_self, hl⟩
      · exact .inl hsep
      · exact (ih hrest).imp_right fun ⟨l, hl, ha⟩ => ⟨l, mem_cons_of_mem _ hl, ha⟩

namespace Groups

variable (f : Groups)

def format (k n : Nat) : Bytes := [f.sep].intercalate ((digitsTo f.base k n).map f.write)

def parse (k : Nat) (s : Bytes) : Option Nat :=
  (Codec.each f.read (s.splitOn f.sep)).bind fun ds =>
    if ds.length = k then some (ofDigitsTo f.base ds) else none

theorem parse_format {k n : Nat} (hk : 0 < k) (h : n < f.base ^ k) :
    f.parse k (f.format k n) = some n := by
  have hlt : ∀ d ∈ digitsTo f.base k n, d < f.base := fun d hd => lt_of_mem_digitsTo f.base_pos hd
  have hsplit : (f.format k n).splitOn f.sep = (digitsTo f.base k n).map f.write := by
    refine splitOn_intercalate _ (forall_mem_map.mpr fun d hd hsep =>
      (f.write_plain d (hlt d hd) _ hsep).2.1 rfl) ?_
    refine fun hnil => hk.ne' ?_
    rw [← length_digitsTo (b := f.base) (k := k) n, map_eq_nil_iff.mp hnil, length_nil]
  have hread : Codec.each f.read ((digitsTo f.base k n).map f.write) = some (digitsTo f.base k n) :=
    Codec.each_eq_some.mpr (forall₂_map_left_iff.mpr (forall₂_same.mpr fun d hd =>
      f.read_write d (hlt d hd)))
  rw [parse, hsplit, hread, Option.bind_some, if_pos (length_digitsTo n), ofDigitsTo_digitsTo h]

theorem format_plain {k n : Nat} {a : UInt8} (h : a ∈ f.format k n) : a < 0x80 ∧ a ≠ 0x2F := by
  rcases mem_intercalate h with rfl | ⟨l, hl, ha⟩
  · exact f.sep_plain
  · obtain ⟨d, hd, rfl⟩ := mem_map.mp hl
    obtain ⟨hascii, -, hslash⟩ := f.write_plain d (lt_of_mem_digitsTo f.base_pos hd) a ha
    exact ⟨hascii, hslash⟩

end Groups

theorem decimalNat_plain {n : Nat} {a : UInt8} (h : a ∈ Json.decimalNat n) :
    a < 0x80 ∧ a ≠ 0x2E ∧ a ≠ 0x2F := by
  have hdigit := all_eq_true.mp (Json.decimalNat_digits n) a h
  simp only [Json.digit, Bool.and_eq_true, decide_eq_true_eq] at hdigit
  refine ⟨UInt8.lt_of_le_of_lt hdigit.2 (by decide), ?_, ?_⟩ <;>
  · rintro rfl
    exact absurd hdigit.1 (by decide)

/-- A number below `bound`, written without superfluous zeros. -/
def readDecimal (bound : Nat) (s : Bytes) : Option Nat :=
  (Json.parseNat s).filter fun n => n < bound ∧ Json.decimalNat n = s

theorem readDecimal_decimalNat {bound n : Nat} (h : n < bound) :
    readDecimal bound (Json.decimalNat n) = some n := by
  rw [readDecimal, Json.parseNat_decimalNat, Option.filter_some, if_pos (by simpa using h)]

def dotted : Groups where
  sep := 0x2E
  base := 256
  base_pos := by decide
  write := Json.decimalNat
  read := readDecimal 256
  read_write _ h := readDecimal_decimalNat h
  sep_plain := by decide
  write_plain _ _ _ ha := decimalNat_plain ha

theorem hexDigit_plain {d : Nat} (h : d < 16) :
    Json.hexValue (Json.hexDigit (UInt8.ofNat d)) = some d ∧ Json.hexDigit (UInt8.ofNat d) < 0x80 ∧
      Json.hexDigit (UInt8.ofNat d) ≠ 0x3A ∧ Json.hexDigit (UInt8.ofNat d) ≠ 0x2F := by
  revert d
  decide +kernel

def expanded : Groups where
  sep := 0x3A
  base := 2 ^ 16
  base_pos := by decide
  write n := (digitsTo 16 4 n).map fun d => Json.hexDigit (UInt8.ofNat d)
  read s := if s.length = 4 then (Codec.each Json.hexValue s).map (ofDigitsTo 16) else none
  read_write n h := by
    have hread : Codec.each Json.hexValue
        ((digitsTo 16 4 n).map fun d => Json.hexDigit (UInt8.ofNat d)) = some (digitsTo 16 4 n) :=
      Codec.each_eq_some.mpr (forall₂_map_left_iff.mpr (forall₂_same.mpr fun d hd =>
        (hexDigit_plain (lt_of_mem_digitsTo (by decide) hd)).1))
    rw [if_pos (by rw [length_map, length_digitsTo]), hread, Option.map_some,
      ofDigitsTo_digitsTo (h.trans_eq (by decide))]
  sep_plain := by decide
  write_plain n _ a ha := by
    obtain ⟨d, hd, rfl⟩ := mem_map.mp ha
    exact (hexDigit_plain (lt_of_mem_digitsTo (by decide) hd)).2

/-! ## Addresses and prefixes -/

/-- The notation of a family, and its number of groups. -/
def groupsOf : Family → Groups × Nat
  | .ipv4 => (dotted, 4)
  | .ipv6 => (expanded, 8)

def addrText (a : Addr) : Bytes := (groupsOf a.family).1.format (groupsOf a.family).2 a.value

def parseAddrOf (family : Family) (s : Bytes) : Option Addr :=
  ((groupsOf family).1.parse (groupsOf family).2 s).bind fun n =>
    if h : n < 2 ^ family.width then some ⟨family, n, h⟩ else none

/-- An address with a dot is an IPv4 address. -/
def parseAddr (s : Bytes) : Option Addr := parseAddrOf (if 0x2E ∈ s then .ipv4 else .ipv6) s

def prefixText (p : Prefix) : Bytes :=
  [0x2F].intercalate [addrText p.addr, Json.decimalNat p.bits]

def parsePrefix (s : Bytes) : Option Prefix :=
  match s.splitOn 0x2F with
  | [address, length] =>
      (parseAddr address).bind fun addr =>
        (readDecimal 129 length).bind fun bits =>
          if h : bits ≤ addr.family.width then some ⟨addr, bits, h⟩ else none
  | _ => none

theorem parseAddr_addrText (a : Addr) : parseAddr (addrText a) = some a := by
  obtain ⟨family, value, hlt⟩ := a
  cases family with
  | ipv4 =>
    have hdot : (0x2E : UInt8) ∈ dotted.format 4 value := by
      simp [Groups.format, digitsTo, intercalate_cons_cons, dotted]
    have hread := dotted.parse_format (k := 4) (by decide) (hlt.trans_eq (by decide))
    simp only [parseAddr, addrText, groupsOf, hdot, if_true, parseAddrOf, hread, Option.bind_some]
    exact dif_pos hlt
  | ipv6 =>
    have hdot : (0x2E : UInt8) ∉ expanded.format 8 value := fun h => by
      rcases mem_intercalate h with hsep | ⟨l, hl, ha⟩
      · exact absurd hsep (by decide)
      · obtain ⟨n, -, rfl⟩ := mem_map.mp hl
        obtain ⟨d, hd, hda⟩ := mem_map.mp ha
        have hno : ∀ d < 16, Json.hexDigit (UInt8.ofNat d) ≠ 0x2E := by decide +kernel
        exact hno d (lt_of_mem_digitsTo (by decide) hd) hda
    have hread := expanded.parse_format (k := 8) (by decide) (hlt.trans_eq (by decide))
    simp only [parseAddr, addrText, groupsOf, hdot, if_false, parseAddrOf, hread, Option.bind_some]
    exact dif_pos hlt

theorem parsePrefix_prefixText (p : Prefix) : parsePrefix (prefixText p) = some p := by
  have hsplit : (prefixText p).splitOn 0x2F = [addrText p.addr, Json.decimalNat p.bits] := by
    refine splitOn_intercalate _ ?_ (by simp)
    simp only [mem_cons, not_mem_nil, or_false, forall_eq_or_imp, forall_eq]
    exact ⟨fun h => (Groups.format_plain _ h).2 rfl, fun h => (decimalNat_plain h).2.2 rfl⟩
  have hbits : p.bits < 129 := p.le.trans_lt (by cases p.addr.family <;> decide)
  simp only [parsePrefix, hsplit, parseAddr_addrText, readDecimal_decimalNat hbits, Option.bind_some]
  exact dif_pos p.le

theorem prefixText_ascii {p : Prefix} {a : UInt8} (h : a ∈ prefixText p) : a < 0x80 := by
  rcases mem_intercalate h with rfl | ⟨l, hl, ha⟩
  · decide
  · simp only [mem_cons, not_mem_nil, or_false] at hl
    rcases hl with rfl | rfl
    · exact (Groups.format_plain _ ha).1
    · exact (decimalNat_plain ha).1

theorem prefixText_ne_nil (p : Prefix) : prefixText p ≠ [] := by
  simp [prefixText, intercalate_cons_cons]

/-! ## As strings -/

def ofAscii (s : Bytes) : String := String.ofList (s.map fun b => Char.ofNat b.toNat)

def toAscii (text : String) : Option Bytes :=
  if text.toList.all (·.toNat < 0x80) then some (ascii text) else none

theorem toAscii_ofAscii {s : Bytes} (h : ∀ b ∈ s, b < 0x80) : toAscii (ofAscii s) = some s := by
  have hchar : ∀ b ∈ s, (Char.ofNat b.toNat).toNat = b.toNat := by
    intro b hb
    have hlt : b.toNat < 0x80 := UInt8.lt_iff_toNat_lt.mp (h b hb)
    have hc : b.toNat.isValidChar := Or.inl (by omega)
    rw [Char.ofNat, dif_pos hc]
    rfl
  have hall : (ofAscii s).toList.all (·.toNat < 0x80) = true := by
    rw [ofAscii, String.toList_ofList, all_map, all_eq_true]
    intro b hb
    rw [Function.comp_apply, hchar b hb]
    exact decide_eq_true (UInt8.lt_iff_toNat_lt.mp (h b hb))
  rw [toAscii, if_pos hall, ascii, ofAscii, String.toList_ofList, map_map]
  congr 1
  refine (map_congr_left fun b hb => ?_).trans (map_id s)
  rw [Function.comp_apply, hchar b hb, UInt8.ofNat_toNat]
  rfl

def prefixString (p : Prefix) : String := ofAscii (prefixText p)

def readPrefix (text : String) : Option Prefix := (toAscii text).bind parsePrefix

def readAddr (text : String) : Option Addr := (toAscii text).bind parseAddr

theorem readPrefix_prefixString (p : Prefix) : readPrefix (prefixString p) = some p := by
  rw [readPrefix, prefixString, toAscii_ofAscii fun _ => prefixText_ascii, Option.bind_some,
    parsePrefix_prefixText]

theorem prefixString_ne (p : Prefix) : prefixString p ≠ "" := by
  intro hempty
  have hread := readPrefix_prefixString p
  rw [hempty] at hread
  cases hread

example : prefixString ⟨⟨.ipv4, 0xC0000200, by decide⟩, 24, by decide⟩ = "192.0.2.0/24" := by
  decide +kernel

end Perimeterd.Netip
