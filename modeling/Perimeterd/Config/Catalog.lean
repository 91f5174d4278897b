import Mathlib

/-!
# The built-in catalog

`internal/config/catalog`: the release-pinned tables a selector is checked against and expanded
through, and the spelling rules for the selector values that have no table. Group tables are not
here: a normalized selector already carries its groups expanded.
-/

namespace Perimeterd.Catalog

/-- ISO 3166-1 alpha-2, 249 assigned codes. -/
def countryCodes : List String :=
  ["AD", "AE", "AF", "AG", "AI", "AL", "AM", "AO", "AQ", "AR", "AS", "AT", "AU", "AW", "AX",
    "AZ", "BA", "BB", "BD", "BE", "BF", "BG", "BH", "BI", "BJ", "BL", "BM", "BN", "BO", "BQ",
    "BR", "BS", "BT", "BV", "BW", "BY", "BZ", "CA", "CC", "CD", "CF", "CG", "CH", "CI", "CK",
    "CL", "CM", "CN", "CO", "CR", "CU", "CV", "CW", "CX", "CY", "CZ", "DE", "DJ", "DK", "DM",
    "DO", "DZ", "EC", "EE", "EG", "EH", "ER", "ES", "ET", "FI", "FJ", "FK", "FM", "FO", "FR",
    "GA", "GB", "GD", "GE", "GF", "GG", "GH", "GI", "GL", "GM", "GN", "GP", "GQ", "GR", "GS",
    "GT", "GU", "GW", "GY", "HK", "HM", "HN", "HR", "HT", "HU", "ID", "IE", "IL", "IM", "IN",
    "IO", "IQ", "IR", "IS", "IT", "JE", "JM", "JO", "JP", "KE", "KG", "KH", "KI", "KM", "KN",
    "KP", "KR", "KW", "KY", "KZ", "LA", "LB", "LC", "LI", "LK", "LR", "LS", "LT", "LU", "LV",
    "LY", "MA", "MC", "MD", "ME", "MF", "MG", "MH", "MK", "ML", "MM", "MN", "MO", "MP", "MQ",
    "MR", "MS", "MT", "MU", "MV", "MW", "MX", "MY", "MZ", "NA", "NC", "NE", "NF", "NG", "NI",
    "NL", "NO", "NP", "NR", "NU", "NZ", "OM", "PA", "PE", "PF", "PG", "PH", "PK", "PL", "PM",
    "PN", "PR", "PS", "PT", "PW", "PY", "QA", "RE", "RO", "RS", "RU", "RW", "SA", "SB", "SC",
    "SD", "SE", "SG", "SH", "SI", "SJ", "SK", "SL", "SM", "SN", "SO", "SR", "SS", "ST", "SV",
    "SX", "SY", "SZ", "TC", "TD", "TF", "TG", "TH", "TJ", "TK", "TL", "TM", "TN", "TO", "TR",
    "TT", "TV", "TW", "TZ", "UA", "UG", "UM", "US", "UY", "UZ", "VA", "VC", "VE", "VG", "VI",
    "VN", "VU", "WF", "WS", "YE", "YT", "ZA", "ZM", "ZW"]

/-- The country-to-registry assignment. RIR selectors resolve to these countries. -/
def rirServiceRegions : List (String × List String) :=
  [("AFRINIC",
      ["AO", "BF", "BI", "BJ", "BW", "CD", "CF", "CG", "CI", "CM", "CV", "DJ", "DZ", "EG", "EH",
       "ER", "ET", "GA", "GH", "GM", "GN", "GQ", "GW", "KE", "KM", "LR", "LS", "LY", "MA", "MG",
       "ML", "MR", "MU", "MW", "MZ", "NA", "NE", "NG", "RE", "RW", "SC", "SD", "SL", "SN", "SO",
       "SS", "ST", "SZ", "TD", "TG", "TN", "TZ", "UG", "YT", "ZA", "ZM", "ZW"]),
    ("APNIC",
      ["AF", "AS", "AU", "BD", "BN", "BT", "CC", "CK", "CN", "CX", "FJ", "FM", "GU", "HK", "ID",
       "IN", "IO", "JP", "KH", "KI", "KP", "KR", "LA", "LK", "MH", "MM", "MN", "MO", "MP", "MV",
       "MY", "NC", "NF", "NP", "NR", "NU", "NZ", "PF", "PG", "PH", "PK", "PN", "PW", "SB", "SG",
       "TF", "TH", "TK", "TL", "TO", "TV", "TW", "VN", "VU", "WF", "WS"]),
    ("ARIN",
      ["AG", "AI", "AQ", "BB", "BL", "BM", "BS", "BV", "CA", "DM", "GD", "GP", "HM", "JM", "KN",
       "KY", "LC", "MF", "MQ", "MS", "PM", "PR", "SH", "TC", "UM", "US", "VC", "VG", "VI"]),
    ("LACNIC",
      ["AR", "AW", "BO", "BQ", "BR", "BZ", "CL", "CO", "CR", "CU", "CW", "DO", "EC", "FK", "GF",
       "GS", "GT", "GY", "HN", "HT", "MX", "NI", "PA", "PE", "PY", "SR", "SV", "SX", "TT", "UY",
       "VE"]),
    ("RIPE",
      ["AD", "AE", "AL", "AM", "AT", "AX", "AZ", "BA", "BE", "BG", "BH", "BY", "CH", "CY", "CZ",
       "DE", "DK", "EE", "ES", "FI", "FO", "FR", "GB", "GE", "GG", "GI", "GL", "GR", "HR", "HU",
       "IE", "IL", "IM", "IQ", "IR", "IS", "IT", "JE", "JO", "KG", "KW", "KZ", "LB", "LI", "LT",
       "LU", "LV", "MC", "MD", "ME", "MK", "MT", "NL", "NO", "OM", "PL", "PS", "PT", "QA", "RO",
       "RS", "RU", "SA", "SE", "SI", "SJ", "SK", "SM", "SY", "TJ", "TM", "TR", "UA", "UZ", "VA",
       "YE"])]

def validCountry (code : String) : Bool := countryCodes.contains code

def validRIR (name : String) : Bool := rirServiceRegions.any (·.1 == name)

/-- `RIRCountries`; an unknown name has none. -/
def rirCountries (name : String) : List String :=
  match rirServiceRegions.find? (·.1 == name) with
  | some (_, countries) => countries
  | none => []

def decimal (digits : List Char) : Nat :=
  digits.foldl (fun n c => 10 * n + (c.toNat - '0'.toNat)) 0

/-- `ValidASN`: `AS` and a canonical 32-bit decimal number. -/
def validASN (value : String) : Bool :=
  match value.toList with
  | 'A' :: 'S' :: d :: ds =>
      !(d == '0' && !ds.isEmpty) && (d :: ds).all Char.isDigit && decimal (d :: ds) < 2 ^ 32
  | _ => false

def isNameChar (c : Char) : Bool := c.isLower || c.isDigit

/-- `config.ValidName`: lowercase DNS-label-like. -/
def validName (name : String) : Bool :=
  let cs := name.toList
  cs.head?.any isNameChar && cs.getLast?.any isNameChar && cs.all fun c => isNameChar c || c == '-'

def validProviderID (id : String) : Bool :=
  !id.toList.isEmpty && id.toList.all fun c => isNameChar c || c == '_' || c == '-'

/-- `unicode.ToUpper` on the characters whose upper case is ASCII: the ASCII letters, dotless i
and long s. No other character has an ASCII upper case, and the tables are ASCII, so leaving the
rest alone decides the same table lookups. -/
def toUpperChar (c : Char) : Char :=
  if c == 'ı' then 'I' else if c == 'ſ' then 'S' else c.toUpper

/-- `strings.ToUpper`, up to the remark on `toUpperChar`. -/
def toUpper (s : String) : String := s.map toUpperChar

end Perimeterd.Catalog
