import Perimeterd.Config.Catalog
import Perimeterd.Config.Types
import Perimeterd.Lib.Result
import Perimeterd.Lib.Search

/-!
# Country groups and normalized selectors

The group tables of `internal/config/catalog`, and `normalizeSelector` of
`internal/config/normalize.go`: what a configured selector becomes. A group is a custom one or, where
there is none of that name, a built-in one; a normalized selector keeps the groups it names and, in
`expandedCountries`, their countries together with the ones it names itself.
-/

namespace Perimeterd

open Lib

/-- `sortedKeys`: the distinct members of a list, in order. -/
def sortedKeys (values : List String) : List String := sortSlice (fun a b => a < b) values.dedup

@[simp] theorem mem_sortedKeys {values : List String} {v : String} :
    v ∈ sortedKeys values ↔ v ∈ values := by
  rw [sortedKeys, mem_sortSlice, List.mem_dedup]

namespace Catalog

def regionalGroups : List (String × List String) :=
  [("africa",
      ["AO", "BF", "BI", "BJ", "BW", "CD", "CF", "CG", "CI", "CM", "CV", "DJ", "DZ", "EG", "EH",
       "ER", "ET", "GA", "GH", "GM", "GN", "GQ", "GW", "IO", "KE", "KM", "LR", "LS", "LY", "MA",
       "MG", "ML", "MR", "MU", "MW", "MZ", "NA", "NE", "NG", "RE", "RW", "SC", "SD", "SH", "SL",
       "SN", "SO", "SS", "ST", "SZ", "TD", "TF", "TG", "TN", "TZ", "UG", "YT", "ZA", "ZM", "ZW"]),
    ("asia",
      ["AE", "AF", "AM", "AZ", "BD", "BH", "BN", "BT", "CN", "CY", "GE", "HK", "ID", "IL", "IN",
       "IQ", "IR", "JO", "JP", "KG", "KH", "KP", "KR", "KW", "KZ", "LA", "LB", "LK", "MM", "MN",
       "MO", "MV", "MY", "NP", "OM", "PH", "PK", "PS", "QA", "SA", "SG", "SY", "TH", "TJ", "TL",
       "TM", "TR", "UZ", "VN", "YE"]),
    ("europe",
      ["AD", "AL", "AT", "AX", "BA", "BE", "BG", "BY", "CH", "CZ", "DE", "DK", "EE", "ES", "FI",
       "FO", "FR", "GB", "GG", "GI", "GR", "HR", "HU", "IE", "IM", "IS", "IT", "JE", "LI", "LT",
       "LU", "LV", "MC", "MD", "ME", "MK", "MT", "NL", "NO", "PL", "PT", "RO", "RS", "RU", "SE",
       "SI", "SJ", "SK", "SM", "UA", "VA"]),
    ("oceania",
      ["AS", "AU", "CC", "CK", "CX", "FJ", "FM", "GU", "HM", "KI", "MH", "MP", "NC", "NF", "NR",
       "NU", "NZ", "PF", "PG", "PN", "PW", "SB", "TK", "TO", "TV", "UM", "VU", "WF", "WS"]),
    ("northern-america",
      ["BM", "CA", "GL", "PM", "US"]),
    ("latin-america-caribbean",
      ["AG", "AI", "AR", "AW", "BB", "BL", "BO", "BQ", "BR", "BS", "BV", "BZ", "CL", "CO", "CR",
       "CU", "CW", "DM", "DO", "EC", "FK", "GD", "GF", "GP", "GS", "GT", "GY", "HN", "HT", "JM",
       "KN", "KY", "LC", "MF", "MQ", "MS", "MX", "NI", "PA", "PE", "PR", "PY", "SR", "SV", "SX",
       "TC", "TT", "UY", "VC", "VE", "VG", "VI"])]

def euMembers : List String :=
  ["AT", "BE", "BG", "CY", "CZ", "DE", "DK", "EE", "ES", "FI", "FR", "GR", "HR", "HU", "IE", "IT",
   "LT", "LU", "LV", "MT", "NL", "PL", "PT", "RO", "SE", "SI", "SK"]

def schengenMembers : List String :=
  ["AT", "BE", "BG", "CH", "CZ", "DE", "DK", "EE", "ES", "FI", "FR", "GR", "HR", "HU", "IS", "IT",
   "LI", "LT", "LU", "LV", "MT", "NL", "NO", "PL", "PT", "RO", "SE", "SI", "SK"]

def natoMembers : List String :=
  ["AL", "BE", "BG", "CA", "CZ", "DE", "DK", "EE", "ES", "FI", "FR", "GB", "GR", "HR", "HU", "IS",
   "IT", "LT", "LU", "LV", "ME", "MK", "NL", "NO", "PL", "PT", "RO", "SE", "SI", "SK", "TR", "US"]

def groups : List (String × List String) :=
  regionalGroups ++
    [("european-union", euMembers), ("schengen-area", schengenMembers), ("nato", natoMembers),
      ("euro-atlantic", sortedKeys (euMembers ++ schengenMembers ++ natoMembers))]

/-- `Countries`: the members of a built-in group. -/
def countries (name : String) : Option (List String) :=
  (groups.find? (·.1 = name)).map (·.2)

end Catalog

namespace Config

/-- `Config.Groups`: the custom groups, a map kept as its list of entries. -/
abbrev Groups := List (String × List String)

/-- The members of a group: a custom group comes first. -/
def Groups.members (groups : Groups) (name : String) : Option (List String) :=
  match groups.find? (·.1 = name) with
  | some group => some group.2
  | none => Catalog.countries name

/-- `rawSelector`: an absent list differs from an empty one. -/
structure RawSelector where
  countries : Option (List String) := none
  rirs : Option (List String) := none
  groups : Option (List String) := none
  asns : Option (List String) := none
  ipLists : Option (List String) := none
  providers : Option (List String) := none

/-- The loop over one list: each value is put into its normal form, or refused by position. -/
def normalizeEach (normal : String → Option String) (refusal : Nat → String) :
    Nat → List String → Except String (List String)
  | _, [] => .ok []
  | i, value :: rest =>
      match normal value with
      | none => .error (refusal i)
      | some value => do
          let others ← normalizeEach normal refusal (i + 1) rest
          return value :: others

def normalizeList (field name : String) (normal : String → Option String) (complaint : String)
    (values : Option (List String)) : Except String (List String) :=
  match values with
  | none => .ok []
  | some [] => .error (field ++ "." ++ name ++ ": must be non-empty when present")
  | some values => do
      let normalized ← normalizeEach normal
        (fun i => field ++ "." ++ name ++ "[" ++ toString i ++ "]: " ++ complaint) 0 values
      return sortedKeys normalized

/-- A value that is its own normal form, where it is accepted. -/
def accepted (valid : String → Bool) (value : String) : Option String :=
  if valid value then some value else none

/-- `normalizeSelector`: the selector and how many selections it makes. -/
def normalizeSelector (raw : RawSelector) (groups : Groups) (ipLists : List (String × IPList))
    (field : String) : Except String (Selector × Nat) := do
  let countries ← normalizeList field "countries"
    (fun v => accepted Catalog.validCountry (Catalog.toUpper v)) "unknown country" raw.countries
  let rirs ← normalizeList field "rirs"
    (fun v => accepted Catalog.validRIR (Catalog.toUpper v)) "unknown RIR" raw.rirs
  let groupNames ← normalizeList field "groups"
    (accepted fun name => (groups.members name).isSome) "unknown group" raw.groups
  let asns ← normalizeList field "asns" (accepted Catalog.validASN)
    "must use canonical AS<number> form" raw.asns
  let lists ← normalizeList field "ip_lists" (accepted fun name => ipLists.any (·.1 = name))
    "unknown list" raw.ipLists
  let providers ← normalizeList field "providers" (accepted Catalog.validProviderID)
    ("must use a lowercase provider ID containing only letters, digits, hyphens, or " ++
      "underscores") raw.providers
  let members := groupNames.flatMap fun name => ((groups.members name).getD []).map Catalog.toUpper
  let selector : Selector :=
    { countries, rirs, groups := groupNames, asns, ipLists := lists, providers
      expandedCountries := sortedKeys (countries ++ members) }
  return (selector, countries.length + rirs.length + groupNames.length + asns.length +
    lists.length + providers.length)

/-- What normalization makes of the name and the selectors of a policy; a missing `exclude` is
empty. -/
structure NormalizedPolicy (groups : Groups) (ipLists : List (String × IPList)) (p : Policy) :
    Prop where
  name : Catalog.validName p.name = true
  included : ∃ raw field count, normalizeSelector raw groups ipLists field = .ok (p.included, count)
  excluded : p.excluded = {} ∨
    ∃ raw field count, normalizeSelector raw groups ipLists field = .ok (p.excluded, count)

theorem NormalizedPolicy.name_ne {gs : Groups} {ipLists : List (String × IPList)} {p : Policy}
    (h : NormalizedPolicy gs ipLists p) : p.name ≠ "" := by
  intro hempty
  have hva := h.name
  rw [hempty] at hva
  cases hva

/-- **The expansion of a normalized selector** is its own countries and those of its groups. -/
theorem mem_expandedCountries {raw : RawSelector} {gs : Groups}
    {ipLists : List (String × IPList)} {field : String} {sel : Selector} {count : Nat}
    (h : normalizeSelector raw gs ipLists field = .ok (sel, count)) (code : String) :
    code ∈ sel.expandedCountries ↔ code ∈ sel.countries ∨
      ∃ name ∈ sel.groups, ∃ members, gs.members name = some members ∧
        ∃ member ∈ members, Catalog.toUpper member = code := by
  unfold normalizeSelector at h
  obtain ⟨countries, -, h⟩ := bind_eq_ok.mp h
  obtain ⟨rirs, -, h⟩ := bind_eq_ok.mp h
  obtain ⟨groupNames, -, h⟩ := bind_eq_ok.mp h
  obtain ⟨asns, -, h⟩ := bind_eq_ok.mp h
  obtain ⟨lists, -, h⟩ := bind_eq_ok.mp h
  obtain ⟨providers, -, h⟩ := bind_eq_ok.mp h
  have hse := (Prod.mk.inj (pure_eq_ok.mp h)).1
  subst hse
  rw [mem_sortedKeys, List.mem_append, List.mem_flatMap]
  refine or_congr_right (exists_congr fun name => and_congr_right fun _ => ?_)
  cases hme : gs.members name with
  | none => simp
  | some members => simp

end Config

end Perimeterd
