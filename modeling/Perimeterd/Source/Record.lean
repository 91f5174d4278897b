import Perimeterd.Config.URL
import Perimeterd.Policy.Model
import Perimeterd.Policy.Snapshot

/-!
# Source records

`internal/source/source.go`, `cache_format.go` and `dbip_metadata.go`, with the bindings of
`internal/upstream/binding.go`: what identifies the source of a selector, what a record keeps of a
retrieval, and the canonical form every record has in the cache.

A record is accepted by its metadata: `canonicalRecord` checks a record on its own,
`validateDBIPBatch` checks that the country records of a snapshot belong together, and
`recordMatchesConfig` compares a record with the source the configuration names now. Bodies and
files are known by what they decode to. Parameters are a map in the source, kept here as its entries
by ascending key.
-/

namespace Perimeterd.Source

open Lib Policy
open Config (Duration TransportType)

/-- What the source package takes from `net/url` and `strconv`: URLs, and the shortest text of a
number. -/
structure Texts where
  url : Config.NetURL
  parseFloat : String → Option String

def plainTexts : Texts where
  url := Config.plainURL
  parseFloat := some

/-! ## Identifiers -/

inductive SourceKind where
  | unset
  | ripestat
  | ipList
  | provider
  | dbipLite
  | other (text : String)
deriving DecidableEq

def listFormatVersion : String := "1"

def csvFormatVersion : String := "csv-1"

def dbipFormatVersion : String := "dbip-country-csv-1"

def countryEndpoint : String := "https://stat.ripe.net/data/country-resource-list/data.json"

def asnEndpoint : String := "https://stat.ripe.net/data/announced-prefixes/data.json"

def countryVersion : String := "0.2"

def asnVersion : String := "1.2"

def maxSelectors : Nat := 512

def isLowerHex (c : Char) : Bool := c.isDigit || ('a' ≤ c && c ≤ 'f')

def validateCacheID (value label : String) : Except String Unit :=
  if value.toList.length ≠ 64 then
    .error ("source cache: " ++ label ++ " identity must be 64 lowercase hex characters")
  else if !value.toList.all isLowerHex then
    .error ("source cache: " ++ label ++ " identity is not lowercase hexadecimal")
  else .ok ()

def providerEndpoint (id : String) : Except String String :=
  if Catalog.validProviderID id then
    .ok ("https://cdn.jsdelivr.net/gh/rezmoss/cloud-provider-ip-addresses@main/" ++ id ++ "/" ++ id ++
      "_ips_merged.txt")
  else .error ("invalid provider ID " ++ id.quote)

def dbipEndpoint (release : String) : String :=
  "https://download.db-ip.com/free/dbip-country-lite-" ++ release ++ ".csv.gz"

/-! ## Bindings -/

structure Binding where
  type : TransportType := .unset
  identity : String := ""
  identityGeneration : String := ""
  service : String := ""
deriving DecidableEq

def isSpace (c : Char) : Bool :=
  let n := c.toNat
  (9 ≤ n && n ≤ 13) || n == 0x20 || n == 0x85 || n == 0xa0 || n == 0x1680 ||
    (0x2000 ≤ n && n ≤ 0x200a) || n == 0x2028 || n == 0x2029 || n == 0x202f || n == 0x205f ||
    n == 0x3000

def blank (s : String) : Bool := s.toList.all isSpace

def validGeneration (value : String) : Bool :=
  value.toList.length = 64 && value.toList.all isLowerHex

def transportText : TransportType → String
  | .unset => ""
  | .direct => "direct"
  | .openziti => "openziti"
  | .other text => text

def Binding.validate (b : Binding) : Except String Unit :=
  match b.type with
  | .direct =>
      if b.identity ≠ "" ∨ b.identityGeneration ≠ "" ∨ b.service ≠ "" then
        .error "direct binding cannot contain identity, generation, or service"
      else .ok ()
  | .openziti =>
      if blank b.identity then .error "openziti binding identity is required"
      else if blank b.service then .error "openziti binding service is required"
      else if !validGeneration b.identityGeneration then
        .error "openziti binding identity generation is malformed"
      else .ok ()
  | type => .error ("unsupported binding type " ++ (transportText type).quote)

/-- `Binding.MatchesConfig`: the captured generation is ignored. -/
def Binding.matchesConfig (b : Binding) (route : Config.Transport) : Bool :=
  let routeType := if route.type = .unset then .direct else route.type
  if routeType ≠ b.type then false
  else if routeType = .direct then
    route.identity = "" && route.service = "" && b.validate.isOk
  else b.identity = route.identity && b.service = route.service && b.validate.isOk

def canonicalBinding (b : Binding) : Except String Binding :=
  match b.type with
  | .openziti => do
      b.validate.mapError fun e => "invalid transport binding: " ++ e
      return b
  | .other text => .error ("unsupported transport binding type " ++ text.quote)
  | _ =>
      if b.identity ≠ "" ∨ b.identityGeneration ≠ "" ∨ b.service ≠ "" then
        .error "direct transport binding contains identity fields"
      else .ok {}

def isDirectBinding (b : Binding) : Bool := b.type = .unset || b.type = .direct

def bindingMatchesConfig (b : Binding) (route : Config.Transport) : Bool :=
  if route.type = .unset ∨ route.type = .direct then
    isDirectBinding b && Binding.matchesConfig { type := .direct } route
  else b.matchesConfig route

/-- `upstream.Session`, as far as routes are concerned: the captured identity of each profile. A
resolver without a session has none. -/
abbrev Session := Option (List (String × Binding))

def sessionBinding (generations : List (String × Binding)) (route : Config.Transport) :
    Except String Binding :=
  match route.type with
  | .unset | .direct =>
      if route.identity ≠ "" ∨ route.service ≠ "" then
        .error "direct transport cannot select identity or service"
      else .ok { type := .direct }
  | .other text => .error ("unsupported transport type " ++ text.quote)
  | .openziti =>
      if blank route.identity || blank route.service then
        .error "openziti transport requires identity and service"
      else
        match generations.lookup route.identity with
        | none => .error ("openziti identity " ++ route.identity.quote ++ " is not loaded")
        | some gen =>
            let b := { gen with service := route.service }
            if gen.service ≠ "" ∨ !b.validate.isOk then
              .error "invalid captured openziti binding"
            else .ok b

/-- `Resolver.bindingForRoute`: the direct route is the zero binding. -/
def bindingForRoute (session : Session) (route : Config.Transport) : Except String Binding :=
  match session with
  | none =>
      if route.type = .unset ∨ route.type = .direct then .ok {}
      else .error "source: OpenZiti transport session is required"
  | some generations => do
      let b ← sessionBinding generations route
      return if b.type = .direct then {} else b

/-! ## CSV options -/

abbrev Parameters := List (String × String)

/-- Whether a `float64` compares equal to zero. -/
def isZeroNumber (value : String) : Bool := value = "0" || value = "-0"

def filterIsZero (f : Config.CSVFilter) : Bool := f.column = 0 && f.op = "" && isZeroNumber f.value

def csvIsZero (c : Config.CSV) : Bool :=
  c.delimiter = "" && !c.header && c.ipColumn = 0 && filterIsZero c.filter

def validDelimiter (delimiter : String) : Bool :=
  match delimiter.toList with
  | [c] => !(['�', '\u0000', '\r', '\n', '"', '#'].contains c)
  | _ => false

def validFilterOps : List String := ["==", "!=", "<", "<=", ">", ">="]

def normalizeCSV (c : Config.CSV) (path : String) (filterPresent : Bool) :
    Except String Config.CSV :=
  let c := { c with delimiter := if c.delimiter = "" then "," else c.delimiter }
  if !validDelimiter c.delimiter then
    .error (path ++ ".delimiter: must contain one valid CSV delimiter rune")
  else if c.ipColumn ≤ 0 then
    .error (path ++ ".ip_column: must be a positive one-based integer")
  else if !filterPresent then .ok c
  else if c.filter.column ≤ 0 then
    .error (path ++ ".filter.column: must be a positive one-based integer")
  else if c.filter.op ∉ validFilterOps then
    .error (path ++ ".filter.op: unsupported numeric operator")
  else if ["NaN", "+Inf", "-Inf"].contains c.filter.value then
    .error (path ++ ".filter.value: must be finite")
  else if isZeroNumber c.filter.value then
    .ok { c with filter := { c.filter with value := "0" } }
  else .ok c

def csvParameters (c : Config.CSV) : Except String Parameters := do
  let c ← normalizeCSV c "csv" (!filterIsZero c.filter)
  let filter := if filterIsZero c.filter then [] else
    [("filter_column", toString c.filter.column), ("filter_op", c.filter.op),
     ("filter_value", c.filter.value)]
  return ("delimiter", c.delimiter) :: filter ++
    [("header", toString c.header), ("ip_column", toString c.ipColumn)]

def parseBool (s : String) : Option Bool :=
  if ["1", "t", "T", "TRUE", "true", "True"].contains s then some true
  else if ["0", "f", "F", "FALSE", "false", "False"].contains s then some false
  else none

section Texts

variable (texts : Texts)

/-- The filter of persisted parameters. -/
def filterFromParameters (parameters : Parameters) : Except String (Option Config.CSVFilter) :=
  match parameters.lookup "filter_column", parameters.lookup "filter_op",
      parameters.lookup "filter_value" with
  | none, none, none => .ok none
  | some column, some op, some value =>
      match column.toInt? with
      | none => .error "csv.filter.column: invalid persisted integer"
      | some column =>
          match texts.parseFloat value with
          | none => .error "csv.filter.value: invalid persisted number"
          | some value => .ok (some ⟨column, op, value⟩)
  | _, _, _ => .error "csv.filter: incomplete persisted parameters"

/-- `CSVConfigFromParameters`: only what `Parameters` writes is read back. -/
def csvConfigFromParameters (parameters : Parameters) : Except String Config.CSV :=
  match parseBool ((parameters.lookup "header").getD "") with
  | none => .error "csv.header: invalid persisted boolean"
  | some header =>
      match ((parameters.lookup "ip_column").getD "").toInt? with
      | none => .error "csv.ip_column: invalid persisted integer"
      | some ipColumn => do
          let filter ← filterFromParameters texts parameters
          let c ← normalizeCSV
            { delimiter := (parameters.lookup "delimiter").getD "", header := header,
              ipColumn := ipColumn, filter := filter.getD {} } "csv" filter.isSome
          let canonical ← csvParameters c
          if parameters.length ≠ canonical.length then
            .error "csv: unexpected persisted parameter shape"
          else
            match canonical.find? fun entry => parameters.lookup entry.1 ≠ some entry.2 with
            | some (key, _) => .error ("csv." ++ key ++ ": noncanonical persisted parameter")
            | none => .ok c

/-! ## Selectors -/

structure SelectorSpec where
  refreshInterval : Duration
  requestTimeout : Duration
  refreshJitter : Duration := 0
  transport : Config.Transport := {}
  endpoint : String := ""
  sourceKind : SourceKind
  sourceName : String := ""
  apiVersion : String
  parameters : Parameters := []

/-- The parser options of a custom list; a plain text list has none. -/
def listParameters (list : Config.IPList) (name : String) : Except String Parameters :=
  if csvIsZero list.csv then .ok []
  else (csvParameters list.csv).mapError fun e =>
    "source: custom list " ++ name.quote ++ " has invalid CSV options: " ++ e

/-- `DescribeSelector` for a custom list. -/
def describeList (cfg : Config) (name : String) : Except String SelectorSpec :=
  match cfg.ipLists.lookup name with
  | none => .error ("source: custom list " ++ name.quote ++ " is not configured")
  | some list => do
      let endpoint ← (texts.url.normalizeIPListURL list.url).mapError fun _ =>
        "source: custom list " ++ name.quote ++ " has invalid URL"
      let parameters ← listParameters list name
      return { refreshInterval := list.refreshInterval, requestTimeout := list.requestTimeout,
               transport := list.transport, endpoint := endpoint, sourceKind := .ipList,
               sourceName := name,
               apiVersion := if csvIsZero list.csv then listFormatVersion else csvFormatVersion,
               parameters := parameters }

def describeSelector (cfg : Config) (selector : Selector) : Except String SelectorSpec :=
  match selector.kind with
  | .ipList => describeList texts cfg selector.value
  | .provider => do
      let endpoint ← providerEndpoint selector.value
      return { refreshInterval := cfg.providers.refreshInterval,
               requestTimeout := cfg.providers.requestTimeout, endpoint := endpoint,
               sourceKind := .provider, sourceName := selector.value,
               apiVersion := listFormatVersion }
  | .country =>
      let spec : SelectorSpec :=
        { refreshInterval := cfg.geo.refreshInterval, requestTimeout := cfg.geo.requestTimeout,
          refreshJitter := cfg.geo.refreshJitter, sourceKind := .dbipLite,
          apiVersion := dbipFormatVersion }
      if cfg.geo.effectiveCountryProvider = .dbipLite then .ok spec
      else .ok { spec with
        endpoint := countryEndpoint, sourceKind := .ripestat, apiVersion := countryVersion }
  | .asn => .ok
      { refreshInterval := cfg.geo.refreshInterval, requestTimeout := cfg.geo.requestTimeout,
        refreshJitter := cfg.geo.refreshJitter, endpoint := asnEndpoint, sourceKind := .ripestat,
        apiVersion := asnVersion }
  | .rir => .error ("source: unsupported source selector kind " ++ selector.kind.text.quote)

/-- `ripeRequestFor`: the endpoint, its version and the parameters of a request. -/
def ripeRequestFor (selector : Selector) : Except String (String × String × Parameters) :=
  match selector.kind with
  | .country => .ok (countryEndpoint, countryVersion,
      [("resource", selector.value), ("sourceapp", "perimeterd"), ("v4_format", "prefix")])
  | .asn => .ok (asnEndpoint, asnVersion,
      [("resource", String.ofList (selector.value.toList.drop 2)), ("sourceapp", "perimeterd")])
  | _ => .error "cache selector must be an expanded country or ASN"

/-! ## Records -/

structure Record where
  selector : Selector
  sourceKind : SourceKind := .unset
  sourceName : String := ""
  endpoint : String := ""
  apiVersion : String := ""
  release : String := ""
  parameters : Parameters := []
  queryStart : Time := 0
  queryEnd : Time := 0
  retrievedAt : Time := 0
  ipv4 : List NetipPrefix := []
  ipv6 : List NetipPrefix := []
  transport : Binding := {}
deriving DecidableEq

/-- The release check of `validateDBIPRecord`: a canonical `YYYY-MM` from the year 1 on. -/
def validRelease (release : String) : Bool :=
  match release.toList with
  | [a, b, c, d, '-', e, f] =>
      [a, b, c, d, e, f].all Char.isDigit && 1 ≤ Catalog.decimal [a, b, c, d] &&
        1 ≤ Catalog.decimal [e, f] && Catalog.decimal [e, f] ≤ 12
  | _ => false

def validateDBIPRecord (record : Record) : Except String Unit :=
  if canonicalSelector record.selector.kind record.selector.value ≠ .ok record.selector ∨
      record.selector.kind ≠ .country then
    .error "DB-IP selector must be a canonical ISO country"
  else if record.sourceKind ≠ .dbipLite ∨ record.sourceName ≠ "" ∨
      record.apiVersion ≠ dbipFormatVersion then
    .error "unsupported DB-IP source identity or parser version"
  else if !validRelease record.release then .error "DB-IP release must be canonical YYYY-MM"
  else if record.endpoint ≠ dbipEndpoint record.release then
    .error "DB-IP endpoint does not match release"
  else if record.parameters.length ≠ 2 ∨
      (record.parameters.lookup "resource").getD "" ≠ record.selector.value then
    .error "DB-IP parameters do not match selector identity"
  else do
    validateCacheID ((record.parameters.lookup "sha256").getD "") "DB-IP artifact sha256"
    if record.queryStart ≠ 0 ∨ record.queryEnd ≠ 0 then
      .error "DB-IP query timestamps are not allowed"
    else if record.retrievedAt = 0 then .error "DB-IP retrieved_at is required"
    else if canonicalBinding record.transport ≠ .ok {} then
      .error "DB-IP transport must be direct"
    else .ok ()

/-- What identifies the artifact a DB-IP record was taken from. -/
def Record.artifact (record : Record) : String × String × Time :=
  (record.release, (record.parameters.lookup "sha256").getD "", record.retrievedAt)

def Record.countryProvider (record : Record) : SourceKind :=
  if record.sourceKind = .unset then .ripestat else record.sourceKind

/-- The loop of `validateDBIPBatch`, with the first DB-IP record and the country provider so far. -/
def validateBatchLoop : Nat → Option Record → Option SourceKind → List Record → Except String Unit
  | _, _, _, [] => .ok ()
  | i, first, provider, record :: rest => do
      if record.selector.kind = .country ∧ provider.any (· ≠ record.countryProvider) then
        throw "country batch has inconsistent providers"
      let provider := if record.selector.kind = .country then some record.countryProvider
        else provider
      if record.sourceKind ≠ .dbipLite then validateBatchLoop (i + 1) first provider rest
      else do
        (validateDBIPRecord record).mapError fun e => "DB-IP record " ++ toString i ++ ": " ++ e
        if first.any (·.artifact ≠ record.artifact) then
          throw ("DB-IP country batch has inconsistent release, artifact digest or retrieval " ++
            "time")
        validateBatchLoop (i + 1) (some (first.getD record)) provider rest

def validateDBIPBatch (records : List Record) : Except String Unit :=
  validateBatchLoop 0 none none records

/-- The checks of `normalizeFamily` before it normalizes; `i` is the position reported. -/
def checkFamily (family : Family) : Nat → List NetipPrefix → Except String Unit
  | _, [] => .ok ()
  | i, .valid p :: rest =>
      if p.addr.family = family then checkFamily family (i + 1) rest
      else .error ("prefix " ++ toString i ++ " has wrong address family")
  | i, _ :: _ => .error ("prefix " ++ toString i ++ " is malformed")

def normalizeFamily (values : List NetipPrefix) (family : Family) :
    Except String (List NetipPrefix) := do
  checkFamily family 0 values
  let normalized ← Prefix.normalize values
  return normalized.map .valid

def normalizeFamilies (record : Record) : Except String Record := do
  let v4 ← (normalizeFamily record.ipv4 .ipv4).mapError fun e => "IPv4: " ++ e
  let v6 ← (normalizeFamily record.ipv6 .ipv6).mapError fun e => "IPv6: " ++ e
  return { record with ipv4 := v4, ipv6 := v6 }

def canonicalTimestamp (value : Time) (field : String) : Except String Unit :=
  if value = 0 then .error (field ++ " is required") else .ok ()

/-- The parameters a custom list or a provider may carry. -/
def checkListFormat (record : Record) (label : String) : Except String Unit :=
  if record.apiVersion = listFormatVersion then
    if record.parameters ≠ [] then .error (label ++ " request metadata is not empty") else .ok ()
  else if record.apiVersion = csvFormatVersion ∧ record.sourceKind = .ipList then do
    let _ ← (csvConfigFromParameters texts record.parameters).mapError fun e =>
      label ++ " CSV metadata is invalid: " ++ e
    return ()
  else .error ("unsupported " ++ label ++ " parser version")

/-- `canonicalRecord` for a custom list or a provider, with the checks of that kind. -/
def canonicalText (record : Record) (expected : SelectorKind) (label : String)
    (check : Except String Unit) : Except String Record := do
  check
  if record.selector.kind ≠ expected ∨ record.sourceName ≠ record.selector.value then
    throw (label ++ " identity does not match selector")
  if texts.url.normalizeIPListURL record.endpoint ≠ .ok record.endpoint then
    throw (label ++ " URL is not canonical")
  if expected = .provider ∧ providerEndpoint record.selector.value ≠ .ok record.endpoint then
    throw "provider URL does not match selector"
  checkListFormat texts record label
  if record.queryStart ≠ 0 ∨ record.queryEnd ≠ 0 then
    throw (label ++ " query timestamps are not allowed")
  canonicalTimestamp record.retrievedAt "retrieved_at"
  normalizeFamilies record

/-- `canonicalRecord` for RIPEstat; the record leaves its source kind empty. -/
def canonicalRIPE (record : Record) : Except String Record := do
  if record.sourceName ≠ "" then throw "unsupported source identity"
  if record.transport.type ≠ .unset then throw "RIPEstat transport must be direct"
  let (endpoint, version, parameters) ← ripeRequestFor record.selector
  if record.endpoint ≠ endpoint ∨ record.apiVersion ≠ version then
    throw "unsupported selector endpoint or API version"
  if record.parameters ≠ parameters then
    throw "selector request parameters do not match its identity"
  canonicalTimestamp record.queryStart "query_start"
  canonicalTimestamp record.queryEnd "query_end"
  canonicalTimestamp record.retrievedAt "retrieved_at"
  if record.queryEnd < record.queryStart then throw "query_end precedes query_start"
  if record.selector.kind = .country ∧ record.queryStart ≠ record.queryEnd then
    throw "country query must name a single instant"
  if record.queryEnd > record.retrievedAt then throw "query end is later than retrieval"
  normalizeFamilies { record with sourceKind := .unset }

def canonicalRecord (record : Record) : Except String Record := do
  let selector ← canonicalSelector record.selector.kind record.selector.value
  let transport ← canonicalBinding record.transport
  if record.sourceKind ≠ .dbipLite ∧ record.release ≠ "" then
    throw "release metadata is only allowed for DB-IP"
  let canonical := { record with selector := selector, transport := transport }
  match record.sourceKind with
  | .dbipLite => do
      validateDBIPRecord record
      normalizeFamilies canonical
  | .ipList => canonicalText texts canonical .ipList "custom list" (.ok ())
  | .provider =>
      canonicalText texts canonical .provider "provider"
        (if transport.type ≠ .unset then .error "provider transport must be direct" else .ok ())
  | .unset | .ripestat => canonicalRIPE canonical
  | .other _ => throw "unsupported source identity"

/-! ## Matching the configuration -/

def recordMatchesConfig (cfg : Config) (record : Record) : Bool :=
  match describeSelector texts cfg record.selector with
  | .error _ => false
  | .ok spec =>
      if record.selector.kind = .country ∧ spec.sourceKind = .dbipLite then
        (validateDBIPRecord record).isOk
      else if record.release ≠ "" then false
      else
        match record.selector.kind with
        | .ipList =>
            record.sourceKind = spec.sourceKind && record.sourceName = spec.sourceName &&
              record.endpoint = spec.endpoint && record.apiVersion = spec.apiVersion &&
              record.parameters = spec.parameters &&
              bindingMatchesConfig record.transport spec.transport
        | .provider =>
            record.sourceKind = spec.sourceKind && record.sourceName = spec.sourceName &&
              record.endpoint = spec.endpoint && record.apiVersion = spec.apiVersion &&
              isDirectBinding record.transport
        | .country | .asn =>
            (record.sourceKind = .unset || record.sourceKind = spec.sourceKind) &&
              record.endpoint = spec.endpoint && record.apiVersion = spec.apiVersion &&
              isDirectBinding record.transport
        | .rir => false

end Texts

end Perimeterd.Source
