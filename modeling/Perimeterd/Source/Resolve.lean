import Perimeterd.Policy.Compile
import Perimeterd.Source.Record
import Perimeterd.State.Records

/-!
# Resolution

`internal/source/cache.go` and `resolve.go`: loading and staging a snapshot, fetching, and `resolve`.

What one call meets is collected in `Surroundings`: the clock, the end of its context wherever it is
checked, the answers of the upstreams attempt by attempt, the order in which jobs complete and the
failures of the disk. A map from selectors to records is a list of records with distinct selectors.
The cache is content-addressed, so a manifest that has been installed reads back as what was written;
files staged by a call are read again only by that call, and the cache is not threaded through.
-/

namespace Perimeterd.Source

open Lib Policy State
open Config (Duration)

/-! ## Snapshots -/

/-- `source.Snapshot`; the zero snapshot has no manifest. -/
structure Snapshot where
  manifest : Option Manifest := none
  policy : Policy.Snapshot := ⟨[]⟩
  records : List Record := []

/-- The loop of `Snapshot.ValidateConfig`. -/
def validateRecords (texts : Texts) (cfg : Config) :
    List Selector → List Record → Except String Unit
  | selector :: required, record :: records =>
      if record.selector ≠ selector then .error "source snapshot selector coverage mismatch"
      else if recordMatchesConfig texts cfg record = false then
        .error ("source snapshot identity mismatch for " ++ selector.kind.text ++ "/" ++
          selector.value)
      else validateRecords texts cfg required records
  | _, _ => .ok ()

def validateSnapshot (texts : Texts) (cfg : Config) (snapshot : Snapshot) :
    Except String Unit := do
  let required ← requiredSelectors cfg
  if snapshot.records.length ≠ required.length then
    throw "source snapshot selector coverage mismatch"
  validateRecords texts cfg required snapshot.records
  validateDBIPBatch snapshot.records

/-- What the manifests that can be read decode to, and the digest of a manifest's content. -/
structure Cache where
  content : Manifest → Option (List Record)
  digest : List Record → Manifest

/-- A record of a custom list or a provider has prefixes. -/
def checkPrefixes (record : Record) (what : String) : Except String Unit :=
  if record.ipv4 ≠ [] ∨ record.ipv6 ≠ [] then .ok ()
  else
    match record.sourceKind with
    | .provider => .error ("provider " ++ what ++ " contains no prefixes")
    | .ipList => .error ("custom list " ++ what ++ " contains no prefixes")
    | _ => .ok ()

section Texts

variable (texts : Texts)

/-- `validateManifestEntry` and `loadObject` for one record. -/
def loadRecord (record : Record) : Except String Record := do
  if canonicalSelector record.selector.kind record.selector.value ≠ .ok record.selector then
    throw "selector is not canonical"
  checkPrefixes record "object"
  let canonical ← canonicalRecord texts record
  if canonical.ipv4 ≠ record.ipv4 ∨ canonical.ipv6 ≠ record.ipv6 then
    throw "prefix arrays are not canonical"
  return canonical

def loadRecords : Nat → List Record → Except String (List Record)
  | _, [] => .ok []
  | i, record :: rest => do
      let loaded ← (loadRecord texts record).mapError fun e =>
        "selector " ++ toString i ++ ": " ++ e
      let others ← loadRecords (i + 1) rest
      return loaded :: others

/-- `validateManifest`, as far as the list of selectors is concerned. -/
def checkManifest (records : List Record) : Except String Unit :=
  if records = [] ∨ records.length > maxSelectors then .error "manifest selector count is invalid"
  else if ¬ records.IsChain (fun a b => a.selector.less b.selector = true) then
    .error "manifest selectors are not strictly sorted"
  else .ok ()

/-- The compiler's input: each record's prefixes. -/
def resolvedSelectors (records : List Record) : List ResolvedSelector :=
  records.map fun r => ⟨r.selector, r.ipv4, r.ipv6⟩

def loadContent (id : Manifest) (stored : List Record) : Except String Snapshot := do
  checkManifest stored
  let records ← loadRecords texts 0 stored
  validateDBIPBatch records
  let compiled ← newSnapshot (resolvedSelectors records)
  return { manifest := some id, policy := compiled, records := records }

def Cache.load (cache : Cache) (id : Manifest) : Except String Snapshot :=
  match cache.content id with
  | none => .error "manifest cannot be read"
  | some stored => (loadContent texts id stored).mapError ("manifest: " ++ ·)

/-- The loop of `canonicalRecords`, with the selectors seen so far. -/
def canonicalLoop : Nat → List Selector → List Record → Except String (List Record)
  | _, _, [] => .ok []
  | i, seen, record :: rest => do
      let canonical ← (canonicalRecord texts record).mapError fun e =>
        "record " ++ toString i ++ ": " ++ e
      if canonical.selector ∈ seen then
        throw ("record " ++ toString i ++ ": duplicate selector " ++ canonical.selector.kind.text ++
          "/" ++ canonical.selector.value)
      let others ← canonicalLoop (i + 1) (canonical.selector :: seen) rest
      return canonical :: others

def canonicalRecords (records : List Record) : Except String (List Record) := do
  let canonical ← canonicalLoop texts 0 [] records
  return sortSlice (fun a b => a.selector.less b.selector) canonical

/-- Every record of a list passes a check. -/
def checkAll (check : Record → Except String Unit) : List Record → Except String Unit
  | [] => .ok ()
  | record :: rest => do
      check record
      checkAll check rest

/-- `Cache.Stage`; `disk` is the failure of an installation, if there is one. -/
def Cache.stage (cache : Cache) (disk : Option String) (records : List Record) :
    Except String Snapshot :=
  if records = [] then .ok {}
  else if records.length > maxSelectors then .error "source cache: too many selectors"
  else do
    let canonical ← canonicalRecords texts records
    validateDBIPBatch canonical
    checkAll (checkPrefixes · "selector") canonical
    match disk with
    | some e => .error e
    | none => loadContent texts (cache.digest canonical) canonical

end Texts

/-! ## Fetching -/

/-- A failed attempt: whether it may be repeated, and whether the artifact was not there. -/
structure Failure where
  text : String
  retryable : Bool := false
  notFound : Bool := false

/-- An error that is not worth another attempt. -/
def permanent {α : Type} (x : Except String α) : Except Failure α :=
  x.mapError fun e => { text := e }

structure Response where
  ipv4 : List NetipPrefix
  ipv6 : List NetipPrefix
  queryStart : Time := 0
  queryEnd : Time := 0
  retrieved : Time

structure Artifact where
  sha256 : String
  retrieved : Time
  prefixes : Selector → List NetipPrefix × List NetipPrefix

/-- Where a call checks its context. -/
inductive Check where
  | start
  | fallback
  | fallbackCompiled
  | fallbackStaged
  | reuseCompiled
  | fetched
deriving DecidableEq

structure Surroundings where
  now : Selector → Time
  month : Nat
  interrupted : Check → Option String := fun _ => none
  respond : Selector → Nat → Except Failure Response
  artifact : String → Nat → Except Failure Artifact
  completed : List Selector → List Selector := id
  disk : Option String := none

/-- `Resolver`: its cache, its session, and what its package takes from elsewhere. -/
structure Resolver (δ : Type) where
  texts : Texts
  cache : Cache
  session : Session := none
  fingerprint : Family → List Prefix → δ

/-- The rounds of `retryFetch`, of which `n` are left. -/
def retryRounds {α : Type} (fetch : Nat → Except Failure α) : Nat → Nat → Except Failure α
  | attempt, 0 => fetch attempt
  | attempt, n + 1 =>
      match fetch attempt with
      | .ok a => .ok a
      | .error e => if e.retryable then retryRounds fetch (attempt + 1) n else .error e

/-- `retryFetch`: at most three attempts. -/
def retryFetch {α : Type} (fetch : Nat → Except Failure α) : Except Failure α :=
  (retryRounds fetch 0 2).mapError fun e =>
    if e.retryable then { e with text := "after 3 attempts: " ++ e.text } else e

def validateSelectorTiming (selector : Selector) (refreshInterval requestTimeout : Duration) :
    Except String Unit :=
  if refreshInterval > 0 ∧ requestTimeout > 0 then .ok ()
  else
    match selector.kind with
    | .ipList => .error ("source: custom list " ++ selector.value.quote ++ " has invalid timing")
    | .provider => .error "source: provider refresh interval and request timeout must be positive"
    | _ => .error "source: refresh interval and request timeout must be positive"

/-- The text of a month, counted from the year 0. -/
def monthText (month : Nat) : String :=
  let pad := fun (width n : Nat) =>
    let digits := toString n
    String.ofList (List.replicate (width - digits.length) '0') ++ digits
  pad 4 (month / 12) ++ "-" ++ pad 2 (month % 12 + 1)

section Fetch

variable {δ : Type} (r : Resolver δ) (env : Surroundings) (cfg : Config)

def listDescription (selector : Selector) : String :=
  (if selector.kind = .provider then "provider " else "custom list ") ++ selector.value.quote

def finishListRecord (selector : Selector) (kind : SourceKind) (spec : SelectorSpec)
    (response : Response) : Except String Record := do
  let description := listDescription selector
  let v4 ← (normalizeFamily response.ipv4 .ipv4).mapError (description ++ " IPv4: " ++ ·)
  let v6 ← (normalizeFamily response.ipv6 .ipv6).mapError (description ++ " IPv6: " ++ ·)
  let endpoint ← (r.texts.url.normalizeIPListURL spec.endpoint).mapError fun _ =>
    description ++ " has invalid endpoint"
  return { selector := selector, sourceKind := kind, sourceName := selector.value,
           endpoint := endpoint, apiVersion := spec.apiVersion, parameters := spec.parameters,
           retrievedAt := response.retrieved, ipv4 := v4, ipv6 := v6 }

/-- `parseCountry` and `parseASN`, on what the body parses to. -/
def ripeRecord (selector : Selector) (response : Response) : Except String Record := do
  let (endpoint, version, parameters) ← ripeRequestFor selector
  if selector.kind = .asn ∧ response.queryEnd < response.queryStart then
    throw "ASN query_endtime precedes query_starttime"
  let label := if selector.kind = .country then "country" else "ASN"
  let v4 ← (normalizeFamily response.ipv4 .ipv4).mapError (label ++ " IPv4: " ++ ·)
  let v6 ← (normalizeFamily response.ipv6 .ipv6).mapError (label ++ " IPv6: " ++ ·)
  return { selector := selector, endpoint := endpoint, apiVersion := version,
           parameters := parameters,
           queryStart := if selector.kind = .country then response.queryEnd else response.queryStart,
           queryEnd := response.queryEnd, retrievedAt := response.retrieved, ipv4 := v4,
           ipv6 := v6 }

def fetchAttempt (selector : Selector) (answer : Except Failure Response) :
    Except Failure Record := do
  let spec ← permanent (describeSelector r.texts cfg selector)
  permanent (validateSelectorTiming selector spec.refreshInterval spec.requestTimeout)
  match selector.kind with
  | .ipList => do
      let binding ← permanent ((bindingForRoute r.session spec.transport).mapError
        (listDescription selector ++ " transport: " ++ ·))
      let response ← answer
      let record ← permanent (finishListRecord r selector .ipList spec response)
      return { record with transport := binding }
  | .provider => do
      let response ← answer
      permanent (finishListRecord r selector .provider spec response)
  | .country | .asn => do
      let response ← answer
      permanent (ripeRecord selector response)
  | .rir => throw { text := "unsupported source selector kind " ++ selector.kind.text.quote }

def fetchOne (selector : Selector) : Except Failure Record :=
  retryFetch fun attempt => fetchAttempt r cfg selector (env.respond selector attempt)

/-- The record of one country in an artifact. -/
def dbipRecord (release : String) (artifact : Artifact) (selector : Selector) :
    Except String Record := do
  let v4 ← Prefix.normalize (artifact.prefixes selector).1
  let v6 ← Prefix.normalize (artifact.prefixes selector).2
  return { selector := selector, sourceKind := .dbipLite, apiVersion := dbipFormatVersion,
           release := release, endpoint := dbipEndpoint release,
           retrievedAt := artifact.retrieved,
           parameters := [("resource", selector.value), ("sha256", artifact.sha256)],
           ipv4 := v4.map .valid, ipv6 := v6.map .valid }

def dbipRecords (release : String) (artifact : Artifact) :
    List Selector → Except String (List Record)
  | [] => .ok []
  | selector :: rest => do
      let record ← dbipRecord release artifact selector
      let others ← dbipRecords release artifact rest
      return record :: others

/-- `fetchDBIPAttempt` for one release, with its retries. -/
def fetchRelease (countries : List Selector) (release : String) : Except Failure (List Record) :=
  retryFetch fun attempt => do
    let artifact ← env.artifact release attempt
    permanent (dbipRecords release artifact countries)

/-- `fetchDBIP`: this month's release or, while it is not there, the last one. -/
def fetchDBIP (countries : List Selector) : Except Failure (List Record) :=
  match fetchRelease env countries (monthText env.month) with
  | .ok records => .ok records
  | .error e =>
      if e.notFound then fetchRelease env countries (monthText (env.month - 1)) else .error e

/-- The countries of a job list that are fetched as one batch. -/
def dbipCountries (selectors : List Selector) : List Selector :=
  if cfg.geo.effectiveCountryProvider = .dbipLite then
    selectors.filter (·.kind = .country) else []

/-- The jobs of `fetchAll`: one of the countries stands for all of them. -/
def fetchJobs (selectors : List Selector) : List Selector :=
  let countries := dbipCountries cfg selectors
  selectors.filter fun s => s.kind ≠ .country ∨ countries = [] ∨ some s = countries.head?

def runJob (selectors : List Selector) (selector : Selector) : Except Failure (List Record) :=
  let countries := dbipCountries cfg selectors
  if selector.kind = .country ∧ countries ≠ [] then fetchDBIP env countries
  else (fetchOne r env cfg selector).map fun record => [record]

def putRecord (m : List Record) (record : Record) : List Record :=
  record :: m.filter (·.selector ≠ record.selector)

/-- The loop over the results of `fetchAll`. -/
def collectResults (selectors : List Selector) : List Record → List Selector →
    Except String (List Record)
  | fetched, [] => .ok fetched
  | fetched, job :: rest =>
      match runJob r env cfg selectors job with
      | .error e => .error ("source: selector " ++ job.kind.text ++ "/" ++ job.value ++ ": " ++ e.text)
      | .ok records => collectResults selectors (records.foldl putRecord fetched) rest

/-- `fetchAll`: every selector, or an error. -/
def fetchAll (selectors : List Selector) : Except String (List Record) := do
  let completed := (env.completed (fetchJobs cfg selectors)).filter (· ∈ fetchJobs cfg selectors)
  let fetched ← collectResults r env cfg selectors [] completed
  match env.interrupted .fetched with
  | some e => .error e
  | none =>
      if fetched.length ≠ selectors.length then
        .error "source: refresh canceled before all selectors completed"
      else .ok fetched

end Fetch

/-! ## Resolving -/

structure Resolution where
  snapshot : Snapshot := {}
  refreshError : Option String := none
  attempted : List Selector := []

/-- What a call returns: a resolution and, possibly, an error. -/
abbrev Resolved := Resolution × Option String

def recordFresh (record : Record) (interval : Duration) (now : Time) : Bool :=
  record.retrievedAt ≠ 0 && interval > 0 && 0 ≤ now - record.retrievedAt &&
    now - record.retrievedAt < interval

def findRecord (records : List Record) (selector : Selector) : Option Record :=
  records.find? (·.selector = selector)

section Resolve

variable {δ : Type} [DecidableEq δ] (r : Resolver δ) (env : Surroundings) (cfg : Config)

def configuredTiming (selector : Selector) : Except String (Duration × Duration) :=
  match selector.kind with
  | .ipList =>
      match cfg.ipLists.lookup selector.value with
      | none => .error ("source: custom list " ++ selector.value.quote ++ " is not configured")
      | some list => .ok (list.refreshInterval, list.requestTimeout)
  | .provider => .ok (cfg.providers.refreshInterval, cfg.providers.requestTimeout)
  | _ => .ok (cfg.geo.refreshInterval, cfg.geo.requestTimeout)

/-- `selectorTiming`; the refresh interval is what its callers use. -/
def selectorTiming (selector : Selector) : Except String Duration := do
  let (refreshInterval, requestTimeout) ← configuredTiming cfg selector
  validateSelectorTiming selector refreshInterval requestTimeout
  let spec ← describeSelector r.texts cfg selector
  return spec.refreshInterval

/-- The timing of every selector is checked before anything is read. -/
def checkTimings : List Selector → Except String Unit
  | [] => .ok ()
  | selector :: rest => do
      let _ ← selectorTiming r cfg selector
      checkTimings rest

def expectedBindings : List Selector → Except String (List (Selector × Binding))
  | [] => .ok []
  | selector :: rest =>
      if selector.kind ≠ .ipList then expectedBindings rest
      else do
        let spec ← describeSelector r.texts cfg selector
        let binding ← (bindingForRoute r.session spec.transport).mapError fun e =>
          "source: custom list " ++ selector.value.quote ++ " transport: " ++ e
        let others ← expectedBindings rest
        return (selector, binding) :: others

def recordMatchesResolved (expected : List (Selector × Binding)) (record : Record) : Bool :=
  recordMatchesConfig r.texts cfg record &&
    (record.selector.kind ≠ .ipList || expected.lookup record.selector = some record.transport)

/-- The committed record of a selector, if the configuration still means it. -/
def usable (expected : List (Selector × Binding)) (committed : List Record) (selector : Selector) :
    Option Record :=
  (findRecord committed selector).filter (recordMatchesResolved r cfg expected)

/-- The committed record of a selector, if it can be used as it is. -/
def fresh (expected : List (Selector × Binding)) (committed : List Record) (selector : Selector) :
    Option Record :=
  (usable r cfg expected committed selector).filter fun record =>
    match selectorTiming r cfg selector with
    | .ok interval => recordFresh record interval (env.now selector)
    | .error _ => false

/-- The records that are reused: one country that is due makes every country due. -/
def reused (expected : List (Selector × Binding)) (committed : List Record)
    (required : List Selector) : List Record :=
  let candidate := required.filterMap (fresh r env cfg expected committed)
  let due := required.any fun s =>
    s.kind = .country && (fresh r env cfg expected committed s).isNone
  if cfg.geo.effectiveCountryProvider = .dbipLite ∧ due then
    candidate.filter (·.selector.kind ≠ .country)
  else candidate

def stageRecords (records : List Record) : Except String Snapshot := do
  let snapshot ← r.cache.stage r.texts env.disk records
  let _ ← (compile r.fingerprint cfg snapshot.policy).mapError ("compiled policy: " ++ ·)
  return snapshot

def failed (attempted : List Selector) (e : String) : Resolved :=
  ({ attempted := attempted }, some e)

/-- Goes on unless the context has ended. -/
def unlessInterrupted (check : Check) (attempted : List Selector) (next : Resolved) : Resolved :=
  match env.interrupted check with
  | some e => failed attempted e
  | none => next

def joined (a b : String) : String := a ++ "\n" ++ b

/-- The closure `refreshFailure`: the committed snapshot or its required part, or the error. -/
def refreshFailure (allowStale covers : Bool) (committed : Snapshot) (required : List Selector)
    (attempted : List Selector) (refreshErr : String) : Resolved :=
  unlessInterrupted env .fallback attempted <|
  if !allowStale || !covers then failed attempted refreshErr
  else if committed.records.length = required.length then
    unlessInterrupted env .fallbackCompiled attempted <|
    match compile r.fingerprint cfg committed.policy with
    | .error e =>
        failed attempted (joined refreshErr ("source: validate stale committed snapshot: " ++ e))
    | .ok _ => (⟨committed, some refreshErr, attempted⟩, none)
  else
    unlessInterrupted env .fallbackStaged attempted <|
    match stageRecords r env cfg (required.filterMap (findRecord committed.records)) with
    | .error e =>
        failed attempted (joined refreshErr ("source: stage stale committed subset: " ++ e))
    | .ok snapshot => (⟨snapshot, some refreshErr, attempted⟩, none)

/-- Nothing is due: the committed snapshot, or the part of it that is required. -/
def reuse (committed : Snapshot) (required : List Selector) (candidate : List Record) : Resolved :=
  if committed.records.length = required.length then
    unlessInterrupted env .reuseCompiled [] <|
    match compile r.fingerprint cfg committed.policy with
    | .error e => failed [] ("source: validate reused snapshot: " ++ e)
    | .ok _ => (⟨committed, none, []⟩, none)
  else
    match stageRecords r env cfg (required.filterMap (findRecord candidate)) with
    | .error e => failed [] ("source: stage reused snapshot: " ++ e)
    | .ok snapshot => (⟨snapshot, none, []⟩, none)

/-- The release check: no fetched artifact is older than a committed one. -/
def downgrade (committed fetched : List Record) : Bool :=
  fetched.any fun record => record.sourceKind = .dbipLite && committed.any fun old =>
    old.sourceKind = .dbipLite && record.release < old.release

/-- `resolve` from the point where something is due. -/
def refresh (allowStale covers : Bool) (committed : Snapshot) (required : List Selector)
    (candidate : List Record) (stale : List Selector) : Resolved :=
  let fallback := refreshFailure r env cfg allowStale covers committed required stale
  match fetchAll r env cfg stale with
  | .error e => fallback e
  | .ok fetched =>
      if downgrade committed.records fetched then
        fallback "source: DB-IP release downgrade rejected"
      else
        let candidate := fetched.foldl putRecord candidate
        if candidate.length ≠ required.length then
          fallback "source: refresh completed without every required selector"
        else
          match stageRecords r env cfg (required.filterMap (findRecord candidate)) with
          | .error e => fallback ("source: stage refreshed snapshot: " ++ e)
          | .ok snapshot => (⟨snapshot, none, stale⟩, none)

/-- The committed snapshot; there is none before the first commit. -/
def loadCommitted : Option Manifest → Except String Snapshot
  | none => .ok {}
  | some id => (r.cache.load r.texts id).mapError ("source: committed manifest: " ++ ·)

def resolveRequired (committedManifest : Option Manifest) (allowStale : Bool)
    (required : List Selector) : Except String Resolved := do
  checkTimings r cfg required
  let committed ← loadCommitted r committedManifest
  let expected ← expectedBindings r cfg required
  let covers := required.all fun s => (usable r cfg expected committed.records s).isSome
  let candidate := reused r env cfg expected committed.records required
  let stale := required.filter fun s => (findRecord candidate s).isNone
  if stale = [] then return reuse r env cfg committed required candidate
  else return refresh r env cfg allowStale covers committed required candidate stale

def resolve (committedManifest : Option Manifest) (allowStale : Bool) : Resolved :=
  unlessInterrupted env .start [] <|
  if cfg.geo.refreshInterval ≤ 0 ∨ cfg.geo.requestTimeout ≤ 0 then
    failed [] "source: refresh interval and request timeout must be positive"
  else
    match requiredSelectors cfg with
    | .error e => failed [] e
    | .ok required =>
        if required.length > maxSelectors then
          failed [] ("source: " ++ toString required.length ++ " selectors exceed maximum " ++
            toString maxSelectors)
        else if required = [] then ({}, none)
        else
          match resolveRequired r env cfg committedManifest allowStale required with
          | .error e => failed [] e
          | .ok resolved => resolved

end Resolve

end Perimeterd.Source
