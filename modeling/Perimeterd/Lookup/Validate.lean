import Perimeterd.Firewall.Validate
import Perimeterd.Lookup.Attribution
import Perimeterd.Lookup.Request
import Perimeterd.Netip.Text

/-!
# The validator of responses

`isValidResponse` of `internal/lookup/server.go`, which both ends of the socket apply to a response
before they trust it. It knows nothing of how the response was computed: it reads the query again,
counts records and verdicts, looks at the metadata of each piece of evidence and hands the outcomes to
`validateCoverage`.

**What `Evaluate` answers it accepts** (`complete_response_valid`). The record limit comes from the
turns (`Run.records`) and is kept by merging (`Coalesced.records`); the evidence of a loaded record
names a provider and a release that go together (`Source.canonical_provenance`); attachments have names
because the target was validated; and coverage is `Run.spoken` and `Run.spoken_once`. Directions,
protocols, stages, roles and prefixes have types here, so the checks that they are known words and
valid prefixes have no counterpart.
-/

namespace Perimeterd.Lookup

open Lib Policy List

/-! ## The checks -/

/-- A text that `time.Parse("2006-01", …)` reads and `Format` writes again. -/
def yearMonth (release : String) : Bool :=
  match release.toList with
  | [a, b, c, d, '-', e, f] =>
      [a, b, c, d, e, f].all Char.isDigit && 1 ≤ Catalog.decimal [e, f] &&
        Catalog.decimal [e, f] ≤ 12
  | _ => false

/-- The provider and the release of evidence, by its kind. -/
def checkProvider (e : Evidence) : Except String Unit :=
  if e.kind = "country" then
    if e.provider = "dbip-lite" then
      if yearMonth e.release then .ok () else .error "invalid DB-IP evidence release"
    else if e.provider = "ripestat" then
      if e.release = "" then .ok () else .error "unexpected RIPEstat evidence release"
    else .error "invalid country evidence provider"
  else if e.kind = "asn" then
    if e.provider = "ripestat" ∧ e.release = "" then .ok ()
    else .error "invalid ASN evidence provider"
  else if e.provider = "" ∧ e.release = "" then .ok ()
  else .error "unexpected evidence provider metadata"

def checkEvidence : List Evidence → Except String Unit
  | [] => .ok ()
  | e :: rest => do
      if e.kind = "" ∨ e.name = "" then throw "lookup evidence is incomplete"
      checkProvider e
      checkEvidence rest

/-- The action of an outcome goes with its verdict. -/
def checkAction (o : Outcome) : Except String Unit :=
  match o.verdict with
  | .blocked =>
      if o.action ≠ .drop ∧ o.action ≠ .reject then .error "blocked outcome has invalid action"
      else .ok ()
  | .notBlocked =>
      if o.action ≠ .ret then .error "not_blocked outcome has invalid action" else .ok ()

/-- The loop over the outcomes, with the records counted so far. -/
def checkOutcomes : Nat → List Outcome → Except String Unit
  | _, [] => .ok ()
  | records, o :: rest => do
      if records + o.records > maxRecords then throw "lookup response exceeds record limit"
      checkAction o
      if o.reason = "" then throw "lookup outcome omitted reason or stage"
      checkEvidence o.evidence
      checkOutcomes (records + o.records) rest

/-- The verdict against the numbers of outcomes of either kind. -/
def checkVerdict (verdict : Overall) (outcomes : List Outcome) : Except String Unit :=
  let blocked := outcomes.countP (·.verdict = .blocked)
  let notBlocked := outcomes.countP (·.verdict = .notBlocked)
  match verdict with
  | .blocked =>
      if blocked = 0 ∨ notBlocked ≠ 0 then .error "blocked verdict does not cover all outcomes"
      else .ok ()
  | .notBlocked =>
      if notBlocked = 0 ∨ blocked ≠ 0 then .error "not_blocked verdict does not cover all outcomes"
      else .ok ()
  | .mixed =>
      if blocked = 0 ∨ notBlocked = 0 then .error "mixed verdict lacks both outcome classes"
      else .ok ()

section Texts

variable (texts : AddressTexts)

/-- The query of a response, which must be normalized. -/
def checkQuery (query : Request) : Except String Query :=
  match parseQuery texts query with
  | .error _ => .error "lookup response query is not normalized"
  | .ok q =>
      if q.request texts ≠ query then .error "lookup response query is not normalized" else .ok q

def checkComplete (verdict : Overall) (r : Response) : Except String Unit := do
  let q ← checkQuery texts r.query
  if r.error ≠ none then throw "complete lookup has an error"
  if r.observedAt = 0 then throw "complete lookup omitted observed_at"
  if r.outcomes = [] then throw "complete lookup omitted outcomes"
  if r.outcomes.length > maxRecords then throw "lookup response exceeds record limit"
  checkOutcomes 0 r.outcomes
  checkVerdict verdict r.outcomes
  validateCoverage q r.outcomes

def isValidResponse (r : Response) : Except String Unit :=
  if r.schemaVersion ≠ schemaVersion then .error "unsupported lookup schema version"
  else if r.flow ≠ "new" then .error "unsupported lookup flow"
  else
    match r.verdict with
    | .complete verdict => checkComplete texts verdict r
    | .unknown =>
        if r.error.all fun e => e.code = "" || e.message = "" then
          .error "unknown lookup lacks an error"
        else if r.outcomes ≠ [] then .error "unknown lookup contains partial outcomes"
        else .ok ()
    | .other _ => .error "invalid lookup verdict"

end Texts

/-! ## One outcome -/

theorem yearMonth_of_validRelease {rel : String} (h : Source.validRelease rel = true) :
    yearMonth rel = true := by
  unfold Source.validRelease at h
  unfold yearMonth
  generalize rel.toList = l at h ⊢
  split at h
  case h_1 =>
    simp only [Bool.and_eq_true] at h ⊢
    exact ⟨⟨h.1.1.1, h.1.2⟩, h.2⟩
  case h_2 => cases h

theorem sourceEvidence_checked {rc : Source.Record} (hso : Source.Provenance rc)
    {via : List String} {policy : String} {role : Role} {contributing : Bool} {covered : Prefix} :
    checkProvider (sourceEvidence ⟨rc, via⟩ policy role contributing covered) = .ok () := by
  unfold checkProvider sourceEvidence recordProvider
  cases hso with
  | dbip source kind release =>
    simp [source, kind, SelectorKind.text, sourceKindText, yearMonth_of_validRelease release]
  | ripe source kind release =>
    rcases kind with kind | kind
    · simp [source, kind, SelectorKind.text, release]
    · simp [source, kind, SelectorKind.text, release]
  | text kind release =>
    rcases kind with kind | kind
    · simp [kind, SelectorKind.text, release]
    · simp [kind, SelectorKind.text, release]

theorem kind_text_ne (kind : SelectorKind) : kind.text ≠ "" := by
  cases kind <;> simp [SelectorKind.text]

theorem checkEvidence_eq_ok {evidence : List Evidence} :
    checkEvidence evidence = .ok () ↔
      ∀ e ∈ evidence, (e.kind ≠ "" ∧ e.name ≠ "") ∧ checkProvider e = .ok () := by
  induction evidence with
  | nil => simp [checkEvidence]
  | cons e rest ih =>
    rw [checkEvidence, guard_eq_ok, bind_eq_ok, not_or, forall_mem_cons, ← ih]
    constructor
    · rintro ⟨hnamed, ⟨⟩, hp, hrest⟩
      exact ⟨⟨hnamed, hp⟩, hrest⟩
    · rintro ⟨⟨hnamed, hp⟩, hrest⟩
      exact ⟨hnamed, (), hp, hrest⟩

/-- **The evidence an answer gathers is accepted.** -/
theorem gathered_checked {texts : Source.Texts} {groups : Config.Groups} {cfg : Config}
    {snapshot : Source.Snapshot} {s : Static} (his : Source.Issued texts snapshot)
    (hexp : Explained texts groups cfg snapshot s) {dynamic : Dynamic} {rule : Rule}
    {stage : Stage} {a : Addr} {e : Evidence} (he : e ∈ s.gathered dynamic rule stage a) :
    (e.kind ≠ "" ∧ e.name ≠ "") ∧ checkProvider e = .ok () := by
  rcases gathered_cases he with ⟨p, -, -, -, hki, hna, hp, hre, -⟩ |
    ⟨p, -, -, ref, covered, -, href⟩ | ⟨d, -, -, -, hki, hna, hp, hre, -⟩
  · exact ⟨⟨by rw [hki]; simp, hna⟩, by simp [checkProvider, hki, hp, hre]⟩
  · have hrec := ref_record hexp (href.imp (fun h => h.1) fun h => h.1)
    obtain ⟨o, ho⟩ := his.isLoaded.canonical _ hrec
    have hso := Source.canonical_provenance ho
    have hnamed := (Source.canonicalSelector_named (his.isLoaded.settled _ hrec).selector).2
    rcases href with ⟨-, rfl⟩ | ⟨-, rfl⟩
    · exact ⟨⟨kind_text_ne _, hnamed⟩, sourceEvidence_checked hso⟩
    · exact ⟨⟨kind_text_ne _, hnamed⟩, sourceEvidence_checked hso⟩
  · exact ⟨⟨by rw [hki]; simp, hna⟩, by simp [checkProvider, hki, hp, hre]⟩

theorem classifyRule_reason (s : Static) (rule : Rule) : (s.classifyRule rule).2 ≠ "" := by
  unfold Static.classifyRule
  dsimp only
  split
  · simp
  · simp
  · simp
  · simp
  · split_ifs <;> simp

/-- What the validator asks of an outcome apart from coverage. -/
structure Presentable (o : Outcome) : Prop where
  action : checkAction o = .ok ()
  reason : o.reason ≠ ""
  evidence : checkEvidence o.evidence = .ok ()

theorem checkAction_eq_ok {o : Outcome} (h : o.verdict = .blocked ↔ o.action ≠ .ret) :
    checkAction o = .ok () := by
  unfold checkAction
  cases hve : o.verdict with
  | blocked =>
    have hac := h.mp hve
    cases ho : o.action with
    | ret => exact absurd ho hac
    | drop => rfl
    | reject => rfl
  | notBlocked =>
    have hac : o.action = .ret := not_not.mp fun hne => by
      rw [h.mpr hne] at hve
      cases hve
    simp [hac]

theorem checkOutcomes_eq_ok {outs : List Outcome} (hal : ∀ o ∈ outs, Presentable o) :
    ∀ {rcs : Nat}, rcs + (outs.map Outcome.records).sum ≤ maxRecords →
      checkOutcomes rcs outs = .ok () := by
  induction outs with
  | nil => intros; rfl
  | cons o rest ih =>
    intro rcs hsu
    rw [map_cons, sum_cons] at hsu
    obtain ⟨hac, hre, hev⟩ := hal o mem_cons_self
    refine guard_eq_ok.mpr ⟨by omega, bind_eq_ok.mpr ⟨(), hac, guard_eq_ok.mpr ⟨hre,
      bind_eq_ok.mpr ⟨(), hev, ?_⟩⟩⟩⟩
    exact ih (fun o ho => hal o (mem_cons_of_mem _ ho)) (by omega)

theorem checkVerdict_conclude {outs : List Outcome} (hne : outs ≠ []) :
    checkVerdict (conclude outs) outs = .ok () := by
  obtain ⟨first, hfirst⟩ := exists_mem_of_ne_nil _ hne
  have hve : ∀ o : Outcome, o.verdict = .notBlocked ↔ ¬ o.verdict = .blocked := fun o => by
    cases o.verdict <;> simp
  obtain ⟨hbl, hcl⟩ := conclude_spec hne
  unfold checkVerdict
  cases hc : conclude outs with
  | blocked =>
    have hal := hbl.mp hc
    simp only [ite_throw_eq_ok, not_or, countP_eq_zero, decide_eq_true_eq, not_not, and_true]
    exact ⟨fun h => h first hfirst (hal first hfirst), fun o ho =>
      (hve o).not.mpr (not_not.mpr (hal o ho))⟩
  | notBlocked =>
    have hal := hcl.mp hc
    simp only [ite_throw_eq_ok, not_or, countP_eq_zero, decide_eq_true_eq, not_not, and_true]
    exact ⟨fun h => h first hfirst ((hve first).mpr (hal first hfirst)), hal⟩
  | mixed =>
    simp only [ite_throw_eq_ok, not_or, countP_eq_zero, decide_eq_true_eq, and_true]
    refine ⟨fun h => ?_, fun h => ?_⟩
    · rw [hcl.mpr h] at hc
      cases hc
    · have hal : ∀ o ∈ outs, o.verdict = .blocked := fun o ho =>
        not_not.mp ((hve o).not.mp (h o ho))
      rw [hbl.mpr hal] at hc
      cases hc

theorem length_le_records (outs : List Outcome) : outs.length ≤ (outs.map Outcome.records).sum := by
  induction outs with
  | nil => exact le_rfl
  | cons o rest ih =>
    rw [length_cons, map_cons, sum_cons, Outcome.records]
    omega

/-! ## The answer of a run -/

section Runs

variable {s : Static} {dynamic : Dynamic} {q : Query} {now : Time}

theorem reply_presentable {texts : Source.Texts} {groups : Config.Groups} {cfg : Config}
    {snapshot : Source.Snapshot} (his : Source.Issued texts snapshot)
    (hexp : Explained texts groups cfg snapshot s) {f : Family} {job : Job} {o : Outcome}
    (hc : Carries s f job o) (h : s.reply f dynamic now job = some o) : Presentable o := by
  have hac := checkAction_eq_ok hc.verdict
  rcases reply_cases h with ⟨attachment, reason, hre, rfl, -⟩ |
    ⟨attachment, plan, path, rule, -, -, -, -, rfl⟩
  · exact ⟨hac, hre, rfl⟩
  · refine ⟨hac, classifyRule_reason s rule, checkEvidence_eq_ok.mpr fun e he => ?_⟩
    exact gathered_checked his hexp (mem_sortSlice.mp he)

theorem view_complete {digest : String → String} {prefixText : Prefix → String}
    {texts : Source.Texts} {groups : Config.Groups} {cfg : Config}
    {target : Option Firewall.Target} {snapshot : Source.Snapshot}
    (hst : newStatic texts groups cfg target snapshot = .ok s)
    (hva : ∀ t, target = some t → Firewall.validateTarget digest prefixText t = .ok ())
    {f : Family} {d : Direction} {place : Option Attachment} (hp : place ∈ s.places d) :
    (s.view f d place).complete = true := by
  cases place with
  | none => rfl
  | some attachment =>
    have hin : attachment ∈ s.attachmentsFor d := by
      unfold Static.places at hp
      split at hp
      · simp at hp
      · simpa using hp
    have hnamed : attachment.name ≠ "" ∧
        (attachment.portBasis = .currentDestination ∨
          attachment.portBasis = .originalDestination) := by
      unfold Static.attachmentsFor at hin
      split at hin
      · rw [mem_singleton.mp hin]
        exact ⟨by simp, .inl rfl⟩
      case isFalse hnf =>
        obtain ⟨a, ha, rfl⟩ := mem_map.mp hin
        refine ⟨?_, ?_⟩
        · obtain ⟨-, rfl⟩ := newStatic_eq_ok hst
          cases target with
          | none => cases ha
          | some t =>
            cases hip : t.iptables with
            | none => exact absurd (by simp [Static.withTarget, hip]) hnf
            | some atts =>
              have ha' : a ∈ directed (t.iptables.getD []) d := ha
              rw [hip, Option.getD_some, directed, mem_sortSlice] at ha'
              exact Firewall.chain_ne_empty (hva t rfl) hip a (mem_filter.mp ha').1
        · unfold portBasis
          dsimp only
          split
          · exact .inr rfl
          · exact .inl rfl
    simp only [Static.view, Attachment.complete, Bool.and_eq_true, Bool.or_eq_true,
      Bool.not_eq_true', Bool.and_eq_false_iff]
    exact ⟨hnamed.2.imp decide_eq_true decide_eq_true, .inr (decide_eq_false hnamed.1)⟩

namespace Run

theorem outcome_form (run : Run s dynamic q now) (hse : Served s) {r : Outcome}
    (hr : r ∈ coalesceOutcomes run.outcomes) : r.Canonical ∧ Inside q r := by
  obtain ⟨job, hjo, -, -, -, hc, -⟩ :=
    run.turn_of hse hr r.network.contains_addr
  obtain ⟨-, hd, hsc, -⟩ := mem_jobs.mp hjo
  obtain ⟨hp, hin⟩ := mem_trafficScopes.mp hsc
  obtain ⟨hf, hpo⟩ := protocolScopes_form hp hin
  refine ⟨⟨(run.coalesced hse).masked r hr, ?_⟩, fun a ha => ?_, fun d hq => ?_, fun p hq => ?_,
    fun p hq port hh => hpo p hq port ?_⟩
  · rw [hc.protocol, hc.ports]
    exact hf
  · obtain ⟨turn, htu, -, -, -, -, -, hco⟩ := run.turn_of hse hr ha
    exact Prefix.contains_iff.mpr ((run.tiles hse).1.inside _ (mem_jobs.mp htu).1 _
      (Prefix.contains_iff.mp hco))
  · rw [Query.directions, hq] at hd
    exact hc.direction.trans (mem_singleton.mp hd)
  · rw [Query.protocols, hq] at hp
    exact hc.protocol.trans (mem_singleton.mp hp)
  · rw [FlowScope.holds, ← hc.ports]
    exact hh

theorem covers_once (run : Run s dynamic q now) (hse : Served s) :
    CoversOnce q (coalesceOutcomes run.outcomes) := by
  intro r hr proto hp a ha port hsc
  obtain ⟨d, place, _, _, _, hask, hsp⟩ := run.speaks_asked hse hr
  obtain ⟨rfl, hvi, -⟩ := hsp
  rw [hvi]
  exact coverCount_eq_one (run.spoken_once hse _ _ _ _ _) (run.spoken hse
    ⟨hask.ofDirection, hask.ofPlace, hp, ha, hsc⟩)

theorem directions_spoken (run : Run s dynamic q now) (hse : Served s) :
    ∀ d ∈ q.directions, ∃ r ∈ coalesceOutcomes run.outcomes, r.direction = d := by
  intro d hd
  obtain ⟨_, _, a, proto, port, hask⟩ := exists_asked s q
  obtain ⟨place, hp⟩ := exists_place s d
  obtain ⟨r, hr, hsp⟩ := run.spoken hse ⟨hd, hp, hask.ofProtocol, hask.inNetwork, hask.inScope⟩
  exact ⟨r, hr, hsp.1⟩

end Run

end Runs

section Answers

variable {texts : Source.Texts} {addresses : AddressTexts} {digest : String → String}
  {groups : Config.Groups} {cfg : Config} {target : Option Firewall.Target}
  {snapshot : Source.Snapshot} {s : Static} {dynamic : Dynamic} {q : Query} {now : Time}

theorem Run.coverage_checked (run : Run s dynamic q now) (hva : ∀ t, target = some t →
      Firewall.validateTarget digest addresses.prefixString t = .ok ())
    (hst : newStatic texts groups cfg target snapshot = .ok s) :
    validateCoverage q (coalesceOutcomes run.outcomes) = .ok () := by
  have hse := newStatic_served hst
  have hf := fun r hr => run.outcome_form hse (r := r) hr
  have hc : ∀ r ∈ coalesceOutcomes run.outcomes, checkOutcome q r = .ok () := by
    intro r hr
    obtain ⟨job, hjo, -, -, -, hca, -⟩ :=
      run.turn_of hse hr r.network.contains_addr
    refine (checkOutcome_eq_ok ?_ ?_).mpr (hf r hr)
    · exact (Prefix.contains_family ((hf r hr).2.address _
        r.network.contains_addr)).symm
    · rw [hca.attachment]
      exact view_complete hst hva (mem_jobs.mp hjo).2.2.2
  obtain ⟨hap, hvo⟩ := (covers_once_iff hf).mpr (run.covers_once hse)
  rw [validateCoverage_eq_ok]
  exact ⟨⟨hc, hap⟩, run.directions_spoken hse, hvo⟩

theorem Run.outcomes_checked (run : Run s dynamic q now) (his : Source.Issued texts snapshot)
    (hst : newStatic texts groups cfg target snapshot = .ok s) :
    (coalesceOutcomes run.outcomes).length ≤ maxRecords ∧
      checkOutcomes 0 (coalesceOutcomes run.outcomes) = .ok () := by
  have hse := newStatic_served hst
  have hrec := (run.coalesced hse).records.trans run.records
  refine ⟨(length_le_records _).trans hrec, checkOutcomes_eq_ok (fun r hr => ?_)
    (by rwa [Nat.zero_add])⟩
  obtain ⟨job, -, o, hrep, hsa, hc, -⟩ :=
    run.turn_of hse hr r.network.contains_addr
  obtain ⟨hac, hre, hev⟩ := reply_presentable his (newStatic_explained hst)
    (hc.of_same (outcomeSame_symm hsa)) hrep
  rw [← outcomeSame_iff.mp hsa] at hac hre hev
  exact ⟨hac, hre, hev⟩

theorem complete_response_valid (his : Source.Issued texts snapshot) (hva : ∀ t, target = some t →
      Firewall.validateTarget digest addresses.prefixString t = .ok ())
    (hst : newStatic texts groups cfg target snapshot = .ok s) {rq : Request}
    (hqu : parseQuery addresses rq = .ok q) {intr : Option String} {r : Answer}
    (h : s.evaluate intr dynamic q now = .ok r) (hno : now ≠ 0) :
    isValidResponse addresses (r.response addresses) = .ok () := by
  obtain ⟨run, hsa, hob, hou, hve⟩ := evaluate_eq_ok h
  have hne := run.outcomes_ne_nil (newStatic_served hst)
  obtain ⟨hl, ho⟩ := run.outcomes_checked his hst
  have hc := run.coverage_checked hva hst
  rw [← hou] at hne hl ho hc
  have hch : checkQuery addresses (r.query.request addresses) = .ok q := by
    rw [hsa, checkQuery, parseQuery_request hqu]
    simp
  have hin : r.observedAt ≠ 0 := hob ▸ hno
  show checkComplete addresses r.verdict (r.response addresses) = .ok ()
  refine bind_eq_ok.mpr ⟨q, hch, guard_eq_ok.mpr ⟨not_not.mpr rfl, guard_eq_ok.mpr
    ⟨hin, guard_eq_ok.mpr ⟨hne, guard_eq_ok.mpr ⟨not_lt.mpr hl, ?_⟩⟩⟩⟩⟩
  refine bind_eq_ok.mpr ⟨(), ho, bind_eq_ok.mpr ⟨(), ?_, hc⟩⟩
  rw [hve]
  exact checkVerdict_conclude hne

end Answers

/-- **Every definitive answer passes its own validator.** A view is built of a snapshot that was issued
and, where there is one, a valid target. Whatever the dynamic state, the request and the instant, a
response of `Evaluate` that is not unknown is accepted, the exact coverage of the query included. An
instant of zero stands for the clock's, which is never zero. -/
theorem definitive_response_valid (texts : Source.Texts) (addresses : AddressTexts)
    (digest : String → String) (groups : Config.Groups) (cfg : Config)
    (target : Option Firewall.Target) (snapshot : Source.Snapshot) (s : Static)
    (hissued : Source.Issued texts snapshot) (hvalid : ∀ t, target = some t →
      Firewall.validateTarget digest addresses.prefixString t = .ok ())
    (hstatic : newStatic texts groups cfg target snapshot = .ok s) (interrupted : Option String)
    (clock : Time) (dynamic : Dynamic) (request : Request) (now : Time)
    (hclock : now = 0 → clock ≠ 0)
    (hdefinitive : (evaluateRequest addresses interrupted clock (some s) dynamic request
      now).verdict ≠ .unknown) :
    isValidResponse addresses
      (evaluateRequest addresses interrupted clock (some s) dynamic request now) = .ok () := by
  have hno : (if now = 0 then clock else now) ≠ 0 := by
    split
    case isTrue hz => exact hclock hz
    case isFalse hz => exact hz
  unfold evaluateRequest at hdefinitive ⊢
  cases hqu : parseQuery addresses request with
  | error msg =>
    rw [hqu] at hdefinitive
    exact absurd rfl hdefinitive
  | ok q =>
    rw [hqu] at hdefinitive
    dsimp only at hdefinitive ⊢
    cases han : evaluate interrupted clock (some s) dynamic q now with
    | error failure =>
      rw [han] at hdefinitive
      exact absurd rfl hdefinitive
    | ok r => exact complete_response_valid hissued hvalid hstatic hqu han hno

/-- IPv4 in dotted decimals and IPv6 in full, without zones. -/
def dottedTexts : AddressTexts where
  parsePrefix := Netip.readPrefix
  parseAddr text :=
    match Netip.readAddr text with
    | some address => .ok (address, "")
    | none => .error "unable to parse IP"
  prefixString := Netip.prefixString
  parse_string := Netip.readPrefix_prefixString
  string_ne := Netip.prefixString_ne

/-- A network of which one half is blocked. -/
def halfRequest : Request :=
  { address := "203.0.112.0/23", direction := "ingress", protocol := "tcp", port := some 443 }

theorem mixed_response_valid :
    (evaluateRequest dottedTexts none 0 (some blockStatic) {} halfRequest 1).verdict =
        .complete .mixed ∧
      isValidResponse dottedTexts
        (evaluateRequest dottedTexts none 0 (some blockStatic) {} halfRequest 1) = .ok () := by
  obtain ⟨r, hr, hve⟩ := evaluate_half
  have hquery : parseQuery dottedTexts halfRequest = .ok halfQuery := by rfl
  have hmixed : (evaluateRequest dottedTexts none 0 (some blockStatic) {} halfRequest 1).verdict =
      .complete .mixed := by
    simp only [evaluateRequest, hquery, hr]
    exact congrArg ResponseVerdict.complete (of_decide_eq_true hve)
  have hva : Firewall.validateTarget id dottedTexts.prefixString blockTarget = .ok () := by
    decide +kernel
  refine ⟨hmixed, definitive_response_valid Source.plainTexts dottedTexts id [] blockConfig
    (some blockTarget) {} blockStatic .empty (fun t ht => ?_) rfl none 0 {} _ 1 (by decide)
    (by rw [hmixed]; decide)⟩
  cases ht
  exact hva

end Perimeterd.Lookup
