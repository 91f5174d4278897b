import Perimeterd.Firewall.Validate

/-!
# Building targets

`ValidateConfig` of `internal/firewall/types.go`, `BuildTarget` of `nftables_model.go`, and what the
engine does with its result: a compiled state becomes a target under the identity of a transaction,
and a target whose content is that of the previous one keeps the previous generation. A CrowdSec
authority that replaces another gets generations of its own.

Native objects are named after generations and are left alone where a name already exists, which is
right only if a generation never means two things. `generations_immutable` says so for any sequence of
applies with fresh identities.

Lists compare by their elements here; `reflect.DeepEqual` also tells a nil slice from an empty one, and
then keeps a generation less often.
-/

namespace Perimeterd.Firewall

open Lib Policy List

/-! ## The configuration -/

/-- The loop over the policies of `ValidateConfig`. -/
def checkModes : List Config.Policy → Except String Unit
  | [] => .ok ()
  | item :: rest =>
      match item.mode with
      | .other text =>
          .error s!"firewall runtime: policy {item.name.quote} has unsupported mode {text.quote}"
      | _ => checkModes rest

def checkBackend : Config.Backend → Except String Unit
  | .other text => .error s!"firewall runtime: unsupported backend {text.quote}"
  | _ => .ok ()

def checkDenyAction : Config.DenyAction → Except String Unit
  | .other text => .error s!"firewall runtime: unsupported deny action {text.quote}"
  | _ => .ok ()

/-- `ValidateConfig`. Nothing else reads the version, so the configuration does not carry it. -/
def validateConfig (version : Int) (cfg : Config) : Except String Unit := do
  if version ≠ 1 then throw s!"firewall runtime: unsupported config version {version}"
  checkBackend cfg.firewall.backend
  checkDenyAction cfg.firewall.denyAction
  checkModes cfg.policies
  if cfg.firewall.table = "" then throw "firewall runtime: nftables table must not be empty"
  if maxNFTNameBytes < cfg.firewall.table.utf8ByteSize then
    throw s!"firewall runtime: nftables table exceeds {maxNFTNameBytes} bytes"
  if '\x00' ∈ cfg.firewall.table.toList then throw "firewall runtime: nftables table contains NUL"
  if cfg.firewall.priority ≤ -200 then
    throw s!"firewall runtime: nftables priority {cfg.firewall.priority} must be greater than -200"

/-- What the builder needs of a validated configuration. -/
structure Runnable (cfg : Config) : Prop where
  backend : cfg.firewall.backend = .nftables ∨ cfg.firewall.backend = .iptables
  table_ne : cfg.firewall.table ≠ ""
  table_short : cfg.firewall.table.utf8ByteSize ≤ maxNFTNameBytes
  table_plain : '\x00' ∉ cfg.firewall.table.toList
  priority : -200 < cfg.firewall.priority

theorem validateConfig_runnable {version : Int} {cfg : Config}
    (h : validateConfig version cfg = .ok ()) : Runnable cfg := by
  obtain ⟨-, h⟩ := guard_eq_ok.mp h
  obtain ⟨⟨⟩, hba, h⟩ := bind_eq_ok.mp h
  obtain ⟨⟨⟩, -, h⟩ := bind_eq_ok.mp h
  obtain ⟨⟨⟩, -, h⟩ := bind_eq_ok.mp h
  obtain ⟨hne, h⟩ := guard_eq_ok.mp h
  obtain ⟨hsh, h⟩ := guard_eq_ok.mp h
  obtain ⟨hpl, h⟩ := guard_eq_ok.mp h
  obtain ⟨hp, -⟩ := ite_throw_eq_ok.mp h
  refine ⟨?_, hne, not_lt.mp hsh, hpl, not_le.mp hp⟩
  cases hb : cfg.firewall.backend with
  | nftables => exact .inl rfl
  | iptables => exact .inr rfl
  | other text => rw [hb] at hba; cases hba

/-! ## The target -/

def nativeTable (cfg : Config) : String :=
  if cfg.firewall.backend = .iptables then "filter" else cfg.firewall.table

/-- The dynamic generation of a candidate: the previous one in the same place, or a new one. -/
def dynamicGeneration (owner id : Id) (cfg : Config) (previous : Option Target) : Option Id :=
  if cfg.crowdsec.enabled then
    match previous with
    | some p =>
        if p.owner = owner ∧ p.backend = cfg.firewall.backend ∧ p.table = nativeTable cfg ∧
            p.dynamicGeneration.isSome then p.dynamicGeneration
        else some id
    | none => some id
  else none

/-- The specification a counter name stands for. -/
def CounterName.spec (name : CounterName) : CounterSpec := ⟨name, name.family, name.direction, name.role⟩

/-- The counters taken over from a target of the same backend and table. -/
def keptCounters (t : Target) : Option Target → List CounterSpec
  | none => []
  | some p =>
      if p.backend = t.backend ∧ p.table = t.table then
        p.counters.filter fun c =>
          validRole c.role && c.name = counterName t.owner c.family c.direction c.role
      else []

/-- `desiredCounters`. The source collects into a map by name; a name determines the rest. -/
def desiredCounters (t : Target) (previous : Option Target) : List CounterSpec :=
  sortSlice (fun a b => a.name.text < b.name.text)
    ((expectedCounters t).map CounterName.spec ++ keptCounters t previous).dedup

/-- The candidate before it is compared with the previous target. -/
def freshTarget (owner id : Id) (cfg : Config) (model : State) (previous : Option Target) : Target where
  owner := owner
  table := nativeTable cfg
  priority := if cfg.firewall.backend = .iptables then 0 else cfg.firewall.priority
  generation := id
  families := model.families
  counters := []
  iptables := if cfg.firewall.backend = .iptables then some cfg.firewall.attachments else none
  dynamicGeneration := dynamicGeneration owner id cfg previous

/-- The two targets have the same content in the same place. -/
def sameContent (p t : Target) : Bool :=
  p.owner = t.owner && p.backend = t.backend && p.table = t.table &&
    p.dynamicGeneration = t.dynamicGeneration && p.families = t.families && p.iptables = t.iptables

/-- The candidate with its generation. -/
def generationTarget (owner id : Id) (cfg : Config) (model : State) (previous : Option Target) :
    Target :=
  let t := freshTarget owner id cfg model previous
  match previous with
  | some p => if sameContent p t then { t with generation := p.generation } else t
  | none => t

/-- What a candidate owes to the previous target. -/
structure Inherits (id : Id) (previous : Option Target) (t : Target) : Prop where
  /-- The generation is new, or the content is that of the generation. -/
  generation : t.generation = id ∨ ∃ p ∈ previous, t.generation = p.generation ∧
    t.families = p.families ∧ t.iptables = p.iptables ∧ t.dynamicGeneration = p.dynamicGeneration
  /-- The dynamic generation is new, or the place is that of the generation. -/
  dynamic : ∀ d, t.dynamicGeneration = some d → d = id ∨ ∃ p ∈ previous,
    p.dynamicGeneration = some d ∧ p.owner = t.owner ∧ p.backend = t.backend ∧ p.table = t.table

theorem sameContent_iff {p t : Target} : sameContent p t = true ↔
    p.owner = t.owner ∧ p.backend = t.backend ∧ p.table = t.table ∧
      p.dynamicGeneration = t.dynamicGeneration ∧ p.families = t.families ∧
        p.iptables = t.iptables := by
  simp [sameContent, and_assoc]

theorem freshTarget_backend (owner id : Id) {cfg : Config} (model : State)
    (prev : Option Target) (h : Runnable cfg) :
    (freshTarget owner id cfg model prev).backend = cfg.firewall.backend := by
  rcases h.backend with hb | hb <;> simp [Target.backend, freshTarget, hb]

theorem generationTarget_eq (owner id : Id) (cfg : Config) (model : State)
    (prev : Option Target) : ∃ g, generationTarget owner id cfg model prev =
      { freshTarget owner id cfg model prev with generation := g } := by
  unfold generationTarget
  cases prev with
  | none => exact ⟨id, rfl⟩
  | some p =>
    dsimp only
    split
    · exact ⟨p.generation, rfl⟩
    · exact ⟨id, rfl⟩

theorem generationTarget_inherits {owner id : Id} {cfg : Config} {model : State}
    {prev : Option Target} (h : Runnable cfg) :
    Inherits id prev (generationTarget owner id cfg model prev) where
  generation := by
    unfold generationTarget
    cases prev with
    | none => exact .inl rfl
    | some p =>
      dsimp only
      split
      case isTrue hsa =>
        obtain ⟨-, -, -, hdy, hf, hip⟩ := sameContent_iff.mp hsa
        exact .inr ⟨p, rfl, rfl, hf.symm, hip.symm, hdy.symm⟩
      case isFalse => exact .inl rfl
  dynamic := by
    intro d hd
    obtain ⟨g, hg⟩ := generationTarget_eq owner id cfg model prev
    rw [hg] at hd ⊢
    have hba : ({ freshTarget owner id cfg model prev with generation := g } : Target).backend
        = cfg.firewall.backend := freshTarget_backend owner id model prev h
    change dynamicGeneration owner id cfg prev = some d at hd
    unfold dynamicGeneration at hd
    split at hd
    case isFalse => cases hd
    cases prev with
    | none => exact .inl (Option.some.inj hd).symm
    | some p =>
      dsimp only at hd
      split at hd
      case isTrue hpl =>
        obtain ⟨ho, hp, hta, -⟩ := hpl
        exact .inr ⟨p, rfl, hd, ho, hp.trans hba.symm, hta⟩
      case isFalse => exact .inl (Option.some.inj hd).symm

section Build

variable (digest : String → String) (prefixText : Prefix → String)

/-- `BuildTarget`; an empty state has no target. -/
def buildTarget (version : Int) (owner id : Id) (cfg : Config) (model : State)
    (previous : Option Target) : Except String (Option Target) := do
  validateConfig version cfg
  if model.empty then return none
  let t := generationTarget owner id cfg model previous
  let candidate := { t with counters := desiredCounters t previous }
  validateTarget digest prefixText candidate
  return some candidate

end Build

/-- What `applyLocked` does to the candidate of a new CrowdSec authority. -/
def Target.renewed (t : Target) (transaction : Id) : Target :=
  { t with dynamicGeneration := some transaction, generation := transaction }

/-! ## Sequences of applies -/

/-- One run of `applyLocked`: what it is given, whether the CrowdSec authority it selected replaces
the active one (any outcome of the comparison), and whether its revision becomes the active one — it
does not if the transaction fails and is rolled back, now or by a later recovery. -/
structure Attempt where
  owner : Id
  transaction : Id
  version : Int := 1
  cfg : Config
  model : State
  renews : Bool := false
  committed : Bool := true

/-- What changes the active target: an apply, or the removal of all state. -/
inductive Event where
  | apply (a : Attempt)
  | cleanup

def Event.transaction? : Event → Option Id
  | .apply a => some a.transaction
  | .cleanup => none

/-- The target of the active revision, and every target built so far. -/
structure Past where
  active : Option Target := none
  built : List Target := []

section History

variable (digest : String → String) (prefixText : Prefix → String)

/-- The target an attempt goes on with: built, and renewed for a new authority. -/
def Attempt.target (a : Attempt) (previous : Option Target) : Except String (Option Target) := do
  let built ← buildTarget digest prefixText a.version a.owner a.transaction a.cfg a.model previous
  return if a.cfg.crowdsec.enabled && a.renews then built.map (·.renewed a.transaction) else built

def Past.step (past : Past) : Event → Past
  | .cleanup => { past with active := none }
  | .apply a =>
      match a.target digest prefixText past.active with
      | .error _ => past
      | .ok target =>
          { active := if a.committed then target else past.active
            built := target.toList ++ past.built }

def history (events : List Event) : Past := events.foldl (Past.step digest prefixText) {}

/-- What holds of the targets built under the identities `used`. -/
structure Past.Immutable (used : List Id) (past : Past) : Prop where
  active : ∀ t ∈ past.active, t ∈ past.built
  generation_used : ∀ t ∈ past.built, t.generation ∈ used
  dynamic_used : ∀ t ∈ past.built, ∀ d, t.dynamicGeneration = some d → d ∈ used
  content : ∀ s ∈ past.built, ∀ t ∈ past.built, s.generation = t.generation →
    s.families = t.families ∧ s.iptables = t.iptables ∧ s.dynamicGeneration = t.dynamicGeneration
  place : ∀ s ∈ past.built, ∀ t ∈ past.built, ∀ d, s.dynamicGeneration = some d →
    t.dynamicGeneration = some d → s.owner = t.owner ∧ s.backend = t.backend ∧ s.table = t.table

variable {digest prefixText}

theorem Inherits.renewed {id : Id} {prev : Option Target} {t : Target} :
    Inherits id prev (t.renewed id) where
  generation := .inl rfl
  dynamic _ hd := .inl (Option.some.inj hd).symm

theorem Attempt.target_inherits {a : Attempt} {prev : Option Target} {t : Target}
    (h : a.target digest prefixText prev = .ok (some t)) : Inherits a.transaction prev t := by
  obtain ⟨built, hbu, h⟩ := bind_eq_ok.mp h
  have h := pure_eq_ok.mp h
  split at h
  · cases built with
    | none => cases h
    | some b =>
      obtain rfl := Option.some.inj h
      exact Inherits.renewed
  · subst h
    obtain ⟨⟨⟩, hc, hbu⟩ := bind_eq_ok.mp hbu
    split at hbu
    · cases hbu
    · obtain ⟨⟨⟩, -, hbu⟩ := bind_eq_ok.mp hbu
      obtain rfl := Option.some.inj (pure_eq_ok.mp hbu)
      have hin := @generationTarget_inherits a.owner a.transaction _ a.model prev
        (validateConfig_runnable hc)
      exact ⟨hin.generation, hin.dynamic⟩

theorem Past.Immutable.extend {used : List Id} {past : Past} (h : past.Immutable used) {id : Id}
    (hfr : id ∉ used) {t : Target} (ht : Inherits id past.active t) {active : Option Target}
    (hac : ∀ s ∈ active, s ∈ t :: past.built) :
    Past.Immutable (id :: used) { active := active, built := t :: past.built } := by
  have hge : t.generation = id ∨ ∃ p ∈ past.built, t.generation = p.generation ∧
      t.families = p.families ∧ t.iptables = p.iptables ∧
        t.dynamicGeneration = p.dynamicGeneration :=
    ht.generation.imp_right fun ⟨p, hp, hsa⟩ => ⟨p, h.active p hp, hsa⟩
  have hdy : ∀ d, t.dynamicGeneration = some d → d = id ∨ ∃ p ∈ past.built,
      p.dynamicGeneration = some d ∧ p.owner = t.owner ∧ p.backend = t.backend ∧ p.table = t.table :=
    fun d hd => (ht.dynamic d hd).imp_right fun ⟨p, hp, hsa⟩ => ⟨p, h.active p hp, hsa⟩
  -- an older target with the new one's generation has its content
  have hc : ∀ s ∈ past.built, s.generation = t.generation → s.families = t.families ∧
      s.iptables = t.iptables ∧ s.dynamicGeneration = t.dynamicGeneration := by
    intro s hs heq
    rcases hge with hnew | ⟨p, hp, hg, hfa, hip, hd⟩
    · exact absurd (hnew ▸ heq ▸ h.generation_used s hs) hfr
    · obtain ⟨hf, hi, hdyn⟩ := h.content s hs p hp (heq.trans hg)
      exact ⟨hf.trans hfa.symm, hi.trans hip.symm, hdyn.trans hd.symm⟩
  have hpl : ∀ s ∈ past.built, ∀ d, s.dynamicGeneration = some d →
      t.dynamicGeneration = some d → s.owner = t.owner ∧ s.backend = t.backend ∧
        s.table = t.table := by
    intro s hs d hsd htd
    rcases hdy d htd with rfl | ⟨p, hp, hpd, how, hba, hta⟩
    · exact absurd (h.dynamic_used s hs d hsd) hfr
    · obtain ⟨ho, hb, htab⟩ := h.place s hs p hp d hsd hpd
      exact ⟨ho.trans how, hb.trans hba, htab.trans hta⟩
  refine ⟨hac, ?_, ?_, ?_, ?_⟩
  · refine forall_mem_cons.mpr ⟨?_, fun s hs => mem_cons_of_mem _ (h.generation_used s hs)⟩
    rcases hge with hnew | ⟨p, hp, hg, -⟩
    · exact hnew ▸ mem_cons_self
    · exact hg ▸ mem_cons_of_mem _ (h.generation_used p hp)
  · refine forall_mem_cons.mpr
      ⟨fun d hd => ?_, fun s hs d hd => mem_cons_of_mem _ (h.dynamic_used s hs d hd)⟩
    rcases hdy d hd with rfl | ⟨p, hp, hpd, -⟩
    · exact mem_cons_self
    · exact mem_cons_of_mem _ (h.dynamic_used p hp d hpd)
  · intro s hs u hu heq
    rcases mem_cons.mp hs with rfl | hso
    · rcases mem_cons.mp hu with rfl | huo
      · exact ⟨rfl, rfl, rfl⟩
      · obtain ⟨hf, hi, hd⟩ := hc u huo heq.symm
        exact ⟨hf.symm, hi.symm, hd.symm⟩
    · rcases mem_cons.mp hu with rfl | huo
      · exact hc s hso heq
      · exact h.content s hso u huo heq
  · intro s hs u hu d hsd hud
    rcases mem_cons.mp hs with rfl | hso
    · rcases mem_cons.mp hu with rfl | huo
      · exact ⟨rfl, rfl, rfl⟩
      · obtain ⟨ho, hb, ht⟩ := hpl u huo d hud hsd
        exact ⟨ho.symm, hb.symm, ht.symm⟩
    · rcases mem_cons.mp hu with rfl | huo
      · exact hpl s hso d hsd hud
      · exact h.place s hso u huo d hsd hud

theorem Past.Immutable.weaken {used used' : List Id} {past : Past} (h : past.Immutable used)
    (hsu : used ⊆ used') {active : Option Target} (hac : ∀ s ∈ active, s ∈ past.built) :
    Past.Immutable used' { past with active := active } where
  active := hac
  generation_used t ht := hsu (h.generation_used t ht)
  dynamic_used t ht d hd := hsu (h.dynamic_used t ht d hd)
  content := h.content
  place := h.place

theorem Past.Immutable.step {used : List Id} {past : Past} (h : past.Immutable used) (ev : Event)
    (hf : ∀ id ∈ ev.transaction?, id ∉ used) :
    (past.step digest prefixText ev).Immutable (ev.transaction?.toList ++ used) := by
  cases ev with
  | cleanup => exact h.weaken (List.Subset.refl _) (by simp)
  | apply a =>
    have hu := h.weaken (subset_cons_self a.transaction used) h.active
    simp only [Past.step]
    cases hta : a.target digest prefixText past.active with
    | error e => exact hu
    | ok target =>
      cases target with
      | none =>
        refine h.weaken (subset_cons_self a.transaction used) ?_
        split
        · simp
        · exact h.active
      | some t =>
        refine h.extend (hf _ rfl) (Attempt.target_inherits hta) ?_
        split
        · intro s hs
          obtain rfl := Option.some.inj hs
          exact mem_cons_self
        · exact fun s hs => mem_cons_of_mem _ (h.active s hs)

theorem history_immutable (evs : List Event) (hf : (evs.filterMap Event.transaction?).Nodup) :
    (history digest prefixText evs).Immutable (evs.filterMap Event.transaction?).reverse := by
  induction evs using List.reverseRecOn with
  | nil => exact ⟨by simp [history], by simp [history], by simp [history], by simp [history],
      by simp [history]⟩
  | append_singleton evs event ih =>
    rw [filterMap_append] at hf ⊢
    have hst : history digest prefixText (evs ++ [event]) =
        (history digest prefixText evs).step digest prefixText event := by
      rw [history, foldl_append]
      rfl
    obtain ⟨hold, -, hd⟩ := nodup_append.mp hf
    have hnew : [event].filterMap Event.transaction? = event.transaction?.toList := by
      cases h : event.transaction? <;> simp [h]
    rw [hst, reverse_append, hnew]
    have hre : event.transaction?.toList.reverse = event.transaction?.toList := by
      cases event.transaction? <;> rfl
    rw [hre]
    refine (ih hold).step event fun id hid hmem => ?_
    exact hd id (mem_reverse.mp hmem) id (hnew ▸ Option.mem_toList.mpr hid) rfl

end History

/-- **A generation never changes its meaning.** However applies, failed applies and clean-ups follow
each other, with a fresh identity for each apply: targets of one owner, backend, table and generation
have the same families, attachments and dynamic generation, and targets with one dynamic generation
are in the same place. -/
theorem generations_immutable (digest : String → String) (prefixText : Prefix → String)
    (events : List Event) (hfresh : (events.filterMap Event.transaction?).Nodup) :
    (∀ s ∈ (history digest prefixText events).built, ∀ t ∈ (history digest prefixText events).built,
      s.owner = t.owner → s.backend = t.backend → s.table = t.table → s.generation = t.generation →
        s.families = t.families ∧ s.iptables = t.iptables ∧
          s.dynamicGeneration = t.dynamicGeneration) ∧
    ∀ s ∈ (history digest prefixText events).built, ∀ t ∈ (history digest prefixText events).built,
      ∀ d, s.dynamicGeneration = some d → t.dynamicGeneration = some d →
        s.owner = t.owner ∧ s.backend = t.backend ∧ s.table = t.table := by
  have h := @history_immutable digest prefixText events hfresh
  exact ⟨fun s hs t ht _ _ _ hg => h.content s hs t ht hg, h.place⟩

/-- A plan that lets everything through. -/
def openPlan (f : Family) : FamilyPlan where
  family := f
  sets := []
  paths := [.ingress, .egress].map fun d =>
    { direction := d, remote := wantRemote d, processed := .processed
      rules := [{ matching := { traffic := { any := true } }, action := .ret }] }

def guardedPlan (f : Family) : FamilyPlan :=
  { openPlan f with sets := [{ id := "crowdsec", kind := .crowdsec, prefixes := [] }] }

def Attempt.sample (transaction : Id) (plan : FamilyPlan) : Attempt where
  owner := 7
  transaction := transaction
  cfg := { crowdsec := { enabled := plan.sets ≠ [] } }
  model := ⟨[plan]⟩

/-- Two applies of one content, the first of them abandoned. CrowdSec is enabled and kept, and then its
authority is renewed with the content unchanged. A clean-up and another content follow. -/
def sampleEvents : List Event :=
  [.apply { Attempt.sample 1 (openPlan .ipv4) with committed := false },
   .apply (.sample 2 (openPlan .ipv4)), .apply (.sample 3 (openPlan .ipv4)),
   .apply (.sample 4 (guardedPlan .ipv4)), .apply (.sample 5 (guardedPlan .ipv4)),
   .apply { Attempt.sample 6 (guardedPlan .ipv4) with renews := true }, .cleanup,
   .apply (.sample 7 (guardedPlan .ipv6))]

theorem generations_immutable_sample : (sampleEvents.filterMap Event.transaction?).Nodup ∧
    ((history id (fun _ => "") sampleEvents).built.map fun t => (t.generation, t.dynamicGeneration)) =
      [(7, some 7), (6, some 6), (4, some 4), (4, some 4), (2, none), (2, none), (1, none)] ∧
    (∀ s ∈ (history id (fun _ => "") sampleEvents).built,
      ∀ t ∈ (history id (fun _ => "") sampleEvents).built,
        s.owner = t.owner → s.backend = t.backend → s.table = t.table →
          s.generation = t.generation → s.families = t.families ∧ s.iptables = t.iptables ∧
            s.dynamicGeneration = t.dynamicGeneration) ∧
    ∀ s ∈ (history id (fun _ => "") sampleEvents).built,
      ∀ t ∈ (history id (fun _ => "") sampleEvents).built, ∀ d, s.dynamicGeneration = some d →
        t.dynamicGeneration = some d → s.owner = t.owner ∧ s.backend = t.backend ∧
          s.table = t.table :=
  ⟨by decide, by decide +kernel, generations_immutable id (fun _ => "") sampleEvents (by decide)⟩

end Perimeterd.Firewall
