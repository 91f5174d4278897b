import Perimeterd.Firewall.Build
import Perimeterd.Source.Resolve
import Perimeterd.State.CompiledModel

/-!
# What a revision may hold

The checks `validateRevision` of `internal/state/records.go` makes of a revision's configuration, its
sources and its target: the configuration is compiled again from the sources the manifest names, and
the target must be one this daemon could have built of the result.

The checks are the other packages' functions, so nothing here is new but their order. The store's
protocol is proved for arbitrary checks, since it only ever asks whether they pass; this is the
instance the daemon runs with. It is kept apart from the records because it needs the compiler and
the source cache, which the protocol does not.
-/

namespace Perimeterd.State

open Lib Policy Firewall

/-- What the checks compute with: the source cache's `Load`, the daemon's owner identity and the
libraries' functions. -/
structure Checks where
  owner : Id
  load : Manifest → Except String Source.Snapshot
  texts : Source.Texts
  digest : String → String
  prefixText : Prefix → String

namespace Checks

variable (k : Checks)

/-- The sources a configuration is compiled from: none, or those of its manifest. -/
def sources (cfg : Config) : Option Manifest → Except String Snapshot
  | none => do
      let required ← (requiredSelectors cfg).mapError ("selectors: " ++ ·)
      if required ≠ [] then .error "has no manifest for required selectors" else .ok ⟨[]⟩
  | some manifest => do
      let required ← (requiredSelectors cfg).mapError ("selectors: " ++ ·)
      if required = [] then .error "has a manifest with no required selectors"
      else do
        let cached ← (k.load manifest).mapError ("manifest: " ++ ·)
        (Source.validateSnapshot k.texts cfg cached).mapError ("source identity: " ++ ·)
        .ok cached.policy

/-- Where the target is installed is where the configuration says. -/
def place (cfg : Config) (t : Target) : Except String Unit :=
  match t.iptables with
  | some attachments =>
      if attachments ≠ cfg.firewall.attachments then .error "attachment/config mismatch" else .ok ()
  | none =>
      if t.table ≠ cfg.firewall.table ∨ t.priority ≠ cfg.firewall.priority then
        .error "target/config mismatch"
      else .ok ()

def target (cfg : Config) (compiled : Policy.State) : Option Target → Except String Unit
  | none => if compiled.empty then .ok () else .error "has no target for active policy"
  | some t => do
      (validateTarget k.digest k.prefixText t).mapError ("target: " ++ ·)
      if t.owner ≠ k.owner then throw "target owner mismatch"
      if t.backend ≠ cfg.firewall.backend then throw "target/backend mismatch"
      place cfg t
      if ¬ sameCompiledFamilies t.families compiled.families then
        throw "target/config model mismatch"

/-- The checks of `validateRevision` from the configuration on, without the revision's identity in
front of their errors. The compiler's fingerprint only sorts geo sets into buckets within which they
are compared, so the sets stand for themselves here. -/
def content (version : Int) (cfg : Config) (manifest : Option Manifest) (target : Option Target) :
    Except String Unit := do
  if version ≠ 1 then throw s!"has unsupported configuration version {version}"
  match cfg.geo.effectiveCountryProvider with
  | .dbipLite | .ripestat => pure ()
  | _ => throw "has unsupported country provider"
  (validateConfig version cfg).mapError ("configuration: " ++ ·)
  let snapshot ← k.sources cfg manifest
  let compiled ← (compile Prod.mk cfg snapshot).mapError ("compiled model: " ++ ·)
  k.target cfg compiled target

/-- The checks of a revision of this daemon, whose configurations have version 1. -/
def revision (r : Revision) : Except String Unit :=
  (k.content 1 r.config r.manifest r.target).mapError (("state: revision " ++ hex r.id ++ " ") ++ ·)

end Checks

end Perimeterd.State
