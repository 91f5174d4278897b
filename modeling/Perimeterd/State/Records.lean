import Perimeterd.Firewall.Target
import Perimeterd.Lib.Durable
import Perimeterd.Lib.Result

/-!
# Durable records

`internal/state/records.go` and the reader of `store.go`: revisions, the active record, the journal,
and what `Store.Read` accepts.

A record is published whole or not at all, so a file holds the value that was encoded into it. What
`validateRevision` checks about a revision's own content (its configuration, the compiled model, its
target) reads nothing but the revision and the immutable source records its manifest names; it is
the parameter `content`. That the manifest can be loaded at all depends on the disk and is modelled.
The owner record is written once before anything else and never again; it is left out.
-/

namespace Perimeterd.State

open Lib Firewall

/-- A manifest identity: 64 lowercase hexadecimal characters. -/
abbrev Manifest := BitVec 256

def recordVersion : Nat := 2

structure Revision where
  version : Nat
  id : Id
  epoch : Nat
  refreshSequence : Nat := 0
  manifest : Option Manifest := none
  configPath : String
  config : Config
  target : Option Target
deriving DecidableEq

inductive Operation where
  | apply
  | cleanup
deriving DecidableEq

inductive Phase where
  | prepared
  | switched
  | committed
  | cleanup
deriving DecidableEq

/-- `FamilySelection`; no generation records an unhooked family. -/
structure FamilySelection where
  family : Family
  generation : Option Id
deriving DecidableEq

structure Journal where
  version : Nat
  id : Id
  operation : Operation
  phase : Phase
  previous : Option Id := none
  candidate : Option Id := none
  previousManifest : Option Manifest := none
  candidateManifest : Option Manifest := none
  revisions : List Id := []
  familySelections : List FamilySelection := []
deriving DecidableEq

structure View where
  active : Option Revision
  journal : Option Journal
  revisions : List Revision
deriving DecidableEq

def View.find (v : View) (id : Id) : Option Revision := v.revisions.find? (·.id = id)

/-- The directory: `active.json` and `journal.json` share one directory, the revision files another.
`entries` lists the revision files that were ever created. -/
structure Disk where
  active : Cell (Option Id) := ⟨none, []⟩
  journal : Cell (Option Journal) := ⟨none, []⟩
  revisions : Id → Cell (Option Revision) := fun _ => ⟨none, []⟩
  entries : List Id := []
  manifests : Manifest → Cell Bool := fun _ => ⟨false, []⟩

/-! ## Validation -/

/-- `validApplyPhase`: every phase is one an apply journal may carry. -/
def validApplyPhase : Phase → Bool
  | .prepared | .switched | .committed | .cleanup => true

/-- The first check of an operation's own fields. -/
def validateOperation (j : Journal) : Except String Unit :=
  match j.operation with
  | .apply =>
      if ¬ validApplyPhase j.phase then .error "state: unsupported apply phase"
      else if j.candidate = none then .error "state: apply journal has no candidate"
      else .ok ()
  | .cleanup =>
      if j.phase ≠ .cleanup then .error "state: unsupported cleanup phase" else .ok ()

def validateJournal (j : Journal) : Except String Unit := do
  if j.version ≠ recordVersion then .error "state: journal version is unsupported"
  else do
    validateOperation j
    if (j.previous = none ∧ j.previousManifest ≠ none) ∨
        (j.candidate = none ∧ j.candidateManifest ≠ none) then
      .error "state: journal manifest has no owning revision"
    else if ¬ (j.familySelections.map (·.family)).Nodup then
      .error "state: journal repeats a family selection"
    else if ¬ j.revisions.Nodup then .error "state: journal repeats revision"
    else if ¬ (j.previous.toList ++ j.candidate.toList).all (· ∈ j.revisions) then
      .error "state: journal omits revision"
    else .ok ()

section Reader

variable (content : Revision → Except String Unit)

def validateRevision (d : Disk) (r : Revision) : Except String Unit :=
  if r.version ≠ recordVersion then .error "state: revision version is unsupported"
  else
    match r.manifest with
    | none => content r
    | some m =>
        if (d.manifests m).seen = false then .error "state: revision manifest is unavailable"
        else content r

def readRevision (d : Disk) (id : Id) : Except String Revision :=
  match (d.revisions id).seen with
  | none => .error "file does not exist"
  | some r =>
      if r.id ≠ id then .error "state: revision filename and identity differ"
      else do
        validateRevision content d r
        .ok r

/-- The revisions a journal names, skipping those already read. -/
def readRevisions (d : Disk) : List Id → List Revision → Except String (List Revision)
  | [], known => .ok known
  | id :: rest, known =>
      if known.any (·.id = id) then readRevisions d rest known
      else do
        let r ← (readRevision content d id).mapError (("journal revision " ++ hex id ++ ": ") ++ ·)
        readRevisions d rest (known ++ [r])

def recordedFamilySelection (v : View) (j : Journal) (s : FamilySelection) : Bool :=
  match s.generation with
  | none => true
  | some generation =>
      j.revisions.any fun id =>
        match (v.find id).bind (·.target) with
        | none => false
        | some t =>
            t.iptables.isSome && t.generation = generation && t.families.any (·.family = s.family)

/-- The manifest a revision of the view was recorded with. -/
def manifestMatches (v : View) (id : Option Id) (manifest : Option Manifest) : Bool :=
  match id with
  | none => true
  | some id => (v.find id).any (·.manifest = manifest)

/-- The reader's checks across records. -/
def checkJournal (v : View) (j : Journal) : Except String View :=
  if j.operation = .apply ∧ ¬ manifestMatches v j.previous j.previousManifest then
    .error "state: apply journal previous manifest mismatch"
  else if j.operation = .apply ∧ ¬ manifestMatches v j.candidate j.candidateManifest then
    .error "state: apply journal candidate manifest mismatch"
  else if j.operation = .apply ∧ j.previous ≠ none ∧ v.active = none then
    .error "state: apply journal has previous revision but active record is absent"
  else if ¬ j.familySelections.all (recordedFamilySelection v j) then
    .error "state: family selection names an unrecorded generation"
  else if j.operation = .apply ∧ v.active ≠ none ∧ v.active.map (·.id) ≠ j.previous ∧
      v.active.map (·.id) ≠ j.candidate then
    .error "state: active record does not match apply journal"
  else .ok v

/-- The revision the active record names. -/
def readActive (d : Disk) : Except String (Option Revision) :=
  match d.active.seen with
  | none => .ok none
  | some id => do
      let r ← (readRevision content d id).mapError (("active revision " ++ hex id ++ ": ") ++ ·)
      .ok (some r)

def read (d : Disk) : Except String View := do
  let active ← readActive content d
  match d.journal.seen with
  | none => .ok ⟨active, none, active.toList⟩
  | some j => do
      validateJournal j
      let revisions ← readRevisions content d
        (j.revisions ++ j.previous.toList ++ j.candidate.toList) active.toList
      checkJournal ⟨active, some j, revisions⟩ j

end Reader

end Perimeterd.State
