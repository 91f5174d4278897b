import Perimeterd.Lib.Process
import Perimeterd.State.Records

/-!
# The durable store

`internal/state/store.go`: the operations that publish, replace and remove durable records, step by
step, as processes over the disk. Each step consumes one answer of the oracle: it happens, or it
fails without effect, or (the oracle being exhausted) the machine stops before it. A checkpoint is a
step with no effect of its own.
-/

namespace Perimeterd.State

open Lib Firewall

/-- The fate of one step; `choose` carries what a step of the caller needs to be told. -/
inductive Fate (μ : Type) where
  | ok
  | fail
  | choose (m : μ)

variable {μ : Type}

/-- A step of the store: performed or refused. -/
def perform (what : String) (f : Disk → Disk) : Proc (Fate μ) Disk String Unit :=
  Proc.step fun fate d =>
    match fate with
    | .ok => (f d, .ok ())
    | _ => (d, .error what)

/-- `checkpointCall`, or any other step that changes nothing a reader could find. -/
def checkpoint (name : String) : Proc (Fate μ) Disk String Unit := perform name id

/-! ## Elementary effects -/

def Disk.setActive (d : Disk) (v : Option Id) : Disk := { d with active := d.active.write v }

def Disk.setJournal (d : Disk) (v : Option Journal) : Disk := { d with journal := d.journal.write v }

def Disk.setRevision (d : Disk) (id : Id) (v : Option Revision) : Disk :=
  { d with
    revisions := fun i => if i = id then (d.revisions i).write v else d.revisions i
    entries := if d.entries.contains id then d.entries else d.entries ++ [id] }

def Disk.syncDir (d : Disk) : Disk := { d with active := d.active.sync, journal := d.journal.sync }

def Disk.syncRevisions (d : Disk) : Disk := { d with revisions := fun i => (d.revisions i).sync }

def Disk.syncManifest (d : Disk) (m : Manifest) : Disk :=
  { d with manifests := fun i => if i = m then (d.manifests i).sync else d.manifests i }

/-- `atomicPublish`: the temporary file, the rename, the directory. -/
def atomicPublish (record : String) (rename sync : Disk → Disk) :
    Proc (Fate μ) Disk String Unit := do
  checkpoint (record ++ ":before-file-sync")
  checkpoint (record ++ ":before-rename")
  perform "rename" rename
  checkpoint (record ++ ":after-rename")
  perform "sync" sync
  checkpoint (record ++ ":after-dir-sync")

def publishActive (id : Id) : Proc (Fate μ) Disk String Unit :=
  atomicPublish "active" (·.setActive (some id)) Disk.syncDir

def publishJournal (j : Journal) : Proc (Fate μ) Disk String Unit :=
  atomicPublish "journal" (·.setJournal (some j)) Disk.syncDir

def publishRevision (r : Revision) : Proc (Fate μ) Disk String Unit :=
  atomicPublish "revision" (·.setRevision r.id (some r)) Disk.syncRevisions

section Store

variable (content : Revision → Except String Unit)

def readView : Proc (Fate μ) Disk String View := do
  checkpoint "read"
  let result ← Proc.observe (read content)
  Proc.lift result

/-- `validateRevision` as a step: loading the manifest reads files. -/
def validate (label : String) (r : Revision) : Proc (Fate μ) Disk String Unit := do
  checkpoint "load"
  let result ← Proc.observe fun d => validateRevision content d r
  Proc.lift (result.mapError (label ++ ·))

/-- `prefixes.Stabilize`, where the revision has a manifest. -/
def stabilizeManifest : Option Manifest → Proc (Fate μ) Disk String Unit
  | none => pure ()
  | some m => do
      let loaded ← Proc.observe fun d => (d.manifests m).seen
      Proc.ensure (loaded = true) "prefix manifest is unavailable"
      checkpoint "prefixes:before-file-sync"
      checkpoint "prefixes:before-dir-sync"
      perform "prefixes sync" (·.syncManifest m)

def ensureRevisionMatches (r : Revision) : Proc (Fate μ) Disk String Unit := do
  checkpoint "read"
  let stored ← Proc.observe fun d => (d.revisions r.id).seen
  Proc.ensure (stored = some r) "state: immutable revision differs"
  let result ← Proc.observe fun d => readRevision content d r.id
  let _ ← Proc.lift result
  pure ()

/-- `writeImmutableRevision`: an existing file is only synchronized. -/
def writeImmutableRevision (r : Revision) : Proc (Fate μ) Disk String Unit := do
  let existing ← Proc.observe fun d => (d.revisions r.id).seen
  match existing with
  | some e => do
      let result ← Proc.observe fun d => readRevision content d r.id
      let _ ← Proc.lift result
      Proc.ensure (e = r) "state: immutable revision already differs"
      checkpoint "sync file"
  | none => publishRevision r

def applyJournal (previous : Option Revision) (candidate : Revision) : Journal where
  version := recordVersion
  id := candidate.id
  operation := .apply
  phase := .prepared
  previous := previous.map (·.id)
  candidate := some candidate.id
  previousManifest := previous.bind (·.manifest)
  candidateManifest := candidate.manifest
  revisions := (previous.map (·.id)).toList ++
    (if previous.map (·.id) = some candidate.id then [] else [candidate.id])

/-- The checks of `Prepare` on the revision that is to be replaced. -/
def validatePrevious : Option Revision → Proc (Fate μ) Disk String Unit
  | none => pure ()
  | some p => do
      validate content "previous: " p
      ensureRevisionMatches content p

def prepare (previous : Option Revision) (candidate : Revision) :
    Proc (Fate μ) Disk String Unit := do
  validate content "candidate: " candidate
  validatePrevious content previous
  let current ← readView content
  Proc.ensure (current.journal = none) "state: transaction already pending"
  Proc.ensure (current.active.map (·.id) = previous.map (·.id))
    "state: previous revision is not active"
  stabilizeManifest (previous.bind (·.manifest))
  stabilizeManifest candidate.manifest
  writeImmutableRevision content candidate
  publishJournal (applyJournal previous candidate)

def pendingApply (v : View) : Except String Journal :=
  match v.journal with
  | none => .error "state: no pending apply journal"
  | some j =>
      if j.operation = .apply then .ok j else .error "state: no pending apply journal"

def markPhase (phase : Phase) : Proc (Fate μ) Disk String Unit := do
  let view ← readView content
  let j ← Proc.lift (pendingApply view)
  Proc.ensure (validApplyPhase phase = true) "state: invalid apply phase"
  publishJournal { j with phase := phase }

/-- Replaces the selection of a family, or adds it, in family order. -/
def selectFamily (selections : List FamilySelection) (s : FamilySelection) : List FamilySelection :=
  let replaced :=
    if selections.any (·.family = s.family) then
      selections.map fun x => if x.family = s.family then s else x
    else selections ++ [s]
  sortSlice (fun a b => a.family = .ipv4 && b.family = .ipv6) replaced

def recordFamilySelection (s : FamilySelection) : Proc (Fate μ) Disk String Unit := do
  let view ← readView content
  match view.journal with
  | none => Proc.throw "state: family commit has no prepared journal"
  | some j => do
      Proc.ensure (recordedFamilySelection view j s = true)
        "state: family commit names an unrecorded generation"
      publishJournal { j with familySelections := selectFamily j.familySelections s }

def commit (candidate : Revision) : Proc (Fate μ) Disk String Unit := do
  validate content "candidate: " candidate
  let view ← readView content
  let j ← Proc.lift ((pendingApply view).mapError fun _ =>
    "state: commit candidate does not match pending journal")
  Proc.ensure (j.candidate = some candidate.id)
    "state: commit candidate does not match pending journal"
  ensureRevisionMatches content candidate
  publishActive candidate.id

def stabilize : Proc (Fate μ) Disk String Unit := do
  let view ← readView content
  Proc.each (fun r : Revision => stabilizeManifest r.manifest) view.revisions
  checkpoint "stabilize:before-file-sync"
  Proc.each (fun _ : Revision => checkpoint "stabilize") view.revisions
  checkpoint "stabilize:before-dir-sync"
  perform "stabilize state directory" Disk.syncDir
  perform "stabilize revisions directory" Disk.syncRevisions

/-- The journal `BeginCleanup` publishes: everything the view names, in order. -/
def cleanupJournal (view : View) (id : Id) : Journal where
  version := recordVersion
  id := id
  operation := .cleanup
  phase := .cleanup
  revisions := sortSlice (fun a b => a < b)
    ((view.active.map (·.id)).toList ++
      (match view.journal with
        | none => []
        | some j => j.previous.toList ++ j.candidate.toList ++ j.revisions) ++
      view.revisions.map (·.id)).dedup

/-- `Store.BeginCleanup`; the view is one this store has read. -/
def beginCleanup (view : View) (id : Id) : Proc (Fate μ) Disk String Unit := do
  let _ ← readView content
  Proc.lift (match view.journal with
    | none => .ok ()
    | some j => validateJournal j)
  Proc.each (fun r : Revision => validate content "state: cleanup revision: " r) view.revisions
  Proc.ensure (∀ r ∈ view.active.toList, (view.find r.id).isSome)
    "state: cleanup active revision is not referenced"
  Proc.ensure (view.journal.toList.all fun j => (j.revisions ++ j.previous.toList ++
    j.candidate.toList).all fun id => (view.find id).isSome)
    "state: cleanup journal revision is not referenced"
  publishJournal (cleanupJournal view id)

def removeActive : Proc (Fate μ) Disk String Unit := do
  checkpoint "read"
  let active ← Proc.observe fun d => d.active.seen
  match active with
  | none => pure ()
  | some id => do
      let result ← Proc.observe fun d => readRevision content d id
      let _ ← Proc.lift (result.mapError (("active revision " ++ hex id ++ ": ") ++ ·))
      perform "remove active record" (·.setActive none)
      perform "remove active record sync" Disk.syncDir

/-- Retirement of one recorded revision file. -/
def retireRevision (keep : Option Id) (id : Id) : Proc (Fate μ) Disk String Unit :=
  if keep = some id then pure ()
  else do
    checkpoint "retire revision"
    let present ← Proc.observe fun d => (d.revisions id).seen.isSome
    if present then do
      perform "retire revision" (·.setRevision id none)
      perform "retire revision sync" Disk.syncRevisions
    else pure ()

def finish : Proc (Fate μ) Disk String Unit := do
  let view ← readView content
  match view.journal with
  | none => pure ()
  | some j => do
      Proc.ensure (j.revisions.all fun id => (view.find id).isSome)
        "state: journal revision is unavailable"
      Proc.each (fun _ : Id => checkpoint "retire revision") j.revisions
      perform "remove journal" (·.setJournal none)
      perform "remove journal sync" Disk.syncDir
      Proc.each (retireRevision (view.active.map (·.id))) j.revisions

/-- The loop of `CollectRevisions`: whether a file was removed, and the error that ended it. -/
def collectEach (keep : Option Id) : List Id → Bool →
    Proc (Fate μ) Disk String (Bool × Option String)
  | [], removed => pure (removed, none)
  | id :: rest, removed =>
      if keep = some id then collectEach keep rest removed
      else do
        let result ← (perform "remove orphan revision" (·.setRevision id none)).attempt
        match result with
        | .error e => pure (removed, some e)
        | .ok () => collectEach keep rest true

def syncRemoved (removed : Bool) : Proc (Fate μ) Disk String Unit :=
  if removed then perform "sync collected revisions" Disk.syncRevisions else pure ()

/-- The deferred end of `CollectRevisions`. -/
def collectEnd (outcome : Bool × Option String) : Proc (Fate μ) Disk String Unit := do
  syncRemoved outcome.1
  match outcome.2 with
  | none => pure ()
  | some e => Proc.throw e

/-- `Store.CollectRevisions`; the synchronization of what was removed is deferred. -/
def collectRevisions : Proc (Fate μ) Disk String Unit := do
  let view ← readView content
  Proc.ensure (view.journal = none) "state: cannot collect revisions with a pending journal"
  checkpoint "list revisions"
  let entries ← Proc.observe fun d => d.entries.filter fun id => (d.revisions id).seen.isSome
  let outcome ← collectEach (view.active.map (·.id)) entries false
  collectEnd outcome

end Store

end Perimeterd.State
