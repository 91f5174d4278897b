import Perimeterd.State.Store

/-!
# The engine's surroundings

What an engine of `internal/app/engine.go` acts on: the durable store, the kernel's packet filter
through a `firewall.Backend`, and its own admission state.

The kernel is seen as the engine's documentation describes it: a selected target and a collection of
owned native objects. The two native backends are modelled on their own; here a backend call is any
sequence of changes it is allowed to make, ended by success or failure, each change being a point
where the machine may stop. An iptables backend records its family selections in the journal as it
goes along (`FamilyProgress`), so a backend call may write to the store as well.
-/

namespace Perimeterd.App

open Lib Firewall State

/-- `Candidate`. The resolved snapshot is known by its manifest. -/
structure Candidate where
  epoch : Nat
  refresh : Nat := 0
  path : String
  cfg : Config
  model : Policy.State
  manifest : Option Manifest := none
deriving DecidableEq

/-- What the engine calls: `validateRevision`'s checks of a revision's content, the objects a target
owns, `firewall.BuildTarget` for this store's owner, `firewall.ValidateTarget`. An empty model has no
target: applying it takes what the previous one left out of the kernel. -/
structure Host (ω : Type) where
  content : Revision → Except String Unit
  owned : Target → List ω
  buildTarget : Id → Config → Policy.State → Option Target → Except String (Option Target)
  validateTarget : Target → Except String Unit

/-- The kernel. `conflict` records that an inventory met an object it could not account for. -/
structure Native (ω : Type) where
  selected : Option Target := none
  objects : List ω := []
  conflict : Bool := false

/-- The admission state of an `Engine`; `enforced` belongs to its CrowdSec runtime. -/
structure Engine where
  admitted : Nat := 0
  activeEpoch : Nat := 0
  refreshSequence : Nat := 0
  closing : Bool := false
  healthy : Bool := false
  enforced : Bool := true

structure World (ω : Type) where
  disk : Disk := {}
  native : Native ω := {}
  engine : Engine := {}

/-- What the oracle may be asked for. -/
inductive Move (ω : Type) where
  | identity (id : Id)
  | change (objects : List ω) (select : Bool)
  | progress (s : FamilySelection)

abbrev Action (ω α : Type) : Type := Proc (Fate (Move ω)) (World ω) String α

variable {ω α : Type}

/-- A step with no effect: a checkpoint, a check of the context, a computation that may fail. -/
def check (name : String) : Action ω Unit :=
  Proc.step fun fate w =>
    match fate with
    | .ok => (w, .ok ())
    | _ => (w, .error name)

def onDisk (p : Proc (Fate (Move ω)) Disk String α) : Action ω α :=
  p.zoom World.disk fun w d => { w with disk := d }

def onNative (f : Native ω → Native ω) : Action ω Unit :=
  Proc.change fun w => { w with native := f w.native }

def onEngine (f : Engine → Engine) : Action ω Unit :=
  Proc.change fun w => { w with engine := f w.engine }

/-! ## Backend calls -/

section Backend

variable [DecidableEq ω] (h : Host ω)

def Host.owns (targets : List Target) (o : ω) : Bool := targets.any fun t => o ∈ h.owned t

/-- The inventory check of every backend call: all owned objects belong to the named targets. -/
def inventory (targets : List Target) : Action ω Unit := do
  let known ← Proc.observe fun w : World ω => w.native.objects.all (h.owns targets)
  if known then pure ()
  else do
    onNative fun n => { n with conflict := true }
    Proc.throw "firewall: unrecorded owned object"

/-- Changes, and records of family selections, until the call ends. -/
def backendCall (record : FamilySelection → Action ω Unit)
    (change : List ω → Bool → Native ω → Native ω) (succeed : Native ω → Native ω) :
    Action ω Unit :=
  Proc.loop (fun answer _ =>
    match answer with
    | .ok => do
        onNative succeed
        pure (.inr ())
    | .fail => Proc.throw "firewall backend failed"
    | .choose (.change objects select) => do
        onNative (change objects select)
        pure (.inl ())
    | .choose (.progress s) => do
        record s
        pure (.inl ())
    | .choose (.identity _) => Proc.throw "firewall backend failed") ()

/-- The callback `NewEngine` gives to the native backend. -/
def Host.progress (s : FamilySelection) : Action ω Unit := do
  onDisk (recordFamilySelection h.content s)
  check "iptables-after-switch"

/-- `Backend.Apply`: may create the candidate's objects and select it; success selects it. -/
def Host.apply (previous candidate : Option Target) : Action ω Unit := do
  inventory h (previous.toList ++ candidate.toList)
  backendCall h.progress
    (fun objects select n =>
      { n with
        objects := objects.filter fun o => n.objects.contains o || h.owns candidate.toList o
        selected := if select then candidate else previous })
    fun n => { n with selected := candidate }

/-- `Backend.Retire`: may remove anything; success leaves only the candidate's objects. -/
def Host.retire (previous candidate : Option Target) : Action ω Unit := do
  inventory h (previous.toList ++ candidate.toList)
  backendCall h.progress
    (fun objects _ n => { n with objects := objects.filter fun o => n.objects.contains o })
    fun n => { n with objects := n.objects.filter (h.owns candidate.toList) }

/-- `Backend.Cleanup`: may remove and deselect anything; success leaves nothing of the targets. -/
def Host.cleanup (targets : List Target) : Action ω Unit := do
  inventory h targets
  backendCall h.progress
    (fun objects select n =>
      { n with
        objects := objects.filter fun o => n.objects.contains o
        selected := if select then none else n.selected })
    fun n =>
      { n with
        objects := n.objects.filter fun o => !h.owns targets o
        selected := none }

/-- `Backend.UpdateDynamic`: touches the target's own objects only. -/
def Host.updateDynamic (target : Target) : Action ω Unit :=
  backendCall (fun _ => Proc.throw "firewall backend failed")
    (fun objects _ n =>
      { n with objects := objects.filter fun o => n.objects.contains o || h.owns [target] o })
    id

end Backend

end Perimeterd.App
