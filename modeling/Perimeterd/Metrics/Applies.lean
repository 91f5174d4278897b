import Perimeterd.Firewall.Validate
import Perimeterd.Metrics.Native

/-!
# Applies, migrations and retirements, with their counters

The nftables side of what the collector reads: which counters an apply creates (`commandBatch`), which
ones a retirement reads and deletes (`Retire`, `retireSingle`), and when the engine takes a complete
snapshot (`retireBackendLocked`, `sampleNativeCountersLocked`). A transaction applies the candidate or
puts the previous target back, retires the other one, and takes a complete snapshot of what is left —
unless nothing is left: a retirement to the empty state takes none.

A run is a list of events. A native read that fails is a step that cannot be made, so what is stated
here is about runs in which every read succeeds; and a final read and the deletion after it are one
event, with no traffic in between. Two fields only record what happened: `opening` is the kernel and
the totals at the moment the collection in progress began, `ended` the counters that were deleted
after their identity was read and before the next complete snapshot.
-/

namespace Perimeterd.Metrics

open Policy Firewall

/-! ## The counters of a target -/

/-- The identity of an nftables counter: `Table + "/" + Name`. -/
def nftIdentity (table : String) (name : CounterName) : CounterIdentity :=
  ⟨.nftables, table ++ "/" ++ name.text⟩

def nftIdentities (t : Target) : List CounterIdentity :=
  t.counters.map fun spec => nftIdentity t.table spec.name

/-- A counter that has just been added. -/
def addedCounter (table : String) (spec : CounterSpec) : NativeCounter where
  identity := nftIdentity table spec.name
  family := spec.family
  direction := spec.direction
  role := spec.role
  packets := 0
  bytes := 0

/-- The living counter of an identity, with its place. -/
def findCounter (counters : List NativeCounter) (identity : CounterIdentity) :
    Option (Nat × NativeCounter) :=
  (counters.zipIdx.find? fun e => e.1.alive && e.1.identity = identity).map fun e => (e.2, e.1)

/-- What `ValidateTarget` has checked of a target's counters before it is applied. -/
def ownCounters (t : Target) : Bool :=
  t.counters.all fun spec => spec.name = counterName t.owner spec.family spec.direction spec.role

/-- The counters `commandBatch` adds: those of the target that are not there. -/
def addCounters (counters : List NativeCounter) (t : Target) : List NativeCounter :=
  t.counters.foldl (fun counters spec =>
    if (findCounter counters (nftIdentity t.table spec.name)).isSome then counters
    else counters ++ [addedCounter t.table spec]) counters

/-- The counters that are left when those of some identities are deleted. -/
def deleteCounters (counters : List NativeCounter) (doomed : List CounterIdentity) :
    List NativeCounter :=
  counters.map fun c => if c.alive && c.identity ∈ doomed then { c with alive := false } else c

/-! ## Reading -/

/-- The row of one counter in `nftCounterSnapshots`, with the place it was read at. -/
def readCounter (t : Target) (counters : List NativeCounter) (spec : CounterSpec) :
    Except String (Nat × NativeCounter) :=
  if !validRole spec.role || spec.name ≠ counterName t.owner spec.family spec.direction spec.role then
    .error ("nft backend: invalid owned counter identity \"" ++ spec.name.text ++ "\"")
  else
    match findCounter counters (nftIdentity t.table spec.name) with
    | none => .error ("nft backend: owned counter \"" ++ spec.name.text ++ "\" is absent")
    | some (place, c) =>
        .ok (place, { c with family := spec.family, direction := spec.direction, role := spec.role })

/-- The rows of `nftCounterSnapshots`. The result of the source is a map: it refuses an identity that
is there already, and its order is not seen. -/
def readCounters (t : Target) (counters : List NativeCounter) :
    List CounterSpec → List (Nat × NativeCounter) → Except String (List (Nat × NativeCounter))
  | [], taken => .ok taken
  | spec :: rest, taken => do
      let row ← readCounter t counters spec
      if taken.any (·.2.identity = row.2.identity) then
        .error ("firewall counter snapshot has duplicate rule identity \"" ++ row.2.identity.rule ++ "\"")
      else readCounters t counters rest (taken ++ [row])

def maxCounterSnapshotRows : Nat := 65536

/-- `nftCounterSnapshots`, with the places. -/
def nftCounterSnapshots (t : Target) (counters : List NativeCounter) :
    Except String (List (Nat × NativeCounter)) :=
  if t.counters.length > maxCounterSnapshotRows then
    .error ("nft backend: counter snapshot exceeds " ++ toString maxCounterSnapshotRows ++ " rules")
  else readCounters t counters t.counters []

/-! ## The engine -/

/-- Where the transaction of an apply stands. The candidate is `none` for the empty state. -/
inductive Phase where
  | steady
  | switching (candidate : Option Target)
  /-- A retirement succeeded and the complete snapshot after it is due. -/
  | retired (candidate : Option Target) (forward : Bool)
  | observed (candidate : Option Target) (forward : Bool)
deriving DecidableEq

/-- The candidate of a transaction in which more can be applied or retired. -/
def Phase.open? : Phase → Option (Option Target)
  | .switching candidate | .observed candidate _ => some candidate
  | _ => none

structure Telemetry where
  counters : List NativeCounter
  collector : Collector
  active : Option Target
  phase : Phase
  opening : Option (List NativeCounter × Totals)
  ended : CounterIdentity → Option NativeCounter

inductive Event where
  /-- The counter at a place counts. -/
  | traffic (place packets bytes : Nat)
  /-- A transaction is prepared. -/
  | prepare (candidate : Option Target)
  /-- The candidate, or on the way back the previous target, is applied. -/
  | apply (forward : Bool)
  /-- What is not kept is read for the last time and deleted, if its table is there and if the
  deletion succeeds. -/
  | retire (forward present deleted : Bool)
  /-- The complete snapshot after a retirement. -/
  | observe
  | finish
  /-- The periodic sample. -/
  | sample
  /-- Collection starts over. -/
  | collect
deriving DecidableEq

/-- The target a transaction leaves and the one it goes to. -/
def Telemetry.ends (s : Telemetry) (candidate : Option Target) (forward : Bool) :
    Option Target × Option Target :=
  if forward then (s.active, candidate) else (candidate, s.active)

/-- What `Retire` deletes of a target's counters. -/
def obsolete (previous : Target) : Option Target → List CounterIdentity
  | none => nftIdentities previous
  | some candidate =>
      if previous.table = candidate.table then
        (nftIdentities previous).filter (· ∉ nftIdentities candidate)
      else nftIdentities previous

/-- The final read: `report` and `CounterRetired`. -/
def Telemetry.report (s : Telemetry) (previous : Target) (taken : List (Nat × NativeCounter)) :
    Telemetry :=
  { s with
    collector := s.collector.counterRetired (retiredCounterSamples
      (retiredRows .nftables (hex previous.generation) (snapshots (hex previous.generation) taken)))
    ended := fun identity =>
      if taken.any (·.2.identity = identity) then none else s.ended identity }

def Telemetry.delete (s : Telemetry) (doomed : List CounterIdentity) : Telemetry :=
  { s with
    counters := deleteCounters s.counters doomed
    ended := fun identity =>
      if identity ∈ doomed then (findCounter s.counters identity).map (·.2) else s.ended identity }

/-- `CounterSnapshot` after a complete read of a target. -/
def Telemetry.snapshot (s : Telemetry) (t : Target) (taken : List (Nat × NativeCounter)) :
    Telemetry :=
  { s with
    collector := s.collector.observeCounters (currentCounterSamples (hex t.generation)
      (snapshots (hex t.generation) taken))
    opening := if s.collector.pendingBaseline then some (s.counters, s.collector.totals) else s.opening
    ended := fun _ => none }

/-- `Retire` of one target for the sake of another, up to its result. -/
def Telemetry.retire (s : Telemetry) (previous candidate : Option Target) (present deleted : Bool) :
    Option Telemetry :=
  match previous with
  | none => if deleted then some s else none
  | some previous =>
      if !present then
        -- a table that is not there has no counters
        if deleted && (nftIdentities previous).all fun i => (findCounter s.counters i).isNone then some s
        else none
      else
        match nftCounterSnapshots previous s.counters with
        | .error _ => none
        | .ok taken =>
            let s := s.report previous taken
            some (if deleted then s.delete (obsolete previous candidate) else s)

def Telemetry.observe (s : Telemetry) (t : Target) : Option Telemetry :=
  match nftCounterSnapshots t s.counters with
  | .error _ => none
  | .ok taken => some (s.snapshot t taken)

def Telemetry.step (s : Telemetry) : Event → Option Telemetry
  | .traffic place packets bytes =>
      match s.counters[place]? with
      | some c =>
          let later := { c with packets := c.packets + packets, bytes := c.bytes + bytes }
          if c.alive then some { s with counters := s.counters.set place later } else none
      | none => none
  | .prepare candidate =>
      match s.phase with
      | .steady => some { s with phase := .switching candidate }
      | _ => none
  | .apply forward =>
      match s.phase.open? with
      | none => none
      | some candidate =>
          match (s.ends candidate forward).2 with
          | none => some { s with phase := .switching candidate }
          | some t =>
              if ownCounters t then
                some { s with counters := addCounters s.counters t, phase := .switching candidate }
              else none
  | .retire forward present deleted =>
      match s.phase.open? with
      | none => none
      | some candidate =>
          (s.retire (s.ends candidate forward).1 (s.ends candidate forward).2 present deleted).map
            fun after =>
              { after with phase :=
                  if !deleted then .switching candidate
                  else if (s.ends candidate forward).2.isSome then .retired candidate forward
                  else .observed candidate forward }
  | .observe =>
      match s.phase with
      | .retired candidate forward =>
          match (s.ends candidate forward).2 with
          | none => none
          | some t => (s.observe t).map fun s => { s with phase := .observed candidate forward }
      | _ => none
  | .finish =>
      match s.phase with
      | .observed candidate forward =>
          some { s with active := (s.ends candidate forward).2, phase := .steady }
      | _ => none
  | .sample =>
      match s.phase, s.active with
      | .steady, some t => s.observe t
      | _, _ => none
  | .collect =>
      some { s with collector := s.collector.beginCounterCollection, opening := none }

def Telemetry.run (s : Telemetry) : List Event → Option Telemetry
  | [] => some s
  | e :: events => (s.step e).bind (·.run events)

/-! ## Readings that tell what was counted -/

/-- A value below the one its identity was last read with is a counter that started again. So a
reading of a new counter tells what it has counted if it is still below the value its deleted
namesake ended with, or if that was zero; and a number tells it as long as it has 64 bits. -/
def legible (ended : Option NativeCounter) (c : NativeCounter) : Bool :=
  [Measure.packets, Measure.bytes].all fun m =>
    c.count m < 2 ^ 64 && ended.all fun d => d.count m = 0 || c.count m < d.count m

/-- The target whose counters an event reads. -/
def Telemetry.reads (s : Telemetry) : Event → Option Target
  | .retire forward true _ => s.phase.open?.bind fun candidate => (s.ends candidate forward).1
  | .observe =>
      match s.phase with
      | .retired candidate forward => (s.ends candidate forward).2
      | _ => none
  | .sample => s.active
  | _ => none

/-- Once collection has begun, every counter an event reads can be told from a deleted one of its
name. -/
def Telemetry.legible (s : Telemetry) (e : Event) : Bool :=
  s.collector.pendingBaseline || (s.reads e).all fun t => s.counters.all fun c =>
    !(c.alive && c.identity ∈ nftIdentities t) || Metrics.legible (s.ended c.identity) c

def Telemetry.legibleRun (s : Telemetry) : List Event → Bool
  | [] => true
  | e :: events => s.legible e && (s.step e).all (·.legibleRun events)

/-- Whether an event is a complete snapshot. -/
def Event.complete : Event → Bool
  | .observe | .sample => true
  | _ => false

end Perimeterd.Metrics
