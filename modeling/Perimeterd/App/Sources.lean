import Perimeterd.Source.Resolve

/-!
# The source runtime

`internal/app/source.go`. The service loop owns the committed sources: a deadline per selector of
the active revision's snapshot, the timer of the next refresh, and the markers of the reload and the
refresh in flight. A cancel function is modelled by the job it cancels.

The zero time, which the source uses for "none", is kept apart as `none`. A timer is known by the
instant it fires at. The timestamps that only telemetry reads are left out.
-/

namespace Perimeterd.App

open State
open Policy (Time Selector)
open Config (Duration)

/-- A staging worker's candidate: a reload has no refresh sequence. -/
structure Job where
  epoch : Nat
  refresh : Nat
deriving DecidableEq

/-! ## Deadlines -/

structure SourceDeadline where
  endpoint : String
  transport : Source.Binding
  retrieved : Time
  interval : Duration
  jitter : Duration
  due : Time
  retry : Option Time := none
deriving DecidableEq

abbrev Deadlines := List (Selector × SourceDeadline)

def maximumDuration : Duration := 2 ^ 63 - 1

/-- `refreshDelay`, with the jitter that was drawn. -/
def refreshDelay (interval maximumJitter draw : Duration) : Duration :=
  let jitter := if maximumJitter > 0 then draw else 0
  if jitter > maximumDuration - interval then maximumDuration else interval + jitter

/-- `sourceRuntime.attempted`: only selectors that have a deadline are touched. -/
def Deadlines.attempted (ds : Deadlines) (selectors : List Selector) (draw : Selector → Duration)
    (now : Time) : Deadlines :=
  ds.map fun e => (e.1,
    if e.1 ∈ selectors then
      { e.2 with retry := some (now + refreshDelay e.2.interval e.2.jitter (draw e.1)) }
    else e.2)

def Deadlines.retries (ds : Deadlines) : List (Selector × Option Time) :=
  ds.map fun e => (e.1, e.2.retry)

/-- The refresh interval of the record has passed. -/
def SourceDeadline.stale (d : SourceDeadline) (now : Time) : Bool :=
  d.retrieved + d.interval ≤ now

/-- `nextRefresh`: the earliest due time, or the latest retry of a stale selector if that is later. -/
def Deadlines.nextRefresh (ds : Deadlines) (now : Time) : Option Time :=
  let next := (ds.map (·.2.due)).min?
  let barrier := ((ds.filter (·.2.stale now)).filterMap (·.2.retry)).max?
  match next, barrier with
  | some n, some b => if b > n then some b else some n
  | next, _ => next

/-- The deadline of a record: the one it has, unless what it was computed from has changed. -/
def recordDeadline (record : Source.Record) (interval jitter draw : Duration)
    (old : Option SourceDeadline) : SourceDeadline :=
  let fresh : SourceDeadline :=
    { endpoint := record.endpoint, transport := record.transport, retrieved := record.retrievedAt
      interval := interval, jitter := jitter
      due := record.retrievedAt + refreshDelay interval jitter draw }
  match old with
  | none => fresh
  | some d =>
      if d.endpoint ≠ record.endpoint ∨ d.transport ≠ record.transport ∨
          d.retrieved ≠ record.retrievedAt ∨ d.interval ≠ interval ∨ d.jitter ≠ jitter then fresh
      else d

/-- The loop of `selectRevision` over the records of a snapshot. -/
def describeDeadlines (texts : Source.Texts) (cfg : Config) (old : Deadlines)
    (draw : Selector → Duration) : List Source.Record → Except String Deadlines
  | [] => .ok []
  | record :: rest => do
      let spec ← (Source.describeSelector texts cfg record.selector).mapError
        ("describe committed source: " ++ ·)
      let others ← describeDeadlines texts cfg old draw rest
      return (record.selector, recordDeadline record spec.refreshInterval spec.refreshJitter
        (draw record.selector) (old.lookup record.selector)) :: others

/-! ## The runtime -/

structure SourceRuntime where
  active : Option Revision := none
  session : Source.Session := none
  deadlines : Deadlines := []
  timer : Option Time := none
  reloadCancel : Option Job := none
  reloadEpoch : Nat := 0
  refreshCancel : Option Job := none
  refreshSequence : Nat := 0

namespace SourceRuntime

def stopTimer (s : SourceRuntime) : SourceRuntime := { s with timer := none }

def schedule (s : SourceRuntime) (now : Time) : SourceRuntime :=
  { s with timer := (s.deadlines.nextRefresh now).map (max now) }

def attempted (s : SourceRuntime) (selectors : List Selector) (draw : Selector → Duration)
    (now : Time) : SourceRuntime :=
  { s with deadlines := s.deadlines.attempted selectors draw now }

def manifest (s : SourceRuntime) : Option Manifest := s.active.bind (·.manifest)

/-- A revision of another epoch ends the refresh in flight. -/
def endRefresh (s : SourceRuntime) (revision : Option Revision) : SourceRuntime :=
  if s.active = none ∨ revision = none ∨ s.active.map (·.epoch) ≠ revision.map (·.epoch) then
    if s.refreshCancel.isSome then { s with refreshCancel := none, refreshSequence := 0 } else s
  else s

def committedRecords (texts : Source.Texts) (cache : Source.Cache) :
    Option Manifest → Except String (List Source.Record)
  | none => .ok []
  | some m => do
      let snapshot ← (cache.load texts m).mapError ("load committed source snapshot: " ++ ·)
      return snapshot.records

def revisionDeadlines (texts : Source.Texts) (old : Deadlines) (draw : Selector → Duration)
    (records : List Source.Record) : Option Revision → Except String Deadlines
  | none => .ok []
  | some r => describeDeadlines texts r.config old draw records

/-- The session a revision is selected with: none means that of the same revision is kept. -/
def nextSession (s : SourceRuntime) (revision : Option Revision) (next : Source.Session) :
    Source.Session :=
  if next = none ∧ s.active.isSome ∧ s.active.map (·.id) = revision.map (·.id) then s.session
  else next

def selectRevision (texts : Source.Texts) (cache : Source.Cache) (draw : Selector → Duration)
    (now : Time) (s : SourceRuntime) (revision : Option Revision) (next : Source.Session) :
    Except String SourceRuntime := do
  let records ← committedRecords texts cache (revision.bind (·.manifest))
  let deadlines ← revisionDeadlines texts s.deadlines draw records revision
  return schedule { s.endRefresh revision with
    active := revision, session := s.nextSession revision next, deadlines := deadlines } now

/-- The reload half of a delivery: its marker is matched by epoch. -/
def deliverReload (s : SourceRuntime) (job : Job) : SourceRuntime :=
  if job.refresh = 0 ∧ job.epoch = s.reloadEpoch ∧ s.reloadCancel.isSome then
    { s with reloadCancel := none, reloadEpoch := 0 }
  else s

/-- Whether a result ends the refresh in flight: its marker is matched by the sequence alone. -/
def endsRefresh (s : SourceRuntime) (job : Job) : Bool :=
  job.refresh ≠ 0 && job.refresh = s.refreshSequence && s.refreshCancel.isSome

/-- The refresh half of a delivery that ends the refresh in flight. -/
def deliverRefresh (s : SourceRuntime) (selectors : List Selector) (draw : Selector → Duration)
    (now scheduled : Time) : SourceRuntime :=
  (attempted { s with refreshCancel := none, refreshSequence := 0 } selectors draw now).schedule
    scheduled

def close (s : SourceRuntime) : SourceRuntime :=
  { s with
    timer := none, session := none
    reloadCancel := none
    reloadEpoch := if s.reloadCancel.isSome then 0 else s.reloadEpoch
    refreshCancel := none
    refreshSequence := if s.refreshCancel.isSome then 0 else s.refreshSequence }

end SourceRuntime

end Perimeterd.App
