import Perimeterd.Firewall.Target

/-!
# Who closes an upstream session

`Run` of `internal/app/run.go` once more, with `stagedCandidate`, `runtimePublication` and
`sourceRuntime`, seen from the session handles alone. A handle comes from `Load` or `Retain` and has
to be closed by whoever has it: the staged candidate of a worker, the reservation of the publication,
or the active source. Ownership moves along every branch of `Run`, and everything else that a branch
depends on — what the engine did, whether a listener could be bound, whether a context had ended — is
an answer.

Handles are numbered in the order in which they were obtained, and `closed` is the history of calls
of `Close`. An entry records who made the call, who had the handle when the closer gave it up, and
who had it during the call.

The loop handles one event at a time, so a handler is one step here; what workers do is a step of its
own at any time. `Run` ends in two parts, because `stopService` waits for the workers in between, and
its deferred calls belong to the second.
-/

namespace Perimeterd.App

open Firewall (Id)

inductive Owner where
  | staged (worker : Nat)
  | reservation
  | source
deriving DecidableEq

structure Closing where
  handle : Nat
  closer : Owner
  before : List Owner
  during : List Owner
deriving DecidableEq

/-- `stagedCandidate`, from the start of its worker on. -/
structure StagedHandle where
  worker : Nat
  session : Option Nat
  /-- Whether the result is in the channel. -/
  sent : Bool
deriving DecidableEq

structure ReservedHandle where
  session : Option Nat
  transaction : Option Id
deriving DecidableEq

inductive Stage where
  | running
  /-- `stopService` waits for the workers. -/
  | stopping
  | returned
deriving DecidableEq

structure Custody where
  opened : Nat
  closed : List Closing
  candidates : List StagedHandle
  workers : Nat
  reservation : Option ReservedHandle
  /-- The reservation that `publish` and `recover` have taken out of the publication. -/
  inHand : Option ReservedHandle
  session : Option Nat
  active : Option Id
  stage : Stage
deriving DecidableEq

namespace Custody

/-- Everything that is held, with its owner. -/
def owned (s : Custody) : List (Owner × Nat) :=
  s.candidates.filterMap (fun c => c.session.map (.staged c.worker, ·)) ++
    (s.reservation.bind (·.session)).toList.map (.reservation, ·) ++
    (s.inHand.bind (·.session)).toList.map (.reservation, ·) ++
    s.session.toList.map (.source, ·)

def owners (s : Custody) (x : Nat) : List Owner := (s.owned.filter (·.2 = x)).map Prod.fst

def isClosed (s : Custody) (x : Nat) : Bool := s.closed.any (·.handle = x)

def close (s : Custody) (x : Nat) (closer : Owner) (before : List Owner) : Custody :=
  { s with closed := s.closed ++ [⟨x, closer, before, s.owners x⟩] }

/-! ## Staged candidates -/

/-- `stagedCandidate.close`; the candidate is not looked at again. -/
def closeCandidate (s : Custody) (worker : Nat) : Custody :=
  match s.candidates.find? (·.worker = worker) with
  | none => s
  | some c =>
      let after := { s with candidates := s.candidates.erase c }
      match c.session with
      | none => after
      | some x => after.close x (.staged worker) (s.owners x)

/-- `stagedCandidate.retainSession`: nothing to retain, no handle, or a new one. -/
def retainSession (s : Custody) (c : StagedHandle) : Option (Option Nat × Custody) :=
  match c.session with
  | none => some (none, s)
  | some x => if s.isClosed x then none else some (some s.opened, { s with opened := s.opened + 1 })

/-! ## The source runtime -/

/-- The end of `selectRevision`: the session before is closed unless it is the one selected. -/
def install (s : Custody) (revision : Option Id) (next : Option Nat) : Custody :=
  let after := { s with active := revision, session := next }
  match s.session with
  | none => after
  | some old => if next = some old then after else after.close old .source (s.owners old)

/-- `selectRevision`: `none` if the revision's sources could not be read. Without a session, the same
revision keeps the one it has. -/
def selectRevision (s : Custody) (fails : Bool) (revision : Option Id) (nextSession : Option Nat) :
    Option Custody :=
  if fails then none
  else if nextSession.isNone && revision.isSome && s.active = revision then
    some (s.install revision s.session)
  else some (s.install revision nextSession)

def closeSources (s : Custody) : Custody :=
  match s.session with
  | none => s
  | some x => { s with session := none }.close x .source (s.owners x)

/-! ## The publication -/

/-- `closeReservation` of the reservation in hand. -/
def closeInHand (s : Custody) : Custody :=
  match s.inHand.bind (·.session) with
  | none => { s with inHand := none }
  | some x => { s.close x .reservation (s.owners x) with inHand := none }

/-- The publication gives its reservation to the caller. -/
def takeReservation (s : Custody) : Custody := { s with inHand := s.reservation, reservation := none }

/-- `discard`, and what `publication.close` does with a reservation. -/
def discard (s : Custody) : Custody := s.takeReservation.closeInHand

def reserve (s : Custody) (worker : Nat) (bindFails : Bool) : Bool × Custody :=
  match s.candidates.find? (·.worker = worker) with
  | none => (false, s)
  | some c =>
      if s.reservation.isSome || bindFails then (false, s)
      else
        match s.retainSession c with
        | none => (false, s)
        | some (session, s) => (true, { s with reservation := some ⟨session, none⟩ })

/-- `publishReservation` of the reservation in hand. -/
def publishReservation (s : Custody) (fails : Bool) (revision : Option Id) : Bool × Custody :=
  match s.selectRevision fails revision (s.inHand.bind (·.session)) with
  | none => (false, s.closeInHand)
  | some s => (true, { s with inHand := none })

def publish (s : Custody) (checkFails selectFails : Bool) (revision : Option Id) : Bool × Custody :=
  if checkFails || s.reservation.isNone then (false, s)
  else s.takeReservation.publishReservation selectFails revision

/-- `selectRevision` without a session, where the state is looked at again. -/
def selectNone (s : Custody) (fails : Bool) (revision : Option Id) : Bool × Custody :=
  match s.selectRevision fails revision none with
  | none => (false, s)
  | some s => (true, s)

def recoverPublication (s : Custody) (selectFails : Bool) (revision : Option Id) : Bool × Custody :=
  match s.reservation with
  | none => s.selectNone selectFails revision
  | some r =>
      if r.transaction.isNone || revision ≠ r.transaction then
        s.takeReservation.closeInHand.selectNone selectFails revision
      else s.takeReservation.publishReservation selectFails revision

def retainReservation (s : Custody) (transaction : Option Id) : Bool × Custody :=
  match s.reservation with
  | none => (false, s)
  | some r => (true, { s with reservation := some { r with transaction := transaction } })

/-! ## The end of the run -/

/-- `stopService` up to the wait for the workers. -/
def stopService (s : Custody) : Custody := { s.closeSources with stage := .stopping }

/-- The calls that `Run` has deferred. -/
def deferred (s : Custody) : Custody := { s.discard.closeSources with stage := .returned }

/-- `stopService` after the wait: the channel is drained, the publication is closed, unless the control
listener could not be, and `Run` returns. -/
def drain (s : Custody) (controlFails : Bool) : Custody :=
  let s := (s.candidates.map (·.worker)).foldl closeCandidate s
  (if controlFails then s else s.discard).deferred

/-! ## Handlers -/

/-- What `Run` meets on its way with a result. -/
structure Delivery where
  /-- The result is superseded, an error, or comes while recovery is pending. -/
  dropped : Bool
  bindFails : Bool
  /-- The request that waits for it is gone. -/
  abandoned : Bool
  committed : Bool
  degraded : Bool
  transaction : Option Id
  checkFails : Bool
  selectFails : Bool
  revision : Option Id
deriving DecidableEq

/-- What follows `applyStaged`, which closes the candidate. -/
def handleApplied (s : Custody) (d : Delivery) : Custody :=
  if !d.committed then
    if d.degraded && d.transaction.isSome then
      let r := s.retainReservation d.transaction
      if r.1 then r.2 else r.2.discard
    else s.discard
  else
    let r := s.publish d.checkFails d.selectFails d.revision
    if r.1 then r.2 else r.2.stopService

def handleResult (s : Custody) (worker : Nat) (d : Delivery) : Custody :=
  if d.dropped then s.closeCandidate worker
  else
    let r := s.reserve worker d.bindFails
    if !r.1 then r.2.closeCandidate worker
    else if d.abandoned then r.2.discard.closeCandidate worker
    else (r.2.closeCandidate worker).handleApplied d

/-- How a recovery ended. -/
inductive Recovery where
  | retry
  | fatal
  | recovered (revision : Option Id) (selectFails : Bool)
deriving DecidableEq

def handleRecovery (s : Custody) : Recovery → Custody
  | .retry => s
  | .fatal => s.stopService
  | .recovered revision selectFails =>
      let r := s.recoverPublication selectFails revision
      if r.1 then r.2 else r.2.stopService

/-- `admitReload`: the worker has no session yet. -/
def startReload (s : Custody) : Custody :=
  { s with
    candidates := s.candidates ++ [⟨s.workers, none, false⟩]
    workers := s.workers + 1 }

/-- A refresh is due: its worker gets a handle of its own. -/
def startRefresh (s : Custody) : Custody :=
  match s.session with
  | none => s.startReload
  | some x =>
      if s.isClosed x then s.startReload
      else
        { s with
          opened := s.opened + 1
          candidates := s.candidates ++ [⟨s.workers, some s.opened, false⟩]
          workers := s.workers + 1 }

/-! ## Workers -/

/-- A worker whose result is not sent yet. -/
def atWork (s : Custody) (worker : Nat) : Option StagedHandle :=
  s.candidates.find? fun c => c.worker = worker && !c.sent

/-- `loadUpstreamSession` in a worker succeeds. -/
def load (s : Custody) (worker : Nat) : Custody :=
  match s.atWork worker with
  | some ⟨_, none, _⟩ =>
      { s with
        opened := s.opened + 1
        candidates := s.candidates.map fun c =>
          if c.worker = worker then { c with session := some s.opened } else c }
  | _ => s

def send (s : Custody) (worker : Nat) : Custody :=
  { s with candidates := s.candidates.map fun c =>
      if c.worker = worker then { c with sent := true } else c }

end Custody

/-! ## Runs -/

inductive HandleEvent where
  | reload
  | refresh
  | load (worker : Nat)
  | send (worker : Nat)
  /-- A worker finds its context ended; it ends with that of the run, which may be before the loop
  takes notice. -/
  | abandon (worker : Nat)
  | deliver (worker : Nat) (d : Custody.Delivery)
  | recovery (r : Custody.Recovery)
  | stop
  | drain (controlFails : Bool)
deriving DecidableEq

namespace Custody

def step (s : Custody) : HandleEvent → Custody
  | .reload => if s.stage = .running then s.startReload else s
  | .refresh => if s.stage = .running then s.startRefresh else s
  | .load worker => if s.stage = .returned then s else s.load worker
  | .send worker => if s.stage = .returned then s else s.send worker
  | .abandon worker =>
      if s.stage ≠ .returned && (s.atWork worker).isSome then s.closeCandidate worker else s
  | .deliver worker d =>
      if s.stage = .running && s.candidates.any (fun c => c.worker = worker && c.sent) then
        s.handleResult worker d
      else s
  | .recovery r => if s.stage = .running then s.handleRecovery r else s
  | .stop => if s.stage = .running then s.stopService else s
  | .drain controlFails =>
      -- every worker is done
      if s.stage = .stopping && s.candidates.all (·.sent) then s.drain controlFails else s

def run (s : Custody) (events : List HandleEvent) : Custody := events.foldl step s

/-- What `Run` meets on its way to the first wait. -/
structure Startup where
  /-- It fails before the identities are loaded, with this revision recovered. -/
  recovered : Option Id
  early : Bool
  selectFails : Bool
  loadFails : Bool
  stageFails : Bool
  bindFails : Bool
  cancelled : Bool
  committed : Bool
  degraded : Bool
  transaction : Option Id
  recoverFails : Bool
  again : Option Id
  revision : Option Id
  checkFails : Bool
  selectFailsAgain : Bool
  /-- The notifier fails, the startup context has ended, or readiness cannot be notified. -/
  late : Bool
deriving DecidableEq

def idle : Custody :=
  { opened := 0, closed := [], candidates := [], workers := 0, reservation := none, inHand := none
    session := none, active := none, stage := .running }

/-- The end of the startup's apply; whether `Run` goes on. -/
def publishInitial (s : Custody) (a : Startup) : Bool × Custody :=
  if a.degraded then
    let r := s.retainReservation a.transaction
    if !r.1 || a.recoverFails || a.again.isNone || a.again ≠ a.transaction then (false, r.2.discard)
    else
      let r := r.2.recoverPublication a.selectFailsAgain a.again
      if r.1 then (true, r.2) else (false, r.2.discard)
  else if !a.committed then (false, s.discard)
  else
    let r := s.publish a.checkFails a.selectFailsAgain a.revision
    if r.1 then (true, r.2) else (false, r.2.discard)

/-- The startup from the load of the identities on; whether `Run` goes on. The initial candidate is
the one of worker `0`. -/
def startLoaded (s : Custody) (a : Startup) : Bool × Custody :=
  if a.loadFails then (false, s)
  else
    let s := s.startReload.load 0
    if a.stageFails then (false, s.closeCandidate 0)
    else
      let r := s.reserve 0 a.bindFails
      if !r.1 then (false, r.2.closeCandidate 0)
      else if a.cancelled then (false, r.2.discard.closeCandidate 0)
      else
        let r := (r.2.closeCandidate 0).publishInitial a
        (r.1 && !a.late, r.2)

/-- `Run` up to the first wait, or to its end. -/
def startup (a : Startup) : Custody :=
  let r := idle.selectNone (a.selectFails || a.early) a.recovered
  if !r.1 then idle.deferred
  else
    let r := r.2.startLoaded a
    if r.1 then r.2 else r.2.deferred

end Custody

end Perimeterd.App
