import Perimeterd.App.World

/-!
# The transaction engine

`internal/app/engine.go`: admission, `Apply` with its rollback and roll-forward paths, `Recover` and
`Cleanup`. The lookup views and the telemetry an engine also maintains take no part in these
decisions and are left out; where building a view may fail, the failure stays as a step.

`Apply` returns an outcome together with an error, as the source does. The other operations return a
result or an error.
-/

namespace Perimeterd.App

open Lib Firewall State

variable {ω : Type}

def errEngineClosed : String := "perimeterd engine is closed"

def errEngineDegraded : String := "perimeterd enforcement is degraded; recovery is required"

def errStaleCandidate : String := "candidate was superseded by a newer admission"

/-- The largest value of a 64-bit counter. -/
def maxCounter : Nat := 2 ^ 64 - 1

structure Outcome where
  transaction : Option Id := none
  committed : Bool := false
  degraded : Bool := false
  active : Option Revision := none
deriving DecidableEq

def joinErrors (a b : String) : String := a ++ "\n" ++ b

/-! ## Admission -/

def Engine.isHealthy (e : Engine) : Bool := e.healthy && e.enforced

def Engine.degraded (e : Engine) : Bool := !e.isHealthy

/-- `Engine.startErrorLocked`, for a context that has not ended. -/
def Engine.startError (e : Engine) : Except String Unit :=
  if e.closing then .error errEngineClosed
  else if e.degraded then .error errEngineDegraded
  else .ok ()

def Engine.admitEpoch (e : Engine) : Except String (Engine × Nat) :=
  if e.closing then .error errEngineClosed
  else if e.degraded then .error errEngineDegraded
  else if e.admitted = maxCounter then .error "candidate admission epoch exhausted"
  else .ok ({ e with admitted := e.admitted + 1 }, e.admitted + 1)

def Engine.admitRefresh (e : Engine) (epoch : Nat) : Except String (Engine × Nat) := do
  e.startError
  if epoch = 0 ∨ epoch ≠ e.activeEpoch then .error errStaleCandidate
  else if e.refreshSequence = maxCounter then .error "refresh sequence exhausted"
  else .ok ({ e with refreshSequence := e.refreshSequence + 1 }, e.refreshSequence + 1)

def Engine.current (e : Engine) (c : Candidate) : Bool :=
  if c.epoch = 0 then false
  else if c.refresh ≠ 0 then c.epoch = e.activeEpoch && c.refresh = e.refreshSequence
  else c.epoch = e.admitted

def Engine.adoptActiveEpoch (e : Engine) : Option Revision → Engine
  | none => { e with activeEpoch := 0, refreshSequence := 0 }
  | some r =>
      { e with
        refreshSequence :=
          if r.epoch ≠ e.activeEpoch then r.refreshSequence
          else if r.refreshSequence > e.refreshSequence then r.refreshSequence
          else e.refreshSequence
        activeEpoch := r.epoch
        admitted := if r.epoch > e.admitted then r.epoch else e.admitted }

def setHealthy (b : Bool) : Action ω Unit := onEngine fun e => { e with healthy := b }

def adopt (r : Option Revision) : Action ω Unit := onEngine fun e => e.adoptActiveEpoch r

/-- `transactionID`. The random identity is taken not to name a revision file that exists. -/
def transactionID : Action ω Id :=
  Proc.step fun fate w =>
    match fate with
    | .choose (.identity id) =>
        if (w.disk.revisions id).seen = none then (w, .ok id)
        else (w, .error "generate transaction identity")
    | _ => (w, .error "generate transaction identity")

/-- An oracle's decision about something the model leaves out. -/
def decideStep (f : Bool → World ω → World ω) : Action ω Bool :=
  Proc.step fun fate w =>
    match fate with
    | .ok => (f true w, .ok true)
    | _ => (f false w, .ok false)

section Engine

variable [DecidableEq ω] (h : Host ω)

/-! ## Backend calls of the engine -/

/-- Whether a target has a dynamic container. -/
def isDynamic (t : Option Target) : Bool := (t.bind (·.dynamicGeneration)).isSome

/-- `applyBackendLocked`: a dynamic target needs an operation number first. -/
def applyBackend (previous candidate : Option Target) : Action ω Unit := do
  if isDynamic previous || isDynamic candidate then
    check "CrowdSec operation sequence exhausted"
    h.apply previous candidate
  else h.apply previous candidate

def retireBackend (previous candidate : Option Target) : Action ω Unit := h.retire previous candidate

def readActive : Action ω (Option Revision) := do
  let view ← onDisk (readView h.content)
  pure view.active

/-! ## Apply -/

/-- What `Apply` returns: an outcome and, possibly, an error. -/
abbrev Applied : Type := Outcome × Option String

/-- Marks the engine unhealthy and returns a degraded outcome. -/
def degradedOutcome (transaction : Option Id) (committed : Bool) (active : Option Revision)
    (error : String) : Action ω Applied := do
  setHealthy false
  pure ({ transaction := transaction, committed := committed, degraded := true, active := active },
    some error)

def fail (error : String) : Action ω Applied := degradedOutcome none false none error

def committedFailure (candidate : Revision) (error : String) : Action ω Applied := do
  setHealthy false
  Proc.handle (onDisk (readView h.content))
    (fun _ => degradedOutcome (some candidate.id) true (some candidate) error) fun view =>
      degradedOutcome (some candidate.id) true (some (view.active.getD candidate)) error

def rollback (previous : Option Revision) (candidate : Revision) (original : String) :
    Action ω Applied :=
  let previousTarget := previous.bind (·.target)
  Proc.handle (check "context")
    (fun _ => degradedOutcome (some candidate.id) false previous original) fun _ =>
  Proc.handle (applyBackend h candidate.target previousTarget)
    (fun e => degradedOutcome (some candidate.id) false previous
      (joinErrors original ("restore previous firewall target: " ++ e))) fun _ =>
  Proc.handle (retireBackend h candidate.target previousTarget)
    (fun e => degradedOutcome (some candidate.id) false previous
      (joinErrors original ("retire failed candidate: " ++ e))) fun _ =>
  Proc.handle (onDisk (stabilize h.content))
    (fun e => degradedOutcome (some candidate.id) false previous
      (joinErrors original ("stabilize restored transaction: " ++ e))) fun _ =>
  Proc.handle (onDisk (finish h.content))
    (fun e => degradedOutcome (some candidate.id) false previous
      (joinErrors original ("finish failed transaction: " ++ e))) fun _ => do
  setHealthy true
  pure ({ transaction := some candidate.id, active := previous }, some original)

def resolveCommitted (previous : Option Revision) (candidate : Revision) (cause : String) :
    Action ω Applied :=
  Proc.handle (onDisk (stabilize h.content))
    (fun e => degradedOutcome (some candidate.id) true (some candidate)
      (joinErrors cause ("stabilize committed revision: " ++ e))) fun _ =>
  Proc.handle (onDisk (markPhase h.content .committed))
    (fun e => degradedOutcome (some candidate.id) true (some candidate) (joinErrors cause e))
    fun _ =>
  Proc.handle (retireBackend h (previous.bind (·.target)) candidate.target)
    (fun e => committedFailure h candidate (joinErrors cause e)) fun _ =>
  Proc.handle (onDisk (finish h.content))
    (fun e => committedFailure h candidate (joinErrors cause e)) fun _ => do
  setHealthy true
  Proc.handle (readActive h)
    (fun e => committedFailure h candidate (joinErrors cause e)) fun active =>
      pure ({ transaction := some candidate.id, committed := true, active := active }, some cause)

def resolveCommitError (previous : Option Revision) (candidate : Revision) (original : String) :
    Action ω Applied :=
  Proc.handle (onDisk (stabilize h.content))
    (fun e => degradedOutcome (some candidate.id) false previous
      (joinErrors original ("stabilize uncertain commit: " ++ e))) fun _ =>
  Proc.handle (readActive h)
    (fun e => degradedOutcome (some candidate.id) false none (joinErrors original e)) fun active =>
      if active.map (·.id) = some candidate.id then resolveCommitted h previous candidate original
      else rollback h previous candidate original

/-- `applyLocked` from the durable preparation on. -/
def transact (previous : Option Revision) (candidate : Revision) : Action ω Applied :=
  let previousTarget := previous.bind (·.target)
  Proc.handle (onDisk (prepare h.content previous candidate)) fail fun _ =>
  Proc.handle (check "after-prepare") (rollback h previous candidate) fun _ =>
  Proc.handle (applyBackend h previousTarget candidate.target)
    (rollback h previous candidate) fun _ =>
  Proc.handle (check "after-switch") (rollback h previous candidate) fun _ =>
  Proc.handle (onDisk (markPhase h.content .switched)) (rollback h previous candidate) fun _ =>
  Proc.handle (onDisk (commit h.content candidate))
    (resolveCommitError h previous candidate) fun _ =>
  Proc.handle (check "after-commit") (resolveCommitted h previous candidate) fun _ =>
  Proc.handle (onDisk (markPhase h.content .committed))
    (resolveCommitted h previous candidate) fun _ =>
  Proc.handle (check "before-retire") (resolveCommitted h previous candidate) fun _ =>
  Proc.handle (retireBackend h previousTarget candidate.target)
    (committedFailure h candidate) fun _ =>
  Proc.handle (onDisk (finish h.content)) (committedFailure h candidate) fun _ =>
  Proc.handle (readActive h) (committedFailure h candidate) fun active => do
  setHealthy true
  pure ({ transaction := some candidate.id, committed := true, active := active }, none)

/-- The early returns of `applyLocked`. -/
def unchanged (previous : Option Revision) (error : String) : Action ω Applied := do
  let degraded ← Proc.observe fun w : World ω => w.engine.degraded
  pure ({ active := previous, degraded := degraded }, some error)

/-- A new CrowdSec authority gets its own generation of objects. The source writes into the target
without asking whether there is one; `Compile` makes no empty model of a configuration that enables
CrowdSec. -/
def activateDynamic (transaction : Id) (target : Option Target) : Action ω (Option Target) := do
  let renew ← decideStep fun _ w => w
  pure (if renew then target.map fun t =>
    { t with dynamicGeneration := some transaction, generation := transaction } else target)

/-- The CrowdSec part of `applyLocked`. -/
def stageDynamic (c : Candidate) (transaction : Id) (target : Option Target) :
    Action ω (Option Target) :=
  if c.cfg.crowdsec.enabled then do
    check "CrowdSec activation was not synchronized"
    activateDynamic transaction target
  else pure target

/-- The revision `applyLocked` records. -/
def Candidate.revision (c : Candidate) (transaction : Id) (target : Option Target) : Revision where
  version := 2
  id := transaction
  epoch := c.epoch
  refreshSequence := c.refresh
  manifest := c.manifest
  configPath := c.path
  config := c.cfg
  target := target

/-- `ValidateTarget`, which has nothing to say about no target. -/
def Host.checkTarget (target : Option Target) : Except String Unit :=
  match target with
  | none => .ok ()
  | some t => h.validateTarget t

/-- `applyLocked` between the identity of the transaction and its preparation. -/
def buildAndTransact (c : Candidate) (previous : Option Revision) (transaction : Id) :
    Action ω Applied :=
  Proc.handle (Proc.lift (h.buildTarget transaction c.cfg c.model (previous.bind (·.target))))
    (unchanged previous) fun built =>
  Proc.handle (check "build lookup state") (unchanged previous) fun _ =>
  Proc.handle (check "build status state") (unchanged previous) fun _ =>
  Proc.handle (stageDynamic c transaction built)
    (fun e => pure ({ active := previous }, some e)) fun target =>
  Proc.handle (Proc.lift (h.checkTarget target)) (unchanged previous) fun _ =>
  Proc.handle (check "preflight") (unchanged previous) fun _ =>
  transact h previous (c.revision transaction target)

def applyLocked (c : Candidate) : Action ω Applied := do
  let engine ← Proc.observe fun w : World ω => w.engine
  Proc.handle (do Proc.lift engine.startError; check "context")
    (fun e => pure ({ degraded := engine.degraded }, some e)) fun _ =>
  Proc.handle (Proc.ensure (engine.current c = true) errStaleCandidate)
    (fun e => pure ({}, some e)) fun _ =>
  Proc.handle (onDisk (readView h.content)) fail fun view =>
  if view.journal.isSome then fail "pending durable transaction requires recovery"
  else
    Proc.handle transactionID (fun e => pure ({}, some e)) fun transaction =>
      buildAndTransact h c view.active transaction

/-- `crowdRuntime.activateLocked`: nothing happens if the state is the active one already. -/
def activate : Action ω Unit := do
  let _ ← decideStep fun b w =>
    if b then { w with engine := { w.engine with enforced := true } } else w
  pure ()

/-- `finishApplyLocked`, as far as the engine is concerned. -/
def finishApply (committed : Bool) : Action ω Unit := if committed then activate else pure ()

/-- What `apply` does with the outcome. -/
def publish (result : Applied) : Action ω Applied :=
  match result.1.committed, result.1.active with
  | true, some active => do
      adopt (some active)
      if result.1.degraded then pure result
      else
        Proc.handle (check "build candidate lookup state") (fun e => do
          setHealthy false
          pure ({ result.1 with degraded := true },
            some (match result.2 with
              | none => e
              | some err => joinErrors err e)))
          fun _ => pure result
  | _, _ => pure result

def apply (c : Candidate) : Action ω Applied :=
  Proc.handle (check "stage CrowdSec") (fun e => do
    let degraded ← Proc.observe fun w : World ω => w.engine.degraded
    pure ({ degraded := degraded }, some e)) fun _ => do
  let result ← applyLocked h c
  finishApply result.1.committed
  publish result

/-! ## Cleanup and recovery -/

def targetsForView (view : View) : List Target :=
  let ids := (view.active.map (·.id)).toList ++
    (match view.journal with
      | none => []
      | some j => j.previous.toList ++ j.candidate.toList ++ j.revisions)
  (sortSlice (fun a b => a < b) ids.dedup).filterMap fun id =>
    (view.find id).bind (·.target)

def cleanupView (view : View) : Action ω Unit := do
  h.cleanup (targetsForView view)
  onDisk (removeActive h.content)
  onDisk (finish h.content)

def revisionRef (view : View) : Option Id → Except String (Option Revision)
  | none => .ok none
  | some id =>
      match view.find id with
      | none => .error ("journal references missing revision " ++ hex id)
      | some r => .ok (some r)

/-- `recoverLocked` without a journal: the active revision is applied over itself. -/
def reapply (active : Revision) : Action ω (Option Revision) := do
  onDisk (prepare h.content (some active) active)
  applyBackend h active.target active.target
  onDisk (markPhase h.content .switched)
  onDisk (commit h.content active)
  onDisk (markPhase h.content .committed)
  retireBackend h active.target active.target
  onDisk (finish h.content)
  adopt (some active)
  pure (some active)

/-- `recoverLocked` when the candidate is already active. -/
def rollForward (previous : Option Revision) (candidate : Revision) :
    Action ω (Option Revision) := do
  applyBackend h (previous.bind (·.target)) candidate.target
  onDisk (commit h.content candidate)
  onDisk (markPhase h.content .committed)
  retireBackend h (previous.bind (·.target)) candidate.target
  onDisk (finish h.content)
  adopt (some candidate)
  pure (some candidate)

def rollBack (previous : Option Revision) (candidate : Revision) :
    Action ω (Option Revision) := do
  applyBackend h candidate.target (previous.bind (·.target))
  retireBackend h candidate.target (previous.bind (·.target))
  onDisk (finish h.content)
  adopt previous
  pure previous

/-- `recoverLocked` with the journal of an apply. -/
def resume (view : View) (j : Journal) : Action ω (Option Revision) := do
  Proc.ensure (some j.id = j.candidate)
    "apply journal identity does not match candidate revision"
  let previous ← Proc.lift (revisionRef view j.previous)
  let candidate ← Proc.lift (revisionRef view j.candidate)
  match candidate with
  | none => Proc.throw "apply journal has no candidate revision"
  | some candidate =>
      if view.active.map (·.id) = some j.id then rollForward h previous candidate
      else rollBack h previous candidate

/-- `recoverLocked` on the stabilized view. -/
def recoverView (view : View) : Action ω (Option Revision) :=
  match view.journal, view.active with
  | none, none => do
      adopt none
      pure none
  | none, some active => reapply h active
  | some j, _ =>
      match j.operation with
      | .cleanup => do
          cleanupView h view
          adopt none
          pure none
      | .apply => resume h view j

def recoverLocked : Action ω (Option Revision) := do
  setHealthy false
  let closing ← Proc.observe fun w : World ω => w.engine.closing
  Proc.ensure (closing = false) errEngineClosed
  check "context"
  let _ ← onDisk (readView h.content)
  onDisk (stabilize h.content)
  let view ← onDisk (readView h.content)
  recoverView h view

def failedWrite {α : Type} (error : String) : Action ω α := do
  onEngine fun e => { e with enforced := false }
  Proc.throw error

/-- `crowdRuntime.reconcileLocked`, once the runtime has a state to write. -/
def reconcile : Action ω Unit := do
  check "context"
  Proc.handle (onDisk (readView h.content)) failedWrite fun view => do
  let healthy ← Proc.observe fun w : World ω => w.engine.healthy
  if view.journal.isSome || !healthy then failedWrite errEngineDegraded
  else
    match view.active.bind (·.target) with
    | none => failedWrite "CrowdSec active container is unavailable"
    | some target =>
        if target.dynamicGeneration.isNone then
          failedWrite "CrowdSec active container is unavailable"
        else do
          Proc.handle (check "CrowdSec operation sequence exhausted") failedWrite fun _ => do
          check errStaleCandidate
          Proc.handle (h.updateDynamic target) failedWrite fun _ =>
          onEngine fun e => { e with enforced := true }

/-- `crowdRuntime.recoverLocked`: which branch is taken depends on the runtime's own state. -/
def crowdRecover : Action ω Unit := do
  let write ← decideStep fun _ w => w
  if write then reconcile h else activate

/-- Marks the engine unhealthy and passes the error on. -/
def recoveryFailure {α : Type} (error : String) : Action ω α := do
  setHealthy false
  Proc.throw error

def recover : Action ω (Option Revision) :=
  Proc.handle (recoverLocked h) recoveryFailure fun revision => do
  setHealthy true
  Proc.handle (crowdRecover h) recoveryFailure fun _ =>
  Proc.handle (check "build recovered lookup state") recoveryFailure fun _ =>
  pure revision

/-- The end of `Cleanup`: nothing is active any more. -/
def publishEmpty : Action ω Unit := do
  activate
  setHealthy true
  Proc.handle (check "build empty lookup state") recoveryFailure fun _ => pure ()

def cleanupRecorded (view : View) : Action ω Unit := do
  let id ← transactionID
  Proc.handle (onDisk (beginCleanup h.content view id)) recoveryFailure fun _ =>
  Proc.handle (onDisk (readView h.content)) recoveryFailure fun view =>
  Proc.handle (cleanupView h view) recoveryFailure fun _ => publishEmpty

def cleanup : Action ω Unit := do
  check "context"
  let closing ← Proc.observe fun w : World ω => w.engine.closing
  Proc.ensure (closing = false) errEngineClosed
  Proc.handle (onDisk (readView h.content)) recoveryFailure fun view =>
  if view.journal = none ∧ view.active = none then publishEmpty
  else cleanupRecorded h view

/-- The first steps of `Run`: recovery, then collection of orphan revisions. -/
def startup : Action ω Unit := do
  let _ ← recover h
  onDisk (collectRevisions h.content)

end Engine

end Perimeterd.App
