import Perimeterd.App.Admission
import Perimeterd.App.Staging

/-!
# The service loop

`Run` of `internal/app/run.go` with `runtimePublication` and the reload bridge. After startup one
loop owns everything: it waits for an occurrence, handles it to the end, and waits again. Workers
stage candidates beside it and send their results in whatever order; the loop chooses freely among
the occurrences that are ready.

A handler is a process over the service's state. Each of its steps takes one answer: what the engine
met, what other goroutines did before the engine's lock was taken, what the clock showed, whether a
context had ended. Answers are free, so a context may seem to come back to life; this only adds runs.
A handler that returns is back at the wait point; one that fails has left the loop.

Metrics, logging and the sampling of counters are left out. What remains of the metrics listener is
whether a reservation replaces it, and whether binding it and retiring it succeed. The results
channel and the requests channel are not bounded: a worker that waits to send is a worker whose
result has not been handled. `log` is a history no handler reads.
-/

namespace Perimeterd.App

open Lib Firewall State
open Policy (Time Selector)
open Config (Duration)

/-! ## Replies -/

inductive ReloadOutcome where
  | applied
  | degraded
  | rejected
  | unknown
deriving DecidableEq

structure ReloadResult where
  schemaVersion : Nat := 1
  outcome : ReloadOutcome
  revision : Option Id := none
  configSHA256 : String := ""
  code : String := ""
  message : String := ""
deriving DecidableEq

def ReloadResult.failure (outcome : ReloadOutcome) (code message : String) : ReloadResult :=
  { outcome := outcome, code := code, message := message }

/-- `reloadRequest`, once the loop waits for its result. Requests are numbered as they arrive. -/
structure Waiter where
  request : Nat
  epoch : Nat
  digest : String := ""
deriving DecidableEq

/-! ## The state -/

structure Reservation where
  transaction : Option Id := none
  replace : Bool := false
  refreshErr : Option String := none
  attempted : List Selector := []
  session : Source.Session := none

/-- What a handler leaves in the history. -/
inductive Entry (ω : Type) where
  | received (request : Nat)
  | admitted (request : Option Nat) (epoch : Nat)
  | delivered (worker : Worker) (conditions : Conditions)
  | applied (c : Candidate) (result : Applied) (after : World ω)
  | published (revision : Option Revision)
  | judged (engine metrics : Bool)
  | replied (request : Nat) (result : ReloadResult)

structure Service (ω : Type) where
  world : World ω := {}
  sources : SourceRuntime := {}
  reservation : Option Reservation := none
  listening : Bool := false
  runtimeHealthy : Bool := true
  waiter : Option Waiter := none
  recovering : Bool := false
  recoveryTimer : Bool := false
  workers : List Worker := []
  requests : Nat := 0
  log : List (Entry ω) := []

def Service.pending {ω : Type} (s : Service ω) : Bool :=
  match s.reservation with
  | none => false
  | some r => r.transaction.isSome

/-- What goes on beside the loop and takes the engine's lock or the store's. -/
inductive Background where
  | reconcile
  | stage (m : Manifest)

def Background.op : Background → Op
  | .reconcile => .reconcile
  | .stage m => .stage m

/-- One answer. A step reads what it needs of it. -/
structure Answer (ω : Type) where
  before : List (Background × List (Fate (Move ω))) := []
  answers : List (Fate (Move ω)) := []
  now : Time := 0
  draw : Selector → Duration := fun _ => 0
  cache : Source.Cache := ⟨fun _ => none, fun _ => 0⟩
  refusal : Option String := none
  flag : Bool := false

/-- Why a handler does not come back to the wait point. -/
inductive Stop where
  | crashed
  | exited (error : Option String)

abbrev Handler (ω α : Type) : Type := Proc (Answer ω) (Service ω) Stop α

section Service

variable {ω : Type}

/-! ## Steps -/

def ask : Handler ω (Answer ω) := Proc.step fun a s => (s, .ok a)

def look {α : Type} (f : Service ω → α) : Handler ω α := Proc.observe f

def update (f : Service ω → Service ω) : Handler ω Unit := Proc.change f

def note (e : Entry ω) : Handler ω Unit := update fun s => { s with log := e :: s.log }

def exit {α : Type} (e : Option String) : Handler ω α := Proc.throw (.exited e)

variable [DecidableEq ω] (h : Host ω)

/-- The worlds background work leads through; `none` if the process does not survive it. -/
def background : List (Background × List (Fate (Move ω))) → World ω → Option (World ω)
  | [], w => some w
  | (b, answers) :: rest, w =>
      match exec h b.op w answers with
      | (w', .done _ _) => background rest w'
      | (w', .failed _ _) => background rest w'
      | (_, .cut) => none

/-- A call of the engine: its result or its error. -/
def call {α : Type} (p : Action ω α) : Handler ω (Except String α) :=
  Proc.step fun a s =>
    match background h a.before s.world with
    | none => (s, .error .crashed)
    | some w =>
        match p w a.answers with
        | (w', .done x _) => ({ s with world := w' }, .ok (.ok x))
        | (w', .failed e _) => ({ s with world := w' }, .ok (.error e))
        | (w', .cut) => ({ s with world := w' }, .error .crashed)

theorem keeps_call {h : Host ω} {α : Type} {p : Action ω α} {I P : Service ω → Prop}
    {Q : Except String α → Service ω → Prop} {E : Stop → Service ω → Prop}
    (hI : ∀ s w, I s → I { s with world := w })
    (hp : ∀ (s : Service ω) before (w : World ω), P s → background h before s.world = some w →
      ∀ answers, Ending.Meets (fun _ => True) (fun x w' => Q (.ok x) { s with world := w' })
        (fun e w' => Q (.error e) { s with world := w' }) (p w answers))
    (hE : ∀ s, E .crashed s) : Keeps I P (call h p) Q E := by
  refine .step fun a s hs hP => ?_
  cases hb : background h a.before s.world with
  | none => exact ⟨hs, hE _⟩
  | some w =>
    have hw := hp s a.before w hP hb a.answers
    dsimp only
    generalize p w a.answers = x at hw ⊢
    obtain ⟨w', ⟨x, rest⟩ | ⟨e, rest⟩ | _⟩ := x
    · exact ⟨hI s w' hs, hw.2⟩
    · exact ⟨hI s w' hs, hw.2⟩
    · exact ⟨hI s w' hs, hE _⟩

/-- A look at the engine under its lock. -/
def engine {α : Type} (f : Engine → α) : Handler ω α := do
  match ← call h (Proc.observe fun w : World ω => f w.engine) with
  | .ok x => pure x
  | .error e => exit (some e)

/-- `engine.Apply`, which returns its error beside the outcome. -/
def callApply (c : Candidate) : Handler ω Applied := do
  match ← call h (apply h c) with
  | .ok r => do
      let after ← look (·.world)
      note (.applied c r after)
      pure r
  | .error e => pure ({}, some e)

end Service

/-! ## Publication -/

section Publication

variable {ω δ : Type} (env : Setting δ)

/-- `selectRevision` at this point of the run. -/
def selectRevision (revision : Option Revision) (session : Source.Session) :
    Handler ω (Option String) :=
  Proc.step fun a s =>
    match s.sources.selectRevision env.texts a.cache a.draw a.now revision session with
    | .error e => (s, .ok (some e))
    | .ok sources => ({ s with sources := sources }, .ok none)

def reserve (result : StageResult) : Handler ω (Option String) := do
  let reserved ← look (·.reservation.isSome)
  if reserved then pure (some "runtime publication already has a reservation")
  else do
    let a ← ask
    match a.refusal with
    | some e => pure (some e)
    | none => do
        update fun s => { s with
          reservation := some
            { replace := a.flag, refreshErr := result.refreshErr, attempted := result.attempted
              session := result.session } }
        pure none

def discard : Handler ω Unit := update fun s => { s with reservation := none }

def retain (transaction : Option Id) : Handler ω (Option String) := do
  match ← look (·.reservation) with
  | none => pure (some "runtime publication has no reservation to retain")
  | some r => do
      update fun s => { s with reservation := some { r with transaction := transaction } }
      pure none

/-- The retry barrier after a fallback to the committed snapshot. -/
def recordFallback (r : Reservation) : Handler ω Unit :=
  if r.refreshErr.isSome then do
    let a ← ask
    let b ← ask
    update fun s => { s with
      sources := (s.sources.attempted r.attempted a.draw a.now).schedule b.now }
  else pure ()

/-- The exchange of the metrics listener: `flag` says whether there is a new one, and a refusal is
the failure of retiring the old one. -/
def exchangeListener (r : Reservation) : Handler ω Unit :=
  if r.replace then do
    let a ← ask
    update fun s => { s with
      listening := a.flag
      runtimeHealthy := !s.listening || a.refusal.isNone }
  else pure ()

def publishReservation (revision : Option Revision) (r : Reservation) :
    Handler ω (Option String) := do
  match ← selectRevision env revision r.session with
  | some e => pure (some e)
  | none => do
      recordFallback r
      exchangeListener r
      pure none

def publishRevision (revision : Option Revision) : Handler ω (Option String) := do
  let a ← ask
  match a.refusal with
  | some e => pure (some e)
  | none => do
      match ← look (·.reservation) with
      | none => pure (some "runtime publication has no reservation")
      | some r => do
          discard
          publishReservation env revision r

def recoverPublication (revision : Option Revision) : Handler ω (Option String) := do
  match ← look (·.reservation) with
  | none => selectRevision env revision none
  | some r => do
      discard
      if r.transaction = none ∨ revision.map (·.id) ≠ r.transaction then
        selectRevision env revision none
      else publishReservation env revision r

end Publication

/-! ## The handlers -/

section Handlers

variable {ω δ : Type}

/-- `finish`: the waiter of an epoch gets its result. -/
def finishReload (epoch : Nat) (result : ReloadResult) : Handler ω Unit := do
  match ← look (·.waiter) with
  | none => pure ()
  | some q =>
      if q.epoch ≠ epoch then pure ()
      else do
        note (.replied q.request { result with configSHA256 := q.digest })
        update fun s => { s with waiter := none }

/-- The waiter, whoever it is, gets this result. -/
def finishWaiter (result : ReloadResult) : Handler ω Unit := do
  match ← look (·.waiter) with
  | none => pure ()
  | some q => finishReload q.epoch result

/-- `stopService`, and the end of the loop. The first results are those of its own closers. -/
def stopService {α : Type} (error : Option String) : Handler ω α := do
  finishWaiter (.failure .rejected "shutting_down" "daemon is shutting down")
  update fun s => { s with
    sources := s.sources.close, workers := [], recoveryTimer := false
    reservation := none, listening := false }
  exit error

def scheduleRecovery : Handler ω Unit :=
  update fun s => if s.recovering then s else { s with recovering := true, recoveryTimer := true }

/-- The answer to a request that is not admitted; a signal has none. -/
def reject (request : Option Nat) (code message : String) : Handler ω Unit :=
  match request with
  | none => pure ()
  | some q => note (.replied q (.failure .rejected code message))

variable [DecidableEq ω] [DecidableEq δ] (h : Host ω) (env : Setting δ)

/-- `admitReload`, once the engine has admitted an epoch. -/
def startReload (request : Option Nat) (expected : String) (epoch : Nat) : Handler ω Unit := do
  finishWaiter (.failure .rejected "superseded" "reload superseded before apply")
  note (.admitted request epoch)
  update fun s => { s with
    waiter := request.map fun q => { request := q, epoch := epoch }
    sources := { s.sources with reloadCancel := some ⟨epoch, 0⟩, reloadEpoch := epoch }
    workers :=
      { epoch := epoch, task := .reload expected, committed := s.sources.manifest
        request := request } :: s.workers }

def admitReload (request : Option Nat) (expected : String) : Handler ω Unit := do
  let a ← ask
  if a.flag then reject request "shutting_down" "daemon is shutting down"
  else do
    let b ← ask
    if request.isSome && b.flag then reject request "timeout" "reload canceled before admission"
    else do
      let busy ← look fun s => s.recovering || s.pending
      if busy then reject request "busy" "firewall recovery or publication is pending"
      else do
        match ← call h (admission Engine.admitEpoch) with
        | .error e => reject request "busy" e
        | .ok epoch => startReload request expected epoch

def handleRequest (expected : String) : Handler ω Unit := do
  let q ← look (·.requests)
  update fun s => { s with requests := q + 1 }
  note (.received q)
  admitReload h (some q) expected

/-- A refresh is due: a worker is started for the active revision. -/
def startRefresh (revision : Revision) : Handler ω Unit := do
  match ← call h (admission fun e => e.admitRefresh revision.epoch) with
  | .error _ => do
      let a ← ask
      update fun s => { s with
        sources := { s.sources with timer := some (a.now + Config.second) } }
  | .ok sequence =>
      update fun s => { s with
        sources := { s.sources with
          refreshCancel := some ⟨revision.epoch, sequence⟩, refreshSequence := sequence }
        workers :=
          { epoch := revision.epoch, task := .refresh sequence revision.config s.sources.session
            committed := revision.manifest } :: s.workers }

def handleTick : Handler ω Unit := do
  update fun s => { s with sources := s.sources.stopTimer }
  let s ← look id
  match s.sources.active with
  | none => pure ()
  | some revision =>
      if s.recovering ∨ s.sources.refreshCancel.isSome then pure ()
      else do
        let a ← ask
        let b ← ask
        match s.sources.deadlines.nextRefresh a.now with
        | some next =>
            if next > b.now then do
              let c ← ask
              update fun s => { s with sources := s.sources.schedule c.now }
            else startRefresh h revision
        | none => do
            let c ← ask
            update fun s => { s with sources := s.sources.schedule c.now }

/-- The digest of a reload's result is the waiter's. -/
def noteDigest (job : Job) (digest : String) : Handler ω Unit :=
  update fun s => { s with
    waiter := s.waiter.map fun q =>
      if job.refresh = 0 ∧ q.epoch = job.epoch then { q with digest := digest } else q }

/-- What every result does to the markers before it is looked at. -/
def receive (job : Job) (attempted : List Selector) : Handler ω Unit := do
  update fun s => { s with sources := s.sources.deliverReload job }
  let ends ← look (·.sources.endsRefresh job)
  if ends then do
    let a ← ask
    let b ← ask
    update fun s => { s with sources := s.sources.deliverRefresh attempted a.draw a.now b.now }
  else pure ()

/-- `complete`: only a reload has a waiter. -/
def complete (job : Job) (outcome : ReloadOutcome) (code message : String) : Handler ω Unit :=
  if job.refresh = 0 then finishReload job.epoch (.failure outcome code message) else pure ()

/-- What follows an apply that did not commit. -/
def handleUncommitted (job : Job) (outcome : Outcome) (error : Option String) :
    Handler ω Unit := do
  let message := error.getD "configuration apply produced no committed revision"
  complete job (if outcome.degraded then .unknown else .rejected) "apply_failed" message
  if outcome.degraded ∧ outcome.transaction.isSome then do
    match ← retain outcome.transaction with
    | some _ => discard
    | none => scheduleRecovery
  else do
    discard
    let healthy ← engine h (·.isHealthy)
    if healthy then pure () else scheduleRecovery

/-- The reply to the waiter of a reload that committed and was published. -/
def replyCommitted (job : Job) (outcome : Outcome) (healthy : Bool) : Handler ω Unit :=
  if job.refresh ≠ 0 then pure ()
  else
    let id := outcome.active.map (·.id)
    finishReload job.epoch
      (if healthy then { outcome := .applied, revision := id }
       else { ReloadResult.failure .degraded "committed_degraded"
         "configuration committed but runtime health completion failed" with revision := id })

/-- Whether the service is healthy after a commit: the engine, and the engine once more with the
metrics. -/
def judge (outcome : Outcome) (error : Option String) : Handler ω Bool := do
  let engineHealthy ← engine h (·.isHealthy)
  let metricsEngine ← engine h (·.isHealthy)
  let s ← look id
  let metricsHealthy := metricsEngine && s.runtimeHealthy
  note (.judged engineHealthy metricsHealthy)
  pure (error.isNone && !outcome.degraded && engineHealthy && metricsHealthy && !s.recovering)

/-- What follows an apply that committed. The publication fails with the waiter told so, without a
look at whether the result was a reload's. -/
def handleCommitted (job : Job) (outcome : Outcome) (error : Option String) : Handler ω Unit := do
  match ← publishRevision env outcome.active with
  | some e => do
      finishReload job.epoch
        { ReloadResult.failure .degraded "committed_degraded" e with
          revision := outcome.active.map (·.id) }
      stopService (some e)
  | none => do
      let active ← look (·.sources.active)
      note (.published active)
      let healthy ← judge h outcome error
      replyCommitted job outcome healthy
      let engineHealthy ← engine h (·.isHealthy)
      if outcome.degraded || !engineHealthy then scheduleRecovery else pure ()

/-- A result that is current and has a reservation. -/
def applyResult (job : Job) (c : Candidate) : Handler ω Unit := do
  let a ← ask
  let waiting ← look fun s => job.refresh = 0 && s.waiter.any (·.epoch = job.epoch)
  if waiting && a.flag then do
    complete job .rejected "timeout" "reload canceled before native apply"
    discard
  else do
    let (outcome, error) ← callApply h c
    if outcome.committed then handleCommitted h env job outcome error
    else handleUncommitted h job outcome error

/-- A result that is current and carries a candidate. -/
def handleCurrent (job : Job) (result : StageResult) : Handler ω Unit := do
  let busy ← look fun s => s.recovering || s.pending
  if busy then complete job .rejected "busy" "firewall recovery or publication is pending"
  else do
    match ← reserve result with
    | some e => complete job .rejected "configuration_error" e
    | none => applyResult h env job result.candidate

/-- What `Run` does with a result once its markers are settled. -/
def settle (job : Job) (result : StageResult) : Handler ω Unit := do
  let current ← engine h (·.current result.candidate)
  if !current then complete job .rejected "superseded" "reload superseded before apply"
  else
    match result.err with
    | some .mismatch => complete job .rejected "config_mismatch" Refusal.mismatch.text
    | some (.failed text) => complete job .rejected "configuration_error" text
    | none => handleCurrent h env job result

def handleResult (worker : Worker) (conditions : Conditions) : Handler ω Unit := do
  let result := worker.result env conditions
  update fun s => { s with workers := s.workers.erase worker }
  note (.delivered worker conditions)
  noteDigest worker.job result.digest
  receive worker.job result.attempted
  settle h env worker.job result

def handleRecovery : Handler ω Unit := do
  update fun s => { s with recoveryTimer := false }
  match ← call h (recover h) with
  | .error e => do
      let a ← ask
      if a.flag then stopService (some e)
      else do
        let b ← ask
        if b.flag then pure () else update fun s => { s with recoveryTimer := true }
  | .ok recovered => do
      match ← recoverPublication env recovered with
      | some e => stopService (some e)
      | none => update fun s => { s with recovering := false }

inductive Occurrence where
  | stopping
  | listenerFailed (error : String)
  | request (expected : String)
  | sighup
  | tick
  | metricsFailed (error : String)
  | delivered (worker : Worker) (conditions : Conditions)
  | recovery

/-- Whether the loop can be woken by it. -/
def Occurrence.Ready (s : Service ω) : Occurrence → Prop
  | .tick => s.sources.timer.isSome
  | .metricsFailed _ => s.listening
  | .delivered worker _ => worker ∈ s.workers
  | .recovery => s.recoveryTimer
  | _ => True

def turn : Occurrence → Handler ω Unit
  | .stopping => stopService none
  | .listenerFailed e => stopService (some ("control listener failed: " ++ e))
  | .request expected => handleRequest h expected
  | .sighup => admitReload h none ""
  | .tick => handleTick h
  | .metricsFailed e => do
      update fun s => { s with runtimeHealthy := false }
      stopService (some e)
  | .delivered worker conditions => handleResult h env worker conditions
  | .recovery => handleRecovery h env

/-! ## Startup -/

def recoverUntilReady : Handler ω (Option Revision) :=
  Proc.loop (fun a _ => do
    match ← call h (recover h) with
    | .ok recovered => pure (.inr recovered)
    | .error e => if a.flag then pure (.inl ()) else exit (some e)) ()

def orExit : Option String → Handler ω Unit
  | none => pure ()
  | some e => exit (some e)

/-- A step of the startup that may fail. -/
def startupStep : Handler ω Unit := do
  let a ← ask
  orExit a.refusal

def publishInitial (outcome : Outcome) (error : Option String) : Handler ω Unit :=
  if outcome.degraded then do
    orExit (← retain outcome.transaction)
    let recovered ← recoverUntilReady h
    if recovered = none ∨ recovered.map (·.id) ≠ outcome.transaction then
      exit (some (if outcome.committed then "startup recovery did not retain committed candidate"
        else "startup recovery did not retain candidate"))
    else do
      orExit (← recoverPublication env recovered)
  else if outcome.committed then do
    orExit (← publishRevision env outcome.active)
  else exit (some (error.getD "configuration apply produced no committed revision"))

/-- `Run` up to the first wait: recovery, collection, the selection of the recovered revision, and
the application of the configuration that was loaded. -/
def start (cfg : Config) (session : Source.Session) (conditions : Conditions) :
    Handler ω Unit := do
  let recovered ← recoverUntilReady h
  match ← call h (onDisk (collectRevisions h.content)) with
  | .error e => exit (some ("collect orphan revisions: " ++ e))
  | .ok _ => do
  startupStep
  orExit (← selectRevision env recovered none)
  startupStep
  match ← call h (admission Engine.admitEpoch) with
  | .error e => exit (some e)
  | .ok epoch => do
  startupStep
  let manifest ← look (·.sources.manifest)
  let result := stageSource env conditions ⟨epoch, 0⟩ cfg manifest session
  orExit (result.err.map Refusal.text)
  orExit (← reserve result)
  startupStep
  let (outcome, error) ← callApply h result.candidate
  publishInitial h env outcome error
  startupStep

/-! ## Runs -/

/-- A process that has just been started, after any history of its store. -/
def Booted (w : World ω) : Prop := ∃ events, Reaches h {} (.restarted :: events) w

/-- **The states at the wait point**, in runs whose turns all meet a condition. -/
inductive Waits (ok : Service ω → Occurrence → Prop) : Service ω → Prop
  | start {w : World ω} {cfg : Config} {session : Source.Session} {conditions : Conditions}
      {s : Service ω} {answers rest : List (Answer ω)} :
      Booted h w → start h env cfg session conditions { world := w } answers = (s, .done () rest) →
      Waits ok s
  | turn {s s' : Service ω} {o : Occurrence} {answers rest : List (Answer ω)} :
      Waits ok s → o.Ready s → ok s o → turn h env o s answers = (s', .done () rest) → Waits ok s'

variable {h env}

theorem Waits.started {ok : Service ω → Occurrence → Prop} {w : World ω} {cfg : Config}
    {ses : Source.Session} {conds : Conditions} {ans : List (Answer ω)} (hw : Booted h w)
    (hru : (App.start h env cfg ses conds { world := w } ans).2.returned = true) :
    Waits h env ok (App.start h env cfg ses conds { world := w } ans).1 := by
  obtain ⟨rest, hd⟩ := Proc.eq_done hru
  exact .start hw hd

theorem Waits.turned {ok : Service ω → Occurrence → Prop} {s : Service ω} {o : Occurrence}
    {ans : List (Answer ω)} (hs : Waits h env ok s) (hre : o.Ready s) (hok : ok s o)
    (hru : (App.turn h env o s ans).2.returned = true) :
    Waits h env ok (App.turn h env o s ans).1 := by
  obtain ⟨rest, hd⟩ := Proc.eq_done hru
  exact .turn hs hre hok hd

variable (h env)

/-- The service has stopped. -/
inductive Stopped : Service ω → Prop
  | turn {s s' : Service ω} {o : Occurrence} {e : Option String} {answers rest : List (Answer ω)} :
      Waits h env (fun _ _ => True) s → o.Ready s →
      turn h env o s answers = (s', .failed (.exited e) rest) → Stopped s'

end Handlers

end Perimeterd.App
