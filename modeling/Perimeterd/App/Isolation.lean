import Perimeterd.App.Epochs
import Perimeterd.App.Refreshes

/-!
# Refreshes of different epochs

The engine counts refreshes anew in every epoch, and the loop matches a result to the refresh in
flight by that count alone. A result left over from an earlier epoch can therefore be taken for the
one that is awaited. As long as no undelivered result carries the number a refresh is admitted under,
results stay apart.
-/

namespace Perimeterd.App

open Lib Firewall State List
open Lib.Proc (Through Within)
open Policy (Time Selector)

variable {ω δ : Type}

/-! ## Bookkeeping -/

/-- What a result finds of the refresh in flight, and what of it the result may not touch. -/
structure Bookkeeping where
  inFlight : Option Job
  sequence : Nat
  retries : List (Selector × Option Time)
deriving DecidableEq

def SourceRuntime.bookkeeping (s : SourceRuntime) : Bookkeeping :=
  ⟨s.refreshCancel, s.refreshSequence, s.deadlines.retries⟩

theorem deliverReload_bookkeeping (s : SourceRuntime) (job : Job) :
    (s.deliverReload job).bookkeeping = s.bookkeeping := by
  rw [SourceRuntime.deliverReload]
  split <;> rfl

section Turns

variable {h : Host ω} {env : Setting δ}

/-- Nothing undelivered carries the number of the refresh in flight but that refresh itself. -/
def Alone (x : Schedule) : Prop :=
  ∀ j, x.sources.refreshCancel = some j → ∀ worker ∈ x.workers, worker.job.refresh = j.refresh →
    worker.job = j

theorem steady_alone : Steady fun s : Service ω => Alone s.schedule := steady_schedule fun _ h => h

theorem alone_of_silent {α : Type} {p : Handler ω α} (hp : Through Silent p) :
    Returns (fun s => Alone s.schedule) p (fun _ s => Alone s.schedule) := by
  refine Returns.of_within hp.within fun s s' hc hs j hj wk hmem hse => ?_
  have hj : s'.sources.refreshCancel = some j := hj
  have hmem : wk ∈ s'.workers := hmem
  rw [hc.workers] at hmem
  rcases hc.marker with heq | hno
  · exact hs j (heq.symm.trans hj) wk hmem hse
  · cases hno.symm.trans hj

theorem steady_apart : Steady fun s : Service ω => Marked s.schedule ∧ Alone s.schedule :=
  steady_schedule (R := fun x => Marked x ∧ Alone x) fun _ h => h

theorem returns_startReload_alone (rq : Option Nat) (exp : String) (ep : Nat) :
    Returns (fun s : Service ω => Marked s.schedule ∧ Alone s.schedule)
      (startReload rq exp ep) (fun _ s => Marked s.schedule ∧ Alone s.schedule) := by
  refine .bind (steady_apart.of_calm (calm_finishWaiter _)) fun _ => ?_
  refine .bind (steady_apart.of_calm (calm_note _)) fun _ => ?_
  refine .change fun s _ hs => ⟨trivial, fun j hj => ?_, fun j hj wk hmem hse => ?_⟩
  · obtain ⟨hse, hz, wk, hmem, hjo⟩ := hs.1 j hj
    exact ⟨hse, hz, wk, mem_cons_of_mem _ hmem, hjo⟩
  · rcases mem_cons.mp hmem with rfl | hmem
    · -- a reload has the number zero, and no refresh has
      obtain ⟨-, hz, -⟩ := hs.1 j hj
      exact absurd hse.symm hz
    · exact hs.2 j hj wk hmem hse

variable [DecidableEq ω]

/-! ## Results of other refreshes -/

theorem alone_handleResult [DecidableEq δ] (wk : Worker) (conds : Conditions) :
    Returns (fun s => Alone s.schedule) (handleResult h env wk conds)
      (fun _ s => Alone s.schedule) := by
  refine .bind (R := fun _ s => Alone s.schedule) (.change fun s _ hs => ⟨trivial,
    fun j hj other hmem hse => hs j hj other (mem_of_mem_erase hmem) hse⟩) fun _ => ?_
  refine .bind (steady_alone.of_calm (calm_note _)) fun _ => ?_
  refine .bind (steady_alone.of_calm (calm_update fun _ => ⟨rfl, rfl⟩)) fun _ => ?_
  refine .bind (alone_of_silent (silent_receive _ _)) fun _ => ?_
  exact steady_alone.settle_plain fun revision =>
    (alone_of_silent (silent_publishRevision revision)).returns fun _ _ _ hs _ => hs

theorem alone_start [DecidableEq δ] (cfg : Config) (ses : Source.Session) (conds : Conditions) :
    Returns (fun s => Alone s.schedule) (start h env cfg ses conds)
      (fun _ s => Alone s.schedule) := by
  have hke {p : Handler ω (Option String)} (hp : Through Silent p) :
      Returns (fun s => Alone s.schedule) p (fun e s => e = none → Alone s.schedule) :=
    (alone_of_silent hp).returns fun _ _ _ hs _ => hs
  exact steady_alone.start steady_alone (fun revision => hke (silent_selectRevision revision none))
    (fun revision => hke (silent_recoverPublication revision))
    fun revision => hke (silent_publishRevision revision)

/-- The number the next refresh of the active epoch gets is not that of an undelivered result of
another epoch. -/
def Free (s : Service ω) : Prop :=
  ∀ worker ∈ s.workers, worker.job.refresh = s.world.engine.refreshSequence + 1 →
    worker.epoch = s.world.engine.activeEpoch

/-- The condition on a run: no refresh is admitted under a number that an undelivered result of
another epoch carries. -/
def Unshared (s : Service ω) : Occurrence → Prop
  | .tick => Free s
  | _ => True

/-- The state of a tick that may start a refresh. -/
def Startable (s : Service ω) : Prop := Alone s.schedule ∧ Free s

theorem returns_startRefresh_alone (rev : Revision) :
    Returns Startable (startRefresh h rev) (fun _ s => Alone s.schedule) := by
  refine .bind (R := fun r s => Alone s.schedule ∧ ∀ n, r = .ok n → ∀ wk ∈ s.workers,
      wk.job.refresh = n → wk.epoch = rev.epoch)
    (keeps_callAdmission (fun _ _ hs => hs)
      (fun s before w e n hs hb had => ⟨hs.1, fun m hm wk hmem hse => ?_⟩)
      (fun _ _ _ _ hs _ => ⟨hs.1, nofun⟩) fun _ => trivial) fun r => ?_
  · cases hm
    obtain ⟨-, hep, hsequ⟩ : s.world.engine.Like w.engine := alike_background hb
    obtain ⟨-, -, hac, rfl, -⟩ := admitRefresh_eq_ok had
    rw [hac, hep]
    exact hs.2 wk hmem (hse.trans (congrArg (· + 1) hsequ))
  cases r with
  | error e =>
    refine .bind (R := fun _ s => Alone s.schedule)
      (.step fun _ _ _ hs => ⟨trivial, hs.1⟩) fun a => ?_
    exact .change fun s _ hs => ⟨trivial, hs⟩
  | ok n =>
    refine .change fun s _ hs => ⟨trivial, fun j hj wk hmem hse => ?_⟩
    cases hj
    rcases mem_cons.mp hmem with rfl | hmem
    · rfl
    · have hep := wk.job_epoch.trans (hs.2 n rfl wk hmem hse)
      exact congrArg₂ Job.mk hep hse

theorem returns_handleTick_alone :
    Returns Startable (handleTick h) (fun _ s => Alone s.schedule) := by
  have hask : ∀ {P : Service ω → Prop}, Returns P ask (fun _ => P) :=
    Keeps.step fun _ _ _ hs => ⟨trivial, hs⟩
  refine .bind (R := fun _ => Startable) (.change fun s _ hs => ⟨trivial, hs⟩) fun _ => ?_
  refine .bind .look fun s₀ => ?_
  split
  · exact .pure fun _ _ hs => hs.1
  split
  · exact .pure fun _ _ hs => hs.1
  refine .bind hask fun a => Keeps.bind hask fun b => ?_
  have hag : Returns (Startable (ω := ω)) (do
      let c ← ask
      update fun s => { s with sources := s.sources.schedule c.now })
      (fun _ s => Alone s.schedule) :=
    Keeps.bind hask fun c => Keeps.change fun s _ hs => ⟨trivial, hs.1⟩
  split
  · split
    · exact hag
    · exact returns_startRefresh_alone _
  · exact hag

variable [DecidableEq δ]

theorem returns_turn_alone (o : Occurrence) :
    Returns (fun s => Marked s.schedule ∧ Alone s.schedule ∧ Unshared s o) (turn h env o)
      (fun _ s => Alone s.schedule) := by
  have hap {p : Handler ω Unit} (hp : Returns (fun s => Marked s.schedule ∧ Alone s.schedule) p
      (fun _ s => Marked s.schedule ∧ Alone s.schedule)) :
      Returns (fun s => Marked s.schedule ∧ Alone s.schedule ∧ Unshared s o) p
        (fun _ s => Alone s.schedule) :=
    hp.conseq (fun _ _ hs => ⟨hs.1, hs.2.1⟩) (fun _ _ _ hs => hs.2) fun _ _ _ _ => trivial
  cases o with
  | stopping => exact returns_stopService _
  | listenerFailed e => exact returns_stopService _
  | request exp =>
    exact hap (steady_apart.handleRequest fun request => returns_startReload_alone request exp)
  | sighup => exact hap (steady_apart.admitReload (returns_startReload_alone none ""))
  | tick => exact returns_handleTick_alone.pre fun _ _ hs => ⟨hs.2.1, hs.2.2⟩
  | metricsFailed e => exact .bind Returns.trivial fun _ => returns_stopService _
  | delivered wk conds =>
    exact (alone_handleResult wk conds).pre fun _ _ hs => hs.2.1
  | recovery =>
    refine (steady_alone.handleRecovery fun revision => ?_).pre fun _ _ hs => hs.2.1
    exact (alone_of_silent (silent_recoverPublication revision)).returns fun _ _ _ hs _ => hs

theorem Waits.alone {s : Service ω} (hs : Waits h env Unshared s) : Alone s.schedule := by
  induction hs with
  | start _ hru =>
    exact (alone_start _ _ _).elim (fun j hj => by cases hj) hru
  | turn hw _ hok hru ih =>
    exact (returns_turn_alone _).elim ⟨hw.living.marked, ih, hok⟩ hru

/-- **Results of other refreshes leave the refresh in flight alone.** In a run in which no refresh is
admitted under a number that an undelivered result of another epoch carries, a result that is not
that of the refresh in flight changes neither the marker nor the sequence nor any retry deadline,
unless the result's own candidate is committed and selected. -/
theorem other_results_pass {s s' : Service ω} {worker : Worker} {conditions : Conditions}
    {answers rest : List (Answer ω)} (hs : Waits h env Unshared s)
    (hother : s.sources.refreshCancel ≠ some worker.job)
    (hrun : turn h env (.delivered worker conditions) s answers = (s', .done () rest))
    (hmem : worker ∈ s.workers) (huncommitted : ¬ CommittedSince s.log s') :
    s'.sources.bookkeeping = s.sources.bookkeeping := by
  have hen : (s.sources.deliverReload worker.job).endsRefresh worker.job = false := by
    have hbo := deliverReload_bookkeeping s.sources worker.job
    have hma : (s.sources.deliverReload worker.job).refreshCancel = s.sources.refreshCancel :=
      congrArg Bookkeeping.inFlight hbo
    have hse : (s.sources.deliverReload worker.job).refreshSequence = s.sources.refreshSequence :=
      congrArg Bookkeeping.sequence hbo
    rw [SourceRuntime.endsRefresh, hma, hse]
    cases hc : s.sources.refreshCancel with
    | none => simp
    | some j =>
      -- a result of the same number would be the refresh in flight
      have hne : worker.job.refresh ≠ s.sources.refreshSequence := by
        intro heq
        obtain ⟨hsa, -, -⟩ := hs.living.marked j hc
        have hsa : s.sources.refreshSequence = j.refresh := hsa
        exact hother (hc.trans (congrArg some (hs.alone j hc worker hmem (heq.trans hsa)).symm))
      simp [hne]
  change handleResult h env worker conditions s answers = _ at hrun
  rw [handleResult_passes conditions hen] at hrun
  have hre := (rested_settle (s.sources.deliverReload worker.job) s.log worker.job
    (worker.result env conditions)).elim (by exact ⟨Nat.le_refl _, Or.inl rfl⟩) hrun
  rw [hre.sources.resolve_right huncommitted, deliverReload_bookkeeping]

end Turns

/-! ### Two refreshes of one number -/

/-- While the sample service's first refresh is under way a reload is asked for. -/
def serviceReloading : Service Nat :=
  (turn serviceHost serviceSetting .sighup serviceTicked [{}, {}, {}]).1

def reloadWorker : Worker := { epoch := 2, task := .reload "", committed := some 10 }

theorem other_results_pass_sample :
    serviceReloading.sources.refreshCancel = some refreshWorker.job ∧
      (turn serviceHost serviceSetting
        (.delivered reloadWorker { serviceConditions 120 with read := .error "unreadable" })
        serviceReloading [{}]).1.sources.bookkeeping = serviceReloading.sources.bookkeeping := by
  obtain ⟨rest, hru⟩ := Proc.eq_done (p := turn serviceHost serviceSetting
    (.delivered reloadWorker { serviceConditions 120 with read := .error "unreadable" }))
    (s := serviceReloading) (w := [{}]) (by decide +kernel)
  have hf : Unshared serviceStarted .tick :=
    show ∀ wk ∈ serviceStarted.workers, _ by decide +kernel
  have hw : Waits serviceHost serviceSetting Unshared serviceReloading :=
    (waits_serviceTicked hf).turned (by trivial) trivial (by decide +kernel)
  refine ⟨by decide +kernel, other_results_pass hw (by decide +kernel) hru (by decide +kernel) ?_⟩
  rw [CommittedSince]
  decide +kernel

/-- The reload commits: its epoch is the active one, and refreshes are counted anew. -/
def serviceReloaded : Service Nat :=
  (turn serviceHost serviceSetting (.delivered reloadWorker (serviceConditions 120)) serviceReloading
    [{}, {}, {}, { before := [(.stage 120, List.replicate 5 .ok)], answers := applyAnswers 8 26 [7] 60 },
      {}, { cache := serviceCache, now := 120 }, {}, {}, {}]).1

/-- The first refresh of the new epoch is started; that of the old one has not been delivered. -/
def serviceTickedAgain : Service Nat :=
  (turn serviceHost serviceSetting .tick serviceReloaded [{ now := 220 }, { now := 220 }, {}]).1

def serviceConfused : Service Nat :=
  (turn serviceHost serviceSetting (.delivered refreshWorker (serviceConditions 130))
    serviceTickedAgain [{ now := 221 }, { now := 221 }, {}]).1

theorem waits_serviceReloaded {ok : Service Nat → Occurrence → Prop}
    (hti : ok serviceStarted .tick) (hsi : ok serviceTicked .sighup)
    (hres : ok serviceReloading (.delivered reloadWorker (serviceConditions 120))) :
    Waits serviceHost serviceSetting ok serviceReloaded := by
  have hre : Waits serviceHost serviceSetting ok serviceReloading :=
    (waits_serviceTicked hti).turned (by trivial) hsi (by decide +kernel)
  exact hre.turned (show reloadWorker ∈ serviceReloading.workers by decide +kernel) hres
    (by decide +kernel)

theorem old_result_ends_refresh :
    Waits serviceHost serviceSetting (fun _ _ => True) serviceTickedAgain ∧
      refreshWorker ∈ serviceTickedAgain.workers ∧
      refreshWorker.job = ⟨1, 1⟩ ∧ serviceTickedAgain.sources.refreshCancel = some ⟨2, 1⟩ ∧
      (∃ rest, turn serviceHost serviceSetting (.delivered refreshWorker (serviceConditions 130))
        serviceTickedAgain [{ now := 221 }, { now := 221 }, {}] = (serviceConfused, .done () rest)) ∧
      ¬ CommittedSince serviceTickedAgain.log serviceConfused ∧
      serviceConfused.sources.refreshCancel = none ∧
      serviceTickedAgain.sources.deadlines.retries = [(⟨.asn, "AS64500"⟩, none)] ∧
      serviceConfused.sources.deadlines.retries = [(⟨.asn, "AS64500"⟩, some 321)] := by
  have hti : Waits serviceHost serviceSetting (fun _ _ => True) serviceTickedAgain :=
    (waits_serviceReloaded trivial trivial trivial).turned
      (show serviceReloaded.sources.timer.isSome = true by decide +kernel) trivial
      (by decide +kernel)
  refine ⟨hti, by decide +kernel, by decide +kernel, by decide +kernel,
    Proc.eq_done (by decide +kernel), ?_, by decide +kernel, by decide +kernel, by decide +kernel⟩
  rw [CommittedSince]
  decide +kernel

end Perimeterd.App
