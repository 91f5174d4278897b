import Perimeterd.App.Service

/-!
# What handlers leave alone

Most steps of a handler are plumbing: they call the engine or move a reservation, and touch neither
the sources nor the workers nor the waiter. Some only select a revision, others only answer a request.
`Local`, `Plumbing`, `Silent` and `Calm` are the relations; whatever depends on nothing else passes
through such steps by one rule each.
-/

namespace Perimeterd.App

open Lib Firewall State
open Lib.Proc (Through Within)
open Policy (Selector)

variable {ω δ : Type}

/-! ## Local steps -/

/-- Only the reservation and the listener may have changed. -/
structure Local (s s' : Service ω) : Prop where
  world : s'.world = s.world
  sources : s'.sources = s.sources
  waiter : s'.waiter = s.waiter
  recovering : s'.recovering = s.recovering
  recoveryTimer : s'.recoveryTimer = s.recoveryTimer
  workers : s'.workers = s.workers
  requests : s'.requests = s.requests
  log : s'.log = s.log

instance : IsPreorder (Service ω) Local where
  refl _ := ⟨rfl, rfl, rfl, rfl, rfl, rfl, rfl, rfl⟩
  trans _ _ _ h h' :=
    ⟨h'.world.trans h.world, h'.sources.trans h.sources, h'.waiter.trans h.waiter,
      h'.recovering.trans h.recovering, h'.recoveryTimer.trans h.recoveryTimer,
      h'.workers.trans h.workers, h'.requests.trans h.requests, h'.log.trans h.log⟩

variable {α : Type} {env : Setting δ} {s : Service ω} {p : Handler ω α} {P : Service ω → Prop}

theorem local_ask : Through Local (ask (ω := ω)) := .step fun _ s => ⟨refl_of Local s, rfl⟩

theorem local_discard : Through Local (discard (ω := ω)) :=
  .change fun _ => ⟨rfl, rfl, rfl, rfl, rfl, rfl, rfl, rfl⟩

theorem local_reserve (result : StageResult) : Through (Local (ω := ω)) (reserve result) := by
  refine .bind (.observe _) fun reserved => ?_
  split
  · exact .pure _
  · refine .bind local_ask fun a => ?_
    split
    · exact .pure _
    · exact .bind (.change fun _ => ⟨rfl, rfl, rfl, rfl, rfl, rfl, rfl, rfl⟩) fun _ => .pure _

theorem local_retain (tr : Option Id) : Through (Local (ω := ω)) (retain tr) := by
  refine .bind (.observe _) fun r => ?_
  cases r with
  | none => exact .pure _
  | some r =>
    exact .bind (.change fun _ => ⟨rfl, rfl, rfl, rfl, rfl, rfl, rfl, rfl⟩) fun _ => .pure _

theorem local_exchangeListener (r : Reservation) :
    Through (Local (ω := ω)) (exchangeListener r) := by
  rw [exchangeListener]
  split
  · exact .bind local_ask fun _ => .change fun _ => ⟨rfl, rfl, rfl, rfl, rfl, rfl, rfl, rfl⟩
  · exact .pure _

/-! ## Plumbing -/

def Entry.quiet : Entry ω → Bool
  | .replied _ _ => false
  | _ => true

/-- The engine's world may have changed as well, and the history has gone on. -/
structure Plumbing (s s' : Service ω) : Prop where
  sources : s'.sources = s.sources
  waiter : s'.waiter = s.waiter
  recovering : s'.recovering = s.recovering
  recoveryTimer : s'.recoveryTimer = s.recoveryTimer
  workers : s'.workers = s.workers
  requests : s'.requests = s.requests
  log : ∃ new, s'.log = new ++ s.log ∧ new.all Entry.quiet = true

theorem Plumbing.of_log {s' : Service ω} (hl : s'.log = s.log)
    (h : s'.sources = s.sources ∧ s'.waiter = s.waiter ∧ s'.recovering = s.recovering ∧
      s'.recoveryTimer = s.recoveryTimer ∧ s'.workers = s.workers ∧ s'.requests = s.requests) :
    Plumbing s s' :=
  ⟨h.1, h.2.1, h.2.2.1, h.2.2.2.1, h.2.2.2.2.1, h.2.2.2.2.2, [], hl, rfl⟩

instance : IsPreorder (Service ω) Plumbing where
  refl _ := .of_log rfl ⟨rfl, rfl, rfl, rfl, rfl, rfl⟩
  trans a b c h h' := by
    obtain ⟨new, hnew, hq⟩ := h.log
    obtain ⟨new', hnew', hq'⟩ := h'.log
    refine ⟨h'.sources.trans h.sources, h'.waiter.trans h.waiter,
      h'.recovering.trans h.recovering, h'.recoveryTimer.trans h.recoveryTimer,
      h'.workers.trans h.workers, h'.requests.trans h.requests, new' ++ new, ?_, ?_⟩
    · rw [hnew', hnew, List.append_assoc]
    · rw [List.all_append, hq, hq', Bool.and_self]

theorem plumbing_of_local (hp : Through Local p) : Within Plumbing p := by
  intro s w
  have h := (hp s w).1
  exact .of_log h.log ⟨h.sources, h.waiter, h.recovering, h.recoveryTimer, h.workers, h.requests⟩

theorem plumbing_note {e : Entry ω} (he : e.quiet = true) : Within Plumbing (note e) :=
  .change fun _ => ⟨rfl, rfl, rfl, rfl, rfl, rfl, [e], rfl, by simp [he]⟩

section Engine

variable [DecidableEq ω] {h : Host ω}

theorem plumbing_call {α : Type} (p : Action ω α) : Within Plumbing (call h p) := by
  refine .step fun a s => ?_
  split
  · exact refl_of Plumbing s
  · split <;> exact .of_log rfl ⟨rfl, rfl, rfl, rfl, rfl, rfl⟩

theorem plumbing_engine {α : Type} (f : Engine → α) : Within Plumbing (engine h f) := by
  refine .bind (plumbing_call _) fun r => ?_
  cases r with
  | ok x => exact .pure _
  | error e => exact .throw _

theorem plumbing_callApply (c : Candidate) : Within Plumbing (callApply h c) := by
  refine .bind (plumbing_call _) fun r => ?_
  cases r with
  | ok x => exact .bind (.observe _) fun _ => .bind (plumbing_note rfl) fun _ => .pure _
  | error e => exact .pure _

theorem plumbing_judge (out : Outcome) (error : Option String) :
    Within Plumbing (judge h out error) :=
  .bind (plumbing_engine _) fun _ => .bind (plumbing_engine _) fun _ => .bind (.observe _) fun _ =>
    .bind (plumbing_note rfl) fun _ => .pure _

theorem plumbing_recoverUntilReady : Within Plumbing (recoverUntilReady h) := by
  refine .loop (fun a _ => .bind (plumbing_call _) fun r => ?_) ()
  cases r with
  | ok x => exact .pure _
  | error e =>
    dsimp only
    split
    · exact .pure _
    · exact .throw _

end Engine

theorem plumbing_orExit (e : Option String) : Within (Plumbing (ω := ω)) (orExit e) := by
  cases e with
  | none => exact .pure _
  | some e => exact .throw _

theorem plumbing_startupStep : Within (Plumbing (ω := ω)) startupStep :=
  .bind (plumbing_of_local local_ask) fun _ => plumbing_orExit _

/-! ## Silence -/

/-- The marker of the refresh in flight may have been cleared, but is no other. -/
def Unmarks (s s' : SourceRuntime) : Prop :=
  s'.refreshCancel = s.refreshCancel ∨ s'.refreshCancel = none

theorem Unmarks.trans {a b c : SourceRuntime} (h : Unmarks a b) (h' : Unmarks b c) : Unmarks a c := by
  rcases h' with h' | h'
  · exact h.imp h'.trans h'.trans
  · exact .inr h'

/-- Nobody is answered, nothing is started and the engine is not asked: the sources may have changed,
and whether a recovery is due. -/
structure Silent (s s' : Service ω) : Prop where
  world : s'.world = s.world
  waiter : s'.waiter = s.waiter
  workers : s'.workers = s.workers
  requests : s'.requests = s.requests
  log : s'.log = s.log
  marker : Unmarks s.sources s'.sources

theorem Silent.of_sources {x : SourceRuntime} (h : Unmarks s.sources x) :
    Silent s { s with sources := x } :=
  ⟨rfl, rfl, rfl, rfl, rfl, h⟩

instance : IsPreorder (Service ω) Silent where
  refl _ := ⟨rfl, rfl, rfl, rfl, rfl, Or.inl rfl⟩
  trans _ _ _ h h' :=
    ⟨h'.world.trans h.world, h'.waiter.trans h.waiter, h'.workers.trans h.workers,
      h'.requests.trans h.requests, h'.log.trans h.log, h.marker.trans h'.marker⟩

theorem silent_of_local (hp : Through Local p) : Through Silent p :=
  hp.mono fun _ _ h => ⟨h.world, h.waiter, h.workers, h.requests, h.log,
    Or.inl (congrArg SourceRuntime.refreshCancel h.sources)⟩

theorem endRefresh_unmarks (s : SourceRuntime) (rev : Option Revision) :
    s.endRefresh rev = s ∨ (s.endRefresh rev).refreshCancel = none := by
  rw [SourceRuntime.endRefresh]
  split
  · split
    · exact .inr rfl
    · exact .inl rfl
  · exact .inl rfl

theorem selectRevision_unmarks {tx : Source.Texts} {cache : Source.Cache}
    {draw : Selector → Config.Duration} {now : Policy.Time} {s s' : SourceRuntime}
    {rev : Option Revision} {ses : Source.Session}
    (h : s.selectRevision tx cache draw now rev ses = .ok s') : Unmarks s s' := by
  obtain ⟨records, -, h⟩ := bind_eq_ok.mp h
  obtain ⟨dls, -, h⟩ := bind_eq_ok.mp h
  rw [← pure_eq_ok.mp h]
  change (s.endRefresh rev).refreshCancel = s.refreshCancel ∨
    (s.endRefresh rev).refreshCancel = none
  exact (endRefresh_unmarks s rev).imp (congrArg SourceRuntime.refreshCancel) id

theorem silent_selectRevision (rev : Option Revision) (ses : Source.Session) :
    Through (Silent (ω := ω)) (selectRevision env rev ses) := by
  refine .step fun a s => ?_
  split
  · exact ⟨refl_of Silent s, rfl⟩
  · rename_i sources hse
    exact ⟨.of_sources (selectRevision_unmarks hse), rfl⟩

theorem silent_recordFallback (r : Reservation) : Through (Silent (ω := ω)) (recordFallback r) := by
  rw [recordFallback]
  split
  · exact .bind (silent_of_local local_ask) fun _ =>
      .bind (silent_of_local local_ask) fun _ => .change fun _ => .of_sources (Or.inl rfl)
  · exact .pure _

theorem silent_publishReservation (rev : Option Revision)
    (r : Reservation) : Through (Silent (ω := ω)) (publishReservation env rev r) := by
  refine .bind (silent_selectRevision rev r.session) fun e => ?_
  cases e with
  | some e => exact .pure _
  | none =>
    exact .bind (silent_recordFallback r) fun _ =>
      .bind (silent_of_local (local_exchangeListener r)) fun _ => .pure _

theorem silent_publishRevision (rev : Option Revision) :
    Through (Silent (ω := ω)) (publishRevision env rev) := by
  refine .bind (silent_of_local local_ask) fun a => ?_
  split
  · exact .pure _
  refine .bind (.observe _) fun r => ?_
  cases r with
  | none => exact .pure _
  | some r =>
    exact .bind (silent_of_local local_discard) fun _ => silent_publishReservation rev r

theorem silent_recoverPublication (rev : Option Revision) :
    Through (Silent (ω := ω)) (recoverPublication env rev) := by
  refine .bind (.observe _) fun r => ?_
  cases r with
  | none => exact silent_selectRevision rev none
  | some r =>
    refine .bind (silent_of_local local_discard) fun _ => ?_
    split
    · exact silent_selectRevision rev none
    · exact silent_publishReservation rev r

theorem silent_scheduleRecovery : Through (Silent (ω := ω)) scheduleRecovery := by
  refine .change fun s => ?_
  split
  · exact refl_of Silent s
  · exact ⟨rfl, rfl, rfl, rfl, rfl, Or.inl rfl⟩

theorem silent_receive (job : Job) (tried : List Selector) :
    Through (Silent (ω := ω)) (receive job tried) := by
  refine .bind (.change fun s => .of_sources (Or.inl ?_)) fun _ => .bind (.observe _) fun e => ?_
  · rw [SourceRuntime.deliverReload]
    split <;> rfl
  split
  · exact .bind (silent_of_local local_ask) fun _ =>
      .bind (silent_of_local local_ask) fun _ => .change fun _ => .of_sources (Or.inr rfl)
  · exact .pure _

/-! ## Answers -/

/-- The part of the state the scheduler is concerned with. -/
structure Schedule where
  sources : SourceRuntime
  workers : List Worker
  recovering : Bool

def Service.schedule (s : Service ω) : Schedule := ⟨s.sources, s.workers, s.recovering⟩

/-- The scheduler's part is as it was, and the history goes on. -/
structure Calm (s s' : Service ω) : Prop where
  schedule : s'.schedule = s.schedule
  log : s.log <:+ s'.log

instance : IsPreorder (Service ω) Calm where
  refl _ := ⟨rfl, List.suffix_refl _⟩
  trans _ _ _ h h' := ⟨h'.schedule.trans h.schedule, h.log.trans h'.log⟩

theorem Plumbing.calm {s' : Service ω} (h : Plumbing s s') : Calm s s' := by
  obtain ⟨new, hnew, -⟩ := h.log
  refine ⟨?_, new, hnew.symm⟩
  rw [Service.schedule, h.sources, h.workers, h.recovering]
  rfl

theorem calm_of_plumbing (hp : Within Plumbing p) : Within Calm p := fun s w => (hp s w).calm

theorem calm_note (e : Entry ω) : Within Calm (note e) :=
  .change fun _ => ⟨rfl, List.suffix_cons _ _⟩

theorem calm_finishReload (ep : Nat) (result : ReloadResult) :
    Within (Calm (ω := ω)) (finishReload ep result) := by
  refine .bind (.observe _) fun q => ?_
  cases q with
  | none => exact .pure ()
  | some q =>
    dsimp only
    split
    · exact .pure ()
    · exact .bind (calm_note _) fun _ => .change fun _ => ⟨rfl, List.suffix_refl _⟩

theorem calm_complete (job : Job) (out : ReloadOutcome) (code msg : String) :
    Within (Calm (ω := ω)) (complete job out code msg) := by
  rw [complete]
  split
  · exact calm_finishReload _ _
  · exact .pure ()

theorem calm_finishWaiter (result : ReloadResult) :
    Within (Calm (ω := ω)) (finishWaiter result) := by
  refine .bind (.observe _) fun q => ?_
  cases q with
  | none => exact .pure ()
  | some q => exact calm_finishReload _ _

theorem calm_reject (rq : Option Nat) (code msg : String) :
    Within (Calm (ω := ω)) (reject rq code msg) := by
  cases rq with
  | none => exact .pure ()
  | some q => exact calm_note _

theorem calm_replyCommitted (job : Job) (out : Outcome) (healthy : Bool) :
    Within (Calm (ω := ω)) (replyCommitted job out healthy) := by
  rw [replyCommitted]
  split
  · exact .pure _
  · exact calm_finishReload _ _

theorem calm_update {f : Service ω → Service ω}
    (hf : ∀ s, (f s).schedule = s.schedule ∧ (f s).log = s.log) : Within Calm (update f) :=
  .change fun s => ⟨(hf s).1, (hf s).2 ▸ List.suffix_refl _⟩

/-! ## Conditions that handlers keep

What handlers do to the schedule they do in few places: a revision is selected, a worker is started,
a result is received. A condition on the schedule and the history is followed through the rest of the
loop once and for all; whoever proves one has to look at those places only. -/

theorem returns_exit {Q : α → Service ω → Prop} (e : Option String) : Returns P (exit e) Q :=
  Keeps.throw fun _ _ _ => trivial

theorem returns_stopService {Q : α → Service ω → Prop}
    (e : Option String) : Returns P (stopService e) Q :=
  Keeps.bind Returns.trivial fun _ => Keeps.bind Returns.trivial fun _ => returns_exit e

theorem returns_orExit (e : Option String) :
    Returns (fun s => e = none → P s) (orExit e) (fun _ => P) := by
  cases e with
  | none => exact .pure fun _ _ h => h rfl
  | some e => exact returns_exit _

/-- A condition that calm steps keep, and that does not mind a recovery being due. -/
structure Steady (I : Service ω → Prop) : Prop where
  calm : ∀ s s', Calm s s' → I s → I s'
  due : ∀ s, I s → I { s with recovering := true, recoveryTimer := true }

namespace Steady

variable {I J : Service ω → Prop} (hI : Steady I) {α : Type} {p : Handler ω α}
include hI

theorem of_calm (hp : Within Calm p) : Returns I p (fun _ => I) := Returns.of_within hp hI.calm

theorem of_plumbing (hp : Within Plumbing p) : Returns I p (fun _ => I) :=
  hI.of_calm (calm_of_plumbing hp)

theorem of_local (hp : Through Local p) : Returns I p (fun _ => I) :=
  hI.of_plumbing (plumbing_of_local hp)

theorem scheduleRecovery : Returns I scheduleRecovery (fun _ => I) := by
  refine .change fun s _ hs => ⟨trivial, ?_⟩
  split
  · exact hs
  · exact hI.due s hs

section Handlers

variable [DecidableEq ω] {h : Host ω} {env : Setting δ} {job : Job}

theorem handleUncommitted (job : Job) (out : Outcome) (error : Option String) :
    Returns I (handleUncommitted h job out error) (fun _ => I) := by
  refine .bind (hI.of_calm (calm_complete _ _ _ _)) fun _ => ?_
  split
  · refine .bind (hI.of_local (local_retain _)) fun e => ?_
    cases e with
    | some e => exact hI.of_local local_discard
    | none => exact hI.scheduleRecovery
  · refine .bind (hI.of_local local_discard) fun _ => ?_
    refine .bind (hI.of_plumbing (plumbing_engine _)) fun ok => ?_
    split
    · exact .done
    · exact hI.scheduleRecovery

theorem handleCommitted {out : Outcome} {error : Option String}
    (hp : Returns J (publishRevision env out.active) (fun e s => e = none → I s)) :
    Returns J (handleCommitted h env job out error) (fun _ => I) := by
  refine .bind hp fun e => ?_
  cases e with
  | some e => exact .bind Returns.trivial fun _ => returns_stopService _
  | none =>
    refine .bind (R := fun _ => I) (.observe fun _ _ hs => hs rfl) fun active => ?_
    refine .bind (hI.of_calm (calm_note _)) fun _ => ?_
    refine .bind (hI.of_plumbing (plumbing_judge _ _)) fun healthy => ?_
    refine .bind (hI.of_calm (calm_replyCommitted _ _ _)) fun _ => ?_
    refine .bind (hI.of_plumbing (plumbing_engine _)) fun ok => ?_
    split
    · exact hI.scheduleRecovery
    · exact .done

/-- **What is done with a result.** What an apply that commits brings is known when its revision is
published. -/
theorem settle {result : StageResult} (hap : ∀ c, Returns I (callApply h c)
      (fun r s => I s ∧ (r.1.committed = true → J s)))
    (hp : ∀ revision, Returns J (publishRevision env revision) (fun e s => e = none → I s)) :
    Returns I (settle h env job result) (fun _ => I) := by
  have hcomplete (out : ReloadOutcome) (code msg : String) :
      Returns I (complete job out code msg) (fun _ => I) :=
    hI.of_calm (calm_complete _ _ _ _)
  refine .bind (hI.of_plumbing (plumbing_engine _)) fun current => ?_
  split
  · exact hcomplete _ _ _
  split
  · exact hcomplete _ _ _
  · exact hcomplete _ _ _
  refine .bind (hI.of_plumbing (.observe _)) fun busy => ?_
  split
  · exact hcomplete _ _ _
  refine .bind (hI.of_local (local_reserve _)) fun e => ?_
  cases e with
  | some e => exact hcomplete _ _ _
  | none =>
    refine .bind (hI.of_local local_ask) fun a => ?_
    refine .bind (hI.of_plumbing (.observe _)) fun waiting => ?_
    split
    · exact .bind (hcomplete _ _ _) fun _ => hI.of_local local_discard
    refine .bind (hap _) fun r => ?_
    dsimp only
    split
    case isTrue hc => exact (hI.handleCommitted (hp r.1.active)).pre fun _ _ hs => hs.2 hc
    case isFalse => exact (hI.handleUncommitted job r.1 r.2).pre fun _ _ hs => hs.1

theorem settle_plain {result : StageResult}
    (hp : ∀ revision, Returns I (publishRevision env revision) (fun e s => e = none → I s)) :
    Returns I (App.settle h env job result) (fun _ => I) :=
  hI.settle (fun c => (hI.of_plumbing (plumbing_callApply c)).returns
    fun _ _ _ hs => ⟨hs, fun _ => hs⟩) hp

theorem handleRecovery (hre : ∀ revision, Returns I (recoverPublication env revision)
      (fun e s => e = none → I { s with recovering := false })) :
    Returns I (handleRecovery h env) (fun _ => I) := by
  refine .bind (hI.of_calm (calm_update fun _ => ⟨rfl, rfl⟩)) fun _ => ?_
  refine .bind (hI.of_plumbing (plumbing_call _)) fun r => ?_
  cases r with
  | error e =>
    refine .bind (hI.of_local local_ask) fun a => ?_
    split
    · exact returns_stopService _
    refine .bind (hI.of_local local_ask) fun b => ?_
    split
    · exact .done
    · exact hI.of_calm (calm_update fun _ => ⟨rfl, rfl⟩)
  | ok recovered =>
    refine .bind (hre recovered) fun e => ?_
    cases e with
    | some e => exact returns_stopService _
    | none => exact .change fun _ _ hs => ⟨trivial, hs rfl⟩

theorem admitReload {rq : Option Nat} {exp : String}
    (hst : ∀ ep, Returns I (startReload rq exp ep) (fun _ => I)) :
    Returns I (admitReload h rq exp) (fun _ => I) := by
  have hre (code msg : String) : Returns I (reject rq code msg) (fun _ => I) :=
    hI.of_calm (calm_reject _ _ _)
  refine .bind (hI.of_local local_ask) fun a => ?_
  split
  · exact hre _ _
  refine .bind (hI.of_local local_ask) fun b => ?_
  split
  · exact hre _ _
  refine .bind (hI.of_plumbing (.observe _)) fun busy => ?_
  split
  · exact hre _ _
  refine .bind (hI.of_plumbing (plumbing_call _)) fun r => ?_
  cases r with
  | error e => exact hre _ _
  | ok ep => exact hst ep

theorem handleRequest {exp : String}
    (hst : ∀ request ep, Returns I (startReload request exp ep) (fun _ => I)) :
    Returns I (handleRequest h exp) (fun _ => I) := by
  refine .bind (hI.of_plumbing (.observe _)) fun q => ?_
  refine .bind (hI.of_calm (calm_update fun _ => ⟨rfl, rfl⟩)) fun _ => ?_
  exact .bind (hI.of_calm (calm_note _)) fun _ => hI.admitReload (hst (some q))

/-- **The startup.** The last selection of a revision is all that is left of it. -/
theorem start [DecidableEq δ] (hJ : Steady J) {cfg : Config} {ses : Source.Session}
    {conds : Conditions}
    (hse : ∀ revision, Returns I (selectRevision env revision none) (fun e s => e = none → I s))
    (hre : ∀ revision, Returns I (recoverPublication env revision) (fun e s => e = none → J s))
    (hp : ∀ revision, Returns I (publishRevision env revision) (fun e s => e = none → J s)) :
    Returns I (start h env cfg ses conds) (fun _ => J) := by
  refine .bind (hI.of_plumbing plumbing_recoverUntilReady) fun recovered => ?_
  refine .bind (hI.of_plumbing (plumbing_call _)) fun collected => ?_
  cases collected with
  | error e => exact returns_exit _
  | ok _ =>
  refine .bind (hI.of_plumbing plumbing_startupStep) fun _ => ?_
  refine .bind (hse recovered) fun e => Keeps.bind (returns_orExit e) fun _ => ?_
  refine .bind (hI.of_plumbing plumbing_startupStep) fun _ => ?_
  refine .bind (hI.of_plumbing (plumbing_call _)) fun admitted => ?_
  cases admitted with
  | error e => exact returns_exit _
  | ok ep =>
  refine .bind (hI.of_plumbing plumbing_startupStep) fun _ => ?_
  refine .bind (hI.of_plumbing (.observe _)) fun manifest => ?_
  refine .bind (hI.of_plumbing (plumbing_orExit _)) fun _ => ?_
  refine .bind (hI.of_local (local_reserve _)) fun e => ?_
  refine .bind (hI.of_plumbing (plumbing_orExit _)) fun _ => ?_
  refine .bind (hI.of_plumbing plumbing_startupStep) fun _ => ?_
  refine .bind (hI.of_plumbing (plumbing_callApply _)) fun r => ?_
  refine .bind (R := fun _ => J) ?_ fun _ => hJ.of_plumbing plumbing_startupStep
  -- the end of the startup's apply
  rw [publishInitial]
  split
  · refine .bind (hI.of_local (local_retain _)) fun e => ?_
    refine .bind (hI.of_plumbing (plumbing_orExit _)) fun _ => ?_
    refine .bind (hI.of_plumbing plumbing_recoverUntilReady) fun recovered => ?_
    split
    · exact returns_exit _
    · exact .bind (hre recovered) returns_orExit
  · split
    · exact .bind (hp _) returns_orExit
    · exact returns_exit _

end Handlers

end Steady

theorem steady_schedule {R : Schedule → Prop} (h : ∀ x, R x → R { x with recovering := true }) :
    Steady fun s : Service ω => R s.schedule :=
  ⟨fun _ _ hc hR => hc.schedule.symm ▸ hR, fun s hR => h s.schedule hR⟩

end Perimeterd.App
