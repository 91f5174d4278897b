import Perimeterd.App.Frames

/-!
# The refresh scheduler

What the loop does to the timer, the deadlines and the marker of the refresh in flight.
-/

namespace Perimeterd.App

open Lib Firewall State List
open Lib.Proc (Within)
open Policy (Time Selector)
open Config (Duration)

variable {ω δ : Type}

/-! ## The scheduler does not stall -/

/-- The marker and the loop's copy of the sequence belong to one refresh, and its worker's result has
not been handled. -/
def Marked (x : Schedule) : Prop :=
  ∀ j, x.sources.refreshCancel = some j → x.sources.refreshSequence = j.refresh ∧ j.refresh ≠ 0 ∧
    ∃ worker ∈ x.workers, worker.job = j

/-- Deadlines belong to an active revision, and the timer waits for the first of them. -/
def Timed (s : SourceRuntime) : Prop :=
  (s.active = none → s.deadlines = []) ∧ (s.deadlines ≠ [] → s.timer.isSome = true)

/-- **The invariant of the wait point.** -/
structure Alive (x : Schedule) : Prop where
  marked : Marked x
  idle : x.sources.active = none → x.sources.deadlines = []
  armed : x.recovering = false → x.sources.deadlines ≠ [] →
    x.sources.timer.isSome = true ∨ x.sources.refreshCancel.isSome = true

variable {env : Setting δ}

theorem Alive.of_timed {x : Schedule} (hm : Marked x) (ht : Timed x.sources) : Alive x :=
  ⟨hm, ht.1, fun _ hne => Or.inl (ht.2 hne)⟩

theorem nextRefresh_isSome {ds : Deadlines} (h : ds ≠ []) (now : Time) :
    (ds.nextRefresh now).isSome = true := by
  obtain ⟨n, hn⟩ : ∃ n, (ds.map (·.2.due)).min? = some n := by
    rw [← Option.isSome_iff_exists, isSome_min?_iff]
    simpa using h
  rw [Deadlines.nextRefresh, hn]
  split
  · split <;> rfl
  · rfl

theorem schedule_timer (s : SourceRuntime) (now : Time) (h : s.deadlines ≠ []) :
    (s.schedule now).timer.isSome = true := by
  rw [SourceRuntime.schedule, Option.isSome_map]
  exact nextRefresh_isSome h now

theorem selectRevision_spec {tx : Source.Texts} {cache : Source.Cache}
    {draw : Selector → Duration} {now : Time} {s s' : SourceRuntime} {rev : Option Revision}
    {ses : Source.Session} (h : s.selectRevision tx cache draw now rev ses = .ok s') :
    Timed s' ∧ s'.active = rev ∧ s'.refreshCancel = (s.endRefresh rev).refreshCancel ∧
      s'.refreshSequence = (s.endRefresh rev).refreshSequence := by
  obtain ⟨records, -, h⟩ := bind_eq_ok.mp h
  obtain ⟨dls, hds, h⟩ := bind_eq_ok.mp h
  rw [← pure_eq_ok.mp h]
  refine ⟨⟨fun hno => ?_, fun hne => schedule_timer _ now hne⟩, rfl, rfl, rfl⟩
  have hre : rev = none := hno
  rw [hre] at hds
  cases hds
  rfl

theorem returns_selectRevision (rev : Option Revision) (ses : Source.Session) :
    Returns (fun s : Service ω => Marked s.schedule) (selectRevision env rev ses)
      (fun r s => r = none → Marked s.schedule ∧ Timed s.sources) := by
  refine .step fun a s _ hm => ⟨trivial, ?_⟩
  cases hse : s.sources.selectRevision env.texts a.cache a.draw a.now rev ses with
  | error e => exact nofun
  | ok next =>
    intro _
    obtain ⟨ht, -, hc, hq⟩ := selectRevision_spec hse
    refine ⟨fun j hj => ?_, ht⟩
    have hj : next.refreshCancel = some j := hj
    rcases endRefresh_unmarks s.sources rev with heq | hno
    · rw [hc, heq] at hj
      change next.refreshSequence = _ ∧ _
      rw [hq, heq]
      exact hm j hj
    · rw [hc, hno] at hj
      cases hj

theorem Timed.fallback {s : SourceRuntime} (ht : Timed s) (sels : List Selector)
    (draw : Selector → Duration) (now scheduled : Time) :
    Timed ((s.attempted sels draw now).schedule scheduled) := by
  refine ⟨fun hno => ?_, fun hne => schedule_timer _ _ hne⟩
  have hds := ht.1 hno
  simp only [SourceRuntime.schedule, SourceRuntime.attempted, Deadlines.attempted, hds,
    map_nil]

/-- The state after a revision has been selected. -/
def Selected (s : Service ω) : Prop := Marked s.schedule ∧ Timed s.sources

theorem steady_marked : Steady fun s : Service ω => Marked s.schedule := steady_schedule fun _ h => h

theorem steady_selected : Steady (Selected (ω := ω)) :=
  steady_schedule (R := fun x => Marked x ∧ Timed x.sources) fun _ h => h

theorem returns_publishReservation (rev : Option Revision) (r : Reservation) :
    Returns (fun s : Service ω => Marked s.schedule) (publishReservation env rev r)
      (fun r s => r = none → Selected s) := by
  refine .bind (returns_selectRevision rev r.session) fun e => ?_
  cases e with
  | some e => exact .pure fun _ _ _ => nofun
  | none =>
    refine .bind (R := fun _ => Selected) ?_ fun _ =>
      Keeps.bind (steady_selected.of_local (local_exchangeListener r)) fun _ =>
        Keeps.pure fun _ _ hs _ => hs
    rw [recordFallback]
    split
    · refine .bind (R := fun _ => Selected) (.step fun _ s _ hs => ⟨trivial, hs rfl⟩)
        fun a => Keeps.bind (steady_selected.of_local local_ask) fun b => ?_
      exact .change fun s _ hs => ⟨trivial, hs.1, hs.2.fallback _ _ _ _⟩
    · exact .pure fun _ _ h => h rfl

theorem returns_publishRevision (rev : Option Revision) :
    Returns (fun s : Service ω => Marked s.schedule) (publishRevision env rev)
      (fun r s => r = none → Selected s) := by
  refine .bind (steady_marked.of_local local_ask) fun a => ?_
  cases a.refusal with
  | some e => exact .pure fun _ _ _ => nofun
  | none =>
    refine .bind (steady_marked.of_plumbing (.observe _)) fun r => ?_
    cases r with
    | none => exact .pure fun _ _ _ => nofun
    | some r =>
      exact .bind (steady_marked.of_local local_discard) fun _ => returns_publishReservation rev r

theorem returns_recoverPublication (rev : Option Revision) :
    Returns (fun s : Service ω => Marked s.schedule) (recoverPublication env rev)
      (fun r s => r = none → Selected s) := by
  refine .bind (steady_marked.of_plumbing (.observe _)) fun r => ?_
  cases r with
  | none => exact returns_selectRevision rev none
  | some r =>
    refine .bind (steady_marked.of_local local_discard) fun _ => ?_
    split
    · exact returns_selectRevision rev none
    · exact returns_publishReservation rev r

section Turns

variable {h : Host ω} {env : Setting δ}

/-- The invariant as a condition on states. -/
abbrev Living (s : Service ω) : Prop := Alive s.schedule

theorem steady_living : Steady (Living (ω := ω)) :=
  steady_schedule fun _ h => ⟨h.marked, h.idle, nofun⟩

variable {s : Service ω}

theorem Selected.living (hs : Selected s) : Living s := .of_timed hs.1 hs.2

/-- The invariant while a result is being handled: its own worker no longer counts. -/
structure Receiving (job : Job) (x : Schedule) : Prop where
  marked : ∀ j, x.sources.refreshCancel = some j → x.sources.refreshSequence = j.refresh ∧
    j.refresh ≠ 0 ∧ (j = job ∨ ∃ worker ∈ x.workers, worker.job = j)
  idle : x.sources.active = none → x.sources.deadlines = []
  armed : x.recovering = false → x.sources.deadlines ≠ [] →
    x.sources.timer.isSome = true ∨ x.sources.refreshCancel.isSome = true

theorem Alive.receiving {s : Service ω} (hs : Living s) (wk : Worker) :
    Receiving wk.job ⟨s.sources, s.workers.erase wk, s.recovering⟩ := by
  refine ⟨fun j hj => ?_, hs.idle, hs.armed⟩
  obtain ⟨hse, hz, other, hmem, hjo⟩ := hs.marked j hj
  refine ⟨hse, hz, ?_⟩
  by_cases heq : other = wk
  · exact .inl (heq ▸ hjo.symm)
  · exact .inr ⟨other, (mem_erase_of_ne heq).mpr hmem, hjo⟩

theorem returns_receive (job : Job) (tried : List Selector) :
    Returns (fun s : Service ω => Receiving job s.schedule) (receive job tried)
      (fun _ => Living) := by
  have hd : ∀ s : SourceRuntime, (s.deliverReload job).active = s.active ∧
      (s.deliverReload job).deadlines = s.deadlines ∧ (s.deliverReload job).timer = s.timer ∧
      (s.deliverReload job).refreshCancel = s.refreshCancel ∧
      (s.deliverReload job).refreshSequence = s.refreshSequence := by
    intro s
    rw [SourceRuntime.deliverReload]
    split <;> exact ⟨rfl, rfl, rfl, rfl, rfl⟩
  refine .bind (R := fun _ s => Receiving job s.schedule)
    (.change fun s _ hs => ⟨trivial, ?_⟩) fun _ => ?_
  · obtain ⟨hac, hds, hti, hc, hq⟩ := hd s.sources
    exact ⟨fun j hj => by
      obtain ⟨hse, hrest⟩ := hs.marked j (hc ▸ hj)
      exact ⟨hq.trans hse, hrest⟩, fun hno => hds.trans (hs.idle (hac ▸ hno)),
      fun hre hne => by
        change (s.sources.deliverReload job).timer.isSome = true ∨
          (s.sources.deliverReload job).refreshCancel.isSome = true
        rw [hti, hc]
        exact hs.armed hre (hds ▸ hne)⟩
  refine .bind (R := fun ends s => Receiving job s.schedule ∧ ends = s.sources.endsRefresh job)
    (.observe fun _ _ hs => ⟨hs, rfl⟩) fun ends => ?_
  split
  · -- the marker is cleared and the timer set
    refine .bind (R := fun _ s => Receiving job s.schedule)
      (.step fun _ _ _ hs => ⟨trivial, hs.1⟩) fun a => ?_
    refine .bind (R := fun _ s => Receiving job s.schedule)
      (.step fun _ _ _ hs => ⟨trivial, hs⟩) fun b => ?_
    refine .change fun s _ hs => ⟨trivial, (fun _ h => by cases h), fun hno => ?_, fun _ hne => ?_⟩
    · have hds : s.sources.deadlines = [] := hs.idle hno
      simp only [Service.schedule, SourceRuntime.deliverRefresh, SourceRuntime.schedule,
        SourceRuntime.attempted, Deadlines.attempted, hds, map_nil]
    · exact .inl (schedule_timer _ _ hne)
  · -- the result is not that of the refresh in flight
    rename_i hen
    refine .pure fun s _ hs => ⟨fun j hj => ?_, hs.1.idle, hs.1.armed⟩
    obtain ⟨hse, hz, hjo⟩ := hs.1.marked j hj
    refine ⟨hse, hz, hjo.resolve_left fun heq => hen ?_⟩
    have hj : s.sources.refreshCancel = some j := hj
    have hse : s.sources.refreshSequence = j.refresh := hse
    rw [hs.2, SourceRuntime.endsRefresh, hj, hse, ← heq]
    simpa using hz

theorem returns_startReload (rq : Option Nat) (exp : String) (ep : Nat) :
    Returns (Living (ω := ω)) (startReload rq exp ep) (fun _ => Living) := by
  refine .bind (steady_living.of_calm (calm_finishWaiter _)) fun _ => ?_
  refine .bind (steady_living.of_calm (calm_note _)) fun _ => ?_
  refine .change fun s _ hs => ⟨trivial, fun j hj => ?_, hs.idle, hs.armed⟩
  obtain ⟨hse, hz, wk, hmem, hjo⟩ := hs.marked j hj
  exact ⟨hse, hz, wk, mem_cons_of_mem _ hmem, hjo⟩

/-- A tick has stopped the timer, and no refresh is in flight. -/
structure Ticking (x : Schedule) : Prop where
  unmarked : x.sources.refreshCancel = none
  idle : x.sources.active = none → x.sources.deadlines = []

theorem Ticking.schedule (hs : Ticking s.schedule) (now : Time) :
    Living { s with sources := s.sources.schedule now } :=
  ⟨fun j hj => (by cases hs.unmarked.symm.trans hj), hs.idle,
    fun _ hne => Or.inl (schedule_timer _ _ hne)⟩

variable [DecidableEq ω]

theorem returns_settle (job : Job) (result : StageResult) :
    Returns Living (settle h env job result) (fun _ => Living) :=
  steady_living.settle_plain fun revision => (returns_publishRevision revision).conseq
    (fun _ _ hs => hs.marked) (fun _ _ _ hs he => (hs he).living) fun _ _ _ _ => trivial

theorem returns_handleResult [DecidableEq δ] (wk : Worker) (conds : Conditions) :
    Returns Living (handleResult h env wk conds) (fun _ => Living) := by
  refine .bind (R := fun _ s => Receiving wk.job s.schedule)
    (.change fun s _ hs => ⟨trivial, hs.receiving wk⟩) fun _ => ?_
  refine .bind (R := fun _ s => Receiving wk.job s.schedule)
    (.change fun s _ hs => ⟨trivial, hs⟩) fun _ => ?_
  refine .bind (R := fun _ s => Receiving wk.job s.schedule)
    (.change fun s _ hs => ⟨trivial, hs⟩) fun _ => ?_
  exact .bind (returns_receive _ _) fun _ => returns_settle _ _

theorem keeps_callAdmission {f : Engine → Except String (Engine × Nat)} {I P : Service ω → Prop}
    {Q : Except String Nat → Service ω → Prop} {E : Stop → Service ω → Prop}
    (hI : ∀ s w, I s → I { s with world := w })
    (hok : ∀ (s : Service ω) before (w : World ω) e n, P s → background h before s.world = some w →
      f w.engine = .ok (e, n) → Q (.ok n) { s with world := { w with engine := e } })
    (hno : ∀ (s : Service ω) before (w : World ω) e, P s → background h before s.world = some w →
      Q (.error e) { s with world := w })
    (hE : ∀ s, E .crashed s) : Keeps I P (call h (admission f)) Q E := by
  refine keeps_call hI (fun s before w hs hb answers => ?_) hE
  simp only [admission, Bind.bind, Proc.observe]
  cases hf : f w.engine with
  | error e => exact ⟨trivial, hno s before w e hs hb⟩
  | ok x => exact ⟨trivial, hok s before w x.1 x.2 hs hb hf⟩

theorem returns_startRefresh (rev : Revision) :
    Returns (fun s => Ticking s.schedule) (startRefresh h rev) (fun _ => Living) := by
  refine .bind (R := fun r s => Ticking s.schedule ∧ ∀ n, r = .ok n → n ≠ 0)
    (keeps_callAdmission (fun _ _ hs => hs) (fun s before w e n hs _ had => ⟨hs, fun m hm => ?_⟩)
      (fun _ _ _ _ hs _ => ⟨hs, nofun⟩) fun _ => trivial) fun r => ?_
  · cases hm
    obtain ⟨-, -, -, rfl, -⟩ := admitRefresh_eq_ok had
    exact Nat.succ_ne_zero _
  cases r with
  | error e =>
    refine .bind (R := fun _ s => Ticking s.schedule)
      (.step fun _ _ _ hs => ⟨trivial, hs.1⟩) fun a => ?_
    refine .change fun s _ hs => ⟨trivial, fun j hj => ?_, hs.idle, fun _ _ => Or.inl rfl⟩
    cases hs.unmarked.symm.trans hj
  | ok seq =>
    refine .change fun s _ hs => ⟨trivial, fun j hj => ?_, hs.1.idle, fun _ _ => Or.inr rfl⟩
    cases hj
    exact ⟨rfl, hs.2 seq rfl, _, mem_cons_self, rfl⟩

theorem returns_handleTick : Returns Living (handleTick h) (fun _ => Living) := by
  refine .bind (R := fun _ s => Marked s.schedule ∧
      (s.sources.active = none → s.sources.deadlines = []))
    (.change fun s _ hs => ⟨trivial, hs.marked, hs.idle⟩) fun _ => ?_
  refine .bind (R := fun s₀ s => s₀ = s ∧ Marked s.schedule ∧
      (s.sources.active = none → s.sources.deadlines = []))
    (.observe fun _ _ hs => ⟨rfl, hs⟩) fun s₀ => ?_
  have hask : ∀ {P : Service ω → Prop}, Returns P ask (fun _ => P) :=
    Keeps.step fun _ _ _ hs => ⟨trivial, hs⟩
  split
  · rename_i hac
    refine .pure fun s _ hs => ?_
    obtain ⟨rfl, hm, hidle⟩ := hs
    exact ⟨hm, hidle, fun _ hne => absurd (hidle hac) hne⟩
  rename_i revision hac
  split
  · rename_i hbu
    refine .pure fun s _ hs => ?_
    obtain ⟨rfl, hm, hidle⟩ := hs
    refine ⟨hm, hidle, fun hre _ => Or.inr (hbu.resolve_left fun h => ?_)⟩
    have hre : s₀.recovering = false := hre
    rw [hre] at h
    cases h
  rename_i hf
  refine .bind (R := fun _ s => s₀ = s ∧ Ticking s.schedule)
    (hask.pre ?_ |>.fails fun _ _ _ _ => trivial) fun a => ?_
  · rintro s _ ⟨rfl, -, hidle⟩
    refine ⟨rfl, ?_, hidle⟩
    rw [not_or, Option.not_isSome_iff_eq_none] at hf
    exact hf.2
  refine .bind (R := fun _ s => s₀ = s ∧ Ticking s.schedule) hask fun b => ?_
  have hag : Returns (fun s => s₀ = s ∧ Ticking s.schedule) (do
      let c ← ask
      update fun s => { s with sources := s.sources.schedule c.now }) (fun _ => Living) :=
    Keeps.bind hask fun c => Keeps.change fun s _ hs => ⟨trivial, hs.2.schedule c.now⟩
  split
  · split
    · exact hag
    · exact (returns_startRefresh revision).pre fun _ _ hs => hs.2
  · exact hag

/-- **Every turn** leads back to the invariant. -/
theorem returns_turn [DecidableEq δ] (o : Occurrence) :
    Returns Living (turn h env o) (fun _ => Living) := by
  cases o with
  | stopping => exact returns_stopService _
  | listenerFailed e => exact returns_stopService _
  | request exp =>
    exact steady_living.handleRequest fun request ep => returns_startReload request exp ep
  | sighup => exact steady_living.admitReload fun ep => returns_startReload none "" ep
  | tick => exact returns_handleTick
  | metricsFailed e => exact .bind Returns.trivial fun _ => returns_stopService _
  | delivered wk conds => exact returns_handleResult wk conds
  | recovery =>
    exact steady_living.handleRecovery fun revision => (returns_recoverPublication revision).conseq
      (fun _ _ hs => hs.marked) (fun _ _ _ hs he => .of_timed (hs he).1 (hs he).2)
      fun _ _ _ _ => trivial

/-- **The first wait.** -/
theorem returns_start [DecidableEq δ] (cfg : Config) (ses : Source.Session) (conds : Conditions) :
    Returns (fun s => Marked s.schedule) (start h env cfg ses conds) (fun _ => Living) :=
  (steady_marked.start steady_selected (fun revision => (returns_selectRevision revision none).returns
        fun _ _ _ hs he => (hs he).1)
      returns_recoverPublication returns_publishRevision).returns
    fun _ _ _ hs => hs.living

theorem Waits.living [DecidableEq δ] {ok : Service ω → Occurrence → Prop}
    (hs : Waits h env ok s) : Living s := by
  induction hs with
  | start _ hru => exact (returns_start _ _ _).elim (fun j hj => by cases hj) hru
  | turn _ _ _ hru ih => exact (returns_turn _).elim ih hru

/-- **The refresh scheduler never stalls.** Whenever the loop waits, the active revision has
deadlines and no recovery is pending, the timer is armed, or a refresh is marked in flight whose
result has not been handled. -/
theorem never_stalls [DecidableEq δ] {s : Service ω} (hs : Waits h env (fun _ _ => True) s)
    (hdeadlines : s.sources.deadlines ≠ []) (hrecovering : s.recovering = false) :
    s.sources.timer.isSome = true ∨
      ∃ j, s.sources.refreshCancel = some j ∧ ∃ worker ∈ s.workers, worker.job = j := by
  refine (hs.living.armed hrecovering hdeadlines).imp_right fun hma => ?_
  obtain ⟨j, hj⟩ := Option.isSome_iff_exists.mp hma
  obtain ⟨-, -, hw⟩ := hs.living.marked j hj
  exact ⟨j, hj, hw⟩

end Turns

/-! ## A run to look at -/

/-- One blocked network, whose prefixes are refreshed every hundred nanoseconds. -/
def serviceConfig : Config where
  geo := { refreshInterval := 100, refreshJitter := 1 }
  policies :=
    [{ name := "block", priority := 10, direction := .ingress, mode := .blocklist,
       traffic := { any := true }, included := { asns := ["AS64500"] } }]

def serviceSetting : Setting Unit where
  texts := Source.plainTexts
  fingerprint _ _ := ()
  parse _ := .ok serviceConfig
  validateConfig _ := .ok ()
  sha256 _ := "e3b0"
  configPath := "/etc/perimeterd/perimeterd.yaml"

/-- The network's record, retrieved at a time. -/
def serviceRecord (now : Time) : Source.Record where
  selector := ⟨.asn, "AS64500"⟩
  endpoint := Source.asnEndpoint
  apiVersion := Source.asnVersion
  parameters := [("resource", "64500"), ("sourceapp", "perimeterd")]
  queryStart := now
  queryEnd := now
  retrievedAt := now
  ipv4 := [.valid (.v4 8 8 8 0 24)]

/-- A manifest is named after the time its record was retrieved. -/
def serviceCache : Source.Cache where
  content m := some [serviceRecord m.toNat]
  digest records := BitVec.ofNat 256 (records.map fun r : Source.Record => r.retrievedAt.toNat).sum

def serviceConditions (now : Time) : Conditions where
  read := .ok []
  cache := serviceCache
  surroundings :=
    { now := fun _ => now, month := 0
      respond := fun _ _ => .ok
        { ipv4 := [.valid (.v4 8 8 8 0 24)], ipv6 := [], queryStart := now, queryEnd := now
          retrieved := now }
      artifact := fun _ _ => .error { text := "not asked" } }

/-- A daemon for the loop's runs. The loop never looks into a target, so every model is given that of
one blocked network. -/
def serviceHost : Host Nat :=
  { sampleHost with
    content := fun _ => .ok ()
    buildTarget := fun id _ _ => sampleHost.buildTarget id sampleConfig sampleCandidate.model }

/-- What the startup on an empty host meets at the time 10. -/
def serviceStartup : List (Answer Nat) :=
  [{}, { answers := List.replicate 8 .ok ++ .fail :: List.replicate 3 .ok },
    { answers := List.replicate 20 .ok }, {}, {}, {}, {}, {}, {}, {},
    { before := [(.stage 10, List.replicate 5 .ok)], answers := applyAnswers 7 21 [7] 60 },
    {}, { cache := serviceCache, now := 10 }, {}]

def serviceStarted : Service Nat :=
  (start serviceHost serviceSetting serviceConfig none (serviceConditions 10) {} serviceStartup).1

theorem waits_serviceStarted {ok : Service Nat → Occurrence → Prop} :
    Waits serviceHost serviceSetting ok serviceStarted :=
  .started ⟨[], .step (.refl _) (.restarted (d := {}) (Disk.Survives.refl _))⟩ (by decide +kernel)

theorem never_stalls_sample : serviceStarted.sources.timer = some 110 ∧
    (serviceStarted.sources.timer.isSome = true ∨
      ∃ j, serviceStarted.sources.refreshCancel = some j ∧
        ∃ worker ∈ serviceStarted.workers, worker.job = j) :=
  ⟨by decide +kernel, never_stalls waits_serviceStarted (by decide +kernel) (by decide +kernel)⟩

end Perimeterd.App
