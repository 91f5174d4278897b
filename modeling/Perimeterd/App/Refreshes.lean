import Perimeterd.App.Scheduler

/-!
# Refreshes that end

What the loop does when a refresh ends. Its result is matched to the refresh in flight by the
sequence alone, and its selectors are put off only as far as the resolver reports them as attempted.
-/

namespace Perimeterd.App

open Lib Firewall State List
open Lib.Proc (Through Within)
open Policy (Time Selector)
open Config (Duration)

variable {ω δ : Type}

/-! ## The next refresh -/

theorem nextRefresh_ahead (ds : Deadlines) (now : Time) :
    (∀ t, ds.nextRefresh now = some t → now < t) ↔
      (∀ d ∈ ds, now < d.2.due) ∨
        ∃ d ∈ ds, d.2.stale now = true ∧ ∃ r, d.2.retry = some r ∧ now < r := by
  cases hn : (ds.map (·.2.due)).min? with
  | none =>
    have hnil : ds = [] := by simpa using hn
    subst hnil
    simp [Deadlines.nextRefresh]
  | some n =>
    obtain ⟨hmem, hmi⟩ := List.min?_eq_some_iff.mp hn
    have hdu : now < n ↔ ∀ d ∈ ds, now < d.2.due := by
      constructor
      · exact fun h d hd => lt_of_lt_of_le h (hmi _ (mem_map_of_mem hd))
      · intro h
        obtain ⟨d, hd, rfl⟩ := mem_map.mp hmem
        exact h d hd
    have hre : ∀ b, b ∈ (ds.filter (·.2.stale now)).filterMap (·.2.retry) ↔
        ∃ d ∈ ds, d.2.stale now = true ∧ d.2.retry = some b := by
      intro b
      simp only [mem_filterMap, mem_filter, and_assoc]
    rw [← hdu]
    cases hb : ((ds.filter (·.2.stale now)).filterMap (·.2.retry)).max? with
    | none =>
      -- no stale selector is put off
      have hnil := List.max?_eq_none_iff.mp hb
      have hno : ¬ ∃ d ∈ ds, d.2.stale now = true ∧ ∃ r, d.2.retry = some r ∧ now < r := by
        rintro ⟨d, hd, hs, r, hr, -⟩
        have := (hre r).mpr ⟨d, hd, hs, hr⟩
        rw [hnil] at this
        cases this
      simp only [Deadlines.nextRefresh, hn, hb, Option.some.injEq, forall_eq', hno, or_false]
    | some b =>
      obtain ⟨hbm, hmax⟩ := List.max?_eq_some_iff.mp hb
      have hba : now < b ↔ ∃ d ∈ ds, d.2.stale now = true ∧ ∃ r, d.2.retry = some r ∧ now < r := by
        constructor
        · intro h
          obtain ⟨d, hd, hs, hr⟩ := (hre b).mp hbm
          exact ⟨d, hd, hs, b, hr, h⟩
        · rintro ⟨d, hd, hs, r, hr, h⟩
          exact lt_of_lt_of_le h (hmax r ((hre r).mpr ⟨d, hd, hs, hr⟩))
      rw [← hba]
      simp only [Deadlines.nextRefresh, hn, hb]
      split
      · rename_i hlt
        simp only [Option.some.injEq, forall_eq']
        exact ⟨Or.inr, fun h => h.elim (fun h => h.trans hlt) id⟩
      · rename_i hle
        simp only [Option.some.injEq, forall_eq']
        exact ⟨Or.inl, fun h => h.elim id fun h => lt_of_lt_of_le h (not_lt.mp hle)⟩

/-- What keeps a refresh that has ended from starting over at once: nothing is due when the timer is
set, or some selector that is stale then was attempted and is put off, or is put off already. -/
def PutOff (ds : Deadlines) (attempted : List Selector) (draw : Selector → Duration)
    (now scheduled : Time) : Prop :=
  (∀ s d, (s, d) ∈ ds → scheduled < d.due) ∨
    ∃ s d, (s, d) ∈ ds ∧ d.stale scheduled = true ∧
      if s ∈ attempted then scheduled < now + refreshDelay d.interval d.jitter (draw s)
      else ∃ r, d.retry = some r ∧ scheduled < r

/-- **The instant a refresh leaves behind.** -/
theorem deliverRefresh_ahead (s : SourceRuntime) (tried : List Selector)
    (draw : Selector → Duration) (now scheduled : Time) :
    (∀ t, (s.deliverRefresh tried draw now scheduled).timer = some t → scheduled < t) ↔
      PutOff s.deadlines tried draw now scheduled := by
  have hti : (∀ t, (s.deliverRefresh tried draw now scheduled).timer = some t →
      scheduled < t) ↔ ∀ t, (s.deadlines.attempted tried draw now).nextRefresh scheduled =
        some t → scheduled < t := by
    simp only [SourceRuntime.deliverRefresh, SourceRuntime.schedule, SourceRuntime.attempted,
      Option.map_eq_some_iff]
    constructor
    · intro h t ht
      have := h _ ⟨t, ht, rfl⟩
      rwa [lt_max_iff, or_iff_right (lt_irrefl _)] at this
    · rintro h _ ⟨t, ht, rfl⟩
      exact lt_max_of_lt_right (h t ht)
  rw [hti, nextRefresh_ahead]
  simp only [Deadlines.attempted, mem_map, exists_exists_and_eq_and, forall_exists_index,
    and_imp, forall_apply_eq_imp_iff₂]
  refine or_congr ?_ ?_
  · constructor
    · intro h t d hd
      have hlt := h (t, d) hd
      split at hlt <;> exact hlt
    · intro h e he
      have hlt := h e.1 e.2 he
      split <;> exact hlt
  · constructor
    · rintro ⟨⟨t, d⟩, hd, hs, hr⟩
      refine ⟨t, d, hd, ?_⟩
      by_cases ht : t ∈ tried
      · simp only [if_pos ht] at hs hr ⊢
        obtain ⟨r, hr, hlt⟩ := hr
        cases hr
        exact ⟨hs, hlt⟩
      · simp only [if_neg ht] at hs hr ⊢
        exact ⟨hs, hr⟩
    · rintro ⟨t, d, hd, hs, hr⟩
      refine ⟨(t, d), hd, ?_⟩
      by_cases ht : t ∈ tried
      · simp only [if_pos ht] at hr ⊢
        exact ⟨hs, _, rfl, hr⟩
      · simp only [if_neg ht] at hr ⊢
        exact ⟨hs, hr⟩

/-! ## The rest of a turn -/

def Entry.commits : Entry ω → Bool
  | .applied _ r _ => r.1.committed
  | _ => false

/-- Since the history `l` a candidate has been committed. -/
def CommittedSince (l : List (Entry ω)) (s : Service ω) : Prop :=
  l.countP Entry.commits < s.log.countP Entry.commits

theorem CommittedSince.grow {l : List (Entry ω)} {s s' : Service ω} (h : CommittedSince l s)
    (hl : s.log <:+ s'.log) : CommittedSince l s' :=
  lt_of_lt_of_le h hl.sublist.countP_le

/-- The sources are still these, unless a candidate has been committed. -/
structure Rested (x : SourceRuntime) (l : List (Entry ω)) (s : Service ω) : Prop where
  log : l.countP Entry.commits ≤ s.log.countP Entry.commits
  sources : s.sources = x ∨ CommittedSince l s

theorem steady_rested (x : SourceRuntime) (l : List (Entry ω)) : Steady (Rested x l) where
  calm s s' hc hs := by
    refine ⟨hs.log.trans hc.log.sublist.countP_le, hs.sources.imp (fun heq => ?_) (·.grow hc.log)⟩
    exact (congrArg Schedule.sources hc.schedule).trans heq
  due _ hs := ⟨hs.log, hs.sources⟩

theorem committed_of_silent {α : Type} {p : Handler ω α} (hp : Through Silent p)
    (l : List (Entry ω)) : Returns (CommittedSince l) p (fun _ => CommittedSince l) := by
  exact Returns.of_within hp.within fun s s' hc hs => hs.grow (hc.log ▸ suffix_refl _)

theorem CommittedSince.rested {x : SourceRuntime} {l : List (Entry ω)} {s : Service ω}
    (hs : CommittedSince l s) : Rested x l s :=
  ⟨le_of_lt hs, Or.inr hs⟩

section Turns

variable {h : Host ω} {env : Setting δ} (x : SourceRuntime) (l : List (Entry ω))

theorem receive_ends {s : Service ω} {job : Job} (tried : List Selector)
    (hen : (s.sources.deliverReload job).endsRefresh job = true) (a b : Answer ω)
    (more : List (Answer ω)) :
    receive job tried s (a :: b :: more) = ({ s with
          sources := (s.sources.deliverReload job).deliverRefresh tried a.draw a.now b.now },
        .done () more) := by
  refine (Proc.bind_done rfl).trans ((Proc.bind_done rfl).trans ?_)
  exact Proc.ite_pos hen _ _

theorem receive_passes {s : Service ω} {job : Job} (tried : List Selector)
    (hen : (s.sources.deliverReload job).endsRefresh job = false) (ans : List (Answer ω)) :
    receive job tried s ans =
      ({ s with sources := s.sources.deliverReload job }, .done () ans) := by
  refine (Proc.bind_done rfl).trans ((Proc.bind_done rfl).trans ?_)
  exact Proc.ite_neg (ne_true_of_eq_false hen) _ _

variable [DecidableEq ω]

theorem rested_callApply (c : Candidate) :
    Returns (Rested x l) (callApply h c)
      (fun r s => Rested x l s ∧ (r.1.committed = true → CommittedSince l s)) := by
  refine .bind ((steady_rested x l).of_plumbing (plumbing_call _)) fun r => ?_
  cases r with
  | error e => exact .pure fun _ _ hs => ⟨hs, nofun⟩
  | ok r =>
    refine .bind ((steady_rested x l).of_plumbing (.observe _)) fun after => ?_
    refine .bind (R := fun _ s => Rested x l s ∧ (r.1.committed = true → CommittedSince l s))
      (.change fun s _ hs => ⟨trivial, ?_⟩) fun _ => .pure fun _ _ h => h
    have hcom : r.1.committed = true →
        CommittedSince l { s with log := .applied c r after :: s.log } := by
      intro hc
      have hco := countP_cons_of_pos (p := Entry.commits) (a := Entry.applied c r after)
        (l := s.log) hc
      exact lt_of_le_of_lt hs.log (hco ▸ Nat.lt_succ_self _)
    have hg := (suffix_cons (Entry.applied c r after) s.log).sublist.countP_le (p := Entry.commits)
    exact ⟨⟨hs.log.trans hg, hs.sources.imp id fun hold => lt_of_lt_of_le hold hg⟩, hcom⟩

/-- **The rest of a turn** leaves the sources alone unless a candidate is committed. -/
theorem rested_settle (job : Job) (result : StageResult) :
    Returns (Rested x l) (settle h env job result) (fun _ => Rested x l) :=
  (steady_rested x l).settle (rested_callApply x l) fun revision =>
    (committed_of_silent (silent_publishRevision revision) l).returns fun _ _ _ hs _ => hs.rested

/-! ## Deliveries -/

/-- The state in which a result is looked at, but for what it does to the refresh in flight. -/
def Service.deliver (s : Service ω) (worker : Worker) (conditions : Conditions) (digest : String) :
    Service ω :=
  { s with
    workers := s.workers.erase worker
    log := .delivered worker conditions :: s.log
    waiter := s.waiter.map fun q =>
      if worker.job.refresh = 0 ∧ q.epoch = worker.job.epoch then { q with digest := digest } else q
    sources := s.sources.deliverReload worker.job }

theorem handleResult_ends [DecidableEq δ] {s : Service ω} {wk : Worker} (conds : Conditions)
    (hen : (s.sources.deliverReload wk.job).endsRefresh wk.job = true) (a b : Answer ω)
    (more : List (Answer ω)) :
    handleResult h env wk conds s (a :: b :: more) = settle h env wk.job (wk.result env conds)
        { s.deliver wk conds (wk.result env conds).digest with
          sources := (s.sources.deliverReload wk.job).deliverRefresh
            (wk.result env conds).attempted a.draw a.now b.now } more := by
  refine (Proc.bind_done rfl).trans ((Proc.bind_done rfl).trans ((Proc.bind_done rfl).trans ?_))
  refine Proc.bind_done (receive_ends _ ?_ a b more)
  exact hen

theorem handleResult_passes [DecidableEq δ] {s : Service ω} {wk : Worker} (conds : Conditions)
    (hen : (s.sources.deliverReload wk.job).endsRefresh wk.job = false)
    (answers : List (Answer ω)) :
    handleResult h env wk conds s answers = settle h env wk.job (wk.result env conds)
        (s.deliver wk conds (wk.result env conds).digest) answers := by
  refine (Proc.bind_done rfl).trans ((Proc.bind_done rfl).trans ((Proc.bind_done rfl).trans ?_))
  refine Proc.bind_done (receive_passes _ ?_ answers)
  exact hen

/-! ## The scheduler and failed refreshes -/

/-- **When a failed refresh does not start over at once.** A refresh in flight ends without a commit,
in whatever way, at the time `a.now`; the timer is set at `b.now`. The instant it is set to lies ahead
exactly if nothing is due then, or a stale selector is put off. -/
theorem next_refresh_ahead_iff [DecidableEq δ] {s s' : Service ω} {worker : Worker}
    {conditions : Conditions} {a b : Answer ω} {more rest : List (Answer ω)}
    (hflight : s.sources.refreshCancel = some worker.job)
    (hsequence : s.sources.refreshSequence = worker.job.refresh) (hrefresh : worker.job.refresh ≠ 0)
    (hrun : turn h env (.delivered worker conditions) s (a :: b :: more) = (s', .done () rest))
    (huncommitted : ¬ CommittedSince s.log s') :
    (∀ t, s'.sources.timer = some t → b.now < t) ↔
      PutOff s.sources.deadlines (worker.result env conditions).attempted a.draw a.now b.now := by
  have hke : s.sources.deliverReload worker.job = s.sources := by
    rw [SourceRuntime.deliverReload, if_neg fun h => hrefresh h.1]
  have hen : (s.sources.deliverReload worker.job).endsRefresh worker.job = true := by
    rw [hke, SourceRuntime.endsRefresh, hflight, hsequence]
    simpa using hrefresh
  change handleResult h env worker conditions s (a :: b :: more) = _ at hrun
  rw [handleResult_ends conditions hen] at hrun
  -- from here on only a commit changes the sources
  have hre := (rested_settle ((s.sources.deliverReload worker.job).deliverRefresh
    (worker.result env conditions).attempted a.draw a.now b.now) s.log worker.job
    (worker.result env conditions)).elim (by exact ⟨Nat.le_refl _, Or.inl rfl⟩) hrun
  rw [hre.sources.resolve_right huncommitted, hke, deliverRefresh_ahead]

end Turns

/-! ### A refresh that starts over at once -/

/-- The refresh worker of the sample service: it is to refresh what was committed at the time 10. -/
def refreshWorker : Worker :=
  { epoch := 1, task := .refresh 1 serviceConfig none, committed := some 10 }

/-- The sample service starts its first refresh when it is due. -/
def serviceTicked : Service Nat :=
  (turn serviceHost serviceSetting .tick serviceStarted [{ now := 110 }, { now := 110 }, {}]).1

theorem waits_serviceTicked {ok : Service Nat → Occurrence → Prop} (hok : ok serviceStarted .tick) :
    Waits serviceHost serviceSetting ok serviceTicked :=
  waits_serviceStarted.turned (show serviceStarted.sources.timer.isSome = true by decide +kernel)
    hok (by decide +kernel)

/-- The committed manifest cannot be read. -/
def unreadable : Conditions :=
  { serviceConditions 115 with cache := { serviceCache with content := fun _ => none } }

/-- The refresh fails before any selector is fetched. -/
def serviceSpun : Service Nat :=
  (turn serviceHost serviceSetting (.delivered refreshWorker unreadable) serviceTicked
    [{ now := 115 }, { now := 115 }, {}]).1

theorem refresh_starts_over :
    Waits serviceHost serviceSetting (fun _ _ => True) serviceTicked ∧
      refreshWorker ∈ serviceTicked.workers ∧
      serviceTicked.sources.refreshCancel = some refreshWorker.job ∧
      (∃ rest, turn serviceHost serviceSetting (.delivered refreshWorker unreadable) serviceTicked
        [{ now := 115 }, { now := 115 }, {}] = (serviceSpun, .done () rest)) ∧
      ¬ CommittedSince serviceTicked.log serviceSpun ∧
      serviceSpun.sources.timer = some 115 := by
  refine ⟨waits_serviceTicked trivial, by decide +kernel, by decide +kernel,
    Proc.eq_done (by decide +kernel), ?_, by decide +kernel⟩
  rw [CommittedSince]
  decide +kernel

def unanswered : Conditions :=
  { serviceConditions 115 with
    surroundings := { (serviceConditions 115).surroundings with
      respond := fun _ _ => .error { text := "unreachable" } } }

theorem next_refresh_ahead_sample : refreshWorker.job.refresh ≠ 0 ∧ ∀ t,
    (turn serviceHost serviceSetting (.delivered refreshWorker unanswered) serviceTicked
      [{ now := 115 }, { now := 115 }, {}]).1.sources.timer = some t → 115 < t := by
  obtain ⟨rest, hru⟩ := Proc.eq_done (p := turn serviceHost serviceSetting
    (.delivered refreshWorker unanswered)) (s := serviceTicked)
    (w := [{ now := 115 }, { now := 115 }, {}]) (by decide +kernel)
  refine ⟨by decide, (next_refresh_ahead_iff (by decide +kernel) (by decide +kernel) (by decide +kernel) hru
    ?_).mpr (Or.inr ?_)⟩
  · rw [CommittedSince]
    decide +kernel
  · exact ⟨⟨.asn, "AS64500"⟩, ⟨Source.asnEndpoint, {}, 10, 100, 1, 110, none⟩, by decide +kernel,
      by decide +kernel, by decide +kernel⟩

end Perimeterd.App
