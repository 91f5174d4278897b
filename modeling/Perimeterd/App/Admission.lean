import Perimeterd.App.Safety

/-!
# Freshness of what commits

Reload candidates carry an epoch, refresh candidates an epoch and a sequence. Both are handed out by
one process and fenced at admission and again under the writer lock; a new process rebuilds its
counters from the active revision it recovers. A number that was admitted and never committed is
therefore handed out again after a restart: admissions are ordered within one process, active
revisions across all of them. What follows is about runs without `Cleanup`, so that an active
revision, once there, is only ever replaced.

`Fenced` ties the counters of an engine to its durable state and to the admissions of its process.
It confines the active revision to an `Allowance` that moves with the counters: never older than the
active epoch, and within it never past the newest refresh admitted.
-/

namespace Perimeterd.App

open Lib Firewall State List

/-! ## Admissions of a process -/

/-- The events since the process was started, the latest first. -/
def thisProcess : List Event → List Event
  | [] => []
  | .crashed _ :: _ => []
  | .restarted :: _ => []
  | event :: rest => event :: thisProcess rest

/-- The reload epochs this process has admitted. -/
def admittedReloads (events : List Event) : List Nat :=
  (thisProcess events).filterMap fun event =>
    match event with
    | .returned _ (.admitted n) => some n
    | _ => none

/-- The refreshes this process has admitted, with their epochs. -/
def admittedRefreshes (events : List Event) : List (Nat × Nat) :=
  (thisProcess events).filterMap fun event =>
    match event with
    | .returned _ (.refreshed epoch n) => some (epoch, n)
    | _ => none

/-! ## Allowances -/

def epochOf : Option Revision → Nat
  | none => 0
  | some r => r.epoch

/-- Revisions of an epoch that has been reached, or of a later one. -/
def Allowance.since (epoch : Nat) : Allowance where
  revision x := epoch ≤ epochOf x
  cleanup := False
  empty := False.elim

/-- What an engine with these counters may find active. -/
def Allowance.fenced (e : Engine) : Allowance where
  revision x := e.activeEpoch ≤ epochOf x ∧ ∀ r, x = some r → r.epoch ≠ 0 ∧
    (r.epoch = e.activeEpoch → r.refreshSequence ≤ e.refreshSequence)
  cleanup := False
  empty := False.elim

variable {ω : Type} {h : Host ω} {S S' : Allowance} {w w' : World ω} {events : List Event}

theorem Sound.confine (hw : Sound h S w) (hclean : S.cleanup → S'.cleanup)
    (hre : ∀ x, S.revision x → x.map (·.id) ∈ w.disk.active.all →
      (∀ r, x = some r → Holds h.content w.disk r) → S'.revision x) : Sound h S' w where
  certain := hw.certain
  pairs a ha j hj := by
    obtain ⟨hp, hc⟩ := hw.pairs a ha j hj
    obtain ⟨x, hx, rfl, hr⟩ := hc.allowed
    exact ⟨hp, hc.quiet, hc.objects, hc.selected, ⟨x, hre x hx ha hr, rfl, hr⟩,
      fun jr hjr hop => hclean (hc.emptied jr hjr hop)⟩

theorem Sound.confine_rooted {x : Option Revision} (hw : Sound h S w)
    (hclean : S.cleanup → S'.cleanup) (hro : Rooted h.content x w.disk) (hx : S'.revision x) :
    Sound h S' w := by
  refine hw.confine hclean fun y _ hy hyr => ?_
  rwa [holds_ext hyr hro.stored (hro.active _ hy)]

/-! ## The fence -/

/-- **The invariant of an engine's counters.** -/
structure Fenced (h : Host ω) (events : List Event) (w : World ω) : Prop where
  sound : Sound h (.fenced w.engine) w
  active : w.engine.healthy = true → ∃ x, Idle h.content x w.disk ∧ epochOf x = w.engine.activeEpoch
  admitted : w.engine.activeEpoch ≤ w.engine.admitted
  reloads : ∀ n ∈ admittedReloads events, n ≤ w.engine.admitted
  refreshes : ∀ e s, (e, s) ∈ admittedRefreshes events → e ≠ 0 ∧ e ≤ w.engine.activeEpoch ∧
    (e = w.engine.activeEpoch → s ≤ w.engine.refreshSequence)

section

variable (hf : Fenced h events w)

include hf

theorem Fenced.ready : Ready w := by
  intro hh
  obtain ⟨x, hidle, -⟩ := hf.active hh
  exact hidle.journal

theorem Fenced.candidate {c : Candidate}
    (hc : w.engine.current c = true) : w.engine.activeEpoch ≤ c.epoch ∧ c.epoch ≠ 0 ∧
      (c.refresh = 0 → c.epoch = w.engine.admitted) ∧
      (c.refresh ≠ 0 → c.epoch = w.engine.activeEpoch ∧ c.refresh = w.engine.refreshSequence) := by
  rw [Engine.current] at hc
  by_cases hz : c.epoch = 0
  · rw [if_pos hz] at hc
    cases hc
  rw [if_neg hz] at hc
  by_cases hre : c.refresh ≠ 0
  · rw [if_pos hre, Bool.and_eq_true, decide_eq_true_eq, decide_eq_true_eq] at hc
    exact ⟨hc.1.ge, hz, fun h0 => absurd h0 hre, fun _ => hc⟩
  · rw [if_neg hre, decide_eq_true_eq] at hc
    exact ⟨hc ▸ hf.admitted, hz, fun _ => hc, fun h0 => absurd h0 hre⟩

theorem Fenced.allowed {c : Candidate} (hc : w.engine.current c = true) (id : Id) (t : Option Target) :
    (Allowance.fenced w.engine).revision (some (c.revision id t)) := by
  obtain ⟨hle, hz, -, hre⟩ := hf.candidate hc
  refine ⟨hle, ?_⟩
  rintro r ⟨⟩
  refine ⟨hz, fun _ => ?_⟩
  by_cases h0 : c.refresh = 0
  · change c.refresh ≤ _
    omega
  · exact (hre h0).2.le

theorem Fenced.adopt {w' : World ω}
    {x : Option Revision} (hs : Sound h (.fenced w.engine) w') (hro : Rooted h.content x w'.disk)
    (hl : (w.engine.adoptActiveEpoch x).Like w'.engine)
    (hac : w'.engine.healthy = true → Idle h.content x w'.disk) : Fenced h events w' := by
  obtain ⟨had, hep, hse⟩ := hl
  have hal : (Allowance.fenced w.engine).revision x := hs.allowed hro
  cases x with
  | none =>
    have hze : w.engine.activeEpoch = 0 := Nat.le_zero.mp hal.1
    have hep : w'.engine.activeEpoch = 0 := hep
    have had : w'.engine.admitted = w.engine.admitted := had
    refine ⟨hs.confine_rooted (fun hc => hc) hro ⟨by simp [hep], by simp⟩,
      fun hh => ⟨none, hac hh, hep.symm⟩, by omega, ?_, ?_⟩
    · rw [had]
      exact hf.reloads
    · intro e s hes
      obtain ⟨hne, hle, -⟩ := hf.refreshes e s hes
      omega
  | some r =>
    have hep : w'.engine.activeEpoch = r.epoch := hep
    obtain ⟨hle, hr⟩ := hal
    obtain ⟨hz, hrs⟩ := hr r rfl
    have hle : w.engine.activeEpoch ≤ r.epoch := hle
    simp only [Engine.adoptActiveEpoch] at had hse
    have had' : r.epoch ≤ w'.engine.admitted ∧ w.engine.admitted ≤ w'.engine.admitted := by
      rw [had]
      split <;> omega
    have hse' : r.refreshSequence ≤ w'.engine.refreshSequence ∧
        (r.epoch = w.engine.activeEpoch → w.engine.refreshSequence ≤ w'.engine.refreshSequence) := by
      rw [hse]
      split
      · exact ⟨le_refl _, fun heq => absurd heq ‹_›⟩
      · split
        · exact ⟨le_refl _, fun _ => by omega⟩
        · exact ⟨by omega, fun _ => le_refl _⟩
    refine ⟨hs.confine_rooted (fun hc => hc) hro ⟨by rw [hep]; rfl, ?_⟩,
      fun hh => ⟨some r, hac hh, hep.symm⟩, by omega, ?_, ?_⟩
    · rintro _ ⟨⟩
      exact ⟨hz, fun _ => hse'.1⟩
    · intro n hn
      exact (hf.reloads n hn).trans had'.2
    · intro e s hes
      obtain ⟨hne, hle', hs'⟩ := hf.refreshes e s hes
      refine ⟨hne, by omega, fun heq => ?_⟩
      have hsa : r.epoch = w.engine.activeEpoch := by omega
      exact (hs' (by omega)).trans (hse'.2 hsa)

theorem Fenced.like {w' : World ω}
    (hs : Sound h (.fenced w.engine) w') (hl : w.engine.Like w'.engine)
    (hac : w'.engine.healthy = true → ∃ x, Idle h.content x w'.disk ∧
      epochOf x = w.engine.activeEpoch) : Fenced h events w' := by
  obtain ⟨had, hep, hse⟩ := hl
  refine ⟨?_, ?_, by rw [had, hep]; exact hf.admitted, ?_, ?_⟩
  · have heq : Allowance.fenced w'.engine = Allowance.fenced w.engine := by
      simp only [Allowance.fenced, hep, hse]
    rw [heq]
    exact hs
  · rw [hep]
    exact hac
  · rw [had]
    exact hf.reloads
  · rw [hep, hse]
    exact hf.refreshes

/-! ## One operation -/

theorem Fenced.same {events' : List Event} (hrel : admittedReloads events' = admittedReloads events)
    (hre : admittedRefreshes events' = admittedRefreshes events) : Fenced h events' w :=
  ⟨hf.sound, hf.active, hf.admitted, hrel ▸ hf.reloads, hre ▸ hf.refreshes⟩

end

theorem fenced_restart {e : Engine} {d : Disk}
    (hw : Sound h (.fenced e) w) (hd : w.disk.Survives d) (hnew : thisProcess events = []) :
    Fenced h events (w.restart d) where
  sound := by
    have hs : Sound h (.fenced e) (w.restart d) := Inv.survives (coupling h _ _) hw hd
    refine hs.confine (fun hc => hc) fun x hx _ _ => ⟨Nat.zero_le _, fun r hr => ?_⟩
    obtain ⟨hz, -⟩ := hx.2 r hr
    exact ⟨hz, fun h0 => absurd h0 hz⟩
  active hh := by cases hh
  admitted := Nat.le_refl 0
  reloads n hn := by simp [admittedReloads, hnew] at hn
  refreshes e s hes := by simp [admittedRefreshes, hnew] at hes

section

variable (hf : Fenced h events w)

include hf

theorem Fenced.admitEpoch {e : Engine} {n : Nat} (had : w.engine.admitEpoch = .ok (e, n)) :
    Fenced h (.returned .admitEpoch (.admitted n) :: events) { w with engine := e } := by
  obtain ⟨-, rfl, rfl⟩ := admitEpoch_eq_ok had
  refine ⟨hf.sound, hf.active, Nat.le_succ_of_le hf.admitted, ?_, hf.refreshes⟩
  intro n hn
  rcases mem_cons.mp hn with rfl | hn
  · exact Nat.le_refl _
  · exact Nat.le_succ_of_le (hf.reloads n hn)

theorem Fenced.admitRefresh {e : Engine}
    {ep n : Nat} (had : w.engine.admitRefresh ep = .ok (e, n)) :
    Fenced h (.returned (.admitRefresh ep) (.refreshed ep n) :: events)
      { w with engine := e } := by
  obtain ⟨-, hz, rfl, rfl, rfl⟩ := admitRefresh_eq_ok had
  refine ⟨?_, hf.active, hf.admitted, hf.reloads, ?_⟩
  · refine Sound.confine (S := .fenced w.engine) hf.sound (fun hc => hc) fun x hx _ _ =>
      ⟨hx.1, fun r hr => ⟨(hx.2 r hr).1, fun heq => ?_⟩⟩
    exact Nat.le_succ_of_le ((hx.2 r hr).2 heq)
  · intro e s hes
    rcases mem_cons.mp hes with heq | hes
    · cases heq
      exact ⟨hz, Nat.le_refl _, fun _ => Nat.le_refl _⟩
    · obtain ⟨hne, hle, hs⟩ := hf.refreshes e s hes
      exact ⟨hne, hle, fun heq => Nat.le_succ_of_le (hs heq)⟩

theorem Fenced.kept :
    ∃ x, epochOf x = w.engine.activeEpoch ∧
      (w.engine.healthy = true → Idle h.content x w.disk) := by
  by_cases hh : w.engine.healthy = true
  · obtain ⟨x, hidle, hx⟩ := hf.active hh
    exact ⟨x, hx, fun _ => hidle⟩
  · refine ⟨some ⟨2, 0, w.engine.activeEpoch, 0, none, "", {}, none⟩, rfl, fun h0 => ?_⟩
    exact absurd h0 hh

theorem Fenced.applied {c : Candidate}
    {x : Option Revision} {r : Applied} (hx : epochOf x = w.engine.activeEpoch)
    (hs : Sound h (.fenced w.engine) w')
    (hap : Applies h x c w.engine (r.1.adopted w.engine).Like r w') : Fenced h events w' := by
  obtain ⟨engine, ready, comm, -, -⟩ := hap
  cases hc : r.1.committed with
  | true =>
    obtain ⟨id, t, hac, hro⟩ := comm hc
    rw [Outcome.adopted, if_pos hc, hac] at engine
    refine hf.adopt hs hro engine fun hh => ?_
    have hrest := ready hh
    exact ⟨hrest.journal, hro.active, hro.stored⟩
  | false =>
    rw [Outcome.adopted, if_neg (by rw [hc]; decide)] at engine
    refine hf.like hs engine fun hh => ⟨x, ?_, hx⟩
    have hrest := ready hh
    rw [if_neg (by rw [hc]; decide)] at hrest
    exact ⟨hrest.journal, hrest.rooted.active, hrest.rooted.stored⟩

theorem Fenced.unrecovered (hs : Sound h (.fenced w.engine) w') (hun : Unrecovered h w.engine w') :
    Fenced h events w' := by
  have ho : w'.engine.healthy ≠ true := by simp [hun.1]
  rcases hun.2 with hl | ⟨x, hfi, hl⟩
  · exact hf.like hs hl fun hh => absurd hh ho
  · exact hf.adopt hs hfi.toRooted hl fun hh => absurd hh ho

end

section Running

variable {events : List Event} {event : Event} {c : Candidate} {x : Option Revision}

theorem Fenced.idles (hf : Fenced h events w)
    (hx : epochOf x = w.engine.activeEpoch) (hs : Sound h (.fenced w.engine) w')
    (hi : Idles h x w w') : Fenced h events w' :=
  hf.like hs hi.like fun hh => ⟨x, hi.healthy hh, hx⟩

theorem Fenced.allows (hf : Fenced h events w) {op : Op} (hop : op ≠ .cleanup) :
    op.Allowed (.fenced w.engine) w.engine := by
  cases op with
  | apply c => exact fun _ hc => hf.allowed hc
  | cleanup => exact absurd rfl hop
  | _ => trivial

theorem fenced_empty : Fenced h [] ({} : World ω) where
  sound := sound_empty ⟨Nat.le_refl 0, by simp⟩
  active hh := by cases hh
  admitted := Nat.le_refl 0
  reloads n hn := by cases hn
  refreshes e s hes := by cases hes

/-- What the fence guarantees of a candidate that commits. -/
structure Fresh (h : Host ω) (events : List Event) (w : World ω) (c : Candidate) : Prop where
  reload : c.refresh = 0 → ∀ n ∈ admittedReloads events, n ≤ c.epoch
  refresh : c.refresh ≠ 0 → ∃ r, Rooted h.content (some r) w.disk ∧ r.epoch = c.epoch ∧
    ∀ s, (c.epoch, s) ∈ admittedRefreshes events → s ≤ c.refresh

theorem Fenced.fresh {events : List Event} (hf : Fenced h events w) {c : Candidate}
    (hh : w.engine.isHealthy = true) (hc : w.engine.current c = true) : Fresh h events w c := by
  obtain ⟨-, hz, hrel, hre⟩ := hf.candidate hc
  refine ⟨fun h0 n hn => ?_, fun h0 => ?_⟩
  · rw [hrel h0]
    exact hf.reloads n hn
  · obtain ⟨hep, hse⟩ := hre h0
    obtain ⟨x, hidle, hx⟩ := hf.active (healthy_of_isHealthy hh)
    cases x with
    | none => exact absurd (hep.trans hx.symm) hz
    | some r =>
      refine ⟨r, ⟨hidle.active, hidle.prev⟩, hx.trans hep.symm, fun s hs => ?_⟩
      rw [hse]
      exact (hf.refreshes _ s hs).2.2 hep

theorem current_admitEpoch {e e' : Engine} {n : Nat} (hre : c.refresh ≠ 0)
    (had : e.admitEpoch = .ok (e', n)) : e'.current c = e.current c := by
  obtain ⟨-, -, rfl⟩ := admitEpoch_eq_ok had
  simp only [Engine.current, if_pos hre]

variable [DecidableEq ω]

theorem Fenced.recovered (hf : Fenced h events w)
    (hs : Sound h (.fenced w.engine) w') (hre : Recovered h w.engine true x w') :
    Fenced h events w' :=
  hf.adopt hs hre.1.toRooted hre.2.2.1 fun _ =>
    ⟨hre.1.journal.seen, hre.1.active, hre.1.stored⟩

/-- **Every operation but `Cleanup` keeps the fence.** -/
theorem Fenced.done (hf : Fenced h events w) {op : Op} {reply : Reply}
    (hx : epochOf x = w.engine.activeEpoch) (hs : Sound h (.fenced w.engine) w')
    (hd : Done h x w op reply w') (hop : op ≠ .cleanup) :
    Fenced h (.returned op reply :: events) w' := by
  cases op with
  | admitEpoch =>
    obtain ⟨e, n, had, rfl, rfl⟩ := hd
    exact hf.admitEpoch had
  | admitRefresh ep =>
    obtain ⟨e, n, had, rfl, rfl⟩ := hd
    exact hf.admitRefresh had
  | apply c =>
    obtain ⟨r, rfl, hap⟩ := hd
    exact (hf.applied hx hs hap).same rfl rfl
  | recover =>
    obtain ⟨y, rfl, hre⟩ := hd
    exact (hf.recovered hs hre).same rfl rfl
  | cleanup => exact absurd rfl hop
  | startup =>
    obtain ⟨rfl, y, hre⟩ := hd
    exact (hf.recovered hs hre).same rfl rfl
  | reconcile | close | stage m =>
    obtain ⟨rfl, hi⟩ := hd
    exact (hf.idles hx hs hi).same rfl rfl

theorem Fenced.fails (hf : Fenced h events w) {op : Op} {error : String}
    (hx : epochOf x = w.engine.activeEpoch) (hs : Sound h (.fenced w.engine) w')
    (hd : Fails h x w op w') (hop : op ≠ .cleanup) : Fenced h (.failed op error :: events) w' := by
  have hk : Fenced h events w' := by
    cases op with
    | admitEpoch | admitRefresh ep | reconcile | stage m => exact hf.idles hx hs hd
    | apply c | close => exact hd.elim
    | recover => exact hf.unrecovered hs hd
    | cleanup => exact absurd rfl hop
    | startup =>
      rcases hd with hun | ⟨y, hre⟩
      · exact hf.unrecovered hs hun
      · exact hf.recovered hs hre
  exact hk.same rfl rfl

/-- **One step** of a run. -/
theorem Fenced.step (hf : Fenced h events w)
    (hs : Step h w event w') (hop : event.op ≠ some .cleanup) : Fenced h (event :: events) w' := by
  obtain ⟨x, hx, hk⟩ := hf.kept
  have hne : ∀ op, event.op = some op → op ≠ .cleanup := by
    rintro op ho rfl
    exact hop ho
  cases event with
  | returned op reply =>
    have hno := hne op rfl
    obtain ⟨hs', hd⟩ := hs.done hf.sound hk (hf.allows hno)
    exact hf.done hx hs' hd hno
  | failed op error =>
    have hno := hne op rfl
    obtain ⟨hs', hd⟩ := hs.fails hf.sound hk (hf.allows hno)
    exact hf.fails hx hs' hd hno
  | crashed op =>
    obtain ⟨w₁, d, hs', hd, rfl⟩ := hs.cut hf.sound hk (hf.allows (hne op rfl))
    exact fenced_restart hs' hd rfl
  | restarted =>
    cases hs with
    | restarted hd => exact fenced_restart hf.sound hd rfl

/-- **Every run without `Cleanup`.** -/
theorem Reaches.fenced (hr : Reaches h {} events w)
    (ho : ∀ event ∈ events, event.op ≠ some .cleanup) : Fenced h events w := by
  induction hr with
  | refl => exact fenced_empty
  | step _ hs ih =>
    refine (ih fun event he => ho event (mem_cons_of_mem _ he)).step hs ?_
    exact ho _ mem_cons_self

/-! ## What commits -/

/-- What a step may leave active: what may have been active before, or the candidate it applies. -/
def Allowance.after (h : Host ω) (w : World ω) (op : Option Op) : Allowance where
  revision x := (x.map (·.id) ∈ w.disk.active.all ∧ ∀ r, x = some r → Holds h.content w.disk r) ∨
    ∃ c id t, op = some (.apply c) ∧ w.engine.isHealthy = true ∧ w.engine.current c = true ∧
      x = some (c.revision id t)
  cleanup := False
  empty := False.elim

/-- **Only an apply of a fresh candidate makes a revision active that was not.** -/
theorem Fenced.origin (hf : Fenced h events w)
    (hs : Step h w event w') (hop : event.op ≠ some .cleanup) {id : Id}
    (hnew : some id ∈ w'.disk.active.all) (hold : some id ∉ w.disk.active.all) :
    ∃ c t, event.op = some (.apply c) ∧ Holds h.content w'.disk (c.revision id t) ∧
      Fresh h events w c := by
  have haf : Sound h (.after h w event.op) w :=
    hf.sound.confine (fun hc => hc) fun x _ hx hr => Or.inl ⟨hx, hr⟩
  have hrest := hs.rest haf hf.ready (by
    intro op hev
    cases op with
    | apply c => exact fun hh hcu id t => Or.inr ⟨c, id, t, hev, hh, hcu, rfl⟩
    | cleanup => exact hop hev
    | _ => trivial)
  obtain ⟨x, hx, hid, hr⟩ := (hrest.1.pairs _ hnew _ w'.disk.journal.seen_mem).2.allowed
  rcases hx with ⟨hmem, -⟩ | ⟨c, id', t, hev, hh, hcu, rfl⟩
  · exact absurd (hid ▸ hmem) hold
  · cases hid
    exact ⟨c, t, hev, hr _ rfl, hf.fresh hh hcu⟩

theorem Fenced.step_apply {r : Applied}
    (hf : Fenced h events w) (hs : Step h w (.returned (.apply c) (.applied r)) w') :
    ∃ x, Applies h x c w.engine (r.1.adopted w.engine).Like r w' := by
  obtain ⟨x, -, hk⟩ := hf.kept
  obtain ⟨-, _, ⟨⟩, hap⟩ := hs.done hf.sound hk fun _ hc => hf.allowed hc
  exact ⟨x, hap⟩

/-- **What an apply reports as committed** was fresh, and is the active revision for certain. -/
theorem Fenced.commits {r : Applied}
    (hf : Fenced h events w) (hs : Step h w (.returned (.apply c) (.applied r)) w')
    (hc : r.1.committed = true) :
    Fresh h events w c ∧ ∃ id t, Rooted h.content (some (c.revision id t)) w'.disk := by
  obtain ⟨x, hap⟩ := hf.step_apply hs
  obtain ⟨hh, hcu⟩ := hap.fresh hc
  obtain ⟨id, t, -, hro⟩ := hap.committed hc
  exact ⟨hf.fresh hh hcu, id, t, hro⟩

theorem Fenced.step_since {ep : Nat}
    (hf : Fenced h events w) (hw : Sound h (.since ep) w) (hs : Step h w event w')
    (hop : event.op ≠ some .cleanup) : Sound h (.since ep) w' := by
  refine (hs.rest hw hf.ready ?_).1
  intro op hev
  cases op with
  | apply c =>
    intro hh hc id t
    obtain ⟨x, hidle, hx⟩ := hf.active (healthy_of_isHealthy hh)
    have hre : ep ≤ epochOf x := hw.allowed ⟨hidle.active, hidle.prev⟩
    exact (hx ▸ hre).trans (hf.candidate hc).1
  | cleanup => exact hop hev
  | _ => trivial

/-- **Epochs never go back**, in any run and across restarts. -/
theorem Fenced.run_since {later : List Event} {ep : Nat} (hf : Fenced h events w)
    (hw : Sound h (.since ep) w) (hr : Reaches h w later w')
    (ho : ∀ event ∈ later, event.op ≠ some .cleanup) :
    Sound h (.since ep) w' ∧ Fenced h (later ++ events) w' := by
  induction hr with
  | refl => exact ⟨hw, hf⟩
  | step _ hs ih =>
    obtain ⟨hw', hf'⟩ := ih fun event he => ho event (mem_cons_of_mem _ he)
    have hop := ho _ mem_cons_self
    exact ⟨hf'.step_since hw' hs hop, hf'.step hs hop⟩

/-! ## Refreshes outlive failed reloads -/

omit [DecidableEq ω] in
theorem current_adopt {e e' : Engine} {r : Revision}
    (hal : (Allowance.fenced e).revision (some r)) (hc : e.current c = true)
    (hre : c.refresh ≠ 0) (hr : r.epoch = c.epoch)
    (hl : (e.adoptActiveEpoch (some r)).Like e') : e'.current c = true := by
  rw [hl.current]
  by_cases hz : c.epoch = 0
  · simp [Engine.current, hz] at hc
  simp only [Engine.current, if_neg hz, if_pos hre, Bool.and_eq_true, decide_eq_true_eq] at hc ⊢
  have hsa : r.epoch = e.activeEpoch := hr.trans hc.1
  have hle : r.refreshSequence ≤ e.refreshSequence := (hal.2 r rfl).2 hsa
  refine ⟨hr.symm, ?_⟩
  simp only [Engine.adoptActiveEpoch, hsa, ne_eq, not_true_eq_false, if_false,
    if_neg (Nat.not_lt.mpr hle)]
  exact hc.2

/-- The steps a reload may take without committing: its admission, an apply that does not commit,
and the recovery, complete or not, that leaves a revision of the epoch of the refresh active. -/
inductive Uncommitted (h : Host ω) (epoch : Nat) : Event → World ω → Prop
  | admission {n : Nat} {w' : World ω} :
      Uncommitted h epoch (.returned .admitEpoch (.admitted n)) w'
  | apply {c : Candidate} {r : Applied} {w' : World ω} : r.1.committed = false →
      Uncommitted h epoch (.returned (.apply c) (.applied r)) w'
  | recovery {r : Revision} {w' : World ω} : r.epoch = epoch →
      Uncommitted h epoch (.returned .recover (.recovered (some r))) w'
  | failure {error : String} {r : Revision} {w' : World ω} :
      Rooted h.content (some r) w'.disk → r.epoch = epoch →
      Uncommitted h epoch (.failed .recover error) w'

theorem Fenced.refresh_kept
    (hf : Fenced h events w) (hs : Step h w event w') (hun : Uncommitted h c.epoch event w')
    (hre : c.refresh ≠ 0) (hc : w.engine.current c = true) : w'.engine.current c = true := by
  obtain ⟨x, -, hk⟩ := hf.kept
  cases hun with
  | @admission n =>
    obtain ⟨-, e, m, had, -, rfl⟩ := hs.done hf.sound hk trivial
    exact (current_admitEpoch hre had).trans hc
  | @apply c' r _ hco =>
    obtain ⟨x, hap⟩ := hf.step_apply hs
    have hl := hap.engine
    rw [Outcome.adopted, if_neg (by rw [hco]; decide)] at hl
    exact (hl.current c).trans hc
  | @recovery r _ hr =>
    obtain ⟨hso, _, ⟨⟩, hrec⟩ := hs.done hf.sound hk trivial
    exact current_adopt (hso.allowed hrec.1.toRooted) hc hre hr hrec.2.2.1
  | @failure error r _ hro hr =>
    obtain ⟨hso, -, hl | ⟨y, hfi, hl⟩⟩ := hs.fails hf.sound hk trivial
    · exact (hl.current c).trans hc
    · have hy : y = some r := holds_ext hfi.stored hro.stored
        (hfi.active.seen.symm.trans hro.active.seen)
      rw [hy] at hl
      exact current_adopt (hso.allowed hro) hc hre hr hl

/-! ## Freshness of commits -/

/-- **Admission freshness**, in every run without `Cleanup` and across restarts. A candidate becomes
active only by an apply that finds it fresh among the admissions of its process; a refresh that is
current stays so while a reload fails; and after a commit nothing of an older epoch is ever active or
committed again. -/
theorem fresh_commits {events : List Event} (hr : Reaches h {} events w)
    (hops : ∀ event ∈ events, event.op ≠ some .cleanup) :
    (∀ event w', Step h w event w' → event.op ≠ some .cleanup →
      (∀ id, some id ∈ w'.disk.active.all → some id ∉ w.disk.active.all →
        ∃ c t, event.op = some (.apply c) ∧ Holds h.content w'.disk (c.revision id t) ∧
          Fresh h events w c) ∧
      (∀ c r, event = .returned (.apply c) (.applied r) → r.1.committed = true →
        Fresh h events w c ∧ ∃ id t, Rooted h.content (some (c.revision id t)) w'.disk) ∧
      ∀ c, c.refresh ≠ 0 → w.engine.current c = true → Uncommitted h c.epoch event w' →
        w'.engine.current c = true) ∧
    ∀ r later w', Rooted h.content (some r) w.disk → Reaches h w later w' →
      (∀ event ∈ later, event.op ≠ some .cleanup) →
      (∀ a ∈ w'.disk.active.all, ∃ r', a = some r'.id ∧ Holds h.content w'.disk r' ∧
        r.epoch ≤ r'.epoch) ∧
      ∀ c o w'', Step h w' (.returned (.apply c) (.applied o)) w'' → o.1.committed = true →
        r.epoch ≤ c.epoch := by
  have hf := hr.fenced hops
  refine ⟨fun event w' hs hop => ⟨fun id hnew hold => hf.origin hs hop hnew hold, ?_, ?_⟩, ?_⟩
  · rintro c r rfl hco
    exact hf.commits hs hco
  · intro c hre hcu hun
    exact hf.refresh_kept hs hun hre hcu
  · intro r later w' hro hl ho'
    have hsi : Sound h (.since r.epoch) w :=
      hf.sound.confine_rooted (fun hc => hc) hro (Nat.le_refl _)
    have hz : r.epoch ≠ 0 := ((hf.sound.allowed hro).2 r rfl).1
    obtain ⟨hw', hf'⟩ := hf.run_since hsi hl ho'
    refine ⟨fun a ha => ?_, fun c o w'' hs hco => ?_⟩
    · obtain ⟨x, hx, rfl, hh⟩ := (hw'.pairs a ha _ w'.disk.journal.seen_mem).2.allowed
      cases x with
      | none => exact absurd (Nat.le_zero.mp hx) hz
      | some r' => exact ⟨r', rfl, hh r' rfl, hx⟩
    · obtain ⟨-, id, t, hr'⟩ := hf'.commits hs hco
      have hw'' := hf'.step_since hw' hs (by simp [Event.op])
      exact hw''.allowed hr'

end Running

theorem fresh_commits_sample : Fresh sampleHost sampleEvents sampleAdmitted sampleCandidate :=
  (((fresh_commits reaches_sampleAdmitted (by decide +kernel)).1 _ _ step_sampleApplied
    (by simp [Event.op])).2.1 _ _ rfl rfl).1

/-! ## Admissions do not outlive their process

The counters are rebuilt from the active revision, so what was admitted and never committed leaves no
trace: the next process hands the same epochs out again. -/

/-- Two reloads are admitted, neither commits, and the machine stops; the new process admits a
reload. -/
def reloadScript : List (Op × List (Fate (Move Nat))) :=
  [(.recover, recoverAnswers 8), (.admitEpoch, []), (.admitEpoch, []), (.recover, []),
    (.recover, recoverAnswers 8), (.admitEpoch, [])]

def sampleRefresh : Candidate := { sampleCandidate with refresh := 1 }

/-- Two refreshes of an applied revision are admitted, neither commits, and the machine stops; the
new process reapplies the active revision and admits a refresh. -/
def refreshScript : List (Op × List (Fate (Move Nat))) :=
  [(.recover, recoverAnswers 8), (.admitEpoch, []), (.apply sampleCandidate, applyAnswers 7 18 [7] 40),
    (.admitRefresh 1, []), (.admitRefresh 1, []), (.recover, []),
    (.recover, List.replicate 20 .ok ++ .choose (.change [7] true) :: recoverAnswers 29 ++
      List.replicate 17 .ok), (.admitRefresh 1, [])]

theorem commits_below_earlier_process :
    (∃ events w w' r, Reaches sampleHost {} events w ∧
      (∀ event ∈ events, event.op ≠ some .cleanup) ∧
      Step sampleHost w (.returned (.apply sampleCandidate) (.applied r)) w' ∧
      r.1.committed = true ∧ sampleCandidate.refresh = 0 ∧ sampleCandidate.epoch = 1 ∧
      .returned .admitEpoch (.admitted 2) ∈ events) ∧
    ∃ events w w' r, Reaches sampleHost {} events w ∧
      (∀ event ∈ events, event.op ≠ some .cleanup) ∧
      Step sampleHost w (.returned (.apply sampleRefresh) (.applied r)) w' ∧
      r.1.committed = true ∧ sampleRefresh.epoch = 1 ∧ sampleRefresh.refresh = 1 ∧
      .returned (.admitRefresh 1) (.refreshed 1 2) ∈ events := by
  constructor
  · let run := plays sampleHost reloadScript [] {}
    exact ⟨run.1, run.2, (play sampleHost (.apply sampleCandidate) (applyAnswers 7 18 [7] 40) run.2).2,
      (⟨some 7, true, false, some (sampleCandidate.recorded 7)⟩, none), .plays _ (.refl _) _,
      by decide +kernel, step_play _ (by decide +kernel), rfl, rfl, rfl, by decide +kernel⟩
  · let run := plays sampleHost refreshScript [] {}
    -- The refresh has the content of the revision before, and so its generation.
    exact ⟨run.1, run.2, (play sampleHost (.apply sampleRefresh) (applyAnswers 8 20 [7] 60) run.2).2,
      (⟨some 8, true, false, some (sampleRefresh.revision 8 (sampleCandidate.recorded 7).target)⟩, none),
      .plays _ (.refl _) _, by decide +kernel, step_play _ (by decide +kernel), rfl, rfl, rfl,
      by decide +kernel⟩

end Perimeterd.App
