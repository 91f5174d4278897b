import Perimeterd.App.Transact

/-!
# Specification of `Apply`

A healthy engine has no journal before it. From there `Apply` either returns early, with nothing
touched, or runs a transaction and publishes its outcome.
-/

namespace Perimeterd.App

open Lib Firewall State

variable {ω : Type} {h : Host ω} {S : Allowance} {G : Engine → Prop}
  {w : World ω} {kept : Option Revision} {c : Candidate} {e₀ : Engine}

/-- Two engines agree on everything that admission looks at. -/
def Engine.Like (e₀ e : Engine) : Prop :=
  e.admitted = e₀.admitted ∧ e.activeEpoch = e₀.activeEpoch ∧ e.refreshSequence = e₀.refreshSequence

variable {e : Engine} {E : String → World ω → Prop} {P : World ω → Prop}

theorem Engine.Like.refl (e : Engine) : e.Like e := ⟨rfl, rfl, rfl⟩

theorem Engine.Like.current (he : e₀.Like e) (c : Candidate) : e.current c = e₀.current c := by
  simp only [Engine.current, he.1, he.2.1, he.2.2]

theorem Engine.Like.adopt (he : e₀.Like e) (x : Option Revision) :
    (e₀.adoptActiveEpoch x).Like (e.adoptActiveEpoch x) := by
  cases x with
  | none => exact ⟨he.1, rfl, rfl⟩
  | some r =>
    refine ⟨?_, rfl, ?_⟩
    · simp only [Engine.adoptActiveEpoch, he.1]
    · simp only [Engine.adoptActiveEpoch, he.2.1, he.2.2]

/-- No journal is seen and the kernel selects the target of the active revision. -/
structure AtRest (h : Host ω) (x : Option Revision) (w : World ω) : Prop where
  journal : w.disk.journal.seen = none
  rooted : Rooted h.content x w.disk
  selected : w.native.selected = x.bind (·.target)

theorem Sound.atRest (hw : Sound h S w) (hidle : Idle h.content kept w.disk) : AtRest h kept w := by
  refine ⟨hidle.journal, ⟨hidle.active, hidle.prev⟩, ?_⟩
  have hc := hw.coupled
  rw [hidle.journal, hidle.active.seen] at hc
  obtain ⟨x, hst, hfits, hse⟩ := hc.selected
  rw [hse, holds_ext (fun r hr => (hst r hr).2) hidle.prev hfits]

structure Applies (h : Host ω) (kept : Option Revision) (c : Candidate) (e₀ : Engine)
    (G : Engine → Prop) (r : Applied) (w : World ω) : Prop where
  engine : G w.engine
  ready : w.engine.healthy = true → AtRest h (if r.1.committed then r.1.active else kept) w
  committed : r.1.committed = true → ∃ id t, r.1.active = some (c.revision id t) ∧
    Rooted h.content (some (c.revision id t)) w.disk
  fresh : r.1.committed = true → e₀.isHealthy = true ∧ e₀.current c = true
  settled : r.1.degraded = false → w.engine.healthy = true

/-- The state in which an apply may begin. -/
def Begin (h : Host ω) (kept : Option Revision) (e₀ : Engine) : World ω → Prop :=
  Mid (Idle h.content kept) (fun _ => True) fun e => e₀.Like e ∧ e.isHealthy = true

theorem healthy_of_isHealthy (he : e.isHealthy = true) : e.healthy = true := by
  simp only [Engine.isHealthy, Bool.and_eq_true] at he
  exact he.1

theorem applies_early (hw : Sound h S w) (hP : Begin h kept e₀ w) {active : Option Revision}
    {degraded : Bool} {error : Option String} :
    Applies h kept c e₀ e₀.Like (⟨none, false, degraded, active⟩, error) w := by
  exact ⟨hP.2.2.1, fun _ => hw.atRest hP.1, fun hc => (by cases hc), fun hc => (by cases hc),
    fun _ => healthy_of_isHealthy hP.2.2.2⟩

theorem keeps_unchanged {error : String} :
    Keeps (Sound h S) (Begin h kept e₀) (unchanged kept error) (Applies h kept c e₀ e₀.Like) E := by
  refine .bind .look fun _ => ?_
  exact .pure fun w hI hP => applies_early hI hP

theorem keeps_fail {error : String} :
    Keeps (Sound h S) (fun w => e₀.Like w.engine) (fail error) (Applies h kept c e₀ e₀.Like) E := by
  refine .bind (R := fun _ w => e₀.Like w.engine ∧ w.engine.healthy = false)
    (.change fun w hI hP => ⟨hI, hP, rfl⟩) fun _ => ?_
  refine .pure fun w _ hP => ⟨hP.1, ?_, fun hc => (by cases hc),
    fun hc => (by cases hc), fun hd => (by cases hd)⟩
  intro hh
  rw [hP.2] at hh
  cases hh

theorem keeps_transactionID :
    Keeps (Sound h S) P transactionID (fun id w => P w ∧ (w.disk.revisions id).seen = none)
      (fun _ => P) := by
  refine .step fun fate w hI hP => ?_
  match fate with
  | .ok => exact ⟨hI, hP⟩
  | .fail => exact ⟨hI, hP⟩
  | .choose (.change _ _) => exact ⟨hI, hP⟩
  | .choose (.progress _) => exact ⟨hI, hP⟩
  | .choose (.identity id) =>
    by_cases hf : (w.disk.revisions id).seen = none
    · simp only [if_pos hf]
      exact ⟨hI, hP, hf⟩
    · simp only [if_neg hf]
      exact ⟨hI, hP⟩

theorem keeps_decideStep {Q : Bool → World ω → Prop} {f : Bool → World ω → World ω}
    (hf : ∀ b w, Sound h S w → P w → Sound h S (f b w) ∧ Q b (f b w)) :
    Keeps (Sound h S) P (decideStep f) Q E := by
  refine .step fun fate w hI hP => ?_
  cases fate with
  | ok => exact hf true w hI hP
  | fail => exact hf false w hI hP
  | choose m => exact hf false w hI hP

theorem keeps_stageDynamic {id : Id} {tgt : Option Target} :
    Keeps (Sound h S) P (stageDynamic c id tgt) (fun _ => P) (fun _ => P) := by
  rw [stageDynamic]
  by_cases hen : c.cfg.crowdsec.enabled = true
  · rw [if_pos hen]
    refine .bind keeps_check fun _ => ?_
    refine .bind (R := fun _ => P) (keeps_decideStep fun _ _ hI hP => ⟨hI, hP⟩) fun _ => ?_
    exact .done
  · rw [if_neg hen]
    exact .done

section Applying

variable {E : String → World ω → Prop}

theorem keeps_finishApply {r : Applied} {E : String → World ω → Prop} {comm : Bool} :
    Keeps (Sound h S) (Applies h kept c e₀ e₀.Like r) (finishApply comm)
      (fun _ => Applies h kept c e₀ e₀.Like r) E := by
  cases comm with
  | false => exact .done
  | true =>
    refine .bind (R := fun _ => Applies h kept c e₀ e₀.Like r) ?_
      fun _ => .done
    refine keeps_decideStep fun b w hI hP => ?_
    cases b with
    | false => exact ⟨hI, hP⟩
    | true =>
      refine ⟨hI, hP.engine, fun hh => ?_, hP.committed, hP.fresh, hP.settled⟩
      obtain ⟨hj, hr, hs⟩ := hP.ready hh
      exact ⟨hj, hr, hs⟩

/-- What an `Apply` makes of the admission state. -/
def Outcome.adopted (o : Outcome) (e₀ : Engine) : Engine :=
  if o.committed then e₀.adoptActiveEpoch o.active else e₀

theorem keeps_publish {r : Applied} {E : String → World ω → Prop} :
    Keeps (Sound h S) (Applies h kept c e₀ e₀.Like r) (publish r)
      (fun r' => Applies h kept c e₀ (r'.1.adopted e₀).Like r') E := by
  obtain ⟨⟨tr, comm, degraded, active⟩, error⟩ := r
  cases comm with
  | false =>
    refine .pure fun w _ hP => ?_
    exact ⟨hP.engine, hP.ready, hP.committed, hP.fresh, hP.settled⟩
  | true =>
    cases active with
    | none =>
      intro w l _ hP
      obtain ⟨_, _, ha, _⟩ := hP.committed rfl
      cases ha
    | some a =>
      refine .bind (R := fun _ => Applies h kept c e₀ (e₀.adoptActiveEpoch (some a)).Like
        (⟨tr, true, degraded, some a⟩, error)) ?_ fun _ => ?_
      · refine .change fun w hI hP => ⟨hI, hP.engine.adopt (some a), fun hh => ?_,
          hP.committed, hP.fresh, hP.settled⟩
        obtain ⟨hj, hr, hs⟩ := hP.ready hh
        exact ⟨hj, hr, hs⟩
      cases degraded with
      | true => exact .pure fun _ _ h => h
      | false =>
        refine .handle keeps_check (fun e => ?_) fun _ => .pure fun _ _ h => h
        refine .bind (R := fun _ w => Applies h kept c e₀
          (e₀.adoptActiveEpoch (some a)).Like (⟨tr, true, true, some a⟩, error) w) ?_
          fun _ => ?_
        · refine .change fun w hI hP => ⟨hI, hP.engine, fun hh => (by cases hh),
            hP.committed, hP.fresh, ?_⟩
          intro hd
          cases hd
        · exact .pure fun w _ hP => ⟨hP.engine, hP.ready, hP.committed, hP.fresh, hP.settled⟩

variable [DecidableEq ω]

theorem Result.applies {id : Id} {t : Option Target} {r : Applied}
    (hfr : e₀.isHealthy = true ∧ e₀.current c = true)
    (hr : Result h kept (c.revision id t) e₀.Like r w) : Applies h kept c e₀ e₀.Like r w := by
  refine ⟨hr.engine, ?_, ?_, fun _ => hfr, ?_⟩
  · intro hh
    rw [hr.health, Bool.not_eq_true'] at hh
    obtain ⟨hf, hre⟩ := hr.settled hh
    by_cases hc : r.1.committed = true
    · rw [Outcome.revision, if_pos hc] at hf hre
      rw [if_pos hc, (hr.committed hc).1]
      exact ⟨hf.journal.seen, hf.toRooted, hre.1⟩
    · rw [Outcome.revision, if_neg hc] at hf hre
      rw [if_neg hc]
      exact ⟨hf.journal.seen, hf.toRooted, hre.1⟩
  · intro hc
    exact ⟨id, t, hr.committed hc⟩
  · intro hd
    rw [hr.health, hd]
    rfl

theorem keeps_buildAndTransact (hf : e₀.isHealthy = true ∧ e₀.current c = true)
    (hS : ∀ id t, S.revision (some (c.revision id t))) (id : Id) :
    Keeps (Sound h S) (fun w => Begin h kept e₀ w ∧ (w.disk.revisions id).seen = none)
      (buildAndTransact h c kept id) (Applies h kept c e₀ e₀.Like) E := by
  have hu : ∀ error, Keeps (Sound h S)
      (fun w => Begin h kept e₀ w ∧ (w.disk.revisions id).seen = none)
      (unchanged kept error) (Applies h kept c e₀ e₀.Like) E :=
    fun error => keeps_unchanged.pre fun _ _ hP => hP.1
  refine .handle (.lift (fun _ _ _ _ hP => hP) fun _ _ _ _ hP => hP) hu fun built => ?_
  refine .handle keeps_check hu fun _ => ?_
  refine .handle keeps_check hu fun _ => ?_
  refine .handle keeps_stageDynamic
    (fun _ => Keeps.pure fun w hI hP => applies_early hI hP.1) fun target => ?_
  refine .handle (.lift (fun _ _ _ _ hP => hP) fun _ _ _ _ hP => hP) hu fun _ => ?_
  refine .handle keeps_check hu fun _ => ?_
  refine (keeps_transact (G := e₀.Like) (N := fun _ => True) (fun e b he => he)
    (hS id target)).conseq ?_ (fun r w _ hr => hr.applies hf) fun _ _ _ hE => hE
  rintro w _ ⟨⟨-, -, hl, -⟩, hfr⟩
  exact ⟨Or.inl hfr, trivial, hl⟩

def Starts (h : Host ω) (kept : Option Revision) (e₀ : Engine) (w : World ω) : Prop :=
  (e₀.healthy = true → Idle h.content kept w.disk) ∧ w.engine = e₀

omit [DecidableEq ω] in
theorem Starts.applies (hw : Sound h S w) (hP : Starts h kept e₀ w) {error : Option String} :
    Applies h kept c e₀ e₀.Like (⟨none, false, e₀.degraded, none⟩, error) w := by
  obtain ⟨hidle, rfl⟩ := hP
  refine ⟨Engine.Like.refl _, fun hh => hw.atRest (hidle hh), fun hc => (by cases hc),
    fun hc => (by cases hc), fun hd => ?_⟩
  exact healthy_of_isHealthy (by simpa [Engine.degraded] using hd)

/-- **`applyLocked`.** -/
theorem keeps_applyLocked (hS : e₀.isHealthy = true → e₀.current c = true →
      ∀ id t, S.revision (some (c.revision id t))) :
    Keeps (Sound h S) (Starts h kept e₀) (applyLocked h c) (Applies h kept c e₀ e₀.Like) E := by
  refine .bind (R := fun engine w => Starts h kept e₀ w ∧ engine = e₀)
    (.observe fun _ _ hP => ⟨hP, hP.2⟩) fun engine => ?_
  refine .given (fun _ _ hP => hP.2) fun hen => ?_
  rw [hen]
  refine .pre (P := Starts h kept e₀) ?_ fun _ _ hP => hP.1
  refine .handle (R := fun _ w => Begin h kept e₀ w ∧ e₀.isHealthy = true)
    (F := fun _ => Starts h kept e₀) ?_
    (fun error => Keeps.pure fun w hI hP => hP.applies hI) fun _ => ?_
  · refine .bind (R := fun _ w => Starts h kept e₀ w ∧ e₀.isHealthy = true) ?_ fun _ => ?_
    · refine .lift ?_ fun _ _ _ _ hP => hP
      rintro ⟨⟩ hst w _ hP
      refine ⟨hP, ?_⟩
      rw [Engine.startError, ite_throw_eq_ok, ite_throw_eq_ok, Engine.degraded] at hst
      simpa using hst.2.1
    · refine keeps_check.post ?_ fun _ _ _ hP => hP.1
      rintro _ w _ ⟨⟨hidle, rfl⟩, hh⟩
      exact ⟨⟨hidle (healthy_of_isHealthy hh), trivial, Engine.Like.refl _, hh⟩, hh⟩
  refine .given (fun _ _ hP => hP.2) fun hh => ?_
  refine .handle (R := fun _ w => Begin h kept e₀ w ∧ e₀.current c = true)
    (F := fun _ => Begin h kept e₀) ?_ (fun _ => Keeps.pure fun w hI hP => applies_early hI hP)
    fun _ => ?_
  · exact .ensure (fun hc _ _ hP => ⟨hP.1, hc⟩) fun _ _ _ hP => hP.1
  refine .given (fun _ _ hP => hP.2) fun hc => ?_
  refine .pre (P := Begin h kept e₀) ?_ fun _ _ hP => hP.1
  refine .handle keeps_read (fun _ => keeps_fail.pre fun w _ hP => hP.2.2.1) fun view => ?_
  by_cases hj : view.journal.isSome = true
  · rw [if_pos hj]
    exact keeps_fail.pre fun w _ hP => hP.1.2.2.1
  rw [if_neg hj]
  refine .given (φ := view.active = kept)
    (fun w _ hP => viewed_active hP.2 ⟨hP.1.1.active, hP.1.1.prev⟩) fun hvi => ?_
  rw [hvi]
  refine .handle keeps_transactionID
    (fun _ => Keeps.pure fun w hI hP => applies_early hI hP.1) fun id => ?_
  exact (keeps_buildAndTransact ⟨hh, hc⟩ (hS hh hc) id).pre fun w _ hP => ⟨hP.1.1, hP.2⟩

/-- **`Apply`**, from a world whose healthy engine has no transaction pending. -/
theorem keeps_applyEngine (kept : Option Revision) (e₀ : Engine)
    (hS : e₀.isHealthy = true → e₀.current c = true →
      ∀ id t, S.revision (some (c.revision id t))) :
    Keeps (Sound h S) (Starts h kept e₀) (apply h c)
      (fun r => Applies h kept c e₀ (r.1.adopted e₀).Like r) E := by
  refine .handle keeps_check (fun e => ?_) fun _ => ?_
  · refine .bind (R := fun degraded w => Starts h kept e₀ w ∧ degraded = e₀.degraded) ?_
      fun degraded => ?_
    · exact .observe fun _ _ hP => ⟨hP, by rw [hP.2]⟩
    · refine .pure ?_
      rintro w hI ⟨hP, rfl⟩
      exact hP.applies hI
  · refine .bind (keeps_applyLocked hS) fun r => ?_
    exact .bind keeps_finishApply fun _ => keeps_publish

end Applying

end Perimeterd.App
