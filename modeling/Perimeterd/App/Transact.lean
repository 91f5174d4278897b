import Perimeterd.App.Backend

/-!
# Specification of an apply

`Result` is what every path of `applyLocked` after the durable preparation establishes: an outcome
that is not degraded leaves no journal, and the kernel rests on the revision the outcome stands for;
an outcome that is committed has the candidate for certain as the active revision, degraded or not.
-/

namespace Perimeterd.App

open Lib Firewall State

variable {ω : Type} {h : Host ω} {S : Allowance} {n : Native ω}
  {d : Disk} {G : Engine → Prop} {prev : Option Revision} {c : Revision}

theorem viewed_active {content : Revision → Except String Unit} {v : View} {x : Option Revision}
    (hv : Viewed content d v) (hx : Rooted content x d) : v.active = x :=
  holds_ext (fun r hr => hv.holds r (hv.mem_active r hr)) hx.stored (hv.active.trans hx.active.seen)

variable {N : Native ω → Prop} {E : String → World ω → Prop}

/-- The transaction with a certain active record. -/
def Open (h : Host ω) (previous : Option Revision) (candidate : Revision) (a : Option Id)
    (d : Disk) : Prop := Pending h.content previous candidate d ∧ d.active.Only a

theorem open_steady (a : Option Id) : Steady (Open h prev c a) :=
  (pending_steady prev c).and (only_steady_active a)

theorem keeps_markPhase_open {a : Option Id} {N : Native ω → Prop} (phase : Phase) :
    Keeps (Sound h S) (Mid (Open h prev c a) N G)
      (onDisk (markPhase h.content phase)) (fun _ => Mid (Open h prev c a) N G)
      (fun _ => Mid (Open h prev c a) N G) := by
  have hl : Lasting fun d => ((∀ p, prev = some p → Holds h.content d p) ∧
      ∀ r, some c = some r → Holds h.content d r) ∧ d.active.Only a :=
    ((lasting_holds prev).and (lasting_holds (some c))).and (lasting_active a)
  refine keeps_store fun n _ => (keeps_markPhase (coupling h S n) hl.steady hl.journal
    (applyJournal prev c).core phase).conseq ?_ ?_ ?_
  · rintro d _ ⟨hp, ha⟩
    refine ⟨hp.versions, ⟨hp.prev, ?_⟩, ha⟩
    rintro r ⟨⟩
    exact hp.cand
  · rintro _ d _ ⟨hv, ⟨hp, hc⟩, ha⟩
    exact ⟨⟨hv, hp, hc c rfl⟩, ha⟩
  · rintro _ d _ ⟨hv, ⟨hp, hc⟩, ha⟩
    exact ⟨⟨hv, hp, hc c rfl⟩, ha⟩

theorem Open.rooted (hd : Open h prev c (some c.id) d) : Rooted h.content (some c) d := by
  refine ⟨hd.2, ?_⟩
  rintro r ⟨⟩
  exact hd.1.cand

theorem Sound.pending_seen {w : World ω} (hw : Sound h S w) (hp : Pending h.content prev c w.disk)
    (hne : w.disk.active.seen ≠ some c.id) : w.disk.active.seen = prev.map (·.id) := by
  obtain ⟨jr, hjr, hc⟩ := hp.versions.seen
  obtain ⟨hop, hpr, hca, -, -, -⟩ := Journal.core_fields hc
  have hag := hw.pair.agree jr hjr hop
  rw [Agrees, hpr, hca] at hag
  by_cases hno : w.disk.active.seen = none
  · rw [hno]
    exact (hag.1 hno).symm
  · exact (hag.2 hno).resolve_right hne

theorem keeps_readActive {kept : Option Revision} {N : Native ω → Prop} {D : Disk → Prop}
    (hD : ∀ d, D d → Rooted h.content kept d) :
    Keeps (Sound h S) (Mid D N G) (readActive h) (fun x w => x = kept ∧ Mid D N G w)
      (fun _ => Mid D N G) := by
  refine .bind (keeps_store fun n _ => keeps_readView) fun v => ?_
  exact .pure fun w _ hP => ⟨viewed_active hP.1.2 (hD _ hP.1.1), hP.1.1, hP.2⟩

variable [DecidableEq ω]

/-- The revision an outcome stands for. -/
def Outcome.revision (o : Outcome) (previous : Option Revision) (candidate : Revision) :
    Option Revision := if o.committed then some candidate else previous

structure Result (h : Host ω) (previous : Option Revision) (candidate : Revision)
    (G : Engine → Prop) (r : Applied) (w : World ω) : Prop where
  engine : G w.engine
  health : w.engine.healthy = !r.1.degraded
  committed : r.1.committed = true → r.1.active = some candidate ∧
    Rooted h.content (some candidate) w.disk
  settled : r.1.degraded = false → Finished h.content (r.1.revision previous candidate) w.disk ∧
    Rests h ((r.1.revision previous candidate).bind (·.target)) w.native

/-! ## Degraded outcomes -/

section

variable (hG : ∀ e b, G e → G { e with healthy := b })

include hG

variable {D : Disk → Prop} {error : String}

theorem keeps_degradedOutcome
    {tr : Option Id} {comm : Bool} {active : Option Revision} (hc : comm = true → active = some c ∧
      ∀ d, D d → Rooted h.content (some c) d) :
    Keeps (Sound h S) (Mid D N G) (degradedOutcome tr comm active error) (Result h prev c G) E := by
  refine .bind (R := fun _ => Mid D N fun e => G e ∧ e.healthy = false)
    (keeps_onEngine fun e he => ⟨hG e false he, rfl⟩) fun _ => ?_
  refine .pure fun w _ hP => ⟨hP.2.2.1, hP.2.2.2, ?_, ?_⟩
  · intro hco
    exact ⟨(hc hco).1, (hc hco).2 _ hP.1⟩
  · intro hd
    cases hd

theorem keeps_uncommitted
    {tr : Option Id} {active : Option Revision} :
    Keeps (Sound h S) (Mid D N G) (degradedOutcome tr false active error) (Result h prev c G) E :=
  keeps_degradedOutcome hG (by simp)

theorem keeps_committedFailure (hD : ∀ d, D d → Rooted h.content (some c) d) :
    Keeps (Sound h S) (Mid D N G) (committedFailure h c error) (Result h prev c G) E := by
  refine .bind (R := fun _ => Mid D N G) (keeps_onEngine fun e he => hG e false he) fun _ => ?_
  refine .handle (keeps_store fun n _ => keeps_readView) (fun e => ?_) fun view => ?_
  · exact keeps_degradedOutcome hG fun _ => ⟨rfl, hD⟩
  · by_cases hva : view.active = some c
    · exact keeps_degradedOutcome hG fun _ => ⟨by rw [hva]; rfl, fun d h => hD d h.1⟩
    · intro w l _ hP
      exact absurd (viewed_active hP.1.2 (hD _ hP.1.1)) hva

end

/-! ## Steps of a transaction -/

theorem keeps_applyBackend {source sink : Option Target} {R : Disk → Prop}
    (hsi : Sides prev c source sink) (hR : Lasting R) :
    Keeps (Sound h S) (Mid (fun d => Pending h.content prev c d ∧ R d)
        (fun _ => True) G) (applyBackend h source sink)
      (fun _ => Mid (fun d => Pending h.content prev c d ∧ R d) (fun n => n.selected = sink) G)
      (fun _ => Mid (fun d => Pending h.content prev c d ∧ R d) (fun _ => True) G) := by
  rw [applyBackend]
  by_cases hd : (isDynamic source || isDynamic sink) = true
  · rw [if_pos hd]
    exact .bind keeps_check fun _ => keeps_apply hsi hR
  · rw [if_neg hd]
    exact keeps_apply hsi hR

theorem coupled_rests {kept : Option Revision} {j : Option Journal} {n' : Native ω}
    (hc : Coupled h S n d (kept.map (·.id)) j) (hke : Rooted h.content kept d)
    (hqu : n'.conflict = n.conflict) (hn : Rests h (kept.bind (·.target)) n') :
    Coupled h S n' d (kept.map (·.id)) none := by
  refine ⟨hqu.trans hc.quiet, ?_, ⟨kept, ?_, rfl, hn.1⟩, hc.allowed, by simp⟩
  · intro o ho
    obtain ⟨t, ht, hot⟩ := owns_iff.mp (hn.2 o ho)
    obtain ⟨r, hr, hrt⟩ := Option.bind_eq_some_iff.mp (Option.mem_toList.mp ht)
    exact ⟨r, t, Or.inl (by rw [hr]; rfl), hke.stored r hr, hrt, hot⟩
  · intro r hr
    exact ⟨Or.inl (by rw [hr]; rfl), hke.stored r hr⟩

theorem keeps_finishRests (kept : Option Revision) (c : Journal) :
    Keeps (Sound h S) (Mid (fun d => Versions c d ∧ Rooted h.content kept d)
        (Rests h (kept.bind (·.target))) G) (onDisk (finish h.content))
      (fun _ => Mid (Finished h.content kept) (Rests h (kept.bind (·.target))) G)
      (fun _ => Mid (Rooted h.content kept) (Rests h (kept.bind (·.target))) G) := by
  refine keeps_store fun n hn => (keeps_finish (coupling h S n) kept c).pre ?_
  rintro d hI ⟨hve, hro⟩
  have hc := hI.coupled
  rw [hro.active.seen] at hc
  exact ⟨hve, hro, coupled_rests hc hro rfl hn⟩

/-! ## The paths of an apply -/

/-- **Rollback.** -/
theorem keeps_rollback (hG : ∀ e b, G e → G { e with healthy := b })
    {original : String} :
    Keeps (Sound h S) (Mid (Open h prev c (prev.map (·.id))) N G)
      (rollback h prev c original) (Result h prev c G) E := by
  have hsi : Sides prev c c.target (prev.bind (·.target)) := Or.inr ⟨rfl, rfl⟩
  refine .handle keeps_check (fun _ => keeps_uncommitted hG) fun _ => ?_
  refine .handle ((keeps_applyBackend hsi (lasting_active _)).pre
    fun w _ hP => ⟨hP.1, trivial, hP.2.2⟩) (fun _ => keeps_uncommitted hG) fun _ => ?_
  refine .handle (keeps_retire hsi (lasting_active _)) (fun _ => keeps_uncommitted hG) fun _ => ?_
  refine .handle (keeps_store fun n _ => keeps_stabilize (coupling h S n) (open_steady _))
    (fun _ => keeps_uncommitted hG) fun _ => ?_
  refine .handle ((keeps_finishRests prev _).pre fun w _ hP =>
    ⟨⟨hP.1.1.1.versions, hP.1.1.2, hP.1.1.1.prev⟩, hP.2⟩) (fun _ => keeps_uncommitted hG)
    fun _ => ?_
  refine .bind (R := fun _ => Mid (Finished h.content prev)
    (Rests h (prev.bind (·.target))) fun e => G e ∧ e.healthy = true)
    (keeps_onEngine fun e he => ⟨hG e true he, rfl⟩) fun _ => ?_
  refine .pure fun w _ hP => ⟨hP.2.2.1, hP.2.2.2, fun hc => ?_, fun _ => ⟨hP.1, hP.2.1⟩⟩
  cases hc

theorem keeps_retireFinish (hG : ∀ e b, G e → G { e with healthy := b }) (f : String → String)
    {next : Action ω Applied}
    (hne : Keeps (Sound h S) (Mid (Finished h.content (some c))
      (Rests h c.target) G) next (Result h prev c G) E) :
    Keeps (Sound h S) (Mid (Open h prev c (some c.id)) (fun n => n.selected = c.target) G)
      (Proc.handle (retireBackend h (prev.bind (·.target)) c.target)
        (fun e => committedFailure h c (f e)) fun _ =>
        Proc.handle (onDisk (finish h.content)) (fun e => committedFailure h c (f e)) fun _ => next)
      (Result h prev c G) E := by
  refine .handle (keeps_retire (Or.inl ⟨rfl, rfl⟩) (lasting_active _))
    (fun _ => keeps_committedFailure hG fun d hd => Open.rooted hd) fun _ => ?_
  refine .handle ((keeps_finishRests (some c) _).pre fun w _ hP =>
    ⟨⟨hP.1.1.versions, Open.rooted hP.1⟩, hP.2⟩)
    (fun _ => keeps_committedFailure hG fun _ hd => hd) fun _ => hne

theorem result_committed {w : World ω} {tr : Option Id} {error : Option String}
    (hw : Mid (Finished h.content (some c)) (Rests h c.target)
      (fun e => G e ∧ e.healthy = true) w) :
    Result h prev c G (⟨tr, true, false, some c⟩, error) w :=
  ⟨hw.2.2.1, hw.2.2.2, fun _ => ⟨rfl, hw.1.toRooted⟩, fun _ => ⟨hw.1, hw.2.1⟩⟩

/-- **Roll-forward** inside an apply. -/
theorem keeps_resolveCommitted (hG : ∀ e b, G e → G { e with healthy := b }) {cause : String} :
    Keeps (Sound h S) (Mid (Open h prev c (some c.id)) (fun n => n.selected = c.target) G)
      (resolveCommitted h prev c cause) (Result h prev c G) E := by
  have hro : ∀ d, Open h prev c (some c.id) d →
      Rooted h.content (some c) d := fun d hd => hd.rooted
  refine .handle (keeps_store fun n _ => keeps_stabilize (coupling h S n) (open_steady _))
    (fun _ => keeps_degradedOutcome hG fun _ => ⟨rfl, hro⟩) fun _ => ?_
  refine .handle ((keeps_markPhase_open (N := fun n => n.selected = c.target)
    .committed).pre fun w _ hP => ⟨hP.1.1, hP.2⟩)
    (fun _ => keeps_degradedOutcome hG fun _ => ⟨rfl, hro⟩) fun _ => ?_
  refine keeps_retireFinish hG (joinErrors cause) ?_
  refine .bind (R := fun _ => Mid (Finished h.content (some c))
    (Rests h c.target) fun e => G e ∧ e.healthy = true)
    (keeps_onEngine fun e he => ⟨hG e true he, rfl⟩) fun _ => ?_
  refine .handle (keeps_readActive fun _ hd => hd.toRooted) (fun _ => ?_) fun active => ?_
  · exact (keeps_committedFailure hG fun _ hd => hd.toRooted).pre
      fun w _ hP => ⟨hP.1, hP.2.1, hP.2.2.1⟩
  · refine .pure ?_
    rintro w _ ⟨rfl, hP⟩
    exact result_committed hP

/-- **An uncertain commit** is decided by what is seen once the directory is synchronized. -/
theorem keeps_resolveCommitError (hG : ∀ e b, G e → G { e with healthy := b }) {original : String} :
    Keeps (Sound h S) (Mid (Pending h.content prev c) (fun n => n.selected = c.target) G)
      (resolveCommitError h prev c original) (Result h prev c G) E := by
  refine .handle (keeps_store fun n _ => keeps_stabilize (coupling h S n)
    (pending_steady prev c)) (fun _ => keeps_uncommitted hG) fun _ => ?_
  refine .handle (R := fun x => Mid (fun d => (Pending h.content prev c d ∧
      Synced d) ∧ x.map (·.id) = d.active.seen) (fun n => n.selected = c.target) G)
    (F := fun _ => Mid (fun _ => True) (fun _ => True) G) ?_ (fun _ => keeps_uncommitted hG)
    fun x => ?_
  · refine .bind ((keeps_store fun n _ => keeps_readView).fails
      fun _ _ _ hP => ⟨trivial, trivial, hP.2.2⟩) fun v => ?_
    exact .pure fun w _ hP => ⟨⟨hP.1.1, hP.1.2.active⟩, hP.2⟩
  · by_cases hx : x.map (·.id) = some c.id
    · rw [if_pos hx]
      refine (keeps_resolveCommitted hG).pre ?_
      rintro w _ ⟨⟨⟨hp, hsy⟩, hse⟩, hn⟩
      refine ⟨⟨hp, ?_⟩, hn⟩
      rw [← hx, hse]
      exact hsy.1
    · rw [if_neg hx]
      refine (keeps_rollback hG (N := fun n => n.selected = c.target)).pre ?_
      rintro w hI ⟨⟨⟨hp, hsy⟩, hse⟩, hn⟩
      refine ⟨⟨hp, ?_⟩, hn⟩
      rw [← hI.pending_seen hp (hse ▸ hx)]
      exact hsy.1

/-- **Apply from its preparation on.** -/
theorem keeps_transact (hG : ∀ e b, G e → G { e with healthy := b }) (hS : S.revision (some c)) :
    Keeps (Sound h S) (Mid (Fresh prev c) N G) (transact h prev c) (Result h prev c G) E := by
  have hsi : Sides prev c (prev.bind (·.target)) c.target := Or.inl ⟨rfl, rfl⟩
  refine .handle (keeps_store fun n _ => keeps_prepare (coupling h S n) prev c)
    (fun _ => keeps_uncommitted hG) fun _ => ?_
  refine .pre (P := Mid (Open h prev c (prev.map (·.id))) N G) ?_
    fun w _ hP => ⟨⟨hP.1.2, hP.1.1⟩, hP.2⟩
  refine .handle keeps_check (fun _ => keeps_rollback hG) fun _ => ?_
  refine .handle ((keeps_applyBackend hsi (lasting_active _)).pre
    fun w _ hP => ⟨hP.1, trivial, hP.2.2⟩) (fun _ => keeps_rollback hG) fun _ => ?_
  refine .handle keeps_check (fun _ => keeps_rollback hG) fun _ => ?_
  refine .handle (keeps_markPhase_open .switched) (fun _ => keeps_rollback hG) fun _ => ?_
  refine .handle ((keeps_store fun n _ => keeps_commit (coupling h S n) prev c ?_).pre
    fun w _ hP => ⟨hP.1.1, hP.2⟩) (fun _ => keeps_resolveCommitError hG) fun _ => ?_
  · intro d hp a jr hs hop hag hc
    exact hc.commit hS hp hs hop hag
  refine .handle keeps_check (fun _ => keeps_resolveCommitted hG) fun _ => ?_
  refine .handle (keeps_markPhase_open .committed) (fun _ => keeps_resolveCommitted hG) fun _ => ?_
  refine .handle keeps_check (fun _ => keeps_resolveCommitted hG) fun _ => ?_
  refine keeps_retireFinish hG (fun e => e) ?_
  refine .handle (keeps_readActive fun _ hd => hd.toRooted)
    (fun _ => keeps_committedFailure hG fun _ hd => hd.toRooted) fun active => ?_
  refine .bind (R := fun _ w => active = some c ∧
    Mid (Finished h.content (some c)) (Rests h c.target)
      (fun e => G e ∧ e.healthy = true) w) ?_ fun _ => ?_
  · refine .change fun w hI hP => ⟨hI, hP.1, hP.2.1, hP.2.2.1, hG _ true hP.2.2.2, rfl⟩
  · refine .pure ?_
    rintro w _ ⟨rfl, hP⟩
    exact result_committed hP

end Perimeterd.App
