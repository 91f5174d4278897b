import Perimeterd.App.Applying

/-!
# Specification of `Recover` and `Cleanup`

Recovery first makes what it sees certain. What it sees is then either a revision to apply over
itself, the journal of an apply to finish in one direction or the other, or a cleanup to finish.
-/

namespace Perimeterd.App

open Lib Firewall State List

variable {ω : Type} {h : Host ω} {S : Allowance} {G : Engine → Prop}
  {d : Disk} {w : World ω} {kept : Option Revision} {e₀ : Engine}

/-! ## What a view tells -/

theorem Sound.allowed (hw : Sound h S w) (hro : Rooted h.content kept w.disk) :
    S.revision kept := by
  have hc := hw.coupled
  rw [hro.active.seen] at hc
  obtain ⟨x, hx, hid, hr⟩ := hc.allowed
  rwa [← holds_ext hr hro.stored hid]

theorem revisionRef_eq_ok {v : View} {id : Option Id} {x : Option Revision} :
    revisionRef v id = .ok x → x.map (·.id) = id ∧ ∀ r, x = some r → r ∈ v.revisions := by
  intro hre
  cases id with
  | none =>
    cases hre
    exact ⟨rfl, by simp⟩
  | some id =>
    rw [revisionRef] at hre
    cases hf : v.find id with
    | none => simp [hf] at hre
    | some r =>
      rw [hf] at hre
      cases hre
      refine ⟨?_, ?_⟩
      · have : r.id = id := by simpa using List.find?_some hf
        rw [← this]
        rfl
      · rintro _ ⟨⟩
        exact mem_of_find?_eq_some hf

theorem pending_of_journal {content : Revision → Except String Unit} {v : View} {j : Journal}
    (hs : JournalSound content d j) (ho : d.journal.Only (some j)) (hv : Viewed content d v)
    (hop : j.operation = .apply) (hid : some j.id = j.candidate) {prev : Option Revision}
    {candidate : Revision} (hpr : revisionRef v j.previous = .ok prev)
    (hca : revisionRef v j.candidate = .ok (some candidate)) :
    Pending content prev candidate d := by
  obtain ⟨hpi, hpme⟩ := revisionRef_eq_ok hpr
  obtain ⟨hc, hcme⟩ := revisionRef_eq_ok hca
  have hc : some candidate.id = j.candidate := hc
  have hch : Holds content d candidate := hv.holds candidate (hcme candidate rfl)
  have hva := validateJournal_iff.mp hs.valid
  refine ⟨?_, fun p hp => hv.holds p (hpme p hp), hch⟩
  intro x hx
  refine ⟨j, ho x hx, ?_⟩
  have hpm : j.previousManifest = prev.bind (·.manifest) := by
    cases prev with
    | none => exact hva.previousManifest hpi.symm
    | some p =>
      obtain ⟨r, hr, hrh, hm⟩ := hs.previous hop p.id hpi.symm
      rw [← hm, hrh.unique (hv.holds p (hpme p rfl)) hr]
      rfl
  have hcm : j.candidateManifest = candidate.manifest := by
    obtain ⟨r, hr, hrh, hm⟩ := hs.candidate hop candidate.id hc.symm
    rw [← hm, hrh.unique hch hr]
  have hre : j.revisions = (applyJournal prev candidate).revisions := by
    rw [hs.form hop, ← hpi, ← hc]
    rfl
  simp only [Journal.core, Journal.mk.injEq]
  exact ⟨hva.version, Option.some.inj (hid.trans hc.symm), hop, trivial, hpi.symm, hc.symm,
    hpm, hcm, hre, trivial⟩

theorem mem_targetsForView {v : View} {r : Revision} {t : Target} (hf : v.find r.id = some r)
    (ht : r.target = some t) (hn : v.active.map (·.id) = some r.id ∨
      ∃ jr, v.journal = some jr ∧ r.id ∈ jr.revisions) : t ∈ targetsForView v := by
  simp only [targetsForView, mem_filterMap, (sortSlice_perm _ _).mem_iff, mem_dedup,
    mem_append, Option.mem_toList]
  refine ⟨r.id, ?_, by rw [hf]; exact ht⟩
  rcases hn with ha | ⟨jr, hjr, hmem⟩
  · exact .inl ha
  · exact .inr (by simp [hjr, hmem])

section Recovering

theorem keeps_commit_open {prev : Option Revision} {cand : Revision} {a : Option Id}
    {N : Native ω → Prop} (hS : S.revision (some cand)) :
    Keeps (Sound h S) (Mid (Open h prev cand a) N G) (onDisk (commit h.content cand))
      (fun _ => Mid (Open h prev cand (some cand.id)) N G)
      (fun _ => Lost G) := by
  refine (keeps_store fun n _ => keeps_commit (coupling h S n) prev cand ?_).conseq
    (fun w _ hP => ⟨hP.1.1, hP.2⟩) (fun _ w _ hP => hP) fun _ w _ hP => hP.2.2
  intro d hp a jr hs hop hag hc
  exact hc.commit hS hp hs hop hag

theorem coupled_empty {n : Native ω} (hS : S.cleanup) (hq : n.conflict = false)
    (hn : n.objects = [] ∧ n.selected = none) {jr : Journal} (hop : jr.operation = .cleanup) :
    Coupled h S n d none (some jr) := by
  refine ⟨hq, by simp [hn.1], ⟨none, by simp [Stands], ?_, hn.2⟩, ⟨none, S.empty hS, rfl, by simp⟩,
    fun _ _ _ => hS⟩
  simp only [Fits, hop]

theorem keeps_failedWrite {α : Type} {P : World ω → Prop} {Q : α → World ω → Prop} {error : String}
    (hen : ∀ w b, P w → P { w with engine := { w.engine with enforced := b } }) :
    Keeps (Sound h S) P (failedWrite error) Q (fun _ => P) := by
  refine .bind (R := fun _ => P) (.change fun w hI hP => ⟨hI, hen w false hP⟩) fun _ => ?_
  exact .fail

theorem keeps_activate {P : World ω → Prop} {E : String → World ω → Prop}
    (hen : ∀ w b, P w → P { w with engine := { w.engine with enforced := b } }) :
    Keeps (Sound h S) P activate (fun _ => P) E := by
  refine .bind (R := fun _ => P) ?_ fun _ => .done
  refine keeps_decideStep fun b w hI hP => ?_
  cases b with
  | false => exact ⟨hI, hP⟩
  | true => exact ⟨hI, hen w true hP⟩

/-- A healthy engine has no journal before it. -/
def Ready (w : World ω) : Prop := w.engine.healthy = true → w.disk.journal.seen = none

def Emptied (h : Host ω) (e₀ : Engine) (w : World ω) : Prop :=
  AtRest h none w ∧ w.native.objects = [] ∧ e₀.Like w.engine

theorem keeps_recoveryFailure {α : Type} {P : World ω → Prop} (hP : ∀ w, P w → e₀.Like w.engine)
    {Q : α → World ω → Prop} {error : String} :
    Keeps (Sound h S) P (recoveryFailure error) Q (fun _ w => Ready w ∧ e₀.Like w.engine) := by
  refine .bind (R := fun _ w => w.engine.healthy = false ∧ e₀.Like w.engine)
    (.change fun w hI hw => ⟨hI, rfl, hP w hw⟩) fun _ => ?_
  refine .throw fun w _ hw => ⟨fun hh => ?_, hw.2⟩
  rw [hw.1] at hh
  cases hh

theorem keeps_publishEmpty :
    Keeps (Sound h S) (Emptied h e₀) publishEmpty (fun _ => Emptied h e₀)
      (fun _ w => Ready w ∧ e₀.Like w.engine) := by
  have hen : ∀ (w : World ω) e, e₀.Like e → Emptied h e₀ w → Emptied h e₀ { w with engine := e } :=
    fun w e he hP => ⟨⟨hP.1.journal, hP.1.rooted, hP.1.selected⟩, hP.2.1, he⟩
  refine .bind (keeps_activate fun w b hP => hen w _ hP.2.2 hP) fun _ => ?_
  refine .bind (R := fun _ => Emptied h e₀)
    (.change fun w hI hP => ⟨hI, hen w _ hP.2.2 hP⟩) fun _ => ?_
  refine .handle keeps_check (fun _ => keeps_recoveryFailure fun w hP => hP.2.2) fun _ => ?_
  exact .done

variable [DecidableEq ω]

theorem Sound.rests (hw : Sound h S w) (hidle : Idle h.content kept w.disk) :
    Rests h (kept.bind (·.target)) w.native := by
  refine ⟨(hw.atRest hidle).selected, fun o ho => ?_⟩
  have hc := hw.coupled
  rw [hidle.journal, hidle.active.seen] at hc
  obtain ⟨r, t, hn, hr, ht, hot⟩ := hc.objects o ho
  have hid : kept.map (·.id) = some r.id := by simpa [Names] using hn
  have hke : kept = some r := holds_ext hidle.prev (by rintro _ ⟨⟩; exact hr) hid
  exact owns_iff.mpr ⟨t, by simp [hke, ht], hot⟩

/-! ## The journal of an apply -/

/-- What a successful `recoverLocked` establishes about the revision it returns. -/
def Recovered (h : Host ω) (e₀ : Engine) (healthy : Bool) (x : Option Revision) : World ω → Prop :=
  Mid (Finished h.content x) (Rests h (x.bind (·.target)))
    fun e => (e₀.adoptActiveEpoch x).Like e ∧ e.healthy = healthy

section

variable (hG : ∀ e, G e → e₀.Like e ∧ e.healthy = false)

include hG

theorem keeps_settleRecovery
    {prev : Option Revision} {cand : Revision} {source : Option Target}
    {x : Option Revision} (hsi : Sides prev cand source (x.bind (·.target)))
    (hx : ∀ d, Open h prev cand (x.map (·.id)) d → Rooted h.content x d) :
    Keeps (Sound h S) (Mid (Open h prev cand (x.map (·.id)))
        (fun n => n.selected = x.bind (·.target)) G)
      (do
        retireBackend h source (x.bind (·.target))
        onDisk (finish h.content)
        adopt x
        pure x)
      (Recovered h e₀ false) (fun _ => Lost G) := by
  refine .bind ((keeps_retire hsi (lasting_active _)).fails fun _ _ _ hP => hP.2.2) fun _ => ?_
  refine .bind ((keeps_finishRests x (applyJournal prev cand).core).conseq
    (fun w _ hP => ⟨⟨hP.1.1.versions, hx _ hP.1⟩, hP.2⟩) (fun _ _ _ hP => hP)
    fun _ _ _ hP => hP.2.2) fun _ => ?_
  refine .bind (R := fun _ => Recovered h e₀ false x) ?_ fun _ => ?_
  · refine keeps_onEngine fun e he => ⟨(hG e he).1.adopt x, ?_⟩
    cases x with
    | none => exact (hG e he).2
    | some r => exact (hG e he).2
  · exact .pure fun _ _ h => h

theorem keeps_rollForward
    {prev : Option Revision} {cand : Revision} :
    Keeps (Sound h S) (Mid (Open h prev cand (some cand.id)) (fun _ => True) G)
      (rollForward h prev cand)
      (Recovered h e₀ false) (fun _ => Lost G) := by
  refine .given (fun w hI hP => hI.allowed (Open.rooted hP.1)) fun hS => ?_
  have hsi : Sides prev cand (prev.bind (·.target)) cand.target := Or.inl ⟨rfl, rfl⟩
  refine .bind ((keeps_applyBackend hsi (lasting_active _)).fails fun _ _ _ hP => hP.2.2) fun _ => ?_
  refine .bind (keeps_commit_open hS) fun _ => ?_
  refine .bind ((keeps_markPhase_open .committed).fails fun _ _ _ hP => hP.2.2) fun _ => ?_
  exact keeps_settleRecovery (x := some cand) hG hsi fun d hd => hd.rooted

theorem keeps_reapply {active : Revision} :
    Keeps (Sound h S) (Mid (Idle h.content (some active)) (fun _ => True) G) (reapply h active)
      (Recovered h e₀ false) (fun _ => Lost G) := by
  refine .given (fun w hI hP => hI.allowed ⟨hP.1.active, hP.1.prev⟩) fun hS => ?_
  have hsi : Sides (some active) active active.target active.target := Or.inl ⟨rfl, rfl⟩
  refine .bind (R := fun _ => Mid (Open h (some active) active (some active.id))
    (fun _ => True) G) ?_ fun _ => ?_
  · refine (keeps_store fun n _ => (keeps_prepare (coupling h S n) (some active) active).pre
      fun _ _ _ => Or.inr rfl).post ?_ fun _ _ _ hP => hP.2.2
    exact fun _ _ _ hP => ⟨⟨hP.1.2, hP.1.1⟩, hP.2⟩
  refine .bind ((keeps_applyBackend hsi (lasting_active _)).fails fun _ _ _ hP => hP.2.2) fun _ => ?_
  refine .bind ((keeps_markPhase_open .switched).fails fun _ _ _ hP => hP.2.2) fun _ => ?_
  refine .bind (keeps_commit_open hS) fun _ => ?_
  refine .bind ((keeps_markPhase_open .committed).fails fun _ _ _ hP => hP.2.2) fun _ => ?_
  exact keeps_settleRecovery (x := some active) hG hsi fun d hd => hd.rooted

theorem keeps_rollBack
    {previous : Option Revision} {cand : Revision} :
    Keeps (Sound h S) (Mid (Open h previous cand (previous.map (·.id))) (fun _ => True) G)
      (rollBack h previous cand)
      (Recovered h e₀ false) (fun _ => Lost G) := by
  have hsi : Sides previous cand cand.target (previous.bind (·.target)) := Or.inr ⟨rfl, rfl⟩
  refine .bind ((keeps_applyBackend hsi (lasting_active _)).fails fun _ _ _ hP => hP.2.2) fun _ => ?_
  exact keeps_settleRecovery hG hsi fun d hd => ⟨hd.2, hd.1.prev⟩

/-- What recovery knows once it has stabilized the store and read it again. -/
def Stable (h : Host ω) (v : View) (d : Disk) : Prop := Synced d ∧ Viewed h.content d v

/-- **Resuming an apply.** -/
theorem keeps_resume {v : View} {j : Journal}
    (hvj : v.journal = some j) (hop : j.operation = .apply) :
    Keeps (Sound h S) (Mid (Stable h v) (fun _ => True) G) (resume h v j)
      (Recovered h e₀ false) (fun _ => Lost G) := by
  refine .bind (R := fun _ w => Mid (Stable h v) (fun _ => True) G w ∧ some j.id = j.candidate)
    (.ensure (fun hid _ _ hP => ⟨hP, hid⟩) fun _ _ _ hP => hP.2.2)
    fun _ => ?_
  refine .given (fun _ _ hP => hP.2) fun hid => ?_
  refine .pre (P := Mid (Stable h v) (fun _ => True) G) ?_ fun _ _ hP => hP.1
  cases hpr : revisionRef v j.previous with
  | error e => exact .throw fun _ _ hP => hP.2.2
  | ok prev =>
  cases hc : revisionRef v j.candidate with
  | error e => exact .throw fun _ _ hP => hP.2.2
  | ok x =>
  cases x with
  | none => exact .throw fun _ _ hP => hP.2.2
  | some candidate =>
  have hci : j.id = candidate.id := by
    have : some candidate.id = j.candidate := (revisionRef_eq_ok hc).1
    exact Option.some.inj (hid.trans this.symm)
  have hp : ∀ w : World ω, Sound h S w → Stable h v w.disk →
      Pending h.content prev candidate w.disk := by
    rintro w hI ⟨hsy, hv⟩
    have hse : w.disk.journal.seen = some j := hv.journal.symm.trans hvj
    exact pending_of_journal (hI.pair.journal j hse) (hse ▸ hsy.2) hv hop hid hpr hc
  change Keeps (Sound h S) (Mid (Stable h v) (fun _ => True) G)
    (if v.active.map (·.id) = some j.id then rollForward h prev candidate
      else rollBack h prev candidate) _ _
  by_cases hac : v.active.map (·.id) = some j.id
  · rw [if_pos hac]
    refine (keeps_rollForward hG).pre fun w hI hP => ⟨⟨hp w hI hP.1, ?_⟩, hP.2⟩
    rw [← hci, ← hac, hP.1.2.active]
    exact hP.1.1.1
  · rw [if_neg hac]
    refine (keeps_rollBack hG).pre fun w hI hP => ⟨⟨hp w hI hP.1, ?_⟩, hP.2⟩
    have hne : w.disk.active.seen ≠ some candidate.id := by
      rw [← hP.1.2.active, ← hci]
      exact hac
    rw [← hI.pending_seen (hp w hI hP.1) hne]
    exact hP.1.1.1

end

/-! ## Cleanup journals -/

/-- **Finishing a cleanup.** -/
theorem keeps_cleanupView {v : View} {j : Journal} (hvj : v.journal = some j)
    (hop : j.operation = .cleanup) :
    Keeps (Sound h S) (Mid (Stable h v) (fun _ => True) G) (cleanupView h v)
      (fun _ => Mid (Finished h.content none) (Rests h none) G)
      (fun _ => Lost G) := by
  have hse : ∀ d, Stable h v d → d.journal.Only (some j) := by
    rintro d ⟨hsy, hv⟩
    have hj : d.journal.seen = some j := hv.journal.symm.trans hvj
    exact hj ▸ hsy.2
  have hSn : ∀ w : World ω, Sound h S w → Mid (Stable h v) (fun _ => True) G w → S.cleanup := by
    intro w hI hP
    have hc := hI.coupled
    rw [(hse _ hP.1).seen] at hc
    exact hc.emptied j rfl hop
  refine .given hSn fun hS => ?_
  have hcomplete : ∀ w : World ω, Sound h S w → Mid (Stable h v) (fun _ => True) G w →
      ∀ id, (v.active.map (·.id) = some id ∨ id ∈ j.revisions) → ∃ r, v.find id = some r := by
    intro w hI hP id hn
    have hv := hP.1.2
    have hna : Names w.disk.active.seen w.disk.journal.seen id := by
      rw [← hv.active, ← hv.journal, hvj]
      exact hn.imp (fun h => h) fun h => ⟨j, rfl, h⟩
    obtain ⟨r, hr, hid⟩ := hv.complete id hna
    refine Option.isSome_iff_exists.mp (List.find?_isSome.mpr ⟨r, hr, ?_⟩)
    simpa using hid
  refine .given hcomplete fun hfi => ?_
  have hR : Lasting fun d => d.active.Only (v.active.map (·.id)) ∧
      ∀ r ∈ v.revisions, Holds h.content d r :=
    (lasting_active _).and ⟨fun _ _ hs hr r hm => (hr r hm).survives hs.toSurvives,
      fun _ _ hr r hm => (hr r hm).of_files rfl rfl⟩
  refine .pre (P := Mid (fun d => Versions j.core d ∧ d.active.Only (v.active.map (·.id)) ∧
    ∀ r ∈ v.revisions, Holds h.content d r) (fun _ => True) G) ?_ ?_
  swap
  · intro w _ hP
    refine ⟨⟨fun x hx => ⟨j, hse _ hP.1 x hx, rfl⟩, ?_, hP.1.2.holds⟩, hP.2⟩
    rw [hP.1.2.active]
    exact hP.1.1.1
  refine .bind ((keeps_cleanup (c := j.core) hop hR ?_).fails fun _ _ _ hP => hP.2.2) fun _ => ?_
  · -- the revision of an owned object is one the view has found
    rintro w hI ⟨hve, hac, hh⟩ o ho
    obtain ⟨jr, hjr, hco⟩ := hve.seen
    obtain ⟨-, -, -, -, -, hre⟩ := Journal.core_fields hco
    have hc := hI.coupled
    rw [hjr, hac.seen] at hc
    obtain ⟨r, t, hn, hr, ht, hot⟩ := hc.objects o ho
    have hnamed : v.active.map (·.id) = some r.id ∨ r.id ∈ j.revisions := by
      rcases hn with ha | ⟨jr', hjr', hmem⟩
      · exact .inl ha
      · cases hjr'
        exact .inr (hre ▸ hmem)
    obtain ⟨r', hf⟩ := hfi r.id hnamed
    have hr' : r' = r := (hh r' (mem_of_find?_eq_some hf)).unique hr
      (by simpa using List.find?_some hf)
    rw [hr'] at hf
    exact owns_iff.mpr ⟨t, mem_targetsForView hf ht
      (hnamed.imp (fun h => h) fun h => ⟨j, hvj, h⟩), hot⟩
  refine .bind (R := fun _ => Mid (fun d => Versions j.core d ∧ d.active.Only none)
    (fun n => n.objects = [] ∧ n.selected = none) G) ?_ fun _ => ?_
  · refine .pre (P := Mid (fun d => Versions j.core d ∧ ∃ a, d.active.Only a)
      (fun n => (n.objects = [] ∧ n.selected = none) ∧ n.conflict = false) G) ?_
      fun w hI hP => ⟨⟨hP.1.1, _, hP.1.2.1⟩, ⟨hP.2.1, hI.coupled.quiet⟩, hP.2.2⟩
    refine (keeps_store fun n hn => keeps_removeActive (coupling h S n) (Versions.steady j.core)
      (c := j.core) hop (fun _ hd => hd) (fun _ hd => hd) ?_).post
      (fun _ w _ hP => ⟨hP.1, hP.2.1.1, hP.2.2⟩) fun _ _ _ hP => hP.2.2
    intro d hd x hx
    obtain ⟨jr, rfl, hco⟩ := hd x hx
    have hjo : jr.core.operation = j.core.operation := by rw [hco]
    exact coupled_empty hS hn.2 hn.1 (hjo.trans hop)
  · refine (keeps_finishRests none j.core).conseq ?_ (fun _ _ _ hP => hP) fun _ _ _ hP => hP.2.2
    rintro w _ ⟨⟨hve, hac⟩, ⟨hob, hsel⟩, hG⟩
    exact ⟨⟨hve, hac, by simp⟩, ⟨hsel, by simp [hob]⟩, hG⟩

/-! ## Recover -/

theorem keeps_recoverView (hG : ∀ e, G e → e₀.Like e ∧ e.healthy = false) {v : View} :
    Keeps (Sound h S) (Mid (Stable h v) (fun _ => True) G) (recoverView h v)
      (Recovered h e₀ false) (fun _ => Lost G) := by
  rw [recoverView.eq_def]
  cases hvj : v.journal with
  | some j =>
    cases hop : j.operation with
    | apply =>
      simp only [hop]
      exact keeps_resume hG hvj hop
    | cleanup =>
      simp only [hop]
      refine .bind (keeps_cleanupView hvj hop) fun _ => ?_
      refine .bind (R := fun _ => Recovered h e₀ false none) ?_ fun _ => .pure fun _ _ h => h
      exact keeps_onEngine fun e he => ⟨(hG e he).1.adopt none, (hG e he).2⟩
  | none =>
    have hidle : ∀ w : World ω, Sound h S w → Mid (Stable h v) (fun _ => True) G w →
        Finished h.content v.active w.disk := by
      rintro w _ ⟨⟨hsy, hv⟩, -⟩
      refine ⟨⟨?_, fun r hr => hv.holds r (hv.mem_active r hr)⟩, ?_⟩
      · rw [hv.active]
        exact hsy.1
      · rw [← hvj, hv.journal]
        exact hsy.2
    cases hva : v.active with
    | none =>
      rw [hva] at hidle
      refine .bind (R := fun _ => Recovered h e₀ false none) ?_ fun _ => .pure fun _ _ h => h
      refine .change fun w hI hP => ⟨hI, hidle w hI hP, ?_, (hG _ hP.2.2).1.adopt none,
        (hG _ hP.2.2).2⟩
      have hf := hidle w hI hP
      exact hI.rests ⟨hf.journal.seen, hf.active, hf.stored⟩
    | some active =>
      rw [hva] at hidle
      refine (keeps_reapply hG).pre fun w hI hP => ?_
      have hf := hidle w hI hP
      exact ⟨⟨hf.journal.seen, hf.active, hf.stored⟩, hP.2⟩

/-- **`recoverLocked`.** -/
theorem keeps_recoverLocked :
    Keeps (Sound h S) (fun w => e₀.Like w.engine) (recoverLocked h) (Recovered h e₀ false)
      (fun _ w => e₀.Like w.engine ∧ w.engine.healthy = false) := by
  refine .bind (R := fun _ => Mid (fun _ => True) (fun _ => True)
    fun e => e₀.Like e ∧ e.healthy = false)
    (.change fun w hI hP => ⟨hI, trivial, trivial, hP, rfl⟩) fun _ => ?_
  refine .bind .look fun closing => ?_
  refine .bind (R := fun _ => Mid (fun _ => True) (fun _ => True)
    fun e => e₀.Like e ∧ e.healthy = false)
    (.ensure (fun _ _ _ hP => hP) fun _ _ _ hP => hP.2.2) fun _ => ?_
  refine .bind (keeps_check.fails fun _ _ _ hP => hP.2.2) fun _ => ?_
  refine .bind ((keeps_store fun n _ => keeps_readView).fails fun _ _ _ hP => hP.2.2) fun _ => ?_
  refine .bind (R := fun _ => Mid Synced (fun _ => True)
    fun e => e₀.Like e ∧ e.healthy = false) ?_ fun _ => ?_
  · refine (keeps_store fun n _ => (keeps_stabilize (coupling h S n) (R := fun _ => True)
      fun _ _ _ hd => hd).pre fun _ _ _ => trivial).post (fun _ w _ hP => ⟨hP.1.2, hP.2⟩)
      fun _ _ _ hP => hP.2.2
  refine .bind ((keeps_store fun n _ => keeps_readView).fails fun _ _ _ hP => hP.2.2) fun v => ?_
  exact keeps_recoverView fun e he => he

/-- **A dynamic update** stays within the active target. -/
theorem keeps_updateDynamic {P : World ω → Prop} {kept : Option Revision} {target : Target}
    (hro : ∀ w, P w → Rooted h.content kept w.disk) (hta : kept.bind (·.target) = some target)
    (hob : ∀ w objects, P w → (∀ o ∈ objects, o ∈ w.native.objects ∨ o ∈ h.owned target) →
      P { w with native := { w.native with objects := objects } }) :
    Keeps (Sound h S) P (h.updateDynamic target) (fun _ => P) (fun _ => P) := by
  refine keeps_backendCall (fun _ => .fail) ?_ ?_
  · intro objects select
    refine keeps_onNative fun w hI hP => ?_
    have hin : ∀ o ∈ objects.filter fun o => w.native.objects.contains o || h.owns [target] o,
        o ∈ w.native.objects ∨ o ∈ h.owned target := by
      intro o ho
      have ho := (mem_filter.mp ho).2
      rw [Bool.or_eq_true, contains_iff_mem, owns_iff] at ho
      simpa using ho
    refine ⟨?_, hob w _ hP hin⟩
    intro a ha j _ _ hc
    refine ⟨hc.quiet, ?_, hc.selected, hc.allowed, hc.emptied⟩
    intro o ho
    rcases hin o ho with hold | hnew
    · exact hc.objects o hold
    · obtain ⟨r, hr, hrt⟩ := Option.bind_eq_some_iff.mp hta
      refine ⟨r, target, Or.inl ?_, (hro w hP).stored r hr, hrt, hnew⟩
      rw [(hro w hP).active a ha, hr]
      rfl
  · exact keeps_onNative fun w hI hP => ⟨fun _ _ _ _ _ hc => hc, hP⟩

/-- **`reconcileLocked`** writes only under a healthy engine. -/
theorem keeps_reconcile {P : World ω → Prop} (kept : Option Revision)
    (hro : ∀ w, P w → w.engine.healthy = true → Rooted h.content kept w.disk)
    (hen : ∀ w b, P w → P { w with engine := { w.engine with enforced := b } })
    (hob : ∀ w objects, P w → w.engine.healthy = true →
      (∀ o ∈ objects, o ∈ w.native.objects ∨ ∃ t, kept.bind (·.target) = some t ∧ o ∈ h.owned t) →
        P { w with native := { w.native with objects := objects } }) :
    Keeps (Sound h S) P (reconcile h) (fun _ => P) (fun _ => P) := by
  refine .bind keeps_check fun _ => ?_
  refine .handle keeps_read (fun _ => keeps_failedWrite hen) fun v => ?_
  refine .bind (R := fun healthy w => (P w ∧ Viewed h.content w.disk v) ∧
    healthy = w.engine.healthy) (.observe fun _ _ hP => ⟨hP, rfl⟩) fun healthy => ?_
  have hf : ∀ error, Keeps (Sound h S)
      (fun w => (P w ∧ Viewed h.content w.disk v) ∧ healthy = w.engine.healthy)
      (failedWrite error : Action ω Unit) (fun _ => P) (fun _ => P) :=
    fun error => (keeps_failedWrite hen).pre fun _ _ hP => hP.1.1
  by_cases hg : (v.journal.isSome || !healthy) = true
  · rw [if_pos hg]
    exact hf _
  rw [if_neg hg]
  have hh : healthy = true := by
    simp only [Bool.or_eq_true, not_or, Bool.not_eq_true', Bool.not_eq_false] at hg
    exact hg.2
  refine .pre (P := fun w => P w ∧ v.active = kept ∧ w.engine.healthy = true) ?_ ?_
  swap
  · rintro w _ ⟨⟨hP, hv⟩, hw⟩
    have hwh := hw.symm.trans hh
    exact ⟨hP, viewed_active hv (hro w hP hwh), hwh⟩
  refine .given (fun _ _ hP => hP.2.1) fun hac => ?_
  refine .pre (P := fun w => P w ∧ w.engine.healthy = true) ?_ fun _ _ hP => ⟨hP.1, hP.2.2⟩
  have hf' : ∀ error, Keeps (Sound h S) (fun w => P w ∧ w.engine.healthy = true)
      (failedWrite error : Action ω Unit) (fun _ => P) (fun _ => P) :=
    fun error => (keeps_failedWrite hen).pre fun _ _ hP => hP.1
  cases htar : v.active.bind (·.target) with
  | none => exact hf' _
  | some target =>
    have hta : kept.bind (·.target) = some target := hac ▸ htar
    change Keeps (Sound h S) _ (if target.dynamicGeneration.isNone = true then _ else _) _ _
    by_cases hd : target.dynamicGeneration.isNone = true
    · rw [if_pos hd]
      exact hf' _
    rw [if_neg hd]
    refine .handle keeps_check hf' fun _ => ?_
    refine .bind (keeps_check.fails fun _ _ _ hP => hP.1) fun _ => ?_
    refine .handle (keeps_updateDynamic (fun w hP => hro w hP.1 hP.2) hta ?_) hf' fun _ => ?_
    · intro w objects hP hin
      refine ⟨hob w objects hP.1 hP.2 fun o ho => (hin o ho).imp (fun h => h) ?_, hP.2⟩
      exact fun ho => ⟨target, hta, ho⟩
    · exact .change fun w hI hP => ⟨hI, hen w true hP.1⟩

theorem keeps_crowdRecover {x : Option Revision} :
    Keeps (Sound h S) (Recovered h e₀ true x) (crowdRecover h) (fun _ => Recovered h e₀ true x)
      (fun _ => Recovered h e₀ true x) := by
  have hen : ∀ (w : World ω) b, Recovered h e₀ true x w →
      Recovered h e₀ true x { w with engine := { w.engine with enforced := b } } :=
    fun w b hP => hP
  refine .bind (R := fun _ => Recovered h e₀ true x)
    (keeps_decideStep fun _ _ hI hP => ⟨hI, hP⟩) fun write => ?_
  cases write with
  | false => exact keeps_activate hen
  | true =>
    refine keeps_reconcile x (fun w hP _ => hP.1.toRooted) hen ?_
    intro w objs hP _ hin
    refine ⟨hP.1, ⟨hP.2.1.1, fun o ho => ?_⟩, hP.2.2⟩
    rcases hin o ho with hold | ⟨t, ht, hot⟩
    · exact hP.2.1.2 o hold
    · exact owns_iff.mpr ⟨t, by simp [ht], hot⟩

/-- What a failed recovery leaves: an unhealthy engine, whose epochs are either the ones before or
those of the active revision. -/
def Unrecovered (h : Host ω) (e₀ : Engine) (w : World ω) : Prop :=
  w.engine.healthy = false ∧ (e₀.Like w.engine ∨
    ∃ x, Finished h.content x w.disk ∧ (e₀.adoptActiveEpoch x).Like w.engine)

/-- **`Recover`.** -/
theorem keeps_recover (e₀ : Engine) :
    Keeps (Sound h S) (fun w => e₀.Like w.engine) (recover h) (fun x => Recovered h e₀ true x)
      (fun _ => Unrecovered h e₀) := by
  have hf : ∀ (x : Option Revision) (error : String), Keeps (Sound h S) (Recovered h e₀ true x)
      (recoveryFailure error : Action ω (Option Revision)) (fun x => Recovered h e₀ true x)
      (fun _ => Unrecovered h e₀) := by
    intro x error
    refine .bind (R := fun _ => Unrecovered h e₀) ?_ fun _ => .fail
    exact .change fun w hI hP => ⟨hI, rfl, Or.inr ⟨x, hP.1, hP.2.2.1⟩⟩
  refine .handle keeps_recoverLocked (fun error => ?_) fun x => ?_
  · refine .bind (R := fun _ => Unrecovered h e₀) ?_ fun _ => .fail
    exact .change fun w hI hP => ⟨hI, rfl, Or.inl hP.1⟩
  refine .bind (R := fun _ => Recovered h e₀ true x)
    (.change fun w hI hP => ⟨hI, hP.1, hP.2.1, hP.2.2.1, rfl⟩) fun _ => ?_
  refine .handle keeps_crowdRecover (hf x) fun _ => ?_
  refine .handle keeps_check (hf x) fun _ => ?_
  exact .pure fun _ _ h => h

/-- **Startup**: collection keeps what recovery has established. -/
theorem keeps_startup (e₀ : Engine) :
    Keeps (Sound h S) (fun w => e₀.Like w.engine) (startup h)
      (fun _ w => ∃ x, Recovered h e₀ true x w)
      (fun _ w => Unrecovered h e₀ w ∨ ∃ x, Recovered h e₀ true x w) := by
  refine .bind ((keeps_recover e₀).fails fun _ _ _ hP => Or.inl hP) fun x => ?_
  refine (keeps_store fun n _ => keeps_collectRevisions (coupling h S n) x).post ?_ ?_
  · exact fun _ w _ hP => ⟨x, hP⟩
  · exact fun _ w _ hP => Or.inr ⟨x, hP⟩

/-! ## Cleanup -/

/-- **`Cleanup`**: success leaves no object behind. -/
theorem keeps_cleanupEngine (e₀ : Engine) (hS : S.cleanup) :
    Keeps (Sound h S) (fun w => Ready w ∧ e₀.Like w.engine) (cleanup h) (fun _ => Emptied h e₀)
      (fun _ w => Ready w ∧ e₀.Like w.engine) := by
  refine .bind keeps_check fun _ => ?_
  refine .bind .look fun _ => ?_
  refine .bind (R := fun _ w => Ready w ∧ e₀.Like w.engine)
    (.ensure (fun _ _ _ hP => hP) fun _ _ _ hP => hP) fun _ => ?_
  refine .handle keeps_read (fun _ => keeps_recoveryFailure fun w hP => hP.2) fun v => ?_
  by_cases hempty : v.journal = none ∧ v.active = none
  · rw [if_pos hempty]
    refine keeps_publishEmpty.pre ?_
    rintro w hI ⟨⟨-, hl⟩, hv⟩
    have hj : w.disk.journal.seen = none := hv.journal.symm.trans hempty.1
    have ha : w.disk.active.seen = none := by rw [← hv.active, hempty.2]; rfl
    have hidle : Idle h.content none w.disk := by
      refine ⟨hj, fun a ha' => ?_, by simp⟩
      rw [hI.certain (hj ▸ w.disk.journal.seen_mem) a ha' _ w.disk.active.seen_mem, ha]
      rfl
    refine ⟨hI.atRest hidle, eq_nil_iff_forall_not_mem.mpr fun o ho => ?_, hl⟩
    obtain ⟨t, ht, -⟩ := owns_iff.mp ((hI.rests hidle).2 o ho)
    cases ht
  rw [if_neg hempty]
  refine .bind (R := fun _ w => e₀.Like w.engine ∧ Viewed h.content w.disk v) ?_ fun id => ?_
  · exact keeps_transactionID.post (fun _ w _ hP => ⟨hP.1.1.2, hP.1.2⟩) fun _ w _ hP => hP.1
  refine .handle (R := fun _ => Mid (fun d => d.journal.Only (some (cleanupJournal v id)) ∧
    Synced d) (fun _ => True) e₀.Like) (F := fun _ w => e₀.Like w.engine) ?_
    (fun _ => keeps_recoveryFailure fun w hP => hP) fun _ => ?_
  · refine (keeps_store (N := fun _ => True) (G := e₀.Like) fun n _ => keeps_beginCleanup
      (coupling h S n) ?_ v id).conseq (fun w _ hP => ⟨hP.2, trivial, hP.1⟩)
      (fun _ w _ hP => ⟨⟨hP.1.1, hP.1.2.1⟩, hP.2⟩) fun _ w _ hP => hP.2.2
    exact fun d a j jr hop hp hal hc => hc.clean hS hop hal
  refine .handle (keeps_store fun n _ => keeps_readView)
    (fun _ => keeps_recoveryFailure fun w hP => hP.2.2) fun v' => ?_
  by_cases hvj : v'.journal = some (cleanupJournal v id)
  swap
  · intro w l _ hP
    exact absurd (hP.1.2.journal.trans hP.1.1.1.seen) hvj
  refine .handle ((keeps_cleanupView hvj rfl).pre fun w _ hP => ⟨⟨hP.1.1.2, hP.1.2⟩, hP.2⟩)
    (fun _ => keeps_recoveryFailure fun w hP => hP) fun _ => ?_
  refine keeps_publishEmpty.pre fun w _ hP => ⟨⟨hP.1.journal.seen, hP.1.toRooted, hP.2.1.1⟩, ?_,
    hP.2.2⟩
  refine eq_nil_iff_forall_not_mem.mpr fun o ho => ?_
  obtain ⟨t, ht, -⟩ := owns_iff.mp (hP.2.1.2 o ho)
  cases ht

end Recovering

end Perimeterd.App
