import Perimeterd.App.Coupled

/-!
# Specifications of the backend calls

A backend may be called only while the journal that a crash would find is known: between `Prepare`
and `Finish` every one of its changes stays within the two targets the journal names, and under a
cleanup journal it only removes.
-/

namespace Perimeterd.App

open Lib Firewall State List

variable {ω : Type} {h : Host ω} {S : Allowance} {n n' : Native ω} {d : Disk}
  {w : World ω} {R : Disk → Prop}

/-- A predicate that neither synchronization nor the journal disturbs. -/
structure Lasting (R : Disk → Prop) : Prop where
  steady : Steady R
  journal : ∀ d v, R d → R (d.setJournal v)

variable {N : Native ω → Prop} {G : Engine → Prop}

theorem lasting_active (a : Option Id) : Lasting fun d => d.active.Only a :=
  ⟨only_steady_active a, fun _ _ h => h⟩

theorem Lasting.and {R' : Disk → Prop} (hR : Lasting R) (hR' : Lasting R') :
    Lasting fun d => R d ∧ R' d :=
  ⟨hR.steady.and hR'.steady, fun d v h => ⟨hR.journal d v h.1, hR'.journal d v h.2⟩⟩

theorem lasting_holds {content : Revision → Except String Unit} (x : Option Revision) :
    Lasting fun d => ∀ r, x = some r → Holds content d r :=
  ⟨fun _ _ hs h r hr => (h r hr).survives hs.toSurvives,
    fun _ _ h r hr => (h r hr).of_files rfl rfl⟩

/-! ## Calls in general -/

theorem keeps_progress {c : Journal} (hR : Lasting R) (s : FamilySelection) :
    Keeps (Sound h S) (Mid (fun d => Versions c d ∧ R d) N G) (h.progress s)
      (fun _ => Mid (fun d => Versions c d ∧ R d) N G)
      (fun _ => Mid (fun d => Versions c d ∧ R d) N G) := by
  refine .bind ?_ fun _ => keeps_check
  exact keeps_store fun n _ => keeps_recordFamilySelection (coupling h S n) hR.steady hR.journal c s

theorem keeps_backendCall {rc : FamilySelection → Action ω Unit}
    {change : List ω → Bool → Native ω → Native ω} {succeed : Native ω → Native ω}
    {P Q : World ω → Prop} (hre : ∀ s, Keeps (Sound h S) P (rc s) (fun _ => P) (fun _ => P))
    (hc : ∀ objs select, Keeps (Sound h S) P (onNative (change objs select))
      (fun _ => P) (fun _ => P))
    (hsu : Keeps (Sound h S) P (onNative succeed) (fun _ => Q) (fun _ => P)) :
    Keeps (Sound h S) P (backendCall rc change succeed) (fun _ => Q) (fun _ => P) := by
  refine .loop (J := fun _ => P) (fun _ _ h => h) fun answer _ => ?_
  match answer with
  | .ok => exact .bind hsu fun _ => .pure fun _ _ h => h
  | .fail => exact .fail
  | .choose (.change objs select) =>
    exact .bind (hc objs select) fun _ => .pure fun _ _ h => h
  | .choose (.progress s) => exact .bind (hre s) fun _ => .pure fun _ _ h => h
  | .choose (.identity _) => exact .fail

theorem keeps_progress_pending {prev : Option Revision} {c : Revision}
    (hR : Lasting R) (s : FamilySelection) :
    Keeps (Sound h S) (Mid (fun d => Pending h.content prev c d ∧ R d) N G)
      (h.progress s) (fun _ => Mid (fun d => Pending h.content prev c d ∧ R d) N G)
      (fun _ => Mid (fun d => Pending h.content prev c d ∧ R d) N G) := by
  have hbo : Lasting fun d => ((∀ p, prev = some p → Holds h.content d p) ∧
      ∀ r, some c = some r → Holds h.content d r) ∧ R d :=
    ((lasting_holds prev).and (lasting_holds (some c))).and hR
  have hto : ∀ d, Pending h.content prev c d ∧ R d ↔
      Versions (applyJournal prev c).core d ∧
        ((∀ p, prev = some p → Holds h.content d p) ∧
          ∀ r, some c = some r → Holds h.content d r) ∧ R d := by
    intro d
    constructor
    · rintro ⟨hp, hr⟩
      refine ⟨hp.versions, ⟨hp.prev, ?_⟩, hr⟩
      rintro r ⟨⟩
      exact hp.cand
    · rintro ⟨hv, ⟨hp, hc⟩, hr⟩
      exact ⟨⟨hv, hp, hc c rfl⟩, hr⟩
  simp only [hto]
  exact keeps_progress hbo s

theorem Coupled.less {a : Option Id} {jr : Journal} (hop : jr.operation = .cleanup)
    (hc : Coupled h S n d a (some jr)) (hqu : n'.conflict = n.conflict)
    (hob : ∀ o ∈ n'.objects, o ∈ n.objects) (hse : n'.selected = n.selected ∨ n'.selected = none) :
    Coupled h S n' d a (some jr) := by
  refine ⟨hqu.trans hc.quiet, fun o ho => hc.objects o (hob o ho), ?_, hc.allowed,
    hc.emptied⟩
  rcases hse with hold | hno
  · rw [hold]
    exact hc.selected
  · refine ⟨none, by simp [Stands], ?_, hno⟩
    simp only [Fits, hop]

theorem keeps_less {c : Journal} (hop : c.operation = .cleanup) {N' : Native ω → Prop}
    {E : String → World ω → Prop} {f : Native ω → Native ω}
    (hN : ∀ n, N n → N' (f n)) (hqu : ∀ n, (f n).conflict = n.conflict)
    (ho : ∀ n, ∀ o ∈ (f n).objects, o ∈ n.objects)
    (hse : ∀ n, (f n).selected = n.selected ∨ (f n).selected = none) :
    Keeps (Sound h S) (Mid (fun d => Versions c d ∧ R d) N G) (onNative f)
      (fun _ => Mid (fun d => Versions c d ∧ R d) N' G) E := by
  refine keeps_onNative fun w _ hP => ⟨?_, hP.1, hN _ hP.2.1, hP.2.2⟩
  intro a _ j hj _ hc
  obtain ⟨jr, rfl, hco⟩ := hP.1.1 j hj
  have hjo : jr.core.operation = c.operation := by rw [hco]
  exact hc.less (hjo.trans hop) (hqu _) (ho _) (hse _)

section Calls

variable [DecidableEq ω] {prev : Option Revision} {c : Revision} {G : Engine → Prop}
  {targets : List Target} {o : ω} {source sink : Option Target}

theorem owns_iff : h.owns targets o = true ↔ ∃ t ∈ targets, o ∈ h.owned t := by
  simp [Host.owns]

theorem keeps_inventory {P : World ω → Prop}
    (hkn : ∀ w, Sound h S w → P w → ∀ o ∈ w.native.objects, h.owns targets o = true) :
    Keeps (Sound h S) P (inventory h targets) (fun _ => P) (fun _ => P) := by
  refine .bind (R := fun known w => P w ∧ known = true) ?_ fun known => ?_
  · refine .observe fun w hI hP => ⟨hP, ?_⟩
    exact all_eq_true.mpr (hkn w hI hP)
  · cases known with
    | true => exact .pure fun _ _ h => h.1
    | false => exact fun w l hI hP => absurd hP.2 (by simp)

/-! ## Calls under an apply journal -/

theorem Sound.known (hw : Sound h S w)
    (hp : Pending h.content prev c w.disk) (ho : o ∈ w.native.objects) :
    h.owns (prev.bind (·.target)).toList o = true ∨ h.owns c.target.toList o = true := by
  obtain ⟨jr, hjr, hco⟩ := hp.versions.seen
  obtain ⟨hpa, hc⟩ := hw.pairs _ w.disk.active.seen_mem _ w.disk.journal.seen_mem
  rw [hjr] at hpa hc
  obtain ⟨r, t, hn, hr, ht, hot⟩ := hc.objects o ho
  rcases hp.named hco hpa hr hn with rfl | rfl
  · exact .inl (owns_iff.mpr ⟨t, by simp [ht], hot⟩)
  · exact .inr (owns_iff.mpr ⟨t, by simp [ht], hot⟩)

theorem Coupled.within (hpe : Pending h.content prev c d) {a : Option Id} {jr : Journal}
    (hco : jr.core = (applyJournal prev c).core)
    (hc : Coupled h S n d a (some jr)) (hqu : n'.conflict = n.conflict)
    (hob : ∀ o ∈ n'.objects, o ∈ n.objects ∨
      h.owns (prev.bind (·.target)).toList o = true ∨ h.owns c.target.toList o = true)
    (hse : n'.selected = n.selected ∨ n'.selected = prev.bind (·.target) ∨
      n'.selected = c.target) : Coupled h S n' d a (some jr) := by
  obtain ⟨hop, hpr, hca, -, -, hre⟩ := Journal.core_fields hco
  have hop : jr.operation = .apply := hop
  have hnp : ∀ p, prev = some p → Names a (some jr) p.id := by
    rintro p rfl
    exact .inr ⟨jr, rfl, by rw [hre, mem_applyJournal]; exact .inl rfl⟩
  have hnc : Names a (some jr) c.id :=
    Or.inr ⟨jr, rfl, by rw [hre, mem_applyJournal]; exact .inr rfl⟩
  refine ⟨hqu.trans hc.quiet, ?_, ?_, hc.allowed, hc.emptied⟩
  · intro o ho
    rcases hob o ho with hold | hp | hcd
    · exact hc.objects o hold
    · obtain ⟨t, ht, hot⟩ := owns_iff.mp hp
      obtain ⟨p, hp, htp⟩ := Option.bind_eq_some_iff.mp (Option.mem_toList.mp ht)
      exact ⟨p, t, hnp p hp, hpe.prev p hp, htp, hot⟩
    · obtain ⟨t, ht, hot⟩ := owns_iff.mp hcd
      exact ⟨c, t, hnc, hpe.cand, Option.mem_toList.mp ht, hot⟩
  · rcases hse with hold | hp | hcd
    · rw [hold]
      exact hc.selected
    · refine ⟨prev, fun p hp => ⟨hnp p hp, hpe.prev p hp⟩, ?_, hp⟩
      simp only [Fits, hop, hpr]
      exact .inl rfl
    · refine ⟨some c, ?_, ?_, hcd⟩
      · rintro r ⟨⟩
        exact ⟨hnc, hpe.cand⟩
      · simp only [Fits, hop, hca]
        exact .inr rfl

/-- The two directions in which a transaction calls a backend. -/
def Sides (previous : Option Revision) (candidate : Revision) (source sink : Option Target) : Prop :=
  (source = previous.bind (·.target) ∧ sink = candidate.target) ∨
    (source = candidate.target ∧ sink = previous.bind (·.target))

theorem keeps_within {N N' : Native ω → Prop}
    {E : String → World ω → Prop} {f : Native ω → Native ω}
    (hN : ∀ n, N n → N' (f n)) (hqu : ∀ n, (f n).conflict = n.conflict)
    (ho : ∀ n, N n → ∀ o ∈ (f n).objects, o ∈ n.objects ∨
      h.owns (prev.bind (·.target)).toList o = true ∨ h.owns c.target.toList o = true)
    (hse : ∀ n, (f n).selected = n.selected ∨ (f n).selected = prev.bind (·.target) ∨
      (f n).selected = c.target) :
    Keeps (Sound h S) (Mid (fun d => Pending h.content prev c d ∧ R d) N G) (onNative f)
      (fun _ => Mid (fun d => Pending h.content prev c d ∧ R d) N' G) E := by
  refine keeps_onNative fun w _ hP => ⟨?_, hP.1, hN _ hP.2.1, hP.2.2⟩
  intro a _ j hj _ hc
  obtain ⟨jr, rfl, hco⟩ := hP.1.1.versions j hj
  exact hc.within hP.1.1 hco (hqu _) (ho _ hP.2.1) (hse _)

theorem known_of_sides (hsi : Sides prev c source sink) {N : Native ω → Prop}
    (hw : Sound h S w) (hP : Mid (fun d => Pending h.content prev c d ∧ R d) N G w)
    (ho : o ∈ w.native.objects) : h.owns (source.toList ++ sink.toList) o = true := by
  have hk := hw.known hP.1.1 ho
  rw [Host.owns, any_append, Bool.or_eq_true]
  rcases hsi with ⟨rfl, rfl⟩ | ⟨rfl, rfl⟩
  · exact hk
  · exact hk.symm

/-- **Apply** under a pending transaction: success selects the sink. -/
theorem keeps_apply (hsi : Sides prev c source sink) (hR : Lasting R) :
    Keeps (Sound h S) (Mid (fun d => Pending h.content prev c d ∧ R d)
        (fun _ => True) G) (h.apply source sink)
      (fun _ => Mid (fun d => Pending h.content prev c d ∧ R d) (fun n => n.selected = sink) G)
      (fun _ => Mid (fun d => Pending h.content prev c d ∧ R d) (fun _ => True) G) := by
  refine .bind (keeps_inventory fun w hI hP o ho => known_of_sides hsi hI hP ho) fun _ => ?_
  refine keeps_backendCall (fun s => keeps_progress_pending hR s) ?_ ?_
  · intro objs select
    refine keeps_within (fun _ _ => trivial) (fun _ => rfl) ?_ ?_
    · intro n _ o ho
      simp only [mem_filter, Bool.or_eq_true, contains_iff_mem] at ho
      rcases ho.2 with hold | hnew
      · exact .inl hold
      · rcases hsi with ⟨-, rfl⟩ | ⟨-, rfl⟩
        · exact .inr (Or.inr hnew)
        · exact .inr (Or.inl hnew)
    · intro n
      rcases hsi with ⟨rfl, rfl⟩ | ⟨rfl, rfl⟩
      · cases select <;> simp
      · cases select <;> simp
  · refine keeps_within (fun _ _ => rfl) (fun _ => rfl) (fun _ _ o ho => Or.inl ho) ?_
    intro n
    rcases hsi with ⟨-, rfl⟩ | ⟨-, rfl⟩
    · exact .inr (Or.inr rfl)
    · exact .inr (Or.inl rfl)

/-- The kernel holds nothing but the objects of one target, and selects it. -/
def Rests (h : Host ω) (t : Option Target) (n : Native ω) : Prop :=
  n.selected = t ∧ ∀ o ∈ n.objects, h.owns t.toList o = true

/-- **Retire** under a pending transaction: success leaves the kept target alone. -/
theorem keeps_retire (hsi : Sides prev c source sink) (hR : Lasting R) :
    Keeps (Sound h S) (Mid (fun d => Pending h.content prev c d ∧ R d)
        (fun n => n.selected = sink) G) (h.retire source sink)
      (fun _ => Mid (fun d => Pending h.content prev c d ∧ R d) (Rests h sink) G)
      (fun _ => Mid (fun d => Pending h.content prev c d ∧ R d)
        (fun n => n.selected = sink) G) := by
  refine .bind (keeps_inventory fun w hI hP o ho => known_of_sides hsi hI hP ho) fun _ => ?_
  refine keeps_backendCall (fun s => keeps_progress_pending hR s) ?_ ?_
  · intro objs select
    refine keeps_within (fun _ h => h) (fun _ => rfl) ?_ (fun _ => Or.inl rfl)
    intro n _ o ho
    simp only [mem_filter, contains_iff_mem] at ho
    exact .inl ho.2
  · refine keeps_within ?_ (fun _ => rfl) ?_ (fun _ => Or.inl rfl)
    · intro n hn
      exact ⟨hn, fun o ho => (mem_filter.mp ho).2⟩
    · intro n _ o ho
      exact .inl (mem_filter.mp ho).1

/-! ## Calls under a cleanup journal -/

/-- **Cleanup**: success leaves nothing. -/
theorem keeps_cleanup {c : Journal} (hop : c.operation = .cleanup) (hR : Lasting R)
    (hkn : ∀ w : World ω, Sound h S w → Versions c w.disk ∧ R w.disk →
      ∀ o ∈ w.native.objects, h.owns targets o = true) :
    Keeps (Sound h S) (Mid (fun d => Versions c d ∧ R d) (fun _ => True) G) (h.cleanup targets)
      (fun _ => Mid (fun d => Versions c d ∧ R d) (fun n => n.objects = [] ∧ n.selected = none) G)
      (fun _ => Mid (fun d => Versions c d ∧ R d) (fun _ => True) G) := by
  refine .bind (R := fun _ => Mid (fun d => Versions c d ∧ R d)
    (fun n => ∀ o ∈ n.objects, h.owns targets o = true) G) ?_ fun _ => ?_
  · refine (keeps_inventory (P := Mid (fun d => Versions c d ∧ R d) (fun _ => True) G)
      fun w hI hP => hkn w hI hP.1).returns ?_
    intro _ w hI hP
    exact ⟨hP.1, hkn w hI hP.1, hP.2.2⟩
  · refine (keeps_backendCall (P := Mid (fun d => Versions c d ∧ R d)
      (fun n => ∀ o ∈ n.objects, h.owns targets o = true) G)
      (fun s => keeps_progress hR s) ?_ ?_).fails
      fun _ _ _ hP => ⟨hP.1, trivial, hP.2.2⟩
    · intro objs select
      refine keeps_less hop ?_ (fun _ => rfl) ?_ ?_
      · intro n hn o ho
        simp only [mem_filter, contains_iff_mem] at ho
        exact hn o ho.2
      · intro n o ho
        simp only [mem_filter, contains_iff_mem] at ho
        exact ho.2
      · intro n
        cases select <;> simp
    · refine keeps_less hop ?_ (fun _ => rfl) (fun n o ho => (mem_filter.mp ho).1)
        (fun _ => Or.inr rfl)
      intro n hn
      refine ⟨filter_eq_nil_iff.mpr ?_, rfl⟩
      intro o ho
      simp [hn o ho]

end Calls

end Perimeterd.App
