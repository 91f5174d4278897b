import Perimeterd.State.Reader

/-!
# Specifications of the store's operations

One `Keeps` specification per operation. Each says that the invariant holds wherever the operation
may be cut, and what is certain when it returns. Facts the operation has no business with are carried
through as a predicate `R`, which only has to survive the elementary effects the operation performs.
-/

namespace Perimeterd.State

open Lib Firewall

/-- A synchronization: what is seen stays, what might have come back may be forgotten. -/
structure Disk.Shrinks (d d' : Disk) : Prop extends d.Survives d' where
  activeSeen : d'.active.seen = d.active.seen
  journalSeen : d'.journal.seen = d.journal.seen
  revisionsSeen : ∀ id, (d'.revisions id).seen = (d.revisions id).seen
  manifestsSeen : ∀ m, (d'.manifests m).seen = (d.manifests m).seen

/-- A predicate that synchronization does not disturb. -/
def Steady (R : Disk → Prop) : Prop := ∀ d d' : Disk, d.Shrinks d' → R d → R d'

theorem shrinks_syncDir (d : Disk) : d.Shrinks d.syncDir :=
  ⟨survives_syncDir d, rfl, rfl, fun _ => rfl, fun _ => rfl⟩

theorem shrinks_syncRevisions (d : Disk) : d.Shrinks d.syncRevisions :=
  ⟨survives_syncRevisions d, rfl, rfl, fun _ => rfl, fun _ => rfl⟩

theorem shrinks_syncManifest (d : Disk) (m : Manifest) : d.Shrinks (d.syncManifest m) := by
  refine ⟨survives_syncManifest d m, rfl, rfl, fun _ => rfl, fun i => ?_⟩
  simp only [Disk.syncManifest]
  split <;> rfl

/-- Every journal that may be found is a version of the same one. -/
def Versions (c : Journal) (d : Disk) : Prop :=
  ∀ j ∈ d.journal.all, ∃ jr, j = some jr ∧ jr.core = c

theorem Versions.steady (c : Journal) : Steady (Versions c) :=
  fun _ _ hs h j hj => h j (hs.journal j hj)

theorem Versions.seen {c : Journal} {d : Disk} (h : Versions c d) :
    ∃ jr, d.journal.seen = some jr ∧ jr.core = c := h _ d.journal.seen_mem

theorem Versions.not_none {c : Journal} {d : Disk} (h : Versions c d) : none ∉ d.journal.all := by
  intro hn
  obtain ⟨jr, hjr, -⟩ := h none hn
  cases hjr

theorem Versions.setJournal {c jr : Journal} {d : Disk} (h : Versions c d) (hc : jr.core = c) :
    Versions c (d.setJournal (some jr)) := by
  intro j hj
  rcases Cell.mem_write.mp hj with rfl | hj
  · exact ⟨jr, rfl, hc⟩
  · exact h j hj

theorem only_steady_active (a : Option Id) : Steady fun d => d.active.Only a :=
  fun _ _ hs h => h.survives hs.active

theorem Steady.and {R S : Disk → Prop} (hR : Steady R) (hS : Steady S) :
    Steady fun d => R d ∧ S d :=
  fun _ _ hs h => ⟨hR _ _ hs h.1, hS _ _ hs h.2⟩

section Spec

variable {μ : Type} {ct : Revision → Except String Unit}
  {K : Disk → Option Id → Option Journal → Prop} {P R : Disk → Prop}

/-! ## Elementary steps -/

theorem keeps_perform {I : Disk → Prop} {what : String} {f : Disk → Disk} {Q : Unit → Disk → Prop}
    {E : String → Disk → Prop} (hok : ∀ d, I d → P d → I (f d) ∧ Q () (f d))
    (her : ∀ d, I d → P d → E what d) :
    Keeps I P (perform what f : Proc (Fate μ) Disk String Unit) Q E := by
  refine .step ?_
  intro fate d hI hP
  cases fate with
  | ok => exact hok d hI hP
  | fail => exact ⟨hI, her d hI hP⟩
  | choose m => exact ⟨hI, her d hI hP⟩

theorem keeps_checkpoint {I : Disk → Prop} {name : String} :
    Keeps I P (checkpoint name : Proc (Fate μ) Disk String Unit) (fun _ => P) (fun _ => P) :=
  keeps_perform (fun _ hI hP => ⟨hI, hP⟩) fun _ _ hP => hP

theorem keeps_sync (hK : Coupling ct K) (hR : Steady R) {what : String} {f : Disk → Disk}
    (hf : ∀ d : Disk, d.Shrinks (f d)) {Q : Unit → Disk → Prop} (hQ : ∀ d, R d → Q () (f d)) :
    Keeps (Inv ct K) R (perform what f : Proc (Fate μ) Disk String Unit)
      (fun _ d => R d ∧ Q () d) (fun _ => R) :=
  keeps_perform (fun d hI hP => ⟨hI.survives hK (hf d).toSurvives, hR _ _ (hf d) hP, hQ d hP⟩)
    fun _ _ hP => hP

/-- **Publication**: `S` after the rename, `T` once the directory is synchronized as well. -/
theorem keeps_atomicPublish (hK : Coupling ct K) {S T : Disk → Prop} {E : Disk → Prop}
    {rc : String} {rename sync : Disk → Disk}
    (hre : ∀ d, Inv ct K d → P d → Inv ct K (rename d) ∧ S (rename d))
    (hsy : ∀ d : Disk, d.Shrinks (sync d)) (hT : ∀ d, S d → T (sync d))
    (hP : ∀ d, P d → E d) (hS : ∀ d, S d → E d) (hTE : ∀ d, T d → E d) :
    Keeps (Inv ct K) P (atomicPublish rc rename sync : Proc (Fate μ) Disk String Unit)
      (fun _ => T) (fun _ => E) := by
  have before : ∀ name : String, Keeps (Inv ct K) P
      (checkpoint name : Proc (Fate μ) Disk String Unit) (fun _ => P) (fun _ => E) :=
    fun name => keeps_checkpoint.fails fun _ d _ h => hP d h
  refine .bind (before _) fun _ => Keeps.bind (before _) fun _ => ?_
  refine .bind (R := fun _ => S) (keeps_perform hre fun d _ h => hP d h) fun _ => ?_
  refine .bind (keeps_checkpoint.fails fun _ d _ h => hS d h) fun _ => ?_
  refine .bind (R := fun _ => T) ?_ fun _ => ?_
  · exact keeps_perform (fun d hI h => ⟨hI.survives hK (hsy d).toSurvives, hT d h⟩)
      fun d _ h => hS d h
  · exact keeps_checkpoint.fails fun _ d _ h => hTE d h

theorem keeps_readView :
    Keeps (Inv ct K) P (readView ct : Proc (Fate μ) Disk String View)
      (fun v d => P d ∧ Viewed ct d v) (fun _ => P) := by
  refine .bind keeps_checkpoint fun _ => ?_
  refine .bind (R := fun x d => P d ∧ x = read ct d) (.observe fun d _ hP => ⟨hP, rfl⟩) fun x => ?_
  refine .lift ?_ ?_
  · rintro v rfl d hI ⟨hP, hread⟩
    obtain ⟨v', hv', hvi⟩ := read_of_pair hI.pair
    rw [hv'] at hread
    cases hread
    exact ⟨hP, hvi⟩
  · rintro e rfl d hI ⟨hP, -⟩
    exact hP

theorem keeps_validate {label : String} {r : Revision} :
    Keeps (Inv ct K) P (validate ct label r : Proc (Fate μ) Disk String Unit)
      (fun _ d => P d ∧ r.version = recordVersion ∧ ct r = .ok ()) (fun _ => P) := by
  refine .bind keeps_checkpoint fun _ => ?_
  refine .bind (R := fun x d => P d ∧ x = validateRevision ct d r)
    (.observe fun d _ hP => ⟨hP, rfl⟩) fun x => ?_
  refine .lift ?_ fun _ _ d _ h => h.1
  rintro ⟨⟩ hx d hI ⟨hP, hva⟩
  rw [mapError_eq_ok] at hx
  rw [hx, validateRevision] at hva
  by_cases hv : r.version = recordVersion
  · rw [if_neg (not_not.mpr hv)] at hva
    cases hm : r.manifest with
    | none =>
      rw [hm] at hva
      exact ⟨hP, hv, hva.symm⟩
    | some m =>
      rw [hm] at hva
      exact ⟨hP, hv, (ite_throw_eq_ok.mp hva.symm).2⟩
  · rw [if_pos hv] at hva
    cases hva

theorem keeps_ensureRevisionMatches {r : Revision} :
    Keeps (Inv ct K) P (ensureRevisionMatches ct r : Proc (Fate μ) Disk String Unit)
      (fun _ d => P d ∧ (d.revisions r.id).seen = some r) (fun _ => P) := by
  refine .bind keeps_checkpoint fun _ => ?_
  refine .bind (R := fun x d => P d ∧ (d.revisions r.id).seen = x)
    (.observe fun d _ hP => ⟨hP, rfl⟩) fun x => ?_
  refine .bind (R := fun _ d => P d ∧ (d.revisions r.id).seen = some r) ?_ fun _ => ?_
  · refine .ensure ?_ fun _ d _ h => h.1
    rintro rfl d _ h
    exact h
  refine .bind (R := fun _ d => P d ∧ (d.revisions r.id).seen = some r)
    (.observe fun d _ h => h) fun x => ?_
  refine .bind (R := fun _ d => P d ∧ (d.revisions r.id).seen = some r) ?_ fun _ => ?_
  · exact .lift (fun _ _ d _ h => h) fun _ _ d _ h => h.1
  · exact .pure fun d _ h => h

theorem keeps_stabilizeManifest (hK : Coupling ct K) (hR : Steady R) (m : Option Manifest) :
    Keeps (Inv ct K) R (stabilizeManifest m : Proc (Fate μ) Disk String Unit)
      (fun _ d => R d ∧ ∀ i, m = some i → (d.manifests i).Only true) (fun _ => R) := by
  cases m with
  | none => exact .pure fun d _ h => ⟨h, by simp⟩
  | some m =>
    have hR' : Steady fun d => R d ∧ (d.manifests m).seen = true := by
      intro d d' hs h
      exact ⟨hR _ _ hs h.1, (hs.manifestsSeen m).trans h.2⟩
    refine .bind (R := fun x d => R d ∧ (d.manifests m).seen = x)
      (.observe fun d _ h => ⟨h, rfl⟩) fun x => ?_
    refine .bind (R := fun _ d => R d ∧ (d.manifests m).seen = true) ?_ fun _ => ?_
    · exact .ensure (by rintro rfl d _ h; exact h) fun _ d _ h => h.1
    refine .bind (keeps_checkpoint.fails fun _ _ _ h => h.1) fun _ => ?_
    refine .bind (keeps_checkpoint.fails fun _ _ _ h => h.1) fun _ => ?_
    refine (keeps_sync hK hR' (fun d => shrinks_syncManifest d m)
      (Q := fun _ d => (d.manifests m).Only true) ?_).post ?_ fun _ _ _ h => h.1
    · intro d h
      simp only [Disk.syncManifest, if_true]
      rw [← h.2]
      exact (d.manifests m).only_sync
    · rintro _ d _ ⟨⟨h, -⟩, hal⟩
      refine ⟨h, ?_⟩
      rintro i ⟨⟩
      exact hal

end Spec

end Perimeterd.State
