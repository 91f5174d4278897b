import Perimeterd.State.Spec

/-!
# Specifications of the transaction steps

`Pending` is the situation between `Prepare` and `Finish`: both revisions are durable and every
journal that may be found is the same transaction, whatever its phase and family selections.
-/

namespace Perimeterd.State

open Lib Firewall List

variable {μ : Type} {ct : Revision → Except String Unit}
  {K : Disk → Option Id → Option Journal → Prop} {R : Disk → Prop} {d : Disk}

/-! ## Versions of a journal -/

theorem Pair.version {a : Option Id} {jr jr' : Journal} (h : Pair ct d a (some jr))
    (hc : jr'.core = jr.core) (hv : ValidJournal jr')
    (hs : ∀ s ∈ jr'.familySelections, Recorded ct d jr' s) : Pair ct d a (some jr') := by
  obtain ⟨hop, hp, hca, hpm, hcm, hre⟩ := Journal.core_fields hc
  have hj := h.journal jr rfl
  refine ⟨h.active, ?_, ?_, ?_⟩
  · rintro _ ⟨⟩
    refine ⟨validateJournal_iff.mpr hv, ?_, ?_, ?_, ?_, hs⟩
    · rw [hre]
      exact hj.stored
    · rw [hop, hp, hpm]
      exact hj.previous
    · rw [hop, hca, hcm]
      exact hj.candidate
    · rw [hop, hre, hp, hca]
      exact hj.form
  · rintro _ ⟨⟩ hap
    rw [hop] at hap
    have hag := h.agree jr rfl hap
    rw [Agrees, hp, hca]
    exact hag
  · rintro _ ⟨⟩
    rw [hre]
    exact h.listed jr rfl

/-- **Publishing a version** of the journal that is seen. -/
theorem keeps_publishVersion (hK : Coupling ct K) (hR : Steady R)
    (hRj : ∀ d v, R d → R (d.setJournal v)) {c jr jr' : Journal} (hc : jr'.core = jr.core)
    (hv : ValidJournal jr → ValidJournal jr')
    (hs : ∀ d, JournalSound ct d jr → R d → ∀ s ∈ jr'.familySelections,
      Recorded ct d jr' s) :
    Keeps (Inv ct K) (fun d => (Versions c d ∧ R d) ∧ d.journal.seen = some jr)
      (publishJournal jr' : Proc (Fate μ) Disk String Unit)
      (fun _ d => Versions c d ∧ R d) (fun _ d => Versions c d ∧ R d) := by
  have hst : Steady fun d => Versions c d ∧ R d := (Versions.steady c).and hR
  refine keeps_atomicPublish hK (S := fun d => Versions c d ∧ R d) ?_ shrinks_syncDir
    (fun d h => hst _ _ (shrinks_syncDir d) h) (fun _ h => h.1) (fun _ h => h) (fun _ h => h)
  rintro d hI ⟨⟨hve, hRd⟩, hse⟩
  obtain ⟨x, hx, hco⟩ := hve.seen
  rw [hse] at hx
  cases hx
  have hmem : some jr ∈ d.journal.all := hse ▸ d.journal.seen_mem
  refine ⟨hI.setJournal hK ?_ (by simp), hve.setJournal (hc.trans hco), hRj d _ hRd⟩
  intro a ha
  obtain ⟨hp, hk⟩ := hI.pairs a ha _ hmem
  have hj := hp.journal jr rfl
  exact ⟨hp.version hc (hv (validateJournal_iff.mp hj.valid)) (hs d hj hRd), hK.version hc hk⟩

theorem pendingApply_eq_ok {v : View} {j : Journal} :
    pendingApply v = .ok j ↔ v.journal = some j ∧ j.operation = .apply := by
  rw [pendingApply]
  cases hv : v.journal with
  | none => simp
  | some x =>
    by_cases hop : x.operation = .apply
    · simp only [if_pos hop, Except.ok.injEq, Option.some.injEq]
      constructor
      · rintro rfl
        exact ⟨rfl, hop⟩
      · exact fun h => h.1
    · simp only [if_neg hop, reduceCtorEq, false_iff]
      rintro ⟨⟨⟩, h⟩
      exact hop h

theorem keeps_markPhase (hK : Coupling ct K) (hR : Steady R)
    (hRj : ∀ d v, R d → R (d.setJournal v)) (c : Journal) (phase : Phase) :
    Keeps (Inv ct K) (fun d => Versions c d ∧ R d)
      (markPhase ct phase : Proc (Fate μ) Disk String Unit)
      (fun _ d => Versions c d ∧ R d) (fun _ d => Versions c d ∧ R d) := by
  refine .bind keeps_readView fun v => ?_
  refine .bind (R := fun j d => ((Versions c d ∧ R d) ∧ d.journal.seen = some j) ∧
    j.operation = .apply) ?_ fun j => ?_
  · refine .lift ?_ fun _ _ d _ h => h.1
    rintro j hj d hI ⟨h, hv⟩
    obtain ⟨hj, hop⟩ := pendingApply_eq_ok.mp hj
    exact ⟨⟨h, hv.journal.symm.trans hj⟩, hop⟩
  refine .bind (R := fun _ d => ((Versions c d ∧ R d) ∧ d.journal.seen = some j) ∧
    j.operation = .apply) (.ensure (fun _ d _ h => h) fun _ d _ h => h.1.1) fun _ => ?_
  by_cases hop : j.operation = .apply
  · have hc : ({ j with phase := phase } : Journal).core = j.core := rfl
    refine (keeps_publishVersion hK hR hRj hc ?_ ?_).pre fun d _ h => h.1
    · intro hv
      exact { hv with phase := fun h => absurd (hop.symm.trans h) (by decide) }
    · intro d hj _ s hs
      exact hj.selections s hs
  · intro d w hI h
    exact absurd h.2 hop

theorem mem_selectFamily {l : List FamilySelection} {s x : FamilySelection}
    (h : x ∈ selectFamily l s) : x = s ∨ x ∈ l := by
  rw [selectFamily] at h
  have h := (sortSlice_perm _ _).mem_iff.mp h
  split at h
  · obtain ⟨y, hy, hyx⟩ := mem_map.mp h
    split at hyx
    · exact .inl hyx.symm
    · exact .inr (hyx ▸ hy)
  · rcases mem_append.mp h with h | h
    · exact .inr h
    · exact .inl (mem_singleton.mp h)

theorem nodup_selectFamily {l : List FamilySelection} (h : (l.map (·.family)).Nodup)
    (s : FamilySelection) : ((selectFamily l s).map (·.family)).Nodup := by
  rw [selectFamily, ((sortSlice_perm _ _).map _).nodup_iff]
  split
  · have hma : (l.map fun x => if x.family = s.family then s else x).map (·.family) =
        l.map (·.family) := by
      rw [map_map]
      refine map_congr_left fun x _ => ?_
      by_cases hx : x.family = s.family
      · simp [hx]
      · simp [hx]
    rw [hma]
    exact h
  · rename_i hnew
    rw [map_append, map_singleton]
    refine h.append (nodup_singleton _) ?_
    rintro f hf hs
    rw [mem_singleton] at hs
    obtain ⟨x, hx, rfl⟩ := mem_map.mp hf
    exact hnew (any_eq_true.mpr ⟨x, hx, decide_eq_true hs⟩)

theorem recorded_of_check {v : View} {j : Journal} {s : FamilySelection}
    (hv : ∀ r ∈ v.revisions, Holds ct d r)
    (h : recordedFamilySelection v j s = true) : Recorded ct d j s := by
  rw [recordedFamilySelection] at h
  cases hg : s.generation with
  | none => exact .inl hg
  | some g =>
    rw [hg] at h
    obtain ⟨id, hid, ht⟩ := any_eq_true.mp h
    cases hf : v.find id with
    | none => simp [hf] at ht
    | some r =>
      have hmem := mem_of_find?_eq_some hf
      have hri : r.id = id := by simpa using List.find?_some hf
      cases hta : r.target with
      | none => simp [hf, hta] at ht
      | some t =>
        simp only [hf, Option.bind_some, hta, Bool.and_eq_true, decide_eq_true_eq] at ht
        exact .inr ⟨r, t, hri ▸ hid, hv r hmem, hta, ht.1.1, by rw [hg, ht.1.2], ht.2⟩

theorem keeps_recordFamilySelection (hK : Coupling ct K) (hR : Steady R)
    (hRj : ∀ d v, R d → R (d.setJournal v)) (c : Journal) (s : FamilySelection) :
    Keeps (Inv ct K) (fun d => Versions c d ∧ R d)
      (recordFamilySelection ct s : Proc (Fate μ) Disk String Unit)
      (fun _ d => Versions c d ∧ R d) (fun _ d => Versions c d ∧ R d) := by
  refine .bind keeps_readView fun v => ?_
  cases hv : v.journal with
  | none => exact .throw fun d _ h => h.1
  | some j =>
    refine .bind (R := fun _ d => ((Versions c d ∧ R d) ∧ d.journal.seen = some j) ∧
      Recorded ct d j s) ?_ fun _ => ?_
    · refine .ensure ?_ fun _ d _ h => h.1
      intro hc d hI h
      exact ⟨⟨h.1, h.2.journal.symm.trans hv⟩, recorded_of_check h.2.holds hc⟩
    have hre : Steady fun d => R d ∧ Recorded ct d j s := by
      intro d d' hs h
      exact ⟨hR _ _ hs h.1, h.2.kept (a := none) (Kept.of_survives hs.toSurvives)⟩
    have hco : ({ j with familySelections := selectFamily j.familySelections s } : Journal).core =
        j.core := rfl
    refine (keeps_publishVersion (R := fun d => R d ∧ Recorded ct d j s) (c := c) hK hre ?_
      hco ?_ ?_).conseq ?_ ?_ ?_
    · intro d v h
      exact ⟨hRj d v h.1, h.2.kept (a := none) (kept_setJournal v)⟩
    · intro hva
      exact { hva with families := nodup_selectFamily hva.families s }
    · intro d hj h x hx
      rcases mem_selectFamily hx with rfl | hx
      · exact h.2
      · exact hj.selections x hx
    · exact fun d _ h => ⟨⟨h.1.1.1, h.1.1.2, h.2⟩, h.1.2⟩
    · exact fun _ d _ h => ⟨h.1, h.2.1⟩
    · exact fun _ d _ h => ⟨h.1, h.2.1⟩

/-! ## Prepare -/

structure Pending (content : Revision → Except String Unit) (previous : Option Revision)
    (candidate : Revision) (d : Disk) : Prop where
  versions : Versions (applyJournal previous candidate).core d
  prev : ∀ p, previous = some p → Holds content d p
  cand : Holds content d candidate

/-- No transaction is seen and the active revision is certain. -/
structure Idle (content : Revision → Except String Unit) (previous : Option Revision) (d : Disk) :
    Prop where
  journal : d.journal.seen = none
  active : d.active.Only (previous.map (·.id))
  prev : ∀ p, previous = some p → Holds content d p

theorem idle_steady (previous : Option Revision) : Steady (Idle ct previous) :=
  fun _ _ hs h => ⟨hs.journalSeen.trans h.journal, h.active.survives hs.active,
    fun p hp => (h.prev p hp).survives hs.toSurvives⟩

/-- No file of the candidate's name exists, or the candidate is the active revision. -/
def Fresh (previous : Option Revision) (candidate : Revision) (d : Disk) : Prop :=
  (d.revisions candidate.id).seen = none ∨ previous = some candidate

theorem fresh_steady (prev : Option Revision) (cand : Revision) : Steady (Fresh prev cand) := by
  rintro d d' hs (h | h)
  · exact .inl ((hs.revisionsSeen cand.id).trans h)
  · exact .inr h

theorem keeps_validatePrevious {P : Disk → Prop} (prev : Option Revision) :
    Keeps (Inv ct K) P (validatePrevious ct prev : Proc (Fate μ) Disk String Unit)
      (fun _ d => P d ∧ ∀ p, prev = some p → (d.revisions p.id).seen = some p)
      (fun _ => P) := by
  cases prev with
  | none => exact .pure fun d _ h => ⟨h, by simp⟩
  | some p =>
    refine .bind (keeps_validate (P := P)) fun _ => ?_
    refine keeps_ensureRevisionMatches.conseq (fun d _ h => h.1) ?_ fun _ d _ h => h
    rintro _ d _ ⟨h, hse⟩
    refine ⟨h, ?_⟩
    rintro _ ⟨⟩
    exact hse

/-- A revision that is only missing its file. -/
structure Ready (content : Revision → Except String Unit) (candidate : Revision) (d : Disk) :
    Prop where
  version : candidate.version = recordVersion
  content : content candidate = .ok ()
  manifest : ∀ m, candidate.manifest = some m → (d.manifests m).Only true

theorem keeps_publishRevision (hK : Coupling ct K) (previous : Option Revision) (cand : Revision) :
    Keeps (Inv ct K) (fun d => Idle ct previous d ∧ Ready ct cand d ∧
        (d.revisions cand.id).seen = none)
      (publishRevision cand : Proc (Fate μ) Disk String Unit)
      (fun _ d => Idle ct previous d ∧ Holds ct d cand) (fun _ _ => True) := by
  refine keeps_atomicPublish hK (S := fun d => Idle ct previous d ∧ Ready ct cand d ∧
      (d.revisions cand.id).seen = some cand) ?_ shrinks_syncRevisions ?_
    (fun _ _ => trivial) (fun _ _ => trivial) (fun _ _ => trivial)
  · rintro d hI ⟨hidle, hre, hse⟩
    refine ⟨hI.setRevision hK (hI.not_named hse), ⟨hidle.journal, hidle.active, ?_⟩,
      ⟨hre.version, hre.content, hre.manifest⟩, by simp [Disk.setRevision]⟩
    intro p hp
    refine (hidle.prev p hp).setRevision ?_
    intro hid
    have hf := (hidle.prev p hp).file.seen
    rw [hid, hse] at hf
    cases hf
  · rintro d ⟨hidle, hre, hse⟩
    refine ⟨idle_steady previous _ _ (shrinks_syncRevisions d) hidle, ?_, hre.version,
      hre.content, hre.manifest⟩
    rw [← hse]
    exact (d.revisions cand.id).only_sync

theorem keeps_writeImmutableRevision (hK : Coupling ct K) (previous : Option Revision)
    (candidate : Revision) :
    Keeps (Inv ct K) (fun d => Idle ct previous d ∧ Ready ct candidate d ∧
        Fresh previous candidate d)
      (writeImmutableRevision ct candidate : Proc (Fate μ) Disk String Unit)
      (fun _ d => Idle ct previous d ∧ Holds ct d candidate) (fun _ _ => True) := by
  refine .bind (R := fun x d => (Idle ct previous d ∧ Ready ct candidate d ∧
    Fresh previous candidate d) ∧ (d.revisions candidate.id).seen = x)
    (.observe fun d _ h => ⟨h, rfl⟩) fun x => ?_
  cases x with
  | none => exact (keeps_publishRevision hK previous candidate).pre fun d _ h =>
      ⟨h.1.1, h.1.2.1, h.2⟩
  | some e =>
    -- an existing file is the active revision's own
    have hst : ∀ d, ((Idle ct previous d ∧ Ready ct candidate d ∧
        Fresh previous candidate d) ∧ (d.revisions candidate.id).seen = some e) →
          Idle ct previous d ∧ Holds ct d candidate := by
      rintro d ⟨⟨hidle, -, hfr⟩, hse⟩
      rcases hfr with hf | hf
      · rw [hf] at hse
        cases hse
      · exact ⟨hidle, hidle.prev candidate hf⟩
    refine .bind (R := fun _ d => Idle ct previous d ∧ Holds ct d candidate)
      (.observe fun d _ h => hst d h) fun x => ?_
    refine .bind (R := fun _ d => Idle ct previous d ∧ Holds ct d candidate)
      (.lift (fun _ _ _ _ h => h) fun _ _ _ _ _ => trivial) fun _ => ?_
    refine .bind (R := fun _ d => Idle ct previous d ∧ Holds ct d candidate)
      (.ensure (fun _ _ _ h => h) fun _ _ _ _ => trivial) fun _ => ?_
    exact keeps_checkpoint.fails fun _ _ _ _ => trivial

theorem valid_applyJournal (prev : Option Revision) (candidate : Revision) :
    ValidJournal (applyJournal prev candidate) where
  version := rfl
  candidate _ := by simp [applyJournal]
  phase h := by cases h
  previousManifest h := by
    cases prev with
    | none => rfl
    | some p => cases h
  candidateManifest h := by cases h
  families := nodup_nil
  revisions := by
    cases prev with
    | none => simp [applyJournal]
    | some p =>
      by_cases h : p.id = candidate.id
      · simp [applyJournal, h]
      · simp [applyJournal, h]
  references id hid := by
    cases prev with
    | none => simpa [applyJournal] using hid
    | some p =>
      by_cases h : p.id = candidate.id
      · simpa [applyJournal, h] using hid
      · simpa [applyJournal, h] using hid

theorem pair_applyJournal {previous : Option Revision} {cand : Revision}
    (hidle : Idle ct previous d) (hc : Holds ct d cand) :
    Pair ct d (previous.map (·.id)) (some (applyJournal previous cand)) := by
  refine ⟨?_, ?_, ?_, ?_⟩
  · intro id hid
    obtain ⟨p, hp, rfl⟩ := Option.map_eq_some_iff.mp hid
    exact ⟨p, rfl, hidle.prev p hp⟩
  · rintro _ ⟨⟩
    refine ⟨validateJournal_iff.mpr (valid_applyJournal previous cand), ?_, ?_, ?_,
      fun _ => rfl, ?_⟩
    · intro id hid
      rcases mem_append.mp hid with hid | hid
      · obtain ⟨p, hp, rfl⟩ := Option.map_eq_some_iff.mp (Option.mem_toList.mp hid)
        exact ⟨p, rfl, hidle.prev p hp⟩
      · split at hid
        · cases hid
        · rw [mem_singleton.mp hid]
          exact ⟨cand, rfl, hc⟩
    · intro _ id hid
      obtain ⟨p, hp, rfl⟩ := Option.map_eq_some_iff.mp hid
      refine ⟨p, rfl, hidle.prev p hp, ?_⟩
      simp [applyJournal, hp]
    · rintro _ _ ⟨⟩
      exact ⟨cand, rfl, hc, rfl⟩
    · rintro s hs
      cases hs
  · rintro _ ⟨⟩ _
    exact ⟨fun h => h, fun _ => Or.inl rfl⟩
  · rintro _ ⟨⟩ id hid
    exact mem_append_left _ (Option.mem_toList.mpr hid)

/-- **Prepare**: when it returns, the transaction is durable and nothing else may be found. -/
theorem keeps_prepare (hK : Coupling ct K) (previous : Option Revision) (cand : Revision) :
    Keeps (Inv ct K) (Fresh previous cand)
      (prepare ct previous cand : Proc (Fate μ) Disk String Unit)
      (fun _ d => d.active.Only (previous.map (·.id)) ∧ Pending ct previous cand d)
      (fun _ _ => True) := by
  refine .bind (keeps_validate.fails fun _ _ _ _ => trivial) fun _ => ?_
  refine .bind ((keeps_validatePrevious previous).fails fun _ _ _ _ => trivial)
    fun _ => ?_
  refine .bind (keeps_readView.fails fun _ _ _ _ => trivial) fun v => ?_
  refine .bind (R := fun _ d => ((((Fresh previous cand d ∧
    cand.version = recordVersion ∧ ct cand = .ok ()) ∧
      ∀ p, previous = some p → (d.revisions p.id).seen = some p) ∧ Viewed ct d v) ∧
        v.journal = none)) (.ensure (fun h _ _ hP => ⟨hP, h⟩) fun _ _ _ _ => trivial)
    fun _ => ?_
  refine .bind (R := fun _ d => Idle ct previous d ∧ (cand.version = recordVersion ∧
    ct cand = .ok ()) ∧ Fresh previous cand d) ?_ fun _ => ?_
  · refine .ensure ?_ fun _ _ _ _ => trivial
    rintro hac d hI ⟨⟨⟨⟨hf, hva⟩, hfil⟩, hv⟩, hjn⟩
    have hj : d.journal.seen = none := hv.journal.symm.trans hjn
    have hse : d.active.seen = previous.map (·.id) := hv.active.symm.trans hac
    have ho : d.active.Only (previous.map (·.id)) := by
      intro a ha
      rw [← hse]
      exact hI.certain (hj ▸ d.journal.seen_mem) a ha _ d.active.seen_mem
    refine ⟨⟨hj, ho, ?_⟩, hva, hf⟩
    intro p hp
    obtain ⟨r, hid, hr⟩ := hI.pair.active p.id (by rw [hse, hp]; rfl)
    have hfi := hr.file.seen
    rw [hid, hfil p hp] at hfi
    cases hfi
    exact hr
  have hst : Steady fun d => Idle ct previous d ∧ (cand.version = recordVersion ∧
      ct cand = .ok ()) ∧ Fresh previous cand d :=
    fun d d' hs h => ⟨idle_steady previous d d' hs h.1, h.2.1,
      fresh_steady previous cand d d' hs h.2.2⟩
  refine .bind ((keeps_stabilizeManifest hK hst _).post (fun _ _ _ h => h.1)
    fun _ _ _ _ => trivial) fun _ => ?_
  refine .bind ((keeps_stabilizeManifest hK hst _).fails
    fun _ _ _ _ => trivial) fun _ => ?_
  refine .bind ((keeps_writeImmutableRevision hK previous cand).pre ?_) fun _ => ?_
  · rintro d _ ⟨⟨hidle, hva, hf⟩, hma⟩
    exact ⟨hidle, ⟨hva.1, hva.2, hma⟩, hf⟩
  refine keeps_atomicPublish hK (S := fun d => (d.active.Only (previous.map (·.id)) ∧
      (∀ p, previous = some p → Holds ct d p) ∧ Holds ct d cand) ∧
        d.journal.seen = some (applyJournal previous cand)) ?_ shrinks_syncDir ?_
    (fun _ _ => trivial) (fun _ _ => trivial) (fun _ _ => trivial)
  · rintro d hI ⟨hidle, hc⟩
    refine ⟨hI.setJournal hK ?_ (by simp), ⟨hidle.active, ?_, ?_⟩, rfl⟩
    · intro a ha
      rw [hidle.active a ha]
      refine ⟨pair_applyJournal hidle hc, hK.prepared rfl rfl ?_ ?_⟩
      · intro id hid
        exact mem_append_left _ (Option.mem_toList.mpr hid)
      · have hk := hI.coupled
        rw [hidle.journal, hidle.active.seen] at hk
        exact hk
    · exact fun p hp => (hidle.prev p hp).of_files rfl rfl
    · exact hc.of_files rfl rfl
  · rintro d ⟨⟨hac, hpr, hc⟩, hj⟩
    have hs := (shrinks_syncDir d).toSurvives
    refine ⟨hac.survives hs.active, ?_, fun p hp => (hpr p hp).survives hs, hc.survives hs⟩
    intro j hmem
    rw [Cell.mem_sync.mp hmem, hj]
    exact ⟨_, rfl, rfl⟩

end Perimeterd.State
