import Perimeterd.State.Transactions

/-!
# Specifications of commit, stabilization, cleanup and retirement
-/

namespace Perimeterd.State

open Lib Firewall List

variable {μ : Type} {ct : Revision → Except String Unit}
  {K : Disk → Option Id → Option Journal → Prop} {R : Disk → Prop} {d : Disk}

/-! ## Commit -/

variable {id i : Id} {a : Option Id}

theorem pending_steady (previous : Option Revision) (c : Revision) :
    Steady (Pending ct previous c) :=
  fun _ _ hs h => ⟨Versions.steady _ _ _ hs h.versions,
    fun p hp => (h.prev p hp).survives hs.toSurvives, h.cand.survives hs.toSurvives⟩

theorem Pending.setActive {previous : Option Revision} {c : Revision}
    (h : Pending ct previous c d) (v : Option Id) : Pending ct previous c (d.setActive v) :=
  ⟨h.versions, fun p hp => (h.prev p hp).of_files rfl rfl, h.cand.of_files rfl rfl⟩

theorem mem_applyJournal {prev : Option Revision} {cand : Revision} :
    id ∈ (applyJournal prev cand).revisions ↔ prev.map (·.id) = some id ∨ cand.id = id := by
  simp only [applyJournal, mem_append, Option.mem_toList]
  by_cases heq : prev.map (·.id) = some cand.id
  · rw [if_pos heq]
    constructor
    · rintro (hp | hc)
      · exact .inl hp
      · simp at hc
    · rintro (hp | rfl)
      · exact .inl hp
      · exact .inl heq
  · rw [if_neg heq, mem_singleton]
    exact or_congr Iff.rfl eq_comm

theorem Pending.named {previous : Option Revision} {c : Revision}
    (hpe : Pending ct previous c d) {jr : Journal} (hco : jr.core = (applyJournal previous c).core)
    (hpa : Pair ct d a (some jr)) {r : Revision} (hr : Holds ct d r)
    (hn : Names a (some jr) r.id) : previous = some r ∨ c = r := by
  obtain ⟨-, -, -, -, -, hre⟩ := Journal.core_fields hco
  have hmem : r.id ∈ jr.revisions := by
    rcases hn with ha | ⟨jr', hjr, hmem⟩
    · exact hpa.listed jr rfl r.id ha
    · cases hjr
      exact hmem
  rw [hre, mem_applyJournal] at hmem
  rcases hmem with hp | hc
  · obtain ⟨p, hp, hid⟩ := Option.map_eq_some_iff.mp hp
    exact .inl (hp.trans (congrArg some ((hpe.prev p hp).unique hr hid)))
  · exact .inr (hpe.cand.unique hr hc)

/-- **Commit**: when it returns, the candidate is certainly the active revision. -/
theorem keeps_commit (hK : Coupling ct K) (prev : Option Revision) (c : Revision)
    (hco : ∀ d, Pending ct prev c d → ∀ a jr, JournalSound ct d jr →
      jr.operation = .apply → Agrees a jr → K d a (some jr) → K d (some c.id) (some jr)) :
    Keeps (Inv ct K) (Pending ct prev c) (commit ct c : Proc (Fate μ) Disk String Unit)
      (fun _ d => Pending ct prev c d ∧ d.active.Only (some c.id))
      (fun _ => Pending ct prev c) := by
  refine .bind (keeps_validate.returns fun _ _ _ h => h.1) fun _ => ?_
  refine .bind (keeps_readView.returns fun _ _ _ h => h.1) fun v => ?_
  refine .bind (R := fun _ => Pending ct prev c)
    (.lift (fun _ _ _ _ h => h) fun _ _ _ _ h => h) fun j => ?_
  refine .bind (R := fun _ => Pending ct prev c)
    (.ensure (fun _ _ _ h => h) fun _ _ _ h => h) fun _ => ?_
  refine .bind (keeps_ensureRevisionMatches.returns fun _ _ _ h => h.1) fun _ => ?_
  refine keeps_atomicPublish hK (S := fun d => Pending ct prev c d ∧
      d.active.seen = some c.id) ?_ shrinks_syncDir ?_ (fun _ h => h) (fun _ h => h.1)
    (fun _ h => h.1)
  · rintro d hI hpe
    refine ⟨hI.setActive hK ?_ (fun hn => absurd hn hpe.versions.not_none),
      hpe.setActive _, rfl⟩
    intro j hj
    obtain ⟨jr, rfl, hcor⟩ := hpe.versions j hj
    obtain ⟨hop, -, hca, -, -, -⟩ := Journal.core_fields hcor
    obtain ⟨hp, hk⟩ := hI.pairs _ d.active.seen_mem _ hj
    have hs := hp.journal jr rfl
    have hc : jr.candidate = some c.id := hca
    refine ⟨⟨?_, hp.journal, ?_, ?_⟩, 
      hco d hpe _ jr hs hop (hp.agree jr rfl hop) hk⟩
    · rintro _ ⟨⟩
      exact ⟨c, rfl, hpe.cand⟩
    · rintro _ ⟨⟩ _
      exact ⟨by simp, fun _ => Or.inr hc.symm⟩
    · rintro _ ⟨⟩ _ ⟨⟩
      exact mem_revisions_of_valid hs.valid (Or.inr hc)
  · rintro d ⟨hpe, hse⟩
    refine ⟨pending_steady prev c _ _ (shrinks_syncDir d) hpe, ?_⟩
    rw [← hse]
    exact d.active.only_sync

/-! ## Stabilize -/

/-- What is seen in the state directory is what a crash will find. -/
def Synced (d : Disk) : Prop := d.active.Only d.active.seen ∧ d.journal.Only d.journal.seen

theorem synced_syncDir (d : Disk) : Synced d.syncDir := ⟨d.active.only_sync, d.journal.only_sync⟩

theorem synced_steady : Steady Synced := by
  rintro d d' hs ⟨ha, hj⟩
  rw [Synced, hs.activeSeen, hs.journalSeen]
  exact ⟨ha.survives hs.active, hj.survives hs.journal⟩

/-- **Stabilize** makes what is seen certain and disturbs nothing. -/
theorem keeps_stabilize (hK : Coupling ct K) (hR : Steady R) :
    Keeps (Inv ct K) R (stabilize ct : Proc (Fate μ) Disk String Unit)
      (fun _ d => R d ∧ Synced d) (fun _ => R) := by
  refine .bind (keeps_readView.returns fun _ _ _ h => h.1) fun v => ?_
  refine .bind (R := fun _ => R) ?_ fun _ => ?_
  · exact .each (J := fun _ => R) (fun r _ => (keeps_stabilizeManifest hK hR r.manifest).returns
      fun _ _ _ h => h.1) v.revisions
  refine .bind keeps_checkpoint fun _ => ?_
  refine .bind (R := fun _ => R) ?_ fun _ => ?_
  · exact .each (J := fun _ => R) (fun _ _ => keeps_checkpoint) v.revisions
  refine .bind keeps_checkpoint fun _ => ?_
  refine .bind (keeps_sync hK hR shrinks_syncDir (Q := fun _ => Synced)
    fun d _ => synced_syncDir d) fun _ => ?_
  refine (keeps_sync hK (hR.and synced_steady) shrinks_syncRevisions (Q := fun _ _ => True)
    fun _ _ => trivial).post (fun _ _ _ h => h.1) fun _ _ _ h => h.1

/-! ## Finish -/

structure Rooted (content : Revision → Except String Unit) (kept : Option Revision)
    (d : Disk) : Prop where
  active : d.active.Only (kept.map (·.id))
  stored : ∀ p, kept = some p → Holds content d p

/-- The active revision is certain and the journal is gone for good. -/
structure Finished (content : Revision → Except String Unit) (kept : Option Revision)
    (d : Disk) : Prop extends Rooted content kept d where
  journal : d.journal.Only none

theorem rooted_steady (kept : Option Revision) : Steady (Rooted ct kept) :=
  fun _ _ hs h => ⟨h.active.survives hs.active,
    fun p hp => (h.stored p hp).survives hs.toSurvives⟩

theorem finished_steady (kept : Option Revision) : Steady (Finished ct kept) :=
  fun _ _ hs h => ⟨rooted_steady kept _ _ hs h.toRooted, h.journal.survives hs.journal⟩

theorem keeps_removeRevision (hK : Coupling ct K) (kept : Option Revision)
    (hne : kept.map (·.id) ≠ some id) (what : String) :
    Keeps (Inv ct K) (Finished ct kept)
      (perform what (·.setRevision id none) : Proc (Fate μ) Disk String Unit)
      (fun _ => Finished ct kept) (fun _ => Finished ct kept) := by
  refine keeps_perform ?_ fun _ _ h => h
  intro d hI h
  refine ⟨hI.setRevision hK ?_, ⟨h.active, ?_⟩, h.journal⟩
  · rintro a ha j hj (hn | ⟨jr, hjr, -⟩)
    · rw [h.active a ha] at hn
      exact hne hn
    · rw [h.journal j hj] at hjr
      cases hjr
  · intro p hp
    refine (h.stored p hp).setRevision ?_
    rintro rfl
    exact hne (by rw [hp]; rfl)

theorem keeps_retireRevision (hK : Coupling ct K) (kept : Option Revision) (id : Id) :
    Keeps (Inv ct K) (Finished ct kept)
      (retireRevision (kept.map (·.id)) id : Proc (Fate μ) Disk String Unit)
      (fun _ => Finished ct kept) (fun _ => Finished ct kept) := by
  rw [retireRevision]
  by_cases hke : kept.map (·.id) = some id
  · rw [if_pos hke]
    exact .done
  · rw [if_neg hke]
    refine .bind keeps_checkpoint fun _ => ?_
    refine .bind .look fun present => ?_
    cases present with
    | false => exact .done
    | true =>
      refine .bind (keeps_removeRevision hK kept hke _) fun _ => ?_
      exact (keeps_sync hK (finished_steady kept) shrinks_syncRevisions (Q := fun _ _ => True)
        fun _ _ => trivial).returns fun _ _ _ h => h.1

/-- Everything is in place for the journal to go: the active revision is certain and what has to be
coupled to it is coupled to it alone. -/
structure Settled (content : Revision → Except String Unit)
    (K : Disk → Option Id → Option Journal → Prop) (kept : Option Revision) (d : Disk) :
    Prop extends Rooted content kept d where
  coupled : K d (kept.map (·.id)) none

theorem Pair.forget {j : Option Journal} (h : Pair ct d a j) : Pair ct d a none :=
  ⟨h.active, by simp, by simp, by simp⟩

theorem Rooted.setJournal {kept : Option Revision} (h : Rooted ct kept d)
    (v : Option Journal) : Rooted ct kept (d.setJournal v) :=
  ⟨h.active, fun p hp => (h.stored p hp).of_files rfl rfl⟩

/-- **Finish**: the journal is removed for good before any revision file is. -/
theorem keeps_finish (hK : Coupling ct K) (kept : Option Revision) (c : Journal) :
    Keeps (Inv ct K) (fun d => Versions c d ∧ Settled ct K kept d)
      (finish ct : Proc (Fate μ) Disk String Unit)
      (fun _ => Finished ct kept) (fun _ => Rooted ct kept) := by
  refine .bind (keeps_readView.fails fun _ _ _ h => h.2.toRooted) fun v => ?_
  refine .of_state fun d₀ _ hd₀ => ?_
  obtain ⟨⟨hve, hse⟩, hv⟩ := hd₀
  obtain ⟨jr, hjr, -⟩ := hve.seen
  have hvj : v.journal = some jr := hv.journal.trans hjr
  have hva : v.active.map (·.id) = kept.map (·.id) := hv.active.trans hse.active.seen
  have hro : ∀ d, d = d₀ → Rooted ct kept d := fun d hd => hd ▸ hse.toRooted
  rw [hvj]
  refine .bind (R := fun _ d => d = d₀)
    (.ensure (fun _ _ _ h => h) fun _ d _ h => hro d h) fun _ => ?_
  refine .bind (R := fun _ d => d = d₀) ?_ fun _ => ?_
  · exact .each (J := fun _ d => d = d₀)
      (fun _ _ => keeps_checkpoint.fails fun _ d _ h => hro d h) jr.revisions
  refine .bind (R := fun _ d => d = d₀.setJournal none) ?_ fun _ => ?_
  · refine keeps_perform ?_ fun d _ h => hro d h
    rintro d hI rfl
    refine ⟨hI.setJournal hK ?_ ?_, rfl⟩
    · intro a ha
      rw [hse.active a ha]
      have hp := (hI.pairs _ ha _ d.journal.seen_mem).1
      rw [hse.active a ha] at hp
      exact ⟨hp.forget, hse.coupled⟩
    · intro _ a ha a' ha'
      rw [hse.active a ha, hse.active a' ha']
  refine .bind (R := fun _ => Finished ct kept) ?_ fun _ => ?_
  · refine keeps_perform ?_ fun d _ h => h ▸ hse.toRooted.setJournal none
    rintro d hI rfl
    have hs := shrinks_syncDir (d₀.setJournal none)
    exact ⟨hI.survives hK hs.toSurvives, rooted_steady kept _ _ hs (hse.toRooted.setJournal none),
      (d₀.setJournal none).journal.only_sync⟩
  · rw [hva]
    exact .each (J := fun _ => Finished ct kept)
      (fun id _ => (keeps_retireRevision hK kept id).fails
        fun _ _ _ h => h.toRooted) jr.revisions

/-! ## Cleanup -/

theorem mem_cleanupJournal {v : View} : i ∈ (cleanupJournal v id).revisions ↔
    v.active.map (·.id) = some i ∨
      (∃ jr, v.journal = some jr ∧
        (jr.previous = some i ∨ jr.candidate = some i ∨ i ∈ jr.revisions)) ∨
      ∃ r ∈ v.revisions, r.id = i := by
  simp only [cleanupJournal, (sortSlice_perm _ _).mem_iff, mem_dedup, mem_append,
    Option.mem_toList, mem_map, or_assoc]
  cases v.journal with
  | none => simp
  | some j => simp [or_assoc]

theorem Viewed.mem_cleanupJournal {v : View} (hv : Viewed ct d v)
    (hj : ∀ jr, d.journal.seen = some jr → JournalSound ct d jr) :
    i ∈ (cleanupJournal v id).revisions ↔ Names d.active.seen d.journal.seen i := by
  rw [State.mem_cleanupJournal, hv.active, hv.journal]
  constructor
  · rintro (ha | ⟨jr, hjr, hre⟩ | ⟨r, hr, rfl⟩)
    · exact .inl ha
    · refine .inr ⟨jr, hjr, ?_⟩
      rcases hre with hp | hc | hm
      · exact mem_revisions_of_valid (hj jr hjr).valid (Or.inl hp)
      · exact mem_revisions_of_valid (hj jr hjr).valid (Or.inr hc)
      · exact hm
    · exact hv.named r hr
  · intro hn
    exact .inr (Or.inr (hv.complete i hn))

theorem valid_cleanupJournal (v : View) (id : Id) :
    validateJournal (cleanupJournal v id) = .ok () := by
  refine validateJournal_iff.mpr ⟨rfl, by simp [cleanupJournal], fun _ => rfl, fun _ => rfl,
    fun _ => rfl, by simp [cleanupJournal], ?_, by simp [cleanupJournal]⟩
  exact (sortSlice_perm _ _).nodup_iff.mpr (nodup_dedup _)

theorem Inv.names_seen (hI : Inv ct K d) (ha : a ∈ d.active.all)
    (hn : Names a d.journal.seen i) : Names d.active.seen d.journal.seen i := by
  rcases hn with hn | hn
  · cases hj : d.journal.seen with
    | none =>
      have hno : none ∈ d.journal.all := hj ▸ d.journal.seen_mem
      rw [hI.certain hno _ ha _ d.active.seen_mem] at hn
      exact .inl hn
    | some jr =>
      have hp := (hI.pairs a ha _ d.journal.seen_mem).1
      exact .inr ⟨jr, rfl, hp.listed jr hj i hn⟩
  · exact .inr hn

/-- **BeginCleanup**: when it returns, the journal is certainly the cleanup journal of what was
seen, and the active record is certain too. -/
theorem keeps_beginCleanup (hK : Coupling ct K)
    (hclean : ∀ (d : Disk) a j (jr : Journal), jr.operation = .cleanup → Pair ct d a j →
      (∀ id, Names a j id → id ∈ jr.revisions) → K d a j → K d a (some jr)) (v : View) (id : Id) :
    Keeps (Inv ct K) (fun d => Viewed ct d v)
      (beginCleanup ct v id : Proc (Fate μ) Disk String Unit)
      (fun _ d => d.journal.Only (some (cleanupJournal v id)) ∧ Synced d ∧
        d.active.seen = v.active.map (·.id)) (fun _ _ => True) := by
  refine .bind (keeps_readView.post (fun _ _ _ h => h.1) fun _ _ _ _ => trivial) fun _ => ?_
  refine .bind (R := fun _ d => Viewed ct d v)
    (.lift (fun _ _ _ _ h => h) fun _ _ _ _ _ => trivial) fun _ => ?_
  refine .bind (R := fun _ d => Viewed ct d v) ?_ fun _ => ?_
  · exact .each (J := fun _ d => Viewed ct d v)
      (fun r _ => keeps_validate.post (fun _ _ _ h => h.1) fun _ _ _ _ => trivial) v.revisions
  refine .bind (R := fun _ d => Viewed ct d v)
    (.ensure (fun _ _ _ h => h) fun _ _ _ _ => trivial) fun _ => ?_
  refine .bind (R := fun _ d => Viewed ct d v)
    (.ensure (fun _ _ _ h => h) fun _ _ _ _ => trivial) fun _ => ?_
  refine keeps_atomicPublish hK (S := fun d => d.journal.seen = some (cleanupJournal v id) ∧
      d.active.seen = v.active.map (·.id)) ?_ shrinks_syncDir ?_ (fun _ _ => trivial)
    (fun _ _ => trivial) (fun _ _ => trivial)
  · intro d hI hv
    refine ⟨hI.setJournal hK ?_ (fun h => by simp at h), rfl, hv.active.symm⟩
    intro a ha
    obtain ⟨hp, hk⟩ := hI.pairs a ha _ d.journal.seen_mem
    have hmem : ∀ {i : Id}, i ∈ (cleanupJournal v id).revisions ↔
        Names d.active.seen d.journal.seen i := hv.mem_cleanupJournal hp.journal
    have hna : ∀ i, Names a d.journal.seen i → i ∈ (cleanupJournal v id).revisions :=
      fun i hn => hmem.mpr (hI.names_seen ha hn)
    refine ⟨⟨hp.active, ?_, ?_, ?_⟩, hclean d a _ _ rfl hp hna hk⟩
    · rintro _ ⟨⟩
      refine ⟨valid_cleanupJournal v id, ?_, ?_, ?_, by simp [cleanupJournal],
        by simp [cleanupJournal]⟩
      · intro i hi
        obtain ⟨r, hr, hid⟩ := hv.complete i (hmem.mp hi)
        exact ⟨r, hid, hv.holds r hr⟩
      · simp [cleanupJournal]
      · simp [cleanupJournal]
    · rintro _ ⟨⟩ hop
      simp [cleanupJournal] at hop
    · rintro _ ⟨⟩ i hi
      exact hna i (Or.inl hi)
  · rintro d ⟨hj, ha⟩
    refine ⟨?_, synced_syncDir d, ha⟩
    rw [← hj]
    exact d.journal.only_sync

/-- **RemoveActive**, under a cleanup journal that is certain. -/
theorem keeps_removeActive (hK : Coupling ct K) (hR : Steady R) {c : Journal}
    (hop : c.operation = .cleanup) (hve : ∀ d, R d → Versions c d)
    (hset : ∀ d, R d → R (d.setActive none)) (hno : ∀ d, R d → ∀ j ∈ d.journal.all, K d none j) :
    Keeps (Inv ct K) (fun d => R d ∧ ∃ a, d.active.Only a)
      (removeActive ct : Proc (Fate μ) Disk String Unit)
      (fun _ d => R d ∧ d.active.Only none) (fun _ => R) := by
  refine .bind (keeps_checkpoint.fails fun _ _ _ h => h.1) fun _ => ?_
  refine .bind (R := fun x d => (R d ∧ ∃ a, d.active.Only a) ∧ x = d.active.seen)
    (.observe fun d _ hP => ⟨hP, rfl⟩) fun x => ?_
  cases x with
  | none =>
    refine .pure ?_
    rintro d _ ⟨⟨hRd, a, ha⟩, hx⟩
    rw [ha.seen] at hx
    exact ⟨hRd, hx ▸ ha⟩
  | some id =>
    refine .bind (R := fun _ => R) (.observe fun d _ hP => hP.1.1) fun x => ?_
    refine .bind (R := fun _ => R) (.lift (fun _ _ _ _ h => h) fun _ _ _ _ h => h) fun _ => ?_
    refine .bind (R := fun _ d => R d ∧ d.active.seen = none) ?_ fun _ => ?_
    · refine keeps_perform ?_ fun _ _ h => h
      intro d hI hRd
      refine ⟨hI.setActive hK ?_ fun hn => absurd hn (hve d hRd).not_none, hset d hRd, rfl⟩
      intro j hj
      obtain ⟨jr, rfl, hco⟩ := hve d hRd j hj
      obtain ⟨hp, -⟩ := hI.pairs _ d.active.seen_mem _ hj
      refine ⟨⟨by simp, hp.journal, ?_, by simp⟩, hno d hRd _ hj⟩
      rintro _ ⟨⟩ hap
      have hc : jr.core.operation = c.operation := by rw [hco]
      rw [hop] at hc
      cases hap.symm.trans hc
    · refine keeps_perform ?_ fun _ _ h => h.1
      rintro d hI ⟨hRd, hse⟩
      refine ⟨hI.survives hK (survives_syncDir d), hR _ _ (shrinks_syncDir d) hRd, ?_⟩
      rw [← hse]
      exact d.active.only_sync

/-! ## Collection -/

theorem keeps_collectEach (hK : Coupling ct K) (kept : Option Revision) (ids : List Id)
    (removed : Bool) :
    Keeps (Inv ct K) (Finished ct kept) (collectEach (kept.map (·.id)) ids removed :
        Proc (Fate μ) Disk String (Bool × Option String))
      (fun _ => Finished ct kept) (fun _ => Finished ct kept) := by
  induction ids generalizing removed with
  | nil => exact .done
  | cons id rest ih =>
    rw [collectEach]
    by_cases hke : kept.map (·.id) = some id
    · rw [if_pos hke]
      exact ih removed
    · rw [if_neg hke]
      refine .bind (R := fun _ => Finished ct kept) ?_ fun x => ?_
      · exact .attempt (keeps_removeRevision hK kept hke _) (fun _ _ _ h => h) fun _ _ _ h => h
      · cases x with
        | error e => exact .done
        | ok u => exact ih true

/-- **CollectRevisions** keeps the active revision's file. -/
theorem keeps_collectRevisions (hK : Coupling ct K) (kept : Option Revision) :
    Keeps (Inv ct K) (Finished ct kept) (collectRevisions ct : Proc (Fate μ) Disk String Unit)
      (fun _ => Finished ct kept) (fun _ => Finished ct kept) := by
  refine .bind (keeps_readView.fails fun _ _ _ h => h) fun v => ?_
  refine .bind (R := fun _ d => Finished ct kept d ∧ Viewed ct d v)
    (.ensure (fun _ _ _ h => h) fun _ _ _ h => h.1) fun _ => ?_
  refine .bind (keeps_checkpoint.fails fun _ _ _ h => h.1) fun _ => ?_
  refine .bind .look fun entries => ?_
  refine .of_state fun d₀ _ hd₀ => ?_
  have hva : v.active.map (·.id) = kept.map (·.id) := hd₀.2.active.trans hd₀.1.active.seen
  rw [hva]
  refine .pre (P := Finished ct kept) ?_ fun d _ hd => hd ▸ hd₀.1
  refine .bind (keeps_collectEach hK kept entries false) fun out => ?_
  refine .bind (R := fun _ => Finished ct kept) ?_ fun _ => ?_
  · cases h : out.1 with
    | false =>
      rw [syncRemoved]
      exact .done
    | true =>
      rw [syncRemoved]
      exact (keeps_sync hK (finished_steady kept) shrinks_syncRevisions (Q := fun _ _ => True)
        fun _ _ => trivial).returns fun _ _ _ h => h.1
  · cases out.2 with
    | none => exact .done
    | some e => exact .fail

end Perimeterd.State
