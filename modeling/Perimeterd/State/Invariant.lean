import Perimeterd.State.Store

/-!
# What a crash may find

The invariant of the durable state is stated over *all* values a crash may bring back: every active
record `a` and every journal `j` that may be found together are consistent (`Pair`), and wherever the
journal may be gone, the active record is certain. Both the active record and the journal range over
the unsynchronized past of their cells independently, so nothing is assumed about the order in which
renames reach the disk.

What else the caller wants to hold of every such pair (about the kernel, for example) is a predicate
`K` carried along. `Coupling` says which facts about `K` the store's own steps need; the store layer
knows nothing more about it.
-/

namespace Perimeterd.State

open Lib Firewall

section Invariant

variable (content : Revision → Except String Unit)

/-- Whatever a crash brings back, the revision's file holds it and it validates. -/
structure Holds (d : Disk) (r : Revision) : Prop where
  file : (d.revisions r.id).Only (some r)
  version : r.version = recordVersion
  content : content r = .ok ()
  manifest : ∀ m, r.manifest = some m → (d.manifests m).Only true

/-- A revision is named by the active record or by the journal. -/
def Names (a : Option Id) (j : Option Journal) (id : Id) : Prop :=
  a = some id ∨ ∃ jr, j = some jr ∧ id ∈ jr.revisions

/-- A family selection names a generation of a recorded iptables target. -/
def Recorded (d : Disk) (jr : Journal) (s : FamilySelection) : Prop :=
  s.generation = none ∨ ∃ r t, r.id ∈ jr.revisions ∧ Holds content d r ∧ r.target = some t ∧
    t.iptables.isSome = true ∧ s.generation = some t.generation ∧
      t.families.any (·.family = s.family) = true

def applyRevisions (previous candidate : Option Id) : List Id :=
  previous.toList ++ (if previous = candidate then [] else candidate.toList)

structure JournalSound (d : Disk) (jr : Journal) : Prop where
  valid : validateJournal jr = .ok ()
  stored : ∀ id ∈ jr.revisions, ∃ r, r.id = id ∧ Holds content d r
  previous : jr.operation = .apply → ∀ id, jr.previous = some id →
    ∃ r, r.id = id ∧ Holds content d r ∧ r.manifest = jr.previousManifest
  candidate : jr.operation = .apply → ∀ id, jr.candidate = some id →
    ∃ r, r.id = id ∧ Holds content d r ∧ r.manifest = jr.candidateManifest
  form : jr.operation = .apply → jr.revisions = applyRevisions jr.previous jr.candidate
  selections : ∀ s ∈ jr.familySelections, Recorded content d jr s

/-- The active record fits an apply journal. -/
def Agrees (a : Option Id) (jr : Journal) : Prop :=
  (a = none → jr.previous = none) ∧ (a ≠ none → a = jr.previous ∨ a = jr.candidate)

/-- The active record and the journal that may be found together. -/
structure Pair (d : Disk) (a : Option Id) (j : Option Journal) : Prop where
  active : ∀ id, a = some id → ∃ r, r.id = id ∧ Holds content d r
  journal : ∀ jr, j = some jr → JournalSound content d jr
  agree : ∀ jr, j = some jr → jr.operation = .apply → Agrees a jr
  listed : ∀ jr, j = some jr → ∀ id, a = some id → id ∈ jr.revisions

variable (K : Disk → Option Id → Option Journal → Prop)

/-- **The invariant.** -/
structure Inv (d : Disk) : Prop where
  certain : none ∈ d.journal.all → ∀ a ∈ d.active.all, ∀ a' ∈ d.active.all, a = a'
  pairs : ∀ a ∈ d.active.all, ∀ j ∈ d.journal.all, Pair content d a j ∧ K d a j

/-- The revisions that one disk keeps of another. -/
def Kept (d d' : Disk) (a : Option Id) (j : Option Journal) : Prop :=
  ∀ r, Names a j r.id → Holds content d r → Holds content d' r

/-- A journal without its diagnostics: the phase and the family selections. -/
def Journal.core (j : Journal) : Journal := { j with phase := .cleanup, familySelections := [] }

theorem Journal.core_fields {jr jr' : Journal} (hc : jr'.core = jr.core) :
    jr'.operation = jr.operation ∧ jr'.previous = jr.previous ∧ jr'.candidate = jr.candidate ∧
      jr'.previousManifest = jr.previousManifest ∧
        jr'.candidateManifest = jr.candidateManifest ∧ jr'.revisions = jr.revisions := by
  simp only [Journal.core, Journal.mk.injEq] at hc
  obtain ⟨-, -, hop, -, hp, hca, hpm, hcm, hre, -⟩ := hc
  exact ⟨hop, hp, hca, hpm, hcm, hre⟩

/-- What the store's steps need to know about a predicate that is to be carried along. -/
structure Coupling : Prop where
  mono : ∀ {d d' : Disk} {a : Option Id} {j : Option Journal}, Kept content d d' a j →
    K d a j → K d' a j
  version : ∀ {d : Disk} {a : Option Id} {jr jr' : Journal}, jr'.core = jr.core →
    K d a (some jr) → K d a (some jr')
  prepared : ∀ {d : Disk} {a : Option Id} {jr : Journal}, jr.operation = .apply →
    jr.previous = a → (∀ id, a = some id → id ∈ jr.revisions) → K d a none → K d a (some jr)

/-- A crash, or a synchronization: every cell keeps some of what it may hold. -/
structure Disk.Survives (d d' : Disk) : Prop where
  active : d.active.Survives d'.active
  journal : d.journal.Survives d'.journal
  revisions : ∀ id, (d.revisions id).Survives (d'.revisions id)
  manifests : ∀ m, (d.manifests m).Survives (d'.manifests m)

end Invariant

/-! ## Steps that forget -/

section Steps

variable {content : Revision → Except String Unit} {K : Disk → Option Id → Option Journal → Prop}
  {d d' : Disk} {a : Option Id} {j : Option Journal} {r : Revision} {jr : Journal} {id : Id}

theorem Holds.survives (h : Holds content d r) (hs : d.Survives d') : Holds content d' r where
  file := h.file.survives (hs.revisions r.id)
  version := h.version
  content := h.content
  manifest m hm := (h.manifest m hm).survives (hs.manifests m)

theorem Holds.unique {r' : Revision} (h : Holds content d r) (h' : Holds content d r')
    (hid : r.id = r'.id) : r = r' := by
  have h₁ := h.file.seen
  have h₂ := h'.file.seen
  rw [hid] at h₁
  exact Option.some.inj (h₁.symm.trans h₂)

theorem holds_ext {x y : Option Revision}
    (hx : ∀ r, x = some r → Holds content d r) (hy : ∀ r, y = some r → Holds content d r)
    (hid : x.map (·.id) = y.map (·.id)) : x = y := by
  cases x with
  | none =>
    cases y with
    | none => rfl
    | some r => simp at hid
  | some r =>
    cases y with
    | none => simp at hid
    | some r' =>
      have hid : r.id = r'.id := by simpa using hid
      rw [(hx r rfl).unique (hy r' rfl) hid]

theorem Recorded.kept {s : FamilySelection} (hk : Kept content d d' a (some jr))
    (h : Recorded content d jr s) : Recorded content d' jr s := by
  rcases h with h | ⟨r, t, hmem, hr, rest⟩
  · exact .inl h
  · exact .inr ⟨r, t, hmem, hk r (Or.inr ⟨jr, rfl, hmem⟩) hr, rest⟩

structure ValidJournal (jr : Journal) : Prop where
  version : jr.version = recordVersion
  candidate : jr.operation = .apply → jr.candidate ≠ none
  phase : jr.operation = .cleanup → jr.phase = .cleanup
  previousManifest : jr.previous = none → jr.previousManifest = none
  candidateManifest : jr.candidate = none → jr.candidateManifest = none
  families : (jr.familySelections.map (·.family)).Nodup
  revisions : jr.revisions.Nodup
  references : ∀ id ∈ jr.previous.toList ++ jr.candidate.toList, id ∈ jr.revisions

theorem validateOperation_iff : validateOperation jr = .ok () ↔
    (jr.operation = .apply → jr.candidate ≠ none) ∧
      (jr.operation = .cleanup → jr.phase = .cleanup) := by
  rw [validateOperation]
  cases hop : jr.operation with
  | apply => cases hp : jr.phase <;> simp [validApplyPhase]
  | cleanup => simp

theorem validateJournal_iff : validateJournal jr = .ok () ↔ ValidJournal jr := by
  rw [validateJournal, ite_throw_eq_ok, not_not, bind_eq_ok]
  constructor
  · rintro ⟨hv, ⟨⟩, hop, h⟩
    rw [validateOperation_iff] at hop
    rw [ite_throw_eq_ok, ite_throw_eq_ok, ite_throw_eq_ok, ite_throw_eq_ok] at h
    obtain ⟨hma, hf, hre, href, -⟩ := h
    refine ⟨hv, hop.1, hop.2, ?_, ?_, not_not.mp hf, not_not.mp hre,
      by simpa only [List.all_eq_true, decide_eq_true_eq] using not_not.mp href⟩
    · intro hp
      by_contra hne
      exact hma (Or.inl ⟨hp, hne⟩)
    · intro hc
      by_contra hne
      exact hma (Or.inr ⟨hc, hne⟩)
  · intro h
    refine ⟨h.version, (), validateOperation_iff.mpr ⟨h.candidate, h.phase⟩, ?_⟩
    rw [ite_throw_eq_ok, ite_throw_eq_ok, ite_throw_eq_ok, ite_throw_eq_ok]
    refine ⟨?_, not_not.mpr h.families, not_not.mpr h.revisions, not_not.mpr
      (by simpa only [List.all_eq_true, decide_eq_true_eq] using h.references), rfl⟩
    rintro (⟨hp, hne⟩ | ⟨hc, hne⟩)
    · exact hne (h.previousManifest hp)
    · exact hne (h.candidateManifest hc)

theorem mem_revisions_of_valid (h : validateJournal jr = .ok ())
    (hid : jr.previous = some id ∨ jr.candidate = some id) : id ∈ jr.revisions := by
  refine (validateJournal_iff.mp h).references id (List.mem_append.mpr ?_)
  rcases hid with hid | hid
  · exact .inl (Option.mem_toList.mpr hid)
  · exact .inr (Option.mem_toList.mpr hid)

theorem JournalSound.kept (hk : Kept content d d' a (some jr))
    (h : JournalSound content d jr) : JournalSound content d' jr where
  valid := h.valid
  stored id hid := by
    obtain ⟨r, rfl, hr⟩ := h.stored id hid
    exact ⟨r, rfl, hk r (Or.inr ⟨jr, rfl, hid⟩) hr⟩
  previous hop id hid := by
    obtain ⟨r, rfl, hr, hm⟩ := h.previous hop id hid
    exact ⟨r, rfl, hk r (Or.inr ⟨jr, rfl, mem_revisions_of_valid h.valid (Or.inl hid)⟩) hr, hm⟩
  candidate hop id hid := by
    obtain ⟨r, rfl, hr, hm⟩ := h.candidate hop id hid
    exact ⟨r, rfl, hk r (Or.inr ⟨jr, rfl, mem_revisions_of_valid h.valid (Or.inr hid)⟩) hr, hm⟩
  form := h.form
  selections s hs := (h.selections s hs).kept hk

theorem Pair.kept (hk : Kept content d d' a j) (h : Pair content d a j) : Pair content d' a j where
  active id ha := by
    obtain ⟨r, rfl, hr⟩ := h.active id ha
    exact ⟨r, rfl, hk r (Or.inl ha) hr⟩
  journal jr hj := by
    subst hj
    exact (h.journal jr rfl).kept hk
  agree := h.agree
  listed := h.listed

theorem Kept.of_survives (hs : d.Survives d') : Kept content d d' a j := fun _ _ h => h.survives hs

theorem Pair.stored (h : Pair content d a j) (hn : Names a j id) :
    ∃ r, r.id = id ∧ Holds content d r := by
  rcases hn with ha | ⟨jr, hj, hid⟩
  · exact h.active id ha
  · exact (h.journal jr hj).stored id hid

theorem Inv.of_kept (hK : Coupling content K) (ha : d'.active = d.active)
    (hj : d'.journal = d.journal) (hk : ∀ r, Holds content d r → Holds content d' r)
    (h : Inv content K d) : Inv content K d' where
  certain := by
    rw [ha, hj]
    exact h.certain
  pairs a hma j hmj := by
    rw [ha] at hma
    rw [hj] at hmj
    obtain ⟨hp, hc⟩ := h.pairs a hma j hmj
    have hke : Kept content d d' a j := fun r _ hr => hk r hr
    exact ⟨hp.kept hke, hK.mono hke hc⟩

/-- **A crash keeps the invariant.** -/
theorem Inv.survives (hK : Coupling content K) (h : Inv content K d) (hs : d.Survives d') :
    Inv content K d' where
  certain hn a ha a' ha' := h.certain (hs.journal _ hn) a (hs.active a ha) a' (hs.active a' ha')
  pairs a ha j hj := by
    obtain ⟨hp, hk⟩ := h.pairs a (hs.active a ha) j (hs.journal j hj)
    exact ⟨hp.kept (Kept.of_survives hs), hK.mono (Kept.of_survives hs) hk⟩

theorem Disk.Survives.refl (d : Disk) : d.Survives d :=
  ⟨Cell.survives_refl _, Cell.survives_refl _, fun _ => Cell.survives_refl _,
    fun _ => Cell.survives_refl _⟩

theorem survives_syncDir (d : Disk) : d.Survives d.syncDir where
  active := d.active.survives_sync
  journal := d.journal.survives_sync
  revisions _ := Cell.survives_refl _
  manifests _ := Cell.survives_refl _

theorem survives_syncRevisions (d : Disk) : d.Survives d.syncRevisions where
  active := Cell.survives_refl _
  journal := Cell.survives_refl _
  revisions id := (d.revisions id).survives_sync
  manifests _ := Cell.survives_refl _

theorem survives_syncManifest (d : Disk) (m : Manifest) : d.Survives (d.syncManifest m) where
  active := Cell.survives_refl _
  journal := Cell.survives_refl _
  revisions _ := Cell.survives_refl _
  manifests i := by
    by_cases h : i = m
    · simp only [Disk.syncManifest, if_pos h]
      exact (d.manifests i).survives_sync
    · simp only [Disk.syncManifest, if_neg h]
      exact Cell.survives_refl _

/-! ## Steps that write -/

theorem Holds.of_files (h : Holds content d r)
    (hr : d'.revisions r.id = d.revisions r.id) (hm : d'.manifests = d.manifests) :
    Holds content d' r where
  file := by rw [hr]; exact h.file
  version := h.version
  content := h.content
  manifest m hm' := by rw [hm]; exact h.manifest m hm'

theorem kept_setJournal (v : Option Journal) : Kept content d (d.setJournal v) a j :=
  fun _ _ h => h.of_files rfl rfl

theorem kept_setActive (v : Option Id) : Kept content d (d.setActive v) a j :=
  fun _ _ h => h.of_files rfl rfl

theorem Holds.setRevision (h : Holds content d r) {v : Option Revision}
    (hne : r.id ≠ id) : Holds content (d.setRevision id v) r :=
  h.of_files (by simp [Disk.setRevision, hne]) rfl

theorem Inv.setJournal (hK : Coupling content K) (h : Inv content K d) {v : Option Journal}
    (hv : ∀ a ∈ d.active.all, Pair content d a v ∧ K d a v)
    (hc : v = none → ∀ a ∈ d.active.all, ∀ a' ∈ d.active.all, a = a') :
    Inv content K (d.setJournal v) where
  certain hn := by
    rcases Cell.mem_write.mp hn with hn | hn
    · exact hc hn.symm
    · exact h.certain hn
  pairs a ha j hj := by
    have hp : Pair content d a j ∧ K d a j := by
      rcases Cell.mem_write.mp hj with rfl | hj
      · exact hv a ha
      · exact h.pairs a ha j hj
    exact ⟨hp.1.kept (kept_setJournal v), hK.mono (kept_setJournal v) hp.2⟩

theorem Inv.setActive (hK : Coupling content K) (h : Inv content K d) {v : Option Id}
    (hv : ∀ j ∈ d.journal.all, Pair content d v j ∧ K d v j)
    (hc : none ∈ d.journal.all → ∀ a ∈ d.active.all, a = v) : Inv content K (d.setActive v) where
  certain hn a ha a' ha' := by
    have hsa : ∀ a ∈ (d.setActive v).active.all, a = v := by
      intro a ha
      rcases Cell.mem_write.mp ha with rfl | ha
      · rfl
      · exact hc hn a ha
    rw [hsa a ha, hsa a' ha']
  pairs a ha j hj := by
    have hp : Pair content d a j ∧ K d a j := by
      rcases Cell.mem_write.mp ha with rfl | ha
      · exact hv j hj
      · exact h.pairs a ha j hj
    exact ⟨hp.1.kept (kept_setActive v), hK.mono (kept_setActive v) hp.2⟩

theorem Inv.setRevision (hK : Coupling content K) (h : Inv content K d) {v : Option Revision}
    (hn : ∀ a ∈ d.active.all, ∀ j ∈ d.journal.all, ¬ Names a j id) :
    Inv content K (d.setRevision id v) where
  certain := h.certain
  pairs a ha j hj := by
    obtain ⟨hp, hk⟩ := h.pairs a ha j hj
    have hke : Kept content d (d.setRevision id v) a j := by
      intro r hr hh
      refine hh.setRevision ?_
      rintro rfl
      exact hn a ha j hj hr
    exact ⟨hp.kept hke, hK.mono hke hk⟩

theorem Inv.not_named (h : Inv content K d) (hid : (d.revisions id).seen = none) :
    ∀ a ∈ d.active.all, ∀ j ∈ d.journal.all, ¬ Names a j id := by
  intro a ha j hj hn
  obtain ⟨r, rfl, hr⟩ := (h.pairs a ha j hj).1.stored hn
  rw [hr.file.seen] at hid
  cases hid

end Steps

end Perimeterd.State
