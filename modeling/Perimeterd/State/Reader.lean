import Perimeterd.State.Invariant

/-!
# The reader accepts every consistent directory

`Store.Read` re-checks everything it finds across records. `read_of_pair` says that a consistent
pair passes every one of these checks, and `Viewed` what the view then contains.
-/

namespace Perimeterd.State

open Lib Firewall List

variable {ct : Revision → Except String Unit} {K : Disk → Option Id → Option Journal → Prop}
  {d : Disk}

/-- The view of a consistent directory. -/
structure Viewed (content : Revision → Except String Unit) (d : Disk) (v : View) : Prop where
  journal : v.journal = d.journal.seen
  active : v.active.map (·.id) = d.active.seen
  holds : ∀ r ∈ v.revisions, Holds content d r
  named : ∀ r ∈ v.revisions, Names d.active.seen d.journal.seen r.id
  complete : ∀ id, Names d.active.seen d.journal.seen id → ∃ r ∈ v.revisions, r.id = id
  mem_active : ∀ r, v.active = some r → r ∈ v.revisions

theorem validateRevision_of_holds {r : Revision} (h : Holds ct d r) :
    validateRevision ct d r = .ok () := by
  rw [validateRevision, if_neg (not_not.mpr h.version)]
  cases hm : r.manifest with
  | none => exact h.content
  | some m => simp [(h.manifest m hm).seen, h.content]

theorem readRevision_of_holds {r : Revision} (h : Holds ct d r) :
    readRevision ct d r.id = .ok r := by
  rw [readRevision, h.file.seen]
  simp [validateRevision_of_holds h, bind, Except.bind]

theorem readActive_of_pair {j : Option Journal} (h : Pair ct d d.active.seen j) :
    ∃ a, readActive ct d = .ok a ∧ a.map (·.id) = d.active.seen ∧
      ∀ r, a = some r → Holds ct d r := by
  rw [readActive]
  cases ha : d.active.seen with
  | none => exact ⟨none, rfl, rfl, by simp⟩
  | some id =>
    obtain ⟨r, rfl, hr⟩ := h.active id ha
    refine ⟨some r, ?_, rfl, ?_⟩
    · simp [readRevision_of_holds hr, Except.mapError, bind, Except.bind]
    · rintro _ ⟨⟩
      exact hr

theorem readRevisions_spec : ∀ (ids : List Id) (known : List Revision),
    (∀ id ∈ ids, ∃ r, r.id = id ∧ Holds ct d r) → (∀ r ∈ known, Holds ct d r) →
      ∃ rs, readRevisions ct d ids known = .ok rs ∧ (∀ r ∈ rs, Holds ct d r) ∧
        (∀ r ∈ known, r ∈ rs) ∧ (∀ id ∈ ids, ∃ r ∈ rs, r.id = id) ∧
        ∀ r ∈ rs, r ∈ known ∨ r.id ∈ ids
  | [], known, _, hk => ⟨known, rfl, hk, fun _ h => h, by simp, fun _ h => Or.inl h⟩
  | id :: rest, known, hids, hk => by
    have hrest : ∀ i ∈ rest, ∃ r, r.id = i ∧ Holds ct d r :=
      fun i hi => hids i (mem_cons_of_mem _ hi)
    rw [readRevisions]
    by_cases hse : known.any (·.id = id) = true
    · rw [if_pos hse]
      obtain ⟨rs, hrs, hh, hsu, hall, ho⟩ := readRevisions_spec rest known hrest hk
      refine ⟨rs, hrs, hh, hsu, ?_, ?_⟩
      · intro i hi
        rcases mem_cons.mp hi with rfl | hi
        · obtain ⟨r, hr, hid⟩ := any_eq_true.mp hse
          exact ⟨r, hsu r hr, of_decide_eq_true hid⟩
        · exact hall i hi
      · intro r hr
        exact (ho r hr).imp_right (mem_cons_of_mem _)
    · rw [if_neg hse]
      obtain ⟨r, rfl, hr⟩ := hids id mem_cons_self
      have hk' : ∀ x ∈ known ++ [r], Holds ct d x := by
        intro x hx
        rcases mem_append.mp hx with hx | hx
        · exact hk x hx
        · rw [mem_singleton.mp hx]
          exact hr
      obtain ⟨rs, hrs, hh, hsu, hall, ho⟩ := readRevisions_spec rest (known ++ [r]) hrest hk'
      refine ⟨rs, ?_, hh, fun x hx => hsu x (mem_append_left _ hx), ?_, ?_⟩
      · simp [readRevision_of_holds hr, Except.mapError, bind, Except.bind, hrs]
      · intro i hi
        rcases mem_cons.mp hi with rfl | hi
        · exact ⟨r, hsu r (by simp), rfl⟩
        · exact hall i hi
      · intro x hx
        rcases ho x hx with h | h
        · rcases mem_append.mp h with h | h
          · exact .inl h
          · rw [mem_singleton.mp h]
            exact .inr mem_cons_self
        · exact .inr (mem_cons_of_mem _ h)

theorem View.find_of_mem {v : View} (hv : ∀ r ∈ v.revisions, Holds ct d r) {r : Revision}
    (hr : Holds ct d r) (hmem : ∃ x ∈ v.revisions, x.id = r.id) : v.find r.id = some r := by
  obtain ⟨x, hx, hid⟩ := hmem
  rw [View.find]
  cases hf : v.revisions.find? (·.id = r.id) with
  | none => exact absurd (decide_eq_true hid) (by simpa using List.find?_eq_none.mp hf x hx)
  | some y =>
    have hy := mem_of_find?_eq_some hf
    have hyi : y.id = r.id := by simpa using List.find?_some hf
    rw [(hv y hy).unique hr hyi]

section Check

variable {a : Option Revision} {jr : Journal} {rs : List Revision}
  (hrs : ∀ r ∈ rs, Holds ct d r) (hall : ∀ id ∈ jr.revisions, ∃ r ∈ rs, r.id = id)
  (hs : JournalSound ct d jr)
include hrs hall

theorem manifestMatches_of_sound {id : Option Id} {m : Option Manifest}
    (h : ∀ i, id = some i → i ∈ jr.revisions ∧
      ∃ r, r.id = i ∧ Holds ct d r ∧ r.manifest = m) :
    manifestMatches ⟨a, some jr, rs⟩ id m = true := by
  cases id with
  | none => rfl
  | some i =>
    obtain ⟨hmem, r, rfl, hr, hm⟩ := h i rfl
    have hf : View.find ⟨a, some jr, rs⟩ r.id = some r := View.find_of_mem hrs hr (hall _ hmem)
    rw [manifestMatches, hf]
    simpa using hm

theorem recorded_of_sound {s : FamilySelection} (h : Recorded ct d jr s) :
    recordedFamilySelection ⟨a, some jr, rs⟩ jr s = true := by
  rw [recordedFamilySelection]
  rcases h with h | ⟨r, t, hmem, hr, ht, hip, hg, hfa⟩
  · rw [h]
  · rw [hg]
    refine any_eq_true.mpr ⟨r.id, hmem, ?_⟩
    have hf : View.find ⟨a, some jr, rs⟩ r.id = some r := View.find_of_mem hrs hr (hall _ hmem)
    rw [hf]
    simp only [Option.bind_some, ht, hip, hfa, decide_true, Bool.and_self]

include hs

theorem checkJournal_of_sound {act : Option Id} (hac : a.map (·.id) = act)
    (hagr : jr.operation = .apply → Agrees act jr) :
    checkJournal ⟨a, some jr, rs⟩ jr = .ok ⟨a, some jr, rs⟩ := by
  have hno : a = none ↔ act = none := by rw [← hac, Option.map_eq_none_iff]
  have hse : jr.familySelections.all (recordedFamilySelection ⟨a, some jr, rs⟩ jr) = true :=
    all_eq_true.mpr fun s hmem => recorded_of_sound hrs hall (hs.selections s hmem)
  rw [checkJournal]
  by_cases hop : jr.operation = .apply
  · have hp : manifestMatches ⟨a, some jr, rs⟩ jr.previous jr.previousManifest = true :=
      manifestMatches_of_sound hrs hall fun i hi =>
        ⟨mem_revisions_of_valid hs.valid (Or.inl hi), hs.previous hop i hi⟩
    have hc : manifestMatches ⟨a, some jr, rs⟩ jr.candidate jr.candidateManifest = true :=
      manifestMatches_of_sound hrs hall fun i hi =>
        ⟨mem_revisions_of_valid hs.valid (Or.inr hi), hs.candidate hop i hi⟩
    obtain ⟨hag, hag'⟩ := hagr hop
    rw [if_neg (by simp [hp]), if_neg (by simp [hc]), if_neg, if_neg (by simp [hse]), if_neg]
    · rintro ⟨-, hne, h₁, h₂⟩
      simp only [hac] at h₁ h₂
      rcases hag' (fun h => hne (hno.mpr h)) with h | h
      · exact h₁ h
      · exact h₂ h
    · rintro ⟨-, hne, hna⟩
      exact hne (hag (hno.mp hna))
  · rw [if_neg (by simp [hop]), if_neg (by simp [hop]), if_neg (by simp [hop]),
      if_neg (by simp [hse]), if_neg (by simp [hop])]

end Check

/-- **A consistent directory is readable.** -/
theorem read_of_pair (h : Pair ct d d.active.seen d.journal.seen) :
    ∃ v, read ct d = .ok v ∧ Viewed ct d v := by
  obtain ⟨a, ha, hac, hah⟩ := readActive_of_pair h
  have hmem : ∀ r, a = some r → some r.id = d.active.seen := by
    rintro r rfl
    exact hac
  rw [read, ha]
  cases hj : d.journal.seen with
  | none =>
    refine ⟨_, rfl, hj.symm, hac, ?_, ?_, ?_, ?_⟩
    · intro r hr
      exact hah r (Option.mem_toList.mp hr)
    · intro r hr
      exact .inl (hmem r (Option.mem_toList.mp hr)).symm
    · rintro id (hid | ⟨jr, hjr, -⟩)
      · cases a with
        | none => rw [← hac] at hid; cases hid
        | some r =>
          rw [← hac] at hid
          exact ⟨r, by simp, Option.some.inj hid⟩
      · rw [hj] at hjr
        cases hjr
    · rintro r rfl
      simp
  | some jr =>
    have hs := h.journal jr hj
    have hids : ∀ id ∈ jr.revisions ++ jr.previous.toList ++ jr.candidate.toList,
        id ∈ jr.revisions := by
      intro id hid
      rcases mem_append.mp hid with hid | hid
      · rcases mem_append.mp hid with hid | hid
        · exact hid
        · exact mem_revisions_of_valid hs.valid (Or.inl (Option.mem_toList.mp hid))
      · exact mem_revisions_of_valid hs.valid (Or.inr (Option.mem_toList.mp hid))
    obtain ⟨rs, hrs, hh, hsu, hall, ho⟩ := readRevisions_spec
      (jr.revisions ++ jr.previous.toList ++ jr.candidate.toList) a.toList
      (fun id hid => hs.stored id (hids id hid)) fun r hr => hah r (Option.mem_toList.mp hr)
    have hal' : ∀ id ∈ jr.revisions, ∃ r ∈ rs, r.id = id :=
      fun id hid => hall id (mem_append_left _ (mem_append_left _ hid))
    have hc := checkJournal_of_sound hh hal' hs hac (h.agree jr hj)
    refine ⟨⟨a, some jr, rs⟩, ?_, hj.symm, hac, hh, ?_, ?_, ?_⟩
    · simp only [bind, Except.bind, hs.valid, hrs, hc]
    · intro r hr
      rcases ho r hr with h' | h'
      · exact .inl (hmem r (Option.mem_toList.mp h')).symm
      · exact .inr ⟨jr, hj, hids _ h'⟩
    · rintro id (hid | ⟨jr', hjr, hid⟩)
      · cases a with
        | none => rw [← hac] at hid; cases hid
        | some r =>
          rw [← hac] at hid
          exact ⟨r, hsu r (by simp), Option.some.inj hid⟩
      · rw [hj] at hjr
        cases hjr
        exact hal' id hid
    · rintro r rfl
      exact hsu r (by simp)

theorem Inv.pair (h : Inv ct K d) : Pair ct d d.active.seen d.journal.seen :=
  (h.pairs _ d.active.seen_mem _ d.journal.seen_mem).1

theorem Inv.coupled (h : Inv ct K d) : K d d.active.seen d.journal.seen :=
  (h.pairs _ d.active.seen_mem _ d.journal.seen_mem).2

end Perimeterd.State
