import Perimeterd.Firewall.Ipset

/-!
# Updating leases, interrupted anywhere

`ipset restore` is not transactional, so the script of `appendDynamicIPSet` may stop after any line,
and the next update starts from whatever that left behind. **`lease_script_safe`** says that no line
of the script is ever refused, that nothing observed and still desired is lost at any line, and that
the desired leases are reached, from the first inventory and from that of any interruption.

The update settles the kernel (`settle`): the live set holds the desired leases, in its own size if
that is enough and else in that of a new set, and the spare set is gone. Each interruption leaves a
kernel that settles to the same (`Interrupted`), and that is why the next script ends where this one
would have.
-/

namespace Perimeterd.Firewall

open Lib List

/-! ## Filling one set -/

section Fill

variable (references : String → Nat) {P : Kernel → Prop} {kernel : Kernel} {name : String}
  {set : IpSet} {desired : Leases}

/-- The kernel with other entries in one set. -/
def refill (kernel : Kernel) (name : String) (set : IpSet) (entries : Leases)
    (fits : entries.keys.card ≤ set.maxelem) : Kernel :=
  Function.update kernel name (some (set.fill entries fits))

variable {e : String}

theorem refill_self (kernel : Kernel) (name : String) (set : IpSet) (ents : Leases)
    (fits : ents.keys.card ≤ set.maxelem) :
    refill kernel name set ents fits name = some (set.fill ents fits) :=
  Function.update_self ..

theorem refill_refl (h : kernel name = some set) :
    refill kernel name set set.entries set.fits = kernel := by
  rw [refill, IpSet.fill, ← h]
  exact Function.update_eq_self name kernel

theorem refill_congr {held held' : Leases} (fits : held.keys.card ≤ set.maxelem)
    (fits' : held'.keys.card ≤ set.maxelem) (h : held = held') :
    refill kernel name set held fits = refill kernel name set held' fits' := by
  subst h
  rfl

def removeAll (entries : List String) (held : Leases) : Leases :=
  entries.foldl (fun held entry => held.erase entry) held

def writeAll (desired : Leases) (entries : List String) (held : Leases) : Leases :=
  entries.foldl (fun held entry => held.insert entry (grant desired entry)) held

theorem lookup_removeAll (ents : List String) (held : Leases) (e : String) :
    (removeAll ents held).lookup e = if e ∈ ents then none else held.lookup e := by
  induction ents generalizing held with
  | nil => simp [removeAll]
  | cons entry ents ih =>
    rw [removeAll, foldl_cons, ← removeAll, ih]
    by_cases hl : e ∈ ents
    · simp [hl]
    by_cases he : e = entry
    · subst he
      simp [hl]
    · simp [hl, he, Finmap.lookup_erase_ne he]

theorem lookup_writeAll (ents : List String) (held : Leases) (e : String) :
    (writeAll desired ents held).lookup e =
      if e ∈ ents then some (grant desired e) else held.lookup e := by
  induction ents generalizing held with
  | nil => simp [writeAll]
  | cons entry ents ih =>
    rw [writeAll, foldl_cons, ← writeAll, ih]
    by_cases hl : e ∈ ents
    · simp [hl]
    by_cases he : e = entry
    · subst he
      simp [hl]
    · simp [hl, he, Finmap.lookup_insert_of_ne]

theorem mem_of_lookup_eq {held other : Leases} (h : held.lookup e = other.lookup e)
    (he : e ∈ other) : e ∈ held := by
  rw [← Finmap.lookup_isSome] at he ⊢
  rwa [h]

/-- The commands that take obsolete entries out of a set. -/
abbrev removals (name : String) (listed : List String) (desired : Leases) : List IpsetCommand :=
  (obsolete listed desired).map (.del name)

/-- The commands that write the entries which are not skipped. -/
abbrev additions (name : String) (skip : String → Bool) (desired : Leases) : List IpsetCommand :=
  (granted skip desired).map fun e => .add name e (grant desired e)

theorem performs_removals (ents : List String) (held : Leases) (fits : held.keys.card ≤ set.maxelem)
    (hP : ∀ held' fits', (∀ e ∈ held, e ∉ ents → e ∈ held') →
      P (refill kernel name set held' fits')) :
    ∃ fits', Script.Performs (ipsetExec references) P (ents.map (.del name))
      (refill kernel name set held fits)
      (refill kernel name set (removeAll ents held) fits') := by
  induction ents generalizing held with
  | nil => exact ⟨fits, .nil (hP held fits fun e he _ => he)⟩
  | cons entry ents ih =>
    have hexe : ipsetExec references (.del name entry) (refill kernel name set held fits) =
        some (refill kernel name set (held.erase entry) (IpSet.card_erase entry fits)) := by
      rw [exec_del (refill_self ..), refill, Function.update_idem]
      rfl
    obtain ⟨fits', hrest⟩ := ih (held.erase entry) (IpSet.card_erase entry fits)
      fun held' fits' hh => hP held' fits' fun e he ho => by
        rw [mem_cons, not_or] at ho
        exact hh e (Finmap.mem_erase.mpr ⟨ho.1, he⟩) ho.2
    exact ⟨fits', hrest.cons (hP held fits fun e he _ => he) hexe⟩

theorem performs_additions (ents : List String) (held : Leases)
    (fits : held.keys.card ≤ set.maxelem) (hro : desired.keys.card ≤ set.maxelem)
    (hen : ∀ e ∈ ents, e ∈ desired) (hh : ∀ e ∈ held, e ∈ desired)
    (hP : ∀ held' fits', (∀ e ∈ held, e ∈ held') → P (refill kernel name set held' fits')) :
    ∃ fits', Script.Performs (ipsetExec references) P
      (ents.map fun e => .add name e (grant desired e)) (refill kernel name set held fits)
      (refill kernel name set (writeAll desired ents held) fits') := by
  induction ents generalizing held with
  | nil => exact ⟨fits, .nil (hP held fits fun e he => he)⟩
  | cons entry ents ih =>
    have hent := hen entry mem_cons_self
    have hsp : entry ∈ held ∨ held.keys.card < set.maxelem := by
      by_cases hin : entry ∈ held
      · exact .inl hin
      · refine .inr (lt_of_lt_of_le (Finset.card_lt_card ?_) hro)
        refine Finset.ssubset_iff_of_subset (fun e he => ?_) |>.mpr
          ⟨entry, Finmap.mem_keys.mpr hent, fun h => hin (Finmap.mem_keys.mp h)⟩
        exact Finmap.mem_keys.mpr (hh e (Finmap.mem_keys.mp he))
    have hexe : ipsetExec references (.add name entry (grant desired entry))
        (refill kernel name set held fits) =
          some (refill kernel name set (held.insert entry (grant desired entry))
            (IpSet.card_insert fits hsp)) := by
      rw [exec_add (refill_self ..) hsp, refill, Function.update_idem]
      rfl
    have hke : ∀ e ∈ held, e ∈ held.insert entry (grant desired entry) :=
      fun e he => Finmap.mem_insert.mpr (.inr he)
    obtain ⟨fits', hrest⟩ := ih (held.insert entry (grant desired entry))
      (IpSet.card_insert fits hsp) (fun e he => hen e (mem_cons_of_mem entry he))
      (fun e he => (Finmap.mem_insert.mp he).elim (fun h => h ▸ hent) (hh e))
      (fun held' fits' h => hP held' fits' fun e he => h e (hke e he))
    exact ⟨fits', hrest.cons (hP held fits fun e he => he) hexe⟩

theorem mem_granted {skip : String → Bool} :
    e ∈ granted skip desired ↔ e ∈ desired ∧ skip e = false := by
  simp [granted, Finmap.mem_keys]

theorem lookup_eq_grant (h : e ∈ desired) : desired.lookup e = some (grant desired e) := by
  obtain ⟨t, ht⟩ := Finmap.mem_iff.mp h
  rw [grant, ht, Option.getD_some]

/-- **A set that is large enough is brought to the desired leases in place, and at no point is an
entry gone that is held and desired.** -/
theorem performs_in_place (listed : List String) (known : String → Nat)
    (hse : kernel name = some set) (hli : ∀ e, e ∈ listed ↔ e ∈ set.entries)
    (hkn : ∀ e, known e = grant set.entries e) (hro : desired.keys.card ≤ set.maxelem)
    (hpo : ∀ e t, desired.lookup e = some t → 0 < t)
    (hP : ∀ held' fits', (∀ e ∈ set.entries, e ∈ desired → e ∈ held') →
      P (refill kernel name set held' fits')) :
    Script.Performs (ipsetExec references) P (removals name listed desired ++
        additions name (fun e => known e == grant desired e) desired) kernel
      (refill kernel name set desired hro) := by
  have ho : ∀ e, e ∈ obsolete listed desired ↔ e ∈ set.entries ∧ e ∉ desired := by
    simp [obsolete, hli]
  obtain ⟨fits₁, hre⟩ := performs_removals references
    (obsolete listed desired) set.entries set.fits fun held' fits' h =>
      hP held' fits' fun e he hde => h e he fun hou => ((ho e).mp hou).2 hde
  rw [refill_refl hse] at hre
  -- What is left over is held already, and desired.
  have hl : ∀ e, (removeAll (obsolete listed desired) set.entries).lookup e =
      if e ∈ desired then set.entries.lookup e else none := by
    intro e
    rw [lookup_removeAll]
    by_cases hd : e ∈ desired
    · simp [ho, hd]
    · by_cases he : e ∈ set.entries
      · simp [ho, hd, he]
      · simp [ho, hd, he, Finmap.lookup_eq_none.mpr he]
  obtain ⟨fits₂, had⟩ := performs_additions references
    (granted (fun e => known e == grant desired e) desired) _ fits₁ hro
    (fun e he => (mem_granted.mp he).1)
    (fun e he => by
      by_contra hd
      rw [← Finmap.lookup_isSome, hl, if_neg hd] at he
      cases he)
    (fun held' fits' h => hP held' fits' fun e he hde =>
      h e (mem_of_lookup_eq (by rw [hl, if_pos hde]) he))
  have hf : writeAll desired (granted (fun e => known e == grant desired e) desired)
      (removeAll (obsolete listed desired) set.entries) = desired := by
    apply Finmap.ext_lookup
    intro e
    rw [lookup_writeAll, hl]
    by_cases hd : e ∈ desired
    · rw [lookup_eq_grant hd]
      by_cases hsa : known e = grant desired e
      · -- Skipped: the timeout observed is positive, hence that of an entry.
        have hg := hpo e _ (lookup_eq_grant hd)
        have hh : e ∈ set.entries := by
          by_contra hou
          rw [← hsa, hkn, grant, Finmap.lookup_eq_none.mpr hou] at hg
          cases hg
        simp [mem_granted, hd, hsa, lookup_eq_grant hh, ← hkn]
      · simp [mem_granted, hd, hsa]
    · simp [mem_granted, hd, Finmap.lookup_eq_none.mpr hd]
  have hp := hre.append had
  rwa [refill_congr fits₂ hro hf] at hp

theorem performs_filled (set : IpSet) (hempty : set.entries = ∅)
    (hro : desired.keys.card ≤ set.maxelem)
    (hP : ∀ held, P (Function.update kernel name (some held))) :
    Script.Performs (ipsetExec references) P (additions name (fun _ => false) desired)
      (Function.update kernel name (some set)) (refill kernel name set desired hro) := by
  obtain ⟨fits, had⟩ := performs_additions references
    (granted (fun _ => false) desired) set.entries set.fits hro
    (fun e he => (mem_granted.mp he).1)
    (fun e he => (Finmap.notMem_empty (hempty ▸ he)).elim)
    (fun held fits _ => hP (set.fill held fits))
  have hf : writeAll desired (granted (fun _ => false) desired) set.entries = desired := by
    apply Finmap.ext_lookup
    intro e
    rw [lookup_writeAll, hempty]
    by_cases hd : e ∈ desired
    · simp [mem_granted, hd, lookup_eq_grant hd]
    · simp [mem_granted, hd, Finmap.lookup_eq_none.mpr hd]
  rwa [refill_congr fits hro hf] at had

end Fill

/-! ## The whole script -/

/-- What the script assumes of the kernel: the inventory was read from it, no rule refers to the
spare set, and the live set is of its family. `validateIPTInventory` checks the last two. -/
structure Updatable (references : String → Nat) (set : DynamicSet) (inventory : ObservedSets)
    (kernel : Kernel) : Prop where
  live : Read (inventory set.name) (kernel set.name)
  spare : Read (inventory set.spare) (kernel set.spare)
  unreferenced : references set.spare = 0
  family : ∀ s, kernel set.name = some s → s.family = set.family

def fresh (set : DynamicSet) (desired : Leases) : IpSet :=
  (IpSet.create set.family (dynamicIPSetCapacity desired.keys.card) maximumLease).fill desired
    (needed_le_capacity _)

def settled (set : DynamicSet) (desired : Leases) : Option IpSet → IpSet
  | none => fresh set desired
  | some live =>
      if room : desired.keys.card ≤ live.maxelem then live.fill desired room
      else fresh set desired

def settle (set : DynamicSet) (desired : Leases) (kernel : Kernel) : Kernel :=
  Function.update (Function.update kernel set.spare none) set.name
    (some (settled set desired (kernel set.name)))

/-- What is found wherever the script was cut off. -/
structure Interrupted (set : DynamicSet) (desired : Leases) (kernel k : Kernel) : Prop where
  settles : settle set desired k = settle set desired kernel
  family : ∀ s, k set.name = some s → s.family = set.family
  kept : ∀ s, kernel set.name = some s →
    ∃ s', k set.name = some s' ∧ ∀ e ∈ s.entries, e ∈ desired → e ∈ s'.entries

section Update

variable {references : String → Nat} {set : DynamicSet} {inventory : ObservedSets}
  {kernel k : Kernel} {desired : Leases} {obs : ObservedSet}

theorem settled_fill {live : IpSet} {held : Leases} (fits : held.keys.card ≤ live.maxelem) :
    settled set desired (some (live.fill held fits)) = settled set desired (some live) := rfl

theorem settled_create :
    settled set desired
        (some (.create set.family (dynamicIPSetCapacity desired.keys.card) maximumLease)) =
      fresh set desired :=
  dif_pos (needed_le_capacity _)

theorem settled_fresh : settled set desired (some (fresh set desired)) = fresh set desired :=
  settled_create

theorem settle_congr (hf : ∀ n, n ≠ set.name → n ≠ set.spare → k n = kernel n)
    (hl : settled set desired (k set.name) = settled set desired (kernel set.name)) :
    settle set desired k = settle set desired kernel := by
  funext n
  by_cases hna : n = set.name
  · subst hna
    simp [settle, hl]
  by_cases hsp : n = set.spare
  · subst hsp
    simp [settle, hna]
  · simp [settle, hna, hsp, hf n hna hsp]

/-- The leftover spare set is discarded. -/
def discarded (set : DynamicSet) (inventory : ObservedSets) : List IpsetCommand :=
  if (inventory set.spare).isSome then [.destroy set.spare] else []

theorem Read.none_right {set : Option IpSet} (h : Read none set) : set = none := by
  cases set with
  | none => rfl
  | some s => exact h.elim

theorem Read.some_right {set : Option IpSet} (h : Read (some obs) set) :
    ∃ s, set = some s ∧ Observes obs s := by
  cases set with
  | none => exact h.elim
  | some s => exact ⟨s, rfl, h⟩

theorem performs_discard {P : Kernel → Prop} (h : Updatable references set inventory kernel)
    (hst : P kernel) (hP : P (Function.update kernel set.spare none)) :
    Script.Performs (ipsetExec references) P (discarded set inventory) kernel
      (Function.update kernel set.spare none) := by
  have hread := h.spare
  unfold discarded
  cases ho : inventory set.spare with
  | none =>
    rw [ho] at hread
    have hsa : Function.update kernel set.spare none = kernel := by
      rw [← hread.none_right, Function.update_eq_self]
    rw [hsa]
    exact .nil hst
  | some obs =>
    rw [ho] at hread
    obtain ⟨s, hs, -⟩ := hread.some_right
    exact .cons hst (exec_destroy hs h.unreferenced) (.nil hP)

/-! ### The three plans -/

abbrev creation (set : DynamicSet) (desired : Leases) (name : String) : IpsetCommand :=
  .create name set.family (dynamicIPSetCapacity desired.keys.card) maximumLease

def absentScript (set : DynamicSet) (desired : Leases) : List IpsetCommand :=
  creation set desired set.name :: (removals set.name [] desired ++
    additions set.name (fun e => 0 == grant desired e) desired)

def inPlaceScript (set : DynamicSet) (observed : ObservedSet) (desired : Leases) :
    List IpsetCommand :=
  removals set.name observed.entries desired ++
    additions set.name (fun e => (observed.timeouts e).getD 0 == grant desired e) desired

def resizeScript (set : DynamicSet) (desired : Leases) : List IpsetCommand :=
  creation set desired set.spare :: (additions set.spare (fun _ => false) desired ++
    [.swap set.spare set.name, .destroy set.spare])

theorem script_absent (hl : inventory set.name = none) :
    appendDynamicIPSet set inventory desired =
      .ok (discarded set inventory ++ absentScript set desired) := by
  simp only [appendDynamicIPSet, hl]
  simp [discarded, absentScript, obsolete, Pure.pure, Except.pure, bind, Except.bind]

theorem script_in_place {cap : Nat}
    (hl : inventory set.name = some obs) (hc : ipsetCapacity obs = .ok cap)
    (hro : desired.keys.card ≤ cap) :
    appendDynamicIPSet set inventory desired =
      .ok (discarded set inventory ++ inPlaceScript set obs desired) := by
  have hre : ¬ cap < desired.keys.card := Nat.not_lt.mpr hro
  simp only [appendDynamicIPSet, hl, hc]
  simp [discarded, inPlaceScript, hre, Pure.pure, Except.pure, bind, Except.bind]

theorem script_resize {cap : Nat}
    (hl : inventory set.name = some obs) (hc : ipsetCapacity obs = .ok cap)
    (hf : cap < desired.keys.card) :
    appendDynamicIPSet set inventory desired =
      .ok (discarded set inventory ++ resizeScript set desired) := by
  simp only [appendDynamicIPSet, hl, hc]
  simp [discarded, resizeScript, hf, Pure.pure, Except.pure, bind, Except.bind]

theorem interrupted_absent (hno : kernel set.name = none)
    (hf : ∀ n, n ≠ set.name → n ≠ set.spare → k n = kernel n) (hk : ∀ s, k set.name = some s →
      s.family = set.family ∧ settled set desired (some s) = fresh set desired) :
    Interrupted set desired kernel k where
  settles := by
    apply settle_congr hf
    rw [hno]
    cases hl : k set.name with
    | none => rfl
    | some s => exact (hk s hl).2
  family s hs := (hk s hs).1
  kept s hs := by
    rw [hno] at hs
    cases hs

theorem interrupted_present {live live' : IpSet} (hl : kernel set.name = some live)
    (hk : k set.name = some live') (hfr : ∀ n, n ≠ set.name → n ≠ set.spare → k n = kernel n)
    (hse : settled set desired (some live') = settled set desired (some live))
    (hf : live'.family = set.family) (hke : ∀ e ∈ live.entries, e ∈ desired → e ∈ live'.entries) :
    Interrupted set desired kernel k where
  settles := settle_congr hfr (by rw [hk, hl, hse])
  family s hs := by
    rw [hk] at hs
    cases hs
    exact hf
  kept s hs := by
    rw [hl] at hs
    cases hs
    exact ⟨live', hk, hke⟩

theorem interrupted_spare (desired : Leases)
    (hf : ∀ s, kernel set.name = some s → s.family = set.family) (spare : Option IpSet) :
    Interrupted set desired kernel (Function.update kernel set.spare spare) := by
  have hna : (Function.update kernel set.spare spare) set.name = kernel set.name :=
    Function.update_of_ne set.spare_ne_name.symm _ _
  refine ⟨settle_congr (fun n _ hsp => Function.update_of_ne hsp _ _) (by rw [hna]), ?_, ?_⟩
  · rwa [hna]
  · exact fun s hs => ⟨s, hna.trans hs, fun _ he _ => he⟩

theorem interrupted_start (hf : ∀ s, kernel set.name = some s → s.family = set.family) :
    Interrupted set desired kernel kernel :=
  ⟨rfl, hf, fun s hs => ⟨s, hs, fun _ he _ => he⟩⟩

/-- What a script of the update does: it settles the kernel. -/
def Executes (references : String → Nat) (set : DynamicSet) (desired : Leases) (kernel : Kernel)
    (script : List IpsetCommand) : Prop :=
  Script.Performs (ipsetExec references) (Interrupted set desired kernel) script kernel
    (settle set desired kernel)

section

variable (h : Updatable references set inventory kernel)

include h

theorem executes_absent
    (hp : ∀ e t, desired.lookup e = some t → 0 < t) (hno : kernel set.name = none) :
    Executes references set desired kernel (discarded set inventory ++ absentScript set desired) := by
  have hd := interrupted_spare desired h.family none
  refine (performs_discard h (interrupted_start h.family) hd).append ?_
  have hc : ipsetExec references (creation set desired set.name)
      (Function.update kernel set.spare none) = some _ :=
    exec_create (by rw [Function.update_of_ne set.spare_ne_name.symm, hno])
  refine .cons hd hc ?_
  -- From here on the new, empty set is updated in place.
  have hf := performs_in_place references (P := Interrupted set desired kernel) [] (fun _ => 0)
    (Function.update_self set.name
      (some (IpSet.create set.family (dynamicIPSetCapacity desired.keys.card) maximumLease))
      (Function.update kernel set.spare none))
    (by simp [IpSet.create, Finmap.notMem_empty]) (by simp [IpSet.create, grant])
    (needed_le_capacity _) hp
    (fun held fits _ => interrupted_absent hno (fun n hna hsp => by
        rw [refill, Function.update_of_ne hna, Function.update_of_ne hna,
          Function.update_of_ne hsp])
      fun s hs => by
        rw [refill_self] at hs
        cases hs
        exact ⟨rfl, settled_create⟩)
  rw [settle, hno]
  unfold refill at hf
  rw [Function.update_idem] at hf
  exact hf

theorem executes_in_place
    (hp : ∀ e t, desired.lookup e = some t → 0 < t) {obs : ObservedSet} {live : IpSet}
    (hl : kernel set.name = some live) (hread : Observes obs live)
    (hro : desired.keys.card ≤ live.maxelem) :
    Executes references set desired kernel
      (discarded set inventory ++ inPlaceScript set obs desired) := by
  have hke : (Function.update kernel set.spare none) set.name = some live := by
    rw [Function.update_of_ne set.spare_ne_name.symm, hl]
  refine (performs_discard h (interrupted_start h.family) (interrupted_spare _ h.family none)).append ?_
  have hf := performs_in_place references (P := Interrupted set desired kernel)
    obs.entries (fun e => (obs.timeouts e).getD 0) hke hread.entries
    (fun e => by rw [hread.timeouts, grant]) hro hp
    (fun held fits hh => interrupted_present hl (refill_self ..) (fun n hna hsp => by
        rw [refill, Function.update_of_ne hna, Function.update_of_ne hsp])
      (settled_fill fits) (h.family live hl) hh)
  rw [settle, hl, settled, dif_pos hro]
  exact hf

theorem executes_resize {live : IpSet}
    (hl : kernel set.name = some live) (hf : live.maxelem < desired.keys.card) :
    Executes references set desired kernel (discarded set inventory ++ resizeScript set desired) := by
  have hne := set.spare_ne_name
  -- Until the swap only the spare set changes.
  have hbe := interrupted_spare desired h.family
  have hse : settled set desired (some live) = fresh set desired := dif_neg (Nat.not_le.mpr hf)
  -- From the swap on the live set is the new one.
  have haf : ∀ spare, Interrupted set desired kernel
      (Function.update (Function.update kernel set.spare spare) set.name
        (some (fresh set desired))) := fun spare =>
    interrupted_present hl (Function.update_self ..) (fun n hna hsp => by
        rw [Function.update_of_ne hna, Function.update_of_ne hsp])
      (by rw [settled_fresh, hse]) rfl fun e _ hd => hd
  have hc : ipsetExec references (creation set desired set.spare)
      (Function.update kernel set.spare none) = some _ := exec_create (Function.update_self ..)
  rw [Function.update_idem] at hc
  have hfi := performs_filled references (P := Interrupted set desired kernel)
    (.create set.family (dynamicIPSetCapacity desired.keys.card) maximumLease)
    rfl (needed_le_capacity _) fun held => hbe (some held)
  have hsw : ipsetExec references (.swap set.spare set.name)
      (Function.update kernel set.spare (some (fresh set desired))) = some
        (Function.update (Function.update kernel set.spare (some live)) set.name
          (some (fresh set desired))) := by
    rw [exec_swap (Function.update_self ..) (by rw [Function.update_of_ne hne.symm, hl])
      (h.family live hl).symm, Function.update_idem]
  have hde : ipsetExec references (.destroy set.spare)
      (Function.update (Function.update kernel set.spare (some live)) set.name
        (some (fresh set desired))) = some (settle set desired kernel) := by
    rw [exec_destroy (by rw [Function.update_of_ne hne, Function.update_self]) h.unreferenced,
      Function.update_comm hne.symm, Function.update_idem, settle, hl, hse]
  have hdo : Interrupted set desired kernel (settle set desired kernel) := by
    rw [settle, hl, hse]
    exact haf none
  refine (performs_discard h (interrupted_start h.family) (hbe none)).append ?_
  refine .cons (hbe none) hc (hfi.append ?_)
  exact .cons (hbe _) hsw (.cons (haf _) hde (.nil hdo))

end

theorem discarded_spares {c : IpsetCommand} (h : c ∈ discarded set inventory) :
    c ≠ .destroy set.name := by
  rintro rfl
  unfold discarded at h
  split at h
  · rw [mem_singleton, IpsetCommand.destroy.injEq] at h
    exact set.spare_ne_name h.symm
  · cases h

/-- **The update writes a script whose every line runs, and which does not destroy the live set.** -/
theorem exists_script (h : Updatable references set inventory kernel)
    (hp : ∀ e t, desired.lookup e = some t → 0 < t) :
    ∃ script, appendDynamicIPSet set inventory desired = .ok script ∧
      Executes references set desired kernel script ∧ ∀ c ∈ script, c ≠ .destroy set.name := by
  have hread := h.live
  have hsp : ∀ tail : List IpsetCommand, (∀ c ∈ tail, c ≠ .destroy set.name) →
      ∀ c ∈ discarded set inventory ++ tail, c ≠ .destroy set.name := by
    intro tail hta c hc
    rcases mem_append.mp hc with hc | hc
    · exact discarded_spares hc
    · exact hta c hc
  cases ho : inventory set.name with
  | none =>
    rw [ho] at hread
    have hno := hread.none_right
    refine ⟨_, script_absent ho, executes_absent h hp hno, hsp _ ?_⟩
    rintro c hc rfl
    simp [absentScript] at hc
  | some obs =>
    rw [ho] at hread
    obtain ⟨live, hl, hob⟩ := hread.some_right
    by_cases hro : desired.keys.card ≤ live.maxelem
    · refine ⟨_, script_in_place ho hob.capacity hro,
        executes_in_place h hp hl hob hro, hsp _ ?_⟩
      rintro c hc rfl
      simp [inPlaceScript] at hc
    · have hf := Nat.not_le.mp hro
      refine ⟨_, script_resize ho hob.capacity hf,
        executes_resize h hl hf, hsp _ ?_⟩
      rintro c hc rfl
      simp [resizeScript, set.spare_ne_name.symm] at hc

end Update

/-- **An update of the leases can be cut off anywhere.** No line of the script is refused: nothing is
created twice, destroyed while missing or in use, or added beyond `maxelem`. Before, between and
after its lines the live set, once there, is there, and holds every entry that it held and that is
desired. The whole script leaves exactly the desired leases and no spare set, and so does the script
written for what an interruption left. -/
theorem lease_script_safe (references : String → Nat) (set : DynamicSet) (inventory : ObservedSets)
    (kernel : Kernel) (desired : Leases) (h : Updatable references set inventory kernel)
    (hpos : ∀ entry timeout, desired.lookup entry = some timeout → 0 < timeout) :
    ∃ script final, appendDynamicIPSet set inventory desired = .ok script ∧
      Script.run (ipsetExec references) script kernel = some final ∧
      (∃ live, final set.name = some live ∧ live.entries = desired) ∧ final set.spare = none ∧
      ∀ done rest, script = done ++ rest →
        ∃ k, Script.run (ipsetExec references) done kernel = some k ∧
          (∀ earlier later, done = earlier ++ later →
            ∀ k₀, Script.run (ipsetExec references) earlier kernel = some k₀ →
              (k₀ set.name).isSome → (k set.name).isSome) ∧
          (∀ live, k set.name = some live → live.entries.keys.card ≤ live.maxelem) ∧
          (∀ live, kernel set.name = some live →
            ∃ live', k set.name = some live' ∧
              ∀ e ∈ live.entries, e ∈ desired → e ∈ live'.entries) ∧
          ∀ inventory', Read (inventory' set.name) (k set.name) →
            Read (inventory' set.spare) (k set.spare) →
            ∃ script', appendDynamicIPSet set inventory' desired = .ok script' ∧
              Script.run (ipsetExec references) script' k = some final := by
  obtain ⟨script, hsc, hexe, hsp⟩ := exists_script h hpos
  refine ⟨script, settle set desired kernel, hsc, hexe.2, ?_, ?_, ?_⟩
  · refine ⟨_, Function.update_self .., ?_⟩
    cases kernel set.name with
    | none => rfl
    | some live =>
      rw [settled]
      split <;> rfl
  · rw [settle, Function.update_of_ne set.spare_ne_name, Function.update_self]
  · rintro done rest rfl
    obtain ⟨k, hru, hk, -⟩ := hexe.1.cut
    refine ⟨k, hru, ?_, fun live _ => live.fits, hk.kept, ?_⟩
    · rintro earlier later rfl k₀ hk₀ hp
      rw [Script.run_append hk₀] at hru
      refine Script.run_keeps (P := fun k => (k set.name).isSome)
        (fun c hc s t hexec => exec_present hexec (hsp c ?_)) hru hp
      exact mem_append_left _ (mem_append_right _ hc)
    · intro inventory' hl hspa
      have h' : Updatable references set inventory' k := ⟨hl, hspa, h.unreferenced, hk.family⟩
      obtain ⟨script', hs', he', -⟩ := exists_script h' hpos
      exact ⟨script', hs', hk.settles ▸ he'.2⟩

/-- A live set of one entry that has to grow, and a spare set left behind. -/
def crowdedKernel (set : DynamicSet) : Kernel :=
  Function.update (Function.update (fun _ => none) set.spare (some (.create set.family 1 86400)))
    set.name (some ⟨set.family, 1, 86400, .singleton "192.0.2.0/24" 60, by simp⟩)

theorem crowdedKernel_maxelem (set : DynamicSet) (name : String) (s : IpSet)
    (hs : crowdedKernel set name = some s) : s.maxelem = 1 := by
  unfold crowdedKernel at hs
  by_cases hna : name = set.name
  · subst hna
    rw [Function.update_self] at hs
    cases hs
    rfl
  by_cases hsp : name = set.spare
  · subst hsp
    rw [Function.update_of_ne hna, Function.update_self] at hs
    cases hs
    rfl
  · rw [Function.update_of_ne hna, Function.update_of_ne hsp] at hs
    cases hs

theorem crowdedKernel_updatable (set : DynamicSet) :
    Updatable (fun _ => 0) set (fun name => (crowdedKernel set name).map IpSet.save)
      (crowdedKernel set) where
  live := read_save fun s hs => by rw [crowdedKernel_maxelem set _ s hs]; decide
  spare := read_save fun s hs => by rw [crowdedKernel_maxelem set _ s hs]; decide
  unreferenced := rfl
  family s hs := by
    rw [crowdedKernel, Function.update_self] at hs
    cases hs
    rfl

def sampleSet : DynamicSet :=
  Target.dynamicSet (fun _ => "") ⟨1, "filter", 0, 2, [], [], some [], some 3⟩ .ipv4

theorem crowded_set_grows :
    ∃ script final,
      appendDynamicIPSet sampleSet (fun name => (crowdedKernel sampleSet name).map IpSet.save)
        ((Finmap.singleton "192.0.2.0/24" 60).insert "198.51.100.0/24" 30) = .ok script ∧
      Script.run (ipsetExec fun _ => 0) script (crowdedKernel sampleSet) = some final ∧
      ∃ live, final sampleSet.name = some live ∧
        live.entries = (Finmap.singleton "192.0.2.0/24" 60).insert "198.51.100.0/24" 30 := by
  obtain ⟨script, final, hsc, hru, hl, -, -⟩ := lease_script_safe (fun _ => 0) sampleSet _ _
      ((Finmap.singleton "192.0.2.0/24" 60).insert "198.51.100.0/24" 30)
      (crowdedKernel_updatable _) (by
        intro entry timeout h
        by_cases he : entry = "198.51.100.0/24"
        · subst he
          rw [Finmap.lookup_insert] at h
          cases h
          decide
        · rw [Finmap.lookup_insert_of_ne _ he] at h
          have hin := (Finmap.mem_singleton _ _ _).mp (Finmap.mem_of_lookup_eq_some h)
          subst hin
          rw [Finmap.lookup_singleton_eq] at h
          cases h
          decide)
  exact ⟨script, final, hsc, hru, hl⟩

theorem zero_lease_skipped :
    ∃ script final,
      appendDynamicIPSet sampleSet (fun _ => none) (Finmap.singleton "192.0.2.0/24" 0) =
        .ok script ∧
      Script.run (ipsetExec fun _ => 0) script (fun _ => none) = some final ∧
      ∀ live, final sampleSet.name = some live → "192.0.2.0/24" ∉ live.entries := by
  have hsk : granted (fun e => 0 == grant (.singleton "192.0.2.0/24" 0) e)
      (.singleton "192.0.2.0/24" 0) = [] := by
    simp [granted, grant]
  refine ⟨_, Function.update (fun _ => none) sampleSet.name
    (some (.create .ipv4 (dynamicIPSetCapacity 1) maximumLease)), script_absent rfl, ?_, ?_⟩
  · have hc : ipsetExec (fun _ => 0) (.create sampleSet.name sampleSet.family
        (dynamicIPSetCapacity 1) maximumLease) (fun _ => none) = some _ := exec_create rfl
    rw [absentScript, additions, hsk]
    exact Script.run_cons hc
  · intro live hl
    rw [Function.update_self] at hl
    cases hl
    exact Finmap.notMem_empty

end Perimeterd.Firewall
