import Perimeterd.App.Engine
import Perimeterd.State.Lifecycle

/-!
# The kernel and the durable records

`Coupled` ties the kernel to one active record and one journal that a crash may find together: every
owned object belongs to a target they name, and the selected target is one they allow. `Sound` asks
it of every such pair, so it says what holds after a crash *now*, at every moment.

The active revision is moreover confined to an `Allowance`: a set of revisions (or none at all), and
whether a cleanup may be pending. It is a parameter: with everything allowed the confinement says
nothing, and with revisions of a minimal epoch it says that epochs do not decrease.
-/

namespace Perimeterd.App

open Lib Firewall State

variable {ω : Type}

/-- A revision, or none, of those that an active record and a journal name. -/
def Stands (content : Revision → Except String Unit) (d : Disk) (a : Option Id)
    (j : Option Journal) (x : Option Revision) : Prop :=
  ∀ r, x = some r → Names a j r.id ∧ Holds content d r

/-- The revisions whose target may be selected. -/
def Fits (a : Option Id) (j : Option Journal) (x : Option Revision) : Prop :=
  match j with
  | none => x.map (·.id) = a
  | some jr =>
      match jr.operation with
      | .apply => x.map (·.id) = jr.previous ∨ x.map (·.id) = jr.candidate
      | .cleanup => True

/-- What may be active, and whether a cleanup may be pending. -/
structure Allowance where
  revision : Option Revision → Prop
  cleanup : Prop
  empty : cleanup → revision none

def Allowance.any : Allowance := ⟨fun _ => True, True, fun _ => trivial⟩

/-- The coupling of the kernel to an active record and a journal. -/
structure Coupled (h : Host ω) (S : Allowance) (n : Native ω) (d : Disk)
    (a : Option Id) (j : Option Journal) : Prop where
  quiet : n.conflict = false
  objects : ∀ o ∈ n.objects, ∃ r t, Names a j r.id ∧ Holds h.content d r ∧ r.target = some t ∧
    o ∈ h.owned t
  selected : ∃ x, Stands h.content d a j x ∧ Fits a j x ∧ n.selected = x.bind (·.target)
  allowed : ∃ x, S.revision x ∧ x.map (·.id) = a ∧ ∀ r, x = some r → Holds h.content d r
  emptied : ∀ jr, j = some jr → jr.operation = .cleanup → S.cleanup

/-- **The invariant of an engine's world.** -/
def Sound (h : Host ω) (S : Allowance) (w : World ω) : Prop :=
  Inv h.content (Coupled h S w.native) w.disk

variable {h : Host ω} {S : Allowance} {n n' : Native ω} {d : Disk} {w : World ω}

/-! ## The laws of the coupling -/

variable {a : Option Id} {jr : Journal} {P : World ω → Prop}

theorem names_of_core {jr' : Journal} (hc : jr'.core = jr.core) {id : Id} :
    Names a (some jr') id ↔ Names a (some jr) id := by
  obtain ⟨-, -, -, -, -, hre⟩ := Journal.core_fields hc
  simp only [Names, Option.some.injEq, exists_eq_left', hre]

theorem coupling (h : Host ω) (S : Allowance) (n : Native ω) :
    Coupling h.content (Coupled h S n) where
  mono := by
    intro d d' a j hk hc
    refine ⟨hc.quiet, ?_, ?_, ?_, hc.emptied⟩
    · intro o ho
      obtain ⟨r, t, hn, hr, ht, hot⟩ := hc.objects o ho
      exact ⟨r, t, hn, hk r hn hr, ht, hot⟩
    · obtain ⟨x, hs, hf, hse⟩ := hc.selected
      exact ⟨x, fun r hr => ⟨(hs r hr).1, hk r (hs r hr).1 (hs r hr).2⟩, hf, hse⟩
    · obtain ⟨x, hx, hid, hr⟩ := hc.allowed
      refine ⟨x, hx, hid, ?_⟩
      rintro r rfl
      exact hk r (Or.inl hid.symm) (hr r rfl)
  version := by
    intro d a jr jr' hco hc
    obtain ⟨hop, hp, hca, -, -, -⟩ := Journal.core_fields hco
    refine ⟨hc.quiet, ?_, ?_, hc.allowed, ?_⟩
    · intro o ho
      obtain ⟨r, t, hn, rest⟩ := hc.objects o ho
      exact ⟨r, t, (names_of_core hco).mpr hn, rest⟩
    · obtain ⟨x, hs, hf, hse⟩ := hc.selected
      refine ⟨x, fun r hr => ⟨(names_of_core hco).mpr (hs r hr).1, (hs r hr).2⟩, ?_, hse⟩
      simpa only [Fits, hop, hp, hca] using hf
    · rintro _ ⟨⟩ hcl
      exact hc.emptied jr rfl (hop ▸ hcl)
  prepared := by
    intro d a jr hop hp _ hc
    refine ⟨hc.quiet, ?_, ?_, hc.allowed, ?_⟩
    · intro o ho
      obtain ⟨r, t, hn, rest⟩ := hc.objects o ho
      exact ⟨r, t, Or.inl (by simpa [Names] using hn), rest⟩
    · obtain ⟨x, hs, hf, hse⟩ := hc.selected
      refine ⟨x, fun r hr => ⟨Or.inl (by simpa [Names] using (hs r hr).1), (hs r hr).2⟩, ?_, hse⟩
      simp only [Fits, hop, hp]
      exact .inl hf
    · rintro _ ⟨⟩ hcl
      rw [hop] at hcl
      cases hcl

theorem Coupled.commit {prev : Option Revision} {c : Revision}
    (hS : S.revision (some c)) (hp : Pending h.content prev c d)
    (hs : JournalSound h.content d jr) (hop : jr.operation = .apply)
    (hag : Agrees a jr) (hc : Coupled h S n d a (some jr)) :
    Coupled h S n d (some c.id) (some jr) := by
  have hna : ∀ id, Names a (some jr) id → Names (some c.id) (some jr) id := by
    rintro id (ha | hj)
    · refine .inr ⟨jr, rfl, mem_revisions_of_valid hs.valid ?_⟩
      rw [← ha]
      rcases hag.2 (by simp [ha]) with h | h
      · exact .inl h.symm
      · exact .inr h.symm
    · exact .inr hj
  refine ⟨hc.quiet, ?_, ?_, ?_, hc.emptied⟩
  · intro o ho
    obtain ⟨r, t, hn, rest⟩ := hc.objects o ho
    exact ⟨r, t, hna _ hn, rest⟩
  · obtain ⟨x, hst, hf, hse⟩ := hc.selected
    refine ⟨x, fun r hr => ⟨hna _ (hst r hr).1, (hst r hr).2⟩, ?_, hse⟩
    simpa only [Fits, hop] using hf
  · refine ⟨some c, hS, rfl, ?_⟩
    rintro r ⟨⟩
    exact hp.cand

theorem Coupled.clean (hS : S.cleanup) {j : Option Journal}
    (hop : jr.operation = .cleanup) (hal : ∀ id, Names a j id → id ∈ jr.revisions)
    (hc : Coupled h S n d a j) : Coupled h S n d a (some jr) := by
  have hna : ∀ id, Names a j id → Names a (some jr) id := fun id hn => Or.inr ⟨jr, rfl, hal id hn⟩
  refine ⟨hc.quiet, ?_, ?_, hc.allowed, fun _ _ _ => hS⟩
  · intro o ho
    obtain ⟨r, t, hn, rest⟩ := hc.objects o ho
    exact ⟨r, t, hna _ hn, rest⟩
  · obtain ⟨x, hst, -, hse⟩ := hc.selected
    refine ⟨x, fun r hr => ⟨hna _ (hst r hr).1, (hst r hr).2⟩, ?_, hse⟩
    simp only [Fits, hop]

/-! ## Lifting the store's specifications -/

/-- A statement about the parts of a world. -/
def Mid (D : Disk → Prop) (N : Native ω → Prop) (G : Engine → Prop) (w : World ω) : Prop :=
  D w.disk ∧ N w.native ∧ G w.engine

/-- What a failure leaves: a statement about the engine alone. -/
def Lost (G : Engine → Prop) (w : World ω) : Prop := G w.engine

/-- **A store operation** leaves the kernel and the engine alone. -/
theorem keeps_store {α : Type} {p : Proc (Fate (Move ω)) Disk String α} {D : Disk → Prop}
    {D' : α → Disk → Prop} {F : String → Disk → Prop} {N : Native ω → Prop} {G : Engine → Prop}
    (hp : ∀ n, N n → Keeps (Inv h.content (Coupled h S n)) D p D' F) :
    Keeps (Sound h S) (Mid D N G) (onDisk p) (fun a => Mid (D' a) N G)
      (fun e => Mid (F e) N G) := by
  refine .zoom (fun _ => rfl) fun w _ hP => ?_
  intro d l hI hPd
  have := hp w.native hP.2.1 d l hI hPd.1
  rcases hr : p d l with ⟨s', ⟨a, w'⟩ | ⟨e, w'⟩ | _⟩
  · rw [hr] at this
    exact ⟨this.1, this.2, hP.2⟩
  · rw [hr] at this
    exact ⟨this.1, this.2, hP.2⟩
  · rw [hr] at this
    exact this

theorem keeps_read :
    Keeps (Sound h S) P (onDisk (readView h.content))
      (fun v w => P w ∧ Viewed h.content w.disk v) (fun _ => P) := by
  refine .zoom (fun _ => rfl) fun w _ _ => ?_
  have hread : Keeps (Inv h.content (Coupled h S w.native)) (fun d => P { w with disk := d })
      (readView h.content : Proc (Fate (Move ω)) Disk String View)
      (fun v d => P { w with disk := d } ∧ Viewed h.content d v)
      (fun _ d => P { w with disk := d }) := keeps_readView
  exact hread

theorem keeps_check {name : String} :
    Keeps (Sound h S) P (check name) (fun _ => P) (fun _ => P) := by
  refine .step fun fate w hI hP => ?_
  cases fate with
  | ok => exact ⟨hI, hP⟩
  | fail => exact ⟨hI, hP⟩
  | choose m => exact ⟨hI, hP⟩

theorem keeps_onEngine {D : Disk → Prop} {N : Native ω → Prop} {G G' : Engine → Prop}
    {f : Engine → Engine} {E : String → World ω → Prop} (hf : ∀ e, G e → G' (f e)) :
    Keeps (Sound h S) (Mid D N G) (onEngine f) (fun _ => Mid D N G') E :=
  Keeps.change fun _ hI hP => ⟨hI, hP.1, hP.2.1, hf _ hP.2.2⟩

theorem keeps_onNative {Q : Unit → World ω → Prop}
    {E : String → World ω → Prop} {f : Native ω → Native ω}
    (hf : ∀ w : World ω, Sound h S w → P w → (∀ a ∈ w.disk.active.all, ∀ j ∈ w.disk.journal.all,
      Pair h.content w.disk a j → Coupled h S w.native w.disk a j →
        Coupled h S (f w.native) w.disk a j) ∧ Q () { w with native := f w.native }) :
    Keeps (Sound h S) P (onNative f) Q E := by
  refine .change fun w hI hP => ?_
  obtain ⟨hc, hq⟩ := hf w hI hP
  refine ⟨⟨hI.certain, fun a ha j hj => ?_⟩, hq⟩
  obtain ⟨hp, hk⟩ := hI.pairs a ha j hj
  exact ⟨hp, hc a ha j hj hp hk⟩

end Perimeterd.App
