import Perimeterd.App.Runs
import Perimeterd.State.Content

/-!
# Safety of every run

What holds in every run of an engine that begins with an empty store and an empty kernel, whatever
fails and wherever the machine stops.
-/

namespace Perimeterd.App

open Lib Firewall State

variable {ω : Type} [DecidableEq ω] {h : Host ω} {events : List Event} {w w' : World ω}

/-! ## A run to look at -/

/-- What the checks of a revision compute with, on a host without source records. -/
def sampleChecks : Checks where
  owner := 1
  load _ := .error "manifest cannot be read"
  texts := Source.plainTexts
  digest := id
  prefixText p := toString p.addr.value ++ "/" ++ toString p.bits

/-- A daemon whose targets own one object each, named after their generation. Targets are built as
`BuildTarget` does, only that their counters are not put in the order of their names. -/
def sampleHost : Host Nat where
  content := sampleChecks.revision
  owned t := [t.generation.toNat]
  buildTarget id cfg model previous :=
    let t := generationTarget sampleChecks.owner id cfg model previous
    .ok (if model.empty then none
      else some { t with counters := ((expectedCounters t).map CounterName.spec).dedup })
  validateTarget := validateTarget sampleChecks.digest sampleChecks.prefixText

def sampleConfig : Config where
  global := { blocklist := [.valid (.v4 203 0 113 0 24)] }

def sampleCandidate : Candidate where
  epoch := 1
  path := "/etc/perimeterd/config.yaml"
  cfg := sampleConfig
  model := (Policy.compile Prod.mk sampleConfig ⟨[]⟩).toOption.getD ⟨[]⟩

/-- Nothing is blocked any more: a model without families, and so without a target. -/
def emptyCandidate : Candidate where
  epoch := 2
  path := "/etc/perimeterd/config.yaml"
  cfg := {}
  model := ⟨[]⟩

/-- The revision a candidate becomes under an identity, after nothing. -/
def Candidate.recorded (c : Candidate) (id : Id) : Revision :=
  c.revision id (sampleHost.buildTarget id c.cfg c.model none).toOption.join

/-- The answers to an apply: the identity, and after some steps the objects the backend has on the
way. -/
def applyAnswers (id : Id) (steps : Nat) (objects : List Nat) (rest : Nat) :
    List (Fate (Move Nat)) :=
  List.replicate 3 .ok ++ .choose (.identity id) :: List.replicate steps .ok ++
    .choose (.change objects true) :: List.replicate rest .ok

/-- A recovery in which the CrowdSec runtime has nothing to write. -/
def recoverAnswers (steps : Nat) : List (Fate (Move Nat)) :=
  List.replicate steps .ok ++ .fail :: List.replicate 3 .ok

/-- A new daemon's first apply is cut off when the kernel has switched. -/
def cutScript : List (Op × List (Fate (Move Nat))) :=
  [(.recover, recoverAnswers 8), (.admitEpoch, []), (.apply sampleCandidate, applyAnswers 7 18 [7] 1)]

def sampleCrashed : World Nat := (plays sampleHost cutScript [] {}).2

/-- The next process has its recovery fail in the backend, then succeed. -/
def sampleFailed : World Nat :=
  (play sampleHost .recover (List.replicate 9 .ok ++ [.fail]) sampleCrashed).2

def sampleRecovered : World Nat := (play sampleHost .recover (recoverAnswers 18) sampleFailed).2

def sampleAdmitted : World Nat := (play sampleHost .admitEpoch [] sampleRecovered).2

/-- The candidate is applied after all. -/
def sampleApplied : World Nat :=
  (play sampleHost (.apply sampleCandidate) (applyAnswers 8 18 [8] 40) sampleAdmitted).2

theorem reaches_sampleCrashed :
    Reaches sampleHost {} (plays sampleHost cutScript [] {}).1 sampleCrashed :=
  Reaches.plays _ (.refl _) _

theorem reaches_sampleFailed : Reaches sampleHost {}
    (.failed .recover "firewall backend failed" :: (plays sampleHost cutScript [] {}).1)
    sampleFailed :=
  .step reaches_sampleCrashed (step_play _ (by decide +kernel))

theorem step_sampleRecovered :
    Step sampleHost sampleFailed (.returned .recover (.recovered none)) sampleRecovered :=
  step_play _ (by decide +kernel)

/-- What has happened when the candidate is admitted again. -/
def sampleEvents : List Event :=
  .returned .admitEpoch (.admitted 1) :: .returned .recover (.recovered none) ::
    .failed .recover "firewall backend failed" :: (plays sampleHost cutScript [] {}).1

theorem reaches_sampleAdmitted : Reaches sampleHost {} sampleEvents sampleAdmitted :=
  .step (.step reaches_sampleFailed step_sampleRecovered) (step_play _ (by decide +kernel))

theorem step_sampleApplied : Step sampleHost sampleAdmitted (.returned (.apply sampleCandidate)
    (.applied (⟨some 8, true, false, some (sampleCandidate.recorded 8)⟩, none))) sampleApplied :=
  step_play _ (by decide +kernel)

/-! ## Durable state -/

/-- **The durable state never becomes unreadable**: after any run, whatever of it survives a crash is
accepted by the reader; the view it yields is complete; and every active record and every journal
that yet another crash might bring back agree and name revisions that are there for certain. -/
theorem read_after_crash (hr : Reaches h {} events w) :
    (∃ v, read h.content w.disk = .ok v ∧ Viewed h.content w.disk v) ∧
    ∀ d, w.disk.Survives d → ∃ v, read h.content d = .ok v ∧ Viewed h.content d v ∧
      ∀ a ∈ d.active.all, ∀ j ∈ d.journal.all, Pair h.content d a j := by
  have hw := hr.sound.1
  refine ⟨read_of_pair hw.pair, fun d hd => ?_⟩
  have hI : Inv h.content (Coupled h .any w.native) d := hw.survives (coupling h _ _) hd
  obtain ⟨v, hread, hvi⟩ := read_of_pair hI.pair
  exact ⟨v, hread, hvi, fun a ha j hj => (hI.pairs a ha j hj).1⟩

theorem read_after_crash_sample : sampleCrashed.disk.journal.seen.isSome = true ∧
    ∃ v, read sampleHost.content sampleCrashed.disk = .ok v ∧
      Viewed sampleHost.content sampleCrashed.disk v :=
  ⟨by decide +kernel, (read_after_crash reaches_sampleCrashed).1⟩

/-! ## Crash-safe apply -/

/-- The journal is gone, and the kernel selects the target of the active revision, whose record will
survive any crash. -/
structure Quiescent (h : Host ω) (x : Option Revision) (w : World ω) : Prop where
  journal : w.disk.journal.seen = none
  active : w.disk.active.Only (x.map (·.id))
  stored : ∀ r, x = some r → readRevision h.content w.disk r.id = .ok r
  selected : w.native.selected = x.bind (·.target)

omit [DecidableEq ω] in
theorem AtRest.quiescent {x : Option Revision} (hx : AtRest h x w) : Quiescent h x w :=
  ⟨hx.journal, hx.rooted.active, fun r hr => readRevision_of_holds (hx.rooted.stored r hr),
    hx.selected⟩

/-- **Recovery and apply are crash-safe.** A successful `Recover` leaves no journal, for certain, and
the kernel on the active revision. An `Apply` by a healthy engine that is not degraded leaves no
journal either: the active record and the kernel are on the candidate if the outcome is committed
and still on the previous revision if it is not. And at any time, whatever a crash brings back, the
selected target is one that the records found name. -/
theorem crash_safe (hr : Reaches h {} events w) :
    (∀ x, Step h w (.returned .recover (.recovered x)) w' →
      w'.disk.journal.Only none ∧ Quiescent h x w') ∧
    (∀ c o e, Step h w (.returned (.apply c) (.applied (o, e))) w' →
      w.engine.isHealthy = true → ∃ previous, Quiescent h previous w ∧
        (o.degraded = false → o.committed = true → ∃ id t, o.active = some (c.revision id t) ∧
          Quiescent h (some (c.revision id t)) w') ∧
        (o.degraded = false → o.committed = false → Quiescent h previous w')) ∧
    ∀ d, w.disk.Survives d → ∃ x, Stands h.content d d.active.seen d.journal.seen x ∧
      Fits d.active.seen d.journal.seen x ∧ w.native.selected = x.bind (·.target) := by
  obtain ⟨hw, hrea⟩ := hr.sound
  refine ⟨?_, ?_, ?_⟩
  · intro x hs
    obtain ⟨kept, hk⟩ := hw.kept hrea
    obtain ⟨-, y, hy, hre⟩ := hs.done hw hk trivial
    cases hy
    exact ⟨hre.1.journal, AtRest.quiescent ⟨hre.1.journal.seen, hre.1.toRooted, hre.2.1.1⟩⟩
  · intro c o e hs hh
    obtain ⟨previous, hidle⟩ := hw.idle (hrea (healthy_of_isHealthy hh))
    refine ⟨previous, (hw.atRest hidle).quiescent, ?_⟩
    obtain ⟨-, r, hr', hap⟩ := hs.done hw (fun _ => hidle) fun _ _ _ _ => trivial
    cases hr'
    refine ⟨fun hde hc => ?_, fun hde hc => ?_⟩
    · obtain ⟨id, t, hac, -⟩ := hap.committed hc
      have hrest := hap.ready (hap.settled hde)
      rw [if_pos hc, hac] at hrest
      exact ⟨id, t, hac, hrest.quiescent⟩
    · have hrest := hap.ready (hap.settled hde)
      rw [if_neg (by rw [hc]; simp)] at hrest
      exact hrest.quiescent
  · intro d hd
    have hI : Inv h.content (Coupled h .any w.native) d := hw.survives (coupling h _ _) hd
    exact hI.coupled.selected

def sampleReadmitted : World Nat := (play sampleHost .admitEpoch [] sampleApplied).2

def sampleEmptied : World Nat :=
  (play sampleHost (.apply emptyCandidate)
    (List.replicate 3 .ok ++ .choose (.identity 9) :: List.replicate 60 .ok) sampleReadmitted).2

theorem step_sampleEmptied : Step sampleHost sampleReadmitted (.returned (.apply emptyCandidate)
    (.applied (⟨some 9, true, false, some (emptyCandidate.revision 9 none)⟩, none))) sampleEmptied :=
  step_play _ (by decide +kernel)

theorem crash_safe_sample : sampleFailed.native.selected.isSome = true ∧
    Quiescent sampleHost none sampleRecovered ∧
    Quiescent sampleHost (some (sampleCandidate.recorded 8)) sampleApplied ∧
    Quiescent sampleHost (some (emptyCandidate.revision 9 none)) sampleEmptied := by
  have happlied := Reaches.step reaches_sampleAdmitted step_sampleApplied
  have hadmit : Step sampleHost sampleApplied _ sampleReadmitted := step_play sampleHost rfl
  refine ⟨by decide +kernel, ((crash_safe reaches_sampleFailed).1 none step_sampleRecovered).2, ?_, ?_⟩
  · obtain ⟨-, -, hc, -⟩ := (crash_safe reaches_sampleAdmitted).2.1 sampleCandidate _ _
      step_sampleApplied (by decide +kernel)
    obtain ⟨id, t, hac, hqu⟩ := hc rfl rfl
    rwa [← hac] at hqu
  · obtain ⟨-, -, hc, -⟩ := (crash_safe (happlied.step hadmit)).2.1 emptyCandidate _ _ step_sampleEmptied
      (by decide +kernel)
    obtain ⟨id, t, hac, hqu⟩ := hc rfl rfl
    rwa [← hac] at hqu

/-! ## No orphans -/

/-- **No native object is ever orphaned**: whatever a crash brings back, every owned object belongs
to a revision the reader finds and to a target that recovery and cleanup would pass to the backend.
No inventory check of any backend call has ever met an object it could not account for, and a
successful `Cleanup` leaves no object. -/
theorem no_orphans (hr : Reaches h {} events w) :
    (∀ d, w.disk.Survives d → ∀ o ∈ w.native.objects, ∃ v, read h.content d = .ok v ∧
      ∃ r ∈ v.revisions, ∃ t, r.target = some t ∧ o ∈ h.owned t ∧ t ∈ targetsForView v) ∧
    w.native.conflict = false ∧
    (Step h w (.returned .cleanup .done) w' → w'.native.objects = []) := by
  obtain ⟨hw, hre⟩ := hr.sound
  refine ⟨?_, hw.coupled.quiet, ?_⟩
  · intro d hd o ho
    have hI : Inv h.content (Coupled h .any w.native) d := hw.survives (coupling h _ _) hd
    obtain ⟨v, hread, hvi⟩ := read_of_pair hI.pair
    obtain ⟨r, t, hn, hr, ht, hot⟩ := hI.coupled.objects o ho
    obtain ⟨r', hr', hid⟩ := hvi.complete r.id hn
    have heq : r' = r := (hvi.holds r' hr').unique hr hid
    rw [heq] at hr'
    refine ⟨v, hread, r, hr', t, ht, hot, ?_⟩
    have hfi : v.find r.id = some r := by
      have hsome : (v.find r.id).isSome = true := List.find?_isSome.mpr ⟨r, hr', by simp⟩
      obtain ⟨r'', hf⟩ := Option.isSome_iff_exists.mp hsome
      rw [hf, (hvi.holds r'' (List.mem_of_find?_eq_some hf)).unique hr
        (by simpa using List.find?_some hf)]
    refine mem_targetsForView hfi ht ?_
    rw [hvi.active, hvi.journal]
    exact hn
  · intro hs
    obtain ⟨kept, hk⟩ := hw.kept hre
    exact (hs.done hw hk trivial).2.2.1

theorem no_orphans_sample : 7 ∈ sampleCrashed.native.objects ∧
    ∃ v, read sampleHost.content sampleCrashed.disk = .ok v ∧ ∃ r ∈ v.revisions,
      ∃ t, r.target = some t ∧ 7 ∈ sampleHost.owned t ∧ t ∈ targetsForView v := by
  have hmem : 7 ∈ sampleCrashed.native.objects := by decide +kernel
  exact ⟨hmem, (@no_orphans _ _ _ _ _ {} reaches_sampleCrashed).1 _ (.refl _) 7 hmem⟩

end Perimeterd.App
