import Perimeterd.App.Recovering

/-!
# Runs of an engine

A run is a sequence of operations on one store and one kernel. Every operation ends with a reply,
with an error, or in a crash, after which a new engine finds some of what the disk may hold and the
kernel as it was. The engine's own locks make its operations atomic with respect to each other, so a
run interleaves whole operations; a crash may fall between any two steps of one.
-/

namespace Perimeterd.App

open Lib Firewall State

inductive Op where
  | admitEpoch
  | admitRefresh (epoch : Nat)
  | apply (c : Candidate)
  | recover
  | cleanup
  | startup
  | reconcile
  | close
  | stage (m : Manifest)
deriving DecidableEq

inductive Reply where
  | admitted (epoch : Nat)
  | refreshed (epoch sequence : Nat)
  | applied (r : Applied)
  | recovered (active : Option Revision)
  | done
deriving DecidableEq

def putManifest (m : Manifest) (d : Disk) : Disk :=
  { d with manifests := fun i => if i = m then (d.manifests i).write true else d.manifests i }

section Semantics

variable {ω : Type} [DecidableEq ω] (h : Host ω)

/-- An admission: the engine's answer, under its lock. -/
def admission (f : Engine → Except String (Engine × Nat)) : Action ω Nat := do
  let engine ← Proc.observe fun w : World ω => w.engine
  let (engine, n) ← Proc.lift (f engine)
  onEngine fun _ => engine
  pure n

/-- `Cache.Stage`: a manifest is published and synchronized. -/
def stageManifest (m : Manifest) : Action ω Unit := do
  onDisk (perform "stage manifest" (putManifest m))
  onDisk (perform "stage manifest sync" (·.syncManifest m))

def exec : Op → Action ω Reply
  | .admitEpoch => do
      let n ← admission Engine.admitEpoch
      pure (.admitted n)
  | .admitRefresh epoch => do
      let n ← admission fun e => e.admitRefresh epoch
      pure (.refreshed epoch n)
  | .apply c => do
      let r ← apply h c
      pure (.applied r)
  | .recover => do
      let x ← recover h
      pure (.recovered x)
  | .cleanup => do
      cleanup h
      pure .done
  | .startup => do
      startup h
      pure .done
  | .reconcile => do
      reconcile h
      pure .done
  | .close => do
      onEngine fun e => { e with closing := true, healthy := false }
      pure .done
  | .stage m => do
      stageManifest m
      pure .done

inductive Event where
  | returned (op : Op) (reply : Reply)
  | failed (op : Op) (error : String)
  | crashed (op : Op)
  | restarted
deriving DecidableEq

/-- A new process: a new engine on what the disk holds and the kernel as it is. -/
def World.restart (w : World ω) (d : Disk) : World ω := { disk := d, native := w.native }

inductive Step : World ω → Event → World ω → Prop
  | returned {w w' : World ω} {op : Op} {reply : Reply} {answers rest : List (Fate (Move ω))} :
      exec h op w answers = (w', .done reply rest) → Step w (.returned op reply) w'
  | failed {w w' : World ω} {op : Op} {error : String} {answers rest : List (Fate (Move ω))} :
      exec h op w answers = (w', .failed error rest) → Step w (.failed op error) w'
  | crashed {w w' : World ω} {op : Op} {answers : List (Fate (Move ω))} {d : Disk} :
      exec h op w answers = (w', .cut) → w'.disk.Survives d → Step w (.crashed op) (w'.restart d)
  | restarted {w : World ω} {d : Disk} : w.disk.Survives d → Step w .restarted (w.restart d)

/-- Runs, with their events, the latest first. -/
inductive Reaches : World ω → List Event → World ω → Prop
  | refl (w : World ω) : Reaches w [] w
  | step {w w' w'' : World ω} {events : List Event} {event : Event} :
      Reaches w events w' → Step h w' event w'' → Reaches w (event :: events) w''

/-- An operation on given answers. Where they run out the machine stops, and the next process finds
all that was written. -/
def play (op : Op) (answers : List (Fate (Move ω))) (w : World ω) : Event × World ω :=
  match exec h op w answers with
  | (w', .done reply _) => (.returned op reply, w')
  | (w', .failed error _) => (.failed op error, w')
  | (w', .cut) => (.crashed op, w'.restart w'.disk)

theorem step_play {op : Op} {ans : List (Fate (Move ω))} {w : World ω} {event : Event}
    (he : (play h op ans w).1 = event) : Step h w event (play h op ans w).2 := by
  subst he
  rw [play]
  rcases hr : exec h op w ans with ⟨w', ⟨a, l⟩ | ⟨e, l⟩ | _⟩
  · exact .returned hr
  · exact .failed hr
  · exact .crashed hr (Disk.Survives.refl _)

def plays : List (Op × List (Fate (Move ω))) → List Event → World ω → List Event × World ω
  | [], events, w => (events, w)
  | (op, answers) :: rest, events, w =>
      plays rest ((play h op answers w).1 :: events) (play h op answers w).2

theorem Reaches.plays {w₀ w : World ω} {events : List Event} (hr : Reaches h w₀ events w)
    (script : List (Op × List (Fate (Move ω)))) :
    Reaches h w₀ (plays h script events w).1 (plays h script events w).2 := by
  induction script generalizing events w with
  | nil => exact hr
  | cons first rest ih => exact ih (hr.step (step_play h rfl))

end Semantics

variable {ω : Type} {h : Host ω} {S : Allowance} {w w' : World ω}

theorem Sound.idle (hw : Sound h S w) (hj : w.disk.journal.seen = none) :
    ∃ kept, Idle h.content kept w.disk := by
  have hc : w.disk.active.Only w.disk.active.seen := fun a ha =>
    hw.certain (hj ▸ w.disk.journal.seen_mem) a ha _ w.disk.active.seen_mem
  cases ha : w.disk.active.seen with
  | none =>
    rw [ha] at hc
    exact ⟨none, hj, hc, by simp⟩
  | some id =>
    obtain ⟨r, rfl, hr⟩ := hw.pair.active id ha
    rw [ha] at hc
    refine ⟨some r, hj, hc, ?_⟩
    rintro _ ⟨⟩
    exact hr

theorem keeps_admission {P : World ω → Prop} {f : Engine → Except String (Engine × Nat)}
    {Q : Nat → World ω → Prop} (hf : ∀ w e n, P w → f w.engine = .ok (e, n) →
      Q n { w with engine := e }) :
    Keeps (Sound h S) P (admission f) Q (fun _ => P) := by
  refine .bind (R := fun engine w => P w ∧ engine = w.engine)
    (.observe fun _ _ hP => ⟨hP, rfl⟩) fun engine => ?_
  refine .bind (R := fun p w => P w ∧ f w.engine = .ok p) ?_ fun p => ?_
  · refine .lift ?_ fun _ _ _ _ hP => hP.1
    rintro p hp w _ ⟨hP, rfl⟩
    exact ⟨hP, hp⟩
  · obtain ⟨e, n⟩ := p
    refine .bind (R := fun _ => Q n) ?_ fun _ => .pure fun _ _ h => h
    exact .change fun w hI hP => ⟨hI, hf w e n hP.1 hP.2⟩

theorem keeps_stageManifest {D : Disk → Prop} {N : Native ω → Prop} {G : Engine → Prop}
    (m : Manifest) (hst : Steady D) (hp : ∀ d d' : Disk, d'.active = d.active →
      d'.journal = d.journal → (∀ r, Holds h.content d r → Holds h.content d' r) → D d → D d') :
    Keeps (Sound h S) (Mid D N G) (stageManifest m) (fun _ => Mid D N G) (fun _ => Mid D N G) := by
  refine .bind (R := fun _ => Mid D N G) (keeps_store fun n _ => ?_)
    fun _ => keeps_store fun n _ => ?_
  · refine keeps_perform (fun d hI hd => ?_) fun _ _ hd => hd
    have hk : ∀ r, Holds h.content d r → Holds h.content (putManifest m d) r := by
      intro r hr
      refine ⟨hr.file, hr.version, hr.content, fun i hi => ?_⟩
      by_cases him : i = m
      · simp only [putManifest, if_pos him]
        exact (hr.manifest i hi).write
      · simp only [putManifest, if_neg him]
        exact hr.manifest i hi
    have ha : (putManifest m d).active = d.active := rfl
    have hj : (putManifest m d).journal = d.journal := rfl
    exact ⟨hI.of_kept (coupling h S n) ha hj hk, hp d _ ha hj hk hd⟩
  · refine keeps_perform (fun d hI hd => ?_) fun _ _ hd => hd
    have hs := shrinks_syncManifest d m
    exact ⟨hI.survives (coupling h S n) hs.toSurvives, hst _ _ hs hd⟩

theorem Sound.kept (hw : Sound h S w) (hre : Ready w) :
    ∃ kept, w.engine.healthy = true → Idle h.content kept w.disk := by
  by_cases hh : w.engine.healthy = true
  · obtain ⟨kept, hk⟩ := hw.idle (hre hh)
    exact ⟨kept, fun _ => hk⟩
  · exact ⟨none, fun h => absurd h hh⟩

theorem sound_empty (hS : S.revision none) : Sound h S ({} : World ω) := by
  have hmem : ∀ a ∈ (({} : World ω).disk.active).all, a = none := by
    intro a ha
    simpa [Cell.all] using ha
  have hme : ∀ j ∈ (({} : World ω).disk.journal).all, j = none := by
    intro j hj
    simpa [Cell.all] using hj
  refine ⟨fun _ a ha a' ha' => (hmem a ha).trans (hmem a' ha').symm, ?_⟩
  intro a ha j hj
  rw [hmem a ha, hme j hj]
  exact ⟨⟨by simp, by simp, by simp, by simp⟩, rfl, by simp, ⟨none, by simp [Stands], rfl, rfl⟩,
    ⟨none, hS, rfl, by simp⟩, by simp⟩

variable [DecidableEq ω]

/-! ## One operation -/

/-- What an operation may make the active revision. -/
def Op.Allowed (S : Allowance) (e : Engine) : Op → Prop
  | .apply c => e.isHealthy = true → e.current c = true →
      ∀ id t, S.revision (some (c.revision id t))
  | .cleanup => S.cleanup
  | _ => True

theorem admitEpoch_eq_ok {e e' : Engine} {n : Nat} (had : e.admitEpoch = .ok (e', n)) :
    e.isHealthy = true ∧ n = e.admitted + 1 ∧ e' = { e with admitted := n } := by
  rw [Engine.admitEpoch, ite_throw_eq_ok, ite_throw_eq_ok, ite_throw_eq_ok] at had
  obtain ⟨-, hd, -, heq⟩ := had
  cases heq
  exact ⟨by simpa [Engine.degraded] using hd, rfl, rfl⟩

theorem admitRefresh_eq_ok {e e' : Engine} {ep n : Nat} (had : e.admitRefresh ep = .ok (e', n)) :
    e.isHealthy = true ∧ ep ≠ 0 ∧ ep = e.activeEpoch ∧ n = e.refreshSequence + 1 ∧
      e' = { e with refreshSequence := n } := by
  rw [Engine.admitRefresh, bind_eq_ok] at had
  obtain ⟨⟨⟩, hst, had⟩ := had
  rw [Engine.startError, ite_throw_eq_ok, ite_throw_eq_ok] at hst
  rw [ite_throw_eq_ok, ite_throw_eq_ok, not_or, not_not] at had
  obtain ⟨⟨hz, hep⟩, -, heq⟩ := had
  cases heq
  exact ⟨by simpa [Engine.degraded] using hst.2.1, hz, hep, rfl, rfl⟩

/-- The world rests as it did: the same counters, and under a healthy engine the same revision. -/
structure Idles (h : Host ω) (kept : Option Revision) (w₀ w : World ω) : Prop where
  like : w₀.engine.Like w.engine
  healthy : w.engine.healthy = true → Idle h.content kept w.disk

/-- What an operation that returns has made of `w₀`, whose healthy engine had `kept` active. -/
def Done (h : Host ω) (kept : Option Revision) (w₀ : World ω) : Op → Reply → World ω → Prop
  | .admitEpoch, reply, w => ∃ e n, w₀.engine.admitEpoch = .ok (e, n) ∧ reply = .admitted n ∧
      w = { w₀ with engine := e }
  | .admitRefresh epoch, reply, w => ∃ e n, w₀.engine.admitRefresh epoch = .ok (e, n) ∧
      reply = .refreshed epoch n ∧ w = { w₀ with engine := e }
  | .apply c, reply, w => ∃ r, reply = .applied r ∧
      Applies h kept c w₀.engine (r.1.adopted w₀.engine).Like r w
  | .recover, reply, w => ∃ x, reply = .recovered x ∧ Recovered h w₀.engine true x w
  | .cleanup, _, w => Emptied h w₀.engine w
  | .startup, reply, w => reply = .done ∧ ∃ x, Recovered h w₀.engine true x w
  | .reconcile, reply, w => reply = .done ∧ Idles h kept w₀ w
  | .close, reply, w => reply = .done ∧ Idles h kept w₀ w
  | .stage _, reply, w => reply = .done ∧ Idles h kept w₀ w

/-- What an operation that fails has made of it. -/
def Fails (h : Host ω) (kept : Option Revision) (w₀ : World ω) : Op → World ω → Prop
  | .admitEpoch, w | .admitRefresh _, w | .reconcile, w | .stage _, w => Idles h kept w₀ w
  | .apply _, _ | .close, _ => False
  | .recover, w => Unrecovered h w₀.engine w
  | .cleanup, w => Ready w ∧ w₀.engine.Like w.engine
  | .startup, w => Unrecovered h w₀.engine w ∨ ∃ x, Recovered h w₀.engine true x w

theorem Recovered.ready {e₀ : Engine} {x : Option Revision} (hw : Recovered h e₀ true x w) :
    Ready w := fun _ => hw.1.journal.seen

omit [DecidableEq ω] in
theorem Unrecovered.ready {e₀ : Engine} (hun : Unrecovered h e₀ w) : Ready w := by
  intro hh
  rw [hun.1] at hh
  cases hh

section Operations

variable {kept : Option Revision} {w₀ : World ω} {op : Op} {reply : Reply}

theorem Done.ready (hw : Done h kept w₀ op reply w) (hre : Ready w₀) : Ready w := by
  cases op with
  | admitEpoch =>
    obtain ⟨e, n, had, -, rfl⟩ := hw
    obtain ⟨-, -, rfl⟩ := admitEpoch_eq_ok had
    exact hre
  | admitRefresh epoch =>
    obtain ⟨e, n, had, -, rfl⟩ := hw
    obtain ⟨-, -, -, -, rfl⟩ := admitRefresh_eq_ok had
    exact hre
  | apply c =>
    obtain ⟨r, -, hap⟩ := hw
    exact fun hh => (hap.ready hh).journal
  | recover =>
    obtain ⟨x, -, hx⟩ := hw
    exact hx.ready
  | cleanup => exact fun _ => hw.1.journal
  | startup =>
    obtain ⟨-, x, hx⟩ := hw
    exact hx.ready
  | reconcile | close | stage m => exact fun hh => (hw.2.healthy hh).journal

theorem Fails.ready (hw : Fails h kept w₀ op w) : Ready w := by
  cases op with
  | admitEpoch | admitRefresh epoch | reconcile | stage m => exact fun hh => (hw.healthy hh).journal
  | apply c | close => exact hw.elim
  | recover => exact Unrecovered.ready hw
  | cleanup => exact hw.1
  | startup =>
    rcases hw with hun | ⟨x, hx⟩
    · exact hun.ready
    · exact hx.ready

/-- **What each operation does.** -/
theorem keeps_op (hk : w₀.engine.healthy = true → Idle h.content kept w₀.disk)
    (hal : op.Allowed S w₀.engine) :
    Keeps (Sound h S) (· = w₀) (exec h op) (Done h kept w₀ op) (fun _ => Fails h kept w₀ op) := by
  have hl : ∀ w : World ω, Sound h S w → w = w₀ → w₀.engine.Like w.engine := by
    rintro w _ rfl
    exact Engine.Like.refl _
  have had : ∀ f, Keeps (Sound h S) (· = w₀) (admission f)
      (fun n w => ∃ e, f w₀.engine = .ok (e, n) ∧ w = { w₀ with engine := e })
      (fun _ => Idles h kept w₀) := by
    refine fun f => (keeps_admission ?_).fails ?_
    · rintro w e n rfl had
      exact ⟨e, had, rfl⟩
    · rintro _ w _ rfl
      exact ⟨Engine.Like.refl _, hk⟩
  cases op with
  | admitEpoch => exact .bind (had _) fun n => Keeps.pure fun w _ ⟨e, hn, hw⟩ => ⟨e, n, hn, rfl, hw⟩
  | admitRefresh ep =>
    exact .bind (had _) fun n => Keeps.pure fun w _ ⟨e, hn, hw⟩ => ⟨e, n, hn, rfl, hw⟩
  | apply c =>
    refine .bind ((keeps_applyEngine kept w₀.engine hal).pre ?_)
      fun r => Keeps.pure fun _ _ hP => ⟨r, rfl, hP⟩
    rintro w _ rfl
    exact ⟨hk, rfl⟩
  | recover =>
    exact .bind ((keeps_recover w₀.engine).pre hl) fun x => Keeps.pure fun _ _ hP => ⟨x, rfl, hP⟩
  | cleanup =>
    refine .bind ((keeps_cleanupEngine w₀.engine hal).pre fun w hI hw => ⟨?_, hl w hI hw⟩)
      fun _ => .done
    subst hw
    exact fun hh => (hk hh).journal
  | startup =>
    exact .bind ((keeps_startup w₀.engine).pre hl) fun _ => Keeps.pure fun _ _ hP => ⟨rfl, hP⟩
  | reconcile =>
    have hba : ∀ w : World ω, w.disk = w₀.disk ∧ w₀.engine.Like w.engine ∧
        w.engine.healthy = w₀.engine.healthy → Idles h kept w₀ w := by
      rintro w ⟨hd, hl, hhe⟩
      exact ⟨hl, fun hh => hd ▸ hk (hhe ▸ hh)⟩
    refine .bind ((keeps_reconcile (P := fun w => w.disk = w₀.disk ∧ w₀.engine.Like w.engine ∧
      w.engine.healthy = w₀.engine.healthy) kept (fun w hP hh => ?_) (fun _ _ hP => hP)
      fun _ _ hP _ _ => hP).conseq ?_ (fun _ _ _ hP => hP) fun _ w _ hP => hba w hP)
      fun _ => Keeps.pure fun w _ hP => ⟨rfl, hba w hP⟩
    · have hi := (hba w hP).healthy hh
      exact ⟨hi.active, hi.prev⟩
    · rintro w _ rfl
      exact ⟨rfl, Engine.Like.refl _, rfl⟩
  | close =>
    refine .bind (R := fun _ => Idles h kept w₀) (.change fun w hI hw => ⟨hI, ?_⟩)
      fun _ => Keeps.pure fun _ _ hP => ⟨rfl, hP⟩
    subst hw
    exact ⟨⟨rfl, rfl, rfl⟩, nofun⟩
  | stage m =>
    have hba : ∀ w : World ω, Mid (fun d => w₀.engine.healthy = true → Idle h.content kept d)
        (fun _ => True) (· = w₀.engine) w → Idles h kept w₀ w := by
      rintro w ⟨hd, -, he⟩
      exact ⟨he ▸ Engine.Like.refl _, fun hh => hd (he ▸ hh)⟩
    refine .bind ((keeps_stageManifest (N := fun _ => True) (G := (· = w₀.engine))
      (D := fun d => w₀.engine.healthy = true → Idle h.content kept d) m
      (fun d d' hs hd hh => idle_steady kept _ _ hs (hd hh))
      fun d d' ha hj hm hd hh => ?_).conseq ?_ (fun _ _ _ hP => hP) fun _ w _ hP => hba w hP)
      fun _ => Keeps.pure fun w _ hP => ⟨rfl, hba w hP⟩
    · have hi := hd hh
      exact ⟨hj ▸ hi.journal, ha ▸ hi.active, fun p hp => hm p (hi.prev p hp)⟩
    · rintro w _ rfl
      exact ⟨hk, trivial, rfl⟩

theorem Step.done (hs : Step h w (.returned op reply) w') (hw : Sound h S w)
    (hk : w.engine.healthy = true → Idle h.content kept w.disk) (hal : op.Allowed S w.engine) :
    Sound h S w' ∧ Done h kept w op reply w' := by
  cases hs with
  | @returned _ _ _ answers rest hru =>
    have := keeps_op hk hal w answers hw rfl
    rw [hru] at this
    exact this

theorem Step.fails {error : String} (hs : Step h w (.failed op error) w') (hw : Sound h S w)
    (hk : w.engine.healthy = true → Idle h.content kept w.disk) (hal : op.Allowed S w.engine) :
    Sound h S w' ∧ Fails h kept w op w' := by
  cases hs with
  | @failed _ _ _ answers rest hru =>
    have := keeps_op hk hal w answers hw rfl
    rw [hru] at this
    exact this

theorem Step.cut (hs : Step h w (.crashed op) w') (hw : Sound h S w)
    (hk : w.engine.healthy = true → Idle h.content kept w.disk) (hal : op.Allowed S w.engine) :
    ∃ w₁ d, Sound h S w₁ ∧ w₁.disk.Survives d ∧ w' = w₁.restart d := by
  cases hs with
  | @crashed w₁ _ answers d hru hd =>
    have := keeps_op hk hal w answers hw rfl
    rw [hru] at this
    exact ⟨w₁, d, this, hd, rfl⟩

/-- **Every operation** keeps the world sound and leaves a healthy engine without a journal. -/
theorem keeps_exec (op : Op) :
    Keeps (Sound h S) (fun w => Ready w ∧ op.Allowed S w.engine) (exec h op) (fun _ => Ready)
      (fun _ => Ready) := by
  refine .of_state fun w₀ hI hw₀ => ?_
  obtain ⟨kept, hk⟩ := hI.kept hw₀.1
  exact (keeps_op hk hw₀.2).post (fun _ _ _ hd => hd.ready hw₀.1) fun _ _ _ hf => hf.ready

end Operations

/-! ## Runs -/

def Event.op : Event → Option Op
  | .returned op _ => some op
  | .failed op _ => some op
  | .crashed op => some op
  | .restarted => none

/-- **One step** of a run. -/
theorem Step.rest {ev : Event} (hs : Step h w ev w') (hw : Sound h S w) (hre : Ready w)
    (hal : ∀ op, ev.op = some op → op.Allowed S w.engine) : Sound h S w' ∧ Ready w' := by
  obtain ⟨kept, hk⟩ := hw.kept hre
  cases ev with
  | returned op reply =>
    obtain ⟨hs', hd⟩ := hs.done hw hk (hal op rfl)
    exact ⟨hs', hd.ready hre⟩
  | failed op error =>
    obtain ⟨hs', hf⟩ := hs.fails hw hk (hal op rfl)
    exact ⟨hs', hf.ready⟩
  | crashed op =>
    obtain ⟨w₁, d, hs', hd, rfl⟩ := hs.cut hw hk (hal op rfl)
    exact ⟨Inv.survives (coupling h S _) hs' hd, nofun⟩
  | restarted =>
    cases hs with
    | restarted hd => exact ⟨Inv.survives (coupling h S _) hw hd, nofun⟩

/-- **Every reachable world is sound.** -/
theorem Reaches.sound {evs : List Event} (hr : Reaches h {} evs w) : Sound h .any w ∧ Ready w := by
  induction hr with
  | refl => exact ⟨sound_empty trivial, fun hh => by cases hh⟩
  | step _ hs ih =>
    refine hs.rest ih.1 ih.2 fun op _ => ?_
    cases op <;> simp [Op.Allowed, Allowance.any]

end Perimeterd.App
