import Perimeterd.App.Service

/-!
# Epochs of a running service

What the loop knows of the engine's epochs between two calls. Work in the background takes the
engine's lock, but admits nothing and makes nothing active. A recovery makes nothing active that was
not active before, so the epochs it may find are bounded by those that have been admitted; only the
apply of a newer candidate raises the bound.
-/

namespace Perimeterd.App

open Lib Firewall State
open Lib.Proc (Within)

variable {ω : Type}

/-! ## Work in the background -/

/-- The engine's counters are as they were. -/
def Alike (w w' : World ω) : Prop := w.engine.Like w'.engine

instance : IsPreorder (World ω) Alike where
  refl w := Engine.Like.refl w.engine
  trans _ _ _ h h' := ⟨h'.1.trans h.1, h'.2.1.trans h.2.1, h'.2.2.trans h.2.2⟩

theorem alike_check (name : String) : Within (Alike (ω := ω)) (check name) := by
  refine .step fun i s => ?_
  split <;> exact refl_of Alike s

theorem alike_onDisk {α : Type} (p : Proc (Fate (Move ω)) Disk String α) :
    Within (Alike (ω := ω)) (onDisk p) :=
  .zoom fun s _ => refl_of Alike s

theorem alike_failedWrite {α : Type} (error : String) :
    Within (Alike (ω := ω)) (failedWrite (α := α) error) :=
  .bind (.change fun s => refl_of Alike s) fun _ => .throw _

section Background

variable [DecidableEq ω] {h : Host ω} {S : Allowance} {w w' : World ω}
  {before : List (Background × List (Fate (Move ω)))} {x : Option Revision} {n m : Nat}

theorem alike_updateDynamic (tgt : Target) : Within Alike (h.updateDynamic tgt) := by
  refine .loop (fun fate _ => ?_) ()
  split
  · exact .bind (.change fun s => refl_of Alike s) fun _ => .pure _
  · exact .throw _
  · exact .bind (.change fun s => refl_of Alike s) fun _ => .pure _
  · exact .bind (.throw _) fun _ => .pure _
  · exact .throw _

theorem alike_reconcile : Within Alike (reconcile h) := by
  refine .bind (alike_check _) fun _ => ?_
  refine .handle (alike_onDisk _) (fun e => alike_failedWrite e) fun view => ?_
  refine .bind (.observe _) fun healthy => ?_
  split
  · exact alike_failedWrite _
  split
  · exact alike_failedWrite _
  split
  · exact alike_failedWrite _
  refine .handle (alike_check _) (fun e => alike_failedWrite e) fun _ => ?_
  refine .bind (alike_check _) fun _ => ?_
  exact .handle (alike_updateDynamic _) (fun e => alike_failedWrite e)
    fun _ => .change fun s => refl_of Alike s

theorem alike_background_op (b : Background) : Within Alike (exec h b.op) := by
  cases b with
  | reconcile => exact .bind alike_reconcile fun _ => .pure _
  | stage m => exact .bind (.bind (alike_onDisk _) fun _ => alike_onDisk _) fun _ => .pure _

/-- **The rule**: what every piece of background work keeps, all of it keeps. -/
theorem background_keeps {P : World ω → Prop}
    (hop : ∀ b : Background, Keeps (fun _ => True) P (exec h b.op) (fun _ => P) (fun _ => P))
    (hb : background h before w = some w') (hw : P w) : P w' := by
  induction before generalizing w with
  | nil =>
    cases hb
    exact hw
  | cons x rest ih =>
    have hx := hop x.1 w x.2 trivial hw
    rw [background] at hb
    rcases hr : exec h x.1.op w x.2 with ⟨w₁, ⟨r, more⟩ | ⟨e, more⟩ | _⟩
    · rw [hr] at hb hx
      exact ih hb hx.2
    · rw [hr] at hb hx
      exact ih hb hx.2
    · rw [hr] at hb
      cases hb

theorem alike_background (hb : background h before w = some w') : Alike w w' := by
  refine background_keeps (fun b => ?_) hb (refl_of Alike w)
  exact .of_within (alike_background_op b) (fun _ _ _ h => h) fun _ _ hR hP => trans_of Alike hP hR

theorem sound_background (hb : background h before w = some w') (hw : Sound h S w) (hre : Ready w) :
    Sound h S w' ∧ Ready w' := by
  refine background_keeps (P := fun w => Sound h S w ∧ Ready w) (fun b => ?_) hb ⟨hw, hre⟩
  refine (keeps_exec (S := S) b.op).forget.pre fun v _ hv => ⟨hv.1, hv.2, ?_⟩
  cases b <;> trivial

theorem finished_background (hb : background h before w = some w')
    (hw : Sound h S w) (hx : Finished h.content x w.disk) : Finished h.content x w'.disk := by
  have hop : ∀ b : Background, Keeps (Sound h S) (fun w => Finished h.content x w.disk)
      (exec h b.op) (fun _ w => Finished h.content x w.disk)
      (fun _ w => Finished h.content x w.disk) := by
    intro b
    cases b with
    | reconcile =>
      refine .bind (keeps_reconcile (P := fun w => Finished h.content x w.disk) x
        (fun w hP _ => hP.toRooted) (fun _ _ hP => hP) fun _ _ hP _ _ => hP) fun _ => ?_
      exact .done
    | stage m =>
      refine .bind (R := fun _ w => Finished h.content x w.disk)
        ((keeps_stageManifest (N := fun _ => True) (G := fun _ => True) m (finished_steady x)
          ?_).conseq (fun _ _ hP => ⟨hP, trivial, trivial⟩) (fun _ _ _ hP => hP.1)
          fun _ _ _ hP => hP.1) fun _ => .done
      intro d d' ha hj hk hd
      exact ⟨⟨ha ▸ hd.active, fun p hp => hk p (hd.stored p hp)⟩, hj ▸ hd.journal⟩
  exact (background_keeps (P := fun w => Sound h S w ∧ Finished h.content x w.disk)
    (fun b => (hop b).forget) hb ⟨hw, hx⟩).2

/-! ## Bounded epochs -/

/-- Revisions of an epoch up to this one. -/
def Allowance.upTo (n : Nat) : Allowance where
  revision x := epochOf x ≤ n
  cleanup := True
  empty _ := Nat.zero_le n

/-- Whatever may be active is of an epoch up to `n`, and `m` epochs have been admitted. -/
structure Upto (h : Host ω) (n m : Nat) (w : World ω) : Prop where
  sound : Sound h (.upTo n) w
  ready : Ready w
  active : w.engine.activeEpoch ≤ n
  admitted : w.engine.admitted = m
  le : n ≤ m

namespace Upto

variable {n n' m : Nat}

omit [DecidableEq ω] in
theorem mono (hw : Upto h n m w) (hle : n ≤ n') (hm : n' ≤ m) : Upto h n' m w :=
  ⟨hw.sound.confine id fun _ hx _ _ => hx.trans hle, hw.ready, hw.active.trans hle, hw.admitted, hm⟩

omit [DecidableEq ω] in
theorem alike (hw : Upto h n m w) (hs : Sound h (.upTo n) w') (hre : Ready w')
    (hl : w.engine.Like w'.engine) : Upto h n m w' :=
  ⟨hs, hre, hl.2.1 ▸ hw.active, hl.1.trans hw.admitted, hw.le⟩

omit [DecidableEq ω] in
theorem adopt (hw : Upto h n m w) {x : Option Revision} (hs : Sound h (.upTo n) w')
    (hre : Ready w') (hro : Rooted h.content x w'.disk)
    (hl : (w.engine.adoptActiveEpoch x).Like w'.engine) : Upto h n m w' := by
  have hx : epochOf x ≤ n := hs.allowed hro
  obtain ⟨had, hep, -⟩ := hl
  cases x with
  | none => exact ⟨hs, hre, hep ▸ Nat.zero_le n, had.trans hw.admitted, hw.le⟩
  | some r =>
    refine ⟨hs, hre, hep ▸ hx, had.trans ?_, hw.le⟩
    have hle : ¬ r.epoch > m := Nat.not_lt.mpr (le_trans hx hw.le)
    simp only [Engine.adoptActiveEpoch, hw.admitted, if_neg hle]

theorem background (hw : Upto h n m w) {before : List (Background × List (Fate (Move ω)))}
    (hb : App.background h before w = some w') : Upto h n m w' := by
  obtain ⟨hs, hre⟩ := sound_background hb hw.sound hw.ready
  exact hw.alike hs hre (alike_background hb)

end Upto

theorem keeps_recover_upto :
    Keeps (fun _ => True) (Upto h n m) (recover h) (fun _ => Upto h n m) (fun _ => Upto h n m) := by
  refine .of_state fun w₀ _ hw₀ => ?_
  refine (keeps_recover (S := .upTo n) w₀.engine).forget.conseq ?_ ?_ ?_
  · rintro w _ rfl
    exact ⟨hw₀.sound, Engine.Like.refl _⟩
  · rintro x w _ ⟨hs, hre⟩
    exact hw₀.adopt hs (fun _ => hre.1.journal.seen) hre.1.toRooted hre.2.2.1
  · rintro _ w _ ⟨hs, hun⟩
    rcases hun.2 with hl | ⟨x, hf, hl⟩
    · exact hw₀.alike hs hun.ready hl
    · exact hw₀.adopt hs hun.ready hf.toRooted hl

theorem Recovered.upto {e₀ : Engine} (hs : Sound h S w)
    (hre : Recovered h e₀ true x w) : Upto h w.engine.admitted w.engine.admitted w := by
  obtain ⟨had, hep, -⟩ := hre.2.2.1
  have hx : epochOf x ≤ w.engine.admitted ∧ w.engine.activeEpoch = epochOf x := by
    cases x with
    | none => exact ⟨Nat.zero_le _, hep⟩
    | some r =>
      refine ⟨?_, hep⟩
      rw [had]
      simp only [Engine.adoptActiveEpoch, epochOf]
      split <;> omega
  exact ⟨hs.confine_rooted (fun _ => trivial) hre.1.toRooted hx.1, fun _ => hre.1.journal.seen,
    hx.2.trans_le hx.1, rfl, Nat.le_refl _⟩

/-- What an apply leaves of a world with bounded epochs. -/
structure Bounds (h : Host ω) (c : Candidate) (n m : Nat) (r : Applied) (w : World ω) : Prop where
  upto : Upto h n m w
  committed : r.1.committed = true → ∃ id t, r.1.active = some (c.revision id t) ∧
    Rooted h.content (some (c.revision id t)) w.disk

theorem keeps_apply_upto {c : Candidate}
    (hc : ∀ w : World ω, Upto h n m w → w.engine.current c = true → c.epoch ≤ n) :
    Keeps (fun _ => True) (Upto h n m) (apply h c) (Bounds h c n m) (fun _ _ => False) := by
  refine .of_state fun w₀ _ hw₀ => ?_
  obtain ⟨kept, hk⟩ := hw₀.sound.kept hw₀.ready
  refine (keeps_applyEngine (S := .upTo n) kept w₀.engine
    (fun _ hcu id t => hc w₀ hw₀ hcu)).forget.conseq ?_ ?_ fun _ _ _ hE => hE.2
  · rintro w _ rfl
    exact ⟨hw₀.sound, hk, rfl⟩
  · rintro r w _ ⟨hs, hap⟩
    have hre : Ready w := fun hh => (hap.ready hh).journal
    refine ⟨?_, hap.committed⟩
    have hen := hap.engine
    rw [Outcome.adopted] at hen
    split at hen
    · rename_i hco
      obtain ⟨id, t, hac, hro⟩ := hap.committed hco
      rw [hac] at hen
      exact hw₀.adopt hs hre hro hen
    · exact hw₀.alike hs hre hen

omit [DecidableEq ω] in
theorem keeps_collect_upto :
    Keeps (fun _ => True) (fun w => Upto h n m w ∧ Finished h.content x w.disk)
      (onDisk (collectRevisions h.content)) (fun _ => Upto h n m) (fun _ => Upto h n m) := by
  refine .of_state fun w₀ _ hw₀ => ?_
  have hc : Keeps (Sound h (.upTo n))
      (Mid (Finished h.content x) (fun _ => True) fun e => e = w₀.engine)
      (onDisk (collectRevisions h.content) : Action ω Unit)
      (fun _ => Mid (Finished h.content x) (fun _ => True) fun e => e = w₀.engine)
      (fun _ => Mid (Finished h.content x) (fun _ => True) fun e => e = w₀.engine) :=
    keeps_store fun n' _ => keeps_collectRevisions (coupling h _ n') x
  have hba : ∀ w : World ω, Sound h (.upTo n) w ∧
      Mid (Finished h.content x) (fun _ => True) (fun e => e = w₀.engine) w → Upto h n m w := by
    rintro w ⟨hs, hf, -, hen⟩
    exact hw₀.1.alike hs (fun _ => hf.journal.seen) (hen ▸ Engine.Like.refl _)
  refine hc.forget.conseq ?_ (fun _ w _ hw => hba w hw) fun _ w _ hw => hba w hw
  rintro w _ rfl
  exact ⟨hw₀.1.sound, hw₀.2, trivial, rfl⟩

end Background

end Perimeterd.App
