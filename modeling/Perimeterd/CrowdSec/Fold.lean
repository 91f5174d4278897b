import Perimeterd.CrowdSec.Store

/-!
# The store as a fold of its stream

What `Apply` and `Expire` leave in the store, said without the store: `Retained` reads the history of
the calls that took effect. A decision is there when some accepted batch introduced it, alive, and no
later call took it away, by starting over, by naming its ID, or by finding its deadline passed.

`batchChanges` decides on the old contents whether the revision will move, before anything is
written. That it agrees with the update rests on one bound: every retained sequence is at most the
last admitted one, so a decision that is introduced again is never the decision that was there.
-/

namespace Perimeterd.CrowdSec

open Lib Policy List

/-! ## Batches as they arrive -/

/-- A `Decision` before its prefix has been looked at. -/
structure RawDecision where
  id : Int
  pfx : NetipPrefix
  deadline : Time

structure RawBatch where
  startup : Bool
  new : List RawDecision
  deleted : List Int

/-- The decisions of a batch whose prefixes are valid, up to the first that is not. `validateBatch`
meets the decisions in order, so what it says of those before comes first. -/
def RawBatch.decisions : List RawDecision → List Decision × Bool
  | [] => ([], true)
  | d :: rest =>
      match d.pfx with
      | .valid p =>
          let (ds, whole) := RawBatch.decisions rest
          (⟨d.id, p, d.deadline⟩ :: ds, whole)
      | _ => ([], false)

/-- The ID of the decision after those. -/
def RawBatch.nextID (new : List RawDecision) : Int :=
  ((new.drop (RawBatch.decisions new).1.length).head?.map (·.id)).getD 0

/-- `validateBatch` on a batch as it arrives. -/
def RawBatch.validate (raw : RawBatch) : Except String Batch :=
  let (ds, whole) := RawBatch.decisions raw.new
  let batch : Batch := ⟨raw.startup, ds, raw.deleted⟩
  match validateBatch batch with
  | .error e => .error e
  | .ok () =>
      if whole then .ok batch
      else if RawBatch.nextID raw.new ≤ 0 then
        .error ("crowdsec store: invalid decision ID " ++ toString (RawBatch.nextID raw.new))
      else
        .error ("crowdsec store: new decision " ++ toString ds.length ++ " has invalid prefix")

theorem RawBatch.validate_ok {raw : RawBatch} {batch : Batch} (h : raw.validate = .ok batch) :
    validateBatch batch = .ok () := by
  rw [RawBatch.validate] at h
  dsimp only at h
  split at h
  · cases h
  · next hb =>
    split at h
    · cases h
      exact hb
    · split at h <;> cases h

namespace Store

/-- `Store.Apply` on a batch as it arrives; the sequence is looked at first. -/
def applyRaw (s : Store) (raw : RawBatch) (sequence : Nat) (now : Time) : Except String Store :=
  if sequence = 0 then .error "crowdsec store: batch sequence must be positive"
  else if s.lastSequence.any (sequence ≤ ·) then
    .error ("crowdsec store: stale batch sequence " ++ toString sequence ++ " (last " ++
      toString (s.lastSequence.getD 0) ++ ")")
  else
    match raw.validate with
    | .error e => .error e
    | .ok batch => s.applyBatch batch sequence now

end Store

/-! ## Calls and what they amount to -/

inductive Call where
  | apply (batch : RawBatch) (sequence : Nat) (now : Time)
  | expire (now : Time)

/-- A call that took effect. -/
inductive Effect where
  | applied (batch : Batch) (sequence : Nat) (now : Time)
  | expired (now : Time)

namespace Store

def call (s : Store) : Call → Store
  | .apply raw sequence now =>
      match s.applyRaw raw sequence now with
      | .error _ => s
      | .ok s' => s'
  | .expire now => s.expire now

/-- An accepted batch takes effect, and an expiry does unless the revision is exhausted. -/
def effect (s : Store) : Call → Option Effect
  | .apply raw sequence now =>
      match s.applyRaw raw sequence now, raw.validate with
      | .ok _, .ok batch => some (.applied batch sequence now)
      | _, _ => none
  | .expire now => if s.revision = 2 ^ 64 - 1 then none else some (.expired now)

def run (s : Store) (calls : List Call) : Store := calls.foldl call s

/-- The effects of a run after those in `before`, the latest first. -/
def effects (s : Store) (before : List Effect) : List Call → List Effect
  | [] => before
  | c :: rest => effects (s.call c) ((s.effect c).toList ++ before) rest

end Store

/-! ## What the history retains -/

/-- The batch introduces the decision, which is alive at that time. -/
def Effect.Introduces (r : RetainedDecision) : Effect → Prop
  | .applied batch sequence now =>
      r.decision ∈ batch.new ∧ r.sequence = sequence ∧ r.decision.live now = true
  | .expired _ => False

/-- The call leaves the decision where it is. -/
def Effect.Spares (r : RetainedDecision) : Effect → Prop
  | .applied batch _ now => batch.startup = false ∧ r.decision.id ∉ batch.deleted ∧
      r.decision.id ∉ batch.new.map (·.id) ∧ r.decision.live now = true
  | .expired now => r.decision.live now = true

/-- **What is retained**: introduced by some effect that all later ones spare. -/
def Retained (history : List Effect) (r : RetainedDecision) : Prop :=
  ∃ later effect earlier, history = later ++ effect :: earlier ∧ effect.Introduces r ∧
    ∀ e ∈ later, e.Spares r

theorem retained_nil (r : RetainedDecision) : ¬ Retained [] r := by
  rintro ⟨later, effect, earlier, h, -⟩
  cases later <;> cases h

theorem retained_cons {e : Effect} {history : List Effect} {r : RetainedDecision} :
    Retained (e :: history) r ↔ e.Introduces r ∨ (e.Spares r ∧ Retained history r) := by
  constructor
  · rintro ⟨later, effect, earlier, h, hin, hsp⟩
    cases later with
    | nil =>
      cases h
      exact .inl hin
    | cons e' later =>
      obtain ⟨rfl, rfl⟩ := List.cons.inj h
      exact .inr ⟨hsp e mem_cons_self, later, effect, earlier, rfl, hin,
        fun x hx => hsp x (mem_cons_of_mem _ hx)⟩
  · rintro (hin | ⟨hsp, later, effect, earlier, rfl, hin, hal⟩)
    · exact ⟨[], e, history, rfl, hin, by simp⟩
    · refine ⟨e :: later, effect, earlier, rfl, hin, ?_⟩
      intro x hx
      rcases mem_cons.mp hx with rfl | hx
      · exact hsp
      · exact hal x hx

/-! ## The update -/

theorem validateNew_nodup {ds : List Decision} : ∀ {index : Nat} {seen : List Int},
    validateNew index seen ds = .ok () → (ds.map (·.id)).Nodup ∧ ∀ d ∈ ds, d.id ∉ seen := by
  induction ds with
  | nil => simp
  | cons d rest ih =>
    intro index seen h
    rw [validateNew] at h
    obtain ⟨-, h⟩ := ite_throw_eq_ok.mp h
    obtain ⟨-, h⟩ := ite_throw_eq_ok.mp h
    obtain ⟨-, h⟩ := ite_throw_eq_ok.mp h
    obtain ⟨hse, h⟩ := ite_throw_eq_ok.mp h
    obtain ⟨hno, ho⟩ := ih h
    refine ⟨?_, ?_⟩
    · rw [map_cons, nodup_cons]
      refine ⟨fun hmem => ?_, hno⟩
      obtain ⟨x, hx, hid⟩ := mem_map.mp hmem
      exact ho x hx (hid ▸ mem_cons_self)
    · intro x hx
      rcases mem_cons.mp hx with rfl | hx
      · exact hse
      · exact fun hmem => ho x hx (mem_cons_of_mem _ hmem)

theorem validateBatch_nodup {batch : Batch} (h : validateBatch batch = .ok ()) :
    (batch.new.map (·.id)).Nodup := by
  unfold validateBatch at h
  split at h
  · cases h
  · exact (validateNew_nodup h).1

namespace Store

variable {r : RetainedDecision} {now : Time} {sequence : Nat} {s s' : Store} {batch : Batch}
  {raw : RawBatch} {history : List Effect}

theorem mem_delete {ds : List RetainedDecision} {id : Int} :
    r ∈ delete ds id ↔ r ∈ ds ∧ r.decision.id ≠ id := by
  simp [delete]

theorem mem_foldl_delete {ids : List Int} :
    ∀ {ds : List RetainedDecision}, r ∈ ids.foldl delete ds ↔ r ∈ ds ∧ r.decision.id ∉ ids := by
  induction ids with
  | nil => simp
  | cons id rest ih =>
    intro ds
    rw [foldl_cons, ih, mem_delete, mem_cons, not_or]
    exact and_assoc

theorem mem_admitDecision {ds : List RetainedDecision} {d : Decision} :
    r ∈ admitDecision now sequence ds d ↔
      (r = ⟨d, sequence⟩ ∧ d.live now = true) ∨ (r ∈ ds ∧ r.decision.id ≠ d.id) := by
  unfold admitDecision
  split
  · next hl =>
    simp only [put, mem_append, mem_delete, mem_singleton, hl, and_true]
    exact or_comm
  · next hd =>
    simp only [mem_delete, hd, and_false, false_or, Bool.false_eq_true]

theorem mem_foldl_admit {new : List Decision}
    : ∀ {ds : List RetainedDecision}, (new.map (·.id)).Nodup →
      (r ∈ new.foldl (admitDecision now sequence) ds ↔
        (r.decision ∈ new ∧ r.sequence = sequence ∧ r.decision.live now = true) ∨
          (r ∈ ds ∧ r.decision.id ∉ new.map (·.id))) := by
  induction new with
  | nil => simp
  | cons d rest ih =>
    intro ds hno
    rw [map_cons, nodup_cons] at hno
    rw [foldl_cons, ih hno.2, mem_admitDecision, map_cons, mem_cons,
      mem_cons, not_or]
    constructor
    · rintro (⟨hr, hq, hl⟩ | ⟨⟨rfl, hl⟩ | ⟨hr, hne⟩, ho⟩)
      · exact .inl ⟨Or.inr hr, hq, hl⟩
      · exact .inl ⟨Or.inl rfl, rfl, hl⟩
      · exact .inr ⟨hr, hne, ho⟩
    · rintro (⟨rfl | hr, hq, hl⟩ | ⟨hr, hne, ho⟩)
      · exact .inr ⟨Or.inl ⟨by rw [← hq], hl⟩, hno.1⟩
      · exact .inl ⟨hr, hq, hl⟩
      · exact .inr ⟨Or.inr ⟨hr, hne⟩, ho⟩

/-- **A batch introduces and spares** what its effect says. -/
theorem mem_replaced (hb : validateBatch batch = .ok ()) :
    r ∈ s.replaced batch sequence now ↔
      (Effect.applied batch sequence now).Introduces r ∨
        ((Effect.applied batch sequence now).Spares r ∧ r ∈ s.decisions) := by
  rw [replaced, mem_foldl_admit (validateBatch_nodup hb), mem_foldl_delete, Effect.Introduces,
    Effect.Spares]
  by_cases hs : batch.startup = true
  · simp [hs]
  · rw [if_neg hs, mem_filter, Bool.eq_false_iff.mpr hs]
    refine or_congr Iff.rfl ⟨?_, ?_⟩
    · rintro ⟨⟨⟨hr, hl⟩, hd⟩, hnew⟩
      exact ⟨⟨rfl, hd, hnew, hl⟩, hr⟩
    · rintro ⟨⟨-, hd, hnew, hl⟩, hr⟩
      exact ⟨⟨⟨hr, hl⟩, hd⟩, hnew⟩

/-! ## The revision -/

/-- Two stores hold the same decisions, introduced by the same batches. -/
def SameContents (s s' : Store) : Prop := ∀ r, r ∈ s'.decisions ↔ r ∈ s.decisions

/-- Every retained sequence has been admitted. -/
def Bounded (s : Store) : Prop :=
  ∀ r ∈ s.decisions, ∃ last, s.lastSequence = some last ∧ r.sequence ≤ last

theorem batchChanges_eq_false (hnew : ∀ r ∈ s.decisions, r.sequence ≠ sequence) :
    batchChanges s.decisions batch sequence now = false ↔
      (∀ r ∈ s.decisions, (Effect.applied batch sequence now).Spares r) ∧
        ∀ d ∈ batch.new, d.live now = false := by
  rw [batchChanges]
  by_cases hs : batch.startup = true
  · rw [if_pos hs]
    simp only [Bool.or_eq_false_iff, Bool.not_eq_false', List.isEmpty_iff, any_eq_false,
      Bool.not_eq_true, Effect.Spares, hs]
    refine and_congr ⟨fun h r hr => ?_, fun h => ?_⟩ Iff.rfl
    · rw [h] at hr
      cases hr
    · cases hds : s.decisions with
      | nil => rfl
      | cons r rest => exact absurd (h r (hds ▸ mem_cons_self)).1 (by simp)
  · rw [if_neg hs]
    simp only [Bool.or_eq_false_iff, any_eq_false, Bool.not_eq_true, Bool.not_eq_false,
      Bool.not_eq_eq_eq_not, Bool.not_true, decide_eq_true_eq, Effect.Spares,
      Bool.eq_false_iff.mpr hs]
    constructor
    · rintro ⟨⟨hl, hdel⟩, hin⟩
      -- a decision that is there and named again would count as a change
      have ho : ∀ d ∈ batch.new, s.decisions.find? (·.decision.id = d.id) = none := by
        intro d hd
        cases hf : s.decisions.find? (·.decision.id = d.id) with
        | none => rfl
        | some r =>
          have hba := hin d hd
          rw [hf] at hba
          simp [hnew r (mem_of_find?_eq_some hf)] at hba
      refine ⟨fun r hr => ⟨trivial, ?_, ?_, hl r hr⟩, fun d hd => ?_⟩
      · exact fun hmem => hdel _ hmem r hr rfl
      · intro hmem
        obtain ⟨d, hd, hid⟩ := mem_map.mp hmem
        have := List.find?_eq_none.mp (ho d hd) r hr
        simp [hid] at this
      · have := hin d hd
        rwa [ho d hd] at this
    · rintro ⟨hsp, hde⟩
      refine ⟨⟨fun r hr => (hsp r hr).2.2.2, fun id hid r hr heq => ?_⟩, fun d hd => ?_⟩
      · exact (hsp r hr).2.1 (heq ▸ hid)
      · have hno : s.decisions.find? (·.decision.id = d.id) = none := by
          rw [List.find?_eq_none]
          intro r hr heq
          exact (hsp r hr).2.2.1 (mem_map.mpr ⟨d, hd, (decide_eq_true_eq.mp heq).symm⟩)
        rw [hno]
        exact hde d hd

/-- **Change detection is exact.** -/
theorem batchChanges_iff
    (hb : validateBatch batch = .ok ()) (hnew : ∀ r ∈ s.decisions, r.sequence ≠ sequence) :
    batchChanges s.decisions batch sequence now = false ↔
      ∀ r, r ∈ s.replaced batch sequence now ↔ r ∈ s.decisions := by
  rw [batchChanges_eq_false hnew]
  constructor
  · rintro ⟨hsp, hde⟩ r
    rw [mem_replaced hb]
    refine ⟨?_, fun hr => Or.inr ⟨hsp r hr, hr⟩⟩
    rintro (⟨hin, -, hl⟩ | ⟨-, hr⟩)
    · rw [hde r.decision hin] at hl
      cases hl
    · exact hr
  · intro hsa
    refine ⟨fun r hr => ?_, fun d hd => ?_⟩
    · rcases (mem_replaced hb).mp ((hsa r).mpr hr) with ⟨-, hq, -⟩ | ⟨hsp, -⟩
      · exact absurd hq (hnew r hr)
      · exact hsp
    · by_contra hl
      have hin : (⟨d, sequence⟩ : RetainedDecision) ∈ s.replaced batch sequence now :=
        (mem_replaced hb).mpr (Or.inl ⟨hd, rfl, by simpa using hl⟩)
      exact hnew _ ((hsa _).mp hin) rfl

/-! ## One call -/

/-- **An accepted batch.** -/
theorem applyRaw_eq_ok (h : s.applyRaw raw sequence now = .ok s') :
    ∃ batch, raw.validate = .ok batch ∧ validateBatch batch = .ok () ∧
      (∀ last, s.lastSequence = some last → last < sequence) ∧
      s'.decisions = s.replaced batch sequence now ∧ s'.lastSequence = some sequence ∧
      (batchChanges s.decisions batch sequence now = true → s.revision ≠ 2 ^ 64 - 1) ∧
      s'.revision = if batchChanges s.decisions batch sequence now then s.revision + 1
        else s.revision := by
  rw [applyRaw, ite_throw_eq_ok, ite_throw_eq_ok] at h
  obtain ⟨-, hst, h⟩ := h
  have hla : ∀ last, s.lastSequence = some last → last < sequence := by
    intro last hl
    simpa [hl] using hst
  cases hv : raw.validate with
  | error e =>
    rw [hv] at h
    cases h
  | ok batch =>
    rw [hv] at h
    dsimp only at h
    refine ⟨batch, rfl, RawBatch.validate_ok hv, hla, ?_⟩
    unfold applyBatch at h
    split at h
    · cases h
    · rw [ite_throw_eq_ok] at h
      obtain ⟨hro, h⟩ := h
      cases h
      refine ⟨rfl, rfl, fun hc hre => hro ?_, rfl⟩
      simp [hc, hre]

/-- The decisions of a store, its sequence bound and its revision agree with a history. -/
structure Folds (history : List Effect) (s : Store) : Prop where
  retained : ∀ r, r ∈ s.decisions ↔ Retained history r
  bounded : s.Bounded
  revision : s.revision ≤ 2 ^ 64 - 1

/-- What one call does to the revision. -/
def Counts (s s' : Store) : Prop :=
  (SameContents s s' ∧ s'.revision = s.revision) ∨
    (¬ SameContents s s' ∧ s'.revision = s.revision + 1)

theorem counts_apply (hs : s.Bounded) (h : s.applyRaw raw sequence now = .ok s') : Counts s s' := by
  obtain ⟨batch, -, hb, hla, hd, -, -, hre⟩ := applyRaw_eq_ok h
  have hnew : ∀ r ∈ s.decisions, r.sequence ≠ sequence := by
    intro r hr
    obtain ⟨last, hl, hle⟩ := hs r hr
    have := hla last hl
    omega
  rw [Counts, SameContents, hd, ← batchChanges_iff hb hnew]
  cases hc : batchChanges s.decisions batch sequence now with
  | false => exact .inl ⟨rfl, by simpa [hc] using hre⟩
  | true => exact .inr ⟨by simp, by simpa [hc] using hre⟩

theorem folds_apply (hf : Folds history s)
    (h : s.applyRaw raw sequence now = .ok s') (hv : raw.validate = .ok batch) :
    Folds (.applied batch sequence now :: history) s' := by
  obtain ⟨batch', hv', hb, hla, hd, hse, hro, hre⟩ := applyRaw_eq_ok h
  rw [hv] at hv'
  cases hv'
  refine ⟨fun r => ?_, fun r hr => ⟨sequence, hse, ?_⟩, ?_⟩
  · rw [hd, mem_replaced hb, retained_cons, hf.retained]
  · rw [hd, mem_replaced hb] at hr
    rcases hr with ⟨-, hq, -⟩ | ⟨-, hr⟩
    · exact hq.le
    · obtain ⟨last, hl, hle⟩ := hf.bounded r hr
      have := hla last hl
      omega
  · have := hf.revision
    rw [hre]
    split
    · next hc =>
      have := hro hc
      omega
    · exact this

theorem filter_live_eq_self :
    (s.decisions.filter (·.decision.live now)).length = s.decisions.length ↔
      ∀ r ∈ s.decisions, r.decision.live now = true := by
  rw [length_filter_eq_length_iff]

/-- **`Expire`**, unless the revision is exhausted. -/
theorem expire_spec (now : Time) (hro : s.revision ≠ 2 ^ 64 - 1) :
    (∀ r, r ∈ (s.expire now).decisions ↔ r.decision.live now = true ∧ r ∈ s.decisions) ∧
      (s.expire now).lastSequence = s.lastSequence ∧
      (s.expire now).revision =
        if ∀ r ∈ s.decisions, r.decision.live now = true then s.revision else s.revision + 1 := by
  rw [expire]
  simp only [hro, false_or, filter_live_eq_self]
  by_cases hal : ∀ r ∈ s.decisions, r.decision.live now = true
  · rw [if_pos hal, if_pos hal]
    exact ⟨fun r => ⟨fun hr => ⟨hal r hr, hr⟩, fun hr => hr.2⟩, rfl, rfl⟩
  · rw [if_neg hal, if_neg hal]
    refine ⟨fun r => ?_, rfl, rfl⟩
    simp only [mem_filter]
    exact and_comm

theorem expire_exhausted (now : Time) (hf : s.revision = 2 ^ 64 - 1) : s.expire now = s := by
  rw [expire, if_pos (Or.inl hf)]

theorem counts_expire (s : Store) (now : Time) : Counts s (s.expire now) := by
  by_cases hf : s.revision = 2 ^ 64 - 1
  · rw [expire_exhausted now hf]
    exact .inl ⟨fun _ => Iff.rfl, rfl⟩
  · obtain ⟨hmem, -, hre⟩ := expire_spec (s := s) now hf
    rw [Counts, hre]
    by_cases hal : ∀ r ∈ s.decisions, r.decision.live now = true
    · rw [if_pos hal]
      exact .inl ⟨fun r => (hmem r).trans ⟨fun hr => hr.2, fun hr => ⟨hal r hr, hr⟩⟩, rfl⟩
    · rw [if_neg hal]
      refine .inr ⟨fun hsa => hal fun r hr => ?_, rfl⟩
      exact ((hmem r).mp ((hsa r).mpr hr)).1

theorem folds_expire (hf : Folds history s) (now : Time)
    (hro : s.revision ≠ 2 ^ 64 - 1) : Folds (.expired now :: history) (s.expire now) := by
  obtain ⟨hmem, hse, hre⟩ := expire_spec (s := s) now hro
  refine ⟨fun r => ?_, fun r hr => ?_, ?_⟩
  · rw [hmem, retained_cons, hf.retained, Effect.Introduces, Effect.Spares, false_or]
  · rw [hse]
    exact hf.bounded r ((hmem r).mp hr).2
  · have := hf.revision
    rw [hre]
    split <;> omega

/-- **One call** keeps the store the fold of its effects. -/
theorem folds_call (hf : Folds history s) (c : Call) :
    Folds ((s.effect c).toList ++ history) (s.call c) := by
  cases c with
  | apply raw sequence now =>
    rw [call, effect]
    cases h : s.applyRaw raw sequence now with
    | error e => exact hf
    | ok s' =>
      obtain ⟨batch, hv, -⟩ := applyRaw_eq_ok h
      rw [hv]
      exact folds_apply hf h hv
  | expire now =>
    rw [call, effect]
    by_cases hfu : s.revision = 2 ^ 64 - 1
    · rw [if_pos hfu, expire_exhausted now hfu]
      exact hf
    · rw [if_neg hfu]
      exact folds_expire hf now hfu

theorem counts_call (hs : s.Bounded) (c : Call) : Counts s (s.call c) := by
  cases c with
  | apply raw sequence now =>
    rw [call]
    cases h : s.applyRaw raw sequence now with
    | error e => exact .inl ⟨fun _ => Iff.rfl, rfl⟩
    | ok s' => exact counts_apply hs h
  | expire now => exact counts_expire s now

/-! ## Runs -/

theorem folds_run : ∀ (calls : List Call) {history : List Effect} {s : Store}, Folds history s →
    Folds (s.effects history calls) (s.run calls) := by
  intro calls
  induction calls with
  | nil => exact fun hf => hf
  | cons c rest ih => exact fun hf => ih (folds_call hf c)

theorem run_revision : ∀ (calls : List Call) {history : List Effect} {s : Store}, Folds history s →
    s.revision ≤ (s.run calls).revision ∧
      ((s.run calls).revision = s.revision → SameContents s (s.run calls)) := by
  intro calls
  induction calls with
  | nil => exact fun _ => ⟨Nat.le_refl _, fun _ _ => Iff.rfl⟩
  | cons c rest ih =>
    intro history s hf
    obtain ⟨hle, hsa⟩ := ih (folds_call hf c)
    rcases counts_call hf.bounded c with ⟨ho, hre⟩ | ⟨-, hre⟩
    · refine ⟨hre ▸ hle, fun heq r => ?_⟩
      exact (hsa (heq.trans hre.symm) r).trans (ho r)
    · have hlt : s.revision < ((s.call c).run rest).revision := by omega
      exact ⟨hlt.le, fun heq => absurd heq hlt.ne'⟩

theorem folds_new (url : String) (ep : Nat) : Folds [] (Store.new url ep) where
  retained r := ⟨fun hr => (not_mem_nil hr).elim, fun hr => absurd hr (retained_nil r)⟩
  bounded _ hr := (not_mem_nil hr).elim
  revision := Nat.zero_le _

/-- **The decision store is the fold of its stream.** After any calls its decisions are those the
history of effects retains. From there a rejected batch changes nothing, every call moves the
revision by one exactly when it changes the contents, without ever wrapping, and a later store of the
same revision has the same contents. -/
theorem store_fold (endpoint : String) (epoch : Nat) (calls : List Call) :
    (∀ r, r ∈ ((Store.new endpoint epoch).run calls).decisions ↔
      Retained ((Store.new endpoint epoch).effects [] calls) r) ∧
    ((Store.new endpoint epoch).run calls).revision < 2 ^ 64 ∧
    (∀ raw sequence now e,
      ((Store.new endpoint epoch).run calls).applyRaw raw sequence now = .error e →
      ((Store.new endpoint epoch).run calls).call (.apply raw sequence now) =
        (Store.new endpoint epoch).run calls) ∧
    (∀ c, Counts ((Store.new endpoint epoch).run calls)
      (((Store.new endpoint epoch).run calls).call c)) ∧
    ∀ more, (((Store.new endpoint epoch).run calls).run more).revision =
        ((Store.new endpoint epoch).run calls).revision →
      SameContents ((Store.new endpoint epoch).run calls)
        (((Store.new endpoint epoch).run calls).run more) := by
  have hf := folds_run calls (folds_new endpoint epoch)
  refine ⟨hf.retained, ?_, ?_, fun c => counts_call hf.bounded c, fun more => ?_⟩
  · have := hf.revision
    omega
  · intro raw sequence now e he
    rw [call, he]
  · exact (run_revision more hf).2

end Store

end Perimeterd.CrowdSec
