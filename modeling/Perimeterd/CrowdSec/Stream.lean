import Perimeterd.CrowdSec.Exact
import Perimeterd.CrowdSec.Fold

/-!
# From the stream to the projection

`Expire` is housekeeping: it keeps the map from growing, and moves the revision so that leases are
written again. What is enforced does not depend on it (`expiry_unobservable`).
-/

namespace Perimeterd.CrowdSec

open Lib Policy List

def Call.isApply : Call → Bool
  | .apply .. => true
  | .expire _ => false

namespace Store

variable {s s' x : Store} {t now : Time} {raw : RawBatch} {seq : Nat} {h h' : List Effect}

theorem applyRaw_accepts (hse : s.lastSequence = s'.lastSequence) (hro : s'.revision ≠ 2 ^ 64 - 1)
    (h : s.applyRaw raw seq now = .ok x) : ∃ y, s'.applyRaw raw seq now = .ok y := by
  rw [applyRaw, ite_throw_eq_ok, ite_throw_eq_ok, hse] at h
  obtain ⟨hz, hst, h⟩ := h
  rw [applyRaw, if_neg hz, if_neg hst]
  cases hv : raw.validate with
  | error e =>
    rw [hv] at h
    cases h
  | ok batch =>
    dsimp only
    unfold applyBatch
    split
    · next hb => cases (RawBatch.validate_ok hv).symm.trans hb
    · rw [if_neg (by simpa using fun _ => hro)]
      exact ⟨_, rfl⟩

/-- Two stores that neither the batches to come nor a projection at `t` can tell apart. -/
structure Alike (t : Time) (s s' : Store) : Prop where
  sequence : s.lastSequence = s'.lastSequence
  live : ∀ r, r.decision.live t = true → (r ∈ s.decisions ↔ r ∈ s'.decisions)

theorem Alike.apply (h : Alike t s s') (hs : s.revision ≠ 2 ^ 64 - 1)
    (hs' : s'.revision ≠ 2 ^ 64 - 1) :
    Alike t (s.call (.apply raw seq now)) (s'.call (.apply raw seq now)) := by
  simp only [call]
  cases hx : s.applyRaw raw seq now with
  | error e =>
    cases hy : s'.applyRaw raw seq now with
    | error e' => exact h
    | ok y =>
      obtain ⟨_, hx'⟩ := applyRaw_accepts h.sequence.symm hs hy
      cases hx.symm.trans hx'
  | ok x =>
    obtain ⟨y, hy⟩ := applyRaw_accepts h.sequence hs' hx
    rw [hy]
    obtain ⟨batch, hv, hb, -, hd, hse, -⟩ := applyRaw_eq_ok hx
    obtain ⟨batch', hv', -, -, hd', hse', -⟩ := applyRaw_eq_ok hy
    cases hv.symm.trans hv'
    refine ⟨hse.trans hse'.symm, fun r hr => ?_⟩
    rw [hd, hd', mem_replaced hb, mem_replaced hb, h.live r hr]

theorem Alike.expire (h : Alike t s s') (hs : s.revision ≠ 2 ^ 64 - 1)
    (hle : now ≤ t) : Alike t (s.expire now) s' := by
  obtain ⟨hmem, hse, -⟩ := expire_spec (s := s) now hs
  refine ⟨hse.trans h.sequence, fun r hr => ?_⟩
  have hl : r.decision.live now = true := decide_eq_true (hle.trans_lt (of_decide_eq_true hr))
  rw [hmem, ← h.live r hr]
  exact and_iff_right hl

theorem Folds.revision_le (hf : Folds h s) (c : Call) : (s.call c).revision ≤ s.revision + 1 := by
  rcases counts_call hf.bounded c with ⟨-, hre⟩ | ⟨-, hre⟩ <;> omega

theorem Alike.run (calls : List Call) (hpast : ∀ now, .expire now ∈ calls → now ≤ t) :
    ∀ {h h' : List Effect} {s s' : Store}, Alike t s s' → Folds h s → Folds h' s' →
      s.revision + calls.length < 2 ^ 64 → s'.revision + calls.length < 2 ^ 64 →
      Alike t (s.run calls) (s'.run (calls.filter Call.isApply)) := by
  induction calls with
  | nil => exact fun h _ _ _ _ => h
  | cons c rest ih =>
    intro h h' s s' hal hf hf' hs hs'
    replace ih := @ih fun now hin => hpast now (mem_cons_of_mem c hin)
    rw [length_cons] at hs hs'
    have hre := hf.revision_le c
    have hre' := hf'.revision_le c
    cases c with
    | apply raw seq now =>
      exact ih (hal.apply (by omega) (by omega)) (folds_call hf _) (folds_call hf' _) (by omega)
        (by omega)
    | expire now =>
      exact ih (hal.expire (by omega) (hpast now mem_cons_self)) (folds_call hf _) hf' (by omega)
        (by omega)

/-- **Expiry is not observable.** After any calls, fewer than there are revisions, the projection at
an instant no expiry is ahead of is what it would be without the expiries. -/
theorem expiry_unobservable (endpoint : String) (epoch : Nat) (calls : List Call) (t : Time)
    (hfew : calls.length < 2 ^ 64) (hpast : ∀ now, .expire now ∈ calls → now ≤ t) :
    projection ((Store.new endpoint epoch).run calls).contents t =
      projection ((Store.new endpoint epoch).run (calls.filter Call.isApply)).contents t := by
  have hnew := folds_new endpoint epoch
  have hrev : (Store.new endpoint epoch).revision + calls.length < 2 ^ 64 := by
    simpa [Store.new] using hfew
  have h := Alike.run calls hpast ⟨rfl, fun _ _ => Iff.rfl⟩ hnew hnew hrev hrev
  have hsame : ∀ d : Decision, d.live t = true →
      (d ∈ ((Store.new endpoint epoch).run calls).contents ↔
        d ∈ ((Store.new endpoint epoch).run (calls.filter Call.isApply)).contents) := by
    intro d hd
    simp only [contents, mem_map]
    refine exists_congr fun r => and_congr_left ?_
    rintro rfl
    exact h.live r hd
  -- the projection is determined by the decisions that are live
  obtain ⟨v4, v6, hv, -, -, hds⟩ := projection_complete _ t
  obtain ⟨w4, w6, hw, -, -, hes⟩ := projection_complete _ t
  rw [hv, hw, (hds.congr hsame).unique hes]

/-- Two decisions are imported, of which one expires and is swept. -/
def swept : List Call :=
  [.apply ⟨false, [⟨1, .valid (.v4 192 0 2 0 24), 5⟩, ⟨2, .valid (.v4 198 51 100 0 24), 60⟩], []⟩
    1 0, .expire 6]

theorem swept_decision : swept.length < 2 ^ 64 ∧
    projection ((Store.new "" 0).run swept).contents 7 = some [⟨.v4 198 51 100 0 24, 60⟩] ∧
    projection ((Store.new "" 0).run swept).contents 7 =
      projection ((Store.new "" 0).run (swept.filter Call.isApply)).contents 7 :=
  ⟨by decide, by decide +kernel, expiry_unobservable "" 0 swept 7 (by decide) (by simp [swept])⟩

end Store

end Perimeterd.CrowdSec
