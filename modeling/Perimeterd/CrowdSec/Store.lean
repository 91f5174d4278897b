import Perimeterd.Lib.Pointwise
import Perimeterd.Lib.Result
import Perimeterd.Policy.Model

/-!
# The authoritative decision store

`internal/crowdsec/store.go`. The store is a map from decision IDs to decisions, kept here as the
list of its entries in the order one iteration happens to visit them. What `validateBatch` checks of
every admitted decision is a field of the store, so a store with a zero deadline or host bits set in
a prefix cannot be built; `apply` and `expire` return stores and therefore keep it.
-/

namespace Perimeterd.CrowdSec

open Lib Policy List

structure Decision where
  id : Int
  pfx : Prefix
  deadline : Time
deriving DecidableEq

def Decision.live (d : Decision) (now : Time) : Bool := now < d.deadline

/-- What `validateBatch` asks of one decision on its own. An IPv4-mapped IPv6 address has 80 zero
bits and 16 one bits in front. -/
def Decision.Valid (d : Decision) : Prop :=
  0 < d.id ∧ d.pfx.Masked ∧ ¬ (d.pfx.addr.family = .ipv6 ∧ d.pfx.addr.value / 2 ^ 32 = 0xffff) ∧
    d.deadline ≠ 0

instance (d : Decision) : Decidable d.Valid := inferInstanceAs (Decidable (_ ∧ _ ∧ _ ∧ _))

structure RetainedDecision where
  decision : Decision
  sequence : Nat
deriving DecidableEq

structure Batch where
  startup : Bool
  new : List Decision
  deleted : List Int

structure Store where
  endpoint : String
  epoch : Nat
  revision : Nat
  decisions : List RetainedDecision
  lastSequence : Option Nat
  valid : ∀ r ∈ decisions, r.decision.Valid
  ids : (decisions.map (·.decision.id)).Nodup

namespace Store

def new (endpoint : String) (epoch : Nat) : Store where
  endpoint := endpoint
  epoch := epoch
  revision := 0
  decisions := []
  lastSequence := none
  valid := by simp
  ids := by simp

/-- The admitted decisions, in iteration order. -/
def contents (s : Store) : List Decision := s.decisions.map (·.decision)

theorem valid_contents (s : Store) : ∀ d ∈ s.contents, d.Valid := by
  intro d hd
  obtain ⟨r, hr, rfl⟩ := mem_map.mp hd
  exact s.valid r hr

end Store

/-- `validateBatch`; `seen` is the source's ID set. -/
def validateNew : Nat → List Int → List Decision → Except String Unit
  | _, _, [] => .ok ()
  | index, seen, d :: rest =>
      if d.id ≤ 0 then .error s!"crowdsec store: invalid decision ID {d.id}"
      else if ¬ d.pfx.Masked ∨ (d.pfx.addr.family = .ipv6 ∧ d.pfx.addr.value / 2 ^ 32 = 0xffff) then
        .error s!"crowdsec store: new decision {index} has invalid prefix"
      else if d.deadline = 0 then .error s!"crowdsec store: new decision {index} has zero deadline"
      else if d.id ∈ seen then .error s!"crowdsec store: duplicate decision ID {d.id}"
      else validateNew (index + 1) (d.id :: seen) rest

@[inherit_doc validateNew]
def validateBatch (batch : Batch) : Except String Unit :=
  match batch.deleted.find? (· ≤ 0) with
  | some id => .error s!"crowdsec store: invalid deleted decision ID {id}"
  | none => validateNew 0 [] batch.new

theorem validateNew_ok {ds : List Decision} : ∀ {index : Nat} {seen : List Int},
    validateNew index seen ds = .ok () → ∀ d ∈ ds, d.Valid := by
  induction ds with
  | nil => simp
  | cons d rest ih =>
    intro index seen h
    rw [validateNew] at h
    obtain ⟨hid, h⟩ := ite_throw_eq_ok.mp h
    obtain ⟨hp, h⟩ := ite_throw_eq_ok.mp h
    obtain ⟨hdl, h⟩ := ite_throw_eq_ok.mp h
    obtain ⟨-, h⟩ := ite_throw_eq_ok.mp h
    rw [not_or, not_not] at hp
    intro x hx
    rcases mem_cons.mp hx with rfl | hx
    · exact ⟨by omega, hp.1, hp.2, hdl⟩
    · exact ih h x hx

theorem validateBatch_ok {batch : Batch} (h : validateBatch batch = .ok ()) :
    ∀ d ∈ batch.new, d.Valid := by
  unfold validateBatch at h
  split at h
  · cases h
  · exact validateNew_ok h

namespace Store

def delete (ds : List RetainedDecision) (id : Int) : List RetainedDecision :=
  ds.filter (·.decision.id ≠ id)

def put (ds : List RetainedDecision) (r : RetainedDecision) : List RetainedDecision :=
  delete ds r.decision.id ++ [r]

/-- One new decision: admitted while it is live, otherwise it only removes what it replaces. -/
def admitDecision (now : Time) (sequence : Nat) (ds : List RetainedDecision) (d : Decision) :
    List RetainedDecision :=
  if d.live now then put ds ⟨d, sequence⟩ else delete ds d.id

def replaced (s : Store) (batch : Batch) (sequence : Nat) (now : Time) : List RetainedDecision :=
  let kept := if batch.startup then [] else s.decisions.filter (·.decision.live now)
  let remaining := batch.deleted.foldl delete kept
  batch.new.foldl (admitDecision now sequence) remaining

def batchChanges (ds : List RetainedDecision) (batch : Batch) (sequence : Nat) (now : Time) : Bool :=
  if batch.startup then !ds.isEmpty || batch.new.any (·.live now)
  else
    ds.any (fun r => !r.decision.live now) ||
    batch.deleted.any (fun id => ds.any (·.decision.id = id)) ||
    batch.new.any fun d =>
      match ds.find? (·.decision.id = d.id) with
      | some r => r.sequence ≠ sequence || r.decision.pfx ≠ d.pfx || r.decision.deadline ≠ d.deadline
      | none => d.live now

def Sound (ds : List RetainedDecision) : Prop :=
  (∀ r ∈ ds, r.decision.Valid) ∧ (ds.map (·.decision.id)).Nodup

theorem Sound.filter {ds : List RetainedDecision} (h : Sound ds) (p : RetainedDecision → Bool) :
    Sound (ds.filter p) :=
  ⟨fun r hr => h.1 r (mem_filter.mp hr).1,
    h.2.sublist (filter_sublist.map _)⟩

theorem Sound.put {ds : List RetainedDecision} (h : Sound ds) {r : RetainedDecision}
    (hr : r.decision.Valid) : Sound (put ds r) := by
  have hd := h.filter (·.decision.id ≠ r.decision.id)
  refine ⟨forall_mem_concat.mpr ⟨hd.1, hr⟩, nodup_map_concat.mpr ⟨hd.2, fun x hx => ?_⟩⟩
  exact of_decide_eq_true (mem_filter.mp hx).2

theorem Sound.foldl_delete {ids : List Int} : ∀ {ds : List RetainedDecision}, Sound ds →
    Sound (ids.foldl delete ds) := by
  induction ids with
  | nil => exact id
  | cons id rest ih => exact fun h => ih (h.filter _)

theorem Sound.foldl_admit {new : List Decision} {now : Time} {seq : Nat}
    (hnew : ∀ d ∈ new, d.Valid) : ∀ {ds : List RetainedDecision}, Sound ds →
      Sound (new.foldl (admitDecision now seq) ds) := by
  induction new with
  | nil => exact id
  | cons d rest ih =>
    intro ds h
    refine ih (fun x hx => hnew x (mem_cons_of_mem _ hx)) ?_
    unfold admitDecision
    split
    · exact h.put (hnew d mem_cons_self)
    · exact h.filter _

theorem sound_replaced {s : Store} {batch : Batch} {seq : Nat} {now : Time}
    (hb : validateBatch batch = .ok ()) : Sound (s.replaced batch seq now) := by
  have hs : Sound s.decisions := ⟨s.valid, s.ids⟩
  refine Sound.foldl_admit (validateBatch_ok hb) (Sound.foldl_delete ?_)
  split
  · exact ⟨by simp, by simp⟩
  · exact hs.filter _

/-- `Store.Apply` once the sequence is accepted: a batch is validated before anything changes. -/
def applyBatch (s : Store) (batch : Batch) (sequence : Nat) (now : Time) : Except String Store :=
  match hb : validateBatch batch with
  | .error e => .error e
  | .ok () =>
      let changed := batchChanges s.decisions batch sequence now
      if changed && s.revision = 2 ^ 64 - 1 then
        .error "crowdsec store: desired revision exhausted"
      else
        .ok { s with
          decisions := s.replaced batch sequence now
          lastSequence := some sequence
          revision := if changed then s.revision + 1 else s.revision
          valid := (sound_replaced hb).1
          ids := (sound_replaced hb).2 }

def expire (s : Store) (now : Time) : Store :=
  let kept := s.decisions.filter (·.decision.live now)
  if s.revision = 2 ^ 64 - 1 ∨ kept.length = s.decisions.length then s
  else
    { s with
      decisions := kept
      revision := s.revision + 1
      valid := (Sound.filter ⟨s.valid, s.ids⟩ _).1
      ids := (Sound.filter ⟨s.valid, s.ids⟩ _).2 }

end Store

end Perimeterd.CrowdSec
