import Perimeterd.App.Handles
import Perimeterd.Lib.Pointwise

/-!
# Every session handle has one owner

**Whatever happens during a run of the service, every handle is held by exactly one owner until that
owner closes it, the active source's session is open, and when `Run` returns every handle is closed**
(`handles_owned`).

The argument keeps an account of what is held (`Kept`): no handle is held twice, and a handle is held
exactly while it is open. A branch of `Run` does three kinds of things to the account: it obtains a
handle, it passes one on, or it closes one, and closing takes an entry out. The only moment at which
a handle has two names is inside `publishReservation`, between the source's taking a session over and
the reservation's letting go of it, and nothing is closed there under either of them.
-/

namespace Perimeterd.App

open Lib List

namespace Custody

variable {s s' : Custody} {o : Owner} {x : Nat}

/-- Workers are numbered, so a number is one candidate's. -/
structure Numbered (candidates : List StagedHandle) (workers : Nat) : Prop where
  distinct : (candidates.map (·.worker)).Nodup
  below : ∀ c ∈ candidates, c.worker < workers

structure Kept (s : Custody) : Prop where
  numbered : Numbered s.candidates s.workers
  nodup : (s.owned.map Prod.snd).Nodup
  live : ∀ x, x ∈ s.owned.map Prod.snd ↔ x < s.opened ∧ x ∉ s.closed.map Closing.handle
  once : (s.closed.map Closing.handle).Nodup
  proper : ∀ c ∈ s.closed, c.handle < s.opened ∧ c.before = [c.closer] ∧ Owner.source ∉ c.during

variable {cands : List StagedHandle} {c : StagedHandle} {x : Nat}

theorem isClosed_iff : s.isClosed x = true ↔ x ∈ s.closed.map Closing.handle := by
  simp [isClosed]

theorem owners_of_perm {rest : List (Owner × Nat)} (h : s.owned.Perm ((o, x) :: rest))
    (hnew : x ∉ rest.map Prod.snd) : s.owners x = [o] := by
  have hrest : rest.filter (·.2 = x) = [] := by
    rw [filter_eq_nil_iff]
    intro e he heq
    exact hnew (mem_map.mpr ⟨e, he, by simpa using heq⟩)
  have hf := (h.filter (·.2 = x)).map Prod.fst
  rw [filter_cons_of_pos (by simp), hrest] at hf
  exact perm_singleton.mp hf

theorem owners_eq_nil (h : x ∉ s.owned.map Prod.snd) : s.owners x = [] := by
  rw [owners, map_eq_nil_iff, filter_eq_nil_iff]
  intro e he heq
  exact h (mem_map.mpr ⟨e, he, by simpa using heq⟩)

theorem Kept.release (h : Kept s) {during : List Owner} (hnu : Numbered s'.candidates s'.workers)
    (ho : s.owned.Perm ((o, x) :: s'.owned)) (hop : s'.opened = s.opened)
    (hcl : s'.closed = s.closed ++ [⟨x, o, s.owners x, during⟩])
    (hd : Owner.source ∉ during) : Kept s' := by
  have hno : x ∉ s'.owned.map Prod.snd ∧ (s'.owned.map Prod.snd).Nodup := by
    have := (ho.map Prod.snd).nodup_iff.mp h.nodup
    rwa [map_cons, nodup_cons] at this
  have hmem : ∀ y, y ∈ s.owned.map Prod.snd ↔ y = x ∨ y ∈ s'.owned.map Prod.snd := fun y => by
    rw [(ho.map Prod.snd).mem_iff, map_cons, mem_cons]
  have hx := (h.live x).mp ((hmem x).mpr (.inl rfl))
  have hh : s'.closed.map Closing.handle = s.closed.map Closing.handle ++ [x] := by
    rw [hcl]
    simp
  refine ⟨hnu, hno.2, fun y => ?_, ?_, ?_⟩
  · rw [hop, hh, mem_append, mem_singleton, not_or, ← and_assoc, ← h.live y, hmem y]
    constructor
    · intro hy
      exact ⟨.inr hy, fun heq => hno.1 (heq ▸ hy)⟩
    · rintro ⟨hy | hy, hne⟩
      · exact absurd hy hne
      · exact hy
  · rw [hh, nodup_append]
    refine ⟨h.once, by simp, fun a ha b hb => ?_⟩
    rintro rfl
    exact hx.2 (mem_singleton.mp hb ▸ ha)
  · rw [hcl, hop, forall_mem_concat]
    exact ⟨h.proper, hx.1, owners_of_perm ho hno.1, hd⟩

theorem Kept.obtain (h : Kept s) (hnu : Numbered s'.candidates s'.workers)
    (how : s'.owned.Perm ((o, s.opened) :: s.owned)) (hop : s'.opened = s.opened + 1)
    (hcl : s'.closed = s.closed) : Kept s' := by
  have hnew : s.opened ∉ s.owned.map Prod.snd := fun hmem => by
    have := ((h.live _).mp hmem).1
    omega
  have hu : s.opened ∉ s.closed.map Closing.handle := by
    intro hmem
    obtain ⟨c, hc, heq⟩ := mem_map.mp hmem
    have := (h.proper c hc).1
    omega
  have hmem : ∀ y, y ∈ s'.owned.map Prod.snd ↔ y = s.opened ∨ y ∈ s.owned.map Prod.snd := fun y => by
    rw [(how.map Prod.snd).mem_iff, map_cons, mem_cons]
  refine ⟨hnu, ?_, fun y => ?_, hcl ▸ h.once, fun c hc => ?_⟩
  · rw [(how.map Prod.snd).nodup_iff, map_cons, nodup_cons]
    exact ⟨hnew, h.nodup⟩
  · rw [hmem y, h.live y, hop, hcl]
    constructor
    · rintro (rfl | ⟨hlt, ho⟩)
      · exact ⟨by omega, hu⟩
      · exact ⟨by omega, ho⟩
    · rintro ⟨hlt, ho⟩
      by_cases heq : y = s.opened
      · exact .inl heq
      · exact .inr ⟨by omega, ho⟩
  · obtain ⟨hlt, hbe, hd⟩ := h.proper c (hcl ▸ hc)
    exact ⟨by omega, hbe, hd⟩

theorem Kept.move (h : Kept s) (hnu : Numbered s'.candidates s'.workers)
    (how : (s'.owned.map Prod.snd).Perm (s.owned.map Prod.snd)) (ho : s'.opened = s.opened)
    (hc : s'.closed = s.closed) : Kept s' := by
  refine ⟨hnu, how.nodup_iff.mpr h.nodup, fun y => ?_, hc ▸ h.once, ?_⟩
  · rw [how.mem_iff, h.live y, ho, hc]
  · rw [ho, hc]
    exact h.proper

theorem Numbered.erase {workers : Nat}
    (h : Numbered cands workers) (c : StagedHandle) : Numbered (cands.erase c) workers :=
  ⟨h.distinct.sublist (erase_sublist.map _), fun d hd => h.below d (mem_of_mem_erase hd)⟩

/-! ## Closing -/

def staged (candidates : List StagedHandle) : List (Owner × Nat) :=
  candidates.filterMap fun c => c.session.map (.staged c.worker, ·)

theorem staged_perm (hc : c ∈ cands) :
    (staged cands).Perm
      ((c.session.map (Owner.staged c.worker, ·)).toList ++ staged (cands.erase c)) := by
  have hp := (perm_cons_erase hc).filterMap fun c : StagedHandle =>
    c.session.map (Owner.staged c.worker, ·)
  rw [filterMap_cons] at hp
  cases hse : c.session with
  | none => simpa [staged, hse] using hp
  | some x => simpa [staged, hse] using hp

def unstaged (s : Custody) : List (Owner × Nat) :=
  (s.reservation.bind (·.session)).toList.map (Owner.reservation, ·) ++
    (s.inHand.bind (·.session)).toList.map (Owner.reservation, ·) ++
    s.session.toList.map (Owner.source, ·)

theorem owned_eq (s : Custody) : s.owned = staged s.candidates ++ s.unstaged := by
  simp [owned, staged, unstaged]

theorem Kept.closeCandidate (h : Kept s) (worker : Nat) : Kept (s.closeCandidate worker) := by
  unfold Custody.closeCandidate
  cases hf : s.candidates.find? (·.worker = worker) with
  | none => exact h
  | some c =>
    have hc := mem_of_find?_eq_some hf
    obtain rfl : c.worker = worker := by simpa using List.find?_some hf
    have hnu := h.numbered.erase c
    have ho : s.owned.Perm ((c.session.map (Owner.staged c.worker, ·)).toList ++
        ({ s with candidates := s.candidates.erase c }).owned) := by
      rw [owned_eq, owned_eq, ← append_assoc]
      exact (staged_perm hc).append_right _
    dsimp only
    cases hse : c.session with
    | none =>
      rw [hse] at ho
      exact h.move hnu (ho.map _).symm rfl rfl
    | some x =>
      rw [hse] at ho
      refine h.release hnu ho rfl rfl ?_
      have hno := (ho.map Prod.snd).nodup_iff.mp h.nodup
      rw [owners_eq_nil (nodup_cons.mp hno).1]
      simp

theorem owned_source (hse : s.session = some x) :
    s.owned.Perm ((Owner.source, x) :: ({ s with session := none }).owned) := by
  simp only [owned, hse, Option.toList_some, Option.toList_none, map_cons, map_nil,
    append_nil]
  exact perm_append_singleton _ _

theorem not_mem_of_dropped (h : Kept s) (hse : s.session = some x) :
    x ∉ ({ s with session := none }).owned.map Prod.snd :=
  (nodup_cons.mp (((owned_source hse).map Prod.snd).nodup_iff.mp h.nodup)).1

theorem Kept.closeSources (h : Kept s) : Kept s.closeSources := by
  unfold Custody.closeSources
  cases hse : s.session with
  | none => exact h
  | some x =>
    refine h.release h.numbered (owned_source hse) rfl rfl ?_
    rw [owners_eq_nil (not_mem_of_dropped h hse)]
    simp

theorem closeInHand_inHand (s : Custody) : s.closeInHand.inHand = none := by
  unfold closeInHand
  split <;> rfl

theorem Kept.closeInHand (h : Kept s) : Kept s.closeInHand := by
  unfold Custody.closeInHand
  cases hse : s.inHand.bind (·.session) with
  | none =>
    refine h.move h.numbered ?_ rfl rfl
    simp [owned, hse]
  | some x =>
    have ho : s.owned.Perm ((Owner.reservation, x) :: ({ s with inHand := none }).owned) := by
      simp only [owned, hse, Option.toList_some, Option.toList_none, map_cons, map_nil,
        Option.bind_none, append_nil]
      rw [append_assoc]
      exact perm_middle
    refine h.release h.numbered ho rfl rfl ?_
    have hno := (ho.map Prod.snd).nodup_iff.mp h.nodup
    rw [owners_of_perm ho (nodup_cons.mp hno).1]
    simp

theorem Kept.takeReservation (h : Kept s) (hh : s.inHand = none) : Kept s.takeReservation := by
  refine h.move h.numbered ?_ rfl rfl
  simp [Custody.takeReservation, owned, hh]

/-! ## Selecting and publishing -/

theorem Kept.dropSession (h : Kept s) (hse : s.session = some x) {during : List Owner}
    (hd : Owner.source ∉ during) (active : Option Firewall.Id) :
    Kept { s with session := none, active, closed := s.closed ++ [⟨x, .source, s.owners x, during⟩] } :=
  h.release h.numbered (owned_source hse) rfl rfl hd

theorem Kept.install_same (h : Kept s) (rev : Option Firewall.Id) :
    Kept (s.install rev s.session) := by
  have hmo : Kept { s with active := rev } := h.move h.numbered (.refl _) rfl rfl
  unfold install
  cases hse : s.session with
  | none =>
    dsimp only
    rw [← hse]
    exact hmo
  | some old =>
    dsimp only
    rw [if_pos rfl, ← hse]
    exact hmo

theorem Kept.install_none (h : Kept s) (rev : Option Firewall.Id) : Kept (s.install rev none) := by
  unfold install
  cases hse : s.session with
  | none =>
    refine h.move h.numbered ?_ rfl rfl
    simp [owned, hse]
  | some old =>
    dsimp only
    rw [if_neg nofun]
    refine h.dropSession hse ?_ rev
    have hg : old ∉ ({ s with session := none, active := rev }).owned.map Prod.snd :=
      not_mem_of_dropped h hse
    rw [owners_eq_nil hg]
    simp

theorem Kept.install_inHand (h : Kept s) {y : Nat} (hh : s.inHand.bind (·.session) = some y)
    (rev : Option Firewall.Id) : Kept { s.install rev (some y) with inHand := none } := by
  have hmo : ∀ t : Custody, t.inHand.bind (·.session) = some y → t.session = none →
      (({ t with inHand := none, session := some y }).owned.map Prod.snd).Perm
        (t.owned.map Prod.snd) := by
    intro t ht hno
    simp [owned, ht, hno]
  unfold install
  cases hse : s.session with
  | none => exact h.move h.numbered (hmo s hh hse) rfl rfl
  | some old =>
    have hg := not_mem_of_dropped h hse
    have hy : y ∈ ({ s with session := none }).owned.map Prod.snd := by
      simp [owned, hh]
    have hne : y ≠ old := fun heq => hg (heq ▸ hy)
    dsimp only
    rw [if_neg (by simpa using hne)]
    have hd : old ∉ ({ s with active := rev, session := some y }).owned.map Prod.snd := by
      intro hmem
      apply hg
      simp only [owned, Option.toList_some, Option.toList_none, map_cons, map_nil,
        append_nil, map_append, mem_append, mem_singleton] at hmem ⊢
      exact hmem.resolve_right fun heq => hne heq.symm
    have hso : Owner.source ∉ ({ s with active := rev, session := some y }).owners old := by
      rw [owners_eq_nil hd]
      simp
    exact (h.dropSession hse hso rev).move h.numbered
      (hmo { s with session := none, active := rev } hh rfl) rfl rfl

theorem install_inHand_eq (s : Custody) (rev : Option Firewall.Id) (next : Option Nat) :
    (s.install rev next).inHand = s.inHand := by
  unfold install
  split
  · rfl
  · dsimp only
    split <;> rfl

/-- Between two handlers no reservation is in hand. -/
structure Settled (s : Custody) : Prop extends Kept s where
  emptyHanded : s.inHand = none

theorem Settled.selectNone (h : Settled s) (fails : Bool) (rev : Option Firewall.Id) :
    Settled (s.selectNone fails rev).2 := by
  unfold Custody.selectNone selectRevision
  cases fails with
  | true => exact h
  | false =>
    cases (none : Option Nat).isNone && rev.isSome && decide (s.active = rev) with
    | true => exact ⟨h.toKept.install_same rev, (install_inHand_eq ..).trans h.emptyHanded⟩
    | false => exact ⟨h.toKept.install_none rev, (install_inHand_eq ..).trans h.emptyHanded⟩

theorem Kept.publishReservation (h : Kept s) (fails : Bool) (rev : Option Firewall.Id) :
    Settled (s.publishReservation fails rev).2 := by
  unfold Custody.publishReservation
  cases hse : s.selectRevision fails rev (s.inHand.bind (·.session)) with
  | none =>
    exact ⟨h.closeInHand, closeInHand_inHand s⟩
  | some s' =>
    refine ⟨?_, rfl⟩
    unfold selectRevision at hse
    split at hse
    · cases hse
    split at hse
    case isTrue hsa =>
      obtain rfl := Option.some.inj hse
      simp only [Bool.and_eq_true, Option.isNone_iff_eq_none] at hsa
      refine (h.install_same rev).move (h.install_same rev).numbered ?_ rfl rfl
      simp [owned, install_inHand_eq, hsa.1.1]
    case isFalse =>
      obtain rfl := Option.some.inj hse
      cases hh : s.inHand.bind (·.session) with
      | none =>
        refine (h.install_none rev).move (h.install_none rev).numbered ?_ rfl rfl
        simp [owned, install_inHand_eq, hh]
      | some y => exact h.install_inHand hh rev

theorem Settled.discard (h : Settled s) : Settled s.discard :=
  ⟨(h.toKept.takeReservation h.emptyHanded).closeInHand, closeInHand_inHand _⟩

theorem Settled.publish (h : Settled s) (checkFails selectFails : Bool)
    (rev : Option Firewall.Id) : Settled (s.publish checkFails selectFails rev).2 := by
  unfold Custody.publish
  split
  · exact h
  · exact (h.toKept.takeReservation h.emptyHanded).publishReservation selectFails rev

theorem Settled.recoverPublication (h : Settled s) (selectFails : Bool)
    (rev : Option Firewall.Id) : Settled (s.recoverPublication selectFails rev).2 := by
  unfold Custody.recoverPublication
  split
  · exact h.selectNone selectFails rev
  · split
    · exact h.discard.selectNone selectFails rev
    · exact (h.toKept.takeReservation h.emptyHanded).publishReservation selectFails rev

theorem Settled.retainReservation (h : Settled s) (tr : Option Firewall.Id) :
    Settled (s.retainReservation tr).2 := by
  unfold Custody.retainReservation
  split
  · exact h
  case h_2 r hr =>
    refine ⟨h.toKept.move h.numbered ?_ rfl rfl, h.emptyHanded⟩
    simp [owned, hr]

theorem closeSources_inHand (s : Custody) : s.closeSources.inHand = s.inHand := by
  unfold closeSources
  split <;> rfl

theorem Settled.closeSources (h : Settled s) : Settled s.closeSources :=
  ⟨h.toKept.closeSources, (closeSources_inHand s).trans h.emptyHanded⟩

theorem Settled.withStage (h : Settled s) (stage : Stage) : Settled { s with stage } :=
  ⟨h.toKept.move h.numbered (.refl _) rfl rfl, h.emptyHanded⟩

theorem Settled.stopService (h : Settled s) : Settled s.stopService := h.closeSources.withStage _

theorem Settled.deferred (h : Settled s) : Settled s.deferred := h.discard.closeSources.withStage _

theorem closeCandidate_inHand (s : Custody) (wk : Nat) :
    (s.closeCandidate wk).inHand = s.inHand := by
  unfold closeCandidate
  split
  · rfl
  · dsimp only
    split <;> rfl

theorem Settled.closeCandidate (h : Settled s) (wk : Nat) : Settled (s.closeCandidate wk) :=
  ⟨h.toKept.closeCandidate wk, (closeCandidate_inHand s wk).trans h.emptyHanded⟩

theorem Settled.closeCandidates (h : Settled s) (wks : List Nat) :
    Settled (wks.foldl Custody.closeCandidate s) := by
  induction wks generalizing s with
  | nil => exact h
  | cons wk wks ih => exact ih (h.closeCandidate wk)

theorem Settled.drain (h : Settled s) (controlFails : Bool) : Settled (s.drain controlFails) := by
  have hc := h.closeCandidates (s.candidates.map (·.worker))
  unfold Custody.drain
  dsimp only
  split
  · exact hc.deferred
  · exact hc.discard.deferred

/-! ## Obtaining handles -/

theorem Settled.reserve (h : Settled s) (wk : Nat) (bindFails : Bool) :
    Settled (s.reserve wk bindFails).2 := by
  unfold Custody.reserve
  split
  · exact h
  case h_2 c _ =>
    split
    · exact h
    case isFalse hf =>
      have hno : s.reservation = none := by
        cases hr : s.reservation with
        | none => rfl
        | some r => simp [hr] at hf
      unfold retainSession
      cases c.session with
      | none =>
        refine ⟨h.toKept.move h.numbered ?_ rfl rfl, h.emptyHanded⟩
        simp [owned, hno]
      | some x =>
        dsimp only
        cases s.isClosed x with
        | true => exact h
        | false =>
          refine ⟨h.toKept.obtain (o := .reservation) h.numbered ?_ rfl rfl, h.emptyHanded⟩
          simp only [owned, hno, Option.bind_none, Option.toList_none, map_nil,
            append_nil, append_assoc]
          exact perm_middle

theorem Numbered.append {wks : Nat} (h : Numbered cands wks) (ses : Option Nat) (sent : Bool) :
    Numbered (cands ++ [⟨wks, ses, sent⟩]) (wks + 1) := by
  refine ⟨nodup_map_concat.mpr ⟨h.distinct, fun c hc => Nat.ne_of_lt (h.below c hc)⟩,
    forall_mem_concat.mpr ⟨fun c hc => Nat.lt_succ_of_lt (h.below c hc), Nat.lt_succ_self _⟩⟩

theorem Settled.startReload (h : Settled s) : Settled s.startReload := by
  refine ⟨h.toKept.move (h.numbered.append none false) ?_ rfl rfl, h.emptyHanded⟩
  simp [Custody.startReload, owned]

theorem Settled.startRefresh (h : Settled s) : Settled s.startRefresh := by
  unfold Custody.startRefresh
  split
  · exact h.startReload
  · split
    · exact h.startReload
    · refine ⟨h.toKept.obtain (o := .staged s.workers) (h.numbered.append (some s.opened) false) ?_
        rfl rfl, h.emptyHanded⟩
      rw [owned_eq, owned_eq]
      simp only [staged, filterMap_append, filterMap_cons, Option.map_some,
        filterMap_nil, append_assoc]
      exact perm_middle

theorem map_worker {f : StagedHandle → StagedHandle} (hf : ∀ c, (f c).worker = c.worker) :
    (cands.map f).map (·.worker) = cands.map (·.worker) := by
  rw [map_map]
  exact map_congr_left fun c _ => hf c

theorem Numbered.map {workers : Nat} {f : StagedHandle → StagedHandle} (h : Numbered cands workers)
    (hf : ∀ c, (f c).worker = c.worker) : Numbered (cands.map f) workers := by
  refine ⟨(map_worker hf).symm ▸ h.distinct, fun c hc => ?_⟩
  obtain ⟨d, hd, rfl⟩ := mem_map.mp hc
  exact hf d ▸ h.below d hd

theorem staged_load (x : Nat)
    (hdi : (cands.map (·.worker)).Nodup) (hc : c ∈ cands) (hno : c.session = none) :
    (staged (cands.map fun d =>
      if d.worker = c.worker then { d with session := some x } else d)).Perm
      ((Owner.staged c.worker, x) :: staged cands) := by
  induction cands with
  | nil => cases hc
  | cons d rest ih =>
    rw [map_cons, nodup_cons] at hdi
    rcases mem_cons.mp hc with rfl | hc
    · -- the others have other numbers
      have hrest : (rest.map fun d => if d.worker = c.worker then { d with session := some x } else d) =
          rest := by
        refine (map_congr_left fun d hd => if_neg fun heq => ?_).trans (map_id' rest)
        exact hdi.1 (heq ▸ mem_map_of_mem (f := fun c : StagedHandle => c.worker) hd)
      rw [map_cons, hrest]
      simp [staged, hno]
    · have hne : d.worker ≠ c.worker := fun heq =>
        hdi.1 (heq ▸ mem_map_of_mem (f := fun c : StagedHandle => c.worker) hc)
      have hrest := ih hdi.2 hc
      rw [map_cons, if_neg hne]
      cases hse : d.session with
      | none => simpa [staged, hse] using hrest
      | some y =>
        simp only [staged, filterMap_cons, hse, Option.map_some] at hrest ⊢
        exact (hrest.cons _).trans (.swap _ _ _)

section

variable (h : Settled s)

include h

theorem Settled.load (wk : Nat) : Settled (s.load wk) := by
  unfold Custody.load
  split
  case h_1 number sent hat =>
    have hc := mem_of_find?_eq_some hat
    have hw := List.find?_some hat
    simp only [Bool.and_eq_true, decide_eq_true_eq] at hw
    obtain ⟨rfl, -⟩ := hw
    refine ⟨h.toKept.obtain (o := .staged number) (h.numbered.map fun c => ?_) ?_ rfl rfl,
      h.emptyHanded⟩
    · split <;> rfl
    · rw [owned_eq, owned_eq]
      exact (staged_load s.opened h.numbered.distinct hc rfl).append_right _
  · exact h

theorem Settled.send (wk : Nat) : Settled (s.send wk) := by
  refine ⟨h.toKept.move (h.numbered.map fun c => ?_) ?_ rfl rfl, h.emptyHanded⟩
  · split <;> rfl
  · have hsa : staged (s.send wk).candidates = staged s.candidates := by
      unfold staged Custody.send
      rw [filterMap_map]
      refine filterMap_congr fun c _ => ?_
      simp only [Function.comp_apply]
      split <;> rfl
    rw [owned_eq, owned_eq, hsa]
    exact .refl _

/-! ## Handlers, steps and runs -/

theorem Settled.handleApplied (d : Delivery) : Settled (s.handleApplied d) := by
  have hre := h.retainReservation d.transaction
  have hp := h.publish d.checkFails d.selectFails d.revision
  unfold Custody.handleApplied
  dsimp only
  split
  · split
    · split
      · exact hre
      · exact hre.discard
    · exact h.discard
  · split
    · exact hp
    · exact hp.stopService

theorem Settled.handleResult (wk : Nat) (d : Delivery) : Settled (s.handleResult wk d) := by
  have hre := h.reserve wk d.bindFails
  unfold Custody.handleResult
  dsimp only
  split
  · exact h.closeCandidate wk
  split
  · exact hre.closeCandidate wk
  split
  · exact hre.discard.closeCandidate wk
  · exact (hre.closeCandidate wk).handleApplied d

theorem Settled.handleRecovery (r : Recovery) : Settled (s.handleRecovery r) := by
  cases r with
  | retry => exact h
  | fatal => exact h.stopService
  | recovered revision selectFails =>
    have hre := h.recoverPublication selectFails revision
    exact iteInduction (fun _ => hre) fun _ => hre.stopService

theorem Settled.step (e : HandleEvent) : Settled (s.step e) := by
  cases e with
  | reload => exact iteInduction (fun _ => h.startReload) fun _ => h
  | refresh => exact iteInduction (fun _ => h.startRefresh) fun _ => h
  | load wk => exact iteInduction (fun _ => h) fun _ => h.load wk
  | send wk => exact iteInduction (fun _ => h) fun _ => h.send wk
  | abandon wk => exact iteInduction (fun _ => h.closeCandidate wk) fun _ => h
  | deliver wk d => exact iteInduction (fun _ => h.handleResult wk d) fun _ => h
  | recovery r => exact iteInduction (fun _ => h.handleRecovery r) fun _ => h
  | stop => exact iteInduction (fun _ => h.stopService) fun _ => h
  | drain controlFails => exact iteInduction (fun _ => h.drain controlFails) fun _ => h

theorem Settled.publishInitial (a : Startup) : Settled (s.publishInitial a).2 := by
  have hret := h.retainReservation a.transaction
  have hre := hret.recoverPublication a.selectFailsAgain a.again
  have hp := h.publish a.checkFails a.selectFailsAgain a.revision
  unfold Custody.publishInitial
  dsimp only
  split
  · split
    · exact hret.discard
    split
    · exact hre
    · exact hre.discard
  split
  · exact h.discard
  split
  · exact hp
  · exact hp.discard

theorem Settled.startLoaded (a : Startup) : Settled (s.startLoaded a).2 := by
  have hl := h.startReload.load 0
  have hre := hl.reserve 0 a.bindFails
  unfold Custody.startLoaded
  dsimp only
  split
  · exact h
  split
  · exact hl.closeCandidate 0
  split
  · exact hre.closeCandidate 0
  split
  · exact hre.discard.closeCandidate 0
  · exact (hre.closeCandidate 0).publishInitial a

end

theorem settled_idle : Settled idle :=
  ⟨⟨⟨by simp [idle], by simp [idle]⟩, by simp [owned, idle], by simp [owned, idle], by simp [idle],
    by simp [idle]⟩, rfl⟩

theorem settled_startup (a : Startup) : Settled (startup a) := by
  have hl := (settled_idle.selectNone (a.selectFails || a.early) a.recovered).startLoaded a
  unfold startup
  dsimp only
  split
  · exact settled_idle.deferred
  split
  · exact hl
  · exact hl.deferred

/-! ## Nothing is left at the end

What the publication and the sources do leaves the stage and the candidates alone. -/

@[simp]
theorem install_frame (s : Custody) (rev : Option Firewall.Id) (next : Option Nat) :
    (s.install rev next).stage = s.stage ∧ (s.install rev next).workers = s.workers ∧
      (s.install rev next).candidates = s.candidates := by
  unfold install
  dsimp only
  split
  · simp
  · split <;> simp [close]

@[simp]
theorem selectNone_frame (s : Custody) (fails : Bool) (rev : Option Firewall.Id) :
    (s.selectNone fails rev).2.stage = s.stage ∧
      (s.selectNone fails rev).2.workers = s.workers ∧
      (s.selectNone fails rev).2.candidates = s.candidates := by
  unfold selectNone selectRevision
  cases fails with
  | true => simp
  | false => cases (none : Option Nat).isNone && rev.isSome && decide (s.active = rev) <;> simp

@[simp]
theorem closeSources_frame (s : Custody) :
    s.closeSources.stage = s.stage ∧ s.closeSources.candidates = s.candidates ∧
      s.closeSources.reservation = s.reservation := by
  unfold closeSources
  split <;> simp [close]

@[simp]
theorem discard_frame (s : Custody) :
    s.discard.stage = s.stage ∧ s.discard.candidates = s.candidates ∧ s.discard.reservation = none := by
  unfold discard closeInHand
  split <;> simp [close, takeReservation]

@[simp]
theorem reserve_frame (s : Custody) (wk : Nat) (bindFails : Bool) :
    (s.reserve wk bindFails).2.stage = s.stage ∧
      (s.reserve wk bindFails).2.candidates = s.candidates := by
  unfold reserve retainSession
  split
  · simp
  case h_2 c _ =>
    split
    · simp
    · cases c.session with
      | none => simp
      | some x => cases hc : s.isClosed x <;> simp [hc]

@[simp]
theorem publishReservation_frame (s : Custody) (fails : Bool) (rev : Option Firewall.Id) :
    (s.publishReservation fails rev).2.stage = s.stage ∧
      (s.publishReservation fails rev).2.candidates = s.candidates := by
  unfold publishReservation
  cases hse : s.selectRevision fails rev (s.inHand.bind (·.session)) with
  | none =>
    unfold closeInHand
    dsimp only
    split <;> simp [close]
  | some t =>
    unfold selectRevision at hse
    split at hse
    · cases hse
    · split at hse <;> obtain rfl := Option.some.inj hse <;> simp

@[simp]
theorem publish_frame (s : Custody) (checkFails selectFails : Bool) (rev : Option Firewall.Id) :
    (s.publish checkFails selectFails rev).2.stage = s.stage ∧
      (s.publish checkFails selectFails rev).2.candidates = s.candidates := by
  unfold publish
  split <;> simp [takeReservation]

@[simp]
theorem recoverPublication_frame (s : Custody) (selectFails : Bool) (rev : Option Firewall.Id) :
    (s.recoverPublication selectFails rev).2.stage = s.stage ∧
      (s.recoverPublication selectFails rev).2.candidates = s.candidates := by
  unfold recoverPublication
  split
  · simp
  · split
    · change (s.discard.selectNone _ _).2.stage = _ ∧ (s.discard.selectNone _ _).2.candidates = _
      simp
    · simp [takeReservation]

@[simp]
theorem retainReservation_frame (s : Custody) (tr : Option Firewall.Id) :
    (s.retainReservation tr).2.stage = s.stage ∧
      (s.retainReservation tr).2.candidates = s.candidates := by
  unfold retainReservation
  split <;> simp

@[simp]
theorem closeCandidate_stage (s : Custody) (wk : Nat) : (s.closeCandidate wk).stage = s.stage := by
  unfold closeCandidate
  split
  · rfl
  · dsimp only
    split <;> rfl

def Ongoing (s : Custody) : Prop := s.stage ≠ .returned

theorem handleApplied_ongoing (d : Delivery) (h : Ongoing s) : Ongoing (s.handleApplied d) := by
  unfold handleApplied
  dsimp only
  split
  · split
    · split <;> simpa [Ongoing] using h
    · simpa [Ongoing] using h
  · split
    · simpa [Ongoing] using h
    · simp [Ongoing, stopService]

theorem handleResult_ongoing (wk : Nat) (d : Delivery) (h : Ongoing s) :
    Ongoing (s.handleResult wk d) := by
  unfold handleResult
  dsimp only
  split
  · simpa [Ongoing] using h
  split
  · simpa [Ongoing] using h
  split
  · simpa [Ongoing] using h
  · exact handleApplied_ongoing d (by simpa [Ongoing] using h)

theorem handleRecovery_ongoing (r : Recovery) (h : Ongoing s) : Ongoing (s.handleRecovery r) := by
  cases r with
  | retry => exact h
  | fatal => simp [Ongoing, handleRecovery, stopService]
  | recovered revision selectFails =>
    unfold handleRecovery
    dsimp only
    split
    · simpa [Ongoing] using h
    · simp [Ongoing, stopService]

theorem step_ongoing (e : HandleEvent) (h : Ongoing s)
    (he : ∀ controlFails, e ≠ .drain controlFails) : Ongoing (s.step e) := by
  cases e with
  | reload => exact iteInduction (fun _ => h) fun _ => h
  | refresh =>
    refine iteInduction (fun _ => ?_) fun _ => h
    unfold startRefresh
    split
    · exact h
    · split <;> exact h
  | load wk =>
    refine iteInduction (fun _ => h) fun _ => ?_
    unfold load
    split <;> exact h
  | send wk => exact iteInduction (fun _ => h) fun _ => h
  | abandon wk => exact iteInduction (fun _ => by simpa [Ongoing] using h) fun _ => h
  | deliver wk d => exact iteInduction (fun _ => handleResult_ongoing wk d h) fun _ => h
  | recovery r => exact iteInduction (fun _ => handleRecovery_ongoing r h) fun _ => h
  | stop => exact iteInduction (fun _ => by simp [Ongoing, stopService]) fun _ => h
  | drain controlFails => exact absurd rfl (he controlFails)

theorem step_returned (e : HandleEvent) (h : s.stage = .returned) : s.step e = s := by
  cases e <;> simp [step, h]

theorem mem_closeCandidate (h : Numbered s.candidates s.workers) {worker : Nat} {d : StagedHandle}
    (hd : d ∈ (s.closeCandidate worker).candidates) : d ∈ s.candidates ∧ d.worker ≠ worker := by
  unfold Custody.closeCandidate at hd
  split at hd
  case h_1 hf =>
    exact ⟨hd, fun heq => List.find?_eq_none.mp hf d hd (decide_eq_true heq)⟩
  case h_2 c hf =>
    have hw : c.worker = worker := by simpa using List.find?_some hf
    have hd : d ∈ s.candidates.erase c := by
      dsimp only at hd
      split at hd <;> exact hd
    rw [h.distinct.of_map.mem_erase_iff] at hd
    refine ⟨hd.2, fun heq => hd.1 ?_⟩
    exact inj_on_of_nodup_map h.distinct hd.2 (mem_of_find?_eq_some hf) (heq.trans hw.symm)

theorem mem_closeCandidates (workers : List Nat) (h : Settled s) {d : StagedHandle}
    (hd : d ∈ (workers.foldl Custody.closeCandidate s).candidates) :
    d ∈ s.candidates ∧ d.worker ∉ workers := by
  induction workers generalizing s with
  | nil => exact ⟨hd, not_mem_nil⟩
  | cons wk workers ih =>
    obtain ⟨hmem, hrest⟩ := ih (h.closeCandidate wk) hd
    obtain ⟨hmem, hne⟩ := mem_closeCandidate h.numbered hmem
    exact ⟨hmem, not_mem_cons_of_ne_of_not_mem hne hrest⟩

/-- After the return, nobody has anything. -/
def Emptied (s : Custody) : Prop :=
  s.stage = .returned → s.candidates = [] ∧ s.reservation = none ∧ s.session = none

theorem emptied_deferred (h : s.candidates = []) : Emptied s.deferred := by
  intro _
  refine ⟨by simp [deferred, h], by simp [deferred], ?_⟩
  unfold deferred closeSources
  split
  · assumption
  · rfl

theorem emptied_drain (h : Settled s) (controlFails : Bool) : Emptied (s.drain controlFails) := by
  have hempty : ((s.candidates.map (·.worker)).foldl Custody.closeCandidate s).candidates = [] := by
    refine eq_nil_iff_forall_not_mem.mpr fun d hd => ?_
    obtain ⟨hmem, hno⟩ := mem_closeCandidates _ h hd
    exact hno (mem_map_of_mem hmem)
  cases controlFails with
  | true => exact emptied_deferred hempty
  | false => exact emptied_deferred (by simpa using hempty)

theorem Emptied.step (h : Settled s) (hs : Emptied s) (e : HandleEvent) : Emptied (s.step e) := by
  by_cases hre : s.stage = .returned
  · rwa [step_returned e hre]
  by_cases he : ∃ controlFails, e = .drain controlFails
  · obtain ⟨controlFails, rfl⟩ := he
    exact iteInduction (fun _ => emptied_drain h controlFails) fun _ => hs
  · exact fun heq => absurd heq (step_ongoing e hre fun c hc => he ⟨c, hc⟩)

theorem closeCandidate_initial (h : s.candidates = [c]) (hc : c.worker = 0) :
    (s.closeCandidate 0).candidates = [] := by
  unfold closeCandidate
  rw [h, List.find?_cons_of_pos (by simpa using hc)]
  dsimp only
  split <;> exact erase_cons_head ..

theorem publishInitial_frame (s : Custody) (a : Startup) :
    (s.publishInitial a).2.stage = s.stage ∧ (s.publishInitial a).2.candidates = s.candidates := by
  unfold publishInitial
  dsimp only
  split
  · split
    · simp
    · split <;> simp
  · split
    · simp
    · split <;> simp

theorem startLoaded_frame (a : Startup) (hc : s.candidates = []) (hw : s.workers = 0) :
    (s.startLoaded a).2.stage = s.stage ∧ (s.startLoaded a).2.candidates = [] := by
  have hst : (s.startReload.load 0).stage = s.stage := by
    unfold load
    split <;> rfl
  have hl : (s.startReload.load 0).candidates = [⟨0, some s.opened, false⟩] := by
    simp [startReload, load, atWork, hc, hw]
  unfold startLoaded
  dsimp only
  split
  · exact ⟨rfl, hc⟩
  split
  · exact ⟨by simpa using hst, closeCandidate_initial hl rfl⟩
  split
  · exact ⟨by simpa using hst, closeCandidate_initial (by simpa using hl) rfl⟩
  split
  · exact ⟨by simpa using hst, closeCandidate_initial (by simpa using hl) rfl⟩
  · obtain ⟨hsa, hke⟩ := publishInitial_frame
      (((s.startReload.load 0).reserve 0 a.bindFails).2.closeCandidate 0) a
    exact ⟨by simpa [hsa] using hst,
      hke.trans (closeCandidate_initial (by simpa using hl) rfl)⟩

theorem emptied_startup (a : Startup) : Emptied (startup a) := by
  obtain ⟨hst, hc⟩ := startLoaded_frame
    (s := (idle.selectNone (a.selectFails || a.early) a.recovered).2) a (by simp [idle]) (by simp [idle])
  unfold startup
  dsimp only
  split
  · exact emptied_deferred rfl
  split
  · intro heq
    rw [hst] at heq
    simp [idle] at heq
  · exact emptied_deferred hc

theorem kept_run (h : Settled s) (hs : Emptied s) (evs : List HandleEvent) :
    Settled (s.run evs) ∧ Emptied (s.run evs) := by
  induction evs generalizing s with
  | nil => exact ⟨h, hs⟩
  | cons e evs ih => exact ih (h.step e) (hs.step h e)

theorem Kept.owners_length (h : Kept s) (hx : x < s.opened) :
    (s.owners x).length = if s.isClosed x then 0 else 1 := by
  split
  case isTrue hc =>
    have hg : x ∉ s.owned.map Prod.snd := fun hmem =>
      ((h.live x).mp hmem).2 (isClosed_iff.mp hc)
    rw [owners_eq_nil hg]
    rfl
  case isFalse hop =>
    have hmem := (h.live x).mpr ⟨hx, fun hc => hop (isClosed_iff.mpr hc)⟩
    obtain ⟨⟨o, y⟩, ho, rfl⟩ := mem_map.mp hmem
    have hp := perm_cons_erase ho
    have hno := (hp.map Prod.snd).nodup_iff.mp h.nodup
    rw [owners_of_perm hp (nodup_cons.mp hno).1]
    rfl

theorem Kept.session_open (h : Kept s) (hx : s.session = some x) : s.isClosed x = false := by
  have ho : x ∈ s.owned.map Prod.snd := by
    simp [owned, hx]
  exact Bool.eq_false_iff.mpr fun hc => ((h.live x).mp ho).2 (isClosed_iff.mp hc)

theorem Settled.all_closed (h : Settled s) (hs : Emptied s) (hret : s.stage = .returned)
    (hx : x < s.opened) : s.isClosed x = true := by
  obtain ⟨hc, hre, hse⟩ := hs hret
  have hempty : s.owned = [] := by
    simp [owned, hc, hre, hse, h.emptyHanded]
  by_contra ho
  have hmem := (h.live x).mpr ⟨hx, fun hcl => ho (isClosed_iff.mpr hcl)⟩
  rw [hempty] at hmem
  cases hmem

/-- **Session handles have exactly one owner.** After any startup and any events: an open handle has
one owner and a closed one none; no handle is closed twice; whoever closed one was its only owner, and
the active source never had it during the call; the active source's session is open; and once `Run`
has returned, every handle that was ever obtained is closed. -/
theorem handles_owned (a : Startup) (events : List HandleEvent) :
    let s := (startup a).run events
    (∀ x < s.opened, (s.owners x).length = if s.isClosed x then 0 else 1) ∧
      (s.closed.map Closing.handle).Nodup ∧
      (∀ c ∈ s.closed, c.handle < s.opened ∧ c.before = [c.closer] ∧ Owner.source ∉ c.during) ∧
      (∀ x, s.session = some x → s.isClosed x = false) ∧
      (s.stage = .returned → ∀ x < s.opened, s.isClosed x = true) := by
  intro s
  obtain ⟨hse, hem⟩ : Settled s ∧ Emptied s :=
    kept_run (settled_startup a) (emptied_startup a) events
  exact ⟨fun x hx => hse.owners_length hx, hse.once, hse.proper,
    fun x hx => hse.session_open hx, fun hr x hx => hse.all_closed hem hr hx⟩

-- A startup that publishes its session, a refresh whose result is published in its place, and a
-- reload that is dropped while the service stops: five handles, all closed.
example :
    let start : Startup := ⟨none, false, false, false, false, false, false, true, false, none, false,
      none, some 1, false, false, false⟩
    let result : Delivery := ⟨false, false, false, true, false, none, false, false, some 2⟩
    let s := (startup start).run [.refresh, .reload, .send 1, .deliver 1 result, .load 2, .stop,
      .send 2, .drain false]
    (s.stage, s.opened, s.closed.map Closing.handle) = (.returned, 5, [0, 2, 1, 3, 4]) := by
  decide

end Custody

end Perimeterd.App
