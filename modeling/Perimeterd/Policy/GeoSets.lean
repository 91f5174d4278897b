import Perimeterd.Policy.Model

/-!
# Sharing geo sets

`internal/policy/geo_sets.go`. Policies whose effective prefixes agree in a family share one native
set. A fingerprint only preselects candidates; the complete sequence decides. The fingerprint is a
parameter of the model, so nothing below depends on what it is or on whether it collides.

`Interned` is the invariant of the interner over a whole run: every policy seen is bound to the set
of its own sequence, every set is named after the least of its policies, and every sequence is
registered under its own fingerprint — which is what makes a later equal one find it.
-/

namespace Perimeterd.Policy

open Lib List

structure GeoSetInterner (δ : Type) where
  sets : List PrefixSet
  buckets : δ → List Nat
  policies : List (String × Nat)

variable {δ : Type} [DecidableEq δ]

/-- The set stored for a policy that is the first with its sequence. -/
def geoSet (name : String) (sequence : List Prefix) : PrefixSet :=
  { id := "geo/" ++ name, kind := .static, prefixes := sequence }

/-- A shared set takes the smaller of its ID and the newcomer's. -/
def PrefixSet.renameIfLess (id : String) (set : PrefixSet) : PrefixSet :=
  if id < set.id then { set with id := id } else set

/-- `intern`: the first candidate in the bucket with the same sequence is reused, and renamed if
the new policy's name is smaller; otherwise the sequence is stored. -/
def GeoSetInterner.intern (it : GeoSetInterner δ) (name : String) (sequence : List Prefix)
    (fingerprint : δ) : GeoSetInterner δ :=
  match (it.buckets fingerprint).find? fun index =>
      (it.sets[index]?).any fun set => set.prefixes = sequence with
  | some index =>
      { it with
        sets := it.sets.modify index (PrefixSet.renameIfLess ("geo/" ++ name))
        policies := (name, index) :: it.policies }
  | none =>
      let index := it.sets.length
      { sets := it.sets ++ [geoSet name sequence]
        buckets := Function.update it.buckets fingerprint (it.buckets fingerprint ++ [index])
        policies := (name, index) :: it.policies }

def GeoSetInterner.start : GeoSetInterner δ := ⟨[], fun _ => [], []⟩

/-- The interning loop of `compileGeoSets`, over named sequences. -/
def internAll (fingerprint : List Prefix → δ) (named : List (String × List Prefix)) :
    GeoSetInterner δ :=
  named.foldl (fun it value => it.intern value.1 value.2 (fingerprint value.2)) .start

/-- A string map lookup; the zero value is the empty string. -/
def lookupID (bindings : List (String × String)) (name : String) : String :=
  match bindings.find? (·.1 = name) with
  | some (_, id) => id
  | none => ""

/-- `compileGeoSets`: the sets ordered by ID, and each policy's binding. -/
def compileGeoSets (fingerprint : List Prefix → δ) (named : List (String × List Prefix)) :
    List PrefixSet × List (String × String) :=
  let it := internAll fingerprint named
  (sortSlice (fun a b => a.id < b.id) it.sets,
   it.policies.map fun (name, index) => (name, ((it.sets[index]?).map (·.id)).getD ""))

/-! ## The invariant -/

/-- The sequences stored, in the order of the sets. -/
def GeoSetInterner.sequences (it : GeoSetInterner δ) : List (List Prefix) := it.sets.map (·.prefixes)

/-- A set is named after the least of the policies with its sequence. -/
def NamedAfter (named : List (String × List Prefix)) (s : PrefixSet) : Prop :=
  s.kind = .static ∧ ∃ v ∈ named, v.2 = s.prefixes ∧ s.id = "geo/" ++ v.1 ∧
    ∀ w ∈ named, w.2 = s.prefixes → v.1 ≤ w.1

/-- What the interner knows after the policies `named`. -/
structure Interned (fingerprint : List Prefix → δ) (named : List (String × List Prefix))
    (it : GeoSetInterner δ) : Prop where
  /-- No sequence is stored twice. -/
  distinct : it.sequences.Nodup
  /-- A sequence is registered under its fingerprint. -/
  registered : ∀ q ∈ it.sequences, it.sequences.idxOf q ∈ it.buckets (fingerprint q)
  /-- Every policy's sequence is stored, -/
  stored : ∀ v ∈ named, v.2 ∈ it.sequences
  /-- and the policy is bound to it. -/
  policies : it.policies = (named.map fun v => (v.1, it.sequences.idxOf v.2)).reverse
  named_after : ∀ s ∈ it.sets, NamedAfter named s

variable {fp : List Prefix → δ} {nd : List (String × List Prefix)} {s : PrefixSet} {name : String}

theorem strictMono_append (start : String) : StrictMono (start ++ ·) := by
  intro a b h
  simp only [String.lt_iff_toList_lt, String.toList_append] at h ⊢
  exact List.Lex.append_left _ h _

namespace NamedAfter

theorem keep (h : NamedAfter nd s) {v : String × List Prefix}
    (hle : v.2 = s.prefixes → ¬ "geo/" ++ v.1 < s.id) : NamedAfter (nd ++ [v]) s := by
  obtain ⟨hki, w, hw, hse, hid, hl⟩ := h
  refine ⟨hki, w, mem_append_left _ hw, hse, hid, fun u hu hus => ?_⟩
  rcases mem_append.mp hu with hu | hu
  · exact hl u hu hus
  · obtain rfl := mem_singleton.mp hu
    have hno := hle hus
    rw [hid, (strictMono_append _).lt_iff_lt] at hno
    exact not_lt.mp hno

theorem rename (h : NamedAfter nd s) (name : String) :
    NamedAfter (nd ++ [(name, s.prefixes)]) (s.renameIfLess ("geo/" ++ name)) := by
  unfold PrefixSet.renameIfLess
  split
  case isTrue hlt =>
    obtain ⟨hki, w, -, -, hid, hl⟩ := h
    rw [hid, (strictMono_append _).lt_iff_lt] at hlt
    refine ⟨hki, (name, s.prefixes), by simp, rfl, rfl, fun u hu hus => ?_⟩
    rcases mem_append.mp hu with hu | hu
    · exact hlt.le.trans (hl u hu hus)
    · rw [mem_singleton.mp hu]
  case isFalse hlt => exact h.keep fun _ => hlt

end NamedAfter

namespace Interned

variable {it it' : GeoSetInterner δ} {seq : List Prefix} (h : Interned fp nd it)

include h

omit [DecidableEq δ] in
theorem idxOf_eq {index : Nat} (hi : it.sequences[index]? = some seq) :
    it.sequences.idxOf seq = index := by
  obtain ⟨hlt, rfl⟩ := List.getElem?_eq_some_iff.mp hi
  exact h.distinct.idxOf_getElem index hlt

omit [DecidableEq δ] in
theorem reuse {index : Nat} (hi : it.sequences[index]? = some seq)
    (hs : it'.sets = it.sets.modify index (PrefixSet.renameIfLess ("geo/" ++ name)))
    (hb : it'.buckets = it.buckets) (hp : it'.policies = (name, index) :: it.policies) :
    Interned fp (nd ++ [(name, seq)]) it' := by
  have hse : it'.sequences = it.sequences := by
    rw [GeoSetInterner.sequences, hs, GeoSetInterner.sequences]
    refine List.ext_getElem? fun j => ?_
    rw [List.getElem?_map, List.getElem?_map, List.getElem?_modify]
    cases it.sets[j]? with
    | none => rfl
    | some s =>
      by_cases hij : index = j <;> simp [hij, PrefixSet.renameIfLess, apply_ite PrefixSet.prefixes]
  refine ⟨hse ▸ h.distinct, hse ▸ hb ▸ h.registered, ?_, ?_, fun s hmem => ?_⟩
  · rw [hse, forall_mem_append, forall_mem_singleton]
    exact ⟨h.stored, mem_of_getElem? hi⟩
  · rw [hp, hse, h.policies, map_append, reverse_append, map_singleton, h.idxOf_eq hi]
    rfl
  · obtain ⟨j, hj⟩ := mem_iff_getElem?.mp (hs ▸ hmem)
    rw [List.getElem?_modify] at hj
    obtain ⟨t, ht, rfl⟩ := Option.map_eq_some_iff.mp hj
    have htj : it.sequences[j]? = some t.prefixes := by
      rw [GeoSetInterner.sequences, List.getElem?_map, ht, Option.map_some]
    have hold := h.named_after t (mem_of_getElem? ht)
    by_cases hij : index = j
    · subst hij
      obtain rfl := Option.some.inj (hi.symm.trans htj)
      rw [if_pos rfl]
      exact hold.rename name
    · rw [if_neg hij]
      refine hold.keep fun (heq : seq = t.prefixes) => absurd ?_ hij
      exact (h.idxOf_eq hi).symm.trans (h.idxOf_eq (heq ▸ htj))

theorem store (hnew : seq ∉ it.sequences) (hs : it'.sets = it.sets ++ [geoSet name seq])
    (hb : it'.buckets = Function.update it.buckets (fp seq)
      (it.buckets (fp seq) ++ [it.sets.length]))
    (hp : it'.policies = (name, it.sets.length) :: it.policies) :
    Interned fp (nd ++ [(name, seq)]) it' := by
  have hse : it'.sequences = it.sequences ++ [seq] := by
    rw [GeoSetInterner.sequences, hs, map_append]
    rfl
  have hold : ∀ q ∈ it.sequences, it'.sequences.idxOf q = it.sequences.idxOf q := fun q hq => by
    rw [hse, idxOf_append_of_mem hq]
  have hlast : it'.sequences.idxOf seq = it.sets.length := by
    rw [hse, idxOf_append, if_neg hnew, idxOf_cons_self, Nat.zero_add]
    exact length_map _
  refine ⟨?_, ?_, ?_, ?_, ?_⟩
  · rw [hse]
    exact nodup_append.mpr ⟨h.distinct, nodup_singleton _, fun q hq _ hmem heq =>
      hnew (mem_singleton.mp hmem ▸ heq ▸ hq)⟩
  · intro q hq
    rw [hse, mem_append, mem_singleton] at hq
    rw [hb]
    rcases hq with hq | rfl
    · have hr := h.registered q hq
      rw [hold q hq]
      by_cases hf : fp q = fp seq
      · rw [hf] at hr ⊢
        rw [Function.update_self]
        exact mem_append_left _ hr
      · rwa [Function.update_of_ne hf]
    · rw [hlast, Function.update_self]
      simp
  · rw [hse, forall_mem_append, forall_mem_singleton]
    exact ⟨fun v hv => mem_append_left _ (h.stored v hv), by simp⟩
  · rw [hp, h.policies, map_append, reverse_append, map_singleton, hlast, reverse_singleton,
      singleton_append, cons_inj_right, reverse_inj]
    exact map_congr_left fun v hv => by rw [hold _ (h.stored v hv)]
  · rw [hs, forall_mem_append, forall_mem_singleton]
    refine ⟨fun s hmem => (h.named_after s hmem).keep fun (heq : seq = _) => ?_,
      rfl, (name, seq), by simp, rfl, rfl, fun w hw (heq : w.2 = seq) => ?_⟩
    · exact absurd (heq ▸ mem_map_of_mem hmem) hnew
    · rcases mem_append.mp hw with hw | hw
      · exact absurd (heq ▸ h.stored w hw) hnew
      · rw [mem_singleton.mp hw]

theorem intern : Interned fp (nd ++ [(name, seq)]) (it.intern name seq (fp seq)) := by
  have han : ∀ index, ((it.sets[index]?).any fun set : PrefixSet => set.prefixes = seq) = true ↔
      it.sequences[index]? = some seq := fun index => by
    rw [GeoSetInterner.sequences, List.getElem?_map]
    cases it.sets[index]? <;> simp
  unfold GeoSetInterner.intern
  cases hf : (it.buckets (fp seq)).find? fun index =>
      (it.sets[index]?).any fun set => set.prefixes = seq with
  | some index =>
    have hfo := List.find?_some hf
    exact h.reuse ((han index).mp hfo) rfl rfl rfl
  | none =>
    refine h.store (fun hmem => ?_) rfl rfl rfl
    -- a stored sequence is in its bucket, and the search would have found it
    exact List.find?_eq_none.mp hf _ (h.registered seq hmem) ((han _).mpr (getElem?_idxOf hmem))

end Interned

/-- **The invariant holds after the whole loop**, whatever the fingerprint. -/
theorem internAll_spec (fp : List Prefix → δ) (nd : List (String × List Prefix)) :
    Interned fp nd (internAll fp nd) := by
  unfold internAll
  induction nd using reverseRecOn with
  | nil => exact ⟨.nil, by simp [GeoSetInterner.sequences, GeoSetInterner.start], by simp, rfl,
      by simp [GeoSetInterner.start]⟩
  | append_singleton done v ih =>
    rw [foldl_append]
    exact ih.intern

/-! ## Bindings -/

theorem lookupID_of_mem {binds : List (String × String)} (hno : (binds.map Prod.fst).Nodup)
    {b : String × String} (hb : b ∈ binds) : lookupID binds b.1 = b.2 := by
  unfold lookupID
  cases hf : binds.find? (·.1 = b.1) with
  | none => simpa using List.find?_eq_none.mp hf b hb
  | some c =>
    have hc : c.1 = b.1 := by simpa using List.find?_some hf
    rw [inj_on_of_nodup_map hno (mem_of_find?_eq_some hf) hb hc]

theorem lookupID_of_not_mem {binds : List (String × String)}
    (hno : name ∉ binds.map Prod.fst) : lookupID binds name = "" := by
  have hf : binds.find? (·.1 = name) = none := by
    rw [List.find?_eq_none]
    exact fun b hb heq => hno (mem_map.mpr ⟨b, hb, of_decide_eq_true heq⟩)
  rw [lookupID, hf]

/-! ## The result as a function of the policies -/

/-- What the sets and bindings have to be for the policies `named`. Neither the fingerprint nor the
order of the policies occurs in it. -/
structure Shared (named : List (String × List Prefix)) (sets : List PrefixSet)
    (bindings : List (String × String)) : Prop where
  bound : ∀ v ∈ named, ∃ s ∈ sets, lookupID bindings v.1 = s.id ∧ s.prefixes = v.2
  unbound : ∀ name, (∀ v ∈ named, v.1 ≠ name) → lookupID bindings name = ""
  named_after : ∀ s ∈ sets, s.kind = .static ∧ ∃ v ∈ named, v.2 = s.prefixes ∧
    s.id = "geo/" ++ v.1 ∧ ∀ w ∈ named, w.2 = s.prefixes → v.1 ≤ w.1
  ordered : sets.Pairwise fun s t => s.id < t.id
  distinct : ∀ s ∈ sets, ∀ t ∈ sets, s.prefixes = t.prefixes → s = t

namespace Shared

variable {nd named' : List (String × List Prefix)} {sets sets' : List PrefixSet}
  {binds bindings' : List (String × String)}

section

variable (h : Shared nd sets binds)

include h

theorem id_inj {s t : PrefixSet} (hs : s ∈ sets) (ht : t ∈ sets) (hid : s.id = t.id) : s = t := by
  by_contra hne
  have hsy : Std.Symm fun s t : PrefixSet => s.id ≠ t.id := ⟨fun _ _ h => h.symm⟩
  exact (h.ordered.imp fun hlt => hlt.ne).forall hs ht hne hid

theorem same_iff {v w : String × List Prefix} (hv : v ∈ nd)
    (hw : w ∈ nd) : lookupID binds v.1 = lookupID binds w.1 ↔ v.2 = w.2 := by
  obtain ⟨s, hs, hsi, hsv⟩ := h.bound v hv
  obtain ⟨t, ht, hti, htw⟩ := h.bound w hw
  rw [hsi, hti, ← hsv, ← htw]
  constructor
  · intro hid
    rw [h.id_inj hs ht hid]
  · intro hse
    rw [h.distinct s hs t ht hse]

theorem subset (h' : Shared named' sets' bindings')
    (hmem : ∀ v, v ∈ nd ↔ v ∈ named') : sets ⊆ sets' := by
  intro s hs
  obtain ⟨hki, v, hv, hse, hid, hl⟩ := h.named_after s hs
  obtain ⟨t, ht, -, htv⟩ := h'.bound v ((hmem v).mp hv)
  obtain ⟨hk', w, hw, hs', hid', hl'⟩ := h'.named_after t ht
  have hvw : v.1 ≤ w.1 := hl w ((hmem w).mpr hw) (hs'.trans (htv.trans hse))
  have hwv : w.1 ≤ v.1 := hl' v ((hmem v).mp hv) htv.symm
  have hst : s = t := by
    obtain ⟨sid, skind, sprefixes⟩ := s
    obtain ⟨tid, tkind, tprefixes⟩ := t
    have hna : v.1 = w.1 := le_antisymm hvw hwv
    simp only at hki hk' hid hid' hse htv
    rw [hki, hk', hid, hid', hna, ← hse, htv]
  exact hst ▸ ht

/-- **The result is determined by the set of policies.** -/
theorem unique (h' : Shared named' sets' bindings') (hmem : ∀ v, v ∈ nd ↔ v ∈ named') :
    sets = sets' ∧ ∀ name, lookupID binds name = lookupID bindings' name := by
  have hse : sets = sets' := by
    have han : Std.Antisymm fun s t : PrefixSet => s.id < t.id :=
      ⟨fun _ _ hst hts => absurd hst hts.asymm⟩
    have hir : Std.Irrefl fun s t : PrefixSet => s.id < t.id := ⟨fun _ => lt_irrefl _⟩
    refine h.ordered.eq_of_mem_iff h'.ordered fun s => ⟨fun hs => ?_, fun hs => ?_⟩
    · exact h.subset h' hmem hs
    · exact h'.subset h (fun v => (hmem v).symm) hs
  subst hse
  refine ⟨rfl, fun name => ?_⟩
  by_cases hna : ∃ v ∈ nd, v.1 = name
  · obtain ⟨v, hv, rfl⟩ := hna
    obtain ⟨s, hs, hsi, hsv⟩ := h.bound v hv
    obtain ⟨t, ht, hti, htv⟩ := h'.bound v ((hmem v).mp hv)
    rw [hsi, hti, h.distinct s hs t ht (hsv.trans htv.symm)]
  · have hno : ∀ v ∈ nd, v.1 ≠ name := fun v hv heq => hna ⟨v, hv, heq⟩
    rw [h.unbound name hno, h'.unbound name fun v hv => hno v ((hmem v).mpr hv)]

end

end Shared

/-- **`compileGeoSets` shares**, whatever the fingerprint. -/
theorem compileGeoSets_shared (fp : List Prefix → δ) (hna : (nd.map Prod.fst).Nodup) :
    Shared nd (compileGeoSets fp nd).1 (compileGeoSets fp nd).2 := by
  have h := internAll_spec fp nd
  have hdi : ∀ s ∈ (internAll fp nd).sets, ∀ t ∈ (internAll fp nd).sets,
      s.prefixes = t.prefixes → s = t := fun s hs t ht => inj_on_of_nodup_map h.distinct hs ht
  have hbi : (compileGeoSets fp nd).2 = (nd.map fun v => (v.1, (((internAll fp nd).sets[
      (internAll fp nd).sequences.idxOf v.2]?).map (·.id)).getD "")).reverse := by
    unfold compileGeoSets
    dsimp only
    rw [h.policies, map_reverse, map_map]
    rfl
  have hke : (compileGeoSets fp nd).2.map Prod.fst = (nd.map Prod.fst).reverse := by
    rw [hbi, map_reverse, map_map]
    rfl
  refine ⟨fun v hv => ?_, fun name hno => ?_, fun s hs => h.named_after s (mem_sortSlice.mp hs), ?_,
    fun s hs t ht => hdi s (mem_sortSlice.mp hs) t (mem_sortSlice.mp ht)⟩
  · have hi := getElem?_idxOf (h.stored v hv)
    rw [GeoSetInterner.sequences, List.getElem?_map] at hi
    obtain ⟨s, hs, hse⟩ := Option.map_eq_some_iff.mp hi
    refine ⟨s, mem_sortSlice.mpr (mem_of_getElem? hs), ?_, hse⟩
    refine lookupID_of_mem (b := (v.1, s.id)) (hke ▸ nodup_reverse.mpr hna) ?_
    rw [hbi, mem_reverse]
    exact mem_map.mpr ⟨v, hv, by rw [GeoSetInterner.sequences, hs]; rfl⟩
  · refine lookupID_of_not_mem fun hmem => ?_
    rw [hke, mem_reverse] at hmem
    obtain ⟨v, hv, heq⟩ := mem_map.mp hmem
    exact hno v hv heq
  · have hso : (compileGeoSets fp nd).1.Pairwise fun s t => s.id ≤ t.id :=
      sortSlice_sorted (·.id) (fun _ _ => decide_eq_true_iff) (internAll fp nd).sets
    -- a policy names one set, so the IDs are distinct, before the sort and after it
    have hid : ((internAll fp nd).sets.map (·.id)).Nodup := by
      refine (nodup_map_iff_inj_on h.distinct.of_map).mpr fun s hs t ht hid => ?_
      obtain ⟨-, v, hv, hvs, hsv, -⟩ := h.named_after s hs
      obtain ⟨-, w, hw, hwt, htw, -⟩ := h.named_after t ht
      have hvw : v.1 = w.1 :=
        (String.append_right_inj "geo/").mp (hsv.symm.trans (hid.trans htw))
      refine hdi s hs t ht ?_
      rw [← hvs, ← hwt, inj_on_of_nodup_map hna hv hw hvw]
    have hne := ((sortSlice_perm (fun a b : PrefixSet => a.id < b.id) _).map (·.id)).nodup_iff.mpr hid
    exact hso.imp₂ (fun s t hle hne => lt_of_le_of_ne hle hne) (pairwise_map.mp hne)

end Perimeterd.Policy
