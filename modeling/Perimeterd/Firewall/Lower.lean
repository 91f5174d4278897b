import Perimeterd.Firewall.Dynamic

/-!
# Prefixes for ipsets

`loweredIPTTimedPrefixes` and `loweredIPTPrefixes` of `internal/firewall/iptables_model.go`. A
`hash:net` set takes no prefix of length zero, so the whole space of a family goes in as its two
halves. What is in the result already is not appended again: a prefix given twice would keep its first
deadline. Prefixes that do not overlap are never given twice, also after the split, so that lowering
keeps coverage and deadlines (`lowered_exact`).
-/

namespace Perimeterd.Firewall

open Lib Policy List

/-- The halves of the space of a family. -/
def halves : Family → List Prefix
  | .ipv4 => [.v4 0 0 0 0 1, .v4 128 0 0 0 1]
  | .ipv6 => [.v6 0 0 0 1, .v6 0x8000 0 0 1]

/-- The prefixes that go in for a prefix of the family. -/
def loweredPrefix (family : Family) (p : Prefix) : List Prefix :=
  if p.bits = 0 then halves family else [p.masked]

section Lowered

variable {α : Type} (view : α → Prefix) (put : α → Prefix → α)

/-- `appendPrefix`: the prefixes in `seen` are those of the result. -/
def appendPrefix (result : List α) (value : α) : List α :=
  if view value ∈ result.map view then result else result ++ [value]

/-- The loop and the sort of both functions, once the other family is out. -/
def lowered (family : Family) (values : List α) : List α :=
  sortSlice (fun a b => comparePrefixes (view a) (view b) = .lt)
    ((values.flatMap fun v => (loweredPrefix family (view v)).map (put v)).foldl
      (appendPrefix view) [])

end Lowered

/-- `loweredIPTTimedPrefixes`: prefixes of the other family are left out. -/
def loweredIPTTimedPrefixes (values : List TimedPrefix) (family : Family) : List TimedPrefix :=
  lowered TimedPrefix.pfx (fun v p => { v with pfx := p }) family
    (values.filter (·.pfx.addr.family = family))

/-- `loweredIPTPrefixes`: prefixes of the other family are refused. -/
def loweredIPTPrefixes (prefixText : Prefix → String) (values : List Prefix) (family : Family) :
    Except String (List Prefix) :=
  match values.find? (·.addr.family ≠ family) with
  | some p =>
      .error ((match family with | .ipv4 => "IPv4" | .ipv6 => "IPv6") ++ " set contains " ++
        prefixText p)
  | none => .ok (lowered id (fun _ p => p) family values)

/-! ## Coverage -/

theorem halves_contain {f : Family} {a : Addr} :
    (∃ q ∈ halves f, q.contains a = true) ↔ a.family = f := by
  have hlt := a.lt
  by_cases hf : a.family = f
  · subst hf
    cases hf : a.family <;> rw [hf] at hlt <;>
      simp [halves, Prefix.contains, Prefix.host, Prefix.v4, Prefix.v6, Addr.v4, Addr.v6,
        Family.width, hf] at hlt ⊢ <;> omega
  · cases f <;> simp [halves, Prefix.contains, Prefix.v4, Prefix.v6, Addr.v4, Addr.v6, hf, Ne.symm hf]

theorem halves_apart (f : Family) : (halves f).Pairwise (fun p q => p.overlaps q = false) ∧
    ∀ q ∈ halves f, q.bits ≠ 0 := by
  cases f <;> decide +kernel

variable {f : Family} {p q : Prefix} {a : Addr}

theorem loweredPrefix_contains (hp : p.addr.family = f) :
    (∃ q ∈ loweredPrefix f p, q.contains a = true) ↔ p.contains a = true := by
  unfold loweredPrefix
  split
  case isTrue hz =>
    have hlt := hp ▸ p.addr.lt
    rw [halves_contain, Prefix.contains, Prefix.host, hz, hp, Nat.sub_zero, Nat.div_eq_of_lt hlt]
    by_cases hf : a.family = f
    · simp [hf, Nat.div_eq_of_lt (hf ▸ a.lt)]
    · simp [hf, Ne.symm hf]
  case isFalse => simp [Prefix.contains_iff]

theorem loweredPrefix_apart (f : Family) (p : Prefix) :
    (loweredPrefix f p).Pairwise (fun q r => q.overlaps r = false) ∧
      ∀ q ∈ loweredPrefix f p, q.bits ≠ 0 := by
  unfold loweredPrefix
  split
  case isTrue => exact halves_apart f
  case isFalse hz => exact ⟨pairwise_singleton _ _, by simpa using hz⟩

section Lowered

variable {α : Type} {view : α → Prefix} {put : α → Prefix → α} {l result values : List α}

theorem foldl_appendPrefix (h : ((result ++ l).map view).Nodup) :
    l.foldl (appendPrefix view) result = result ++ l := by
  induction l generalizing result with
  | nil => exact (append_nil _).symm
  | cons a l ih =>
    rw [append_cons] at h
    have hno : view a ∉ result.map view := by
      rw [map_append, map_append, append_assoc, nodup_append] at h
      exact fun hin => h.2.2 _ hin _ mem_cons_self rfl
    rw [foldl_cons, appendPrefix, if_neg hno, ih h, append_assoc, singleton_append]

variable (view put) in
/-- **What lowering makes of prefixes of one family that do not overlap**: what else is known of a
value (`Q`) goes with its addresses. -/
theorem lowered_spec (hput : ∀ v p, view (put v p) = p)
    (hf : ∀ v ∈ values, (view v).addr.family = f)
    (hap : values.Pairwise fun v w => (view v).overlaps (view w) = false) :
    (∀ w ∈ lowered view put f values, (view w).bits ≠ 0) ∧
    ((lowered view put f values).Pairwise fun v w => (view v).addr.compare (view w).addr = .lt) ∧
    ∀ (Q : α → Prop) (_ : ∀ v p, Q (put v p) ↔ Q v) (a : Addr),
      (∃ w ∈ lowered view put f values, (view w).contains a = true ∧ Q w) ↔
        ∃ v ∈ values, (view v).contains a = true ∧ Q v := by
  set l := values.flatMap fun v => (loweredPrefix f (view v)).map (put v) with hl
  have hno : l.Pairwise fun v w => (view v).overlaps (view w) = false := by
    refine pairwise_flatMap.mpr ⟨fun v _ => ?_, hap.imp_of_mem fun {v w} hv hw h => ?_⟩
    · simpa [pairwise_map, hput] using (loweredPrefix_apart f (view v)).1
    · rw [forall_mem_map]
      refine fun q hq => forall_mem_map.mpr fun r hr => ?_
      rw [hput, hput, Bool.eq_false_iff, ne_eq, Prefix.overlaps_common]
      rintro ⟨a, hqa, hra⟩
      refine Bool.eq_false_iff.mp h (Prefix.overlaps_common.mpr ⟨a, ?_, ?_⟩)
      · exact (loweredPrefix_contains (hf v hv)).mp ⟨q, hq, hqa⟩
      · exact (loweredPrefix_contains (hf w hw)).mp ⟨r, hr, hra⟩
  have hfold : l.foldl (appendPrefix view) [] = l := by
    refine foldl_appendPrefix (pairwise_map.mpr (hno.imp fun {v w} h heq => ?_))
    rw [heq, Bool.eq_false_iff] at h
    exact h (Prefix.overlaps_of_mem (view w).addr_mem (view w).addr_mem)
  have hmem : ∀ w, w ∈ lowered view put f values ↔
      ∃ v ∈ values, ∃ q ∈ loweredPrefix f (view v), put v q = w := fun w => by
    rw [lowered, ← hl, hfold, mem_sortSlice, hl]
    simp
  refine ⟨fun w hw => ?_, ?_, fun Q hQ a => ⟨?_, ?_⟩⟩
  · obtain ⟨v, -, q, hq, rfl⟩ := (hmem w).mp hw
    rw [hput]
    exact (loweredPrefix_apart f (view v)).2 q hq
  · have hso := sortSlice_sorted (fun v => (view v).key)
      (fun v w => decide_eq_true_iff.trans (comparePrefixes_lt (p := view v) (q := view w))) l
    have hno' := (sortSlice_perm (fun a b => decide (comparePrefixes (view a) (view b) = .lt))
      l).symm.pairwise hno fun {v w} h => by rwa [Prefix.overlaps_comm]
    rw [lowered, ← hl, hfold]
    refine (hso.and hno').imp fun {v w} h => Addr.compare_lt.mpr (lt_of_le_of_ne ?_ fun heq => ?_)
    · exact Prefix.point_le_of_key h.1
    · exact Bool.eq_false_iff.mp h.2
        (Prefix.overlaps_of_mem (view v).addr_mem (heq ▸ (view w).addr_mem))
  · rintro ⟨w, hw, ha, hq⟩
    obtain ⟨v, hv, q, hmq, rfl⟩ := (hmem w).mp hw
    exact ⟨v, hv, (loweredPrefix_contains (hf v hv)).mp ⟨q, hmq, hput v q ▸ ha⟩, (hQ v q).mp hq⟩
  · rintro ⟨v, hv, ha, hq⟩
    obtain ⟨q, hmq, hqa⟩ := (loweredPrefix_contains (hf v hv)).mpr ha
    exact ⟨_, (hmem _).mpr ⟨v, hv, q, hmq, rfl⟩, (hput v q).symm ▸ hqa, (hQ v q).mpr hq⟩

end Lowered

/-- **Lowering keeps coverage and deadlines.** For prefixes that do not overlap, no prefix of the
lowered list has length zero, the list ascends strictly, so that it has no prefix twice, and the
addresses of the family are in it with the deadlines they had. Untimed prefixes are lowered when all
of them are of the family. -/
theorem lowered_exact (family : Family) :
    (∀ values : List TimedPrefix, (values.Pairwise fun v w => v.pfx.overlaps w.pfx = false) →
      (∀ w ∈ loweredIPTTimedPrefixes values family, w.pfx.bits ≠ 0) ∧
      ((loweredIPTTimedPrefixes values family).Pairwise fun v w =>
        v.pfx.addr.compare w.pfx.addr = .lt) ∧
      ∀ a deadline, (∃ w ∈ loweredIPTTimedPrefixes values family,
          w.pfx.contains a = true ∧ w.deadline = deadline) ↔
        a.family = family ∧ ∃ v ∈ values, v.pfx.contains a = true ∧ v.deadline = deadline) ∧
    ∀ (prefixText : Prefix → String) (values : List Prefix),
      (values.Pairwise fun p q => p.overlaps q = false) →
      ((∃ result, loweredIPTPrefixes prefixText values family = .ok result) ↔
        ∀ p ∈ values, p.addr.family = family) ∧
      ∀ result, loweredIPTPrefixes prefixText values family = .ok result →
        (∀ q ∈ result, q.bits ≠ 0) ∧
        (result.Pairwise fun p q => p.addr.compare q.addr = .lt) ∧
        ∀ a, Prefix.Covered result a ↔ Prefix.Covered values a := by
  constructor
  · intro values hap
    have hf : ∀ v ∈ values.filter (·.pfx.addr.family = family), v.pfx.addr.family = family :=
      fun v hv => by simpa using (mem_filter.mp hv).2
    obtain ⟨hz, hso, hmem⟩ := lowered_spec TimedPrefix.pfx (fun v p => { v with pfx := p })
      (fun _ _ => rfl) hf (hap.sublist filter_sublist)
    refine ⟨hz, hso, fun a d => (hmem (·.deadline = d) (fun _ _ => Iff.rfl) a).trans ?_⟩
    simp only [mem_filter, decide_eq_true_eq]
    constructor
    · rintro ⟨v, ⟨hv, hfam⟩, ha, hd⟩
      exact ⟨(Prefix.contains_family ha).symm.trans hfam, v, hv, ha, hd⟩
    · rintro ⟨hfam, v, hv, ha, hd⟩
      exact ⟨v, ⟨hv, (Prefix.contains_family ha).trans hfam⟩, ha, hd⟩
  · intro prefixText values hap
    unfold loweredIPTPrefixes
    cases hfi : values.find? (·.addr.family ≠ family) with
    | some p =>
      have hp := List.find?_some hfi
      refine ⟨⟨fun h => ?_, fun h => ?_⟩, fun _ h => ?_⟩
      · obtain ⟨_, h⟩ := h
        cases h
      · simp [h p (mem_of_find?_eq_some hfi)] at hp
      · cases h
    | none =>
      have hf : ∀ p ∈ values, p.addr.family = family := by simpa using hfi
      refine ⟨⟨fun _ => hf, fun _ => ⟨_, rfl⟩⟩, fun _ h => ?_⟩
      cases h
      obtain ⟨hz, hso, hmem⟩ := lowered_spec id (fun _ p => p) (fun _ _ => rfl) hf hap
      exact ⟨hz, hso, fun a => by simpa [Prefix.Covered] using hmem (fun _ => True) (fun _ _ => Iff.rfl) a⟩

end Perimeterd.Firewall
