import Perimeterd.Policy.Compile

/-!
# What a compilation reads

`RequiredSelectors` tells the source layer what to fetch, and `Compile` later looks selectors up in
what was fetched. The two expand the configured selectors separately: one walks the policies in
configuration order and skips the disabled ones, the other in the order of priorities, after checks of
its own. `required_exact` says that they agree.

A failing compilation reports a text, and a policy's name can make the text of one error look like
that of another. The theorem therefore speaks of the `Refusal` behind the text, which
`compilePlans` keeps: with all required selectors present it is never `missing`.
-/

namespace Perimeterd.Policy

open Lib List

/-! ## The required selectors -/

/-- Both selectors of a policy expand, and to selectors of the list. -/
def Expands (required : List Selector) (p : Config.Policy) : Prop :=
  ∃ inc exc, selectorKeys p.included = .ok inc ∧ selectorKeys p.excluded = .ok exc ∧
    ∀ k, k ∈ inc ∨ k ∈ exc → k ∈ required

variable {s s' : Snapshot} {p : Config.Policy} {cfg : Config}

theorem Expands.mono {required required' : List Selector}
    (h : Expands required p) (hsu : required ⊆ required') : Expands required' p := by
  obtain ⟨inc, exc, hin, hexc, hmem⟩ := h
  exact ⟨inc, exc, hin, hexc, fun k hk => hsu (hmem k hk)⟩

theorem requiredLoop_spec {pols : List Config.Policy} :
    ∀ {i : Nat} {req : List Selector}, requiredLoop i pols = .ok req →
      (∀ p ∈ pols, enabled p = true → Expands req p) ∧
        ∀ k ∈ req, ∃ p ∈ pols, enabled p = true ∧
          (Selects p.included k ∨ Selects p.excluded k) := by
  induction pols with
  | nil =>
    intro i req h
    cases h
    simp
  | cons p rest ih =>
    intro i req h
    rw [requiredLoop] at h
    by_cases hmo : p.mode = .disabled
    · rw [if_pos hmo] at h
      obtain ⟨hre, hread⟩ := ih h
      refine ⟨forall_mem_cons.mpr ⟨fun hp => ?_, hre⟩, fun k hk => ?_⟩
      · simp [enabled, hmo] at hp
      · obtain ⟨q, hq, hk⟩ := hread k hk
        exact ⟨q, mem_cons_of_mem _ hq, hk⟩
    · rw [if_neg hmo] at h
      obtain ⟨inc, hin, h⟩ := bind_eq_ok.mp h
      obtain ⟨exc, hexc, h⟩ := bind_eq_ok.mp h
      obtain ⟨others, ho, h⟩ := bind_eq_ok.mp h
      obtain rfl := pure_eq_ok.mp h
      rw [mapError_eq_ok] at hin hexc
      obtain ⟨hre, hread⟩ := ih ho
      refine ⟨forall_mem_cons.mpr ⟨fun _ => ?_, fun q hq hon => ?_⟩, fun k hk => ?_⟩
      · refine ⟨inc, exc, hin, hexc, fun k hk => ?_⟩
        exact mem_append_left _ (mem_append.mpr hk)
      · exact (hre q hq hon).mono (subset_append_right _ _)
      · rw [mem_append, mem_append] at hk
        rcases hk with hk | hk
        · refine ⟨p, mem_cons_self, decide_eq_true hmo, ?_⟩
          rwa [← selectorKeys_spec hin, ← selectorKeys_spec hexc]
        · obtain ⟨q, hq, hk⟩ := hread k hk
          exact ⟨q, mem_cons_of_mem _ hq, hk⟩

theorem requiredSelectors_reads {req : List Selector} (h : requiredSelectors cfg = .ok req) :
    (∀ p ∈ cfg.policies, enabled p = true → Expands req p) ∧
      ∀ k ∈ req, ∃ p ∈ cfg.policies, enabled p = true ∧
        (Selects p.included k ∨ Selects p.excluded k) := by
  obtain ⟨ss, hss, h⟩ := bind_eq_ok.mp h
  obtain rfl := pure_eq_ok.mp h
  obtain ⟨hre, hread⟩ := requiredLoop_spec hss
  have hsa : ∀ k, k ∈ sortSlice Selector.less ss.dedup ↔ k ∈ ss := by
    intro k
    rw [mem_sortSlice, mem_dedup]
  exact ⟨fun p hp hon => (hre p hp hon).mono fun k hk => (hsa k).mpr hk,
    fun k hk => hread k ((hsa k).mp hk)⟩

/-! ## Looking selectors up -/

section Collect

variable {pol category : String} {s s' : Snapshot}

theorem collect_congr : ∀ {ks : List Selector}, (∀ k ∈ ks, s.lookup k = s'.lookup k) →
    snapshotUnion.collect pol category s ks = snapshotUnion.collect pol category s' ks
  | [], _ => rfl
  | k :: ks, h => by
    rw [forall_mem_cons] at h
    rw [snapshotUnion.collect, snapshotUnion.collect, h.1, collect_congr h.2]

theorem snapshotUnion_congr {ks : List Selector} (h : ∀ k ∈ ks, s.lookup k = s'.lookup k) :
    snapshotUnion pol category ks s = snapshotUnion pol category ks s' := by
  unfold snapshotUnion
  rw [collect_congr h]

end Collect

/-! ## Why a compilation fails -/

section Missing

variable {name category : String} {k : Selector}

/-- An enabled policy of the list refers to a selector that the snapshot does not have. -/
def Lacks (policies : List Config.Policy) (s : Snapshot) (k : Selector) : Prop :=
  s.lookup k = none ∧ ∃ p ∈ policies, enabled p = true ∧
    (Selects p.included k ∨ Selects p.excluded k)

theorem snapshotUnion_error {pol category' : String} {ks : List Selector}
    (h : snapshotUnion pol category' ks s = .error (.missing name category k)) :
    k ∈ ks ∧ s.lookup k = none := by
  obtain ⟨sets, -, hr⟩ | ⟨k', hk, hno, hr⟩ := snapshotUnion_cases s pol category' ks
  · cases h.symm.trans hr
  · cases h.symm.trans hr
    exact ⟨hk, hno⟩

theorem effectiveSet_missing (hon : enabled p = true)
    (h : effectiveSet p s = .error (.missing name category k)) : Lacks [p] s k := by
  rcases bind_eq_error.mp h with h | ⟨inc, hin, h⟩
  · obtain ⟨e', -, he⟩ := mapError_eq_error.mp h
    cases he
  rcases bind_eq_error.mp h with h | ⟨exc, hexc, h⟩
  · obtain ⟨e', -, he⟩ := mapError_eq_error.mp h
    cases he
  rw [mapError_eq_ok] at hin hexc
  rcases bind_eq_error.mp h with h | ⟨included, -, h⟩
  · obtain ⟨hk, hno⟩ := snapshotUnion_error h
    exact ⟨hno, p, mem_singleton_self p, hon, .inl ((selectorKeys_spec hin k).mp hk)⟩
  rcases bind_eq_error.mp h with h | ⟨excluded, -, h⟩
  · obtain ⟨hk, hno⟩ := snapshotUnion_error h
    exact ⟨hno, p, mem_singleton_self p, hon, .inr ((selectorKeys_spec hexc k).mp hk)⟩
  rcases ite_throw_eq_error.mp h with ⟨-, he⟩ | ⟨-, h⟩
  · cases he
  · cases h

theorem Lacks.mono {policies policies' : List Config.Policy} (h : Lacks policies s k)
    (hsu : policies ⊆ policies') : Lacks policies' s k := by
  obtain ⟨hno, p, hp, hre⟩ := h
  exact ⟨hno, p, hsu hp, hre⟩

theorem compileLoop_missing {vs : List Config.Policy} :
    ∀ {names : List String} {taken : List TakenPriority},
      compileLoop s names taken vs = .error (.missing name category k) → Lacks vs s k := by
  induction vs with
  | nil =>
    intro names taken h
    cases h
  | cons p rest ih =>
    intro names taken h
    rw [compileLoop] at h
    split at h
    · cases h
    split at h
    · cases h
    split at h
    · cases h
    cases hm : p.mode with
    | disabled =>
      rw [hm] at h
      exact (ih h).mono (subset_cons_self p rest)
    | other text =>
      rw [hm] at h
      cases h
    | allowlist | blocklist =>
      rw [hm] at h
      rcases bind_eq_error.mp h with h | ⟨included, -, h⟩
      · exact (effectiveSet_missing (by simp [enabled, hm]) h).mono
          (cons_subset_cons p (nil_subset rest))
      · rcases bind_eq_error.mp h with h | ⟨tail, -, h⟩
        · exact (ih h).mono (subset_cons_self p rest)
        · cases h

variable {layout : Family → Prefix.Set → Prefix.Set → List CompiledPolicy → Bool → Action →
  FamilyPlan}

/-- **A compilation fails for a missing selector only if one is missing.** -/
theorem compilePlans_missing (h : compilePlans layout cfg s = .error (.missing name category k)) :
    Lacks cfg.policies s k := by
  rcases bind_eq_error.mp h with h | ⟨deny, -, h⟩
  · cases hd : cfg.firewall.denyAction <;> rw [hd] at h <;> cases h
  rcases bind_eq_error.mp h with h | ⟨allow, -, h⟩
  · obtain ⟨e', -, he⟩ := mapError_eq_error.mp h
    cases he
  rcases bind_eq_error.mp h with h | ⟨block, -, h⟩
  · obtain ⟨e', -, he⟩ := mapError_eq_error.mp h
    cases he
  rcases bind_eq_error.mp h with h | ⟨pols, -, h⟩
  · exact (compileLoop_missing h).mono fun p hp => mem_sortSlice.mp hp
  split at h
  · cases h
  rcases ite_throw_eq_error.mp h with ⟨-, he⟩ | ⟨-, h⟩
  · cases he
  · cases h

end Missing

/-! ## Agreement -/

theorem effectiveSet_congr {req : List Selector}
    (hp : Expands req p) (h : ∀ k ∈ req, s.lookup k = s'.lookup k) :
    effectiveSet p s = effectiveSet p s' := by
  obtain ⟨inc, exc, hin, hexc, hmem⟩ := hp
  have hi : ∀ k ∈ inc, s.lookup k = s'.lookup k := fun k hk => h k (hmem k (.inl hk))
  have he : ∀ k ∈ exc, s.lookup k = s'.lookup k := fun k hk => h k (hmem k (.inr hk))
  unfold effectiveSet
  rw [hin, hexc]
  simp only [Except.mapError, bind, Except.bind, snapshotUnion_congr hi, snapshotUnion_congr he]

theorem compileLoop_congr {values : List Config.Policy} :
    (∀ p ∈ values, enabled p = true → effectiveSet p s = effectiveSet p s') →
      ∀ (names : List String) (taken : List TakenPriority),
        compileLoop s names taken values = compileLoop s' names taken values := by
  induction values with
  | nil => exact fun _ _ _ => rfl
  | cons p rest ih =>
    intro h names taken
    rw [forall_mem_cons] at h
    simp only [compileLoop, ih h.2]
    cases hm : p.mode with
    | disabled | other => rfl
    | allowlist | blocklist => rw [h.1 (by simp [enabled, hm])]

variable {δ : Type} [DecidableEq δ]

theorem compile_congr (h : compilePolicies cfg.policies s = compilePolicies cfg.policies s')
    (fp : Family → List Prefix → δ) : compile fp cfg s = compile fp cfg s' := by
  unfold compile compilePlans
  rw [h]

theorem effectiveSet_found {p : Config.Policy} {set : Prefix.Set} (h : effectiveSet p s = .ok set)
    {k : Selector} (hk : Selects p.included k ∨ Selects p.excluded k) : s.lookup k ≠ none := by
  obtain ⟨inc, hinc, h⟩ := bind_eq_ok.mp h
  obtain ⟨exc, hexc, h⟩ := bind_eq_ok.mp h
  obtain ⟨incSet, hin, h⟩ := bind_eq_ok.mp h
  obtain ⟨excSet, hexcS, -⟩ := bind_eq_ok.mp h
  rw [mapError_eq_ok] at hinc hexc
  have hfound : ∀ {category : String} {ks : List Selector} {set : Prefix.Set},
      snapshotUnion p.name category ks s = .ok set → k ∈ ks → s.lookup k ≠ none := by
    intro category ks set h hk
    obtain ⟨sets, hl, -⟩ := snapshotUnion_ok h
    obtain ⟨t, -, ht⟩ := mem_map.mp (hl ▸ mem_map_of_mem hk)
    rw [← ht]
    exact Option.some_ne_none t
  rcases hk with hk | hk
  · exact hfound hin ((selectorKeys_spec hinc k).mpr hk)
  · exact hfound hexcS ((selectorKeys_spec hexc k).mpr hk)

/-- **The required selectors are exactly what a compilation reads.** Snapshots that agree on them
compile to the same result; with all of them present no compilation fails for a missing selector; with
one of them missing every compilation fails. -/
theorem required_exact (fingerprint : Family → List Prefix → δ) (cfg : Config)
    (required : List Selector) (h : requiredSelectors cfg = .ok required) :
    (∀ s s' : Snapshot, (∀ k ∈ required, s.lookup k = s'.lookup k) →
      compile fingerprint cfg s = compile fingerprint cfg s') ∧
    (∀ s : Snapshot, (∀ k ∈ required, s.lookup k ≠ none) →
      ∀ e, compile fingerprint cfg s = .error e →
        ∃ r : Refusal, compilePlans (compileFamily fingerprint) cfg s = .error r ∧ r.text = e ∧
          ∀ name category k, r ≠ .missing name category k) ∧
    ∀ s : Snapshot, (∃ k ∈ required, s.lookup k = none) →
      ∃ e, compile fingerprint cfg s = .error e := by
  obtain ⟨hrea, hread⟩ := requiredSelectors_reads h
  refine ⟨fun s s' hag => ?_, fun s hpr e he => ?_, fun s hl => ?_⟩
  · refine compile_congr (compileLoop_congr (fun p hp hon => ?_) [] []) fingerprint
    exact effectiveSet_congr (hrea p (mem_sortSlice.mp hp) hon) hag
  · obtain ⟨r, hr, hte⟩ := mapError_eq_error.mp he
    refine ⟨r, hr, hte, ?_⟩
    rintro name category k rfl
    obtain ⟨hno, p, hp, hon, hre⟩ := compilePlans_missing hr
    obtain ⟨inc, exc, hin, hexc, hmem⟩ := hrea p hp hon
    refine hpr k (hmem k ?_) hno
    rwa [selectorKeys_spec hin, selectorKeys_spec hexc]
  · obtain ⟨k, hk, hno⟩ := hl
    obtain ⟨p, hp, hon, hre⟩ := hread k hk
    cases hc : compile fingerprint cfg s with
    | error e => exact ⟨e, rfl⟩
    | ok state =>
      obtain ⟨deny, -, hc⟩ := bind_eq_ok.mp (mapError_eq_ok.mp hc)
      obtain ⟨allow, -, hc⟩ := bind_eq_ok.mp hc
      obtain ⟨block, -, hc⟩ := bind_eq_ok.mp hc
      obtain ⟨pols, hpo, -⟩ := bind_eq_ok.mp hc
      obtain ⟨set, hse⟩ := compileLoop_effectiveSet hpo (mem_sortSlice.mpr hp) hon
      exact absurd hno (effectiveSet_found hse hre)

/-- Two autonomous systems without a third, and a disabled policy that needs nothing. -/
def selectingConfig : Config where
  firewall := {}
  global := {}
  crowdsec := {}
  policies :=
    [{ name := "networks", priority := 1, direction := .ingress, mode := .blocklist
       traffic := { any := true }, included := { asns := ["AS64500", "AS64501"] }
       excluded := { asns := ["AS64502"] } },
     { name := "unused", priority := 1, direction := .egress, mode := .disabled
       traffic := { any := true }, included := { ipLists := ["elsewhere"] } }]

theorem required_exact_partly : ∃ e, compile (fun _ _ => ()) selectingConfig
    ⟨[(⟨.asn, "AS64500"⟩, .empty), (⟨.asn, "AS64501"⟩, .empty)]⟩ = .error e :=
  (required_exact (fun _ _ => ()) selectingConfig
    [⟨.asn, "AS64500"⟩, ⟨.asn, "AS64501"⟩, ⟨.asn, "AS64502"⟩] (by decide +kernel)).2.2 _
      ⟨⟨.asn, "AS64502"⟩, by decide, rfl⟩

end Perimeterd.Policy
