import Perimeterd.State.CompiledModel

/-!
# The layout without shared geo sets

What the compiler emitted when every policy had a geo set of its own, in whatever order the sets
were recorded. **It is accepted against today's model** (`unshared_accepted`): the two names a
policy's set has lead to the same prefixes, every other rule and set is the same in both layouts, and
every set of its own is named by a rule.
-/

namespace Perimeterd.State

open Lib Policy List

/-! ## The layout without sharing -/

/-- The geo sets of a family and their bindings when every policy has a set of its own. -/
def ownGeoSets (named : List (String × List Prefix)) : List PrefixSet × List (String × String) :=
  (named.map fun value => Policy.geoSet value.1 value.2,
   named.map fun value => (value.1, "geo/" ++ value.1))

/-- `Compile` as it was before sets were shared. -/
def compileUnshared (cfg : Config) (snapshot : Snapshot) : Except String Policy.State :=
  (compilePlans (layoutFamily ownGeoSets) cfg snapshot).mapError Refusal.text

/-- A plan with its sets in another order. -/
structure Reordered (plan original : FamilyPlan) : Prop where
  family : plan.family = original.family
  sets : plan.sets.Perm original.sets
  paths : plan.paths = original.paths

/-! ### Alike rules pass -/

section Complete

variable {A W : String → Option PrefixSet}

theorem compareSets_complete (seen : Seen) {a w : String}
    (h : (¬ (A a).any geoSet) ∨ Alias A W a w) :
    ∃ after, compareSets seen a w (A a) (W w) = some after ∧ seen.used ⊆ after.used ∧
      ((A a).any geoSet = true → a ∈ after.used) := by
  have hke : seen.used ⊆ a :: seen.used := subset_cons_self a seen.used
  rcases h with hp | ⟨s, t, hs, ht, hg, hg', hki, hpr⟩
  · refine ⟨seen, ?_, fun _ hid => hid, fun hg => absurd hg hp⟩
    cases hac : A a with
    | none => rfl
    | some s =>
      rw [hac] at hp
      exact if_pos (by simpa using hp)
  · rw [hs, ht]
    unfold compareSets
    dsimp only
    rw [if_neg (not_not.mpr hg), if_neg (not_not.mpr hg')]
    by_cases hmem : (a, w) ∈ seen.compared
    · rw [if_pos hmem]
      exact ⟨_, rfl, hke, fun _ => mem_cons_self⟩
    · rw [if_neg hmem, if_neg (not_not.mpr (sameSet_iff.mpr ⟨hki, hpr⟩))]
      exact ⟨_, rfl, hke, fun _ => mem_cons_self⟩

theorem sameRule_complete (seen : Seen) {rule exp : Rule} (h : Alike A W rule exp) :
    ∃ after, sameRule A W seen rule exp = some after ∧ seen.used ⊆ after.used ∧
      (rule.matching.setID ≠ "" → (A rule.matching.setID).any geoSet = true →
        rule.matching.setID ∈ after.used) := by
  have hids : ¬ (rule.matching.setID ≠ exp.matching.setID ∧
      ¬ ((A rule.matching.setID).any geoSet ∧ (W exp.matching.setID).any geoSet)) := by
    rintro ⟨hne, hno⟩
    rcases h.sets with ⟨heq, -⟩ | ⟨s, t, hs, ht, hg, hg', -⟩
    · exact hne heq
    · exact hno ⟨by simp [hs, hg], by simp [ht, hg']⟩
  unfold sameRule
  dsimp only
  rw [if_neg hids, relabel_eq, if_neg (not_not.mpr h.rest)]
  by_cases hid : rule.matching.setID = ""
  · rw [if_pos hid]
    exact ⟨seen, rfl, fun _ hmem => hmem, fun hne => absurd hid hne⟩
  · rw [if_neg hid]
    have hse : (¬ (A rule.matching.setID).any geoSet) ∨
        Alias A W rule.matching.setID exp.matching.setID := by
      rcases h.sets with ⟨-, hempty | hp⟩ | hal
      · exact absurd hempty hid
      · exact .inl hp
      · exact .inr hal
    obtain ⟨after, haf, hke, hu⟩ := compareSets_complete seen hse
    exact ⟨after, haf, hke, fun _ => hu⟩

theorem sameRules_complete (seen : Seen) {rules exp : List Rule}
    (h : List.Forall₂ (Alike A W) rules exp) :
    ∃ after, sameRules A W seen rules exp = some after ∧ seen.used ⊆ after.used ∧
      ∀ rule ∈ rules, rule.matching.setID ≠ "" → (A rule.matching.setID).any geoSet = true →
        rule.matching.setID ∈ after.used := by
  induction h generalizing seen with
  | nil => exact ⟨seen, rfl, fun _ hmem => hmem, nofun⟩
  | cons hal _ ih =>
    obtain ⟨mid, hmi, hke, hu⟩ := sameRule_complete seen hal
    obtain ⟨after, haf, hk', hu'⟩ := ih mid
    refine ⟨after, ?_, fun _ hmem => hk' (hke hmem), forall_mem_cons.mpr ⟨?_, hu'⟩⟩
    · rw [sameRules, hmi, Option.bind_some, haf]
    · exact fun hne hg => hk' (hu hne hg)

theorem samePaths_complete (seen : Seen) {paths exp : List Path}
    (h : List.Forall₂ (AlikePath A W) paths exp) :
    ∃ after, samePaths A W seen paths exp = some after ∧ seen.used ⊆ after.used ∧
      ∀ path ∈ paths, ∀ rule ∈ path.rules, rule.matching.setID ≠ "" →
        (A rule.matching.setID).any geoSet = true → rule.matching.setID ∈ after.used := by
  induction h generalizing seen with
  | nil => exact ⟨seen, rfl, fun _ hmem => hmem, nofun⟩
  | cons hal _ ih =>
    obtain ⟨mid, hmi, hke, hu⟩ := sameRules_complete seen hal.rules
    obtain ⟨after, haf, hk', hu'⟩ := ih mid
    refine ⟨after, ?_, fun _ hmem => hk' (hke hmem), forall_mem_cons.mpr ⟨?_, hu'⟩⟩
    · rw [samePaths, if_neg (not_not.mpr hal.rest), hmi, Option.bind_some, haf]
    · exact fun rule hru hne hg => hk' (hu rule hru hne hg)

theorem alike_fixed {sets want : List PrefixSet} {rule : Rule}
    (h : geoName rule.matching.setID = false) : Alike (setByID sets) (setByID want) rule rule :=
  ⟨withSet_self rule, .inl ⟨rfl, .inr (not_geo_of_id h)⟩⟩

end Complete

/-! ### The two layouts of a family -/

section Layout

variable {δ : Type} {c : FamilyInput δ}

/-- The family's plan in the layout without sharing. -/
def unshared (c : FamilyInput δ) : FamilyPlan :=
  layoutFamily ownGeoSets c.family c.allow c.block c.policies c.crowdsec c.deny

/-- The sets that are the same in both layouts. -/
def internalSets (c : FamilyInput δ) : List PrefixSet :=
  (if (c.allow.view c.family).prefixes.isEmpty then []
    else [⟨"global_allowlist", .static, (c.allow.view c.family).prefixes⟩]) ++
  (if (c.block.view c.family).prefixes.isEmpty then []
    else [⟨"global_blocklist", .static, (c.block.view c.family).prefixes⟩]) ++
  (if c.crowdsec then [⟨"crowdsec", .crowdsec, []⟩] else []) ++
  (if c.applicable.isEmpty then []
    else [⟨"geo_eligible", .static, (geoEligible c.family).prefixes⟩])

theorem unshared_sets : (unshared c).sets =
    internalSets c ++ c.named.map fun value => Policy.geoSet value.1 value.2 := rfl

theorem not_geoName_internal {s : PrefixSet} (hs : s ∈ internalSets c) : geoName s.id = false := by
  have ho : ∀ (b : Bool) (t : PrefixSet), geoName t.id = false →
      (s ∈ if b then [] else [t]) ∨ (s ∈ if b then [t] else []) → geoName s.id = false := by
    intro b t ht hs
    cases b <;> simp at hs <;> rw [hs] <;> exact ht
  simp only [internalSets, mem_append] at hs
  rcases hs with ((hs | hs) | hs) | hs
  · exact ho _ _ (show geoName "global_allowlist" = false by decide) (.inl hs)
  · exact ho _ _ (show geoName "global_blocklist" = false by decide) (.inl hs)
  · exact ho _ _ (show geoName "crowdsec" = false by decide) (.inr hs)
  · exact ho _ _ (show geoName "geo_eligible" = false by decide) (.inl hs)

theorem not_geo_internal {s : PrefixSet} (hs : s ∈ internalSets c) : geoSet s = false := by
  rw [geoSet, not_geoName_internal hs, Bool.and_false]

theorem lookupID_own (hna : (c.named.map Prod.fst).Nodup) {va : CompiledPolicy}
    (hva : va ∈ c.applicable) :
    lookupID (ownGeoSets c.named).2 va.policy.name = "geo/" ++ va.policy.name := by
  have hmem : (va.policy.name, "geo/" ++ va.policy.name) ∈ (ownGeoSets c.named).2 :=
    mem_map.mpr ⟨_, mem_map.mpr ⟨va, hva, rfl⟩, rfl⟩
  refine lookupID_of_mem ?_ hmem
  rwa [ownGeoSets, map_map]

theorem exists_scope {traffic : Config.TrafficScope} {family : Family}
    (h : policyApplies traffic family = true) : ∃ scope, policyScope traffic family = some scope := by
  unfold policyScope
  rw [h]
  dsimp only
  by_cases han : traffic.any = true
  · exact ⟨_, by simp [han]; rfl⟩
  · rw [Bool.not_eq_true] at han
    simp only [policyApplies, han, Bool.false_or, Bool.or_eq_true, Bool.not_eq_true'] at h
    simp only [han, Bool.not_true, Bool.false_eq_true, if_false]
    rw [if_neg]
    · exact ⟨_, rfl⟩
    · simp only [trafficRanges, isEmpty_map, Bool.and_eq_true, Bool.not_eq_true']
      rintro ⟨⟨htc, hu⟩, hic⟩
      rw [htc, hu, hic] at h
      simp at h

theorem names_own_set (hna : (c.named.map Prod.fst).Nodup) {va : CompiledPolicy}
    (hvalue : va ∈ c.applicable)
    (hdi : va.policy.direction = .ingress ∨ va.policy.direction = .egress) :
    ∃ path ∈ (unshared c).paths, ∃ rule ∈ path.rules,
      rule.matching.setID = "geo/" ++ va.policy.name := by
  have ho := lookupID_own hna hvalue
  obtain ⟨scope, hsc⟩ := exists_scope (mem_filter.mp hvalue).2
  have hru : ∀ d : Direction, va.policy.direction = d.word →
      ∃ rule ∈ policyRules d c.family (ownGeoSets c.named).2 c.deny va,
        rule.matching.setID = "geo/" ++ va.policy.name := by
    intro d hd
    unfold policyRules
    rw [if_neg (not_not.mpr hd), hsc]
    dsimp only
    split
    · exact ⟨_, mem_cons_self, ho⟩
    · exact ⟨_, mem_cons_self, ho⟩
  -- the policy's rules stand before the final one
  have hp : ∀ (d : Direction) (remote : RemoteField) (crowdsec : Bool),
      va.policy.direction = d.word →
      ∃ rule ∈ (compilePath d remote c.family (c.allow.view c.family) (c.block.view c.family)
        c.applicable (ownGeoSets c.named).2 crowdsec c.deny).rules,
        rule.matching.setID = "geo/" ++ va.policy.name := by
    intro d remote crowdsec hd
    obtain ⟨rule, hmem, hid⟩ := hru d hd
    exact ⟨rule, mem_append_left _ (mem_append_right _ (mem_flatMap.mpr ⟨va, hvalue, hmem⟩)), hid⟩
  rcases hdi with hd | hd
  · exact ⟨_, mem_cons_self, hp .ingress .source c.crowdsec hd⟩
  · exact ⟨_, mem_cons_of_mem _ mem_cons_self, hp .egress .destination false hd⟩

variable [DecidableEq δ]

theorem plan_sets : c.plan.sets =
    internalSets c ++ (compileGeoSets (c.fingerprint c.family) c.named).1 := rfl

theorem geoName_append (name : String) : geoName ("geo/" ++ name) = true := by
  rw [geoName, String.toList_append]
  exact isPrefixOf_iff_prefix.mpr (prefix_append _ _)

theorem geoSet_name (name : String) (prefixes : List Prefix) :
    geoSet ⟨"geo/" ++ name, .static, prefixes⟩ = true := by
  simp [geoSet, geoName_append]

theorem geo_compiled (hna : (c.named.map Prod.fst).Nodup) {s : PrefixSet}
    (hs : s ∈ (compileGeoSets (c.fingerprint c.family) c.named).1) : geoSet s = true := by
  obtain ⟨hst, v, -, -, hid, -⟩ :=
    (compileGeoSets_shared (c.fingerprint c.family) hna).named_after s hs
  simp [geoSet, hst, hid, geoName_append]

theorem distinct_plan (hna : (c.named.map Prod.fst).Nodup) : DistinctIDs c.plan.sets :=
  fun _ hs _ ht hid => FamilyInput.sets_unique hna ht hs hid

theorem distinct_unshared (hnam : (c.named.map Prod.fst).Nodup) :
    DistinctIDs (unshared c).sets := by
  have hin : ∀ s ∈ internalSets c, s ∈ c.plan.sets := fun s hs => by
    rw [plan_sets]
    exact mem_append_left _ hs
  have hmi : ∀ s ∈ internalSets c, ∀ v ∈ c.named, s.id ≠ "geo/" ++ v.1 := by
    intro s hs v _ hid
    have hna := not_geoName_internal hs
    rw [hid, geoName_append] at hna
    cases hna
  intro s hs t ht hid
  rw [unshared_sets] at hs ht
  rcases mem_append.mp hs with hs | hs <;> rcases mem_append.mp ht with ht | ht
  · exact distinct_plan hnam s (hin s hs) t (hin t ht) hid
  · obtain ⟨v, hv, rfl⟩ := mem_map.mp ht
    exact absurd hid (hmi s hs v hv)
  · obtain ⟨v, hv, rfl⟩ := mem_map.mp hs
    exact absurd hid.symm (hmi t ht v hv)
  · obtain ⟨v, hv, rfl⟩ := mem_map.mp hs
    obtain ⟨w, hw, rfl⟩ := mem_map.mp ht
    have hna : v.1 = w.1 := (String.append_right_inj "geo/").mp hid
    rw [inj_on_of_nodup_map hnam hv hw hna]

variable {sets : List PrefixSet}

theorem alias_policy (hna : (c.named.map Prod.fst).Nodup)
    (hse : sets.Perm (unshared c).sets) {v : CompiledPolicy} (hvalue : v ∈ c.applicable) :
    Alias (setByID sets) (setByID c.plan.sets) ("geo/" ++ v.policy.name)
      (lookupID c.bindings v.policy.name) := by
  have hnamed : (v.policy.name, (v.included.view c.family).prefixes) ∈ c.named :=
    mem_map.mpr ⟨v, hvalue, rfl⟩
  have hsh := compileGeoSets_shared (c.fingerprint c.family) hna
  obtain ⟨t, ht, hid, hp⟩ := hsh.bound _ hnamed
  have hd : DistinctIDs sets := fun s hs t ht hid =>
    distinct_unshared hna s (hse.subset hs) t (hse.subset ht) hid
  refine ⟨Policy.geoSet v.policy.name (v.included.view c.family).prefixes, t, ?_, ?_,
    geoSet_name _ _, geo_compiled hna ht, (hsh.named_after t ht).1.symm, hp.symm⟩
  · refine (setByID_eq_some hd).mpr ⟨hse.symm.subset ?_, rfl⟩
    rw [unshared_sets]
    exact mem_append_right _ (mem_map.mpr ⟨_, hnamed, rfl⟩)
  · refine (setByID_eq_some (distinct_plan hna)).mpr ⟨?_, hid.symm⟩
    rw [plan_sets]
    exact mem_append_right _ ht

theorem alike_policyRules (hna : (c.named.map Prod.fst).Nodup)
    (hse : sets.Perm (unshared c).sets) (d : Direction) {va : CompiledPolicy}
    (hvalue : va ∈ c.applicable) :
    List.Forall₂ (Alike (setByID sets) (setByID c.plan.sets))
      (policyRules d c.family (ownGeoSets c.named).2 c.deny va)
      (policyRules d c.family c.bindings c.deny va) := by
  have ho := lookupID_own hna hvalue
  have hal := alias_policy hna hse hvalue
  have hf : ∀ rule : Rule, rule.matching.setID = "" →
      Alike (setByID sets) (setByID c.plan.sets) rule rule := fun rule hid =>
    alike_fixed (by rw [hid]; rfl)
  unfold policyRules
  split
  · exact .nil
  · split
    · exact .nil
    · rw [ho]
      dsimp only
      split
      · exact .cons ⟨rfl, .inr hal⟩ (.cons (hf _ rfl) .nil)
      · exact .cons ⟨rfl, .inr hal⟩ (.cons (hf _ rfl) .nil)

theorem forall₂_flatMap {α β : Type} {R : β → β → Prop} {l : List α} {f g : α → List β}
    (h : ∀ a ∈ l, List.Forall₂ R (f a) (g a)) : List.Forall₂ R (l.flatMap f) (l.flatMap g) := by
  induction l with
  | nil => exact .nil
  | cons a l ih =>
    rw [flatMap_cons, flatMap_cons]
    exact rel_append (h a mem_cons_self) (ih fun b hb => h b (mem_cons_of_mem _ hb))

theorem alike_path (hna : (c.named.map Prod.fst).Nodup) (hse : sets.Perm (unshared c).sets)
    (d : Direction) (remote : RemoteField) (crowdsec : Bool) :
    AlikePath (setByID sets) (setByID c.plan.sets)
      (compilePath d remote c.family (c.allow.view c.family) (c.block.view c.family) c.applicable
        (ownGeoSets c.named).2 crowdsec c.deny)
      (compilePath d remote c.family (c.allow.view c.family) (c.block.view c.family) c.applicable
        c.bindings crowdsec c.deny) := by
  have hf : ∀ rules : List Rule,
      (∀ rule ∈ rules, geoName rule.matching.setID = false) →
      List.Forall₂ (Alike (setByID sets) (setByID c.plan.sets)) rules rules := fun rules h =>
    forall₂_same.mpr fun rule hru => alike_fixed (h rule hru)
  have ho : ∀ (b : Bool) (rule : Rule),
      geoName rule.matching.setID = false →
      List.Forall₂ (Alike (setByID sets) (setByID c.plan.sets)) (if b then [rule] else [])
        (if b then [rule] else []) := by
    intro b rule h
    apply hf
    cases b <;> simp [h]
  refine ⟨rfl, ?_⟩
  refine rel_append (rel_append (rel_append (rel_append (rel_append
    (rel_append (hf flowGuards (by decide)) (ho _ allowRule (by decide)))
    (ho _ (blockRule c.deny) (show geoName "global_blocklist" = false by decide)))
    (ho _ (crowdsecRule c.deny) (show geoName "crowdsec" = false by decide)))
    (ho _ eligibleRule (by decide))) ?_) (hf [finalRule] (by decide))
  exact forall₂_flatMap fun value hvalue => alike_policyRules hna hse d hvalue

/-- **One family.** The layout without sharing passes against the compiled one. -/
theorem sameCompiledFamily_unshared (hna : (c.named.map Prod.fst).Nodup) (hd : ∀ value ∈ c.policies,
      value.policy.direction = .ingress ∨ value.policy.direction = .egress) {plan : FamilyPlan}
    (h : Reordered plan (unshared c)) : sameCompiledFamily plan c.plan = true := by
  have hal : List.Forall₂ (AlikePath (setByID plan.sets) (setByID c.plan.sets)) plan.paths
      c.plan.paths := by
    rw [h.paths]
    exact .cons (alike_path hna h.sets .ingress .source c.crowdsec)
      (.cons (alike_path hna h.sets .egress .destination false) .nil)
  obtain ⟨after, haf, -, hu⟩ := samePaths_complete {} hal
  have hg : ∀ v ∈ c.named, geoSet (Policy.geoSet v.1 v.2) = true := fun v _ => geoSet_name v.1 v.2
  unfold sameCompiledFamily
  rw [haf]
  simp only [Bool.and_eq_true, all_eq_true, Bool.or_eq_true, decide_eq_true_eq,
    Bool.not_eq_true']
  refine ⟨⟨fun s hs => ?_, ?_⟩, fun s hs => ?_⟩
  · have hmem := h.sets.subset hs
    rw [unshared_sets] at hmem
    rcases mem_append.mp hmem with hs | hs
    · right
      refine (setByID_eq_some (distinct_plan hna)).mpr ⟨?_, rfl⟩
      rw [plan_sets]
      exact mem_append_left _ hs
    · obtain ⟨v, hv, rfl⟩ := mem_map.mp hs
      exact .inl (hg v hv)
  · -- neither layout has another set that is not a geo set
    have hno : ∀ sets : List PrefixSet, (∀ s ∈ sets, geoSet s = true) →
        sets.countP (!geoSet ·) = 0 := fun sets hall =>
      countP_eq_zero.mpr fun s hs => by simp [hall s hs]
    have ho : ∀ s ∈ c.named.map fun v => Policy.geoSet v.1 v.2, geoSet s = true := by
      intro s hs
      obtain ⟨v, hv, rfl⟩ := mem_map.mp hs
      exact hg v hv
    rw [h.sets.countP_eq, unshared_sets, plan_sets, countP_append, countP_append,
      hno _ fun s hs => geo_compiled hna hs, hno _ ho]
  · have hmem := h.sets.subset hs
    rw [unshared_sets] at hmem
    rcases mem_append.mp hmem with hs' | hs'
    · exact .inl (not_geo_internal hs')
    · right
      obtain ⟨v, hv, rfl⟩ := mem_map.mp hs'
      obtain ⟨value, hvalue, rfl⟩ := mem_map.mp hv
      obtain ⟨path, hp, rule, hru, hid⟩ := names_own_set hna hvalue (hd value (mem_filter.mp hvalue).1)
      obtain ⟨s, t, hf, -, his, -⟩ := alias_policy hna h.sets hvalue
      have hma := hu path (h.paths ▸ hp) rule hru
      rw [hid] at hma
      refine hma ?_ (by simp [hf, his])
      intro hempty
      simpa using congrArg String.toList hempty

end Layout

theorem sameCompiledFamilies_of_forall₂ {recorded compiled : List FamilyPlan}
    (h : List.Forall₂ (fun r w => r.family = w.family ∧ sameCompiledFamily r w = true) recorded
      compiled) : sameCompiledFamilies recorded compiled = true := by
  induction h with
  | nil => rfl
  | cons hh _ ih => simp [sameCompiledFamilies, hh.1, hh.2, ih]

theorem enabled_families {α : Type} (cfg : Config) (g : Family → α) :
    ((if cfg.firewall.enabled .ipv4 then [g .ipv4] else []) ++
      if cfg.firewall.enabled .ipv6 then [g .ipv6] else []) =
      ([Family.ipv4, .ipv6].filter cfg.firewall.enabled).map g := by
  cases h4 : cfg.firewall.enabled .ipv4 <;> cases h6 : cfg.firewall.enabled .ipv6 <;> simp [h4, h6]

/-- **The layout without sharing is accepted** for every configuration and snapshot that compile. -/
theorem unshared_accepted {δ : Type} [DecidableEq δ] {fp : Family → List Prefix → δ}
    {cfg : Config} {snapshot : Snapshot} {st : Policy.State}
    (h : compile fp cfg snapshot = .ok st) :
    ∃ own, compileUnshared cfg snapshot = .ok own ∧
      ∀ recorded, List.Forall₂ Reordered recorded own.families →
        sameCompiledFamilies recorded st.families = true := by
  obtain ⟨deny, hd, h⟩ := bind_eq_ok.mp (mapError_eq_ok.mp h)
  obtain ⟨allow, hal, h⟩ := bind_eq_ok.mp h
  obtain ⟨block, hbl, h⟩ := bind_eq_ok.mp h
  obtain ⟨pols, hp, h⟩ := bind_eq_ok.mp h
  let c : Compilation cfg snapshot := ⟨deny, allow, block, pols, hd,
    mapError_eq_ok.mp hal, mapError_eq_ok.mp hbl, hp⟩
  unfold compileUnshared compilePlans
  simp only [hd, hal, hbl, hp, bind, Except.bind, mapError_eq_ok] at h ⊢
  by_cases hidle : (pols.isEmpty && block.prefixes.isEmpty && !cfg.crowdsec.enabled) = true
  · rw [if_pos hidle] at h ⊢
    cases h
    refine ⟨⟨[]⟩, rfl, fun recorded hr => ?_⟩
    cases hr
    rfl
  · rw [if_neg hidle] at h ⊢
    have hsh := enabled_families cfg fun f =>
      compileFamily fp f allow block pols cfg.crowdsec.enabled deny
    have ho := enabled_families cfg fun f =>
      layoutFamily ownGeoSets f allow block pols cfg.crowdsec.enabled deny
    rw [hsh] at h
    rw [ho]
    obtain ⟨hsome, h⟩ := ite_throw_eq_ok.mp h
    cases h
    rw [if_neg (by simpa using hsome)]
    refine ⟨_, rfl, fun recorded hr => sameCompiledFamilies_of_forall₂ ?_⟩
    rw [forall₂_map_right_iff] at hr ⊢
    refine hr.imp fun plan f hr => ⟨hr.family, ?_⟩
    exact sameCompiledFamily_unshared (c := c.input fp f) (c.names fp f)
      (fun c hc => (compileLoop_each hp c hc).1) hr

/-- **Recorded models are behaviourally the compiled ones**, and the historical layout is among
those accepted. -/
theorem recorded_models_behave {δ : Type} [DecidableEq δ] (fingerprint : Family → List Prefix → δ) :
    (∀ recorded compiled : List FamilyPlan,
      (∀ plan ∈ recorded, DistinctIDs plan.sets) → (∀ plan ∈ recorded, NamesSets plan) →
      (∀ plan ∈ compiled, DistinctIDs plan.sets) → sameCompiledFamilies recorded compiled = true →
      ∀ family direction packet banned,
        verdict recorded family direction packet banned =
          verdict compiled family direction packet banned) ∧
    ∀ (cfg : Config) (snapshot : Snapshot) (st : Policy.State),
      compile fingerprint cfg snapshot = .ok st →
      ∃ own, compileUnshared cfg snapshot = .ok own ∧
        ∀ recorded, List.Forall₂ Reordered recorded own.families →
          sameCompiledFamilies recorded st.families = true :=
  ⟨fun _ _ hd hnamed hc h => sameCompiledFamilies_sound
    (fun plan hp => ⟨hd plan hp, hnamed plan hp⟩) hc h,
    fun _ _ _ h => unshared_accepted h⟩

/-- A plan that drops what comes from 10.0.0.0/8, with the given sets. -/
def lonePlan (sets : List PrefixSet) : FamilyPlan where
  family := .ipv4
  sets := sets
  paths :=
    [{ direction := .ingress, remote := .source, processed := .processed,
       rules := [{ matching := { setID := "geo/lan", traffic := anyScope }, action := .drop,
                   policy := "lan", counter := deniedCounter .geoPolicy .drop }] }]

theorem dangling_set_accepted :
    ∃ recorded compiled : List FamilyPlan,
      (∀ plan ∈ recorded, DistinctIDs plan.sets) ∧ (∀ plan ∈ compiled, DistinctIDs plan.sets) ∧
      sameCompiledFamilies recorded compiled = true ∧
      ∃ packet banned, verdict recorded .ipv4 .ingress packet banned ≠
        verdict compiled .ipv4 .ingress packet banned := by
  refine ⟨[lonePlan []], [lonePlan [Policy.geoSet "lan" [.v4 10 0 0 0 8]]], ?_, ?_, by decide,
    ⟨.new, .v4 10 0 0 1, .v4 192 0 2 1, .tcp, 443⟩, fun _ => false, by decide⟩
  · intro plan hp
    obtain rfl := mem_singleton.mp hp
    nofun
  · intro plan hp s hs t ht _
    obtain rfl := mem_singleton.mp hp
    rw [mem_singleton.mp hs, mem_singleton.mp ht]

end Perimeterd.State
