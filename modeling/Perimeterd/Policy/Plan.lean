import Perimeterd.Policy.Meaning

/-!
# What a plan is made of

The sets and the rules of a compiled family, by origin. A plan holds a handful of fixed sets and rules,
each present on a condition of its own, and what the policies bring: their shared sets, and two rules
for each.
-/

namespace Perimeterd.Policy

open Lib List

namespace FamilyInput

variable {δ : Type} [DecidableEq δ] {c : FamilyInput δ}

theorem geo_set (hna : (c.named.map Prod.fst).Nodup) {s : PrefixSet}
    (hs : s ∈ (compileGeoSets (c.fingerprint c.family) c.named).1) :
    s.kind = .static ∧ ∃ value ∈ c.applicable, s.id = "geo/" ++ value.policy.name ∧
      s.prefixes = (value.included.view c.family).prefixes := by
  obtain ⟨hki, v, hv, hse, hid, -⟩ :=
    (compileGeoSets_shared (c.fingerprint c.family) hna).named_after s hs
  obtain ⟨value, hvalue, rfl⟩ := mem_map.mp hv
  exact ⟨hki, value, hvalue, hid, hse.symm⟩

theorem bound_set (hna : (c.named.map Prod.fst).Nodup) {v : CompiledPolicy}
    (hvalue : v ∈ c.applicable) :
    ∃ s ∈ (compileGeoSets (c.fingerprint c.family) c.named).1,
      lookupID c.bindings v.policy.name = s.id := by
  have hnamed : (v.policy.name, (v.included.view c.family).prefixes) ∈ c.named :=
    mem_map.mpr ⟨v, hvalue, rfl⟩
  obtain ⟨s, hs, hid, -⟩ := (compileGeoSets_shared (c.fingerprint c.family) hna).bound _ hnamed
  exact ⟨s, hs, hid⟩

theorem mem_paths {path : Path} : path ∈ c.plan.paths ↔ ∃ d, path = c.path d := by
  change path ∈ [c.path .ingress, c.path .egress] ↔ _
  simp only [mem_cons, not_mem_nil, or_false]
  constructor
  · rintro (h | h)
    · exact ⟨_, h⟩
    · exact ⟨_, h⟩
  · rintro ⟨d, rfl⟩
    cases d
    · exact .inl rfl
    · exact .inr rfl

/-- **The rules of a path, by origin**, each with its condition. -/
theorem mem_rules {d : Direction} {rule : Rule} : rule ∈ (c.path d).rules ↔
    rule ∈ flowGuards ∨
    (¬ (c.allow.view c.family).prefixes.isEmpty ∧ rule = allowRule) ∨
    (¬ (c.block.view c.family).prefixes.isEmpty ∧ rule = blockRule c.deny) ∨
    ((c.crowdsec = true ∧ d = .ingress) ∧ rule = crowdsecRule c.deny) ∨
    ((∃ value ∈ c.applicable, value.policy.direction = d.word) ∧ rule = eligibleRule) ∨
    (∃ value ∈ c.applicable, rule ∈ policyRules d c.family c.bindings c.deny value) ∨
    rule = finalRule := by
  simp only [path, compilePath, mem_append, mem_ite_nil_right, mem_singleton,
    mem_flatMap, Bool.not_eq_true', ← Bool.not_eq_true, any_eq_true, decide_eq_true_eq,
    or_assoc]
  refine or_congr_right (or_congr_right (or_congr_right (or_congr_left (and_congr_left fun _ => ?_))))
  cases d <;> simp

end FamilyInput

theorem policyRules_cases {d : Direction} {f : Family} {binds : List (String × String)}
    {deny : Action} {v : CompiledPolicy} {rule : Rule} (h : rule ∈ policyRules d f binds deny v) :
    ∃ scope, policyScope v.policy.traffic f = some scope ∧ ∃ setID,
      (setID = "" ∨ setID = lookupID binds v.policy.name) ∧
        (rule = { matching := { setID := setID, traffic := scope }, action := deny,
                  policy := v.policy.name, counter := deniedCounter .geoPolicy deny } ∨
          rule = { matching := { setID := setID, traffic := scope }, action := .ret,
                   policy := v.policy.name }) := by
  unfold policyRules at h
  split at h
  · cases h
  split at h
  · cases h
  case h_2 scope hsc =>
    refine ⟨scope, hsc, ?_⟩
    dsimp only at h
    split at h <;> rcases mem_cons.mp h with rfl | h
    · exact ⟨_, .inr rfl, .inl rfl⟩
    · rw [mem_singleton.mp h]
      exact ⟨_, .inl rfl, .inr rfl⟩
    · exact ⟨_, .inr rfl, .inr rfl⟩
    · rw [mem_singleton.mp h]
      exact ⟨_, .inl rfl, .inl rfl⟩

end Perimeterd.Policy
