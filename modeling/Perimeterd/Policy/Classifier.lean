import Perimeterd.Prefix.Normal

/-!
# The geo-eligibility classifier

`internal/policy/classifier.go`: the compiled-in special-purpose tables. An address is *geo-eligible*
when it is in the family's base and not excluded, or restored; geo policies leave every other
address alone. `GeoEligible` is that reading of the tables, and `mem_geoEligible` says the set the
code builds from them by union and difference is the same.
-/

namespace Perimeterd.Policy

open Prefix List

def baseOf : Family → List Prefix
  | .ipv4 => [v4 0 0 0 0 0]
  | .ipv6 => [v6 0x2000 0 0 3, v6 0x64 0xff9b 0 96]

def excludedOf : Family → List Prefix
  | .ipv4 =>
      [v4 0 0 0 0 8, v4 10 0 0 0 8, v4 172 16 0 0 12, v4 192 168 0 0 16, v4 100 64 0 0 10,
       v4 127 0 0 0 8, v4 169 254 0 0 16, v4 192 0 0 0 24, v4 192 0 2 0 24, v4 198 51 100 0 24,
       v4 203 0 113 0 24, v4 192 88 99 0 24, v4 198 18 0 0 15, v4 224 0 0 0 4, v4 240 0 0 0 4]
  | .ipv6 => [v6 0x2001 0 0 23, v6 0x2001 0xdb8 0 32, v6 0x3fff 0 0 20, v6 0x2002 0 0 16]

def restoredOf : Family → List Prefix
  | .ipv4 => [v4 192 0 0 9 32, v4 192 0 0 10 32]
  | .ipv6 =>
      [single (.v6 0x2001 1 0 0 0 0 0 1), single (.v6 0x2001 1 0 0 0 0 0 2),
       single (.v6 0x2001 1 0 0 0 0 0 3), v6 0x2001 3 0 32, v6 0x2001 4 0x112 48,
       v6 0x2001 0x20 0 28, v6 0x2001 0x30 0 28]

/-- `mustPrefixSet`; the source panics where this is empty, and `mustPrefixSet_ok` says it never
is for that reason. -/
def mustPrefixSet (values : List Prefix) : Prefix.Set :=
  match Prefix.Set.new (values.map fun p => .valid p.masked) with
  | .ok s => s
  | .error _ => Prefix.Set.empty

def buildGeoEligible (base excluded restored : List Prefix) : Prefix.Set :=
  Prefix.Set.union
    [Prefix.Set.difference (mustPrefixSet base) (mustPrefixSet excluded), mustPrefixSet restored]

def geoEligible (f : Family) : Prefix.Set :=
  buildGeoEligible (baseOf f) (excludedOf f) (restoredOf f)

def GeoEligible (f : Family) (a : Addr) : Prop :=
  (Covered (baseOf f) a ∧ ¬ Covered (excludedOf f) a) ∨ Covered (restoredOf f) a

instance (f : Family) (a : Addr) : Decidable (GeoEligible f a) :=
  inferInstanceAs (Decidable ((_ ∧ ¬ _) ∨ _))

theorem mustPrefixSet_ok (vs : List Prefix) :
    Prefix.Set.new (vs.map fun p => .valid p.masked) = .ok (mustPrefixSet vs) := by
  have hma : (vs.map fun p => NetipPrefix.valid p.masked) =
      (vs.map masked).map .valid := by rw [map_map]; rfl
  cases hn : Prefix.Set.new (vs.map fun p => .valid p.masked) with
  | ok s => simp [mustPrefixSet, hn]
  | error e =>
    unfold Prefix.Set.new at hn
    split at hn
    · rename_i e' hno
      rw [Prefix.normalize, hma, maskAll_valid] at hno
      cases hno
    · cases hn

theorem mem_mustPrefixSet {vs : List Prefix} {a : Addr} :
    (mustPrefixSet vs).Mem a ↔ Covered vs a := by
  rw [Prefix.Set.new_spec (mustPrefixSet_ok vs)]
  constructor
  · rintro ⟨p, hp, ha⟩
    obtain ⟨q, hq, hqp⟩ := mem_map.mp hp
    cases hqp
    refine ⟨q, hq, ?_⟩
    rwa [contains_iff, ← masked_block, ← contains_iff]
  · rintro ⟨p, hp, ha⟩
    refine ⟨p.masked, mem_map.mpr ⟨p, hp, rfl⟩, ?_⟩
    rwa [contains_iff, masked_block, ← contains_iff]

/-- **The classifier set is the tables' meaning.** -/
theorem mem_geoEligible {f : Family} {a : Addr} : (geoEligible f).Mem a ↔ GeoEligible f a := by
  unfold geoEligible buildGeoEligible GeoEligible
  rw [Prefix.Set.mem_union]
  simp only [mem_cons, not_mem_nil, or_false, exists_eq_or_imp, exists_eq_left,
    Prefix.Set.mem_difference, mem_mustPrefixSet]

theorem geoEligible_family {f : Family} {a : Addr} (h : GeoEligible f a) : a.family = f := by
  have hbase : ∀ p ∈ baseOf f, p.addr.family = f := by cases f <;> decide
  have hre : ∀ p ∈ restoredOf f, p.addr.family = f := by cases f <;> decide
  rcases h with ⟨⟨p, hp, ha⟩, -⟩ | ⟨p, hp, ha⟩
  · exact (Prefix.contains_family ha).symm.trans (hbase p hp)
  · exact (Prefix.contains_family ha).symm.trans (hre p hp)

/-- Private space is not geo-eligible, public space is. -/
example : ¬ GeoEligible .ipv4 (Addr.v4 192 168 1 1) ∧ GeoEligible .ipv4 (Addr.v4 192 0 0 9) := by
  decide

end Perimeterd.Policy
