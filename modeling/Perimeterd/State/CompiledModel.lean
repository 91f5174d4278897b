import Perimeterd.Lib.Pointwise
import Perimeterd.Policy.Meaning

/-!
# Recorded and compiled models

`internal/state/compiled_model.go`: whether a model read back from disk is the one its configuration
compiles to. Older daemons stored one geo set per policy where the compiler now shares them, so the
comparison lets a recorded rule name another geo set than the compiled one, provided both hold the
same prefixes.

**Acceptance means the same behaviour** (`sameCompiledFamilies_sound`), as long as every set a
recorded rule names exists. `ValidateTarget` refuses a target with a dangling name before the
comparison is made; without it a rule whose geo set is missing would pass.
-/

namespace Perimeterd.State

open Lib Policy List

/-! ## The comparison -/

def geoName (id : String) : Bool := "geo/".toList.isPrefixOf id.toList

/-- `geoSet`: a static set named `geo/…`. -/
def geoSet (set : PrefixSet) : Bool := set.kind = .static && geoName set.id

/-- A map from ID to set, filled in order: a later set replaces an earlier one of the same ID. -/
def setByID (sets : List PrefixSet) (id : String) : Option PrefixSet :=
  sets.reverse.find? (·.id = id)

/-- The sets referred to, and the pairs of sets already found equal. -/
structure Seen where
  used : List String := []
  compared : List (String × String) := []

/-- Two sets of different names with the same content. -/
def sameSet (actual want : PrefixSet) : Bool :=
  { actual with id := want.id, prefixes := [] } = { want with prefixes := [] } &&
    actual.prefixes = want.prefixes

def withSet (rule : Rule) (id : String) : Rule :=
  { rule with matching := { rule.matching with setID := id } }

/-- The rule under the expected name, where the names differ. -/
def relabel (rule : Rule) (wantID : String) : Rule :=
  if rule.matching.setID ≠ wantID then withSet rule wantID else rule

/-- The comparison of the two sets of a rule, made once for each pair of names. -/
def compareSets (seen : Seen) (actualID wantID : String) : Option PrefixSet → Option PrefixSet →
    Option Seen
  | some actual, want? =>
      if ¬ geoSet actual then some seen
      else
        match want? with
        | some want =>
            if ¬ geoSet want then none
            else if (actualID, wantID) ∈ seen.compared then
              some { seen with used := actualID :: seen.used }
            else if ¬ sameSet actual want then none
            else
              some { used := actualID :: seen.used, compared := (actualID, wantID) :: seen.compared }
        | none => none
  | none, _ => some seen

/-- The body of the loop over the rules of a path. -/
def sameRule (actualSets wantSets : String → Option PrefixSet) (seen : Seen) (rule expected : Rule) :
    Option Seen :=
  let actualID := rule.matching.setID
  let wantID := expected.matching.setID
  if actualID ≠ wantID ∧ ¬ ((actualSets actualID).any geoSet ∧ (wantSets wantID).any geoSet) then
    none
  else if relabel rule wantID ≠ expected then none
  else if actualID = "" then some seen
  else compareSets seen actualID wantID (actualSets actualID) (wantSets wantID)

def sameRules (actualSets wantSets : String → Option PrefixSet) :
    Seen → List Rule → List Rule → Option Seen
  | seen, [], [] => some seen
  | seen, rule :: rules, expected :: rest =>
      (sameRule actualSets wantSets seen rule expected).bind fun seen =>
        sameRules actualSets wantSets seen rules rest
  | _, _, _ => none

def samePaths (actualSets wantSets : String → Option PrefixSet) :
    Seen → List Path → List Path → Option Seen
  | seen, [], [] => some seen
  | seen, path :: paths, expected :: rest =>
      if { path with rules := [] } ≠ { expected with rules := [] } then none
      else
        (sameRules actualSets wantSets seen path.rules expected.rules).bind fun seen =>
          samePaths actualSets wantSets seen paths rest
  | _, _, _ => none

def sameCompiledFamily (actual want : FamilyPlan) : Bool :=
  actual.sets.all (fun set => geoSet set || setByID want.sets set.id = some set) &&
    actual.sets.countP (!geoSet ·) = want.sets.countP (!geoSet ·) &&
      match samePaths (setByID actual.sets) (setByID want.sets) {} actual.paths want.paths with
      | none => false
      | some seen => actual.sets.all fun set => !geoSet set || set.id ∈ seen.used

def sameCompiledFamilies : List FamilyPlan → List FamilyPlan → Bool
  | [], [] => true
  | actual :: recorded, want :: compiled =>
      actual.family = want.family && sameCompiledFamily actual want &&
        sameCompiledFamilies recorded compiled
  | _, _ => false

/-! ## Sets by ID -/

def DistinctIDs (sets : List PrefixSet) : Prop := ∀ s ∈ sets, ∀ t ∈ sets, s.id = t.id → s = t

variable {sets : List PrefixSet}

theorem setByID_eq_some (h : DistinctIDs sets) {id : String}
    {s : PrefixSet} : setByID sets id = some s ↔ s ∈ sets ∧ s.id = id := by
  unfold setByID
  constructor
  · intro hf
    exact ⟨mem_reverse.mp (mem_of_find?_eq_some hf),
      by simpa using List.find?_some hf⟩
  · rintro ⟨hs, rfl⟩
    exact find?_id (mem_reverse.mpr hs) fun t ht hid =>
      h t (mem_reverse.mp ht) s hs hid

theorem setByID_eq_find? (h : DistinctIDs sets) (id : String) :
    setByID sets id = sets.find? (·.id = id) := by
  cases hf : sets.find? (·.id = id) with
  | none =>
    refine Option.eq_none_iff_forall_ne_some.mpr fun s hs => ?_
    obtain ⟨hs, hid⟩ := (setByID_eq_some h).mp hs
    exact List.find?_eq_none.mp hf s hs (decide_eq_true hid)
  | some s =>
    exact (setByID_eq_some h).mpr ⟨mem_of_find?_eq_some hf, by simpa using List.find?_some hf⟩

theorem not_geo_of_id {id : String} (h : geoName id = false) : ¬ (setByID sets id).any geoSet := by
  cases hse : setByID sets id with
  | none => simp
  | some s =>
    have hid : s.id = id := by simpa using List.find?_some hse
    rw [Option.any_some, geoSet, hid, h, Bool.and_false]
    exact Bool.false_ne_true

/-! ## Acceptance means the same behaviour -/

section Sound

variable {A W : String → Option PrefixSet}

/-- Two names for geo sets of one content. -/
def Alias (A W : String → Option PrefixSet) (a w : String) : Prop :=
  ∃ s t, A a = some s ∧ W w = some t ∧ geoSet s = true ∧ geoSet t = true ∧
    s.kind = t.kind ∧ s.prefixes = t.prefixes

/-- What a rule that passes has in common with the expected one. -/
structure Alike (A W : String → Option PrefixSet) (rule expected : Rule) : Prop where
  rest : withSet rule expected.matching.setID = expected
  sets : (rule.matching.setID = expected.matching.setID ∧
      (rule.matching.setID = "" ∨ ¬ (A rule.matching.setID).any geoSet)) ∨
    Alias A W rule.matching.setID expected.matching.setID

variable {rule exp : Rule} {seen after : Seen}

theorem Alike.matching (h : Alike A W rule exp) :
    rule.matching.flow = exp.matching.flow ∧
      rule.matching.negateSet = exp.matching.negateSet ∧
      rule.matching.traffic = exp.matching.traffic := by
  have hma := congrArg Rule.matching h.rest
  exact ⟨(Match.mk.inj hma).1, (Match.mk.inj hma).2.2.1, (Match.mk.inj hma).2.2.2⟩

theorem Alike.result (h : Alike A W rule exp) (entry : CounterRole) :
    rule.result entry = exp.result entry := by
  rw [← h.rest]
  rfl

/-- The remembered comparisons are right. -/
def Remembered (A W : String → Option PrefixSet) (seen : Seen) : Prop :=
  ∀ p ∈ seen.compared, Alias A W p.1 p.2

theorem sameSet_iff {s t : PrefixSet} :
    sameSet s t = true ↔ s.kind = t.kind ∧ s.prefixes = t.prefixes := by
  simp [sameSet]

theorem withSet_self (rule : Rule) : withSet rule rule.matching.setID = rule := rfl

theorem relabel_eq (rule : Rule) (id : String) : relabel rule id = withSet rule id := by
  unfold relabel
  by_cases hid : rule.matching.setID = id
  · rw [if_neg (not_not.mpr hid), ← hid, withSet_self]
  · rw [if_pos hid]

theorem compareSets_sound {a w : String}
    (h : compareSets seen a w (A a) (W w) = some after) (hse : Remembered A W seen) :
    (¬ (A a).any geoSet ∨ Alias A W a w) ∧ Remembered A W after := by
  cases hactual : A a with
  | none =>
    rw [hactual] at h
    obtain rfl := Option.some.inj h
    exact ⟨.inl (by simp), hse⟩
  | some s =>
    rw [hactual] at h
    unfold compareSets at h
    dsimp only at h
    by_cases hg : geoSet s = true
    · rw [if_neg (not_not.mpr hg)] at h
      cases hwant : W w with
      | none => rw [hwant] at h; cases h
      | some t =>
        rw [hwant] at h
        dsimp only at h
        rw [Option.ite_none_left_eq_some, not_not] at h
        obtain ⟨hg', h⟩ := h
        by_cases hmem : (a, w) ∈ seen.compared
        · rw [if_pos hmem] at h
          obtain rfl := Option.some.inj h
          exact ⟨.inr (hse _ hmem), hse⟩
        · rw [if_neg hmem, Option.ite_none_left_eq_some, not_not] at h
          obtain ⟨hsa, h⟩ := h
          obtain rfl := Option.some.inj h
          obtain ⟨hki, hp⟩ := sameSet_iff.mp hsa
          have hal : Alias A W a w := ⟨s, t, hactual, hwant, hg, hg', hki, hp⟩
          exact ⟨.inr hal, forall_mem_cons.mpr ⟨hal, hse⟩⟩
    · rw [if_pos hg] at h
      obtain rfl := Option.some.inj h
      exact ⟨.inl (by simpa using hg), hse⟩

theorem sameRule_sound (hA : ¬ (A "").any geoSet)
    (h : sameRule A W seen rule exp = some after) (hse : Remembered A W seen) :
    Alike A W rule exp ∧ Remembered A W after := by
  unfold sameRule at h
  dsimp only at h
  rw [Option.ite_none_left_eq_some, Option.ite_none_left_eq_some, relabel_eq, not_not] at h
  obtain ⟨hids, hrest, h⟩ := h
  -- a name is changed only between geo sets
  have hke : ¬ (A rule.matching.setID).any geoSet → rule.matching.setID = exp.matching.setID := by
    intro hp
    by_contra hne
    exact hids ⟨hne, fun hbo => hp hbo.1⟩
  by_cases hid : rule.matching.setID = ""
  · rw [if_pos hid] at h
    obtain rfl := Option.some.inj h
    have hp : ¬ (A rule.matching.setID).any geoSet := by rwa [hid]
    exact ⟨⟨hrest, .inl ⟨hke hp, .inl hid⟩⟩, hse⟩
  · rw [if_neg hid] at h
    obtain ⟨hset, haf⟩ := compareSets_sound h hse
    refine ⟨⟨hrest, ?_⟩, haf⟩
    rcases hset with hp | hal
    · exact .inl ⟨hke hp, .inr hp⟩
    · exact .inr hal

theorem sameRules_sound (hA : ¬ (A "").any geoSet)
    {rules exp : List Rule} (h : sameRules A W seen rules exp = some after)
    (hse : Remembered A W seen) : List.Forall₂ (Alike A W) rules exp ∧ Remembered A W after := by
  induction rules generalizing seen exp with
  | nil =>
    cases exp with
    | nil =>
      obtain rfl := Option.some.inj h
      exact ⟨.nil, hse⟩
    | cons => cases h
  | cons rule rules ih =>
    cases exp with
    | nil => cases h
    | cons e exp =>
      obtain ⟨mid, hru, hrest⟩ := Option.bind_eq_some_iff.mp h
      obtain ⟨hal, hmi⟩ := sameRule_sound hA hru hse
      obtain ⟨hall, haf⟩ := ih hrest hmi
      exact ⟨.cons hal hall, haf⟩

/-- What a path that passes has in common with the expected one. -/
structure AlikePath (A W : String → Option PrefixSet) (path expected : Path) : Prop where
  rest : { path with rules := [] } = { expected with rules := [] }
  rules : List.Forall₂ (Alike A W) path.rules expected.rules

theorem samePaths_sound (hA : ¬ (A "").any geoSet)
    {paths expected : List Path} (h : samePaths A W seen paths expected = some after)
    (hse : Remembered A W seen) : List.Forall₂ (AlikePath A W) paths expected := by
  induction paths generalizing seen expected with
  | nil =>
    cases expected with
    | nil => exact .nil
    | cons => cases h
  | cons path paths ih =>
    cases expected with
    | nil => cases h
    | cons e expected =>
      unfold samePaths at h
      split at h
      case isTrue => cases h
      case isFalse hme =>
        obtain ⟨mid, hru, hrest⟩ := Option.bind_eq_some_iff.mp h
        obtain ⟨hal, hmi⟩ := sameRules_sound hA hru hse
        exact .cons ⟨not_not.mp hme, hal⟩ (ih hrest hmi)

end Sound

/-- Every set a rule names is one of the plan's. -/
def NamesSets (plan : FamilyPlan) : Prop :=
  ∀ path ∈ plan.paths, ∀ rule ∈ path.rules, rule.matching.setID ≠ "" →
    ∃ set ∈ plan.sets, set.id = rule.matching.setID

/-- Everything evaluation yields, for the plan of a family. -/
def verdict (families : List FamilyPlan) (family : Family) (direction : Direction) (packet : Packet)
    (banned : Addr → Bool) : Option Evaluation :=
  (families.find? (·.family = family)).map (·.evaluate direction packet banned)

section Evaluate

variable {actual want : FamilyPlan} (hactual : DistinctIDs actual.sets)
  (hwant : DistinctIDs want.sets)
  (hinternal : ∀ set ∈ actual.sets, geoSet set = true ∨ setByID want.sets set.id = some set)
include hactual hwant hinternal

theorem setMatches_alike {rule exp : Rule}
    (h : Alike (setByID actual.sets) (setByID want.sets) rule exp)
    (hnamed : rule.matching.setID ≠ "" → ∃ set ∈ actual.sets, set.id = rule.matching.setID)
    (banned : Addr → Bool) (a : Addr) :
    setMatches actual rule.matching banned a = setMatches want exp.matching banned a := by
  obtain ⟨-, hneg, -⟩ := h.matching
  unfold setMatches FamilyPlan.member
  rw [hneg, ← setByID_eq_find? hactual, ← setByID_eq_find? hwant]
  rcases h.sets with ⟨hid, hp⟩ | ⟨s, t, hs, ht, hg, hg', hki, hpr⟩
  · rw [← hid]
    rcases Classical.em (rule.matching.setID = "") with hempty | hne
    · simp [hempty]
    · obtain ⟨s, hs, hsi⟩ := hnamed hne
      have hf := (setByID_eq_some hactual).mpr ⟨hs, hsi⟩
      have hsa : setByID want.sets rule.matching.setID = some s := by
        rcases hp with hempty | hp
        · exact absurd hempty hne
        · rw [hf] at hp
          rcases hinternal s hs with hg | hw
          · exact absurd hg (by simpa using hp)
          · rwa [hsi] at hw
      rw [hf, hsa]
  · have hne : ∀ {id : String} {u : PrefixSet} {sets : List PrefixSet},
        setByID sets id = some u → geoSet u = true → id ≠ "" := by
      rintro id u sets hu hg rfl
      have han : (setByID sets "").any geoSet := by rw [hu, Option.any_some, hg]
      exact not_geo_of_id (by decide) han
    rw [hs, ht]
    simp [hne hs hg, hne ht hg', hki, hpr]

theorem evaluate_alike {path exp : Path}
    (h : AlikePath (setByID actual.sets) (setByID want.sets) path exp)
    (hnamed : ∀ rule ∈ path.rules, rule.matching.setID ≠ "" →
      ∃ set ∈ actual.sets, set.id = rule.matching.setID) (pkt : Packet) (banned : Addr → Bool) :
    path.evaluate actual pkt banned = exp.evaluate want pkt banned := by
  obtain ⟨-, hre, hen, -⟩ := Policy.Path.mk.inj h.rest
  have hma : ∀ rule ∈ path.rules, ∀ e, Alike (setByID actual.sets) (setByID want.sets) rule e →
      ruleMatches actual path pkt banned rule = ruleMatches want exp pkt banned e := by
    intro rule hru e hal
    have hse := setMatches_alike hactual hwant hinternal hal (hnamed rule hru) banned
    obtain ⟨hf, -, htr⟩ := hal.matching
    simp only [ruleMatches, Path.remoteAddress, hre, hse, hf, htr]
  unfold Path.evaluate
  rcases forall₂_find? h.rules hma with ⟨hno, hn'⟩ | ⟨rule, e, hru, he, -, hal⟩
  · rw [hno, hn', hen]
  · rw [hru, he, hen]
    exact hal.result exp.processed

end Evaluate

/-- **One family.** A recorded plan that passes behaves as the compiled one. -/
theorem sameCompiledFamily_sound {actual want : FamilyPlan} (hactual : DistinctIDs actual.sets)
    (hwant : DistinctIDs want.sets) (hnamed : NamesSets actual)
    (h : sameCompiledFamily actual want = true) (dir : Direction) (pkt : Packet)
    (banned : Addr → Bool) : actual.evaluate dir pkt banned = want.evaluate dir pkt banned := by
  unfold sameCompiledFamily at h
  rw [Bool.and_eq_true, Bool.and_eq_true] at h
  obtain ⟨⟨hinternal, -⟩, hp⟩ := h
  have hi' : ∀ set ∈ actual.sets, geoSet set = true ∨ setByID want.sets set.id = some set := by
    simpa [all_eq_true] using hinternal
  have hA : ¬ (setByID actual.sets "").any geoSet := not_geo_of_id (by decide)
  cases hsa : samePaths (setByID actual.sets) (setByID want.sets) {} actual.paths want.paths with
  | none => simp [hsa] at hp
  | some seen =>
    have hall := samePaths_sound hA hsa (by simp [Remembered])
    have hd : ∀ path ∈ actual.paths, ∀ exp,
        AlikePath (setByID actual.sets) (setByID want.sets) path exp →
        decide (path.direction = dir) = decide (exp.direction = dir) := by
      intro path _ exp hal
      rw [(Policy.Path.mk.inj hal.rest).1]
    unfold FamilyPlan.evaluate
    rcases forall₂_find? hall hd with ⟨hno, hn'⟩ | ⟨path, e, hpa, he, hmem, hal⟩
    · rw [hno, hn']
    · rw [hpa, he]
      exact evaluate_alike hactual hwant hi' hal (hnamed path hmem) pkt banned

theorem sameCompiledFamilies_sound {recorded compiled : List FamilyPlan}
    (hre : ∀ plan ∈ recorded, DistinctIDs plan.sets ∧ NamesSets plan)
    (hc : ∀ plan ∈ compiled, DistinctIDs plan.sets)
    (h : sameCompiledFamilies recorded compiled = true) (family : Family) (dir : Direction)
    (pkt : Packet) (banned : Addr → Bool) :
    verdict recorded family dir pkt banned = verdict compiled family dir pkt banned := by
  induction recorded generalizing compiled with
  | nil =>
    cases compiled with
    | nil => rfl
    | cons => cases h
  | cons actual recorded ih =>
    cases compiled with
    | nil => cases h
    | cons want compiled =>
      obtain ⟨hh, hre⟩ := forall_mem_cons.mp hre
      obtain ⟨hwant, hc⟩ := forall_mem_cons.mp hc
      simp only [sameCompiledFamilies, Bool.and_eq_true, decide_eq_true_eq] at h
      obtain ⟨⟨hfa, hsa⟩, hrest⟩ := h
      have hta := ih hre hc hrest
      have hp := sameCompiledFamily_sound hh.1 hwant hh.2 hsa dir pkt banned
      unfold verdict at hta ⊢
      rw [List.find?_cons, List.find?_cons, hfa]
      by_cases hf : want.family = family
      · simp [hf, hp]
      · simpa [hf] using hta

end Perimeterd.State
