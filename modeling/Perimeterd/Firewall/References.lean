import Mathlib

/-!
# References of iptables rules

`iptRuleReferences` of `internal/firewall/iptables_codec.go`: the chains, sets and comments that a rule
names, as iptables-save prints it. Up to the first option that is not known the scan steps over the
operands of each option. How many operands an unknown option has is not known either, and from there on
every token counts as an option unless it was quoted. No reference is missed that way, whatever the
operands look like (`references_complete`).
-/

namespace Perimeterd.Firewall

open List

inductive IptReferenceKind where
  | jump
  | set
  | comment
deriving DecidableEq

structure IptRuleReference where
  kind : IptReferenceKind
  value : String
deriving DecidableEq

/-- A token of a rule, and whether it was quoted or escaped. -/
structure IptToken where
  text : String
  literal : Bool

/-- What a known option refers to and how many operands it has. -/
def optionForm (option : String) : Option (Option IptReferenceKind × Nat) :=
  if option ∈ ["-j", "--jump", "-g", "--goto"] then some (some .jump, 1)
  else if option = "--comment" then some (some .comment, 1)
  else if option ∈ ["--match-set", "--add-set", "--del-set"] then some (some .set, 2)
  else if option ∈ ["-m", "--match", "-p", "--protocol", "-s", "--source", "-d", "--destination",
      "-i", "--in-interface", "-o", "--out-interface", "--ctstate", "--dport", "--sport",
      "--ctorigdstport", "--reject-with"] then some (none, 1)
  else if option ∈ ["--tcp-flags", "-c", "--set-counters"] then some (none, 2)
  else if option ∈ ["!", "-f", "--fragment"] then some (none, 0)
  else none

/-- The reference an option makes to the token after it. -/
def referenceTo : Option IptReferenceKind → List IptToken → List IptRuleReference
  | some kind, operand :: _ => [⟨kind, operand.text⟩]
  | _, _ => []

/-- The loop of `iptRuleReferences`: `skip` tokens still belong to the last option, and `blind` says
that an unknown option was met. -/
def referencesFrom (skip : Nat) (blind : Bool) : List IptToken → List IptRuleReference
  | [] => []
  | token :: rest =>
      if 0 < skip then referencesFrom (skip - 1) blind rest
      else if token.literal then referencesFrom 0 blind rest
      else
        match optionForm token.text with
        | none => referencesFrom 0 true rest
        | some (kind, count) =>
            referenceTo kind rest ++ referencesFrom (if blind then 0 else count) blind rest

def iptRuleReferences (tokens : List IptToken) : List IptRuleReference :=
  referencesFrom 0 false tokens

/-! ## Rules as options -/

/-- An option with its operands, as iptables reads it. -/
structure IptOption where
  name : String
  operands : List IptToken

def IptOption.tokens (o : IptOption) : List IptToken := ⟨o.name, false⟩ :: o.operands

/-- A known option has its number of operands. -/
def IptOption.Proper (o : IptOption) : Prop :=
  ∀ form ∈ optionForm o.name, o.operands.length = form.2

variable {name : String} {kind : IptReferenceKind} {count : Nat} {blind : Bool} {operand : IptToken}
  {l rest : List IptToken}

theorem optionForm_pos (h : optionForm name = some (some kind, count)) : 0 < count := by
  unfold optionForm at h
  split_ifs at h <;> simp at h <;> omega

theorem referencesFrom_skip (operands : List IptToken) :
    referencesFrom operands.length blind (operands ++ rest) = referencesFrom 0 blind rest := by
  induction operands with
  | nil => rfl
  | cons token operands ih => simp [referencesFrom, ih]

theorem mem_referencesFrom_blind (h : optionForm name = some (some kind, count)) :
    ⟨kind, operand.text⟩ ∈ referencesFrom 0 true (l ++ ⟨name, false⟩ :: operand :: rest) := by
  induction l with
  | nil => simp [referencesFrom, h, referenceTo]
  | cons token l ih =>
    rw [cons_append, referencesFrom, if_neg (Nat.lt_irrefl 0)]
    split
    · exact ih
    · split
      · exact ih
      · exact mem_append_right _ ih

/-- The option's first operand is among the references of the rule. -/
def IptOption.Refers (o : IptOption) (kind : IptReferenceKind) (options : List IptOption) : Prop :=
  ∃ operand rest, o.operands = operand :: rest ∧
    ⟨kind, operand.text⟩ ∈ iptRuleReferences (options.flatMap IptOption.tokens)

theorem refers_of_form {options : List IptOption} (hproper : ∀ o ∈ options, o.Proper)
    {o : IptOption} (ho : o ∈ options) (hform : optionForm o.name = some (some kind, count)) :
    o.Refers kind options := by
  have hlen : o.operands.length = count := hproper o ho _ hform
  obtain ⟨operand, rest, hop⟩ := exists_cons_of_length_pos (hlen ▸ optionForm_pos hform)
  refine ⟨operand, rest, hop, ?_⟩
  unfold iptRuleReferences
  induction options with
  | nil => cases ho
  | cons first options ih =>
    rw [forall_mem_cons] at hproper
    rw [flatMap_cons, IptOption.tokens, cons_append, referencesFrom,
      if_neg (Nat.lt_irrefl 0), if_neg Bool.false_ne_true]
    cases hf : optionForm first.name with
    | none =>
      rcases mem_cons.mp ho with rfl | ho
      · rw [hf] at hform
        cases hform
      · -- the rest is read token by token
        obtain ⟨before, after, rfl⟩ := append_of_mem ho
        simp only [flatMap_append, flatMap_cons, IptOption.tokens, hop,
          cons_append]
        rw [← append_assoc]
        exact mem_referencesFrom_blind hform
    | some form =>
      have hskip : referencesFrom first.operands.length false (first.operands ++
        options.flatMap IptOption.tokens) = _ := referencesFrom_skip first.operands
      rw [hproper.1 form hf] at hskip
      dsimp only
      rw [if_neg Bool.false_ne_true, hskip]
      rcases mem_cons.mp ho with rfl | ho
      · rw [hform] at hf
        cases hf
        exact mem_append_left _ (by simp [hop, referenceTo])
      · exact mem_append_right _ (ih hproper.2 ho)

/-- **No reference is missed.** The target of every jump and goto, the set of every option that tests
or changes one, and the text of every comment are among the references of the rule. -/
theorem references_complete (options : List IptOption) (hproper : ∀ o ∈ options, o.Proper) :
    ∀ o ∈ options,
      (o.name ∈ ["-j", "--jump", "-g", "--goto"] → o.Refers .jump options) ∧
      (o.name ∈ ["--match-set", "--add-set", "--del-set"] → o.Refers .set options) ∧
      (o.name = "--comment" → o.Refers .comment options) := by
  intro o ho
  have hset : ∀ name ∈ ["--match-set", "--add-set", "--del-set"],
      optionForm name = some (some .set, 2) := by decide
  refine ⟨fun hname => ?_, fun hname => ?_, fun hname => ?_⟩
  · exact refers_of_form hproper ho (if_pos hname)
  · exact refers_of_form hproper ho (hset o.name hname)
  · exact refers_of_form hproper ho (by rw [hname]; rfl)

/-- A rule with an operand that is spelled like an option, one that is not known, and after it a jump
and a set. -/
def ambiguousRule : List IptOption :=
  [⟨"-m", [⟨"-j", false⟩]⟩, ⟨"--comment", [⟨"--goto", true⟩]⟩, ⟨"--quota", [⟨"-g", true⟩]⟩,
   ⟨"-j", [⟨"owned", false⟩]⟩, ⟨"--match-set", [⟨"members", false⟩, ⟨"src", false⟩]⟩]

theorem references_complete_sample :
    [⟨.comment, "--goto"⟩, ⟨.jump, "owned"⟩, ⟨.set, "members"⟩] ⊆
      iptRuleReferences (ambiguousRule.flatMap IptOption.tokens) := by
  have hall := references_complete ambiguousRule
    (by simp [ambiguousRule, IptOption.Proper, optionForm])
  obtain ⟨_, _, hc, hcomment⟩ := (hall ⟨"--comment", [⟨"--goto", true⟩]⟩
    (by simp [ambiguousRule])).2.2 rfl
  obtain ⟨_, _, hj, hjump⟩ := (hall ⟨"-j", [⟨"owned", false⟩]⟩
    (by simp [ambiguousRule])).1 (by decide)
  obtain ⟨_, _, hs, hset⟩ := (hall ⟨"--match-set", [⟨"members", false⟩, ⟨"src", false⟩]⟩
    (by simp [ambiguousRule])).2.1 (by decide)
  cases hc
  cases hj
  cases hs
  simp only [cons_subset, nil_subset, and_true]
  exact ⟨hcomment, hjump, hset⟩

end Perimeterd.Firewall
