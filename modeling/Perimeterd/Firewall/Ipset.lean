import Perimeterd.Firewall.Target
import Perimeterd.Lib.Decimal
import Perimeterd.Lib.Script

/-!
# Ipsets

`internal/firewall/iptables.go`, from `ipsetCapacity` to `appendDynamicIPSet`. The CrowdSec leases of
a family live in one `hash:net` set. `appendDynamicIPSet` writes an `ipset restore` script that takes
the set as observed to the set as desired: in place while the entries fit, and otherwise through a
larger spare set that is filled first and then swapped in.

The commands run against `Kernel`, the sets by name. A set is a map from entries to timeouts that is
never larger than its `maxelem`: a state beyond capacity cannot be built, and the `add` that would
lead there is refused. No time passes while a script runs: a timeout that was observed is the one in
force.
-/

namespace Perimeterd.Firewall

open Lib

/-- Entries with their timeouts in seconds. -/
abbrev Leases := Finmap fun _ : String => Nat

/-! ## The sets of the kernel -/

structure IpSet where
  family : Family
  maxelem : Nat
  timeout : Nat
  entries : Leases
  fits : entries.keys.card ≤ maxelem

abbrev Kernel := String → Option IpSet

/-- A line of an `ipset restore` script. -/
inductive IpsetCommand where
  | create (name : String) (family : Family) (maxelem timeout : Nat)
  | destroy (name : String)
  /-- With `-exist`. -/
  | del (name entry : String)
  /-- With `-exist`. -/
  | add (name entry : String) (timeout : Nat)
  | swap (source target : String)

namespace IpSet

def fill (set : IpSet) (entries : Leases) (fits : entries.keys.card ≤ set.maxelem) : IpSet :=
  { set with entries, fits }

theorem card_insert {ents : Leases} {entry : String} {timeout maxelem : Nat}
    (fits : ents.keys.card ≤ maxelem) (h : entry ∈ ents ∨ ents.keys.card < maxelem) :
    (ents.insert entry timeout).keys.card ≤ maxelem := by
  have hke : (ents.insert entry timeout).keys = insert entry ents.keys := by
    ext e
    rw [Finmap.mem_keys, Finmap.mem_insert, Finset.mem_insert, Finmap.mem_keys]
  rw [hke]
  obtain h | h := h
  · rwa [Finset.insert_eq_of_mem (Finmap.mem_keys.mpr h)]
  · exact (Finset.card_insert_le _ _).trans h

theorem card_erase {ents : Leases} {maxelem : Nat} (entry : String)
    (fits : ents.keys.card ≤ maxelem) : (ents.erase entry).keys.card ≤ maxelem := by
  rw [Finmap.keys_erase]
  exact (Finset.card_erase_le).trans fits

def create (family : Family) (maxelem timeout : Nat) : IpSet where
  family
  maxelem
  timeout
  entries := ∅
  fits := Nat.zero_le _

/-- `add -exist`: an entry already there gets the new timeout, another needs room. -/
def add (set : IpSet) (entry : String) (timeout : Nat) : Option IpSet :=
  if h : entry ∈ set.entries ∨ set.entries.keys.card < set.maxelem then
    some (set.fill (set.entries.insert entry timeout) (card_insert set.fits h))
  else none

def del (set : IpSet) (entry : String) : IpSet :=
  set.fill (set.entries.erase entry) (card_erase entry set.fits)

end IpSet

section Kernel

-- How many rules refer to the set of a name.
variable (references : String → Nat)

/-- One line of a restore script, none when it is refused. -/
def ipsetExec (command : IpsetCommand) (kernel : Kernel) : Option Kernel :=
  match command with
  | .create name family maxelem timeout =>
      match kernel name with
      | some _ => none
      | none => some (Function.update kernel name (some (.create family maxelem timeout)))
  | .destroy name =>
      match kernel name with
      | none => none
      | some _ =>
          if references name ≠ 0 then none else some (Function.update kernel name none)
  | .del name entry =>
      (kernel name).map fun set => Function.update kernel name (some (set.del entry))
  | .add name entry timeout =>
      (kernel name).bind fun set =>
        (set.add entry timeout).map fun set => Function.update kernel name (some set)
  | .swap source target =>
      match kernel source, kernel target with
      | some a, some b =>
          -- The contents change places; the rules that refer to a name keep referring to it.
          if a.family ≠ b.family then none
          else some (Function.update (Function.update kernel source (some b)) target (some a))
      | _, _ => none

variable {references} {k : Kernel} {name : String} {set : IpSet}

theorem exec_create {family : Family} {maxelem timeout : Nat} (h : k name = none) :
    ipsetExec references (.create name family maxelem timeout) k =
      some (Function.update k name (some (.create family maxelem timeout))) := by
  simp [ipsetExec, h]

theorem exec_destroy (h : k name = some set) (hf : references name = 0) :
    ipsetExec references (.destroy name) k = some (Function.update k name none) := by
  simp [ipsetExec, h, hf]

theorem exec_del (h : k name = some set) (entry : String) :
    ipsetExec references (.del name entry) k =
      some (Function.update k name (some (set.del entry))) := by
  simp [ipsetExec, h]

theorem exec_add {entry : String} {timeout : Nat} (h : k name = some set)
    (hro : entry ∈ set.entries ∨ set.entries.keys.card < set.maxelem) :
    ipsetExec references (.add name entry timeout) k =
      some (Function.update k name (some (set.fill (set.entries.insert entry timeout)
        (IpSet.card_insert set.fits hro)))) := by
  simp [ipsetExec, h, IpSet.add, hro]

theorem exec_swap {source tgt : String} {a b : IpSet} (ha : k source = some a)
    (hb : k tgt = some b) (hf : a.family = b.family) :
    ipsetExec references (.swap source tgt) k =
      some (Function.update (Function.update k source (some b)) tgt (some a)) := by
  simp [ipsetExec, ha, hb, hf]

theorem exec_present {command : IpsetCommand} {after : Kernel}
    (hexe : ipsetExec references command k = some after) (hc : command ≠ .destroy name)
    (h : (k name).isSome) : (after name).isSome := by
  cases command with
  | create other family maxelem timeout =>
    simp only [ipsetExec] at hexe
    split at hexe
    · cases hexe
    · cases hexe
      rw [Function.update_apply]
      split
      · rfl
      · exact h
  | destroy other =>
    have hne : name ≠ other := by
      rintro rfl
      exact hc rfl
    simp only [ipsetExec] at hexe
    split at hexe
    · cases hexe
    · rw [Option.ite_none_left_eq_some] at hexe
      cases hexe.2
      rwa [Function.update_of_ne hne]
  | del other entry =>
    obtain ⟨set, -, rfl⟩ := Option.map_eq_some_iff.mp hexe
    rw [Function.update_apply]
    split
    · rfl
    · exact h
  | add other entry timeout =>
    obtain ⟨set, -, had⟩ := Option.bind_eq_some_iff.mp hexe
    obtain ⟨grown, -, rfl⟩ := Option.map_eq_some_iff.mp had
    rw [Function.update_apply]
    split
    · rfl
    · exact h
  | swap source target =>
    simp only [ipsetExec] at hexe
    split at hexe
    · rw [Option.ite_none_left_eq_some] at hexe
      cases hexe.2
      rw [Function.update_apply, Function.update_apply]
      split
      · rfl
      split
      · rfl
      · exact h
    · cases hexe

end Kernel

/-! ## What is observed -/

/-- `iptObservedSet`: what `ipset save` says of a set, as far as an update of its leases reads it. -/
structure ObservedSet where
  options : List Bytes
  entries : List String
  timeouts : String → Option Nat

/-- The sets of `iptInventory`. -/
abbrev ObservedSets := String → Option ObservedSet

/-- The loop of `ipsetCapacity` over the pairs of option and value. -/
def capacityLoop (capacity : Nat) : List Bytes → Except String Nat
  | option :: value :: rest =>
      if option ≠ ascii "maxelem" then capacityLoop capacity rest
      else if capacity ≠ 0 then .error "duplicate ipset capacity"
      else match Json.atoi value with
        | none => .error "invalid ipset capacity"
        | some n => if n ≤ 0 then .error "invalid ipset capacity" else capacityLoop n.toNat rest
  | _ => if capacity = 0 then .error "missing ipset capacity" else .ok capacity

def ipsetCapacity (set : ObservedSet) : Except String Nat := capacityLoop 0 set.options

/-- What was read about a set is what the kernel holds. -/
structure Observes (observed : ObservedSet) (set : IpSet) : Prop where
  capacity : ipsetCapacity observed = .ok set.maxelem
  entries : ∀ entry, entry ∈ observed.entries ↔ entry ∈ set.entries
  timeouts : ∀ entry, observed.timeouts entry = set.entries.lookup entry

def Read (observed : Option ObservedSet) (set : Option IpSet) : Prop :=
  match observed, set with
  | none, none => True
  | some observed, some set => Observes observed set
  | _, _ => False

/-- The answer of `ipset save` about a set. -/
def IpSet.save (set : IpSet) : ObservedSet where
  options := [ascii "family", ascii (match set.family with | .ipv4 => "inet" | .ipv6 => "inet6"),
    ascii "maxelem", Json.decimalNat set.maxelem, ascii "timeout", Json.decimalNat set.timeout]
  entries := set.entries.keys.sort
  timeouts entry := set.entries.lookup entry

/-! ## The script -/

def maximumLease : Nat := 86400

structure DynamicSet where
  family : Family
  name : String
  named : ∃ digest target, name = iptDynamicSetName digest target family

def Target.dynamicSet (digest : String → String) (target : Target) (family : Family) :
    DynamicSet :=
  ⟨family, iptDynamicSetName digest target family, digest, target, rfl⟩

abbrev DynamicSet.spare (set : DynamicSet) : String := iptDynamicSpareName set.name

def maxInt : Nat := 2 ^ 63 - 1

/-- The loop of `dynamicIPSetCapacity`. -/
def growCapacity (needed : Nat) : Nat → Nat → Nat
  | 0, capacity => capacity
  | fuel + 1, capacity =>
      if capacity < needed ∧ capacity ≤ maxInt / 2 then growCapacity needed fuel (capacity * 2)
      else capacity

/-- `dynamicIPSetCapacity`: from `2 ^ 16` on, the doubling leaves the integers after 47 rounds. -/
def dynamicIPSetCapacity (needed : Nat) : Nat := max (growCapacity needed 47 65536) needed

/-- The entries to take out of the live set. -/
def obsolete (observed : List String) (desired : Leases) : List String :=
  observed.filter fun entry => entry ∉ desired

/-- The entries to write, in order, with the grants in `desired`. -/
def granted (skip : String → Bool) (desired : Leases) : List String :=
  desired.keys.sort.filter fun entry => !skip entry

def grant (desired : Leases) (entry : String) : Nat := (desired.lookup entry).getD 0

def appendDynamicIPSet (set : DynamicSet) (inventory : ObservedSets) (desired : Leases) :
    Except String (List IpsetCommand) := do
  let observed := inventory set.name
  let capacity ← match observed with
    | none => .ok 0
    | some observed => ipsetCapacity observed
  let discard := if (inventory set.spare).isSome then [.destroy set.spare] else []
  let resize := observed.isSome && decide (capacity < desired.keys.card)
  let destination := if resize then set.spare else set.name
  let create :=
    if observed.isNone || resize then
      [.create destination set.family (dynamicIPSetCapacity desired.keys.card) maximumLease]
    else []
  let removals :=
    if resize then []
    else (obsolete (observed.elim [] (·.entries)) desired).map (.del set.name)
  -- A missing key of the Go map reads as zero.
  let known entry := (observed.bind (·.timeouts entry)).getD 0
  let additions :=
    (granted (fun entry => !resize && known entry == grant desired entry) desired).map
      fun entry => .add destination entry (grant desired entry)
  let exchange := if resize then [.swap set.spare set.name, .destroy set.spare] else []
  return discard ++ create ++ removals ++ additions ++ exchange

theorem needed_le_capacity (needed : Nat) : needed ≤ dynamicIPSetCapacity needed :=
  Nat.le_max_right _ _

theorem DynamicSet.spare_ne_name (set : DynamicSet) : set.spare ≠ set.name := by
  intro h
  have hc := congrArg String.toList h
  obtain ⟨family, name, dg, target, rfl⟩ := set
  cases family <;> simp [iptDynamicSpareName, iptDynamicSetName, familyToken] at hc

theorem IpSet.save_observes (set : IpSet) (h : 0 < set.maxelem) (hint : set.maxelem < 2 ^ 63) :
    Observes set.save set where
  capacity := by
    have hp := Json.atoi_decimalNat hint
    have hf : ascii "family" ≠ ascii "maxelem" := by decide
    have hti : ascii "timeout" ≠ ascii "maxelem" := by decide
    simp [ipsetCapacity, IpSet.save, capacityLoop, hf, hti, hp,
      Nat.ne_of_gt h]
  entries entry := by simp [IpSet.save, Finmap.mem_keys]
  timeouts _ := rfl

theorem read_save {set : Option IpSet} (h : ∀ s ∈ set, 0 < s.maxelem ∧ s.maxelem < 2 ^ 63) :
    Read (set.map IpSet.save) set := by
  cases set with
  | none => trivial
  | some s => exact s.save_observes (h s rfl).1 (h s rfl).2

end Perimeterd.Firewall
