import Perimeterd.Policy.Model

/-!
# Firewall targets

`internal/firewall/types.go` and the names of `nftables_model.go` and `iptables_model.go`. A target
is the complete, immutable desired state of one backend.

Identities are 32 lowercase hexadecimal characters in the source and are re-checked wherever they
are read; here they are the 128-bit values those characters spell, so an ill-formed one cannot be
written down. A native nftables name is `pd_<owner>_<token>_<role>`, with an owner and a token that
cannot be confused with what follows, and is kept as those three parts. iptables names are hashes:
`digest` stands for the hexadecimal SHA-256 of a text and is arbitrary throughout.
-/

namespace Perimeterd.Firewall

open Policy

/-- An owner, generation or transaction identity. -/
abbrev Id := BitVec 128

def hexDigit (n : Nat) : Char := "0123456789abcdef".toList.getD n '0'

def hex (id : Id) : String :=
  String.ofList ((List.range 32).reverse.map fun i => hexDigit (id.toNat / 16 ^ i % 16))

/-- The generation part of a native name: the word `stable`, or an identity. -/
inductive Token where
  | stable
  | generation (id : Id)
deriving DecidableEq

/-- A native nftables name, `artifactName`. -/
structure Artifact where
  owner : Id
  token : Token
  role : String
deriving DecidableEq

def Artifact.bytes (a : Artifact) : Nat :=
  "pd_".utf8ByteSize + 32 + 1 +
    (match a.token with
      | .stable => 6
      | .generation _ => 32) + 1 + a.role.utf8ByteSize

/-- `counterName`: stable across generations. -/
structure CounterName where
  owner : Id
  family : Family
  direction : Direction
  role : CounterRole
deriving DecidableEq

structure CounterSpec where
  name : CounterName
  family : Family
  direction : Direction
  role : CounterRole
deriving DecidableEq

/-- `Target`; `iptables` are the attachments of an iptables target. -/
structure Target where
  owner : Id
  table : String
  priority : Int
  generation : Id
  families : List FamilyPlan
  counters : List CounterSpec
  iptables : Option (List Config.Attachment) := none
  dynamicGeneration : Option Id := none
deriving DecidableEq

def Target.backend (t : Target) : Config.Backend :=
  if t.iptables.isSome then .iptables else .nftables

/-! ## nftables names -/

def familyToken : Family → String
  | .ipv4 => "v4"
  | .ipv6 => "v6"

def directionWord : Direction → String
  | .ingress => "ingress"
  | .egress => "egress"

def counterName (owner : Id) (f : Family) (d : Direction) (role : CounterRole) : CounterName :=
  ⟨owner, f, d, role⟩

def sanitizeRole (value : String) : String :=
  String.ofList (value.toList.map fun c => if c = '/' ∨ c = ' ' ∨ c = '.' then '_' else c)

def maxNFTNameBytes : Nat := 255

section Names

variable (digest : String → String)

/-- `setName`: readable, with a digest of the whole ID where the native limit cuts it. -/
def setName (t : Target) (f : Family) (setID : String) : Artifact :=
  match t.dynamicGeneration with
  | some dynamic =>
      if setID = "crowdsec" then ⟨t.owner, .generation dynamic, "dynamic_" ++ familyToken f⟩
      else static
  | none => static
where
  static : Artifact :=
    let stem := "set_" ++ familyToken f ++ "_"
    let readable := if setID = "geo/eligible" then "geo_policy_eligible" else sanitizeRole setID
    let whole : Artifact := ⟨t.owner, .generation t.generation, stem ++ readable⟩
    if whole.bytes ≤ maxNFTNameBytes then whole
    else
      let suffix := "_h" ++ digest setID
      let available := maxNFTNameBytes -
        (⟨t.owner, .generation t.generation, stem⟩ : Artifact).bytes - suffix.utf8ByteSize
      ⟨t.owner, .generation t.generation,
        stem ++ String.ofList (readable.toList.take available) ++ suffix⟩

/-! ## iptables names -/

def join (sep : String) (parts : List String) : String := sep.intercalate parts

def boolText (b : Bool) : String := if b then "true" else "false"

def iptSetName (t : Target) (f : Family) (setID : String) : String :=
  "pd" ++ familyToken f ++ "s" ++ String.ofList
    ((digest (join "\x00" ["set", hex t.owner, hex t.generation, familyToken f, setID])).toList.take 26)

/-- The dynamic generation's text; absent, it is empty. -/
def generationText : Option Id → String
  | some id => hex id
  | none => ""

def iptDynamicSetName (t : Target) (f : Family) : String :=
  "pd" ++ familyToken f ++ "d" ++ String.ofList
    ((digest (join "\x00" ["dynamic", hex t.owner, generationText t.dynamicGeneration,
      familyToken f, "crowdsec"])).toList.take 26)

/-- The spare differs from the live set in its role byte. -/
def iptDynamicSpareName (live : String) : String :=
  String.ofList (live.toList.take 4 ++ ['r'] ++ live.toList.drop 5)

def iptChainName (identity : String) : String :=
  "pdc" ++ String.ofList ((digest identity).toList.take 24)

def iptGenerationChainName (t : Target) (f : Family) (d : Direction) (originalDestination : Bool) :
    String :=
  iptChainName digest (join "\x00" ["staging", hex t.owner, hex t.generation, familyToken f,
    directionWord d, boolText originalDestination])

def attachmentIdentity (a : Config.Attachment) : String :=
  join "\x00" [a.chain, a.direction.text, join "\x01" a.inputInterfaces,
    join "\x01" a.outputInterfaces, boolText a.originalDestination]

def iptEntryChainName (t : Target) (f : Family) (a : Config.Attachment) : String :=
  iptChainName digest (join "\x00" ["entry", hex t.owner, familyToken f, attachmentIdentity a])

def iptFilterChainName (t : Target) (f : Family) (a : Config.Attachment) : String :=
  iptChainName digest (join "\x00" ["filter", hex t.owner, familyToken f, attachmentIdentity a])

def attachmentDirection (a : Config.Attachment) : Direction :=
  if a.direction = .egress then .egress else .ingress

end Names

end Perimeterd.Firewall
