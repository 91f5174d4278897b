import Perimeterd.Lib.Search
import Perimeterd.Netip

/-!
# `internal/prefix`: the algorithms

The functions of `set.go` on plain prefix lists, as the code computes them. `Prefix.Set`
(`Prefix/Set.lean`) packages their results with the invariant the proofs establish for them.

The only change of shape is that a Go slice window `xs[i:j]` is the list it denotes, so a loop that
advances an index drops from the list instead. Where the code bisects, the model bisects
(`Lib.searchIn`).
-/

namespace Perimeterd

open Lib

namespace Prefix

/-! ## Bits of an address -/

/-- Clears bit `i` (counted from the least significant end). -/
def clearBit (v i : Nat) : Nat := if v.testBit i then v - 2 ^ i else v

theorem clearBit_le (v i : Nat) : clearBit v i ≤ v := by
  unfold clearBit
  split
  · exact Nat.sub_le _ _
  · exact le_rfl

/-- `prefixEnd`: the last address of the prefix, every host bit set. -/
def prefixEnd (p : Prefix) : Addr where
  family := p.addr.family
  value := p.addr.value ||| (2 ^ p.host - 1)
  lt := Nat.or_lt_two_pow p.addr.lt
    (lt_of_lt_of_le (Nat.sub_lt (Nat.two_pow_pos _) Nat.one_pos)
      (Nat.pow_le_pow_right (by norm_num) p.host_le))

/-- `split`: the two halves, or nothing for a single address. -/
def split (p : Prefix) : Option (Prefix × Prefix) :=
  if h : p.bits < p.addr.family.width then
    let i := p.addr.family.width - 1 - p.bits
    let base := clearBit p.addr.value i
    have hbase : base < 2 ^ p.addr.family.width := lt_of_le_of_lt (clearBit_le _ _) p.addr.lt
    some
      ({ addr := { family := p.addr.family, value := base, lt := hbase }
         bits := p.bits + 1
         le := h },
       { addr :=
          { family := p.addr.family
            value := base ||| 2 ^ i
            lt := Nat.or_lt_two_pow hbase (Nat.pow_lt_pow_right (by norm_num) (by omega)) }
         bits := p.bits + 1
         le := h })
  else none

/-! ## Normalization -/

/-- `validate`, with its error texts. A prefix never has a zone, and a valid address is of one of
the two families, so the source's other two errors have no input. -/
def validate : NetipPrefix → Except String Prefix
  | .zero => .error "invalid address"
  | .badBits _ => .error "invalid prefix length -1"
  | .valid p => .ok p

/-- `less`: IPv4 first, then network address, then the shorter prefix. -/
def less (a b : Prefix) : Bool :=
  if a.addr.is4 != b.addr.is4 then a.addr.is4
  else
    match a.addr.compare b.addr with
    | .lt => true
    | .gt => false
    | .eq => a.bits < b.bits

/-- The scan of `canonicalize`: `last` is the element kept most recently, and a candidate whose
address it contains is skipped. -/
def keepUncovered : Option Prefix → List Prefix → List Prefix
  | _, [] => []
  | last, candidate :: rest =>
      if last.any (·.contains candidate.addr) then keepUncovered last rest
      else candidate :: keepUncovered (some candidate) rest

def canonicalize (values : List Prefix) : List Prefix :=
  keepUncovered none (sortSlice less values)

/-- The validation loop of `Normalize`; `i` is the position reported in an error. -/
def maskAll : Nat → List NetipPrefix → Except String (List Prefix)
  | _, [] => .ok []
  | i, value :: rest =>
      match validate value with
      | .error e => .error s!"prefix {i}: {e}"
      | .ok p =>
          match maskAll (i + 1) rest with
          | .error e => .error e
          | .ok ps => .ok (p.masked :: ps)

def normalize (values : List NetipPrefix) : Except String (List Prefix) :=
  match maskAll 0 values with
  | .error e => .error e
  | .ok ps => .ok (canonicalize ps)

/-! ## Difference -/

/-- `overlapRange`: the window of `excludes` that can meet `node`. -/
def overlapRange (node : Prefix) (excludes : List Prefix) : Nat × Nat :=
  (searchIn excludes fun e => (prefixEnd e).compare node.addr != .lt,
   searchIn excludes fun e => e.addr.compare (prefixEnd node) == .gt)

/-- `subtractNode`. `fuel` is the node's host bits: a node without any cannot be split, and every
split spends one. -/
def subtractNode : Nat → Prefix → List Prefix → List Prefix
  | fuel, node, excludes =>
      let (start, stop) := overlapRange node excludes
      if start = stop then [node]
      else
        let window := (excludes.take stop).drop start
        if window.head?.any fun e => e.bits ≤ node.bits && e.contains node.addr then []
        else
          match split node, fuel with
          | some (left, right), fuel + 1 =>
              subtractNode fuel left window ++ subtractNode fuel right window
          | _, _ => []

/-- `processFamily`: `excludes` shrinks to `excludes[exclusionStart:]` as the loop advances. -/
def processFamily : List Prefix → List Prefix → List Prefix
  | [], _ => []
  | inc :: includes, excludes =>
      let remaining := excludes.dropWhile fun e => (prefixEnd e).compare inc.addr == .lt
      let window := remaining.takeWhile fun e => e.addr.compare (prefixEnd inc) != .gt
      (if window.isEmpty then [inc] else subtractNode inc.host inc window) ++
        processFamily includes remaining

end Prefix

end Perimeterd
