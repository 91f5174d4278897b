import Perimeterd.CrowdSec.Store
import Perimeterd.CrowdSec.Uint128

/-!
# Projecting decisions onto disjoint timed prefixes

`internal/crowdsec/projection.go`. Per family, the prefixes become events at their two boundaries; a
sweep over the sorted events keeps a heap of the active deadlines and emits maximal ranges of equal
deadline; each range is cut greedily into prefixes.

The heap is what `container/heap` documents: `push` adds an item, the first item is one with the
latest deadline, popping removes it. It is kept as a list in that order. Removal is lazy, as in the
source: `current` pops the items whose decision has ended.
-/

namespace Perimeterd.CrowdSec

open Lib Policy

structure ProjectionEvent where
  boundary : ProjectionBoundary
  index : Nat
  remove : Bool
deriving DecidableEq

structure ProjectionRange where
  start : Uint128
  stop : ProjectionBoundary
  deadline : Time
deriving DecidableEq

structure ProjectionHeapItem where
  index : Nat
  deadline : Time
deriving DecidableEq

/-- `projectionDeadlineHeap`, latest deadline first. -/
abbrev DeadlineHeap := List ProjectionHeapItem

def DeadlineHeap.push (h : DeadlineHeap) (item : ProjectionHeapItem) : DeadlineHeap :=
  h.orderedInsert (fun a b => b.deadline ≤ a.deadline) item

/-- `current`: the heap without its ended front, and the item now in front. -/
def DeadlineHeap.current (active : Nat → Bool) : DeadlineHeap → DeadlineHeap
  | [] => []
  | top :: rest => if active top.index then top :: rest else DeadlineHeap.current active rest

def decisionEvents (f : Family) (index : Nat) (d : Decision) : List ProjectionEvent :=
  let start := addr128 d.pfx.masked.addr
  [{ boundary := { value := start }, index := index, remove := false },
   { boundary := prefixEnd start d.pfx.bits f.width, index := index, remove := true }]

def projectionEvents (decisions : List Decision) (f : Family) (now : Time) :
    List ProjectionEvent :=
  decisions.zipIdx.flatMap fun (d, index) =>
    if d.pfx.addr.family ≠ f ∨ d.live now = false then [] else decisionEvents f index d

def deadlineOf (decisions : List Decision) (index : Nat) : Time :=
  match decisions[index]? with
  | some d => d.deadline
  | none => 0

/-- Events that end at a boundary, applied before those that begin there. -/
def deactivate (active : Nat → Bool) (event : ProjectionEvent) : Nat → Bool :=
  if event.remove then Function.update active event.index false else active

def activate (decisions : List Decision) (s : (Nat → Bool) × DeadlineHeap)
    (event : ProjectionEvent) : (Nat → Bool) × DeadlineHeap :=
  if event.remove then s
  else (Function.update s.1 event.index true,
    s.2.push ⟨event.index, deadlineOf decisions event.index⟩)

/-- A segment joins the last range when it continues it with the same deadline. -/
def extendRanges (ranges : List ProjectionRange) (start : Uint128) (next : ProjectionBoundary)
    (deadline : Time) : List ProjectionRange :=
  match ranges.getLast? with
  | some last =>
      if last.stop.value = start ∧ last.stop.top = false ∧ last.deadline = deadline then
        ranges.dropLast ++ [{ last with stop := next }]
      else ranges ++ [⟨start, next, deadline⟩]
  | none => ranges ++ [⟨start, next, deadline⟩]

/-- The sweep; one round per distinct boundary. -/
def sweep (decisions : List Decision) : Nat → List ProjectionEvent → (Nat → Bool) → DeadlineHeap →
    List ProjectionRange → List ProjectionRange
  | 0, _, _, _, ranges => ranges
  | _ + 1, [], _, _, ranges => ranges
  | fuel + 1, event :: rest, active, deadlines, ranges =>
      let same := fun e : ProjectionEvent => compareBoundary event.boundary e.boundary = .eq
      let group := event :: rest.takeWhile same
      let remaining := rest.dropWhile same
      let (active, deadlines) :=
        group.foldl (activate decisions) (group.foldl deactivate active, deadlines)
      match remaining with
      | [] => ranges
      | next :: _ =>
          let deadlines := deadlines.current active
          let ranges :=
            match deadlines with
            | best :: _ =>
                if compareBoundary event.boundary next.boundary = .lt then
                  extendRanges ranges event.boundary.value next.boundary best.deadline
                else ranges
            | [] => ranges
          sweep decisions fuel remaining active deadlines ranges

/-- `netip.PrefixFrom` of an address given in two words. -/
def prefixFrom (f : Family) (start : Uint128) (chosen : Nat) : Prefix where
  addr :=
    { family := f
      value := start.toNat % 2 ^ f.width
      lt := Nat.mod_lt _ (Nat.two_pow_pos _) }
  bits := f.width - chosen
  le := Nat.sub_le _ _

/-- The largest aligned size that ends by the boundary, searched from `sizeBits` down. -/
def chosenSize (start : Uint128) (stop : ProjectionBoundary) (width : Nat) : Nat → Option Nat
  | 0 =>
      if aligned start 0 width ∧ compareBoundary (addPower start 0 width) stop ≠ .gt then some 0
      else none
  | sizeBits + 1 =>
      if aligned start (sizeBits + 1) width ∧
          compareBoundary (addPower start (sizeBits + 1) width) stop ≠ .gt then some (sizeBits + 1)
      else chosenSize start stop width sizeBits

/-- `decomposeRange`. `none` is the panic of the source, or a loop that has not ended. -/
def decomposeRange (f : Family) (stop : ProjectionBoundary) (deadline : Time) :
    Nat → Uint128 → Option (List TimedPrefix)
  | 0, _ => none
  | fuel + 1, start =>
      if stop.top ∧ start = .zero then some [⟨prefixFrom f .zero f.width, deadline⟩]
      else if stop.top = false ∧ compareUint128 start stop.value ≠ .lt then some []
      else
        match chosenSize start stop f.width f.width with
        | none => none
        | some chosen =>
            let candidate := addPower start chosen f.width
            let piece : TimedPrefix := ⟨prefixFrom f start chosen, deadline⟩
            if candidate.top then some [piece]
            else (decomposeRange f stop deadline fuel candidate.value).map (piece :: ·)

/-- The prefixes of all ranges, in order. -/
def decomposeAll (f : Family) : List ProjectionRange → Option (List TimedPrefix)
  | [] => some []
  | r :: rest => do
      let first ← decomposeRange f r.stop r.deadline (2 ^ f.width + 1) r.start
      let others ← decomposeAll f rest
      some (first ++ others)

def projectFamily (decisions : List Decision) (f : Family) (now : Time) :
    Option (List TimedPrefix) :=
  let events := projectionEvents decisions f now
  let sorted := sortSlice (fun a b => compareBoundary a.boundary b.boundary = .lt) events
  decomposeAll f (sweep decisions sorted.length sorted (fun _ => false) [] [])

/-- `Store.projection`, over the decisions in the order the map yields them. -/
def projection (contents : List Decision) (now : Time) : Option (List TimedPrefix) := do
  let decisions := contents.filter (·.live now)
  let v4 ← projectFamily decisions .ipv4 now
  let v6 ← projectFamily decisions .ipv6 now
  some (v4 ++ v6)

end Perimeterd.CrowdSec
