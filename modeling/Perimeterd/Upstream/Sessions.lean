import Perimeterd.Lib.Tally
import Perimeterd.Upstream.Manager

/-!
# Sessions, round trips and the whole life of a generation

A session is a handle on the generations one `Load` captured; `Retain` makes another handle on the
same generations. A round trip is an operation of its own: it takes a reference before it sends and
gives it back when it fails or when the body of its response is closed, which may be long after the
session that made it has gone.

`World.step` is one critical section of any of them. `Session.Close` is several: it marks the handle
closed under the session's lock and releases its generations one by one afterwards, and everything
else may run in between. A call that the code refuses, or that has nothing to do, is a step that
changes nothing, so any list of events is an interleaving.
-/

namespace Perimeterd.Upstream

open List

structure Session where
  closed : Bool
  generations : List (String × Nat)
  /-- What a running `Close` has still to release. -/
  releasing : List Nat
  deriving DecidableEq, Repr

/-- What the handle contains and has not yet released. -/
def Session.held (s : Session) : List Nat := s.generations.map Prod.snd ++ s.releasing

inductive Phase where
  /-- `acquireOperation` succeeded. -/
  | acquired
  /-- The transport is registered with the generation and the request is out. -/
  | sent
  /-- A response was returned whose body is open. -/
  | body
  /-- It failed, or its body was closed. -/
  | ended
  deriving DecidableEq, Repr

structure Operation where
  generation : Nat
  phase : Phase
  deriving DecidableEq, Repr

def Operation.held (o : Operation) : List Nat := if o.phase = .ended then [] else [o.generation]

/-- What the inner transport answers to a request. -/
inductive Answer where
  | failure
  /-- No response, or a response without a body. -/
  | empty
  | response
  deriving DecidableEq, Repr

/-- The identities of one `Load`, by profile: a profile's credentials are captured once. -/
structure Captured where
  entries : List (String × String)
  distinct : (entries.map Prod.fst).Nodup

inductive Event where
  | load (captured : Captured)
  | retain (session : Nat)
  | close (session : Nat)
  /-- One round of the loop of a running `Close`. -/
  | release (session g : Nat)
  | begin (g : Nat)
  | register (operation : Nat)
  | answer (operation : Nat) (a : Answer)
  | closeBody (operation : Nat)
  | closeManager
  | startClose (g : Nat)
  | drain (g : Nat)
  | finish (g : Nat)

structure World where
  manager : Manager
  sessions : List Session
  operations : List Operation

def World.start : World := { manager := newManager, sessions := [], operations := [] }

/-! ## Steps -/

def World.load (w : World) (captured : Captured) : World :=
  if w.manager.closed then w
  else
    let (manager, generations) := w.manager.acquireAll captured.entries
    { w with manager, sessions := w.sessions ++ [⟨false, generations, []⟩] }

def World.retain (w : World) (i : Nat) : World :=
  match w.sessions[i]? with
  | none => w
  | some s =>
    if s.closed || w.manager.closed then w
    else
      { w with
        manager := (s.generations.map Prod.snd).foldl Manager.addRef w.manager
        sessions := w.sessions ++ [⟨false, s.generations, []⟩] }

def World.close (w : World) (i : Nat) : World :=
  match w.sessions[i]? with
  | none => w
  | some s =>
    if s.closed then w
    else { w with sessions := w.sessions.set i ⟨true, [], s.generations.map Prod.snd⟩ }

def World.release (w : World) (i g : Nat) : World :=
  match w.sessions[i]? with
  | none => w
  | some s =>
    if g ∈ s.releasing then
      { w with
        manager := w.manager.release g
        sessions := w.sessions.set i { s with releasing := s.releasing.erase g } }
    else w

def World.begin (w : World) (g : Nat) : World :=
  if w.manager.retainable g then
    { w with
      manager := w.manager.addRef g
      operations := w.operations ++ [⟨g, .acquired⟩] }
  else w

/-- The end of an operation: its reference is given back. -/
def World.endOperation (w : World) (j : Nat) (o : Operation) : World :=
  { w with
    manager := w.manager.release o.generation
    operations := w.operations.set j { o with phase := .ended } }

def World.register (w : World) (j : Nat) : World :=
  match w.operations[j]? with
  | none => w
  | some o =>
    if o.phase = .acquired then
      if w.manager.heap[o.generation]?.any (·.transports) then
        { w with operations := w.operations.set j { o with phase := .sent } }
      else w.endOperation j o
    else w

def World.answer (w : World) (j : Nat) (a : Answer) : World :=
  match w.operations[j]? with
  | none => w
  | some o =>
    if o.phase = .sent then
      match a with
      | .failure | .empty => w.endOperation j o
      | .response => { w with operations := w.operations.set j { o with phase := .body } }
    else w

/-- `releaseBody.Close`: only the first one releases. -/
def World.closeBody (w : World) (j : Nat) : World :=
  match w.operations[j]? with
  | none => w
  | some o => if o.phase = .body then w.endOperation j o else w

def World.step (w : World) : Event → World
  | .load captured => w.load captured
  | .retain i => w.retain i
  | .close i => w.close i
  | .release i g => w.release i g
  | .begin g => w.begin g
  | .register j => w.register j
  | .answer j a => w.answer j a
  | .closeBody j => w.closeBody j
  | .closeManager => { w with manager := w.manager.close }
  | .startClose g => { w with manager := w.manager.startClose g }
  | .drain g => { w with manager := w.manager.drain g }
  | .finish g => { w with manager := w.manager.finish g }

def World.run (w : World) (events : List Event) : World := events.foldl World.step w

/-! ## The invariant -/

/-- How many references the handles and the operations have to each generation. -/
def World.holders (w : World) : Nat → Nat := fun g =>
  Lib.tally Session.held w.sessions g + Lib.tally Operation.held w.operations g

/-- A handle contains nothing twice, and releases only what it contained when it was closed. -/
structure Session.Tidy (s : Session) : Prop where
  nodup : s.held.Nodup
  idle : s.closed = false → s.releasing = []

structure Exact (w : World) : Prop where
  counted : Counted w.manager w.holders
  tidy : ∀ s ∈ w.sessions, s.Tidy

theorem exact_start : Exact World.start := ⟨counted_newManager, by simp [World.start]⟩

variable {w : World}

theorem holders_session (s : Session) (manager : Manager) :
    World.holders ⟨manager, w.sessions ++ [s], w.operations⟩ = w.holders + counts s.held := by
  funext g
  simp only [World.holders, Lib.tally_append, Lib.tally_singleton, Pi.add_apply, counts]
  omega

theorem holders_operation (o : Operation) (manager : Manager) :
    World.holders ⟨manager, w.sessions, w.operations ++ [o]⟩ = w.holders + counts o.held := by
  funext g
  simp only [World.holders, Lib.tally_append, Lib.tally_singleton, Pi.add_apply, counts]
  omega

theorem holders_set_session {i : Nat} {s s' : Session} {gave : List Nat} (manager : Manager)
    (hs : w.sessions[i]? = some s) (hh : s.held.Perm (gave ++ s'.held)) :
    w.holders = World.holders ⟨manager, w.sessions.set i s', w.operations⟩ + counts gave := by
  funext g
  have hta : Lib.tally Session.held (w.sessions.set i s') g + s.held.count g = _ :=
    Lib.tally_set hs s'
  have hc := hh.count_eq g
  simp only [World.holders, Pi.add_apply, counts, count_append] at hta hc ⊢
  omega

theorem holders_set_operation {j : Nat} {o o' : Operation} {gave : List Nat} (manager : Manager)
    (ho : w.operations[j]? = some o) (hh : o.held = gave ++ o'.held) :
    w.holders = World.holders ⟨manager, w.sessions, w.operations.set j o'⟩ + counts gave := by
  funext g
  have hta : Lib.tally Operation.held (w.operations.set j o') g + o.held.count g = _ :=
    Lib.tally_set ho o'
  have hc := congrArg (List.count g) hh
  simp only [World.holders, Pi.add_apply, counts, count_append] at hta hc ⊢
  omega

theorem holders_pos {s : Session} {g : Nat} (hs : s ∈ w.sessions) (hg : g ∈ s.held) :
    0 < w.holders g :=
  Nat.lt_of_lt_of_le (Lib.tally_pos hs hg) (Nat.le_add_right _ _)

/-! ## What one step preserves -/

theorem held_new (gens : List (String × Nat)) :
    Session.held ⟨false, gens, []⟩ = gens.map Prod.snd := append_nil _

theorem tidy_new {gens : List (String × Nat)} (h : (gens.map Prod.snd).Nodup) :
    Session.Tidy ⟨false, gens, []⟩ :=
  ⟨(held_new gens).symm ▸ h, fun _ => rfl⟩

theorem tidy_append {s' : Session} (h : ∀ s ∈ w.sessions, s.Tidy) (hs' : s'.Tidy) :
    ∀ s ∈ w.sessions ++ [s'], s.Tidy := by
  intro s hs
  rcases mem_append.mp hs with hs | hs
  · exact h s hs
  · exact mem_singleton.mp hs ▸ hs'

theorem tidy_set {i : Nat} {s' : Session} (h : ∀ s ∈ w.sessions, s.Tidy) (hs' : s'.Tidy) :
    ∀ s ∈ w.sessions.set i s', s.Tidy := by
  intro s hs
  rcases mem_or_eq_of_mem_set hs with hs | rfl
  · exact h s hs
  · exact hs'

/-- What a step leaves: exact counts, and a later manager. -/
structure Onward (w w' : World) : Prop where
  counts : Exact w'
  later : Later w.manager w'.manager

section

variable (h : Exact w)

include h

theorem Exact.same : Onward w w := ⟨h, Later.refl _⟩

theorem Exact.load (captured : Captured) : Onward w (w.load captured) := by
  rw [World.load]
  split
  · exact h.same
  obtain ⟨hc, hl, hp, hh⟩ := h.counted.acquireAll captured.entries
  generalize w.manager.acquireAll captured.entries = loaded at hc hl hp hh ⊢
  obtain ⟨manager, gens⟩ := loaded
  -- two profiles have different generations, because a generation is of one profile
  have hno : (gens.map Prod.snd).Nodup := by
    have hd : (gens.map Prod.fst).Nodup := hp ▸ captured.distinct
    refine pairwise_map.mpr (List.Pairwise.imp_of_mem ?_ (pairwise_map.mp hd))
    intro e e' he he' hne heq
    obtain ⟨gen, hg, hid⟩ := hh e he
    obtain ⟨gen', hg', hid'⟩ := hh e' he'
    obtain rfl : gen = gen' := Option.some.inj (hg.symm.trans (heq ▸ hg'))
    exact hne (hid.symm.trans hid')
  refine ⟨⟨?_, tidy_append h.tidy (tidy_new hno)⟩, hl⟩
  rw [holders_session, held_new]
  exact hc

theorem Exact.retain (i : Nat) : Onward w (w.retain i) := by
  rw [World.retain]
  split
  · exact h.same
  case h_2 s hs =>
    split
    · exact h.same
    have hmem : s ∈ w.sessions := mem_of_getElem? hs
    have hp : ∀ g ∈ s.generations.map Prod.snd, 0 < w.holders g := fun g hg =>
      holders_pos hmem (mem_append_left _ hg)
    have hno := (nodup_append.mp (h.tidy s hmem).nodup).1
    obtain ⟨hc, hl⟩ := h.counted.addRefs hp
    refine ⟨⟨?_, tidy_append h.tidy (tidy_new hno)⟩, hl⟩
    rw [holders_session, held_new]
    exact hc

theorem Exact.close (i : Nat) : Onward w (w.close i) := by
  rw [World.close]
  split
  · exact h.same
  case h_2 s hs =>
    split
    · exact h.same
    case isFalse ho =>
      have hti := h.tidy s (mem_of_getElem? hs)
      have hh : s.held = s.generations.map Prod.snd := by
        rw [Session.held, hti.idle (by simpa using ho), append_nil]
      have hp : s.held.Perm ([] ++ Session.held ⟨true, [], s.generations.map Prod.snd⟩) := by
        rw [hh]
        rfl
      have hc := h.counted
      rw [holders_set_session w.manager hs hp] at hc
      exact ⟨⟨hc, tidy_set h.tidy ⟨hh ▸ hti.nodup, nofun⟩⟩, Later.refl _⟩

theorem Exact.release (i g : Nat) : Onward w (w.release i g) := by
  rw [World.release]
  split
  · exact h.same
  case h_2 s hs =>
    split
    case isTrue hg =>
      have hti := h.tidy s (mem_of_getElem? hs)
      have hh : s.held.Perm ([g] ++ Session.held { s with releasing := s.releasing.erase g }) :=
        (List.Perm.append_left _ (perm_cons_erase hg)).trans perm_middle
      have hga := holders_set_session (w.manager.release g) hs hh
      obtain ⟨hc, hl⟩ := Counted.release (hga ▸ h.counted)
      refine ⟨⟨hc, tidy_set h.tidy ⟨?_, ?_⟩⟩, hl⟩
      · exact (nodup_cons.mp (hh.nodup_iff.mp hti.nodup)).2
      · intro ho
        have := hti.idle ho
        simp [this]
    case isFalse => exact h.same

theorem Exact.begin (g : Nat) : Onward w (w.begin g) := by
  rw [World.begin]
  split
  case isTrue hre =>
    have hp : 0 < w.holders g := by
      rw [Manager.retainable] at hre
      split at hre
      · cases hre
      case h_2 gen hg =>
        have href := (h.counted.fits g gen hg).refs
        simp only [Bool.not_eq_true', Bool.or_eq_false_iff, beq_eq_false_iff_ne] at hre
        omega
    obtain ⟨hc, hl⟩ := h.counted.addRef hp
    refine ⟨⟨?_, h.tidy⟩, hl⟩
    rw [holders_operation]
    exact hc
  case isFalse => exact h.same

theorem Exact.endOperation {j : Nat} {o : Operation} (ho : w.operations[j]? = some o)
    (hin : o.phase ≠ .ended) : Onward w (w.endOperation j o) := by
  have hh : o.held = [o.generation] ++ Operation.held { o with phase := .ended } := by
    simp [Operation.held, hin]
  have hg := holders_set_operation (w.manager.release o.generation) ho hh
  obtain ⟨hc, hl⟩ := Counted.release (hg ▸ h.counted)
  exact ⟨⟨hc, h.tidy⟩, hl⟩

theorem Exact.advance {j : Nat} {o : Operation} {phase : Phase}
    (ho : w.operations[j]? = some o) (hin : o.phase ≠ .ended) (hp : phase ≠ .ended) :
    Exact { w with operations := w.operations.set j { o with phase } } := by
  have hh : o.held = [] ++ Operation.held { o with phase } := by
    simp [Operation.held, hin, hp]
  have hc := h.counted
  rw [holders_set_operation w.manager ho hh] at hc
  exact ⟨hc, h.tidy⟩

theorem Exact.register (j : Nat) : Onward w (w.register j) := by
  rw [World.register]
  split
  · exact h.same
  case h_2 o ho =>
    split
    case isTrue hp =>
      have hin : o.phase ≠ .ended := by simp [hp]
      split
      · exact ⟨h.advance ho hin nofun, Later.refl _⟩
      · exact h.endOperation ho hin
    case isFalse => exact h.same

theorem Exact.answer (j : Nat) (a : Answer) : Onward w (w.answer j a) := by
  rw [World.answer]
  split
  · exact h.same
  case h_2 o ho =>
    split
    case isTrue hp =>
      have hin : o.phase ≠ .ended := by simp [hp]
      cases a with
      | failure => exact h.endOperation ho hin
      | empty => exact h.endOperation ho hin
      | response => exact ⟨h.advance ho hin nofun, Later.refl _⟩
    case isFalse => exact h.same

theorem Exact.closeBody (j : Nat) : Onward w (w.closeBody j) := by
  rw [World.closeBody]
  split
  · exact h.same
  case h_2 o ho =>
    split
    case isTrue hp => exact h.endOperation ho (by simp [hp])
    case isFalse => exact h.same

theorem Exact.manager {m' : Manager} (hm : Counted m' w.holders ∧ Later w.manager m') :
    Onward w { w with manager := m' } :=
  ⟨⟨hm.1, h.tidy⟩, hm.2⟩

theorem Exact.step (e : Event) : Onward w (w.step e) := by
  cases e with
  | load captured => exact h.load captured
  | retain i => exact h.retain i
  | close i => exact h.close i
  | release i g => exact h.release i g
  | begin g => exact h.begin g
  | register j => exact h.register j
  | answer j a => exact h.answer j a
  | closeBody j => exact h.closeBody j
  | closeManager => exact h.manager h.counted.close
  | startClose g => exact h.manager (h.counted.startClose g)
  | drain g => exact h.manager (h.counted.drain g)
  | finish g => exact h.manager (h.counted.finish g)

theorem Exact.run (evs : List Event) : Onward w (w.run evs) := by
  induction evs generalizing w with
  | nil => exact h.same
  | cons e evs ih =>
    obtain ⟨hst, hla⟩ := h.step e
    obtain ⟨hru, hl⟩ := ih hst
    exact ⟨hru, hla.trans hl⟩

/-! ## Reference counts are exact -/

theorem Exact.holders_eq (g : Nat) :
    w.holders g = (w.sessions.countP fun s => g ∈ s.held) +
        w.operations.countP fun o => o.generation = g ∧ o.phase ≠ .ended := by
  have hse := Lib.tally_eq_countP (a := g) fun s hs => (h.tidy s hs).nodup
  have ho : Lib.tally Operation.held w.operations g = _ := Lib.tally_eq_countP fun o _ => by
      rw [Operation.held]
      split <;> simp
  rw [World.holders, hse, ho]
  congr 1
  apply countP_congr
  intro o _
  by_cases hen : o.phase = .ended <;> simp [Operation.held, hen, eq_comm]

end

/-- **Generations are counted exactly.** After any interleaving, the count of a generation is the
number of handles that contain it and have not released it plus the number of its operations in
flight; the manager's map has it exactly while the count is positive; it is shut down at most once,
and only when its count is zero or the manager is closed; and once its count is zero it stays zero,
with no handle and no operation ever referring to it again. -/
theorem generations_exact (events : List Event) :
    let w := World.start.run events
    ∀ (g : Nat) (gen : Generation), w.manager.heap[g]? = some gen →
      gen.refs = ((w.sessions.countP fun s => g ∈ s.held) +
        w.operations.countP fun o => o.generation = g ∧ o.phase ≠ .ended : Nat) ∧
      (∀ b, w.manager.generations b = some g ↔ gen.binding = b ∧ 0 < gen.refs) ∧
      gen.shutdowns ≤ 1 ∧
      (0 < gen.shutdowns → gen.refs = 0 ∨ w.manager.closed = true) ∧
      (gen.refs = 0 → ∀ later : List Event,
        let w' := w.run later
        (∃ gen', w'.manager.heap[g]? = some gen' ∧ gen'.refs = 0) ∧
        (∀ b, w'.manager.generations b ≠ some g) ∧
        (∀ s ∈ w'.sessions, g ∉ s.held) ∧
        ∀ o ∈ w'.operations, o.generation = g → o.phase = .ended) := by
  intro w g gen hge
  obtain ⟨hexa, -⟩ := exact_start.run events
  have hfits := hexa.counted.fits g gen hge
  refine ⟨hexa.holders_eq g ▸ hfits.refs, hfits.mapped, ?_, ?_, ?_⟩
  · rw [hfits.once]
    split <;> omega
  · intro hsh
    refine hfits.retired (.inl ?_)
    by_contra hon
    rw [hfits.once, if_neg hon] at hsh
    omega
  · intro hz later
    obtain ⟨he', hl⟩ := hexa.run later
    obtain ⟨gen', hg', -, hz'⟩ := hl g gen hge
    have hf' := he'.counted.fits g gen' hg'
    have hno : (w.run later).holders g = 0 := by
      have hre : gen'.refs = (w.run later).holders g := hf'.refs
      have := hz' hz
      omega
    refine ⟨⟨gen', hg', hz' hz⟩, ?_, ?_, ?_⟩
    · intro b hb
      have hpo := ((hf'.mapped b).mp hb).2
      have := hz' hz
      omega
    · intro s hs hg
      have := holders_pos hs hg
      omega
    · intro o ho hg
      by_contra hp
      have hmem : g ∈ o.held := by simp [Operation.held, hp, hg]
      have := Lib.tally_pos ho hmem
      rw [World.holders] at hno
      omega

/-- A request outlives its session: the generation is shut down when the body is closed. -/
def outlivingRequest : List Event :=
  [.load ⟨[("edge", "f1")], by simp⟩, .begin 0, .register 0, .close 0, .release 0 0,
    .answer 0 .response, .startClose 0, .closeBody 0, .startClose 0, .begin 0]

example : ((World.start.run outlivingRequest).manager.heap.map fun gen => (gen.refs, gen.shutdowns)) =
    [(0, 1)] := by decide

end Perimeterd.Upstream
