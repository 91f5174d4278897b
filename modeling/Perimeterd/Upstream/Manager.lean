import Mathlib

/-!
# The generations of the upstream manager

A captured identity becomes a *generation*: the credentials of one profile at one fingerprint, shared
by every session and every operation that uses them. The manager keeps generations by binding and
counts references to them. `Load` reuses the generation its map has or makes a fresh one, a last
release takes the generation out of the map and starts its shutdown, and `Close` starts the shutdown
of every generation that is still live.

Every definition here is one critical section under the manager's lock, or one step of a shutdown
outside of it. A pointer to a generation is its place in `heap`, which only grows. Between a critical
section that decides to shut a generation down and the `closeOnce.Do` that does it, other goroutines
run: the calls that are still to come wait in `starting`.

The correctness of the counts is stated against an abstract count `n : Nat → Nat` of who holds what,
`Counted m n`: taking a reference moves to `n + counts [g]`, and releasing one moves back.
-/

namespace Perimeterd.Upstream

open List

/-- What the binding of a captured identity can differ in: `captureIdentity` always writes the type
`openziti` and no service. -/
structure Binding where
  identity : String
  identityGeneration : String
  deriving DecidableEq, Repr

structure Generation where
  binding : Binding
  refs : Int
  closeOnce : Bool
  /-- How many times `shutdown` was started. -/
  shutdowns : Nat
  /-- Whether the map of transports is not yet nil. -/
  transports : Bool
  /-- Whether the channel `closed` is closed. -/
  closed : Bool
  deriving DecidableEq, Repr

structure Manager where
  heap : List Generation
  generations : Binding → Option Nat
  live : List Nat
  closed : Bool
  /-- Calls of `startClose` that are decided on and not yet made. -/
  starting : List Nat

def newManager : Manager :=
  { heap := [], generations := fun _ => none, live := [], closed := false, starting := [] }

/-! ## Critical sections -/

/-- A write to the generation that a pointer leads to; a pointer is never nil. -/
def Manager.modify (m : Manager) (g : Nat) (f : Generation → Generation) : Manager :=
  match m.heap[g]? with
  | none => m
  | some gen => { m with heap := m.heap.set g (f gen) }

def Manager.addRef (m : Manager) (g : Nat) : Manager :=
  m.modify g fun gen => { gen with refs := gen.refs + 1 }

def freshGeneration (binding : Binding) : Generation :=
  { binding, refs := 0, closeOnce := false, shutdowns := 0, transports := true, closed := false }

/-- A generation that no session has yet. -/
def Manager.allocate (m : Manager) (binding : Binding) : Manager :=
  { m with
    heap := m.heap ++ [freshGeneration binding]
    generations := Function.update m.generations binding (some m.heap.length)
    live := m.live ++ [m.heap.length] }

/-- The body of `Load`'s loop over the captured identities. -/
def Manager.acquire (m : Manager) (binding : Binding) : Manager × Nat :=
  match m.generations binding with
  | some g => (m.addRef g, g)
  | none => ((m.allocate binding).addRef m.heap.length, m.heap.length)

/-- The loop of `Load`, in whatever order the map of captured identities is ranged over. -/
def Manager.acquireAll (m : Manager) : List (String × String) → Manager × List (String × Nat)
  | [] => (m, [])
  | (profile, fingerprint) :: rest =>
    let (m, g) := m.acquire ⟨profile, fingerprint⟩
    let (m, generations) := m.acquireAll rest
    (m, (profile, g) :: generations)

/-- Whether `retain` takes a reference to the generation at `g`. -/
def Manager.retainable (m : Manager) (g : Nat) : Bool :=
  match m.heap[g]? with
  | none => false
  | some gen => !(m.closed || gen.refs == 0)

def Manager.release (m : Manager) (g : Nat) : Manager :=
  match m.heap[g]? with
  | none => m
  | some gen =>
    let heap := m.heap.set g { gen with refs := gen.refs - 1 }
    if gen.refs - 1 = 0 then
      { m with
        heap
        generations := Function.update m.generations gen.binding none
        starting := m.starting ++ [g] }
    else { m with heap }

def Manager.close (m : Manager) : Manager :=
  { m with closed := true, starting := m.starting ++ m.live }

/-! ## Shutdown -/

def Manager.startClose (m : Manager) (g : Nat) : Manager :=
  if g ∈ m.starting then
    { m with starting := m.starting.erase g }.modify g fun gen =>
      if gen.closeOnce then gen
      else { gen with closeOnce := true, shutdowns := gen.shutdowns + 1 }
  else m

/-- The first half of a running `shutdown`: the transports are taken away. -/
def Manager.drain (m : Manager) (g : Nat) : Manager :=
  m.modify g fun gen => if 0 < gen.shutdowns then { gen with transports := false } else gen

/-- The end of a running `shutdown`: the channel is closed and the generation is not live. -/
def Manager.finish (m : Manager) (g : Nat) : Manager :=
  if (m.heap[g]?.any fun gen => 0 < gen.shutdowns && !gen.transports && !gen.closed) then
    { m with live := m.live.erase g }.modify g fun gen => { gen with closed := true }
  else m

/-! ## Counting -/

/-- How often each generation stands in a list of them. -/
def counts (gs : List Nat) : Nat → Nat := fun g => gs.count g

theorem add_counts_cons (n : Nat → Nat) (g : Nat) (gs : List Nat) :
    n + counts [g] + counts gs = n + counts (g :: gs) := by
  funext g'
  simp only [counts, Pi.add_apply, count_cons, count_nil]
  omega

theorem counts_self (g : Nat) : counts [g] g = 1 := by simp [counts]

theorem counts_ne {g g' : Nat} (h : g' ≠ g) : counts [g] g' = 0 := by simp [counts, h.symm]

/-- The manager's record of one generation, when it is referred to `count` times. -/
structure Fits (m : Manager) (count g : Nat) (gen : Generation) : Prop where
  refs : gen.refs = count
  mapped : ∀ b, m.generations b = some g ↔ gen.binding = b ∧ 0 < gen.refs
  once : gen.shutdowns = if gen.closeOnce then 1 else 0
  /-- Only what nobody refers to is shut down, unless the whole manager is. -/
  retired : gen.closeOnce = true ∨ g ∈ m.starting → gen.refs = 0 ∨ m.closed = true

/-- The manager's records agree with the number `n g` of references to every generation `g`. -/
structure Counted (m : Manager) (n : Nat → Nat) : Prop where
  fits : ∀ (g : Nat) (gen : Generation), m.heap[g]? = some gen → Fits m (n g) g gen
  absent : ∀ g, m.heap.length ≤ g →
    n g = 0 ∧ (∀ b, m.generations b ≠ some g) ∧ g ∉ m.live ∧ g ∉ m.starting

/-- What a generation never loses: its place, its binding and the fact that it is gone. -/
def Later (m m' : Manager) : Prop :=
  ∀ (g : Nat) (gen : Generation), m.heap[g]? = some gen →
    ∃ gen', m'.heap[g]? = some gen' ∧ gen'.binding = gen.binding ∧ (gen.refs = 0 → gen'.refs = 0)

theorem Later.refl (m : Manager) : Later m m := fun _ gen hg => ⟨gen, hg, rfl, id⟩

theorem Later.trans {m₁ m₂ m₃ : Manager} (h₁ : Later m₁ m₂) (h₂ : Later m₂ m₃) : Later m₁ m₃ := by
  intro g gen hg
  obtain ⟨gen₂, hg₂, hb₂, hz₂⟩ := h₁ g gen hg
  obtain ⟨gen₃, hg₃, hb₃, hz₃⟩ := h₂ g gen₂ hg₂
  exact ⟨gen₃, hg₃, hb₃.trans hb₂, hz₃ ∘ hz₂⟩

theorem counted_newManager : Counted newManager 0 where
  fits := by simp [newManager]
  absent := by simp [newManager]

variable {m m' : Manager} {n n' : Nat → Nat} {g : Nat} {gen gen' : Generation}

theorem Counted.exists_of_pos (hc : Counted m n) (hg : 0 < n g) : ∃ gen, m.heap[g]? = some gen := by
  rcases Nat.lt_or_ge g m.heap.length with hlt | hge
  · exact ⟨_, List.getElem?_eq_getElem hlt⟩
  · exact absurd (hc.absent g hge).1 (by omega)

/-! ## A step that writes one generation -/

theorem Counted.set (hc : Counted m n) (hg : m.heap[g]? = some gen)
    (hh : m'.heap = m.heap.set g gen') (hn : ∀ g', g' ≠ g → n' g' = n g')
    (hma : ∀ b g', g' ≠ g → (m'.generations b = some g' ↔ m.generations b = some g'))
    (hl : ∀ g', g' ∈ m'.live → g' ∈ m.live)
    (hst : ∀ g', g' ≠ g → g' ∈ m'.starting → g' ∈ m.starting) (hcl : m'.closed = m.closed)
    (hfits : Fits m' (n' g) g gen') : Counted m' n' := by
  have hlt : g < m.heap.length := (List.getElem?_eq_some_iff.mp hg).1
  constructor
  · intro g' gen'' hg''
    by_cases hne : g' = g
    · subst hne
      rw [hh, List.getElem?_set_self hlt] at hg''
      exact Option.some.inj hg'' ▸ hfits
    · rw [hh, List.getElem?_set_ne (Ne.symm hne)] at hg''
      have hold := hc.fits g' gen'' hg''
      refine ⟨hn g' hne ▸ hold.refs, fun b => (hma b g' hne).trans (hold.mapped b), hold.once, ?_⟩
      intro hre
      rw [hcl]
      exact hold.retired (hre.imp_right (hst g' hne))
  · intro g' hge
    rw [hh, length_set] at hge
    have hne : g' ≠ g := by omega
    obtain ⟨hz, hno, hd, hidle⟩ := hc.absent g' hge
    exact ⟨(hn g' hne).trans hz, fun b h => hno b ((hma b g' hne).mp h),
      fun h => hd (hl g' h), fun h => hidle (hst g' hne h)⟩

theorem Later.set (hg : m.heap[g]? = some gen) (hh : m'.heap = m.heap.set g gen')
    (hbi : gen'.binding = gen.binding) (hz : gen.refs = 0 → gen'.refs = 0) : Later m m' := by
  intro g' gen'' hg''
  rw [hh]
  by_cases hne : g' = g
  · subst hne
    obtain rfl := Option.some.inj (hg.symm.trans hg'')
    exact ⟨gen', List.getElem?_set_self (List.getElem?_eq_some_iff.mp hg).1, hbi, hz⟩
  · exact ⟨gen'', (List.getElem?_set_ne (Ne.symm hne)).trans hg'', rfl, id⟩

theorem modify_eq (hg : m.heap[g]? = some gen) (f : Generation → Generation) :
    m.modify g f = { m with heap := m.heap.set g (f gen) } := by
  rw [Manager.modify, hg]

/-! ## Taking references -/

theorem Counted.addRef (hc : Counted m n) (hg : 0 < n g) :
    Counted (m.addRef g) (n + counts [g]) ∧ Later m (m.addRef g) := by
  obtain ⟨gen, hge⟩ := hc.exists_of_pos hg
  have hold := hc.fits g gen hge
  have href := hold.refs
  rw [Manager.addRef, modify_eq hge]
  refine ⟨hc.set hge rfl (fun g' hne => by simp [counts_ne hne]) (fun _ _ _ => Iff.rfl)
    (fun _ h => h) (fun _ _ h => h) rfl ⟨?_, ?_, hold.once, ?_⟩, Later.set hge rfl rfl fun hz => by omega⟩
  · simp [href, counts_self]
  · intro b
    dsimp only
    rw [hold.mapped b]
    constructor <;> rintro ⟨hb, _⟩ <;> exact ⟨hb, by omega⟩
  · -- somebody has a reference, so only a closed manager shuts the generation down
    intro hre
    rcases hold.retired hre with hz | hcl
    · omega
    · exact .inr hcl

theorem Counted.addRefs {gs : List Nat} (hc : Counted m n) (hgs : ∀ g ∈ gs, 0 < n g) :
    Counted (gs.foldl Manager.addRef m) (n + counts gs) ∧ Later m (gs.foldl Manager.addRef m) := by
  induction gs generalizing m n with
  | nil => exact ⟨hc, Later.refl m⟩
  | cons g gs ih =>
    obtain ⟨hc', hla⟩ := hc.addRef (hgs g mem_cons_self)
    obtain ⟨hcs, hl⟩ := ih hc' fun g' hg' =>
      Nat.lt_of_lt_of_le (hgs g' (mem_cons_of_mem _ hg')) (Nat.le_add_right _ _)
    exact ⟨add_counts_cons n g gs ▸ hcs, hla.trans hl⟩

theorem allocate_addRef (m : Manager) (b : Binding) :
    (m.allocate b).addRef m.heap.length =
      { m with
        heap := m.heap ++ [{ freshGeneration b with refs := 1 }]
        generations := Function.update m.generations b (some m.heap.length)
        live := m.live ++ [m.heap.length] } := by
  rw [Manager.addRef, modify_eq List.getElem?_concat_length]
  simp [Manager.allocate, freshGeneration]

theorem Counted.append (hc : Counted m n) {b : Binding} (hb : m.generations b = none)
    (hh : m'.heap = m.heap ++ [{ freshGeneration b with refs := 1 }])
    (hmap : m'.generations = Function.update m.generations b (some m.heap.length))
    (hl : m'.live = m.live ++ [m.heap.length]) (hst : m'.starting = m.starting)
    (hcl : m'.closed = m.closed) : Counted m' (n + counts [m.heap.length]) := by
  obtain ⟨hz, hno, hd, hidle⟩ := hc.absent m.heap.length (Nat.le_refl _)
  have hma : ∀ b' g, g ≠ m.heap.length →
      (m'.generations b' = some g ↔ m.generations b' = some g) := by
    intro b' g hne
    rw [hmap]
    by_cases hbb : b' = b
    · subst hbb
      simp [hb, hne.symm]
    · rw [Function.update_of_ne hbb]
  constructor
  · intro g gen hg
    rw [hh] at hg
    rcases Nat.lt_or_ge g m.heap.length with hlt | hge
    · rw [List.getElem?_append_left hlt] at hg
      have hne : g ≠ m.heap.length := by omega
      have hold := hc.fits g gen hg
      refine ⟨by simp [hold.refs, counts_ne hne], fun b' => (hma b' g hne).trans (hold.mapped b'),
        hold.once, ?_⟩
      rw [hst, hcl]
      exact hold.retired
    · have hlen : g = m.heap.length := by
        have := (List.getElem?_eq_some_iff.mp hg).1
        rw [length_append, length_singleton] at this
        omega
      subst hlen
      obtain rfl := Option.some.inj (List.getElem?_concat_length.symm.trans hg)
      refine ⟨by simp [hz, counts_self], ?_, rfl, by simp [freshGeneration, hst, hidle]⟩
      intro b'
      rw [hmap]
      by_cases hbb : b' = b
      · simp [hbb, freshGeneration]
      · simp [Function.update_of_ne hbb, hno, freshGeneration, Ne.symm hbb]
  · intro g hge
    rw [hh, length_append, length_singleton] at hge
    have hne : g ≠ m.heap.length := by omega
    obtain ⟨hz', hn', hd', hi'⟩ := hc.absent g (by omega)
    exact ⟨by simp [hz', counts_ne hne], fun b' h => hn' b' ((hma b' g hne).mp h),
      by simp [hl, hd', hne], hst ▸ hi'⟩

theorem Counted.acquire (hc : Counted m n) (b : Binding) :
    Counted (m.acquire b).1 (n + counts [(m.acquire b).2]) ∧ Later m (m.acquire b).1 ∧
      ∃ gen, (m.acquire b).1.heap[(m.acquire b).2]? = some gen ∧ gen.binding = b := by
  rw [Manager.acquire]
  cases hb : m.generations b with
  | some g =>
    have hlt : g < m.heap.length := by
      by_contra hge
      exact (hc.absent g (by omega)).2.1 b hb
    have hgen := List.getElem?_eq_getElem hlt
    have hold := hc.fits g _ hgen
    obtain ⟨hbi, hp⟩ := (hold.mapped b).mp hb
    have hre := hold.refs
    obtain ⟨hc', hl⟩ := hc.addRef (g := g) (by omega)
    obtain ⟨gen', hg', hb', _⟩ := hl g _ hgen
    exact ⟨hc', hl, gen', hg', hb'.trans hbi⟩
  | none =>
    rw [allocate_addRef]
    refine ⟨hc.append hb rfl rfl rfl rfl rfl, ?_, _, List.getElem?_concat_length, rfl⟩
    intro g gen hg
    exact ⟨gen, (List.getElem?_append_left (List.getElem?_eq_some_iff.mp hg).1).trans hg, rfl, id⟩

theorem Counted.acquireAll (hc : Counted m n) (captured : List (String × String)) :
    Counted (m.acquireAll captured).1 (n + counts ((m.acquireAll captured).2.map Prod.snd)) ∧
      Later m (m.acquireAll captured).1 ∧
      (m.acquireAll captured).2.map Prod.fst = captured.map Prod.fst ∧
      ∀ entry ∈ (m.acquireAll captured).2, ∃ gen,
        (m.acquireAll captured).1.heap[entry.2]? = some gen ∧ gen.binding.identity = entry.1 := by
  induction captured generalizing m n with
  | nil => exact ⟨hc, Later.refl m, rfl, by simp [Manager.acquireAll]⟩
  | cons entry rest ih =>
    obtain ⟨profile, fp⟩ := entry
    obtain ⟨hc', hla, gen, hg, hbi⟩ := hc.acquire ⟨profile, fp⟩
    obtain ⟨hcs, hl, hp, hh⟩ := ih hc'
    rw [Manager.acquireAll]
    refine ⟨add_counts_cons n _ _ ▸ hcs, hla.trans hl, congrArg (profile :: ·) hp, ?_⟩
    intro entry hen
    rcases mem_cons.mp hen with rfl | hen
    · obtain ⟨gen', hg', hb', _⟩ := hl _ gen hg
      exact ⟨gen', hg', by rw [hb', hbi]⟩
    · exact hh entry hen

/-! ## Giving a reference back -/

theorem Counted.release (hc : Counted m (n + counts [g])) :
    Counted (m.release g) n ∧ Later m (m.release g) := by
  have hp : 0 < (n + counts [g]) g := by simp [counts_self]
  obtain ⟨gen, hg⟩ := hc.exists_of_pos hp
  have hold := hc.fits g gen hg
  have href : gen.refs = n g + 1 := by simpa [counts_self] using hold.refs
  have hn : ∀ g', g' ≠ g → n g' = (n + counts [g]) g' := fun g' hne => by simp [counts_ne hne]
  have hmi : m.generations gen.binding = some g := (hold.mapped _).mpr ⟨rfl, by omega⟩
  rw [Manager.release, hg]
  dsimp only
  split
  case isTrue hz =>
    refine ⟨hc.set hg rfl hn ?_ (fun _ h => h) ?_ rfl ⟨?_, ?_, hold.once, fun _ => .inl hz⟩,
      Later.set hg rfl rfl fun h => by omega⟩
    · intro b g' hne
      dsimp only
      by_cases hb : b = gen.binding
      · subst hb
        simp [hmi, hne.symm]
      · rw [Function.update_of_ne hb]
    · intro g' hne hst
      simpa [hne] using hst
    · dsimp only
      omega
    · intro b
      dsimp only
      by_cases hb : b = gen.binding
      · simp [hb, hz]
      · rw [Function.update_of_ne hb, hold.mapped b]
        simp [Ne.symm hb]
  case isFalse hz =>
    refine ⟨hc.set hg rfl hn (fun _ _ _ => Iff.rfl) (fun _ h => h) (fun _ _ h => h) rfl
      ⟨?_, ?_, hold.once, ?_⟩, Later.set hg rfl rfl fun h => by omega⟩
    · dsimp only
      omega
    · intro b
      dsimp only
      rw [hold.mapped b]
      constructor <;> rintro ⟨hb, _⟩ <;> exact ⟨hb, by omega⟩
    · intro hre
      rcases hold.retired hre with h | hcl
      · omega
      · exact .inr hcl

/-! ## Closing and shutting down -/

theorem Counted.close (hc : Counted m n) : Counted m.close n ∧ Later m m.close := by
  refine ⟨⟨fun g gen hg => ?_, fun g hge => ?_⟩, fun g gen hg => ⟨gen, hg, rfl, id⟩⟩
  · have hold := hc.fits g gen hg
    exact ⟨hold.refs, hold.mapped, hold.once, fun _ => .inr rfl⟩
  · obtain ⟨hz, hno, hd, hidle⟩ := hc.absent g hge
    exact ⟨hz, hno, hd, by simp [Manager.close, hd, hidle]⟩

theorem Counted.shutdown {f : Generation → Generation} (hc : Counted m n)
    (hma : m'.generations = m.generations) (hl : m'.live ⊆ m.live)
    (hst : m'.starting ⊆ m.starting) (hcl : m'.closed = m.closed) (hh : m'.heap = m.heap)
    (hbi : ∀ gen, (f gen).binding = gen.binding) (hre : ∀ gen, (f gen).refs = gen.refs)
    (ho : ∀ gen, m.heap[g]? = some gen → (f gen).shutdowns = if (f gen).closeOnce then 1 else 0)
    (hret : ∀ gen, m.heap[g]? = some gen → (f gen).closeOnce = true →
      gen.closeOnce = true ∨ g ∈ m.starting) :
    Counted (m'.modify g f) n ∧ Later m (m'.modify g f) := by
  cases hg : m.heap[g]? with
  | none =>
    rw [Manager.modify, hh, hg]
    dsimp only
    refine ⟨⟨fun g' gen hg' => ?_, fun g' hge => ?_⟩, fun g' gen hg' => ?_⟩
    · have hold := hc.fits g' gen (hh ▸ hg')
      exact ⟨hold.refs, hma ▸ hold.mapped, hold.once,
        fun h => hcl ▸ hold.retired (h.imp_right fun h => hst h)⟩
    · obtain ⟨hz, hno, hd, hidle⟩ := hc.absent g' (hh ▸ hge)
      exact ⟨hz, hma ▸ hno, fun h => hd (hl h), fun h => hidle (hst h)⟩
    · exact ⟨gen, hh ▸ hg', rfl, id⟩
  | some gen =>
    have hold := hc.fits g gen hg
    rw [modify_eq (hh ▸ hg)]
    refine ⟨hc.set hg (by rw [hh]) (fun _ _ => rfl) (fun b g' _ => by dsimp only; rw [hma])
      (fun _ h => hl h) (fun _ _ h => hst h) hcl
      ⟨(hre gen).trans hold.refs, fun b => ?_, ho gen hg, fun h => ?_⟩,
      Later.set hg (by rw [hh]) (hbi gen) fun hz => (hre gen).trans hz⟩
    · dsimp only
      rw [hma, hbi, hre]
      exact hold.mapped b
    · dsimp only at h ⊢
      rw [hre, hcl]
      rcases h with h | h
      · exact hold.retired (hret gen hg h)
      · exact hold.retired (.inr (hst h))

theorem Counted.startClose (hc : Counted m n) (g : Nat) :
    Counted (m.startClose g) n ∧ Later m (m.startClose g) := by
  rw [Manager.startClose]
  split
  case isTrue hw =>
    refine hc.shutdown rfl (fun _ h => h) (fun _ h => mem_of_mem_erase h) rfl rfl ?_ ?_ ?_ ?_
    · intro gen
      split <;> rfl
    · intro gen
      split <;> rfl
    · intro gen hg
      have ho := (hc.fits g gen hg).once
      split
      case isTrue hd => simpa [hd] using ho
      case isFalse hd => simp [ho, hd]
    · exact fun _ _ _ => .inr hw
  case isFalse => exact ⟨hc, Later.refl m⟩

theorem Counted.drain (hc : Counted m n) (g : Nat) :
    Counted (m.drain g) n ∧ Later m (m.drain g) := by
  have hsa : ∀ gen : Generation,
      (if 0 < gen.shutdowns then { gen with transports := false } else gen) =
        { gen with transports := gen.transports && !decide (0 < gen.shutdowns) } := by
    intro gen
    split <;> simp [*]
  rw [Manager.drain]
  simp only [hsa]
  exact hc.shutdown rfl (fun _ h => h) (fun _ h => h) rfl rfl (fun _ => rfl) (fun _ => rfl)
    (fun gen hg => (hc.fits g gen hg).once) fun _ _ h => .inl h

theorem Counted.finish (hc : Counted m n) (g : Nat) :
    Counted (m.finish g) n ∧ Later m (m.finish g) := by
  rw [Manager.finish]
  split
  · exact hc.shutdown rfl (fun _ h => mem_of_mem_erase h) (fun _ h => h) rfl rfl
      (fun _ => rfl) (fun _ => rfl) (fun gen hg => (hc.fits g gen hg).once) fun _ _ h => .inl h
  · exact ⟨hc, Later.refl m⟩

end Perimeterd.Upstream
