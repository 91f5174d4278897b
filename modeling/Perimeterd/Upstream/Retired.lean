import Perimeterd.Upstream.Sessions

/-!
# No generation is left behind

A shutdown is decided on in one critical section and made later, so a generation that nobody refers
to could be forgotten in between. It never is: until its shutdown starts, the call waits.
-/

namespace Perimeterd.Upstream

open List

structure Tended (m : Manager) (g : Nat) (gen : Generation) : Prop where
  once : 0 < gen.shutdowns → gen.closeOnce = true
  /-- What nobody refers to is shut down or waits for it, and everything does in a closed manager. -/
  due : gen.refs ≤ 0 ∨ m.closed = true → gen.closeOnce = true ∨ g ∈ m.starting
  /-- `Close` finds all that is not yet shut down. -/
  live : gen.closeOnce = false → g ∈ m.live

def Attended (m : Manager) : Prop :=
  ∀ (g : Nat) (gen : Generation), m.heap[g]? = some gen → Tended m g gen

section

variable {m : Manager} (h : Attended m)

include h

theorem Attended.addRef (g : Nat) : Attended (m.addRef g) := by
  intro g' gen hg
  grind [Manager.addRef, Manager.modify, Attended, Tended]

theorem Attended.release (g : Nat) : Attended (m.release g) := by
  intro g' gen hg
  grind [Manager.release, Attended, Tended]

theorem Attended.close : Attended m.close := by
  intro g' gen hg
  grind [Manager.close, Attended, Tended]

theorem Attended.startClose (g : Nat) : Attended (m.startClose g) := by
  intro g' gen hg
  grind [Manager.startClose, Manager.modify, Attended, Tended]

theorem Attended.drain (g : Nat) : Attended (m.drain g) := by
  intro g' gen hg
  grind [Manager.drain, Manager.modify, Attended, Tended]

theorem Attended.finish (g : Nat) : Attended (m.finish g) := by
  intro g' gen hg
  grind [Manager.finish, Manager.modify, Attended, Tended]

theorem Attended.addRefs (gs : List Nat) : Attended (gs.foldl Manager.addRef m) := by
  induction gs generalizing m with
  | nil => exact h
  | cons g gs ih => exact ih (h.addRef g)

theorem Attended.acquire (ho : m.closed = false) (b : Binding) :
    Attended (m.acquire b).1 ∧ (m.acquire b).1.closed = false := by
  rw [Manager.acquire]
  split
  · refine ⟨h.addRef _, ?_⟩
    grind [Manager.addRef, Manager.modify]
  · rw [allocate_addRef]
    refine ⟨fun g gen hg => ?_, ho⟩
    grind [Attended, Tended, freshGeneration]

theorem Attended.acquireAll (ho : m.closed = false) (captured : List (String × String)) :
    Attended (m.acquireAll captured).1 := by
  induction captured generalizing m with
  | nil => exact h
  | cons entry rest ih =>
    obtain ⟨ha, ho'⟩ := h.acquire ho ⟨entry.1, entry.2⟩
    exact ih ha ho'

end

theorem Attended.step {w : World} (h : Attended w.manager) (e : Event) :
    Attended (w.step e).manager := by
  cases e with
  | load captured =>
    rw [World.step, World.load]
    split
    case isTrue => exact h
    case isFalse ho => exact h.acquireAll (Bool.eq_false_iff.mpr ho) _
  | retain i | close i =>
    simp only [World.step, World.retain, World.close]
    repeat' split
    all_goals first | exact h | exact h.addRefs _
  | begin g =>
    rw [World.step, World.begin]
    split
    · exact h.addRef g
    · exact h
  | release i g | register j | answer j a | closeBody j =>
    -- either the manager is left alone, or one reference is given back
    simp only [World.step, World.release, World.register, World.answer, World.closeBody,
      World.endOperation]
    repeat' split
    all_goals first | exact h | exact h.release _
  | closeManager => exact h.close
  | startClose g => exact h.startClose g
  | drain g => exact h.drain g
  | finish g => exact h.finish g

theorem Attended.run {w : World} (h : Attended w.manager) (events : List Event) :
    Attended (w.run events).manager := by
  induction events generalizing w with
  | nil => exact h
  | cons e rest ih => exact ih (h.step e)

/-- **No generation is left behind.** After any interleaving, a generation to which nobody refers has
been shut down, once, or the call that does it is about to be made; once the manager is closed, every
generation has or is. -/
theorem generations_retired (events : List Event) (g : Nat) (gen : Generation)
    (hgen : (World.start.run events).manager.heap[g]? = some gen)
    (hdue : gen.refs = 0 ∨ (World.start.run events).manager.closed = true) :
    gen.shutdowns = 1 ∨ g ∈ (World.start.run events).manager.starting := by
  have hstart : Attended World.start.manager := fun _ _ hg => by cases hg
  have hfits := (exact_start.run events).counts.counted.fits g gen hgen
  refine ((hstart.run events g gen hgen).due (hdue.imp_left Int.le_of_eq)).imp_left fun ho => ?_
  rw [hfits.once, if_pos ho]

theorem outliving_retired :
    ∃ gen, (World.start.run outlivingRequest).manager.heap[0]? = some gen ∧
      (gen.shutdowns = 1 ∨ 0 ∈ (World.start.run outlivingRequest).manager.starting) :=
  ⟨_, rfl, generations_retired outlivingRequest 0 _ rfl (.inl rfl)⟩

end Perimeterd.Upstream
