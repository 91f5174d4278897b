import Mathlib

/-!
# Storage between a write and its synchronization

A `Cell` is one named piece of durable storage: what a reader sees now, and the earlier values that
may come back if the machine stops before the write has been synchronized. Everything that has to
survive a crash is stated over `all`, the values a reader may find afterwards; a crash only makes
that list smaller (`Survives`), so such statements survive it by themselves.
-/

namespace Lib

structure Cell (α : Type) where
  seen : α
  past : List α := []

namespace Cell

variable {α : Type}

/-- What a reader may find after a crash. -/
def all (c : Cell α) : List α := c.seen :: c.past

/-- A write that is not synchronized yet. -/
def write (c : Cell α) (v : α) : Cell α := ⟨v, c.all⟩

/-- Synchronization: what is seen is all that is left. -/
def sync (c : Cell α) : Cell α := ⟨c.seen, []⟩

/-- A crash leaves one of the possible values, and forgets some of the others. -/
def Survives (c c' : Cell α) : Prop := ∀ x ∈ c'.all, x ∈ c.all

def Only (c : Cell α) (v : α) : Prop := ∀ x ∈ c.all, x = v

variable {c : Cell α} {v : α}

theorem seen_mem (c : Cell α) : c.seen ∈ c.all := List.mem_cons_self

@[simp] theorem write_seen (c : Cell α) (v : α) : (c.write v).seen = v := rfl

@[simp] theorem sync_seen (c : Cell α) : c.sync.seen = c.seen := rfl

theorem mem_write {x : α} : x ∈ (c.write v).all ↔ x = v ∨ x ∈ c.all := by
  simp [write, all]

theorem mem_sync {x : α} : x ∈ c.sync.all ↔ x = c.seen := by
  simp [sync, all]

theorem survives_refl (c : Cell α) : c.Survives c := fun _ h => h

theorem survives_sync (c : Cell α) : c.Survives c.sync := by
  intro x hx
  rw [mem_sync] at hx
  rw [hx]
  exact c.seen_mem

theorem only_sync (c : Cell α) : c.sync.Only c.seen := fun _ hx => mem_sync.mp hx

theorem Only.seen (h : c.Only v) : c.seen = v := h _ c.seen_mem

theorem Only.survives {c' : Cell α} (h : c.Only v) (hs : c.Survives c') : c'.Only v :=
  fun x hx => h x (hs x hx)

theorem Only.write (h : c.Only v) : (c.write v).Only v := by
  intro x hx
  rcases mem_write.mp hx with rfl | hx
  · rfl
  · exact h x hx

end Cell

end Lib
