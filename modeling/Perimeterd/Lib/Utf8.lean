import Mathlib

/-!
# UTF-8, and what becomes of bytes that are not

A byte string is read as a list of `Chunk`s: the characters it holds and, one by one, the bytes that
belong to none. A reader that replaces the latter (`coerce`) produces text that is left alone by
every later reading; a text is its own replacement exactly when it was valid to begin with.

Everything is stated over the list of chunks, so that a proof about text is an induction over
characters and never over bytes.
-/

namespace Lib

open List

abbrev Bytes := List UInt8

/-- The bytes of a text of ASCII characters. -/
def ascii (s : String) : Bytes := s.toList.map fun c => UInt8.ofNat c.toNat

namespace Utf8

/-! ## The first character -/

def tail (b : UInt8) : Bool := 0x80 ≤ b && b ≤ 0xBF

def two (a b : UInt8) : Bool := 0xC2 ≤ a && a ≤ 0xDF && tail b

def three (a b c : UInt8) : Bool :=
  tail c &&
    ((a == 0xE0 && 0xA0 ≤ b && b ≤ 0xBF) || (0xE1 ≤ a && a ≤ 0xEC && tail b) ||
      (a == 0xED && 0x80 ≤ b && b ≤ 0x9F) || (0xEE ≤ a && a ≤ 0xEF && tail b))

def four (a b c d : UInt8) : Bool :=
  tail c && tail d &&
    ((a == 0xF0 && 0x90 ≤ b && b ≤ 0xBF) || (0xF1 ≤ a && a ≤ 0xF3 && tail b) ||
      (a == 0xF4 && 0x80 ≤ b && b ≤ 0x8F))

/-- The length of the character a byte string begins with, and zero when it begins with none. -/
def lead : Bytes → Nat
  | [] => 0
  | a :: rest =>
      if a < 0x80 then 1
      else match rest with
        | [] => 0
        | b :: rest =>
            if two a b then 2
            else match rest with
              | [] => 0
              | c :: rest =>
                  if three a b c then 3
                  else match rest with
                    | [] => 0
                    | d :: _ => if four a b c d then 4 else 0

structure Rune where
  bytes : Bytes
  whole : lead bytes = bytes.length
  nonempty : bytes ≠ []
deriving DecidableEq

theorem lead_le (s : Bytes) : lead s ≤ s.length := by
  unfold lead
  split
  · exact Nat.le_refl 0
  split
  · exact Nat.le_add_left 1 _
  split
  · exact Nat.zero_le _
  split
  · simp
  split
  · exact Nat.zero_le _
  split
  · simp
  split
  · exact Nat.zero_le _
  split
  · simp
  · exact Nat.zero_le _

theorem lead_append_of_pos (s t : Bytes) (h : 0 < lead s) : lead (s ++ t) = lead s := by
  rcases s with _ | ⟨a, _ | ⟨b, _ | ⟨c, _ | ⟨d, s⟩⟩⟩⟩
  · cases h
  all_goals
    simp only [lead] at h ⊢
    grind [lead]

theorem lead_take (s : Bytes) (h : 0 < lead s) : lead (s.take (lead s)) = lead s := by
  rcases s with _ | ⟨a, _ | ⟨b, _ | ⟨c, _ | ⟨d, s⟩⟩⟩⟩
  · cases h
  all_goals
    simp only [lead] at h ⊢
    grind [lead]

namespace Rune

theorem length_pos (r : Rune) : 0 < r.bytes.length := length_pos_iff.mpr r.nonempty

@[simp] theorem lead_append (r : Rune) (s : Bytes) : lead (r.bytes ++ s) = r.bytes.length := by
  rw [lead_append_of_pos _ _ (r.whole ▸ r.length_pos), r.whole]

/-- The character a byte string begins with. -/
def front (s : Bytes) (h : 0 < lead s) : Rune where
  bytes := s.take (lead s)
  whole := by
    rw [lead_take s h, List.length_take, Nat.min_eq_left (lead_le s)]
  nonempty := by
    intro hnil
    have hlen : (s.take (lead s)).length = 0 := by rw [hnil]; rfl
    rw [List.length_take, Nat.min_eq_left (lead_le s)] at hlen
    omega

/-- U+FFFD, which stands in for what is not a character. -/
def replacement : Rune := ⟨[0xEF, 0xBF, 0xBD], by decide, by decide⟩

end Rune

/-! ## Chunks -/

inductive Chunk where
  | rune (r : Rune)
  | bad (b : UInt8)
deriving DecidableEq

namespace Chunk

def raw : Chunk → Bytes
  | rune r => r.bytes
  | bad b => [b]

def isRune : Chunk → Bool
  | rune _ => true
  | bad _ => false

/-- A byte that belongs to no character becomes U+FFFD. -/
def mend : Chunk → Chunk
  | rune r => rune r
  | bad _ => rune .replacement

@[simp] theorem isRune_mend (c : Chunk) : c.mend.isRune = true := by cases c <;> rfl

theorem mend_eq_self {c : Chunk} : c.mend = c ↔ c.isRune = true := by
  cases c <;> simp [mend, isRune]

end Chunk

/-- The chunk in front of a byte string, and the rest. -/
def next (a : UInt8) (rest : Bytes) : Chunk × Bytes :=
  if h : 0 < lead (a :: rest) then
    (.rune (.front (a :: rest) h), (a :: rest).drop (lead (a :: rest)))
  else (.bad a, rest)

def splitAtMost : Nat → Bytes → List Chunk
  | 0, _ => []
  | _ + 1, [] => []
  | n + 1, a :: rest => (next a rest).1 :: splitAtMost n (next a rest).2

/-- A byte string as its characters and the bytes between them. -/
def split (s : Bytes) : List Chunk := splitAtMost s.length s

def join (cs : List Chunk) : Bytes := cs.flatMap Chunk.raw

theorem raw_next (a : UInt8) (rest : Bytes) : (next a rest).1.raw ++ (next a rest).2 = a :: rest := by
  unfold next
  split
  · exact take_append_drop _ _
  · rfl

theorem next_shorter (a : UInt8) (rest : Bytes) : (next a rest).2.length ≤ rest.length := by
  unfold next
  split
  case isTrue h =>
    rw [length_drop, length_cons]
    omega
  case isFalse => exact Nat.le_refl _

theorem join_splitAtMost (n : Nat) (s : Bytes) (h : s.length ≤ n) : join (splitAtMost n s) = s := by
  induction n generalizing s with
  | zero =>
    rw [length_eq_zero_iff.mp (Nat.le_zero.mp h)]
    rfl
  | succ n ih =>
    cases s with
    | nil => rfl
    | cons a rest =>
      have hsh := next_shorter a rest
      rw [length_cons] at h
      simp only [splitAtMost, join, flatMap_cons]
      rw [show (splitAtMost n (next a rest).2).flatMap Chunk.raw = (next a rest).2 from
        ih _ (by omega)]
      exact raw_next a rest

@[simp] theorem join_split (s : Bytes) : join (split s) = s := join_splitAtMost _ s (Nat.le_refl _)

theorem next_rune (r : Rune) (s : Bytes) (a : UInt8) (rest : Bytes) (h : r.bytes ++ s = a :: rest) :
    next a rest = (.rune r, s) := by
  have hl : lead (a :: rest) = r.bytes.length := h ▸ r.lead_append s
  have hp : 0 < lead (a :: rest) := hl ▸ r.length_pos
  have hta : (a :: rest).take (lead (a :: rest)) = r.bytes := by
    rw [hl, ← h, take_left]
  have hd : (a :: rest).drop (lead (a :: rest)) = s := by
    rw [hl, ← h, drop_left]
  unfold next
  rw [dif_pos hp, hd]
  refine Prod.ext (congrArg Chunk.rune ?_) rfl
  obtain ⟨bytes, whole, nonempty⟩ := r
  simp only [Rune.front, Rune.mk.injEq]
  exact hta

theorem splitAtMost_join (cs : List Chunk) (hcs : ∀ c ∈ cs, c.isRune = true) (n : Nat)
    (h : (join cs).length ≤ n) : splitAtMost n (join cs) = cs := by
  induction cs generalizing n with
  | nil => cases n <;> rfl
  | cons c cs ih =>
    obtain ⟨r, rfl⟩ : ∃ r, c = .rune r := by
      have hc := hcs c mem_cons_self
      cases c with
      | rune r => exact ⟨r, rfl⟩
      | bad b => cases hc
    have hjo : join (.rune r :: cs) = r.bytes ++ join cs := rfl
    have hp := r.length_pos
    rw [hjo, length_append] at h
    obtain ⟨a, rest, hrest⟩ := exists_cons_of_ne_nil
      (show r.bytes ++ join cs ≠ [] from fun hnil => r.nonempty (append_eq_nil_iff.mp hnil).1)
    obtain ⟨n, rfl⟩ : ∃ m, n = m + 1 := ⟨n - 1, by omega⟩
    rw [hjo, hrest, splitAtMost, next_rune r (join cs) a rest hrest]
    simp only [List.cons.injEq, true_and]
    exact ih (fun c hc => hcs c (mem_cons_of_mem _ hc)) n (by omega)

theorem split_join {cs : List Chunk} (hcs : ∀ c ∈ cs, c.isRune = true) : split (join cs) = cs :=
  splitAtMost_join cs hcs _ (Nat.le_refl _)

/-! ## Validity and replacement -/

def valid (s : Bytes) : Bool := (split s).all Chunk.isRune

/-- The text with U+FFFD in place of every byte that belongs to no character. -/
def coerce (s : Bytes) : Bytes := join ((split s).map Chunk.mend)

theorem split_coerce (s : Bytes) : split (coerce s) = (split s).map Chunk.mend := by
  apply split_join
  intro c hc
  obtain ⟨d, -, rfl⟩ := mem_map.mp hc
  exact d.isRune_mend

@[simp] theorem valid_coerce (s : Bytes) : valid (coerce s) = true := by
  simp [valid, split_coerce]

theorem map_mend_eq_self {cs : List Chunk} : cs.map Chunk.mend = cs ↔ cs.all Chunk.isRune := by
  induction cs with
  | nil => simp
  | cons c cs ih => simp [Chunk.mend_eq_self, ih]

/-- **A text is its own replacement exactly when it is valid.** -/
theorem coerce_eq_self {s : Bytes} : coerce s = s ↔ valid s = true := by
  unfold valid
  rw [← map_mend_eq_self]
  constructor
  · intro h
    rw [← split_coerce, h]
  · intro h
    rw [coerce, h, join_split]

theorem join_eq_nil {cs : List Chunk} : join cs = [] ↔ cs = [] := by
  cases cs with
  | nil => exact iff_of_true rfl rfl
  | cons c cs =>
    refine iff_of_false (fun h => ?_) (cons_ne_nil c cs)
    have hnil := (append_eq_nil_iff.mp h).1
    cases c with
    | rune r => exact r.nonempty hnil
    | bad b => exact cons_ne_nil b [] hnil

@[simp] theorem isEmpty_coerce (s : Bytes) : (coerce s).isEmpty = s.isEmpty := by
  rw [Bool.eq_iff_iff, List.isEmpty_iff, List.isEmpty_iff, coerce, join_eq_nil, map_eq_nil_iff, ← join_eq_nil,
    join_split]

theorem splitAtMost_ascii (n : Nat) (s : Bytes) (h : ∀ a ∈ s, a < 0x80) :
    (splitAtMost n s).all Chunk.isRune = true := by
  induction n generalizing s with
  | zero => rfl
  | succ n ih =>
    cases s with
    | nil => rfl
    | cons a rest =>
      have hl : lead (a :: rest) = 1 := by simp [lead, h a mem_cons_self]
      have hne : (next a rest).1.isRune = true ∧ (next a rest).2 = rest := by
        simp [next, hl, Chunk.isRune]
      rw [splitAtMost, all_cons, hne.1, hne.2]
      exact ih rest fun b hb => h b (mem_cons_of_mem _ hb)

theorem valid_of_ascii {s : Bytes} (h : ∀ a ∈ s, a < 0x80) : valid s = true :=
  splitAtMost_ascii _ s h

end Utf8

end Lib
