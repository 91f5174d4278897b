import Perimeterd.Firewall.Ipset

/-!
# Bounded `ipset restore`

`internal/firewall/iptables.go`, `restoreSetsBounded`. A script of `ipset` commands is handed to
`ipset restore` in pieces of a bounded size. A restore is not transactional, so what matters is that
the pieces are whole lines, in order, with none left out; where the loop stops, the commands before
have been issued and none after.

The outcomes of the invocations are a stream: `run k` is the error of the `k`-th one, if it fails.
-/

namespace Perimeterd.Firewall

open Lib List

/-! ## The loop -/

def newline : UInt8 := 10

/-- `strings.IndexByte`: `-1` where the byte does not occur. -/
def indexByte (s : Bytes) (c : UInt8) : Int := if c ∈ s then s.idxOf c else -1

def lastIndexByte (s : Bytes) (c : UInt8) : Int := s.length - 1 - s.reverse.idxOf c

structure CapacityError where
  backend : String
  resource : String
  scope : String
  requiredBytes : Nat
  limitBytes : Nat
deriving DecidableEq, Repr

inductive RestoreError (ε : Type) where
  | invocation (error : ε)
  | capacity (error : CapacityError)
deriving DecidableEq, Repr

/-- The error for a line of the given size. -/
def inputTooLong (required limit : Nat) : CapacityError :=
  { backend := "iptables", resource := "ipsets", scope := "input"
    requiredBytes := required, limitBytes := limit }

/-- How much of the input the next invocation takes. -/
def inputSize (limit : Nat) (input : Bytes) : Except CapacityError Nat :=
  let size := min input.length limit
  if size < input.length then
    let size := (lastIndexByte (input.take size) newline + 1).toNat
    if size = 0 then
      let required := (indexByte input newline + 1).toNat
      .error (inputTooLong (if required = 0 then input.length else required) limit)
    else .ok size
  else .ok size

theorem inputSize_pos {limit size : Nat} {input : Bytes} (hne : input ≠ [])
    (h : inputSize limit input = .ok size) : 0 < size := by
  have hlen := length_pos_iff.mpr hne
  unfold inputSize at h
  dsimp only at h
  split_ifs at h with hlt hz
  · rw [← Except.ok.inj h]
    omega
  · rw [← Except.ok.inj h]
    omega

variable {ε : Type}

/-- The inputs of the invocations, and how the loop ended. -/
def restoreSetsBounded (run : Nat → Option ε) (limit : Nat) (input : Bytes) :
    List Bytes × Option (RestoreError ε) :=
  if _hne : input = [] then ([], none)
  else
    match _hs : inputSize limit input with
    | .error e => ([], some (.capacity e))
    | .ok size =>
        match run 0 with
        | some e => ([input.take size], some (.invocation e))
        | none =>
            let rest := restoreSetsBounded (fun k => run (k + 1)) limit (input.drop size)
            (input.take size :: rest.1, rest.2)
termination_by input.length
decreasing_by
  have := inputSize_pos _hne _hs
  have := length_pos_iff.mpr _hne
  rw [length_drop]
  omega

/-! ## Scripts -/

structure Line where
  text : Bytes
  single : newline ∉ text

def script (lines : List Line) : Bytes := lines.flatMap fun line => line.text ++ [newline]

variable {limit : Nat} {lines : List Line}

theorem script_cons (line : Line) (lines : List Line) :
    script (line :: lines) = line.text ++ newline :: script lines := by
  simp [script]

theorem script_append (a b : List Line) : script (a ++ b) = script a ++ script b :=
  flatMap_append

theorem script_flatten (chunks : List (List Line)) :
    script chunks.flatten = (chunks.map script).flatten := by
  induction chunks with
  | nil => rfl
  | cons chunk chunks ih => rw [flatten_cons, script_append, ih, map_cons, flatten_cons]

theorem script_eq_nil : script lines = [] ↔ lines = [] := by
  cases lines with
  | nil => exact iff_of_true rfl rfl
  | cons line lines => simp [script_cons]

theorem script_concat (init : List Line) (last : Line) :
    script (init ++ [last]) = script init ++ last.text ++ [newline] := by
  simp [script]

theorem idxOf_reverse_script (lines : List Line) : (script lines).reverse.idxOf newline = 0 := by
  rcases eq_nil_or_concat lines with rfl | ⟨init, last, rfl⟩
  · rfl
  · simp [script_concat]

theorem lastIndexByte_script {part : Bytes} (hp : newline ∉ part) :
    lastIndexByte (script lines ++ part) newline + 1 = (script lines).length := by
  have hr : newline ∉ part.reverse := by rwa [mem_reverse]
  rw [lastIndexByte, reverse_append, idxOf_append_of_notMem hr, idxOf_reverse_script,
    length_append, length_reverse]
  omega

theorem indexByte_script (line : Line) (lines : List Line) :
    indexByte (script (line :: lines)) newline + 1 = (script [line]).length := by
  have hmem : newline ∈ script (line :: lines) := by simp [script_cons]
  rw [indexByte, if_pos hmem, script_cons, idxOf_append_of_notMem line.single]
  simp [script]

theorem take_script (lines : List Line) (k : Nat) :
    ∃ chunk rest part, lines = chunk ++ rest ∧ (script lines).take k = script chunk ++ part ∧
      newline ∉ part ∧ (rest = [] ∨ ∃ line tail, rest = line :: tail ∧
        part.length ≤ line.text.length) := by
  induction lines generalizing k with
  | nil => exact ⟨[], [], [], rfl, take_nil, not_mem_nil, .inl rfl⟩
  | cons line lines ih =>
    rw [script_cons]
    by_cases hk : k ≤ line.text.length
    · refine ⟨[], line :: lines, line.text.take k, rfl, take_append_of_le_length hk,
        fun h => line.single (mem_of_mem_take h), .inr ⟨line, lines, rfl, ?_⟩⟩
      exact length_take_le' k line.text
    · obtain ⟨j, rfl⟩ : ∃ j, k = line.text.length + (j + 1) := ⟨k - line.text.length - 1, by omega⟩
      obtain ⟨chunk, rest, part, rfl, ht, hp, hr⟩ := ih j
      refine ⟨line :: chunk, rest, part, rfl, ?_, hp, hr⟩
      rw [take_length_add_append, take_succ_cons, ht, script_cons, append_assoc, cons_append]

/-- **What one turn of the loop takes**: whole lines that fit, unless the first line does not. -/
theorem inputSize_script (limit : Nat) (hne : lines ≠ []) :
    (∃ chunk rest, lines = chunk ++ rest ∧ chunk ≠ [] ∧ (script chunk).length ≤ limit ∧
      inputSize limit (script lines) = .ok (script chunk).length) ∨
    ∃ line tail, lines = line :: tail ∧ limit < (script [line]).length ∧
      inputSize limit (script lines) = .error (inputTooLong (script [line]).length limit) := by
  unfold inputSize
  dsimp only
  by_cases hlt : min (script lines).length limit < (script lines).length
  · obtain ⟨chunk, rest, part, rfl, ht, hp, hr⟩ :=
      take_script lines (min (script lines).length limit)
    have hlen := congrArg length ht
    rw [length_take, length_append] at hlen
    rw [if_pos hlt, ht, lastIndexByte_script hp, Int.toNat_natCast]
    by_cases hc : chunk = []
    · subst hc
      obtain rfl | ⟨line, tail, rfl, hle⟩ := hr
      · exact absurd rfl hne
      refine .inr ⟨line, tail, rfl, ?_, ?_⟩
      · simp only [script, flatMap_nil, length_nil, flatMap_cons, append_nil, length_append,
          length_singleton, nil_append] at hlen hlt ⊢
        omega
      · have hpos : (script [line]).length ≠ 0 := by simp [script]
        rw [nil_append, indexByte_script, Int.toNat_natCast, if_neg hpos]
        rfl
    · have hpos : (script chunk).length ≠ 0 := by simpa [script_eq_nil] using hc
      exact .inl ⟨chunk, rest, rfl, hc, by omega, by rw [if_neg hpos]⟩
  · rw [if_neg hlt]
    exact .inl ⟨lines, [], (append_nil _).symm, hne, by omega, congrArg _ (by omega)⟩

/-! ## The whole loop -/

/-- How the loop ends once `chunks` have been issued and `rest` has not. -/
def Stopped (run : Nat → Option ε) (limit : Nat) (chunks : List (List Line)) (rest : List Line) :
    Option (RestoreError ε) → Prop
  | none => rest = [] ∧ ∀ k < chunks.length, run k = none
  | some (.invocation e) =>
      ∃ n, chunks.length = n + 1 ∧ run n = some e ∧ ∀ k < n, run k = none
  | some (.capacity e) => (∀ k < chunks.length, run k = none) ∧ ∃ line tail, rest = line :: tail ∧
      limit < (script [line]).length ∧ e = inputTooLong (script [line]).length limit

theorem Stopped.cons {run : Nat → Option ε} {chunks : List (List Line)} {rest chunk : List Line}
    {error : Option (RestoreError ε)} (h₀ : run 0 = none)
    (h : Stopped (fun k => run (k + 1)) limit chunks rest error) :
    Stopped run limit (chunk :: chunks) rest error := by
  have hshift : ∀ n, (∀ k < n, run (k + 1) = none) → ∀ k < n + 1, run k = none := by
    intro n hn k hk
    cases k with
    | zero => exact h₀
    | succ k => exact hn k (Nat.lt_of_succ_lt_succ hk)
  rcases error with _ | e | e
  · exact ⟨h.1, hshift _ h.2⟩
  · obtain ⟨n, hn, he, hrun⟩ := h
    exact ⟨n + 1, congrArg (· + 1) hn, he, hshift n hrun⟩
  · exact ⟨hshift _ h.1, h.2⟩

theorem restoreSetsBounded_spec (run : Nat → Option ε) (limit : Nat) (lines : List Line) :
    ∃ chunks rest, lines = chunks.flatten ++ rest ∧
      (restoreSetsBounded run limit (script lines)).1 = chunks.map script ∧
      (∀ chunk ∈ chunks, chunk ≠ [] ∧ (script chunk).length ≤ limit) ∧
      Stopped run limit chunks rest (restoreSetsBounded run limit (script lines)).2 := by
  induction hn : lines.length using Nat.strong_induction_on generalizing run lines with
  | _ n ih =>
    rw [restoreSetsBounded]
    by_cases hne : lines = []
    · rw [dif_pos (script_eq_nil.mpr hne)]
      exact ⟨[], [], hne, rfl, by simp, rfl, by simp⟩
    rw [dif_neg (mt script_eq_nil.mp hne)]
    obtain ⟨chunk, rest, rfl, hc, hle, hs⟩ | ⟨line, tail, rfl, hlt, hs⟩ :=
      inputSize_script limit hne
    · split
      case h_1 e he => cases hs.symm.trans he
      case h_2 size hsize =>
      obtain rfl := Except.ok.inj (hs.symm.trans hsize)
      rw [script_append, take_left, drop_left]
      cases hr : run 0 with
      | some e =>
        refine ⟨[chunk], rest, by simp, rfl, by simpa using ⟨hc, hle⟩, 0, rfl, hr, ?_⟩
        exact fun k hk => absurd hk (Nat.not_lt_zero k)
      | none =>
        have hlt : rest.length < n := by
          rw [← hn, length_append]
          exact Nat.lt_add_of_pos_left (length_pos_iff.mpr hc)
        obtain ⟨chunks, left, rfl, hcalls, hfit, hstop⟩ :=
          ih _ hlt (fun k => run (k + 1)) rest rfl
        refine ⟨chunk :: chunks, left, by simp, ?_, ?_, hstop.cons hr⟩
        · rw [map_cons, ← hcalls]
        · exact forall_mem_cons.mpr ⟨⟨hc, hle⟩, hfit⟩
    · split
      case h_1 e he =>
        obtain rfl := Except.error.inj (hs.symm.trans he)
        exact ⟨[], line :: tail, rfl, rfl, by simp, by simp, line, tail, rfl, hlt, rfl⟩
      case h_2 size hsize => cases hs.symm.trans hsize

/-- **A bounded restore preserves the script.** Every invocation gets whole lines, at least one and
at most the limit, and together they are the beginning of the script. The whole script is issued if
every invocation succeeds and every line fits. Otherwise the loop stops at the invocation that
failed, which is the last, or before the first line that does not fit. -/
theorem restore_preserves_script (run : Nat → Option ε) (limit : Nat) (lines : List Line) :
    (∀ input ∈ (restoreSetsBounded run limit (script lines)).1,
      input ≠ [] ∧ input.length ≤ limit ∧ input.getLast? = some newline) ∧
    (restoreSetsBounded run limit (script lines)).1.flatten <+: script lines ∧
    ((∀ k, run k = none) → (∀ line ∈ lines, (script [line]).length ≤ limit) →
      (restoreSetsBounded run limit (script lines)).1.flatten = script lines ∧
        (restoreSetsBounded run limit (script lines)).2 = none) ∧
    ∃ chunks rest, lines = chunks.flatten ++ rest ∧
      (restoreSetsBounded run limit (script lines)).1 = chunks.map script ∧
      (∀ chunk ∈ chunks, ∀ line ∈ chunk, (script [line]).length ≤ limit) ∧
      Stopped run limit chunks rest (restoreSetsBounded run limit (script lines)).2 := by
  obtain ⟨chunks, rest, rfl, hcalls, hfit, hstop⟩ := restoreSetsBounded_spec run limit lines
  have hissued : script (chunks.flatten ++ rest) = (chunks.map script).flatten ++ script rest := by
    rw [script_append, script_flatten]
  refine ⟨?_, ?_, ?_, chunks, rest, rfl, hcalls, ?_, hstop⟩
  · rw [hcalls, forall_mem_map]
    intro chunk hchunk
    obtain ⟨hne, hle⟩ := hfit chunk hchunk
    obtain ⟨init, last, rfl⟩ := (eq_nil_or_concat' chunk).resolve_left hne
    refine ⟨mt script_eq_nil.mp hne, hle, ?_⟩
    rw [script_concat, getLast?_concat]
  · rw [hcalls, hissued]
    exact prefix_append _ _
  · intro hrun hlines
    rcases herr : (restoreSetsBounded run limit (script (chunks.flatten ++ rest))).2 with _ | e | e
    · rw [herr] at hstop
      rw [hcalls, hissued, hstop.1]
      exact ⟨(append_nil _).symm, rfl⟩
    · rw [herr] at hstop
      obtain ⟨n, -, he, -⟩ := hstop
      cases (hrun n).symm.trans he
    · rw [herr] at hstop
      obtain ⟨-, line, tail, rfl, hlt, -⟩ := hstop
      exact absurd (hlines line (mem_append_right _ mem_cons_self)) (Nat.not_le.mpr hlt)
  · intro chunk hchunk line hline
    obtain ⟨before, after, rfl⟩ := append_of_mem hline
    refine le_trans ?_ (hfit _ hchunk).2
    rw [script_append, script_cons, length_append, script_cons]
    simp [script]
    omega

end Perimeterd.Firewall
