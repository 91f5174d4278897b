import Mathlib

/-!
# Scripts that may stop at any command

A script is a list of commands, each of which changes a state or refuses to run. It is executed in
order and may be cut off between any two commands. `Along P script s` says that no command of the
script is refused and that `P` holds before the first, between any two and after the last: what an
observer finds, wherever the script was cut off.
-/

namespace Lib.Script

variable {γ σ : Type*} (exec : γ → σ → Option σ)

def run : List γ → σ → Option σ
  | [], s => some s
  | c :: script, s => (exec c s).bind (run script)

def Along (P : σ → Prop) : List γ → σ → Prop
  | [], s => P s
  | c :: script, s => P s ∧ ∃ s', exec c s = some s' ∧ Along P script s'

variable {exec} {P Q : σ → Prop} {s t u : σ} {a b script : List γ} {c : γ}

theorem run_cons (h : exec c s = some t) : run exec (c :: script) s = run exec script t := by
  rw [run, h, Option.bind_some]

theorem run_append (h : run exec a s = some t) : run exec (a ++ b) s = run exec b t := by
  induction a generalizing s with
  | nil =>
    cases h
    rfl
  | cons c a ih =>
    obtain ⟨s', hc, ha⟩ := Option.bind_eq_some_iff.mp h
    rw [List.cons_append, run_cons hc, ih ha]

theorem Along.start (h : Along exec P script s) : P s := by
  cases script with
  | nil => exact h
  | cons c script => exact h.1

theorem Along.append (ha : Along exec P a s) (hru : run exec a s = some t)
    (hb : Along exec P b t) : Along exec P (a ++ b) s := by
  induction a generalizing s with
  | nil =>
    cases hru
    exact hb
  | cons c a ih =>
    obtain ⟨hs, s', hc, ha⟩ := ha
    rw [run_cons hc] at hru
    exact ⟨hs, s', hc, ih ha hru⟩

/-- **Where the script is cut off, the commands before have run, `P` holds, and the rest can still
be run.** -/
theorem Along.cut (h : Along exec P (a ++ b) s) :
    ∃ t, run exec a s = some t ∧ P t ∧ Along exec P b t := by
  induction a generalizing s with
  | nil => exact ⟨s, rfl, h.start, h⟩
  | cons c a ih =>
    obtain ⟨-, s', hc, ha⟩ := h
    rw [run_cons hc]
    exact ih ha

/-- The script runs from `s` to `t`, and `P` holds all along. -/
def Performs (exec : γ → σ → Option σ) (P : σ → Prop) (script : List γ) (s t : σ) : Prop :=
  Along exec P script s ∧ run exec script s = some t

theorem Performs.nil (hs : P s) : Performs exec P [] s s := ⟨hs, rfl⟩

theorem Performs.cons (hs : P s) (hc : exec c s = some t) (h : Performs exec P script t u) :
    Performs exec P (c :: script) s u :=
  ⟨⟨hs, t, hc, h.1⟩, (run_cons hc).trans h.2⟩

theorem Performs.append (ha : Performs exec P a s t) (hb : Performs exec P b t u) :
    Performs exec P (a ++ b) s u :=
  ⟨ha.1.append ha.2 hb.1, (run_append ha.2).trans hb.2⟩

theorem run_keeps (hke : ∀ c ∈ script, ∀ s t, exec c s = some t → P s → P t)
    (hru : run exec script s = some t) (hs : P s) : P t := by
  induction script generalizing s with
  | nil =>
    cases hru
    exact hs
  | cons c script ih =>
    obtain ⟨s', hc, hrest⟩ := Option.bind_eq_some_iff.mp hru
    exact ih (fun d hd => hke d (List.mem_cons_of_mem c hd)) hrest
      (hke c List.mem_cons_self s s' hc hs)

end Lib.Script
