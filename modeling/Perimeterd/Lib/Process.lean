import Mathlib

/-!
# Processes that can be cut

A process runs over a state and consults an **oracle**, a list of answers: every step that may fail
or choose takes one. When the list is exhausted the process is cut where it stands. A process is an
ordinary function, so it can be run on a given oracle; and because an oracle may be cut anywhere,
quantifying over all of them covers every failure and every crash point at once.

`Keeps I P p Q E` is the corresponding program logic. The invariant `I` holds whenever the process
consults the oracle, hence wherever it may be cut; `Q` and `E` are what is known after a result and
after an error.
-/

namespace Lib

/-- How a process ends. -/
inductive Ending (ι ε α : Type) where
  | done (value : α) (rest : List ι)
  | failed (error : ε) (rest : List ι)
  | cut

def Ending.returned {ι ε α : Type} : Ending ι ε α → Bool
  | .done _ _ => true
  | _ => false

def Ending.fails {ι ε α : Type} : Ending ι ε α → Bool
  | .failed _ _ => true
  | _ => false

/-- A process over states `σ` with answers `ι`, errors `ε` and results `α`. -/
def Proc (ι σ ε α : Type) : Type := σ → List ι → σ × Ending ι ε α

namespace Proc

variable {ι σ τ ε α β : Type}

instance : Monad (Proc ι σ ε) where
  pure a := fun s w => (s, .done a w)
  bind p f := fun s w =>
    match p s w with
    | (s', .done a w') => f a s' w'
    | (s', .failed e w') => (s', .failed e w')
    | (s', .cut) => (s', .cut)

def throw (e : ε) : Proc ι σ ε α := fun s w => (s, .failed e w)

def attempt (p : Proc ι σ ε α) : Proc ι σ ε (Except ε α) := fun s w =>
  match p s w with
  | (s', .done a w') => (s', .done (.ok a) w')
  | (s', .failed e w') => (s', .done (.error e) w')
  | (s', .cut) => (s', .cut)

/-- Goes on with the result or with the error. -/
def handle (p : Proc ι σ ε α) (failed : ε → Proc ι σ ε β) (next : α → Proc ι σ ε β) :
    Proc ι σ ε β := do
  match ← p.attempt with
  | .ok a => next a
  | .error e => failed e

def zoom (get : τ → σ) (set : τ → σ → τ) (p : Proc ι σ ε α) : Proc ι τ ε α := fun t w =>
  match p (get t) w with
  | (s, e) => (set t s, e)

def observe (f : σ → α) : Proc ι σ ε α := fun s w => (s, .done (f s) w)

/-- A change of the state that cannot fail. -/
def change (f : σ → σ) : Proc ι σ ε Unit := fun s w => (f s, .done () w)

/-- A guard on values already computed. -/
def ensure (c : Prop) [Decidable c] (e : ε) : Proc ι σ ε Unit :=
  if c then pure () else throw e

/-- The result of a pure fallible computation. -/
def lift : Except ε α → Proc ι σ ε α
  | .ok a => pure a
  | .error e => throw e

/-- One step: the oracle's answer decides it. -/
def step (f : ι → σ → σ × Except ε α) : Proc ι σ ε α := fun s w =>
  match w with
  | [] => (s, .cut)
  | i :: w' =>
      match f i s with
      | (s', .ok a) => (s', .done a w')
      | (s', .error e) => (s', .failed e w')

/-- The body of `loop`, with as many rounds as there are answers. -/
def rounds (body : ι → β → Proc ι σ ε (β ⊕ α)) : Nat → β → Proc ι σ ε α
  | 0, _ => fun s _ => (s, .cut)
  | n + 1, b => fun s w =>
      match w with
      | [] => (s, .cut)
      | i :: w' =>
          match body i b s w' with
          | (s', .done (.inl b') w'') => rounds body n b' s' w''
          | (s', .done (.inr a) w'') => (s', .done a w'')
          | (s', .failed e w'') => (s', .failed e w'')
          | (s', .cut) => (s', .cut)

/-- Rounds of `body`, each on an answer of the oracle, until one yields a result. -/
def loop (body : ι → β → Proc ι σ ε (β ⊕ α)) (b : β) : Proc ι σ ε α := fun s w =>
  rounds body w.length b s w

def each (body : β → Proc ι σ ε Unit) : List β → Proc ι σ ε Unit
  | [] => pure ()
  | b :: rest => do
      body b
      each body rest

theorem bind_done {p : Proc ι σ ε β} {f : β → Proc ι σ ε α} {s s' : σ} {b : β} {w w' : List ι}
    (h : p s w = (s', .done b w')) : (p >>= f) s w = f b s' w' := by
  simp only [Bind.bind, h]

theorem ite_pos {c : Prop} [Decidable c] {p q : Proc ι σ ε α} (hc : c) (s : σ) (w : List ι) :
    (if c then p else q) s w = p s w := by rw [if_pos hc]

theorem ite_neg {c : Prop} [Decidable c] {p q : Proc ι σ ε α} (hc : ¬ c) (s : σ) (w : List ι) :
    (if c then p else q) s w = q s w := by rw [if_neg hc]

theorem eq_done {p : Proc ι σ ε Unit} {s : σ} {w : List ι} (h : (p s w).2.returned = true) :
    ∃ rest, p s w = ((p s w).1, .done () rest) := by
  rcases hr : p s w with ⟨s', ⟨a, w'⟩ | ⟨e, w'⟩ | _⟩
  · exact ⟨w', rfl⟩
  · rw [hr] at h
    cases h
  · rw [hr] at h
    cases h

/-! ## Frames -/

/-- However it ends, the process leads to a state that is related to the one it started from. -/
def Within (R : σ → σ → Prop) (p : Proc ι σ ε α) : Prop := ∀ s w, R s (p s w).1

namespace Within

variable {R : σ → σ → Prop} [IsPreorder σ R]

theorem pure (a : α) : Within R (Pure.pure a : Proc ι σ ε α) := fun s _ => refl_of R s

theorem throw (e : ε) : Within R (Proc.throw e : Proc ι σ ε α) := fun s _ => refl_of R s

theorem observe (g : σ → α) : Within R (Proc.observe g : Proc ι σ ε α) := fun s _ => refl_of R s

omit [IsPreorder σ R] in
theorem change {g : σ → σ} (h : ∀ s, R s (g s)) : Within R (Proc.change g : Proc ι σ ε Unit) :=
  fun s _ => h s

theorem step {g : ι → σ → σ × Except ε α} (h : ∀ i s, R s (g i s).1) : Within R (Proc.step g) := by
  intro s w
  cases w with
  | nil => exact refl_of R s
  | cons i w =>
    have hi := h i s
    simp only [Proc.step]
    generalize g i s = x at hi ⊢
    obtain ⟨s', a | a⟩ := x <;> exact hi

theorem bind {p : Proc ι σ ε β} {q : β → Proc ι σ ε α} (hp : Within R p)
    (hq : ∀ b, Within R (q b)) : Within R (p >>= q) := by
  intro s w
  have h := hp s w
  simp only [Bind.bind]
  generalize p s w = x at h ⊢
  obtain ⟨s', ⟨b, w'⟩ | ⟨e, w'⟩ | _⟩ := x
  · exact trans_of R h (hq b s' w')
  · exact h
  · exact h

theorem loop {body : ι → β → Proc ι σ ε (β ⊕ α)} (hbo : ∀ i b, Within R (body i b)) (b : β) :
    Within R (Proc.loop body b) := by
  have hro : ∀ n b, Within R (Proc.rounds body n b) := by
    intro n
    induction n with
    | zero => exact fun b s w => refl_of R s
    | succ n ih =>
      intro b s w
      cases w with
      | nil => exact refl_of R s
      | cons i w =>
        have h := hbo i b s w
        simp only [Proc.rounds]
        generalize body i b s w = x at h ⊢
        obtain ⟨s', ⟨b' | a, w'⟩ | ⟨e, w'⟩ | _⟩ := x
        · exact trans_of R h (ih b' s' w')
        · exact h
        · exact h
        · exact h
  exact fun s w => hro w.length b s w

omit [IsPreorder σ R] in
theorem attempt {p : Proc ι σ ε α} (hp : Within R p) : Within R p.attempt := by
  intro s w
  have h := hp s w
  simp only [Proc.attempt]
  generalize p s w = x at h ⊢
  obtain ⟨s', ⟨b, w'⟩ | ⟨e, w'⟩ | _⟩ := x <;> exact h

theorem handle {p : Proc ι σ ε β} {failed : ε → Proc ι σ ε α} {next : β → Proc ι σ ε α}
    (hp : Within R p) (hf : ∀ e, Within R (failed e)) (hne : ∀ b, Within R (next b)) :
    Within R (p.handle failed next) := by
  refine bind hp.attempt fun x => ?_
  cases x with
  | ok b => exact hne b
  | error e => exact hf e

omit [IsPreorder σ R] in
theorem zoom {get : σ → τ} {set : σ → τ → σ} {p : Proc ι τ ε α} (h : ∀ s t, R s (set s t)) :
    Within R (p.zoom get set) := fun s _ => h s _

end Within

/-- The process does not fail, and leads to a state that is related to the one it started from. -/
def Through (R : σ → σ → Prop) (p : Proc ι σ ε α) : Prop :=
  ∀ s w, R s (p s w).1 ∧ (p s w).2.fails = false

namespace Through

variable {R R' : σ → σ → Prop}

theorem within {p : Proc ι σ ε α} (hp : Through R p) : Within R p := fun s w => (hp s w).1

theorem mono {p : Proc ι σ ε α} (hp : Through R p) (h : ∀ s s', R s s' → R' s s') : Through R' p :=
  fun s w => ⟨h _ _ (hp s w).1, (hp s w).2⟩

theorem change {g : σ → σ} (h : ∀ s, R s (g s)) : Through R (Proc.change g : Proc ι σ ε Unit) :=
  fun s _ => ⟨h s, rfl⟩

variable [IsPreorder σ R]

theorem pure (a : α) : Through R (Pure.pure a : Proc ι σ ε α) := fun s _ => ⟨refl_of R s, rfl⟩

theorem observe (g : σ → α) : Through R (Proc.observe g : Proc ι σ ε α) :=
  fun s _ => ⟨refl_of R s, rfl⟩

theorem step {g : ι → σ → σ × Except ε α} (h : ∀ i s, R s (g i s).1 ∧ (g i s).2.isOk = true) :
    Through R (Proc.step g) := by
  intro s w
  cases w with
  | nil => exact ⟨refl_of R s, rfl⟩
  | cons i w =>
    have hi := h i s
    simp only [Proc.step]
    generalize g i s = x at hi ⊢
    obtain ⟨s', e | a⟩ := x
    · cases hi.2
    · exact ⟨hi.1, rfl⟩

theorem bind {p : Proc ι σ ε β} {q : β → Proc ι σ ε α} (hp : Through R p)
    (hq : ∀ b, Through R (q b)) : Through R (p >>= q) := by
  intro s w
  have h := hp s w
  simp only [Bind.bind]
  generalize p s w = x at h ⊢
  obtain ⟨s', ⟨b, w'⟩ | ⟨e, w'⟩ | _⟩ := x
  · exact ⟨trans_of R h.1 (hq b s' w').1, (hq b s' w').2⟩
  · cases h.2
  · exact h

end Through

end Proc

/-! ## The logic -/

def Ending.Meets {ι ε α σ : Type} (I : σ → Prop) (Q : α → σ → Prop) (E : ε → σ → Prop) :
    σ × Ending ι ε α → Prop
  | (s, .done a _) => I s ∧ Q a s
  | (s, .failed e _) => I s ∧ E e s
  | (s, .cut) => I s

section

variable {ι ε α σ : Type} {I I' : σ → Prop} {Q Q' : α → σ → Prop} {E E' : ε → σ → Prop}
  {x : σ × Ending ι ε α}

theorem Ending.Meets.inv (h : Ending.Meets I Q E x) : I x.1 := by
  obtain ⟨s, ⟨a, w⟩ | ⟨e, w⟩ | _⟩ := x
  · exact h.1
  · exact h.1
  · exact h

theorem Ending.Meets.imp (h : Ending.Meets I Q E x) (hI : ∀ s, I s → I' s)
    (hQ : ∀ a s, I s → Q a s → Q' a s) (hE : ∀ e s, I s → E e s → E' e s) :
    Ending.Meets I' Q' E' x := by
  obtain ⟨s, ⟨a, w⟩ | ⟨e, w⟩ | _⟩ := x
  · exact ⟨hI s h.1, hQ a s h.1 h.2⟩
  · exact ⟨hI s h.1, hE e s h.1 h.2⟩
  · exact hI s h

end

/-- From states with `I` and `P`, the process keeps `I` and ends in `Q` or `E`. -/
def Keeps {ι σ ε α : Type} (I P : σ → Prop) (p : Proc ι σ ε α) (Q : α → σ → Prop)
    (E : ε → σ → Prop) : Prop :=
  ∀ s w, I s → P s → Ending.Meets I Q E (p s w)

namespace Keeps

variable {ι σ ε α β : Type} {I P P' : σ → Prop} {Q Q' : α → σ → Prop} {E E' : ε → σ → Prop}
  {p : Proc ι σ ε α}

theorem conseq (h : Keeps I P p Q E) (hpr : ∀ s, I s → P' s → P s)
    (hp : ∀ a s, I s → Q a s → Q' a s) (her : ∀ e s, I s → E e s → E' e s) : Keeps I P' p Q' E' :=
  fun s w hI hP => (h s w hI (hpr s hI hP)).imp (fun _ h => h) hp her

theorem pre (h : Keeps I P p Q E) (hp : ∀ s, I s → P' s → P s) : Keeps I P' p Q E :=
  h.conseq hp (fun _ _ _ h => h) (fun _ _ _ h => h)

theorem post (h : Keeps I P p Q E) (hp : ∀ a s, I s → Q a s → Q' a s)
    (her : ∀ e s, I s → E e s → E' e s) : Keeps I P p Q' E' :=
  h.conseq (fun _ _ h => h) hp her

theorem fails (h : Keeps I P p Q E) (her : ∀ e s, I s → E e s → E' e s) : Keeps I P p Q E' :=
  h.post (fun _ _ _ h => h) her

theorem returns (h : Keeps I P p Q E) (hp : ∀ a s, I s → Q a s → Q' a s) : Keeps I P p Q' E :=
  h.post hp fun _ _ _ h => h

theorem of_state (h : ∀ s₀, I s₀ → P s₀ → Keeps I (· = s₀) p Q E) : Keeps I P p Q E :=
  fun s w hI hP => h s hI hP s w hI rfl

theorem given {φ : Prop} (hφ : ∀ s, I s → P s → φ) (h : φ → Keeps I P p Q E) : Keeps I P p Q E :=
  fun s w hI hP => h (hφ s hI hP) s w hI hP

theorem pure {a : α} (h : ∀ s, I s → P s → Q a s) : Keeps I P (Pure.pure a : Proc ι σ ε α) Q E :=
  fun s _ hI hP => ⟨hI, h s hI hP⟩

theorem done {a : α} : Keeps I P (Pure.pure a : Proc ι σ ε α) (fun _ => P) E := .pure fun _ _ h => h

theorem throw {e : ε} (h : ∀ s, I s → P s → E e s) : Keeps I P (Proc.throw e : Proc ι σ ε α) Q E :=
  fun s _ hI hP => ⟨hI, h s hI hP⟩

theorem fail {e : ε} : Keeps I P (Proc.throw e : Proc ι σ ε α) Q (fun _ => P) := .throw fun _ _ h => h

theorem bind {p : Proc ι σ ε β} {f : β → Proc ι σ ε α} {R : β → σ → Prop} (hp : Keeps I P p R E)
    (hf : ∀ b, Keeps I (R b) (f b) Q E) : Keeps I P (p >>= f) Q E := by
  intro s w hI hP
  have := hp s w hI hP
  simp only [Bind.bind]
  generalize p s w = x at this ⊢
  obtain ⟨s', ⟨b, w'⟩ | ⟨e, w'⟩ | _⟩ := x
  · exact hf b s' w' this.1 this.2
  · exact this
  · exact this

theorem attempt {E₀ : ε → σ → Prop} {R : Except ε α → σ → Prop}
    (h : Keeps I P p Q E₀) (hok : ∀ a s, I s → Q a s → R (.ok a) s)
    (her : ∀ e s, I s → E₀ e s → R (.error e) s) : Keeps I P p.attempt R E := by
  intro s w hI hP
  have := h s w hI hP
  simp only [Proc.attempt]
  generalize p s w = x at this ⊢
  obtain ⟨s', ⟨a, w'⟩ | ⟨e, w'⟩ | _⟩ := x
  · exact ⟨this.1, hok _ _ this.1 this.2⟩
  · exact ⟨this.1, her _ _ this.1 this.2⟩
  · exact this

theorem handle {p : Proc ι σ ε β} {failed : ε → Proc ι σ ε α} {next : β → Proc ι σ ε α}
    {R : β → σ → Prop} {F : ε → σ → Prop} (hp : Keeps I P p R F)
    (hf : ∀ e, Keeps I (F e) (failed e) Q E) (hne : ∀ b, Keeps I (R b) (next b) Q E) :
    Keeps I P (p.handle failed next) Q E := by
  refine .bind (R := fun x s =>
    match x with
    | .ok b => R b s
    | .error e => F e s) (hp.attempt (fun _ _ _ h => h) fun _ _ _ h => h) fun x => ?_
  cases x with
  | ok b => exact hne b
  | error e => exact hf e

/-- **Rule for a part of the state**: what is known of the whole, as the part changes. -/
theorem zoom {τ : Type} {get : τ → σ} {set : τ → σ → τ} {I P : τ → Prop} {Q : α → τ → Prop}
    {E : ε → τ → Prop} (hse : ∀ t, set t (get t) = t)
    (h : ∀ t, I t → P t → Keeps (fun s => I (set t s)) (fun s => P (set t s)) p
      (fun a s => Q a (set t s)) (fun e s => E e (set t s))) : Keeps I P (p.zoom get set) Q E := by
  intro t w hI hP
  have hI' : I (set t (get t)) := by rwa [hse]
  have hP' : P (set t (get t)) := by rwa [hse]
  have := h t hI hP (get t) w hI' hP'
  simp only [Proc.zoom]
  generalize p (get t) w = x at this ⊢
  obtain ⟨s', ⟨a, w'⟩ | ⟨e, w'⟩ | _⟩ := x <;> exact this

theorem forget (h : Keeps I P p Q E) :
    Keeps (fun _ => True) (fun s => I s ∧ P s) p (fun a s => I s ∧ Q a s)
      (fun e s => I s ∧ E e s) :=
  fun s w _ hs => (h s w hs.1 hs.2).imp (fun _ _ => trivial) (fun _ _ hI hQ => ⟨hI, hQ⟩)
    fun _ _ hI hE => ⟨hI, hE⟩

theorem of_within {R : σ → σ → Prop} {Q : σ → Prop} (hp : Proc.Within R p)
    (hI : ∀ s s', R s s' → I s → I s') (hPQ : ∀ s s', R s s' → P s → Q s') :
    Keeps I P p (fun _ => Q) (fun _ => Q) := by
  intro s w hs hP
  have hR := hp s w
  generalize p s w = x at hR ⊢
  obtain ⟨s', ⟨a, w'⟩ | ⟨e, w'⟩ | _⟩ := x
  · exact ⟨hI _ _ hR hs, hPQ _ _ hR hP⟩
  · exact ⟨hI _ _ hR hs, hPQ _ _ hR hP⟩
  · exact hI _ _ hR hs

theorem of_through {R : σ → σ → Prop} {Q : σ → Prop} (hp : Proc.Through R p)
    (hI : ∀ s s', R s s' → I s → I s') (hPQ : ∀ s s', R s s' → P s → Q s') :
    Keeps I P p (fun _ => Q) E := by
  intro s w hs hP
  have hR := hp s w
  generalize p s w = x at hR ⊢
  obtain ⟨s', ⟨a, w'⟩ | ⟨e, w'⟩ | _⟩ := x
  · exact ⟨hI _ _ hR.1 hs, hPQ _ _ hR.1 hP⟩
  · cases hR.2
  · exact hI _ _ hR.1 hs

theorem observe {f : σ → α} (h : ∀ s, I s → P s → Q (f s) s) :
    Keeps I P (Proc.observe f : Proc ι σ ε α) Q E :=
  fun s _ hI hP => ⟨hI, h s hI hP⟩

theorem look {f : σ → α} : Keeps I P (Proc.observe f : Proc ι σ ε α) (fun _ => P) E :=
  .observe fun _ _ h => h

theorem change {f : σ → σ} {Q : Unit → σ → Prop} (h : ∀ s, I s → P s → I (f s) ∧ Q () (f s)) :
    Keeps I P (Proc.change f : Proc ι σ ε Unit) Q E :=
  fun s _ hI hP => h s hI hP

theorem ensure {c : Prop} [Decidable c] {e : ε} {Q : Unit → σ → Prop}
    (hok : c → ∀ s, I s → P s → Q () s) (her : ¬ c → ∀ s, I s → P s → E e s) :
    Keeps I P (Proc.ensure c e : Proc ι σ ε Unit) Q E := by
  unfold Proc.ensure
  by_cases h : c
  · rw [if_pos h]
    exact .pure (hok h)
  · rw [if_neg h]
    exact .throw (her h)

theorem lift {x : Except ε α} (hok : ∀ a, x = .ok a → ∀ s, I s → P s → Q a s)
    (her : ∀ e, x = .error e → ∀ s, I s → P s → E e s) :
    Keeps I P (Proc.lift x : Proc ι σ ε α) Q E := by
  cases x with
  | ok a => exact .pure (hok a rfl)
  | error e => exact .throw (her e rfl)

theorem step {f : ι → σ → σ × Except ε α} (h : ∀ i s, I s → P s → I (f i s).1 ∧
      match (f i s).2 with
      | .ok a => Q a (f i s).1
      | .error e => E e (f i s).1) : Keeps I P (Proc.step f) Q E := by
  intro s w hI hP
  cases w with
  | nil => exact hI
  | cons i w =>
    have := h i s hI hP
    simp only [Proc.step]
    generalize f i s = x at this ⊢
    obtain ⟨s', a | a⟩ := x <;> exact this

/-- **Rule for loops**: `J` holds before every round. -/
theorem loop {body : ι → β → Proc ι σ ε (β ⊕ α)} {J : β → σ → Prop} {b : β}
    (hst : ∀ s, I s → P s → J b s) (hbo : ∀ i b, Keeps I (J b) (body i b) (fun r s =>
      match r with
      | .inl b' => J b' s
      | .inr a => Q a s) E) : Keeps I P (Proc.loop body b) Q E := by
  have hro : ∀ n b, Keeps I (J b) (Proc.rounds body n b) Q E := by
    intro n
    induction n with
    | zero => exact fun b s w hI _ => hI
    | succ n ih =>
      intro b s w hI hJ
      cases w with
      | nil => exact hI
      | cons i w =>
        have := hbo i b s w hI hJ
        simp only [Proc.rounds]
        generalize body i b s w = x at this ⊢
        obtain ⟨s', ⟨b' | a, w'⟩ | ⟨e, w'⟩ | _⟩ := x
        · exact ih b' s' w' this.1 this.2
        · exact this
        · exact this
        · exact this
  exact fun s w hI hP => hro w.length b s w hI (hst s hI hP)

/-- **Rule for iteration over a list**: `J` holds before every element, given what is left. -/
theorem each {body : β → Proc ι σ ε Unit} {J : List β → σ → Prop}
    (hbo : ∀ b rest, Keeps I (J (b :: rest)) (body b) (fun _ s => J rest s) E) :
    ∀ l : List β, Keeps I (J l) (Proc.each body l) (fun _ s => J [] s) E
  | [] => Keeps.pure fun _ _ h => h
  | b :: rest => Keeps.bind (hbo b rest) fun _ => each hbo rest

end Keeps

/-- Partial correctness: from `P`, what is known if the process returns. -/
abbrev Returns {ι σ ε α : Type} (P : σ → Prop) (p : Proc ι σ ε α) (Q : α → σ → Prop) : Prop :=
  Keeps (fun _ => True) P p Q (fun _ _ => True)

namespace Returns

variable {ι σ ε α : Type} {P : σ → Prop} {p : Proc ι σ ε α}

theorem trivial : Returns P p (fun _ _ => True) := by
  intro s w _ _
  obtain ⟨s', ⟨a, w'⟩ | ⟨e, w'⟩ | _⟩ := p s w
  · exact ⟨True.intro, True.intro⟩
  · exact ⟨True.intro, True.intro⟩
  · exact True.intro

theorem of_within {R : σ → σ → Prop} {Q : σ → Prop} (hp : Proc.Within R p)
    (hPQ : ∀ s s', R s s' → P s → Q s') : Returns P p (fun _ => Q) :=
  (Keeps.of_within hp (fun _ _ _ h => h) hPQ).post (fun _ _ _ h => h) fun _ _ _ _ => True.intro

theorem and {I P' : σ → Prop} {Q Q' : α → σ → Prop} {E : ε → σ → Prop}
    (h : Returns P p Q) (h' : Keeps I P' p Q' E) :
    Keeps I (fun s => P s ∧ P' s) p (fun a s => Q a s ∧ Q' a s) E := by
  intro s w hs hP
  have hq := h s w True.intro hP.1
  have hq' := h' s w hs hP.2
  generalize p s w = x at hq hq' ⊢
  obtain ⟨s', ⟨a, w'⟩ | ⟨e, w'⟩ | _⟩ := x
  · exact ⟨hq'.1, hq.2, hq'.2⟩
  · exact hq'
  · exact hq'

theorem elim {Q : α → σ → Prop} (h : Returns P p Q) {s s' : σ} {a : α}
    {w w' : List ι} (hs : P s) (hr : p s w = (s', .done a w')) : Q a s' := by
  have := h s w True.intro hs
  rw [hr] at this
  exact this.2

end Returns

end Lib
