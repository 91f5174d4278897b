import Perimeterd.App.Epochs
import Perimeterd.App.Scheduler

/-!
# Answers to reload requests

One slot holds the request whose reload is under way. It is filled when an epoch is admitted and
emptied when its result has been handled, when a newer reload supersedes it, or when the service
stops; every way out sends an answer. A request that never gets into the slot is answered at once.

Answers are matched to the slot by epoch, and refreshes carry epochs as well. What keeps a refresh
from answering a request is that the epoch in the slot is the newest one admitted, while a refresh
belongs to an epoch that has been active already.
-/

namespace Perimeterd.App

open Lib Firewall State List
open Lib.Proc (Through Within)

/-! ## The books -/

/-- The part of the state that answers depend on. -/
structure Books (ω : Type) where
  world : World ω
  waiter : Option Waiter
  workers : List Worker
  requests : Nat
  log : List (Entry ω)

variable {ω δ : Type}

def Service.books (s : Service ω) : Books ω := ⟨s.world, s.waiter, s.workers, s.requests, s.log⟩

def Entry.answers (q : Nat) : Entry ω → Bool
  | .replied k _ => k = q
  | _ => false

/-- The number of results a request has been sent. -/
def repliesTo (q : Nat) (log : List (Entry ω)) : Nat := log.countP (Entry.answers q)

theorem repliesTo_replied (q k : Nat) (r : ReloadResult) (log : List (Entry ω)) :
    repliesTo q (.replied k r :: log) = repliesTo q log + if k = q then 1 else 0 := by
  simp [repliesTo, countP_cons, Entry.answers]

theorem repliesTo_quiet {e : Entry ω} (he : e.quiet = true) (q : Nat) (log : List (Entry ω)) :
    repliesTo q (e :: log) = repliesTo q log := by
  cases e with
  | replied k r => cases he
  | _ => rfl

/-- Every request that has arrived has been sent one result, but for the one in the slot and the one
`owed` an answer by the handler at work; no other has been sent any. -/
structure Ledger (owed : Option Nat) (b : Books ω) : Prop where
  once : ∀ q, repliesTo q b.log =
    if q < b.requests ∧ owed ≠ some q ∧ b.waiter.map (·.request) ≠ some q then 1 else 0
  waiting : ∀ k, b.waiter = some k → k.request < b.requests ∧ owed ≠ some k.request
  owing : ∀ q, owed = some q → q < b.requests
  received : ∀ q, Entry.received q ∈ b.log → q < b.requests

theorem Ledger.le_one {owed : Option Nat} {b : Books ω} (hb : Ledger owed b) (q : Nat) :
    repliesTo q b.log ≤ 1 := by
  rw [hb.once]
  split <;> omega

/-! ## What an answer says -/

/-- What is known of a request that is told its configuration was applied, from the history before
the answer: a worker was admitted for this request and delivered a candidate without an error; the
apply of that candidate was committed and not degraded; the revision it left active was published;
the engine and the metrics were healthy. The answer names that revision, and the digest of the bytes
the worker had read and parsed. -/
def Justified [DecidableEq δ] (h : Host ω) (env : Setting δ) (q : Nat) (r : ReloadResult)
    (history : List (Entry ω)) : Prop :=
  ∃ worker conditions outcome after revision earlier,
    history = .judged true true :: .published (some revision) ::
        .applied (worker.result env conditions).candidate (outcome, none) after ::
        .delivered worker conditions :: earlier ∧
      worker.request = some q ∧ Entry.admitted (some q) worker.epoch ∈ earlier ∧
      (worker.result env conditions).err = none ∧
      (worker.result env conditions).candidate.epoch = worker.epoch ∧
      (worker.result env conditions).candidate.refresh = 0 ∧
      outcome.committed = true ∧ outcome.degraded = false ∧ outcome.active = some revision ∧
      (∃ id t, revision = (worker.result env conditions).candidate.revision id t) ∧
      Rooted h.content (some revision) after.disk ∧
      r.revision = some revision.id ∧
      ∃ data, conditions.read = .ok data ∧
        env.parse data = .ok (worker.result env conditions).candidate.cfg ∧
        r.configSHA256 = env.sha256 data

/-- Every `applied` in a history is justified by what came before it. -/
def Truthful [DecidableEq δ] (h : Host ω) (env : Setting δ) : List (Entry ω) → Prop
  | [] => True
  | e :: earlier => Truthful h env earlier ∧
      ∀ q r, e = .replied q r → r.outcome = .applied → Justified h env q r earlier

/-- **What holds at every moment.** -/
structure Told [DecidableEq δ] (h : Host ω) (env : Setting δ) (s : Service ω) : Prop where
  once : ∀ q, repliesTo q s.log ≤ 1
  truthful : Truthful h env s.log

section Told

variable [DecidableEq δ] {h : Host ω} {env : Setting δ} {s s' : Service ω}
  {E : Stop → Service ω → Prop}

theorem Told.of_log (hs : Told h env s) (hl : s'.log = s.log) : Told h env s' :=
  ⟨hl ▸ hs.once, hl ▸ hs.truthful⟩

theorem Told.quiet (hs : Told h env s) {e : Entry ω} (he : e.quiet = true)
    (hl : s'.log = e :: s.log) : Told h env s' := by
  refine ⟨fun q => ?_, ?_⟩
  · rw [hl, repliesTo_quiet he]
    exact hs.once q
  · rw [hl]
    refine ⟨hs.truthful, fun q r heq => ?_⟩
    rw [heq] at he
    cases he

theorem through_silent {α : Type} {p : Handler ω α} (hp : Through Silent p) (P : Books ω → Prop) :
    Keeps (Told h env) (fun s => P s.books) p (fun _ s => P s.books) E := by
  refine .of_through hp (fun s s' hq hs => hs.of_log hq.log) fun s s' hq hs => ?_
  have hbo : s'.books = s.books := by
    rw [Service.books, hq.world, hq.waiter, hq.workers, hq.requests, hq.log]
    rfl
  rw [hbo]
  exact hs

theorem through_local {α : Type} {p : Handler ω α} (hp : Through Local p) (P : Books ω → Prop) :
    Keeps (Told h env) (fun s => P s.books) p (fun _ s => P s.books) E :=
  through_silent (silent_of_local hp) P

theorem keeps_note {e : Entry ω} (he : e.quiet = true) {P Q : Books ω → Prop}
    (hPQ : ∀ b, P b → Q { b with log := e :: b.log }) :
    Keeps (Told h env) (fun s => P s.books) (note e) (fun _ s => Q s.books) E :=
  Keeps.change fun s hs hP => ⟨hs.quiet he rfl, hPQ s.books hP⟩

/-- The books after the request in the slot has been answered. -/
def Books.reply (b : Books ω) (k : Waiter) (r : ReloadResult) : Books ω :=
  { b with
    log := .replied k.request { r with configSHA256 := k.digest } :: b.log
    waiter := none }

/-- **The rule for answers by epoch.** -/
theorem keeps_finishReload {epoch : Nat} {r : ReloadResult} {owed : Option Nat}
    {P Q : Books ω → Prop} (hl : ∀ b, P b → Ledger owed b)
    (hother : ∀ b, P b → (∀ k, b.waiter = some k → k.epoch ≠ epoch) → Q b)
    (hre : ∀ b k, P b → b.waiter = some k → k.epoch = epoch → Q (b.reply k r))
    (htr : ∀ b k, P b → b.waiter = some k → k.epoch = epoch → r.outcome = .applied →
      Justified h env k.request { r with configSHA256 := k.digest } b.log) :
    Keeps (Told h env) (fun s => P s.books) (finishReload epoch r) (fun _ s => Q s.books) E := by
  refine .bind (R := fun w s => P s.books ∧ w = s.waiter)
    (.observe fun _ _ hP => ⟨hP, rfl⟩) fun w => ?_
  cases w with
  | none => exact .pure fun s _ hP => hother _ hP.1 fun k hk => by cases hP.2.trans hk
  | some k =>
    dsimp only
    split
    · rename_i hne
      refine .pure fun s _ hP => hother _ hP.1 fun k' hk' => ?_
      cases hP.2.trans hk'
      exact hne
    · rename_i heq
      have heq : k.epoch = epoch := not_not.mp heq
      refine .bind (R := fun _ s => Q { s.books with waiter := none })
        (.change fun s hs hP => ?_) fun _ => Keeps.change fun s hs hQ => ⟨hs.of_log rfl, hQ⟩
      have hw : s.books.waiter = some k := hP.2.symm
      refine ⟨⟨fun q => ?_, hs.truthful, ?_⟩, hre _ k hP.1 hw heq⟩
      · -- the request in the slot has not been answered
        have ho := (hl _ hP.1).once q
        change repliesTo q (_ :: s.log) ≤ 1
        change repliesTo q s.log = _ at ho
        rw [repliesTo_replied, ho, hw]
        by_cases hq : k.request = q
        · simp [hq]
        · rw [if_neg hq, Nat.add_zero]
          split <;> omega
      · rintro q r' heq' hap
        cases heq'
        exact htr _ k hP.1 hw heq hap

theorem Ledger.reply {owed : Option Nat} {b : Books ω} (hb : Ledger owed b) {k : Waiter}
    (hk : b.waiter = some k) (r : ReloadResult) : Ledger owed (b.reply k r) where
  once q := by
    obtain ⟨hlt, ho⟩ := hb.waiting k hk
    have hon := hb.once q
    change repliesTo q (_ :: b.log) = _
    rw [repliesTo_replied, hon, hk]
    by_cases hq : k.request = q
    · subst hq
      simp [Books.reply, hlt, ho]
    · simp [Books.reply, hq]
  waiting _ hk' := by cases hk'
  owing := hb.owing
  received q hq := hb.received q (by simpa [Books.reply] using hq)

end Told

/-! ## The slot and the engine -/

/-- The epoch in the slot is the newest one admitted, and nothing of it is active. An apply of epoch
`raised` may have changed that, until its answer has been sent. -/
structure Timely (h : Host ω) (raised : Option Nat) (b : Books ω) : Prop where
  world : Upto h b.world.engine.admitted b.world.engine.admitted b.world
  newest : ∀ k, b.waiter = some k → raised = some k.epoch ∨
    k.epoch = b.world.engine.admitted ∧ ∃ n < k.epoch, Upto h n b.world.engine.admitted b.world

/-- What is known of the workers, `more` of which have delivered. -/
structure Staffed (more : List Worker) (b : Books ω) : Prop where
  epoch : ∀ worker ∈ more ++ b.workers, worker.epoch ≤ b.world.engine.admitted
  sequence : ∀ worker ∈ more ++ b.workers, ∀ n cfg session,
    worker.task = .refresh n cfg session → n ≠ 0
  older : ∀ k, b.waiter = some k → ∀ worker ∈ more ++ b.workers, worker.job.refresh ≠ 0 →
    worker.epoch < k.epoch
  request : ∀ k, b.waiter = some k → ∀ worker ∈ more ++ b.workers, worker.job = ⟨k.epoch, 0⟩ →
    worker.request = some k.request
  admission : ∀ k, b.waiter = some k → Entry.admitted (some k.request) k.epoch ∈ b.log

/-- **The invariant of answers.** At the wait point nothing is owed, raised or delivered. -/
structure Accounts (h : Host ω) (owed raised : Option Nat) (more : List Worker) (b : Books ω) :
    Prop extends Ledger owed b, Timely h raised b, Staffed more b

variable {h : Host ω} {owed raised : Option Nat} {more : List Worker} {b : Books ω}

theorem Staffed.reply (hb : Staffed more b) (k : Waiter) (r : ReloadResult) :
    Staffed more (b.reply k r) :=
  ⟨hb.epoch, hb.sequence, nofun, nofun, nofun⟩

theorem Accounts.reply (hb : Accounts h owed raised more b) {k : Waiter} (hk : b.waiter = some k)
    (r : ReloadResult) : Accounts h owed none more (b.reply k r) :=
  ⟨hb.toLedger.reply hk r, ⟨hb.world, nofun⟩, hb.toStaffed.reply k r⟩

theorem Ledger.quiet (hb : Ledger owed b) {e : Entry ω} (he : e.quiet = true)
    (hre : ∀ q, e = .received q → q < b.requests) : Ledger owed { b with log := e :: b.log } where
  once q := (repliesTo_quiet he q b.log).trans (hb.once q)
  waiting := hb.waiting
  owing := hb.owing
  received q hq := by
    rcases mem_cons.mp hq with heq | hq
    · exact hre q heq.symm
    · exact hb.received q hq

theorem Accounts.quiet (hb : Accounts h owed raised more b) {e : Entry ω} (he : e.quiet = true)
    (hre : ∀ q, e = .received q → q < b.requests) :
    Accounts h owed raised more { b with log := e :: b.log } :=
  ⟨hb.toLedger.quiet he hre, ⟨hb.world, hb.newest⟩,
    ⟨hb.epoch, hb.sequence, hb.older, hb.request,
      fun k hk => mem_cons_of_mem _ (hb.admission k hk)⟩⟩

/-- The epochs of a world are no less bounded in another. -/
def Steadies (h : Host ω) (w w' : World ω) : Prop := ∀ n m, Upto h n m w → Upto h n m w'

theorem Accounts.steady (hb : Accounts h owed raised more b) {w : World ω}
    (hw : Steadies h b.world w) : Accounts h owed raised more { b with world := w } := by
  have had : w.engine.admitted = b.world.engine.admitted := (hw _ _ hb.world).admitted
  refine ⟨⟨hb.once, hb.waiting, hb.owing, hb.received⟩, ⟨?_, fun k hk => ?_⟩,
    ⟨?_, hb.sequence, hb.older, hb.request, hb.admission⟩⟩
  · change Upto h w.engine.admitted w.engine.admitted w
    rw [had]
    exact hw _ _ hb.world
  · refine (hb.newest k hk).imp_right ?_
    rintro ⟨hep, n, hn, hu⟩
    change k.epoch = w.engine.admitted ∧ ∃ n < k.epoch, Upto h n w.engine.admitted w
    rw [had]
    exact ⟨hep, n, hn, hw _ _ hu⟩
  · change ∀ worker ∈ more ++ b.workers, worker.epoch ≤ w.engine.admitted
    rw [had]
    exact hb.epoch

theorem Accounts.raise (hb : Accounts h owed none more b) (raised : Option Nat) :
    Accounts h owed raised more b :=
  ⟨hb.toLedger, ⟨hb.world, fun k hk => Or.inr ((hb.newest k hk).resolve_left nofun)⟩, hb.toStaffed⟩

section Handlers

variable [DecidableEq δ] {env : Setting δ} {E : Stop → Service ω → Prop}

theorem keeps_finishReload_failure {ep : Nat} {r : ReloadResult}
    (hra : raised = none ∨ raised = some ep) (hr : r.outcome ≠ .applied) :
    Keeps (Told h env) (fun s => Accounts h owed raised more s.books) (finishReload ep r)
      (fun _ s => Accounts h owed none more s.books) E := by
  refine keeps_finishReload (P := Accounts h owed raised more) (Q := Accounts h owed none more)
    (fun _ hb => hb.toLedger) (fun b hb hne => ?_) (fun b k hb hk _ => hb.reply hk r)
    fun _ _ _ _ _ hap => absurd hap hr
  refine ⟨hb.toLedger, ⟨hb.world, fun k hk => Or.inr ((hb.newest k hk).resolve_left ?_)⟩,
    hb.toStaffed⟩
  rcases hra with rfl | rfl
  · nofun
  · exact fun heq => hne k hk (Option.some.inj heq).symm

/-- The epoch whose answer is due after a job's apply. -/
def Job.raises (j : Job) : Option Nat := if j.refresh = 0 then some j.epoch else none

theorem Job.raises_cases (j : Job) : j.raises = none ∨ j.raises = some j.epoch := by
  rw [Job.raises]
  split
  · exact .inr rfl
  · exact .inl rfl

theorem keeps_complete {job : Job} {outcome : ReloadOutcome} {code msg : String}
    (hr : outcome ≠ .applied) :
    Keeps (Told h env) (fun s => Accounts h owed job.raises more s.books)
      (complete job outcome code msg) (fun _ s => Accounts h owed none more s.books) E := by
  rw [complete]
  split
  · exact keeps_finishReload_failure job.raises_cases hr
  · rename_i hne
    refine .pure fun s _ hs => ?_
    rw [Job.raises, if_neg hne] at hs
    exact hs

theorem keeps_finishWaiter {r : ReloadResult} (hr : r.outcome ≠ .applied) {P : Books ω → Prop}
    (hl : ∀ b, P b → Ledger owed b) (hre : ∀ b k, P b → b.waiter = some k → P (b.reply k r)) :
    Keeps (Told h env) (fun s => P s.books) (finishWaiter r)
      (fun _ s => P s.books ∧ s.waiter = none) E := by
  refine .bind (R := fun w s => P s.books ∧ w = s.waiter)
    (.observe fun _ _ hP => ⟨hP, rfl⟩) fun w => ?_
  cases w with
  | none => exact .pure fun s _ hP => ⟨hP.1, hP.2.symm⟩
  | some k =>
    refine (keeps_finishReload (P := fun b => P b ∧ some k = b.waiter)
      (Q := fun b => P b ∧ b.waiter = none) (fun b hb => hl b hb.1) (fun b hb hne => ?_)
      (fun b k' hb hk' _ => ⟨hre b k' hb.1 hk', rfl⟩) fun _ _ _ _ _ hap => absurd hap hr)
    exact absurd rfl (hne k hb.2.symm)

def Closed (s : Service ω) : Prop := ∀ q, Entry.received q ∈ s.log → repliesTo q s.log = 1

/-- What is known where a handler leaves the loop. A process that has crashed answers nobody. -/
def Left : Stop → Service ω → Prop
  | .crashed, _ => True
  | .exited _, s => Closed s

theorem keeps_stopService {α : Type} {e : Option String} {Q : α → Service ω → Prop} :
    Keeps (Told h env) (fun s => Ledger none s.books) (stopService e) Q Left := by
  refine .bind (keeps_finishWaiter (by decide) (P := Ledger none) (fun _ hb => hb)
    fun _ k hb hk => hb.reply hk _) fun _ => ?_
  refine .bind (R := fun _ s => Closed s)
    (.change fun s hs hP => ⟨hs.of_log rfl, fun q hq => ?_⟩) fun _ => .throw fun _ _ h => h
  obtain ⟨hl, hno⟩ := hP
  have hno : s.books.waiter = none := hno
  change repliesTo q s.books.log = 1
  rw [hl.once q, hno, if_pos ⟨hl.received q hq, by simp, by simp⟩]

end Handlers

/-! ## Calls of the engine -/

section Calls

variable [DecidableEq δ] {env : Setting δ} {E : Stop → Service ω → Prop}

theorem told_world (s : Service ω) (w : World ω) (hs : Told h env s) :
    Told h env { s with world := w } :=
  hs.of_log rfl

variable {outcome : Outcome} {error : Option String} {earlier : List (Entry ω)}

/-- A result is being handled, the history is this one, and the slot has the result's digest if it
has its epoch. -/
structure Handling (h : Host ω) (raised : Option Nat) (worker : Worker) (digest : String)
    (l : List (Entry ω)) (b : Books ω) : Prop extends Accounts h none raised [worker] b where
  history : b.log = l
  digests : ∀ k, b.waiter = some k → worker.job = ⟨k.epoch, 0⟩ → k.digest = digest

variable {worker : Worker} {dg : String} {l : List (Entry ω)}

theorem Handling.steady (hb : Handling h raised worker dg l b) {w : World ω}
    (hw : Steadies h b.world w) : Handling h raised worker dg l { b with world := w } :=
  ⟨hb.toAccounts.steady hw, hb.history, hb.digests⟩

theorem Handling.quiet (hb : Handling h raised worker dg l b) {e : Entry ω}
    (he : e.quiet = true) (hre : ∀ q, e ≠ .received q) :
    Handling h raised worker dg (e :: l) { b with log := e :: b.log } :=
  ⟨hb.toAccounts.quiet he fun q heq => absurd heq (hre q), by rw [hb.history], hb.digests⟩

/-- What an apply that has been noted in the history is known to have left. -/
def Commits (h : Host ω) (c : Candidate) (outcome : Outcome) (after : World ω) : Prop :=
  outcome.committed = true → ∃ id t, outcome.active = some (c.revision id t) ∧
    Rooted h.content (some (c.revision id t)) after.disk

/-- **The answer after a commit** is `applied` only if everything was well. -/
theorem keeps_replyCommitted {conditions : Conditions}
    {after : World ω} {healthy engine metrics : Bool}
    (her : (worker.result env conditions).err = none) (hc : outcome.committed = true)
    (hco : Commits h (worker.result env conditions).candidate outcome after) (hh : healthy = true →
      error = none ∧ outcome.degraded = false ∧ engine = true ∧ metrics = true) :
    Keeps (Told h env) (fun s => Handling h worker.job.raises worker
        (worker.result env conditions).digest (.judged engine metrics :: .published outcome.active ::
          .applied (worker.result env conditions).candidate (outcome, error) after ::
          .delivered worker conditions :: earlier) s.books)
      (replyCommitted worker.job outcome healthy)
      (fun _ s => Accounts h none none [worker] s.books) E := by
  rw [replyCommitted]
  split
  · rename_i hne
    refine .pure fun s _ hs => ?_
    have hs := hs.toAccounts
    rw [Job.raises, if_neg hne] at hs
    exact hs
  rename_i hz
  have hz : worker.job.refresh = 0 := not_not.mp hz
  refine keeps_finishReload (Q := Accounts h none none [worker])
    (fun b hb => (hb.toLedger : Ledger none b)) (fun b hb hne => ?_) (fun b k hb hk _ => hb.toAccounts.reply hk _)
    fun b k hb hk hep hap => ?_
  · refine ⟨hb.toLedger, ⟨hb.world, fun k hk => Or.inr ((hb.newest k hk).resolve_left ?_)⟩,
      hb.toStaffed⟩
    rw [Job.raises, if_pos hz]
    exact fun heq => hne k hk (Option.some.inj heq).symm
  · -- the slot's request is the one the worker was admitted for
    cases healthy with
    | false => cases hap
    | true =>
    obtain ⟨rfl, hd, rfl, rfl⟩ := hh rfl
    have hjo : worker.job = ⟨k.epoch, 0⟩ := by
      rw [hep, ← hz]
    have hmem : worker ∈ [worker] ++ b.workers := mem_cons_self
    have had := hb.admission k hk
    rw [hb.history] at had
    have hw : worker.epoch = k.epoch := worker.job_epoch.symm.trans hep.symm
    obtain ⟨id, t, hac, hro⟩ := hco hc
    obtain ⟨he', hre⟩ := worker.result_job env conditions
    obtain ⟨expected, hta⟩ : ∃ expected, worker.task = .reload expected := by
      cases ht : worker.task with
      | reload expected => exact ⟨expected, rfl⟩
      | refresh n cfg ses =>
        have hn := hb.sequence worker hmem n cfg ses ht
        rw [Worker.job, ht] at hz
        exact absurd hz hn
    have hres : worker.result env conditions =
        stageCandidate env conditions worker.epoch worker.committed expected := by
      rw [Worker.result, hta]
    obtain ⟨-, -, hda⟩ := stageCandidate_spec env conditions worker.epoch worker.committed expected
    rw [← hres] at hda
    obtain ⟨data, hread, hp, hdi⟩ := hda her
    refine ⟨worker, conditions, outcome, after, _, earlier, hb.history.trans ?_,
      hb.request k hk worker hmem hjo, ?_, her, he'.trans worker.job_epoch,
      hre.trans hz, hc, hd, hac, ⟨id, t, rfl⟩, hro, ?_, data, hread,
      hp, (hb.digests k hk hjo).trans hdi⟩
    · rw [hac]
    · rw [hw]
      simpa using had
    · simp [hac]

theorem Accounts.applied (hb : Accounts h none none [worker] b) {w : World ω}
    (hu : Upto h b.world.engine.admitted b.world.engine.admitted w)
    (hw : ∀ n m, worker.job ≠ ⟨m, 0⟩ → Upto h n m b.world → Upto h n m w) :
    Accounts h none worker.job.raises [worker] { b with world := w } := by
  have had := hu.admitted
  refine ⟨⟨hb.once, hb.waiting, hb.owing, hb.received⟩, ⟨?_, fun k hk => ?_⟩,
    ⟨?_, hb.sequence, hb.older, hb.request, hb.admission⟩⟩
  · change Upto h w.engine.admitted w.engine.admitted w
    rw [had]
    exact hu
  · obtain ⟨hep, n, hn, hbo⟩ := (hb.newest k hk).resolve_left nofun
    change _ ∨ k.epoch = w.engine.admitted ∧ ∃ n < k.epoch, Upto h n w.engine.admitted w
    rw [had]
    by_cases hjo : worker.job = ⟨k.epoch, 0⟩
    · left
      rw [Job.raises, hjo, if_pos rfl]
    · exact .inr ⟨hep, n, hn, hw n _ (hep ▸ hjo) hbo⟩
  · change ∀ x ∈ [worker] ++ b.workers, x.epoch ≤ w.engine.admitted
    rw [had]
    exact hb.epoch

theorem current_le {c : Candidate} {n m : Nat} {w : World ω} (hw : Upto h n m w)
    (hc : w.engine.current c = true) : c.epoch ≤ n ∨ c.refresh = 0 ∧ c.epoch = m := by
  rw [Engine.current] at hc
  split at hc
  · cases hc
  split at hc
  · rw [Bool.and_eq_true, decide_eq_true_eq] at hc
    exact .inl (hc.1.trans_le hw.active)
  · rename_i hz
    rw [decide_eq_true_eq, hw.admitted] at hc
    exact .inr ⟨not_not.mp hz, hc⟩

theorem Staffed.sub (hb : Staffed more b) {more' workers : List Worker}
    (hsu : ∀ x ∈ more' ++ workers, x ∈ more ++ b.workers) :
    Staffed more' { b with workers := workers } :=
  ⟨fun x hx => hb.epoch x (hsu x hx), fun x hx => hb.sequence x (hsu x hx),
    fun k hk x hx => hb.older k hk x (hsu x hx), fun k hk x hx => hb.request k hk x (hsu x hx),
    hb.admission⟩

theorem Accounts.deliver (hb : Accounts h none none [] b) (hmem : worker ∈ b.workers) :
    Accounts h none none [worker] { b with workers := b.workers.erase worker } :=
  ⟨⟨hb.once, hb.waiting, hb.owing, hb.received⟩, ⟨hb.world, hb.newest⟩,
    hb.toStaffed.sub (forall_mem_cons.mpr ⟨hmem, fun _ => mem_of_mem_erase⟩)⟩

theorem Accounts.forget (hb : Accounts h none none [worker] b) : Accounts h none none [] b :=
  ⟨hb.toLedger, hb.toTimely, hb.toStaffed.sub fun _ => mem_cons_of_mem _⟩

theorem Accounts.restamp (hb : Accounts h none none [worker] b) (f : Waiter → Waiter)
    (hf : ∀ k, (f k).request = k.request ∧ (f k).epoch = k.epoch) :
    Accounts h none none [worker] { b with waiter := b.waiter.map f } := by
  have hre : (b.waiter.map f).map (·.request) = b.waiter.map (·.request) := by
    rw [Option.map_map]
    exact congrArg (b.waiter.map ·) (funext fun k => (hf k).1)
  have hw : ∀ {P : Waiter → Prop}, (∀ k, P (f k) ↔ P k) →
      (∀ k, b.waiter = some k → P k) → ∀ k, b.waiter.map f = some k → P k := by
    intro P hP hal k hk
    obtain ⟨k', hk', rfl⟩ := Option.map_eq_some_iff.mp hk
    exact (hP k').mpr (hal k' hk')
  refine ⟨⟨fun q => ?_, hw (fun k => by rw [(hf k).1]) hb.waiting, hb.owing, hb.received⟩,
    ⟨hb.world, hw (fun k => by rw [(hf k).2]) hb.newest⟩,
    ⟨hb.epoch, hb.sequence, hw (fun k => by rw [(hf k).2]) hb.older,
      hw (fun k => by rw [(hf k).1, (hf k).2]) hb.request,
      hw (fun k => by rw [(hf k).1, (hf k).2]) hb.admission⟩⟩
  change repliesTo q b.log = if q < b.requests ∧ none ≠ some q ∧
    (b.waiter.map f).map (·.request) ≠ some q then 1 else 0
  rw [hre]
  exact hb.once q

variable [DecidableEq ω]

theorem keeps_engine {α : Type} (f : Engine → α) {P : Books ω → Prop}
    (hP : ∀ b w, P b → Steadies h b.world w → P { b with world := w })
    (hE : ∀ s, E .crashed s) :
    Keeps (Told h env) (fun s => P s.books) (engine h f) (fun _ s => P s.books) E := by
  refine .bind (R := fun r s => P s.books ∧ ∃ x, r = .ok x)
    (keeps_call told_world (fun s before w hs hb answers => ?_) hE) fun r => ?_
  · exact ⟨trivial, hP _ w hs fun n m hw => hw.background hb, _, rfl⟩
  · cases r with
    | ok x => exact .pure fun _ _ hs => hs.1
    | error e =>
      refine .throw fun s _ hs => ?_
      obtain ⟨-, x, hx⟩ := hs
      cases hx

omit [DecidableEq ω] [DecidableEq δ] in
theorem steadies_of_meets {α : Type} {w : World ω} {x : World ω × Ending (Fate (Move ω)) String α}
    (hx : ∀ n m, Upto h n m w →
      Ending.Meets (fun _ => True) (fun _ => Upto h n m) (fun _ => Upto h n m) x) :
    Ending.Meets (fun _ => True) (fun _ => Steadies h w) (fun _ => Steadies h w) x := by
  obtain ⟨w', ⟨a, rest⟩ | ⟨e, rest⟩ | _⟩ := x
  · exact ⟨trivial, fun n m hw => (hx n m hw).2⟩
  · exact ⟨trivial, fun n m hw => (hx n m hw).2⟩
  · trivial

theorem keeps_call_steady {α : Type} {p : Action ω α} {P : Books ω → Prop}
    (hp : ∀ n m, Keeps (fun _ => True) (Upto h n m) p (fun _ => Upto h n m) (fun _ => Upto h n m))
    (hP : ∀ b w, P b → Steadies h b.world w → P { b with world := w })
    (hE : ∀ s, E .crashed s) :
    Keeps (Told h env) (fun s => P s.books) (call h p) (fun _ s => P s.books) E := by
  refine keeps_call told_world (fun s before w hs hb answers => ?_) hE
  refine (steadies_of_meets fun n m hw => hp n m w answers trivial (hw.background hb)).imp
    (fun _ h => h) (fun _ w' _ hw => hP _ w' hs hw) fun _ w' _ hw => hP _ w' hs hw

/-! ## Results -/

theorem keeps_judge (hE : ∀ s, E .crashed s) :
    Keeps (Told h env) (fun s => Handling h raised worker dg l s.books) (judge h outcome error)
      (fun healthy s => ∃ engine metrics,
        Handling h raised worker dg (.judged engine metrics :: l) s.books ∧
        (healthy = true → error = none ∧ outcome.degraded = false ∧ engine = true ∧ metrics = true))
      E := by
  refine .bind (keeps_engine _ (fun b w hb hw => hb.steady hw) hE) fun engine => ?_
  refine .bind (keeps_engine _ (fun b w hb hw => hb.steady hw) hE) fun metrics => ?_
  refine .bind .look fun s₀ => ?_
  refine .bind (keeps_note rfl fun b hb => hb.quiet rfl nofun) fun _ => ?_
  refine .pure fun s _ hs => ⟨_, _, hs, fun hh => ?_⟩
  simp only [Bool.and_eq_true, Option.isNone_iff_eq_none, Bool.not_eq_true'] at hh
  obtain ⟨⟨⟨⟨her, hd⟩, hen⟩, hme⟩, -⟩ := hh
  exact ⟨her, hd, hen, by simp [hme]⟩

omit [DecidableEq ω] [DecidableEq δ] in
theorem returns_publishReservation_active (rev : Option Revision) (r : Reservation) :
    Returns (fun _ : Service ω => True) (publishReservation env rev r)
      (fun e s => e = none → s.sources.active = rev) := by
  refine .bind (R := fun e s => e = none → s.sources.active = rev)
    (.step fun a s _ _ => ⟨trivial, ?_⟩) fun e => ?_
  · cases hse : s.sources.selectRevision env.texts a.cache a.draw a.now rev r.session with
    | error e => exact nofun
    | ok next => exact fun _ => (selectRevision_spec hse).2.1
  cases e with
  | some e => exact .pure fun _ _ _ => nofun
  | none =>
    refine .bind (R := fun _ s => s.sources.active = rev) ?_ fun _ => ?_
    · rw [recordFallback]
      split
      · refine .bind (R := fun _ s => s.sources.active = rev)
          (.step fun _ s _ hs => ⟨trivial, hs rfl⟩) fun a => ?_
        exact .bind (R := fun _ s => s.sources.active = rev)
          (.step fun _ s _ hs => ⟨trivial, hs⟩) fun b => Keeps.change fun s _ hs => ⟨trivial, hs⟩
      · exact .pure fun _ _ h => h rfl
    · refine .bind (R := fun _ s => s.sources.active = rev) ?_
        fun _ => Keeps.pure fun _ _ hs _ => hs
      exact .of_through (local_exchangeListener r) (fun _ _ _ h => h)
        fun s s' hl hs => by rw [hl.sources]; exact hs

omit [DecidableEq ω] [DecidableEq δ] in
theorem returns_publishRevision_active (rev : Option Revision) :
    Returns (fun _ : Service ω => True) (publishRevision env rev)
      (fun e s => e = none → s.sources.active = rev) := by
  refine .bind Returns.trivial fun a => ?_
  cases a.refusal with
  | some e => exact .pure fun _ _ _ => nofun
  | none =>
    refine .bind Returns.trivial fun r => ?_
    cases r with
    | none => exact .pure fun _ _ _ => nofun
    | some r =>
      exact .bind Returns.trivial fun _ => returns_publishReservation_active rev r

variable {conditions : Conditions}

theorem keeps_handleCommitted {after : World ω} (her : (worker.result env conditions).err = none)
    (hc : outcome.committed = true)
    (hco : Commits h (worker.result env conditions).candidate outcome after) :
    Keeps (Told h env) (fun s => Handling h worker.job.raises worker
        (worker.result env conditions).digest
        (.applied (worker.result env conditions).candidate (outcome, error) after ::
          .delivered worker conditions :: earlier) s.books)
      (handleCommitted h env worker.job outcome error)
      (fun _ s => Accounts h none none [worker] s.books) Left := by
  refine .bind (((returns_publishRevision_active outcome.active).and
    (through_silent (silent_publishRevision _) _)).pre fun _ _ hs => ⟨trivial, hs⟩) fun e => ?_
  cases e with
  | some e =>
    refine .bind ((keeps_finishReload_failure worker.job.raises_cases
      fun hap => by cases hap).pre fun s _ hs => hs.2.toAccounts) fun _ => ?_
    exact keeps_stopService.pre fun s _ hs => hs.toLedger
  | none =>
    refine .bind (R := fun active s => active = outcome.active ∧
        Handling h worker.job.raises worker (worker.result env conditions).digest _ s.books)
      (.observe fun s _ hs => ⟨hs.1 rfl, hs.2⟩) fun active => ?_
    refine .given (fun _ _ hs => hs.1) fun hac => ?_
    rw [hac]
    refine .bind ((keeps_note rfl fun b hb => hb.quiet rfl nofun).pre fun s _ hs => hs.2)
      fun _ => ?_
    refine .bind (keeps_judge fun _ => trivial) fun healthy => ?_
    refine .bind (R := fun _ s => Accounts h none none [worker] s.books)
      (fun s w hs hP => ?_) fun _ => ?_
    · obtain ⟨engine, metrics, hh, hhe⟩ := hP
      exact keeps_replyCommitted her hc hco hhe s w hs hh
    refine .bind (keeps_engine _ (fun b w hb hw => hb.steady hw) fun _ => trivial) fun ok => ?_
    split
    · exact through_silent silent_scheduleRecovery _
    · exact .done

theorem keeps_handleUncommitted {job : Job} :
    Keeps (Told h env) (fun s => Accounts h none job.raises [worker] s.books)
      (handleUncommitted h job outcome error)
      (fun _ s => Accounts h none none [worker] s.books) Left := by
  refine .bind (keeps_complete (by split <;> decide)) fun _ => ?_
  split
  · refine .bind (through_local (local_retain _) _) fun e => ?_
    cases e with
    | some e => exact through_local local_discard _
    | none => exact through_silent silent_scheduleRecovery _
  · refine .bind (through_local local_discard _) fun _ => ?_
    refine .bind (keeps_engine _ (fun b w hb hw => hb.steady hw) fun _ => trivial) fun ok => ?_
    split
    · exact .done
    · exact through_silent silent_scheduleRecovery _

theorem keeps_callApply {c : Candidate}
    (hjo : c.epoch = worker.job.epoch ∧ c.refresh = worker.job.refresh) :
    Keeps (Told h env) (fun s => Handling h none worker dg l s.books) (callApply h c)
      (fun r s => ∃ after, Commits h c r.1 after ∧
        Handling h worker.job.raises worker dg (.applied c r after :: l) s.books) Left := by
  refine .bind (R := fun r s => Handling h worker.job.raises worker dg l s.books ∧
      ∃ x, r = .ok x ∧ Commits h c x.1 s.world)
    (keeps_call told_world (fun s before w hs hb answers => ?_) fun _ => trivial) fun r => ?_
  · have hbo : ∀ n m, (∀ v : World ω, Upto h n m v → v.engine.current c = true → c.epoch ≤ n) →
        Upto h n m s.world →
        Ending.Meets (fun _ => True) (Bounds h c n m) (fun _ _ => False) (apply h c w answers) :=
      fun n m hc hw => keeps_apply_upto hc w answers trivial (hw.background hb)
    have hal := hbo _ _ (fun v hv hcu => (current_le hv hcu).elim id fun h => h.2.le) hs.world
    generalize apply h c w answers = x at hbo hal ⊢
    obtain ⟨w', ⟨r, rest⟩ | ⟨e, rest⟩ | _⟩ := x
    · have hac : Accounts h none worker.job.raises [worker] { s.books with world := w' } := by
        refine hs.toAccounts.applied hal.2.upto fun n m hne hw => ?_
        refine (hbo n m (fun v hv hcu => (current_le hv hcu).resolve_right ?_) hw).2.upto
        rintro ⟨hz, hep⟩
        exact hne (congrArg₂ Job.mk (hjo.1.symm.trans hep) (hjo.2.symm.trans hz))
      exact ⟨trivial, ⟨hac, hs.history, hs.digests⟩, r, rfl, hal.2.committed⟩
    · exact hal.2.elim
    · trivial
  cases r with
  | error e =>
    refine .pure fun s _ hs => ?_
    obtain ⟨-, x, hx, -⟩ := hs
    cases hx
  | ok r =>
    refine .bind (R := fun after s => Handling h worker.job.raises worker dg l s.books ∧
        Commits h c r.1 after)
      (.observe fun s _ hs => ?_) fun after => ?_
    · obtain ⟨hs, x, hx, hco⟩ := hs
      cases hx
      exact ⟨hs, hco⟩
    refine .given (fun _ _ hs => hs.2) fun hco => ?_
    refine .bind ((keeps_note rfl fun b hb => hb.quiet rfl nofun).pre fun s _ hs => hs.1)
      fun _ => Keeps.pure fun s _ hs => ⟨after, hco, hs⟩

/-- The worker's result has been noted and nothing else has happened. -/
abbrev Noted (h : Host ω) (env : Setting δ) (worker : Worker) (conditions : Conditions)
    (earlier : List (Entry ω)) (s : Service ω) : Prop :=
  Handling h none worker (worker.result env conditions).digest
    (.delivered worker conditions :: earlier) s.books

theorem keeps_applyResult (her : (worker.result env conditions).err = none) :
    Keeps (Told h env) (Noted h env worker conditions earlier)
      (applyResult h env worker.job (worker.result env conditions).candidate)
      (fun _ s => Accounts h none none [worker] s.books) Left := by
  refine .bind (through_local local_ask _) fun a => ?_
  refine .bind (through_local (.observe _) _) fun waiting => ?_
  split
  · refine .bind ((keeps_complete (by decide)).pre fun s _ hs => hs.toAccounts.raise _)
      fun _ => through_local local_discard _
  refine .bind (keeps_callApply (worker.result_job env conditions)) fun r => fun s w hs hP => ?_
  obtain ⟨after, hco, hh⟩ := hP
  dsimp only
  split
  · rename_i hc
    exact keeps_handleCommitted her hc hco s w hs hh
  · exact keeps_handleUncommitted s w hs hh.toAccounts

theorem keeps_settle :
    Keeps (Told h env) (Noted h env worker conditions earlier)
      (settle h env worker.job (worker.result env conditions))
      (fun _ s => Accounts h none none [worker] s.books) Left := by
  have hcomplete : ∀ code msg, Keeps (Told h env) (Noted h env worker conditions earlier)
      (complete worker.job .rejected code msg)
      (fun _ s => Accounts h none none [worker] s.books) Left := fun code msg =>
    (keeps_complete (by decide)).pre fun s _ hs => hs.toAccounts.raise _
  refine .bind (keeps_engine _ (fun b w hb hw => hb.steady hw) fun _ => trivial) fun current => ?_
  split
  · exact hcomplete _ _
  split
  · exact hcomplete _ _
  · exact hcomplete _ _
  rename_i her
  refine .bind (through_local (.observe _) _) fun busy => ?_
  split
  · exact hcomplete _ _
  refine .bind (through_local (local_reserve _) _) fun e => ?_
  cases e with
  | some e => exact hcomplete _ _
  | none => exact keeps_applyResult her

/-- **A result is handled.** -/
theorem keeps_handleResult :
    Keeps (Told h env) (fun s => Accounts h none none [] s.books ∧ worker ∈ s.workers)
      (handleResult h env worker conditions)
      (fun _ s => Accounts h none none [] s.books) Left := by
  refine .bind (R := fun _ s => Accounts h none none [worker] s.books)
    (.change fun s hs hP => ⟨hs.of_log rfl, hP.1.deliver hP.2⟩) fun _ => ?_
  refine .of_state fun s₀ _ hs₀ => ?_
  refine .bind (R := fun _ s => Accounts h none none [worker] s.books ∧
      s.log = .delivered worker conditions :: s₀.log) (.change fun s hs hP => ?_) fun _ => ?_
  · subst hP
    exact ⟨hs.quiet (e := .delivered worker conditions) rfl rfl, hs₀.quiet rfl nofun, rfl⟩
  refine .bind (R := fun _ => Noted h env worker conditions s₀.log)
    (.change fun s hs hP => ⟨hs.of_log rfl, ?_⟩) fun _ => ?_
  · refine ⟨hP.1.restamp _ fun k => ?_, hP.2, fun k hk hjo => ?_⟩
    · split <;> exact ⟨rfl, rfl⟩
    · obtain ⟨k', -, rfl⟩ := Option.map_eq_some_iff.mp hk
      by_cases hma : worker.job.refresh = 0 ∧ k'.epoch = worker.job.epoch
      · simp only [if_pos hma]
      · simp only [if_neg hma] at hjo
        exact absurd (by rw [hjo]; exact ⟨rfl, rfl⟩) hma
  refine .bind (through_silent (silent_receive _ _) _) fun _ => ?_
  exact keeps_settle.returns fun _ s _ hs => hs.forget

end Calls

end Perimeterd.App
