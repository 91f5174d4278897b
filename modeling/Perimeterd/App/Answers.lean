import Perimeterd.App.Replies

/-!
# One truthful answer

The rest of the loop: requests that arrive, refreshes that are started, recoveries and the startup.
Together with the handling of results this gives the invariant of every wait point, and what is known
when the service has stopped.
-/

namespace Perimeterd.App

open Lib Firewall State List
open Lib.Proc (Through Within)

variable {ω δ : Type} [DecidableEq δ] {h : Host ω} {env : Setting δ} {owed : Option Nat}
  {b : Books ω} {E : Stop → Service ω → Prop}

/-! ## Requests -/

/-- An epoch has been admitted, and nobody waits for it yet. -/
structure Promoted (h : Host ω) (owed : Option Nat) (epoch : Nat) (b : Books ω) : Prop
    extends Ledger owed b where
  newest : b.world.engine.admitted = epoch
  bound : ∃ n < epoch, Upto h n epoch b.world
  earlier : ∀ worker ∈ b.workers, worker.epoch < epoch
  sequence : ∀ worker ∈ b.workers, ∀ n cfg session, worker.task = .refresh n cfg session → n ≠ 0

/-- The books once a worker has been started for an epoch. -/
def Books.enter (b : Books ω) (request : Option Nat) (worker : Worker) : Books ω :=
  { b with
    waiter := request.map fun q => { request := q, epoch := worker.epoch }
    workers := worker :: b.workers
    log := .admitted request worker.epoch :: b.log }

variable {request : Option Nat} {epoch : Nat}

theorem Books.slot {wk : Worker} {k : Waiter}
    (hk : (b.enter request wk).waiter = some k) : request = some k.request ∧ k.epoch = wk.epoch := by
  obtain ⟨q, hq, rfl⟩ := Option.map_eq_some_iff.mp hk
  exact ⟨hq, rfl⟩

section

variable (hb : Promoted h request epoch b)

include hb

theorem Promoted.ledger
    (hno : b.waiter = none) (wk : Worker) : Ledger none (b.enter request wk) where
  once q := by
    have ho := hb.once q
    rw [hno] at ho
    refine (repliesTo_quiet rfl q b.log).trans (ho.trans ?_)
    simp only [Books.enter]
    cases request <;> simp
  waiting k hk := ⟨hb.owing _ (Books.slot hk).1, nofun⟩
  owing := nofun
  received q hq := hb.received q (by simpa [Books.enter] using hq)

theorem Promoted.timely
    {wk : Worker} (hw : wk.epoch = epoch) : Timely h none (b.enter request wk) := by
  obtain ⟨n, hn, hu⟩ := hb.bound
  have had : (b.enter request wk).world.engine.admitted = epoch := hb.newest
  refine ⟨?_, fun k hk => Or.inr ?_⟩
  · rw [had]
    exact hu.mono hu.le (Nat.le_refl _)
  · rw [had, (Books.slot hk).2, hw]
    exact ⟨rfl, n, hn, hu⟩

theorem Promoted.staffed
    {exp : String} {committed : Option Manifest} :
    Staffed [] (b.enter request
      { epoch := epoch, task := .reload exp, committed := committed, request := request }) where
  epoch x hx := by
    have hne : epoch ≤ b.world.engine.admitted := hb.newest.ge
    rcases mem_cons.mp hx with rfl | hx
    · exact hne
    · exact (hb.earlier x hx).le.trans hne
  sequence x hx := by
    rcases mem_cons.mp hx with rfl | hx
    · intro n cfg ses heq
      cases heq
    · exact hb.sequence x hx
  older k hk x hx hre := by
    rw [(Books.slot hk).2]
    rcases mem_cons.mp hx with rfl | hx
    · exact absurd rfl hre
    · exact hb.earlier x hx
  request k hk x hx hjo := by
    rcases mem_cons.mp hx with rfl | hx
    · exact (Books.slot hk).1
    · -- an older worker has an older epoch
      have hep := x.job_epoch
      rw [hjo, (Books.slot hk).2] at hep
      exact absurd hep (Nat.ne_of_gt (hb.earlier x hx))
  admission k hk := by
    rw [(Books.slot hk).2, ← (Books.slot hk).1]
    exact mem_cons_self

theorem Promoted.enter (hno : b.waiter = none) (exp : String) (committed : Option Manifest) :
    Accounts h none none [] (b.enter request
      { epoch := epoch, task := .reload exp, committed := committed, request := request }) :=
  ⟨hb.ledger hno _, hb.timely rfl, hb.staffed⟩

end

/-- The books as they are between two turns. -/
abbrev Kept (h : Host ω) (s : Service ω) : Prop := Accounts h none none [] s.books

theorem keeps_startReload {exp : String} :
    Keeps (Told h env) (fun s => Promoted h request epoch s.books)
      (startReload request exp epoch) (fun _ => Kept h) E := by
  refine .bind (keeps_finishWaiter (by decide) (P := Promoted h request epoch)
    (fun _ hb => hb.toLedger) fun b k hb hk =>
      ⟨hb.toLedger.reply hk _, hb.newest, hb.bound, hb.earlier, hb.sequence⟩) fun _ => ?_
  refine .of_state fun s₀ _ hs₀ => ?_
  refine .bind (R := fun _ s => s = { s₀ with log := .admitted request epoch :: s₀.log })
    (.change fun s hs hP => ⟨hs.quiet (e := .admitted request epoch) rfl rfl, by rw [hP]⟩)
    fun _ => ?_
  refine .change fun s hs hP => ⟨hs.of_log rfl, ?_⟩
  subst hP
  exact hs₀.1.enter hs₀.2 exp _

theorem keeps_reject {code msg : String} :
    Keeps (Told h env) (fun s => Accounts h request none [] s.books) (reject request code msg)
      (fun _ => Kept h) E := by
  cases request with
  | none => exact .done
  | some q =>
    refine .change fun s hs hP => ?_
    have ho : ∀ x, repliesTo x (Entry.replied q (.failure .rejected code msg) :: s.log) =
        if x < s.requests ∧ none ≠ some x ∧ s.waiter.map (·.request) ≠ some x then 1 else 0 := by
      intro x
      have hx := hP.once x
      change repliesTo x s.log = if x < s.requests ∧ some q ≠ some x ∧
        s.waiter.map (·.request) ≠ some x then 1 else 0 at hx
      rw [repliesTo_replied, hx]
      by_cases hq : q = x
      · subst hq
        have hlt : q < s.requests := hP.owing q rfl
        have hw : s.waiter.map (·.request) ≠ some q := by
          intro heq
          obtain ⟨k, hk, rfl⟩ := Option.map_eq_some_iff.mp heq
          exact (hP.waiting k hk).2 rfl
        simp [hlt, hw]
      · simp [hq]
    have hl : Ledger none { s.books with
        log := .replied q (.failure .rejected code msg) :: s.log } :=
      ⟨ho, fun k hk => ⟨(hP.waiting k hk).1, nofun⟩, nofun,
        fun x hx => hP.received x ((mem_cons.mp hx).resolve_left nofun)⟩
    refine ⟨⟨fun x => hl.le_one x, hs.truthful, ?_⟩, hl, ⟨hP.world, hP.newest⟩,
      ⟨hP.epoch, hP.sequence, hP.older, hP.request,
        fun k hk => mem_cons_of_mem _ (hP.admission k hk)⟩⟩
    rintro x r heq hap
    cases heq
    cases hap

section Engine

theorem Accounts.refresh (hb : Accounts h none none [] b) {wk : Worker} {n : Nat} {cfg : Config}
    {session : Source.Session} (hn : n ≠ 0) (hta : wk.task = .refresh n cfg session)
    (hep : wk.epoch = b.world.engine.activeEpoch) :
    Accounts h none none [] { b with workers := wk :: b.workers } := by
  have hjo : wk.job = ⟨wk.epoch, n⟩ := by rw [Worker.job, hta]
  refine ⟨⟨hb.once, hb.waiting, hb.owing, hb.received⟩, ⟨hb.world, hb.newest⟩,
    ⟨fun x hx => ?_, fun x hx => ?_, fun k hk x hx hre => ?_, fun k hk x hx heq => ?_,
      hb.admission⟩⟩
  · rcases mem_cons.mp hx with rfl | hx
    · exact hep.trans_le hb.world.active
    · exact hb.epoch x hx
  · rcases mem_cons.mp hx with rfl | hx
    · intro m cfg' session' heq
      cases hta.symm.trans heq
      exact hn
    · exact hb.sequence x hx
  · rcases mem_cons.mp hx with rfl | hx
    · obtain ⟨-, m, hm, hu⟩ := (hb.newest k hk).resolve_left (by simp)
      exact hep.trans_lt (lt_of_le_of_lt hu.active hm)
    · exact hb.older k hk x hx hre
  · rcases mem_cons.mp hx with rfl | hx
    · rw [hjo] at heq
      exact absurd (congrArg Job.refresh heq) hn
    · exact hb.request k hk x hx heq

def Starting (h : Host ω) (b : Books ω) : Prop := Accounts h none none [] b ∧ b.waiter = none

theorem Starting.steady (hb : Starting h b) {w : World ω} (hw : Steadies h b.world w) :
    Starting h { b with world := w } :=
  ⟨hb.1.steady hw, hb.2⟩

theorem Starting.upto (hb : Starting h b) {w : World ω} {m : Nat} (hw : Upto h m m w)
    (hle : b.world.engine.admitted ≤ m) : Starting h { b with world := w } := by
  have had := hw.admitted
  have hwa : ∀ k, ({ b with world := w } : Books ω).waiter ≠ some k := by
    intro k hk
    cases hb.2.symm.trans hk
  refine ⟨⟨⟨hb.1.once, hb.1.waiting, hb.1.owing, hb.1.received⟩,
    ⟨?_, fun k hk => absurd hk (hwa k)⟩, ⟨fun x hx => ?_, hb.1.sequence, hb.1.older,
      hb.1.request, hb.1.admission⟩⟩, hb.2⟩
  · change Upto h w.engine.admitted w.engine.admitted w
    rw [had]
    exact hw
  · change x.epoch ≤ w.engine.admitted
    rw [had]
    exact (hb.1.epoch x hx).trans hle

theorem starting_new {w : World ω} (hw : Upto h w.engine.admitted w.engine.admitted w) :
    Starting h ⟨w, none, [], 0, []⟩ := by
  refine ⟨⟨⟨fun q => rfl, nofun, nofun, fun q hq => ?_⟩, ⟨hw, nofun⟩,
    ⟨fun x hx => ?_, fun x hx => ?_, nofun, nofun, nofun⟩⟩, rfl⟩
  · cases hq
  · cases hx
  · cases hx

theorem keeps_orExit {e : Option String} {P : Service ω → Prop} :
    Keeps (Told h env) P (orExit e) (fun _ => P) (fun _ _ => True) := by
  cases e with
  | none => exact .done
  | some e => exact .throw fun _ _ _ => trivial

theorem keeps_startupStep {P : Books ω → Prop} :
    Keeps (Told h env) (fun s => P s.books) startupStep (fun _ s => P s.books) (fun _ _ => True) :=
  Keeps.bind (through_local local_ask _) fun _ => keeps_orExit

/-- Since the history `l` nobody has been answered, but by a service that is shutting down. -/
def Parting (l : List (Entry ω)) (s : Service ω) : Prop :=
  ∃ new, s.log = new ++ l ∧ ∀ q r, Entry.replied q r ∈ new → r.code = "shutting_down"

/-- Since the history `l` nobody has been answered, and the slot is not of the job's epoch. -/
structure Aside (job : Job) (l : List (Entry ω)) (s : Service ω) : Prop where
  log : ∃ new, s.log = new ++ l ∧ new.all Entry.quiet = true
  slot : ∀ k, s.waiter = some k → k.epoch ≠ job.epoch

/-- A handler that answers nobody. -/
abbrev Mute {α : Type} (job : Job) (l : List (Entry ω)) (p : Handler ω α) : Prop :=
  Keeps (Parting l) (Aside job l) p (fun _ => Aside job l) fun _ _ => True

variable {job : Job} {l : List (Entry ω)}

theorem Parting.quiet {s s' : Service ω} (hs : Parting l s)
    (hl : ∃ new, s'.log = new ++ s.log ∧ new.all Entry.quiet = true) : Parting l s' := by
  obtain ⟨old, hold, hc⟩ := hs
  obtain ⟨new, hnew, hqu⟩ := hl
  refine ⟨new ++ old, by rw [hnew, hold, append_assoc], fun q r hmem => ?_⟩
  rcases mem_append.mp hmem with hmem | hmem
  · cases all_eq_true.mp hqu _ hmem
  · exact hc q r hmem

theorem aside_of_plumbing {α : Type} {p : Handler ω α} (hp : Within Plumbing p) : Mute job l p := by
  refine (Keeps.of_within hp (fun s s' hq hs => hs.quiet hq.log) fun s s' hq hs => ?_).fails
    fun _ _ _ _ => trivial
  obtain ⟨old, hold, hqu⟩ := hs.log
  obtain ⟨new, hnew, hqu'⟩ := hq.log
  refine ⟨⟨new ++ old, by rw [hnew, hold, append_assoc], ?_⟩, hq.waiter ▸ hs.slot⟩
  rw [all_append, hqu, hqu', Bool.and_self]

theorem aside_of_silent {α : Type} {p : Handler ω α} (hp : Through Silent p) : Mute job l p := by
  refine .of_through hp (fun s s' hq hs => ?_) fun s s' hq hs => ?_
  · exact hs.quiet ⟨[], by rw [hq.log]; rfl, rfl⟩
  · exact ⟨hq.log ▸ hs.log, hq.waiter ▸ hs.slot⟩

theorem aside_of_local {α : Type} {p : Handler ω α} (hp : Through Local p) : Mute job l p :=
  aside_of_silent (silent_of_local hp)

theorem aside_stopService {α : Type} {e : Option String} {Q : α → Service ω → Prop} :
    Keeps (Parting l) (Aside job l) (stopService e) Q (fun _ _ => True) := by
  refine .bind (R := fun _ _ => True) ?_ fun _ => ?_
  · refine .bind (R := fun _ _ => True) (.observe fun _ _ _ => trivial) fun w => ?_
    cases w with
    | none => exact .pure fun _ _ _ => trivial
    | some k =>
      refine .bind (R := fun _ _ => True) (.observe fun _ _ _ => trivial) fun w => ?_
      cases w with
      | none => exact .pure fun _ _ _ => trivial
      | some k' =>
        dsimp only
        split
        · exact .pure fun _ _ _ => trivial
        refine .bind (R := fun _ _ => True) (.change fun s hs _ => ⟨?_, trivial⟩)
          fun _ => Keeps.change fun s hs _ => ⟨hs, trivial⟩
        obtain ⟨new, hnew, hc⟩ := hs
        refine ⟨_ :: new, congrArg (List.cons _) hnew, fun q r hmem => ?_⟩
        rcases mem_cons.mp hmem with heq | hmem
        · cases heq
          rfl
        · exact hc q r hmem
  · exact .bind (R := fun _ _ => True) (.change fun s hs _ => ⟨hs, trivial⟩)
      fun _ => Keeps.throw fun _ _ _ => trivial

theorem aside_finishReload {r : ReloadResult} : Mute job l (finishReload job.epoch r) := by
  refine .bind (R := fun w s => Aside job l s ∧ w = s.waiter)
    (.observe fun _ _ hs => ⟨hs, rfl⟩) fun w => ?_
  cases w with
  | none => exact .pure fun _ _ hs => hs.1
  | some k =>
    dsimp only
    split
    · exact .pure fun _ _ hs => hs.1
    · rename_i heq
      exact .given (φ := False) (fun s _ hs => heq (hs.1.slot k hs.2.symm)) False.elim

theorem aside_complete {out : ReloadOutcome} {code msg : String} (hre : job.refresh ≠ 0) :
    Mute job l (complete job out code msg) := by
  rw [complete, if_neg hre]
  exact .done

variable [DecidableEq ω]

/-- An epoch was reserved for the request, or nothing has changed. -/
def Reserved (h : Host ω) (request : Option Nat) : Except String Nat → Books ω → Prop
  | .ok epoch, b => Promoted h request epoch b
  | .error _, b => Accounts h request none [] b

theorem keeps_admitReload {request : Option Nat} {exp : String} (hE : ∀ s, E .crashed s) :
    Keeps (Told h env) (fun s => Accounts h request none [] s.books)
      (admitReload h request exp) (fun _ => Kept h) E := by
  refine .bind (through_local local_ask _) fun a => ?_
  split
  · exact keeps_reject
  refine .bind (through_local local_ask _) fun a => ?_
  split
  · exact keeps_reject
  refine .bind (through_local (.observe _) _) fun busy => ?_
  split
  · exact keeps_reject
  refine .bind (R := fun r s => Reserved h request r s.books)
    (keeps_callAdmission told_world (fun s before w e n hs hb had => ?_)
      (fun s before w e hs hb => hs.steady fun n m hw => hw.background hb) hE) fun r => ?_
  · have hac : Accounts h request none [] { s.books with world := w } :=
      hs.steady fun n m hw => hw.background hb
    obtain ⟨-, rfl, rfl⟩ := admitEpoch_eq_ok had
    refine ⟨⟨hac.once, hac.waiting, hac.owing, hac.received⟩, rfl, ?_,
      fun x hx => Nat.lt_succ_of_le (hac.epoch x hx), fun x hx => hac.sequence x hx⟩
    obtain ⟨hso, hre, hact, -, -⟩ := hac.world
    exact ⟨w.engine.admitted, Nat.lt_succ_self _, hso, hre, hact, rfl, Nat.le_succ _⟩
  cases r with
  | error e => exact keeps_reject
  | ok epoch => exact keeps_startReload

theorem keeps_handleRequest {exp : String} (hE : ∀ s, E .crashed s) :
    Keeps (Told h env) (Kept h) (handleRequest h exp) (fun _ => Kept h) E := by
  refine .bind (R := fun q s => q = s.requests ∧ Accounts h none none [] s.books)
    (.observe fun _ _ hs => ⟨rfl, hs⟩) fun q => ?_
  refine .bind (R := fun _ s => q < s.requests ∧ Accounts h (some q) none [] s.books)
    (.change fun s hs hP => ⟨hs.of_log rfl, Nat.lt_succ_self q, ?_⟩) fun _ => ?_
  · obtain ⟨rfl, hP⟩ := hP
    refine ⟨⟨fun x => ?_, fun k hk => ?_, fun x hx => ?_, fun x hx => ?_⟩,
      ⟨hP.world, hP.newest⟩, ⟨hP.epoch, hP.sequence, hP.older, hP.request, hP.admission⟩⟩
    · refine (hP.once x).trans (if_congr ?_ rfl rfl)
      change x < s.requests ∧ none ≠ some x ∧ _ ↔ x < s.requests + 1 ∧ some s.requests ≠ some x ∧ _
      simp only [ne_eq, reduceCtorEq, not_false_eq_true, true_and, Option.some.injEq]
      rw [← and_assoc]
      refine and_congr_left fun _ => ?_
      omega
    · have hlt : k.request < s.requests := (hP.waiting k hk).1
      refine ⟨Nat.lt_succ_of_lt hlt, fun heq => ?_⟩
      rw [Option.some.inj heq] at hlt
      exact Nat.lt_irrefl _ hlt
    · rw [← Option.some.inj hx]
      exact Nat.lt_succ_self _
    · exact Nat.lt_succ_of_lt (hP.received x hx)
  refine .bind (R := fun _ s => Accounts h (some q) none [] s.books)
    (.change fun s hs hP => ⟨hs.quiet (e := .received q) rfl rfl, hP.2.quiet rfl ?_⟩)
    fun _ => keeps_admitReload hE
  rintro x ⟨⟩
  exact hP.1

/-! ## Refreshes and recoveries -/

theorem keeps_startRefresh {rev : Revision} (hE : ∀ s, E .crashed s) :
    Keeps (Told h env) (Kept h) (startRefresh h rev) (fun _ => Kept h) E := by
  refine .bind (R := fun r s => Accounts h none none [] s.books ∧
      ∀ n, r = .ok n → n ≠ 0 ∧ rev.epoch = s.world.engine.activeEpoch)
    (keeps_callAdmission told_world (fun s before w e n hs hb had => ?_)
      (fun s before w e hs hb => ⟨hs.steady fun n m hw => hw.background hb, nofun⟩) hE) fun r => ?_
  · obtain ⟨-, -, hep, rfl, rfl⟩ := admitRefresh_eq_ok had
    refine ⟨hs.steady fun n m hw => ?_, fun n hn => ?_⟩
    · have hw := hw.background hb
      exact ⟨hw.sound, hw.ready, hw.active, hw.admitted, hw.le⟩
    · cases hn
      exact ⟨Nat.succ_ne_zero _, hep⟩
  cases r with
  | error e =>
    refine .bind ((through_local local_ask _).pre fun _ _ hs => hs.1) fun a => ?_
    exact .change fun s hs hP => ⟨hs.of_log rfl, hP⟩
  | ok n =>
    refine .change fun s hs hP => ⟨hs.of_log rfl, ?_⟩
    obtain ⟨hn, hep⟩ := hP.2 n rfl
    exact hP.1.refresh hn rfl hep

theorem keeps_handleTick (hE : ∀ s, E .crashed s) :
    Keeps (Told h env) (Kept h) (handleTick h) (fun _ => Kept h) E := by
  have hc : ∀ f : Service ω → SourceRuntime, Keeps (Told h env)
      (Kept h) (update fun s => { s with sources := f s })
      (fun _ => Kept h) E :=
    fun f => Keeps.change fun s hs hP => ⟨hs.of_log rfl, hP⟩
  refine .bind (hc _) fun _ => ?_
  refine .bind (through_local (.observe _) _) fun s₀ => ?_
  split
  · exact .done
  split
  · exact .done
  refine .bind (through_local local_ask _) fun a => ?_
  refine .bind (through_local local_ask _) fun a => ?_
  split
  · split
    · exact .bind (through_local local_ask _) fun c => hc _
    · exact keeps_startRefresh hE
  · exact .bind (through_local local_ask _) fun c => hc _

theorem keeps_handleRecovery :
    Keeps (Told h env) (Kept h) (handleRecovery h env) (fun _ => Kept h) Left := by
  refine .bind (R := fun _ => Kept h) (.change fun s hs hP => ⟨hs.of_log rfl, hP⟩) fun _ => ?_
  refine .bind (keeps_call_steady (fun n m => keeps_recover_upto)
    (fun b w hb hw => hb.steady hw) fun _ => trivial) fun r => ?_
  cases r with
  | error e =>
    refine .bind (through_local local_ask _) fun a => ?_
    split
    · exact keeps_stopService.pre fun s _ hs => hs.toLedger
    refine .bind (through_local local_ask _) fun a => ?_
    split
    · exact .done
    · exact .change fun s hs hP => ⟨hs.of_log rfl, hP⟩
  | ok recovered =>
    refine .bind (through_silent (silent_recoverPublication _) _) fun e => ?_
    cases e with
    | some e => exact keeps_stopService.pre fun s _ hs => hs.toLedger
    | none => exact .change fun s hs hP => ⟨hs.of_log rfl, hP⟩

/-- **Every turn** keeps the books, and settles them when it leaves the loop. -/
theorem keeps_turn (o : Occurrence) :
    Keeps (Told h env) (fun s => Kept h s ∧ o.Ready s) (turn h env o) (fun _ => Kept h) Left := by
  have hpr : ∀ {p : Handler ω Unit}, Keeps (Told h env) (Kept h) p (fun _ => Kept h)
      Left → Keeps (Told h env) (fun s => Kept h s ∧ o.Ready s) p
        (fun _ => Kept h) Left := fun hp => hp.pre fun _ _ hs => hs.1
  cases o with
  | stopping => exact keeps_stopService.pre fun s _ hs => hs.1.toLedger
  | listenerFailed e => exact keeps_stopService.pre fun s _ hs => hs.1.toLedger
  | request exp => exact hpr (keeps_handleRequest fun _ => trivial)
  | sighup => exact hpr (keeps_admitReload fun _ => trivial)
  | tick => exact hpr (keeps_handleTick fun _ => trivial)
  | metricsFailed e =>
    refine .bind (R := fun _ => Kept h) (.change fun s hs hP => ⟨hs.of_log rfl, hP.1⟩) fun _ => ?_
    exact keeps_stopService.pre fun s _ hs => hs.toLedger
  | delivered wk conds => exact keeps_handleResult
  | recovery => exact hpr keeps_handleRecovery

/-! ## Startup -/

structure Booting (h : Host ω) (b : Books ω) : Prop where
  sound : Sound h .any b.world
  ready : Ready b.world
  new : b = ⟨b.world, none, [], 0, []⟩

theorem keeps_recover_booting :
    Keeps (Told h env) (fun s => Booting h s.books) (call h (recover h)) (fun r s =>
        match r with
        | .ok _ => Starting h s.books ∧ ∃ x, Finished h.content x s.world.disk
        | .error _ => Booting h s.books) (fun _ _ => True) := by
  refine keeps_call told_world (fun s before w hs hb answers => ?_) fun _ => trivial
  obtain ⟨hso, hrea⟩ := sound_background hb hs.sound hs.ready
  refine (keeps_recover (S := .any) w.engine w answers hso (Engine.Like.refl _)).imp
    (fun _ _ => trivial) (fun x w' hs' hre => ⟨?_, x, hre.1⟩) fun e w' hs' hre => ?_
  · have hbo : ({ s with world := w' } : Service ω).books = ⟨w', none, [], 0, []⟩ :=
      congrArg (fun b : Books ω => { b with world := w' }) hs.new
    rw [hbo]
    exact starting_new (hre.upto hs')
  · exact ⟨hs', hre.ready, congrArg (fun b : Books ω => { b with world := w' }) hs.new⟩

theorem keeps_recoverUntilReady {P Q : Service ω → Prop}
    (hc : Keeps (Told h env) P (call h (recover h)) (fun r s =>
        match r with
        | .ok _ => Q s
        | .error _ => P s) (fun _ _ => True)) :
    Keeps (Told h env) P (recoverUntilReady h) (fun _ => Q) (fun _ _ => True) := by
  refine .loop (J := fun _ => P) (fun _ _ hs => hs) fun a _ => ?_
  refine .bind hc fun r => ?_
  cases r with
  | ok x => exact .pure fun _ _ h => h
  | error e =>
    dsimp only
    split
    · exact .pure fun _ _ h => h
    · exact .throw fun _ _ _ => trivial

theorem keeps_recover_starting :
    Keeps (Told h env) (fun s => Starting h s.books) (recoverUntilReady h)
      (fun _ s => Starting h s.books) (fun _ _ => True) := by
  refine keeps_recoverUntilReady ((keeps_call_steady (E := fun _ _ => True)
    (fun n m => keeps_recover_upto) (fun b w hb hw => hb.steady hw) fun _ => trivial).returns
    fun r s _ hs => ?_)
  cases r <;> exact hs

theorem keeps_publishInitial {out : Outcome} {error : Option String} :
    Keeps (Told h env) (fun s => Starting h s.books) (publishInitial h env out error)
      (fun _ s => Starting h s.books) (fun _ _ => True) := by
  rw [publishInitial]
  split
  · refine .bind (through_local (local_retain _) _) fun e => ?_
    refine .bind keeps_orExit fun _ => ?_
    refine .bind keeps_recover_starting fun recovered => ?_
    split
    · exact .throw fun _ _ _ => trivial
    · exact .bind (through_silent (silent_recoverPublication _) _) fun e => keeps_orExit
  · split
    · exact .bind (through_silent (silent_publishRevision _) _) fun e => keeps_orExit
    · exact .throw fun _ _ _ => trivial

theorem keeps_callApply_starting {c : Candidate} :
    Keeps (Told h env) (fun s => Starting h s.books) (callApply h c)
      (fun _ s => Starting h s.books) (fun _ _ => True) := by
  refine .bind (R := fun _ s => Starting h s.books)
    (keeps_call told_world (fun s before w hs hb answers => ?_) fun _ => trivial) fun r => ?_
  · exact (keeps_apply_upto (c := c)
      (fun v hv hc => (current_le hv hc).elim id fun h => h.2.le) w answers trivial
      (hs.1.world.background hb)).imp (fun _ h => h)
      (fun r w' _ hap => hs.upto hap.upto (Nat.le_refl _)) fun _ _ _ hap => hap.elim
  cases r with
  | error e => exact .done
  | ok r =>
    refine .bind (through_local (.observe _) _) fun after => ?_
    exact .bind (keeps_note rfl fun b hb => ⟨hb.1.quiet rfl nofun, hb.2⟩)
      fun _ => .pure fun _ _ hs => hs

/-- **The books at the first wait.** -/
theorem keeps_start {cfg : Config} {ses : Source.Session} {conds : Conditions} :
    Keeps (Told h env) (fun s => Booting h s.books) (start h env cfg ses conds)
      (fun _ => Kept h) (fun _ _ => True) := by
  refine .bind (keeps_recoverUntilReady keeps_recover_booting) fun recovered => ?_
  refine .bind (R := fun _ s => Starting h s.books)
    (keeps_call told_world (fun s before w hs hb answers => ?_) fun _ => trivial)
    fun collected => ?_
  · obtain ⟨hs, x, hx⟩ := hs
    have hf := finished_background hb hs.1.world.sound hx
    exact (steadies_of_meets fun n m hw =>
      keeps_collect_upto w answers trivial ⟨hw.background hb, hf⟩).imp (fun _ h => h)
      (fun _ _ _ hw => hs.steady hw) fun _ _ _ hw => hs.steady hw
  cases collected with
  | error e => exact .throw fun _ _ _ => trivial
  | ok _ =>
  refine .bind keeps_startupStep fun _ => ?_
  refine .bind (through_silent (silent_selectRevision _ _) _) fun e => ?_
  refine .bind keeps_orExit fun _ => ?_
  refine .bind keeps_startupStep fun _ => ?_
  refine .bind (R := fun _ s => Starting h s.books)
    (keeps_callAdmission told_world (fun s before w e n hs hb had => ?_)
      (fun s before w e hs hb => hs.steady fun n m hw => hw.background hb) fun _ => trivial)
    fun admitted => ?_
  · obtain ⟨-, rfl, rfl⟩ := admitEpoch_eq_ok had
    have hw := hs.1.world.background hb
    have hu : Upto h s.world.engine.admitted (s.world.engine.admitted + 1)
        { w with engine := { w.engine with admitted := w.engine.admitted + 1 } } :=
      ⟨hw.sound, hw.ready, hw.active, congrArg (· + 1) hw.admitted, Nat.le_succ _⟩
    exact hs.upto (hu.mono (Nat.le_succ _) (Nat.le_refl _)) (Nat.le_succ _)
  cases admitted with
  | error e => exact .throw fun _ _ _ => trivial
  | ok epoch =>
  refine .bind keeps_startupStep fun _ => ?_
  refine .bind (through_local (.observe _) _) fun manifest => ?_
  refine .bind keeps_orExit fun _ => ?_
  refine .bind (through_local (local_reserve _) _) fun e => ?_
  refine .bind keeps_orExit fun _ => ?_
  refine .bind keeps_startupStep fun _ => ?_
  refine .bind keeps_callApply_starting fun r => ?_
  refine .bind keeps_publishInitial fun _ => ?_
  exact keeps_startupStep.returns fun _ _ _ hs => hs.1

/-- **The invariant at every wait point.** -/
theorem Waits.accounts {ok : Service ω → Occurrence → Prop} {s : Service ω}
    (hs : Waits h env ok s) : Told h env s ∧ Accounts h none none [] s.books := by
  induction hs with
  | @start w cfg session conditions s answers rest hw hru =>
    obtain ⟨evs, hrea⟩ := hw
    obtain ⟨hso, hre⟩ := hrea.sound
    have hst : Keeps (Told h env) (fun s => Booting h s.books)
        (App.start h env cfg session conditions) (fun _ => Kept h)
        (fun _ _ => True) := keeps_start
    have := hst { world := w } answers ⟨fun _ => Nat.zero_le 1, trivial⟩ ⟨hso, hre, rfl⟩
    rw [hru] at this
    exact this
  | @turn s s' o answers rest _ hre _ hru ih =>
    have := keeps_turn o s answers ih.1 ⟨ih.2, hre⟩
    rw [hru] at this
    exact this

/-! ## Results of refreshes -/

omit [DecidableEq δ] in
theorem aside_handleCommitted {out : Outcome} {error : Option String} (hre : job.refresh ≠ 0) :
    Mute job l (handleCommitted h env job out error) := by
  refine .bind (aside_of_silent (silent_publishRevision _)) fun e => ?_
  cases e with
  | some e => exact .bind aside_finishReload fun _ => aside_stopService
  | none =>
    refine .bind (aside_of_local (.observe _)) fun active => ?_
    refine .bind (aside_of_plumbing (plumbing_note rfl)) fun _ => ?_
    refine .bind (aside_of_plumbing (plumbing_judge _ _)) fun healthy => ?_
    refine .bind (R := fun _ => Aside job l) ?_ fun _ => ?_
    · rw [replyCommitted, if_pos hre]
      exact .done
    refine .bind (aside_of_plumbing (plumbing_engine _)) fun ok => ?_
    split
    · exact aside_of_silent silent_scheduleRecovery
    · exact .done

theorem aside_handleUncommitted {out : Outcome} {error : Option String} (hre : job.refresh ≠ 0) :
    Mute job l (handleUncommitted h job out error) := by
  refine .bind (aside_complete hre) fun _ => ?_
  split
  · refine .bind (aside_of_local (local_retain _)) fun e => ?_
    cases e with
    | some e => exact aside_of_local local_discard
    | none => exact aside_of_silent silent_scheduleRecovery
  · refine .bind (aside_of_local local_discard) fun _ => ?_
    refine .bind (aside_of_plumbing (plumbing_engine _)) fun ok => ?_
    split
    · exact .done
    · exact aside_of_silent silent_scheduleRecovery

omit [DecidableEq δ] in
/-- **A refresh answers nobody.** -/
theorem aside_settle {result : StageResult} (hre : job.refresh ≠ 0) :
    Mute job l (settle h env job result) := by
  refine .bind (aside_of_plumbing (plumbing_engine _)) fun current => ?_
  split
  · exact aside_complete hre
  split
  · exact aside_complete hre
  · exact aside_complete hre
  refine .bind (aside_of_local (.observe _)) fun busy => ?_
  split
  · exact aside_complete hre
  refine .bind (aside_of_local (local_reserve _)) fun e => ?_
  cases e with
  | some e => exact aside_complete hre
  | none =>
    refine .bind (aside_of_local local_ask) fun a => ?_
    refine .bind (aside_of_local (.observe _)) fun waiting => ?_
    split
    · exact .bind (aside_complete hre) fun _ => aside_of_local local_discard
    refine .bind (aside_of_plumbing (plumbing_callApply _)) fun r => ?_
    dsimp only
    split
    · exact aside_handleCommitted hre
    · exact aside_handleUncommitted hre

theorem aside_handleResult {wk : Worker} {conds : Conditions} (hre : wk.job.refresh ≠ 0) :
    Mute wk.job l (handleResult h env wk conds) := by
  refine .bind (R := fun _ => Aside wk.job l)
    (.change fun s hs hP => ⟨hs, hP.log, hP.slot⟩) fun _ => ?_
  refine .bind (aside_of_plumbing (plumbing_note rfl)) fun _ => ?_
  refine .bind (R := fun _ => Aside wk.job l)
    (.change fun s hs hP => ⟨hs, hP.log, fun k hk => ?_⟩) fun _ => ?_
  · obtain ⟨k', hk', rfl⟩ := Option.map_eq_some_iff.mp hk
    rw [if_neg fun hma => hre hma.1]
    exact hP.slot k' hk'
  · exact .bind (aside_of_silent (silent_receive _ _)) fun _ => aside_settle hre

/-! ## The main result -/

end Engine

/-! ## A request that is answered -/

/-- The sample service is asked for a reload. -/
def serviceAsked : Service Nat :=
  (turn serviceHost serviceSetting (.request "") serviceStarted [{}, {}, {}]).1

def askedWorker : Worker := { epoch := 2, task := .reload "", committed := some 10, request := some 0 }

/-- The worker's candidate is applied. -/
def serviceAnswered : Service Nat :=
  (turn serviceHost serviceSetting (.delivered askedWorker (serviceConditions 120)) serviceAsked
    [{}, {}, {}, { before := [(.stage 120, List.replicate 5 .ok)], answers := applyAnswers 8 26 [7] 60 },
      {}, { cache := serviceCache, now := 120 }, {}, {}, {}]).1

def lastReply {ω : Type} : List (Entry ω) → Option (Nat × ReloadResult)
  | .replied q r :: _ => some (q, r)
  | _ => none

theorem Truthful.last {ω δ : Type} [DecidableEq δ] {h : Host ω} {env : Setting δ}
    {log : List (Entry ω)} {q : Nat} {r : ReloadResult} (ht : Truthful h env log)
    (hl : lastReply log = some (q, r)) (hr : r.outcome = .applied) :
    ∃ earlier, log = .replied q r :: earlier ∧ Justified h env q r earlier := by
  unfold lastReply at hl
  split at hl
  case h_1 q' r' earlier =>
    obtain ⟨rfl, rfl⟩ := Prod.mk.inj (Option.some.inj hl)
    exact ⟨earlier, rfl, ht.2 _ _ rfl hr⟩
  case h_2 => cases hl

end Perimeterd.App
