import Perimeterd.App.Sources
import Perimeterd.App.World

/-!
# Staging

`NewCandidate`, `stageSource` and `stageCandidate`: what a staging worker makes of the configuration
it reads or was given and of the sources it resolves. A worker holds what it was started with, so its
result does not depend on what the service does meanwhile. What it meets is a `Conditions`.
-/

namespace Perimeterd.App

open Lib State
open Policy (Selector compile requiredSelectors)

/-- What staging takes from elsewhere: the texts of the source package, the digest of a prefix set,
`config.Parse`, `firewall.ValidateConfig`, SHA-256 in hexadecimal, and the path of the
configuration. -/
structure Setting (δ : Type) where
  texts : Source.Texts
  fingerprint : Family → List Prefix → δ
  parse : List UInt8 → Except String Config
  validateConfig : Config → Except String Unit
  sha256 : List UInt8 → String
  configPath : String

/-- What one worker meets: the file it reads, the checkpoint after it, the upstream identities, the
cache and the surroundings of the resolution, and the end of its context. -/
structure Conditions where
  read : Except String (List UInt8)
  checkpoint : Option String := none
  session : Except String Source.Session := .ok none
  cache : Source.Cache
  surroundings : Source.Surroundings
  interrupted : Option String := none

/-- Why a candidate was refused: `errConfigMismatch`, or any other error. -/
inductive Refusal where
  | mismatch
  | failed (text : String)
deriving DecidableEq

def Refusal.text : Refusal → String
  | .mismatch => "configuration SHA-256 does not match expected digest"
  | .failed text => text

/-- `stageResult` with the session of its candidate. -/
structure StageResult where
  candidate : Candidate
  session : Source.Session := none
  err : Option Refusal := none
  refreshErr : Option String := none
  attempted : List Selector := []
  digest : String := ""

/-- A candidate of which only the admission is known. -/
def Job.candidate (j : Job) : Candidate where
  epoch := j.epoch
  refresh := j.refresh
  path := ""
  cfg := {}
  model := ⟨[]⟩

section Workers

variable {δ : Type} [DecidableEq δ] (env : Setting δ)

def newCandidate (epoch : Nat) (cfg : Config) (snapshot : Source.Snapshot) :
    Except String Candidate := do
  Source.validateSnapshot env.texts cfg snapshot
  env.validateConfig cfg
  let model ← compile env.fingerprint cfg snapshot.policy
  return { epoch := epoch, path := env.configPath, cfg := cfg, model := model
           manifest := snapshot.manifest }

def stageSource (conditions : Conditions) (job : Job) (cfg : Config) (committed : Option Manifest)
    (session : Source.Session) : StageResult :=
  let resolver : Source.Resolver δ :=
    { texts := env.texts, cache := conditions.cache, session := session
      fingerprint := env.fingerprint }
  let (resolved, err) := Source.resolve resolver conditions.surroundings cfg committed
    (job.refresh = 0)
  let result : StageResult :=
    { candidate := job.candidate, session := session, attempted := resolved.attempted }
  match err with
  | some e => { result with err := some (.failed ("resolve source snapshot: " ++ e)) }
  | none =>
      match newCandidate env job.epoch cfg resolved.snapshot with
      | .error e => { result with err := some (.failed ("compile configuration: " ++ e)) }
      | .ok candidate =>
          { result with
            candidate := { candidate with refresh := job.refresh }
            refreshErr := resolved.refreshError
            err := conditions.interrupted.map .failed }

def stageCandidate (conditions : Conditions) (epoch : Nat) (committed : Option Manifest)
    (expected : String) : StageResult :=
  let result : StageResult := { candidate := (Job.mk epoch 0).candidate }
  match conditions.read with
  | .error e => { result with err := some (.failed ("load configuration: " ++ e)) }
  | .ok data =>
      let result := { result with digest := env.sha256 data }
      match conditions.checkpoint with
      | some e => { result with err := some (.failed e) }
      | none =>
          if expected ≠ "" ∧ expected ≠ result.digest then { result with err := some .mismatch }
          else
            match env.parse data with
            | .error _ =>
                { result with
                  err := some (.failed ("load configuration: invalid YAML or configuration " ++
                    "values; run perimeterd validate to diagnose locally")) }
            | .ok cfg =>
                match env.validateConfig cfg, conditions.session with
                | .error e, _ => { result with err := some (.failed ("runtime configuration: " ++ e)) }
                | .ok (), .error _ =>
                    { result with
                      err := some (.failed ("load upstream identities: credentials or identity " ++
                        "configuration unavailable; check referenced credential files")) }
                | .ok (), .ok session =>
                    { stageSource env conditions ⟨epoch, 0⟩ cfg committed session with
                      digest := result.digest }

/-- What a worker was started for. -/
inductive Task where
  | reload (expected : String)
  | refresh (sequence : Nat) (cfg : Config) (session : Source.Session)
deriving DecidableEq

/-- A staging worker. The request a reload was admitted for is recorded beside it; the source finds
it again by the epoch. -/
structure Worker where
  epoch : Nat
  task : Task
  committed : Option Manifest
  request : Option Nat := none
deriving DecidableEq

def Worker.job (w : Worker) : Job :=
  match w.task with
  | .reload _ => ⟨w.epoch, 0⟩
  | .refresh sequence _ _ => ⟨w.epoch, sequence⟩

theorem Worker.job_epoch (w : Worker) : w.job.epoch = w.epoch := by
  rw [Worker.job]
  split <;> rfl

def Worker.result (w : Worker) (conditions : Conditions) : StageResult :=
  match w.task with
  | .reload expected => stageCandidate env conditions w.epoch w.committed expected
  | .refresh sequence cfg session =>
      stageSource env conditions ⟨w.epoch, sequence⟩ cfg w.committed session

end Workers

/-! ## Results -/

section Results

variable {δ : Type} [DecidableEq δ] {env : Setting δ}

theorem newCandidate_eq_ok {ep : Nat} {cfg : Config} {snap : Source.Snapshot}
    {c : Candidate} (h : newCandidate env ep cfg snap = .ok c) : c.epoch = ep ∧ c.cfg = cfg := by
  obtain ⟨⟨⟩, -, h⟩ := bind_eq_ok.mp h
  obtain ⟨⟨⟩, -, h⟩ := bind_eq_ok.mp h
  obtain ⟨model, -, h⟩ := bind_eq_ok.mp h
  rw [← pure_eq_ok.mp h]
  exact ⟨rfl, rfl⟩

/-- **A source result** is of the job it was staged for, and of its configuration. -/
theorem stageSource_spec (env : Setting δ) (conds : Conditions) (job : Job) (cfg : Config)
    (comm : Option Manifest) (ses : Source.Session) :
    (stageSource env conds job cfg comm ses).candidate.epoch = job.epoch ∧
      (stageSource env conds job cfg comm ses).candidate.refresh = job.refresh ∧
      ((stageSource env conds job cfg comm ses).err = none →
        (stageSource env conds job cfg comm ses).candidate.cfg = cfg) := by
  rw [stageSource]
  split
  split
  · exact ⟨rfl, rfl, nofun⟩
  · split
    · exact ⟨rfl, rfl, nofun⟩
    · rename_i candidate hc
      obtain ⟨hep, hcf⟩ := newCandidate_eq_ok hc
      exact ⟨hep, rfl, fun _ => hcf⟩

/-- **A reload result** is of the configuration its digest is the digest of. -/
theorem stageCandidate_spec (env : Setting δ) (conds : Conditions) (ep : Nat) (comm : Option Manifest)
    (exp : String) :
    (stageCandidate env conds ep comm exp).candidate.epoch = ep ∧
      (stageCandidate env conds ep comm exp).candidate.refresh = 0 ∧
      ((stageCandidate env conds ep comm exp).err = none →
        ∃ data, conds.read = .ok data ∧
          env.parse data = .ok (stageCandidate env conds ep comm exp).candidate.cfg ∧
          (stageCandidate env conds ep comm exp).digest = env.sha256 data) := by
  rw [stageCandidate]
  split
  · exact ⟨rfl, rfl, nofun⟩
  rename_i data hread
  simp only []
  split
  · exact ⟨rfl, rfl, nofun⟩
  split
  · exact ⟨rfl, rfl, nofun⟩
  split
  · exact ⟨rfl, rfl, nofun⟩
  rename_i cfg hp
  split
  · exact ⟨rfl, rfl, nofun⟩
  · exact ⟨rfl, rfl, nofun⟩
  · rename_i ses _ _
    obtain ⟨hep, hre, hc⟩ := stageSource_spec env conds ⟨ep, 0⟩ cfg comm ses
    exact ⟨hep, hre, fun her => ⟨data, hread, by rw [hp, hc her], rfl⟩⟩

theorem Worker.result_job (w : Worker) (env : Setting δ) (conds : Conditions) :
    (w.result env conds).candidate.epoch = w.job.epoch ∧
      (w.result env conds).candidate.refresh = w.job.refresh := by
  rw [Worker.result, Worker.job]
  cases w.task with
  | reload exp =>
    obtain ⟨hep, hre, -⟩ := stageCandidate_spec env conds w.epoch w.committed exp
    exact ⟨hep, hre⟩
  | refresh seq cfg ses =>
    obtain ⟨hep, hre, -⟩ := stageSource_spec env conds ⟨w.epoch, seq⟩ cfg w.committed ses
    exact ⟨hep, hre⟩

end Results

end Perimeterd.App
