import Hop.Node.Action

/-!
# Health checks and the backoff of restarts

`agent/src/health.rs`: functions of values. The probe itself is the executor's; its outcome is a
value here.
-/

namespace Hop.Node

open Hop.Types (CheckType HealthCheck Map Task)

/-- The state of the health of a task. -/
structure Check where
  /-- Failed checks in a row. -/
  failCount : ℕ := 0
  /-- When the last check was. -/
  lastCheck : Nanos := 0
  /-- Whether `started` was reported after the first check that passed. -/
  notifiedHealthy : Bool := false
deriving DecidableEq, Repr

/-- What a check means after the threshold. -/
inductive Verdict
  /-- Healthy, or still below the threshold; `passed` if the check really passed. -/
  | healthy (passed : Bool)
  | unhealthy
deriving DecidableEq, Repr

/-- The port with a name (empty is "http"). -/
def namedPort (ports : Map ℕ) (name : String) : Option ℕ :=
  ports.get? (if name = "" then "http" else name)

/-- The probe of a task; `none` if the port it names does not exist, which is a failed check. -/
def probeFor (task : Task) (hc : HealthCheck) (defaultTimeout : Nanos) : Option Probe :=
  let timeout := if 0 < hc.timeout then hc.timeout else defaultTimeout
  match hc.kind.getD .http with
  | .file => some (.file hc.path)
  | .tcp => (namedPort task.ports hc.port).map fun port => .tcp port timeout
  | .http => (namedPort task.ports hc.port).map fun port => .http port hc.path timeout

/-- Whether an outcome is healthy, given the last check. -/
def isHealthy (outcome : Outcome) (check : Check) : Bool :=
  match outcome with
  | .http (some status) => decide (200 ≤ status ∧ status < 400)
  | .http none => false
  | .tcp connected => connected
  | .file none => false
  -- The first check: to exist is healthy. After that it must have changed.
  | .file (some mtime) => decide (check.lastCheck = 0 ∨ check.lastCheck < mtime)

/-- Apply the threshold: that many failed checks in a row make a task unhealthy. -/
def Check.apply (check : Check) (healthy : Bool) (now : Nanos) (threshold : ℤ) :
    Verdict × Check :=
  let check := { check with lastCheck := now }
  if healthy then (.healthy true, { check with failCount := 0 })
  else
    let check := { check with failCount := satAdd u32Max check.failCount 1 }
    let threshold := if 0 < threshold ∧ threshold ≤ u32Max then threshold.toNat
      else defaultFailureThreshold
    if check.failCount < threshold then (.healthy false, check) else (.unhealthy, check)

/-- The wait before restart `count`, with jitter from the upper half: 1 s, 2 s, 4 s, 8 s, 16 s,
then 30 s. -/
def restartDelay (count : ℤ) (rand : BitVec 64) : Nanos :=
  if count ≤ 0 then 0
  else
    let base := if count ≤ 5 then second * 2 ^ (count - 1).toNat else maxRestartDelay
    let half := base / 2
    let delay := satAdd u64Max half (rand.toNat % satAdd u64Max half 1)
    max 1 (min delay maxRestartDelay)

end Hop.Node
