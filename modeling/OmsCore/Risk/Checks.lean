import OmsCore.Risk.Engine
import Mathlib.Algebra.Order.Field.Rat
import Mathlib.Tactic.Ring

/-! # The check statistics over a run

    `checkOrder` counts a check in `total_checks_` and adds its latency to
    `total_latency_ns_` only when the engine runs: on a stopped engine it returns `false`
    before the counters. No other operation touches them. So over any run of calls from a
    fresh engine the two counters hold the number and the total latency of the checks made
    while the engine ran, modulo `2^64`, and while neither wraps `getAverageLatencyUs` is
    their mean latency in microseconds (`check_statistics`).
-/

namespace OmsCore

namespace Risk

/-- A call of the risk engine's API; a check carries the latency it measured. -/
inductive RiskCall where
  | checkOrder (order : Order) (latencyNs : Nat)
  | updatePosition (symbol : String) (quantity price : ℚ)
  | updateOrderCount (delta : Int)
  | resetDailyPnL
  | start
  | stop

namespace RiskEngine

/-- One call. -/
def call (re : RiskEngine) : RiskCall → RiskEngine
  | .checkOrder order latencyNs => (re.checkOrder order latencyNs).2
  | .updatePosition symbol quantity price => re.updatePosition symbol quantity price
  | .updateOrderCount delta => re.updateOrderCount delta
  | .resetDailyPnL => re.resetDailyPnL
  | .start => re.start
  | .stop => re.stop

/-- The calls in turn. -/
def runCalls (re : RiskEngine) (calls : List RiskCall) : RiskEngine := calls.foldl call re

end RiskEngine

/-- The latencies of the checks among `calls` made while the engine runs, `running` being
    its state before the first call. -/
def timedLatencies : Bool → List RiskCall → List Nat
  | _, [] => []
  | running, .checkOrder _ latencyNs :: calls =>
    (if running then [latencyNs] else []) ++ timedLatencies running calls
  | _, .start :: calls => timedLatencies true calls
  | _, .stop :: calls => timedLatencies false calls
  | running, _ :: calls => timedLatencies running calls

namespace RiskEngine

/-- A check on a running engine counts once, with its latency. -/
theorem call_checkOrder_running {re : RiskEngine} (h : re.running = true) (order : Order)
    (latencyNs : Nat) : re.call (.checkOrder order latencyNs) =
      { re with
        totalChecks := sizeAdd re.totalChecks 1
        totalLatencyNs := sizeAdd re.totalLatencyNs latencyNs } := by
  simp [call, checkOrder, h]

/-- A check on a stopped engine changes nothing. -/
theorem call_checkOrder_stopped {re : RiskEngine} (h : re.running = false) (order : Order)
    (latencyNs : Nat) : re.call (.checkOrder order latencyNs) = re := by
  simp [call, checkOrder, h]

/-- Over any run, the counters grow by the number and the total latency of the checks made
    while the engine runs, modulo `2^64`. -/
theorem runCalls_counters : ∀ (calls : List RiskCall) (re : RiskEngine),
    re.totalChecks < wordSize → re.totalLatencyNs < wordSize →
    (re.runCalls calls).totalChecks =
        (re.totalChecks + (timedLatencies re.running calls).length) % wordSize ∧
      (re.runCalls calls).totalLatencyNs =
        (re.totalLatencyNs + (timedLatencies re.running calls).sum) % wordSize
  | [], re, hc, hl => by simp [runCalls, timedLatencies, Nat.mod_eq_of_lt hc, Nat.mod_eq_of_lt hl]
  | .checkOrder order l :: calls, re, hc, hl => by
    show ((re.call _).runCalls calls).totalChecks = _ ∧
      ((re.call _).runCalls calls).totalLatencyNs = _
    cases hr : re.running
    · rw [call_checkOrder_stopped hr]
      simpa [timedLatencies, hr] using runCalls_counters calls re hc hl
    · have ih := runCalls_counters calls
        { re with totalChecks := sizeAdd re.totalChecks 1
                  totalLatencyNs := sizeAdd re.totalLatencyNs l }
        (Nat.mod_lt _ (by decide)) (Nat.mod_lt _ (by decide))
      rw [call_checkOrder_running hr, ih.1, ih.2]
      simp only [timedLatencies, hr, if_true, List.singleton_append, List.length_cons,
        List.sum_cons, sizeAdd, Nat.mod_add_mod]
      constructor <;> ring_nf
  | .updatePosition _ _ _ :: calls, re, hc, hl => runCalls_counters calls _ hc hl
  | .updateOrderCount _ :: calls, re, hc, hl => runCalls_counters calls _ hc hl
  | .resetDailyPnL :: calls, re, hc, hl => runCalls_counters calls _ hc hl
  | .start :: calls, re, hc, hl => runCalls_counters calls re.start hc hl
  | .stop :: calls, re, hc, hl => runCalls_counters calls re.stop hc hl

/-- From a fresh engine, after any calls: `getTotalChecks` and `total_latency_ns_` are the
    number and the total latency of the checks made while the engine ran, modulo `2^64`, and
    while neither wraps, `getAverageLatencyUs` is their mean latency in microseconds, or `0`
    before the first such check. -/
theorem check_statistics (config : RiskConfig) (calls : List RiskCall) :
    let re := (new config).runCalls calls
    let timed := timedLatencies false calls
    re.getTotalChecks = timed.length % wordSize ∧ re.totalLatencyNs = timed.sum % wordSize ∧
      (timed.length < wordSize → timed.sum < wordSize →
        re.getAverageLatencyUs = if timed = [] then 0 else (timed.sum : ℚ) / timed.length / 1000) := by
  intro re timed
  obtain ⟨hc, hl⟩ := runCalls_counters calls (new config) (show 0 < wordSize by decide)
    (show 0 < wordSize by decide)
  simp only [new, Nat.zero_add] at hc hl
  refine ⟨hc, hl, fun hlen hsum => ?_⟩
  rw [getAverageLatencyUs, show re.totalChecks = timed.length from hc.trans (Nat.mod_eq_of_lt hlen),
    show re.totalLatencyNs = timed.sum from hl.trans (Nat.mod_eq_of_lt hsum)]
  simp only [List.length_eq_zero]

/-- A check while stopped, two while running, and one more after `stop`. -/
def stopStartChecks : List RiskCall :=
  [.checkOrder Order.blank 7, .start, .checkOrder Order.blank 10, .checkOrder Order.blank 20,
    .stop, .checkOrder Order.blank 5]

/-- Only the two checks made while running are timed: the mean is `15` ns, `0.015` µs. -/
theorem check_statistics_stopStart :
    (timedLatencies false stopStartChecks).length < wordSize ∧
      (timedLatencies false stopStartChecks).sum < wordSize ∧
      ((new .default).runCalls stopStartChecks).getAverageLatencyUs = 15 / 1000 := by
  have hlen : (timedLatencies false stopStartChecks).length < wordSize := by decide
  have hsum : (timedLatencies false stopStartChecks).sum < wordSize := by decide
  refine ⟨hlen, hsum, ?_⟩
  rw [(check_statistics .default stopStartChecks).2.2 hlen hsum]
  have htimed : timedLatencies false stopStartChecks = [10, 20] := rfl
  rw [htimed, if_neg (List.cons_ne_nil _ _)]
  norm_num

end RiskEngine

end Risk

end OmsCore
