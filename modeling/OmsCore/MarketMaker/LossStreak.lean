import OmsCore.MarketMaker.StopLoss
import Mathlib.Data.List.Basic

/-! # The consecutive-loss test

    `updatePnL(pnl)` adds one to `consecutive_losses_` for a losing fill and stores zero
    for any other, and `shouldStop`, once its daily-loss and stop-loss tests have passed,
    stops when `consecutive_losses_ > 10`. From a fresh checker, over any sequence of
    fills, the counter is the length of the trailing run of losing fills as an `int`
    (`runPnL_consecutiveLosses`). So `shouldStop` stops exactly when that run, wrapped to
    32 bits, exceeds ten (`shouldStop_after_fills`), which for runs shorter than `2^31`
    means at least eleven losing fills (`lossTest_iff`): after ten losing fills in a row
    the engine keeps quoting (`ten_losses_keep_quoting`).
-/

namespace OmsCore

namespace MarketMaker

open Risk

/-! ## The trailing run of losses -/

/-- The length of the trailing run of losing fills: the fills counted back from the
    newest while their PnL is negative. -/
def trailingLosses (pnls : List ℚ) : Nat :=
  (pnls.reverse.takeWhile fun pnl => decide (pnl < 0)).length

theorem trailingLosses_append_singleton (pnls : List ℚ) (pnl : ℚ) :
    trailingLosses (pnls ++ [pnl]) = if pnl < 0 then trailingLosses pnls + 1 else 0 := by
  by_cases h : pnl < 0 <;> simp [trailingLosses, h]

theorem trailingLosses_replicate {pnl : ℚ} (h : pnl < 0) (n : Nat) :
    trailingLosses (List.replicate n pnl) = n := by
  simp [trailingLosses, List.takeWhile_replicate, h]

namespace RiskChecker

/-! ## Runs of fills -/

/-- `updatePnL` called with each fill's PnL in turn. -/
def runPnL (rc : RiskChecker) (pnls : List ℚ) : RiskChecker := pnls.foldl updatePnL rc

theorem runPnL_append_singleton (rc : RiskChecker) (pnls : List ℚ) (pnl : ℚ) :
    rc.runPnL (pnls ++ [pnl]) = (rc.runPnL pnls).updatePnL pnl :=
  List.foldl_append _ _ _ _

theorem runPnL_config (rc : RiskChecker) (pnls : List ℚ) : (rc.runPnL pnls).config = rc.config := by
  induction pnls generalizing rc with
  | nil => rfl
  | cons pnl pnls ih => exact ih (rc.updatePnL pnl)

theorem new_config (config : MarketMakerConfig) : (new config).config = config := rfl

/-- From a fresh checker, `consecutive_losses_` is the trailing run of losing fills, as
    an `int`. -/
theorem runPnL_consecutiveLosses (config : MarketMakerConfig) (pnls : List ℚ) :
    ((new config).runPnL pnls).consecutiveLosses = wrapInt32 (trailingLosses pnls) := by
  induction pnls using List.reverseRecOn with
  | nil => rfl
  | append_singleton pnls pnl ih =>
    rw [runPnL_append_singleton, trailingLosses_append_singleton]
    by_cases h : pnl < 0
    · rw [updatePnL, if_pos h, if_pos h, ih, wrapInt32_wrapInt32_add, Nat.cast_succ]
    · rw [updatePnL, if_neg h, if_neg h]
      rfl

/-! ## The test -/

/-- Once its daily-loss and stop-loss tests pass, `shouldStop` after any fills from a fresh
    checker stops exactly when the trailing run of losing fills, wrapped to an `int`,
    exceeds ten. -/
theorem shouldStop_after_fills (config : MarketMakerConfig) (pnls : List ℚ)
    {inventory : InventorySnapshot} {dailyPnl : ℚ} (hday : ¬dailyPnl < -config.maxDailyLoss)
    (hsl : stopLossFires config inventory = some false) :
    ((new config).runPnL pnls).shouldStop inventory dailyPnl =
      some (decide (10 < wrapInt32 (trailingLosses pnls))) := by
  rw [shouldStop, runPnL_config, new_config, if_neg hday, hsl, runPnL_consecutiveLosses,
    Option.map_some', Bool.false_or]

/-- Below `2^31` losing fills the wrap is the identity, and the test needs eleven. -/
theorem lossTest_iff {n : Nat} (h : n < 2 ^ 31) : 10 < wrapInt32 n ↔ 11 ≤ n := by
  rw [wrapInt32_of_lt (by omega) (by exact_mod_cast h)]
  omega

/-- From the default configuration, with no position and no daily loss: ten losing fills
    in a row do not stop the engine, the eleventh does. -/
theorem ten_losses_keep_quoting :
    trailingLosses (List.replicate 10 (-1)) = 10 ∧
      ((new .default).runPnL (List.replicate 10 (-1))).shouldStop .blank 0 = some false ∧
      ((new .default).runPnL (List.replicate 11 (-1))).shouldStop .blank 0 = some true := by
  have hday : ¬(0 : ℚ) < -MarketMakerConfig.default.maxDailyLoss := by
    simp only [MarketMakerConfig.default]; norm_num
  have hsl : stopLossFires .default .blank = some false := by
    simp only [stopLossFires, InventorySnapshot.blank, stopLossEpsilon, MarketMakerConfig.default,
      divide?]
    norm_num
  have hneg : (-1 : ℚ) < 0 := by norm_num
  refine ⟨trailingLosses_replicate hneg 10, ?_, ?_⟩
  · rw [shouldStop_after_fills _ _ hday hsl, trailingLosses_replicate hneg,
      decide_eq_false ((lossTest_iff (by norm_num)).not.2 (by norm_num))]
  · rw [shouldStop_after_fills _ _ hday hsl, trailingLosses_replicate hneg,
      decide_eq_true ((lossTest_iff (by norm_num)).2 le_rfl)]

end RiskChecker

end MarketMaker

end OmsCore
