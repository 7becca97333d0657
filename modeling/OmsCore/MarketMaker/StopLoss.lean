import OmsCore.MarketMaker.Basic
import Mathlib.Tactic.NormNum
import Mathlib.Tactic.Linarith
import Mathlib.Algebra.Order.Field.Basic

/-! # The stop-loss test

    `checkQuote` and `shouldStop` share one test:
    `unrealized_pnl / (position_value + 1e-10) < -stop_loss_percent`. For a snapshot that
    `updatePosition` built for a long position with a known mid price, the position value is
    positive and the test fires exactly when the unrealised PnL is below
    `-stop_loss_percent · (position_value + 1e-10)` (`long_stop_loss_threshold`). For a
    short the position value is negative, the division flips the sign, and a losing short
    never fires; the `1e-10` also shifts the threshold of a long, and a negative
    `stop_loss_percent` fires at zero PnL (`stop_loss_misses`).
-/

namespace OmsCore

namespace MarketMaker

open MarketMakerEngine RiskChecker

/-! ## One test -/

/-- Over a positive denominator the test compares the PnL with the scaled threshold. -/
theorem stopLossFires_of_pos (config : MarketMakerConfig) {inventory : InventorySnapshot}
    (h : 0 < inventory.positionValue + stopLossEpsilon) :
    stopLossFires config inventory = some (decide (inventory.unrealizedPnl <
      -config.stopLossPercent * (inventory.positionValue + stopLossEpsilon))) := by
  rw [stopLossFires, divide?_of_ne_zero _ h.ne', Option.map_some']
  simp only [div_lt_iff₀ h]

/-- When the test fires, `shouldStop` stops and `checkQuote` rejects, whatever else holds. -/
theorem fires_stop_reject {rc : RiskChecker} {inventory : InventorySnapshot}
    (h : stopLossFires rc.config inventory = some true) (quote : MMQuote) (dailyPnl : ℚ) :
    rc.shouldStop inventory dailyPnl = some true ∧ rc.checkQuote quote inventory = some false := by
  constructor
  · unfold shouldStop
    split_ifs
    · rfl
    · rw [h]; rfl
  · unfold checkQuote
    dsimp only
    split_ifs <;> simp only [h, Option.map_some', Bool.not_true]

/-! ## Long positions -/

/-- For a long position with a positive average price and a known mid price: the test
    fires exactly below `-stop_loss_percent · (position_value + 1e-10)`, and then
    `shouldStop` stops and `checkQuote` rejects; with a non-negative `stop_loss_percent`
    it never fires on a PnL of at least zero. -/
theorem long_stop_loss_threshold (e : MarketMakerEngine) (rc : RiskChecker)
    {position avgPrice : ℚ} (now : Nat) (hpos : 0 < position) (havg : 0 < avgPrice)
    (hmid : 0 < e.marketState.midPrice) :
    let inv := (e.updatePosition position avgPrice now).inventoryState
    inv.unrealizedPnl = position * (e.marketState.midPrice - avgPrice) ∧
      inv.positionValue = position * avgPrice ∧
      stopLossFires rc.config inv = some (decide (inv.unrealizedPnl <
        -rc.config.stopLossPercent * (inv.positionValue + stopLossEpsilon))) ∧
      (inv.unrealizedPnl < -rc.config.stopLossPercent * (inv.positionValue + stopLossEpsilon) →
        ∀ quote dailyPnl, rc.shouldStop inv dailyPnl = some true ∧
          rc.checkQuote quote inv = some false) ∧
      (0 ≤ rc.config.stopLossPercent → 0 ≤ inv.unrealizedPnl →
        stopLossFires rc.config inv = some false) := by
  intro inv
  have hu : inv.unrealizedPnl = position * (e.marketState.midPrice - avgPrice) := if_pos hmid
  have hv : inv.positionValue = position * avgPrice := rfl
  have hden : 0 < inv.positionValue + stopLossEpsilon := by
    rw [hv]; exact add_pos (mul_pos hpos havg) (by norm_num [stopLossEpsilon])
  have hfires := stopLossFires_of_pos rc.config hden
  refine ⟨hu, hv, hfires, fun hlt quote dailyPnl => fires_stop_reject ?_ quote dailyPnl,
    fun hsl hnn => ?_⟩
  · rw [hfires, decide_eq_true hlt]
  · rw [hfires, decide_eq_false (not_lt.2 ?_)]
    nlinarith

/-- The engine after one market update at `bid = ask = mid`, from the default
    configuration. -/
def quotedAt (mid : ℚ) : MarketMakerEngine :=
  (MarketMakerEngine.new .default).updateMarketData ⟨id, id⟩ mid 1 mid 1 mid 0

/-- From the default configuration, a long of `1` bought at `100` with the mid at `90`: the
    PnL `-10` is below `-2%` of the value, so the test fires, `shouldStop` stops and
    `checkQuote` rejects. -/
theorem long_stop_loss_threshold_default :
    (0 : ℚ) < 1 ∧ (0 : ℚ) < 100 ∧ 0 < (quotedAt 90).marketState.midPrice ∧
      stopLossFires MarketMakerConfig.default ((quotedAt 90).updatePosition 1 100 0).inventoryState =
        some true ∧
      ∀ quote dailyPnl, (RiskChecker.new .default).shouldStop
          ((quotedAt 90).updatePosition 1 100 0).inventoryState dailyPnl = some true ∧
        (RiskChecker.new .default).checkQuote quote
          ((quotedAt 90).updatePosition 1 100 0).inventoryState = some false := by
  have hmid : 0 < (quotedAt 90).marketState.midPrice := by
    simp only [quotedAt, updateMarketData]; norm_num
  obtain ⟨hu, hv, hfires, hstop, -⟩ := long_stop_loss_threshold (quotedAt 90)
    (RiskChecker.new .default) 0 (by norm_num : (0 : ℚ) < 1) (by norm_num : (0 : ℚ) < 100) hmid
  have hlt : ((quotedAt 90).updatePosition 1 100 0).inventoryState.unrealizedPnl <
      -(RiskChecker.new .default).config.stopLossPercent *
        (((quotedAt 90).updatePosition 1 100 0).inventoryState.positionValue + stopLossEpsilon) := by
    rw [hu, hv]
    simp only [quotedAt, updateMarketData, RiskChecker.new, MarketMakerConfig.default, stopLossEpsilon]
    norm_num
  exact ⟨by norm_num, by norm_num, hmid, hfires.trans (by rw [decide_eq_true hlt]), hstop hlt⟩

/-! ## Where the stated threshold fails -/

/-- Three snapshots from the default configuration, average price `100`. A losing short
    (`-1` at mid `110`, PnL `-10` below `-2%` of `|value|`) does not fire. A long at mid
    `98 - 10⁻¹³` has PnL below `-2%` of its value but above the shifted threshold, and
    does not fire. With `stop_loss_percent = -2%` a long at zero PnL fires. -/
theorem stop_loss_misses :
    let short := ((quotedAt 110).updatePosition (-1) 100 0).inventoryState
    let long := ((quotedAt (98 - 1 / 10 ^ 13)).updatePosition 1 100 0).inventoryState
    let flat := ((quotedAt 100).updatePosition 1 100 0).inventoryState
    short.unrealizedPnl < -(1 / 50) * |short.positionValue| ∧
      stopLossFires .default short = some false ∧
      long.unrealizedPnl < -(1 / 50) * |long.positionValue| ∧
      stopLossFires .default long = some false ∧
      0 ≤ flat.unrealizedPnl ∧
      stopLossFires { MarketMakerConfig.default with stopLossPercent := -(1 / 50) } flat =
        some true := by
  simp only [quotedAt, updatePosition, updateMarketData, stopLossFires, divide?,
    stopLossEpsilon, MarketMakerConfig.default]
  norm_num

end MarketMaker

end OmsCore
