import OmsCore.MarketMaker.Basic
import Mathlib.Algebra.Order.Field.Basic
import Mathlib.Tactic.GCongr
import Mathlib.Tactic.Linarith
import Mathlib.Tactic.Positivity

/-! # Spread as a function of market conditions

    `SpreadCalculator` of `market_maker.h` / `market_maker.cpp`, which no other class
    calls, scales the base spread by a volatility, an inventory and a book-depth
    adjustment and clamps the product to `[min_spread_bps, max_spread_bps] / 10000`;
    `getBidAskSpreads` splits a spread into bid and ask spreads skewed by the inventory.
    The engine's own `calculateSpread` scales the base spread by its volatility factor
    and its inventory skew and clamps the same way.

    Both clamp a product of non-negative factors, so with a non-negative base spread and
    volatility factor each is monotone in its conditions, as the comments of the source
    intend: `SpreadCalculator::calculate` widens with volatility, with the size of the
    inventory on either side and with a thinner book (`calculate_monotone`), and
    `calculateSpread` with volatility and with the size of the position
    (`calculateSpread_monotone`).
-/

namespace OmsCore

namespace MarketMaker

/-- `SpreadCalculator(config)`: it keeps a reference to the configuration. -/
structure SpreadCalculator where
  config : MarketMakerConfig

namespace SpreadCalculator

/-- `volatilityAdjustment(volatility)`. -/
def volatilityAdjustment (sc : SpreadCalculator) (volatility : ℚ) : ℚ :=
  1 + volatility * sc.config.volatilityFactor

/-- `inventoryAdjustment(inventory_ratio)`, which reads no configuration:
    `std::pow(std::abs(r), 2)` is the square. -/
def inventoryAdjustment (inventoryRatio : ℚ) : ℚ := 1 + |inventoryRatio| ^ 2 * (1 / 2)

/-- `depthAdjustment(book_depth)`, which reads no configuration. -/
def depthAdjustment (bookDepth : ℚ) : ℚ :=
  if bookDepth < 10 then 6 / 5 else if bookDepth < 50 then 11 / 10 else 1

/-- `calculate(volatility, inventory_ratio, book_depth)`. -/
def calculate (sc : SpreadCalculator) (volatility inventoryRatio bookDepth : ℚ) : ℚ :=
  let baseSpread := sc.config.baseSpreadBps / 10000
  let spread := baseSpread * sc.volatilityAdjustment volatility *
    inventoryAdjustment inventoryRatio * depthAdjustment bookDepth
  max (sc.config.minSpreadBps / 10000) (min (sc.config.maxSpreadBps / 10000) spread)

/-- `getBidAskSpreads(base_spread, inventory_ratio, bid_spread, ask_spread)`: the two
    out-parameters, bid first. -/
def getBidAskSpreads (sc : SpreadCalculator) (baseSpread inventoryRatio : ℚ) : ℚ × ℚ :=
  let skewFactor := sc.config.inventorySkew
  if inventoryRatio > 0 then
    (baseSpread * (1 + skewFactor * |inventoryRatio|),
      baseSpread * (1 - skewFactor * |inventoryRatio|))
  else if inventoryRatio < 0 then
    (baseSpread * (1 - skewFactor * |inventoryRatio|),
      baseSpread * (1 + skewFactor * |inventoryRatio|))
  else (baseSpread, baseSpread)

/-! ## The adjustments -/

theorem volatilityAdjustment_mono (sc : SpreadCalculator) (hvf : 0 ≤ sc.config.volatilityFactor)
    {v v' : ℚ} (h : v ≤ v') : sc.volatilityAdjustment v ≤ sc.volatilityAdjustment v' := by
  unfold volatilityAdjustment
  gcongr

theorem one_le_volatilityAdjustment (sc : SpreadCalculator)
    (hvf : 0 ≤ sc.config.volatilityFactor) {v : ℚ} (hv : 0 ≤ v) :
    1 ≤ sc.volatilityAdjustment v :=
  le_add_of_nonneg_right (mul_nonneg hv hvf)

theorem inventoryAdjustment_mono {r r' : ℚ} (h : |r| ≤ |r'|) :
    inventoryAdjustment r ≤ inventoryAdjustment r' := by
  unfold inventoryAdjustment
  gcongr

theorem inventoryAdjustment_pos (r : ℚ) : 0 < inventoryAdjustment r := by
  unfold inventoryAdjustment
  positivity

/-- A thinner book never narrows the spread. -/
theorem depthAdjustment_anti {d d' : ℚ} (h : d' ≤ d) : depthAdjustment d ≤ depthAdjustment d' := by
  unfold depthAdjustment
  split_ifs <;> linarith

theorem depthAdjustment_pos (d : ℚ) : 0 < depthAdjustment d := by
  unfold depthAdjustment
  split_ifs <;> norm_num

end SpreadCalculator

/-! ## Monotonicity -/

/-- The clamp of both calculators, `max lo (min hi (base · x))`, is monotone in `x` for a
    non-negative base. -/
theorem clamp_mul_mono {lo hi base x x' : ℚ} (hbase : 0 ≤ base) (h : x ≤ x') :
    max lo (min hi (base * x)) ≤ max lo (min hi (base * x')) :=
  max_le_max_left _ (min_le_min_left _ (mul_le_mul_of_nonneg_left h hbase))

open SpreadCalculator in
/-- With a non-negative base spread and volatility factor, `calculate` never narrows as the
    volatility grows from a non-negative value, as the inventory ratio grows in absolute
    value, or as the book thins. -/
theorem calculate_monotone (sc : SpreadCalculator) (hbase : 0 ≤ sc.config.baseSpreadBps)
    (hvf : 0 ≤ sc.config.volatilityFactor) {v v' r r' d d' : ℚ} (hv : 0 ≤ v) (hvv : v ≤ v')
    (hr : |r| ≤ |r'|) (hd : d' ≤ d) : sc.calculate v r d ≤ sc.calculate v' r' d' := by
  have hvol := sc.volatilityAdjustment_mono hvf hvv
  have hadj := mul_le_mul (inventoryAdjustment_mono hr) (depthAdjustment_anti hd)
    (depthAdjustment_pos d).le (inventoryAdjustment_pos r').le
  simp only [calculate, mul_assoc]
  refine clamp_mul_mono (div_nonneg hbase (by norm_num)) (mul_le_mul hvol hadj ?_ ?_)
  · exact mul_nonneg (inventoryAdjustment_pos r).le (depthAdjustment_pos d).le
  · exact zero_le_one.trans ((sc.one_le_volatilityAdjustment hvf hv).trans hvol)

/-- From the default configuration: calm, flat and deep against volatile, half-loaded and
    thin. -/
theorem calculate_monotone_default :
    let sc : SpreadCalculator := ⟨.default⟩
    0 ≤ sc.config.baseSpreadBps ∧ 0 ≤ sc.config.volatilityFactor ∧ (0 : ℚ) ≤ 0 ∧ (0 : ℚ) ≤ 1 ∧
      |(0 : ℚ)| ≤ |1 / 2| ∧ (5 : ℚ) ≤ 100 ∧ sc.calculate 0 0 100 ≤ sc.calculate 1 (1 / 2) 5 := by
  intro sc
  have hbase : 0 ≤ sc.config.baseSpreadBps := by norm_num [sc, MarketMakerConfig.default]
  have hvf : 0 ≤ sc.config.volatilityFactor := by norm_num [sc, MarketMakerConfig.default]
  have hr : |(0 : ℚ)| ≤ |1 / 2| := by norm_num
  exact ⟨hbase, hvf, le_rfl, zero_le_one, hr, by norm_num,
    calculate_monotone sc hbase hvf le_rfl zero_le_one hr (by norm_num)⟩

/-- With a non-zero `max_inventory` and a non-negative base spread, volatility factor and
    inventory skew, the engine's `calculateSpread` is defined and never narrows as the
    volatility grows from a non-negative value or as the position grows in absolute
    value. -/
theorem calculateSpread_monotone {config : MarketMakerConfig} (hmax : config.maxInventory ≠ 0)
    (hbase : 0 ≤ config.baseSpreadBps) (hvf : 0 ≤ config.volatilityFactor)
    (hskew : 0 ≤ config.inventorySkew) {market market' : MarketSnapshot}
    {inventory inventory' : InventorySnapshot} (hv : 0 ≤ market.volatility)
    (hvv : market.volatility ≤ market'.volatility)
    (hpos : |inventory.position| ≤ |inventory'.position|) :
    ∃ spread spread', calculateSpread config market inventory = some spread ∧
      calculateSpread config market' inventory' = some spread' ∧ spread ≤ spread' := by
  simp only [calculateSpread, getInventorySkew, divide?_of_ne_zero _ hmax, Option.map_some']
  refine ⟨_, _, rfl, rfl, ?_⟩
  have hratio : |inventory.position / config.maxInventory| ≤
      |inventory'.position / config.maxInventory| := by
    rw [abs_div, abs_div]
    exact div_le_div_of_nonneg_right hpos (abs_nonneg _)
  simp only [mul_assoc]
  refine clamp_mul_mono (div_nonneg hbase (by norm_num)) (mul_le_mul ?_ ?_ ?_ ?_)
  · exact add_le_add_left (mul_le_mul_of_nonneg_right hvv hvf) 1
  · exact add_le_add_left (mul_le_mul_of_nonneg_left hratio hskew) 1
  · exact add_nonneg zero_le_one (mul_nonneg hskew (abs_nonneg _))
  · exact add_nonneg zero_le_one (mul_nonneg (hv.trans hvv) hvf)

/-- From the default configuration: a calm market with no position against a volatile one
    with a position of `10`. -/
theorem calculateSpread_monotone_default :
    MarketMakerConfig.default.maxInventory ≠ 0 ∧ 0 ≤ MarketMakerConfig.default.baseSpreadBps ∧
      0 ≤ MarketMakerConfig.default.volatilityFactor ∧
      0 ≤ MarketMakerConfig.default.inventorySkew ∧ 0 ≤ MarketSnapshot.blank.volatility ∧
      MarketSnapshot.blank.volatility ≤ ({ MarketSnapshot.blank with volatility := 1 }).volatility ∧
      |InventorySnapshot.blank.position| ≤ |({ InventorySnapshot.blank with position := 10 }).position| ∧
      ∃ spread spread', calculateSpread .default .blank .blank = some spread ∧
        calculateSpread .default { MarketSnapshot.blank with volatility := 1 }
          { InventorySnapshot.blank with position := 10 } = some spread' ∧ spread ≤ spread' := by
  have hmax : MarketMakerConfig.default.maxInventory ≠ 0 := by norm_num [MarketMakerConfig.default]
  have hbase : 0 ≤ MarketMakerConfig.default.baseSpreadBps := by norm_num [MarketMakerConfig.default]
  have hvf : 0 ≤ MarketMakerConfig.default.volatilityFactor := by
    norm_num [MarketMakerConfig.default]
  have hskew : 0 ≤ MarketMakerConfig.default.inventorySkew := by
    norm_num [MarketMakerConfig.default]
  have hv : 0 ≤ MarketSnapshot.blank.volatility := le_rfl
  have hvv : MarketSnapshot.blank.volatility ≤
      ({ MarketSnapshot.blank with volatility := 1 }).volatility := zero_le_one
  have hpos : |InventorySnapshot.blank.position| ≤
      |({ InventorySnapshot.blank with position := 10 }).position| := by
    norm_num [InventorySnapshot.blank]
  exact ⟨hmax, hbase, hvf, hskew, hv, hvv, hpos,
    calculateSpread_monotone hmax hbase hvf hskew hv hvv hpos⟩

end MarketMaker

end OmsCore
