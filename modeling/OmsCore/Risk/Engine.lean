import OmsCore.Types

/-! # Risk engine

    `RiskEngine` of `risk_engine.h`: a fixed table of `MAX_SYMBOLS` position slots
    indexed by `hashSymbol(symbol) % MAX_SYMBOLS`, the daily PnL, the open-order count and
    the check statistics. `double` values are rationals; `size_t` counters wrap at
    `2^64`; `open_orders_` is an `std::atomic<int>`, whose arithmetic wraps at `2^32`.
-/

namespace OmsCore

namespace Risk

/-! ## Data -/

/-- `RiskConfig`, the fields `checkOrder` reads. -/
structure RiskConfig where
  maxPositionValue : ℚ
  maxOrderValue : ℚ
  dailyLossLimit : ℚ
  maxOpenOrders : Int

/-- The defaults of the `RiskConfig` constructor. -/
def RiskConfig.default : RiskConfig := ⟨100000, 10000, 5000, 100⟩

/-- `PositionInfo`: one slot of the table. -/
structure PositionInfo where
  quantity : ℚ
  value : ℚ
  avgPrice : ℚ
  deriving DecidableEq, Repr

def PositionInfo.zero : PositionInfo := ⟨0, 0, 0⟩

/-- `RiskEngine::MAX_SYMBOLS`. -/
def maxSymbols : Nat := 1000

/-- `int` arithmetic of `std::atomic<int>`: two's complement, wrapping at `2^32`. -/
def wrapInt32 (x : Int) : Int := (x + 2 ^ 31) % 2 ^ 32 - 2 ^ 31

theorem wrapInt32_of_lt {x : Int} (h0 : -2 ^ 31 ≤ x) (h1 : x < 2 ^ 31) : wrapInt32 x = x := by
  unfold wrapInt32; omega

/-- Wrapping once more after an addition is wrapping the exact sum. -/
theorem wrapInt32_wrapInt32_add (a b : Int) : wrapInt32 (wrapInt32 a + b) = wrapInt32 (a + b) := by
  unfold wrapInt32; omega

/-- The state of a `RiskEngine`. Slot `i < MAX_SYMBOLS` of `positions_` is
    `positions i`. -/
structure RiskEngine where
  config : RiskConfig
  positions : Nat → PositionInfo
  dailyPnl : ℚ
  openOrders : Int
  totalChecks : Nat
  totalLatencyNs : Nat
  running : Bool

namespace RiskEngine

/-- `RiskEngine(config)`: every slot zero, no PnL, no open orders, stopped. -/
def new (config : RiskConfig) : RiskEngine :=
  ⟨config, fun _ => .zero, 0, 0, 0, 0, false⟩

def start (re : RiskEngine) : RiskEngine := { re with running := true }

def stop (re : RiskEngine) : RiskEngine := { re with running := false }

/-! ## Symbols -/

/-- A `char` of the symbol's bytes, signed as on the x86 targets the code is built for. -/
def charValue (b : UInt8) : Int := if b.toNat < 128 then b.toNat else b.toNat - 256

/-- `RiskEngine::hashSymbol`: `hash = hash * 31 + c` over the bytes, in `size_t`. -/
def hashSymbol (symbol : String) : Nat :=
  symbol.toUTF8.toList.foldl (fun hash c => ((hash * 31 + charValue c) % wordSize).toNat) 0

/-- The slot `positions_[hashSymbol(symbol) % MAX_SYMBOLS]`. -/
def slot (symbol : String) : Nat := hashSymbol symbol % maxSymbols

/-! ## Positions and PnL -/

/-- `RiskEngine::calculateRealizedPnL`: the PnL of the closed part of a position. -/
def calculateRealizedPnL (oldQuantity oldPrice newQuantity newPrice : ℚ) : ℚ :=
  let closedQuantity := min |oldQuantity| |newQuantity|
  if oldQuantity > 0 then closedQuantity * (newPrice - oldPrice)
  else closedQuantity * (oldPrice - newPrice)

/-- The slot update of `updatePosition` with the PnL it realises: quantity and value, the
    realised PnL when the trade goes against the position, and the average price. -/
def tradePosition (pos : PositionInfo) (quantity price : ℚ) : PositionInfo × ℚ :=
  let oldQuantity := pos.quantity
  let newQuantity := oldQuantity + quantity
  let realized := if oldQuantity * quantity < 0 then
      calculateRealizedPnL oldQuantity pos.avgPrice quantity price else 0
  let avgPrice := if newQuantity ≠ 0 then
      (if oldQuantity * newQuantity > 0 then
        (oldQuantity * pos.avgPrice + quantity * price) / newQuantity
      else price)
    else pos.avgPrice
  (⟨newQuantity, newQuantity * price, avgPrice⟩, realized)

/-- `RiskEngine::updatePosition`. -/
def updatePosition (re : RiskEngine) (symbol : String) (quantity price : ℚ) : RiskEngine :=
  let i := slot symbol
  let trade := tradePosition (re.positions i) quantity price
  { re with
    positions := Function.update re.positions i trade.1
    dailyPnl := re.dailyPnl + trade.2 }

/-- `RiskEngine::updateOrderCount`. -/
def updateOrderCount (re : RiskEngine) (delta : Int) : RiskEngine :=
  { re with openOrders := wrapInt32 (re.openOrders + delta) }

/-- `RiskEngine::getTotalExposure`. -/
def getTotalExposure (re : RiskEngine) : ℚ :=
  (List.range maxSymbols).foldl (fun total i => total + |(re.positions i).value|) 0

/-- `RiskEngine::resetDailyPnL`. -/
def resetDailyPnL (re : RiskEngine) : RiskEngine := { re with dailyPnl := 0 }

/-! ## Checks -/

/-- The four gates of `checkOrder`, in order. -/
def passes (re : RiskEngine) (order : Order) : Bool :=
  let orderValue := order.price * order.quantity
  let pos := re.positions (slot order.symbol)
  let newPositionValue := pos.value + (if order.side = .buy then orderValue else -orderValue)
  !decide (orderValue > re.config.maxOrderValue) &&
    !decide (|newPositionValue| > re.config.maxPositionValue) &&
    !decide (re.dailyPnl < -re.config.dailyLossLimit) &&
    !decide (re.openOrders ≥ re.config.maxOpenOrders)

/-- `RiskEngine::checkOrder`, taking `latencyNs` nanoseconds: `false` at once when
    stopped; otherwise the gates, and the statistics are counted. -/
def checkOrder (re : RiskEngine) (order : Order) (latencyNs : Nat) : Bool × RiskEngine :=
  if !re.running then (false, re)
  else (re.passes order, { re with
    totalChecks := sizeAdd re.totalChecks 1
    totalLatencyNs := sizeAdd re.totalLatencyNs latencyNs })

def getTotalChecks (re : RiskEngine) : Nat := re.totalChecks

/-- `RiskEngine::getAverageLatencyUs`. -/
def getAverageLatencyUs (re : RiskEngine) : ℚ :=
  if re.totalChecks = 0 then 0 else (re.totalLatencyNs : ℚ) / re.totalChecks / 1000

end RiskEngine

end Risk

end OmsCore
