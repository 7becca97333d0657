import OmsCore.RingBuffer.Basic
import OmsCore.Risk.Engine

/-! # The market maker

    `MarketMakerEngine` and `RiskChecker` of `market_maker.h` / `market_maker.cpp`. The
    engine keeps the latest market and inventory snapshots and a ring of the last
    `PRICE_HISTORY_SIZE` mid prices, from which `updateMarketData` recomputes the
    volatility. `generateQuotes` writes the quotes of one cycle into `current_quotes_`,
    a bid and an ask per level, then pushes them onto a `RingBuffer<MMQuote>` of
    `QUOTE_BUFFER_SIZE` slots.

    `std::log` and `std::sqrt` have no rational counterpart: the model takes them as the
    fields of `Libm`. A `double` division by zero, undefined in C++, makes the operation
    undefined (`none`). Clock readings are arguments. The `symbol` arguments of
    `updateMarketData` and `updatePosition` are not read by the code.
-/

namespace OmsCore

namespace MarketMaker

/-! ## Records -/

/-- `MMQuote`; the two name buffers hold what `strncpy` copied into them. -/
structure MMQuote where
  symbol : String
  exchange : String
  side : Side
  price : ℚ
  quantity : ℚ
  level : Int
  timestampNs : Nat

/-- `MMQuote()`. -/
def MMQuote.blank : MMQuote := ⟨"", "", .buy, 0, 0, 0, 0⟩

instance : Inhabited MMQuote := ⟨MMQuote.blank⟩

/-- `MarketSnapshot`. -/
structure MarketSnapshot where
  bidPrice : ℚ
  askPrice : ℚ
  midPrice : ℚ
  lastPrice : ℚ
  bidSize : ℚ
  askSize : ℚ
  volatility : ℚ
  timestampNs : Nat

/-- `MarketSnapshot()`. -/
def MarketSnapshot.blank : MarketSnapshot := ⟨0, 0, 0, 0, 0, 0, 0, 0⟩

/-- `InventorySnapshot`. -/
structure InventorySnapshot where
  position : ℚ
  avgPrice : ℚ
  unrealizedPnl : ℚ
  realizedPnl : ℚ
  positionValue : ℚ
  timestampNs : Nat

/-- `InventorySnapshot()`. -/
def InventorySnapshot.blank : InventorySnapshot := ⟨0, 0, 0, 0, 0, 0⟩

/-- `MarketMakerConfig`. -/
structure MarketMakerConfig where
  baseSpreadBps : ℚ
  minSpreadBps : ℚ
  maxSpreadBps : ℚ
  quoteSize : ℚ
  quoteLevels : Int
  levelSpacingBps : ℚ
  maxInventory : ℚ
  inventorySkew : ℚ
  volatilityFactor : ℚ
  maxPositionValue : ℚ
  stopLossPercent : ℚ
  maxDailyLoss : ℚ

/-- `MarketMakerConfig()`. -/
def MarketMakerConfig.default : MarketMakerConfig :=
  ⟨10, 5, 50, 1, 3, 2, 100, 1 / 2, 1, 100000, 1 / 50, 1000⟩

/-- `MarketMakerEngine::MAX_QUOTES`. -/
def maxQuotes : Nat := 20

/-- `MarketMakerEngine::QUOTE_BUFFER_SIZE`. -/
def quoteBufferSize : Nat := 1024

/-- `MarketMakerEngine::PRICE_HISTORY_SIZE`. -/
def priceHistorySize : Nat := 1000

/-- The `<cmath>` functions the engine calls. -/
structure Libm where
  log : ℚ → ℚ
  sqrt : ℚ → ℚ

/-- The state of a `MarketMakerEngine`. -/
structure MarketMakerEngine where
  config : MarketMakerConfig
  marketState : MarketSnapshot
  inventoryState : InventorySnapshot
  marketVersion : Nat
  inventoryVersion : Nat
  /-- `price_history_`, meaningful below `PRICE_HISTORY_SIZE`. -/
  priceHistory : Nat → ℚ
  priceIndex : Nat
  quoteBuffer : RingBuffer MMQuote
  /-- `current_quotes_`, meaningful below `MAX_QUOTES`. -/
  currentQuotes : Nat → MMQuote
  activeQuotes : Nat
  quotesGenerated : Nat
  marketUpdates : Nat
  running : Bool

/-! ## Volatility and spread -/

/-- The neighbouring slots `i - 1` and `i`, for `i` from `1`, whose ratio
    `calculateVolatility` turns into a log return: both prices positive, the earlier slot
    the denominator. -/
def returnPairs (history : Nat → ℚ) : List (ℚ × ℚ) :=
  (List.range' 1 (priceHistorySize - 1)).filterMap fun i =>
    if history i > 0 ∧ history (i - 1) > 0 then some (history (i - 1), history i) else none

/-- `calculateVolatility()`: the sample standard deviation of the log returns, `0` below
    two of them. -/
def calculateVolatility (libm : Libm) (history : Nat → ℚ) : ℚ :=
  let returns := (returnPairs history).map fun p => libm.log (p.2 / p.1)
  let count := returns.length
  if count < 2 then 0
  else
    let mean := returns.sum / count
    libm.sqrt ((returns.map fun r => (r - mean) ^ 2).sum / ((count : ℚ) - 1))

/-- `getInventorySkew(position)`. -/
def getInventorySkew (config : MarketMakerConfig) (position : ℚ) : Option ℚ :=
  (divide? position config.maxInventory).map fun ratio => 1 + config.inventorySkew * |ratio|

/-- `calculateSpread(market, inventory)`: the base spread widened by volatility and by
    inventory, clamped to `[min_spread, max_spread]`. -/
def calculateSpread (config : MarketMakerConfig) (market : MarketSnapshot)
    (inventory : InventorySnapshot) : Option ℚ :=
  (getInventorySkew config inventory.position).map fun skewFactor =>
    let spread := config.baseSpreadBps / 10000 * (1 + market.volatility * config.volatilityFactor) *
      skewFactor
    max (config.minSpreadBps / 10000) (min (config.maxSpreadBps / 10000) spread)

namespace MarketMakerEngine

/-- `MarketMakerEngine(config)`. -/
def new (config : MarketMakerConfig) : MarketMakerEngine where
  config := config
  marketState := .blank
  inventoryState := .blank
  marketVersion := 0
  inventoryVersion := 0
  priceHistory := fun _ => 0
  priceIndex := 0
  quoteBuffer := RingBuffer.new quoteBufferSize
  currentQuotes := fun _ => .blank
  activeQuotes := 0
  quotesGenerated := 0
  marketUpdates := 0
  running := false

/-! ## Operations -/

/-- `updateMarketData(symbol, bid_price, bid_size, ask_price, ask_size, last_price)` at
    clock reading `now`: the mid price goes into the next slot of the history, and the
    volatility is recomputed from the whole history. -/
def updateMarketData (e : MarketMakerEngine) (libm : Libm)
    (bidPrice bidSize askPrice askSize lastPrice : ℚ) (now : Nat) : MarketMakerEngine :=
  let midPrice := (bidPrice + askPrice) / 2
  let history := Function.update e.priceHistory (e.priceIndex % priceHistorySize) midPrice
  { e with
    priceIndex := sizeAdd e.priceIndex 1
    priceHistory := history
    marketState := ⟨bidPrice, askPrice, midPrice, lastPrice, bidSize, askSize,
      calculateVolatility libm history, now⟩
    marketVersion := sizeAdd e.marketVersion 1
    marketUpdates := sizeAdd e.marketUpdates 1 }

/-- `updatePosition(symbol, position, avg_price)` at clock reading `now`: the unrealised
    PnL is set only when a mid price is known. -/
def updatePosition (e : MarketMakerEngine) (position avgPrice : ℚ) (now : Nat) :
    MarketMakerEngine :=
  { e with
    inventoryState :=
      { position, avgPrice
        unrealizedPnl :=
          if e.marketState.midPrice > 0 then position * (e.marketState.midPrice - avgPrice) else 0
        realizedPnl := 0
        positionValue := position * avgPrice
        timestampNs := now }
    inventoryVersion := sizeAdd e.inventoryVersion 1 }

/-- `generateQuoteLevel(symbol, side, mid_price, spread, level)`, the clock read at `now`:
    the quote goes into the next slot of `current_quotes_`, or nowhere once all
    `MAX_QUOTES` are taken (the `fetch_add` is undone). Inventory skews the price by
    `|position / max_inventory| · inventory_skew / 2`. -/
def generateQuoteLevel (e : MarketMakerEngine) (symbol : String) (side : Side)
    (midPrice spread : ℚ) (level : Int) (now : Nat) : Option MarketMakerEngine :=
  let idx := e.activeQuotes
  if idx ≥ maxQuotes then some e
  else
    let levelSpread := spread * (1 + level * e.config.levelSpacingBps / 10000)
    let price := if side = .buy then midPrice * (1 - levelSpread) else midPrice * (1 + levelSpread)
    (divide? e.inventoryState.position e.config.maxInventory).map fun ratio =>
      let bias := |ratio| * e.config.inventorySkew * (1 / 2)
      let price :=
        if ratio > 0 then (if side = .sell then price * (1 - bias) else price * (1 + bias))
        else if ratio < 0 then (if side = .buy then price * (1 + bias) else price * (1 - bias))
        else price
      { e with
        activeQuotes := idx + 1
        currentQuotes := Function.update e.currentQuotes idx
          ⟨symbol, "binance", side, price, e.config.quoteSize, level, now⟩ }

/-- The level loop of `generateQuotes`: a bid, then an ask, at each level. -/
def quoteLevels (e : MarketMakerEngine) (midPrice spread : ℚ) (clock : Nat → Nat)
    (levels : List Nat) : Option MarketMakerEngine :=
  levels.foldlM (fun e (level : Nat) =>
    (e.generateQuoteLevel "BTCUSDT" .buy midPrice spread level (clock e.activeQuotes)).bind
      fun e => e.generateQuoteLevel "BTCUSDT" .sell midPrice spread level (clock e.activeQuotes)) e

/-- The push loop of `generateQuotes`: each of the first `count` quotes is pushed, and
    `quotes_generated` is incremented whether or not the push succeeded. -/
def pushQuotes (e : MarketMakerEngine) (count : Nat) : Option MarketMakerEngine :=
  (List.range count).foldlM (fun e i =>
    (e.quoteBuffer.push (e.currentQuotes i)).map fun r =>
      { e with quoteBuffer := r.2, quotesGenerated := sizeAdd e.quotesGenerated 1 }) e

/-- `generateQuotes()`, the quote written into slot `i` reading the clock at `clock i`:
    nothing unless running with positive market prices; otherwise a fresh set of quotes,
    all pushed. -/
def generateQuotes (e : MarketMakerEngine) (clock : Nat → Nat) : Option MarketMakerEngine :=
  if !e.running then some e
  else if e.marketState.midPrice ≤ 0 ∨ e.marketState.bidPrice ≤ 0 ∨ e.marketState.askPrice ≤ 0 then
    some e
  else
    (calculateSpread e.config e.marketState e.inventoryState).bind fun spread =>
      ({ e with activeQuotes := 0 }.quoteLevels e.marketState.midPrice spread clock
        (List.range e.config.quoteLevels.toNat)).bind fun e => e.pushQuotes e.activeQuotes

/-- `getNextQuote(quote)`: the quote popped, if any. -/
def getNextQuote (e : MarketMakerEngine) : Option (Option MMQuote × MarketMakerEngine) :=
  e.quoteBuffer.pop.map fun r => (r.1, { e with quoteBuffer := r.2 })

/-- `start()`. -/
def start (e : MarketMakerEngine) : MarketMakerEngine := { e with running := true }

/-- `stop()`. -/
def stop (e : MarketMakerEngine) : MarketMakerEngine := { e with running := false }

end MarketMakerEngine

/-! ## The risk checker -/

/-- The state of a `RiskChecker`: its configuration and what `updatePnL` accumulates. -/
structure RiskChecker where
  config : MarketMakerConfig
  dailyLoss : ℚ
  consecutiveLosses : Int

namespace RiskChecker

/-- `RiskChecker(config)`. -/
def new (config : MarketMakerConfig) : RiskChecker := ⟨config, 0, 0⟩

/-- `1e-10`, which both stop-loss tests add to the position value. -/
def stopLossEpsilon : ℚ := 1 / 10 ^ 10

/-- The stop-loss test of `checkQuote` and `shouldStop`:
    `unrealized_pnl / (position_value + 1e-10) < -stop_loss_percent`. -/
def stopLossFires (config : MarketMakerConfig) (inventory : InventorySnapshot) : Option Bool :=
  (divide? inventory.unrealizedPnl (inventory.positionValue + stopLossEpsilon)).map
    fun pnlPercent => decide (pnlPercent < -config.stopLossPercent)

/-- `checkQuote(quote, inventory)`: the position limit, the position-value limit, then
    the stop loss. -/
def checkQuote (rc : RiskChecker) (quote : MMQuote) (inventory : InventorySnapshot) :
    Option Bool :=
  let newPosition :=
    if quote.side = .buy then inventory.position + quote.quantity
    else inventory.position - quote.quantity
  if |newPosition| > rc.config.maxInventory then some false
  else if |newPosition * quote.price| > rc.config.maxPositionValue then some false
  else (stopLossFires rc.config inventory).map (!·)

/-- `shouldStop(inventory, daily_pnl)`: the daily loss limit, the stop loss, then more
    than ten consecutive losses. -/
def shouldStop (rc : RiskChecker) (inventory : InventorySnapshot) (dailyPnl : ℚ) :
    Option Bool :=
  if dailyPnl < -rc.config.maxDailyLoss then some true
  else (stopLossFires rc.config inventory).map fun fires =>
    fires || decide (rc.consecutiveLosses > 10)

/-- `updatePnL(pnl)`. -/
def updatePnL (rc : RiskChecker) (pnl : ℚ) : RiskChecker :=
  { rc with
    dailyLoss := rc.dailyLoss + pnl
    consecutiveLosses := if pnl < 0 then Risk.wrapInt32 (rc.consecutiveLosses + 1) else 0 }

end RiskChecker

end MarketMaker

end OmsCore
