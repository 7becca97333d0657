import OmsCore.Types
import OmsCore.RingBuffer.Basic
import OmsCore.RingBuffer.Invariant
import OmsCore.RingBuffer.Refinement
import OmsCore.RingBuffer.Concurrent
import OmsCore.OrderManager.Basic
import OmsCore.OrderManager.Index
import OmsCore.OrderManager.Lifecycle
import OmsCore.OrderManager.Dispatch
import OmsCore.OrderManager.Admission
import OmsCore.OrderManager.Stats
import OmsCore.OrderManager.Passes
import OmsCore.RingBuffer.MultiProducer
import OmsCore.Risk.Engine
import OmsCore.Risk.Pnl
import OmsCore.Risk.Average
import OmsCore.Risk.Checks
import OmsCore.MarketMaker.Basic
import OmsCore.MarketMaker.StopLoss
import OmsCore.MarketMaker.Quotes
import OmsCore.MarketMaker.QuoteRing
import OmsCore.MarketMaker.History
import OmsCore.MarketMaker.LossStreak
import OmsCore.MarketMaker.Spread
import OmsCore.MarketMaker.Skew
import OmsCore.Arbitrage.Detector
import OmsCore.Arbitrage.Matrix
import OmsCore.Arbitrage.Board
import OmsCore.Arbitrage.Concurrent
import OmsCore.Arbitrage.SymbolRace
import OmsCore.Arbitrage.Opportunities
import OmsCore.Arbitrage.Consumer
import OmsCore.Arbitrage.Provenance
import OmsCore.Arbitrage.Defined
import OmsCore.AggregatedBook.Basic
import OmsCore.AggregatedBook.Latest
import OmsCore.AggregatedBook.BestExchange
