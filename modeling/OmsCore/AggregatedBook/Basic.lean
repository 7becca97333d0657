import OmsCore.Types
import OmsCore.AssocList
import Mathlib.Order.Defs.Unbundled

/-! # The aggregated order book

    `AggregatedOrderBook` of `order_manager.h` / `order_manager.cpp`: per symbol and
    exchange, the book an exchange last sent (`UpdateBook`), merged across the exchanges
    on request (`GetAggregatedBook`, `MergeBooks`), with the best levels
    (`GetBestBidAsk`) and the exchange that fills a quantity first (`GetBestExchange`).
    Every operation holds the lock for its whole body, so each is one atomic step.

    Two things the source leaves open are parameters. `std::sort` orders levels of equal
    price in an unspecified way: the merge takes any sort that meets the standard's
    contract (`StdSort`). `Book merged;` leaves `merged.last_update` indeterminate before
    the loop that takes the latest update: the merge takes that value as an argument. The
    inner `unordered_map`s are kept in insertion order, one of the iteration orders the
    standard allows.
-/

namespace OmsCore

namespace AggregatedOrderBook

/-- `AggregatedOrderBook::Level`. -/
structure Level where
  price : Price
  quantity : Quantity
  exchange : ExchangeType
  numOrders : Int
  deriving DecidableEq, Repr

/-- `AggregatedOrderBook::Book`. -/
structure Book where
  bids : List Level
  asks : List Level
  lastUpdate : Timestamp
  deriving DecidableEq, Repr

/-- `Book{}`. -/
def Book.empty : Book := ⟨[], [], 0⟩

/-- What `std::sort(first, last, comp)` guarantees for a comparator that is a strict weak
    order: a permutation of the input in which no element is ordered before an earlier
    one. -/
def StdSort (sort : (Level → Level → Bool) → List Level → List Level) : Prop :=
  ∀ comp : Level → Level → Bool, IsStrictWeakOrder Level (fun a b => comp a b = true) →
    ∀ l, (sort comp l).Perm l ∧ (sort comp l).Pairwise fun a b => comp b a = false

/-- `std::numeric_limits<double>::max()`. -/
def priceMax : Price := (2 ^ 53 - 1) * 2 ^ 971

/-- The comparator `MergeBooks` sorts the bids with: higher price first. -/
def bidFirst (a b : Level) : Bool := decide (a.price > b.price)

/-- The comparator `MergeBooks` sorts the asks with: lower price first. -/
def askFirst (a b : Level) : Bool := decide (a.price < b.price)

/-- `MergeBooks(books)`: all bids and all asks in the order of `books`, each side sorted,
    and the latest update, `merged.last_update` holding `lastUpdate0` before the loop. -/
def mergeBooks (sort : (Level → Level → Bool) → List Level → List Level)
    (lastUpdate0 : Timestamp) (books : List Book) : Book where
  bids := sort bidFirst (books.flatMap Book.bids)
  asks := sort askFirst (books.flatMap Book.asks)
  lastUpdate := books.foldl (fun t b => if b.lastUpdate > t then b.lastUpdate else t) lastUpdate0

/-- `Level{0, 0, BINANCE_SPOT, 0}`, the bid `GetBestBidAsk` returns for an empty side. -/
def noBid : Level := ⟨0, 0, ExchangeType.binanceSpot, 0⟩

/-- `Level{max double, 0, BINANCE_SPOT, 0}`, the ask for an empty side. -/
def noAsk : Level := ⟨priceMax, 0, ExchangeType.binanceSpot, 0⟩

/-- The walk of `GetBestExchange` over a side: the exchange of the first level at which
    the running total of quantities reaches `quantity`. -/
def reachLevel (quantity : Quantity) : Quantity → List Level → Option ExchangeType
  | _, [] => none
  | cumulative, l :: ls =>
    if cumulative + l.quantity ≥ quantity then some l.exchange
    else reachLevel quantity (cumulative + l.quantity) ls

end AggregatedOrderBook

open AggregatedOrderBook

/-- The state of an `AggregatedOrderBook`: `books_`, where a symbol without a key maps to
    `none`. -/
structure AggregatedOrderBook where
  books : String → Option (List (ExchangeType × Book))

namespace AggregatedOrderBook

/-- A book just constructed. -/
def new : AggregatedOrderBook := ⟨fun _ => none⟩

/-- `UpdateBook(exchange, symbol, bids, asks)` at system-clock reading `now`:
    `books_[symbol][exchange]` gets all three fields. -/
def updateBook (ob : AggregatedOrderBook) (exchange : ExchangeType) (symbol : String)
    (bids asks : List Level) (now : Timestamp) : AggregatedOrderBook :=
  ⟨Function.update ob.books symbol
    (some (assign ((ob.books symbol).getD []) exchange ⟨bids, asks, now⟩))⟩

/-- `GetAggregatedBook(symbol)`. -/
def getAggregatedBook (ob : AggregatedOrderBook) (symbol : String)
    (sort : (Level → Level → Bool) → List Level → List Level) (lastUpdate0 : Timestamp) :
    Book :=
  match ob.books symbol with
  | none => .empty
  | some m => mergeBooks sort lastUpdate0 (m.map Prod.snd)

/-- `GetBestBidAsk(symbol)`: the first level of each merged side, or the sentinels. -/
def getBestBidAsk (ob : AggregatedOrderBook) (symbol : String)
    (sort : (Level → Level → Bool) → List Level → List Level) (lastUpdate0 : Timestamp) :
    Level × Level :=
  let book := ob.getAggregatedBook symbol sort lastUpdate0
  (book.bids.headD noBid, book.asks.headD noAsk)

/-- `GetBestExchange(symbol, side, quantity)`: a buy walks the asks and a sell the bids;
    the exchange of the first level at which the running total reaches `quantity`, else
    that of the first level, else `BINANCE_SPOT`. -/
def getBestExchange (ob : AggregatedOrderBook) (symbol : String) (side : Side)
    (quantity : Quantity) (sort : (Level → Level → Bool) → List Level → List Level)
    (lastUpdate0 : Timestamp) : ExchangeType :=
  let book := ob.getAggregatedBook symbol sort lastUpdate0
  match side, book.asks, book.bids with
  | .buy, a :: as, _ => (reachLevel quantity 0 (a :: as)).getD a.exchange
  | .sell, _, b :: bs => (reachLevel quantity 0 (b :: bs)).getD b.exchange
  | _, _, _ => ExchangeType.binanceSpot

/-! ## Runs -/

/-- The arguments of one `UpdateBook` call, with the clock reading it takes. -/
structure BookCall where
  exchange : ExchangeType
  symbol : String
  bids : List Level
  asks : List Level
  now : Timestamp

/-- `UpdateBook` called on each call in turn. -/
def run (ob : AggregatedOrderBook) (calls : List BookCall) : AggregatedOrderBook :=
  calls.foldl (fun ob c => ob.updateBook c.exchange c.symbol c.bids c.asks c.now) ob

end AggregatedOrderBook

end OmsCore
