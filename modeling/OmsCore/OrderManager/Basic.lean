import OmsCore.RingBuffer.Basic

/-! # The order manager

    `OrderManager` of `order_manager.h` / `order_manager.cpp`: a per-second admission
    gate, one `RingBuffer<Order>` per exchange, and the order index (`orders_` by id and
    `exchange_orders_` by exchange) that the dispatch worker fills.

    Clock readings are arguments: `SubmitOrder` reads the steady clock (nanoseconds),
    `ProcessOrder` and `ProcessCancellation` stamp orders with the system clock
    (microseconds), and the dispatch loop measures a latency per order. Dereferencing the
    null queue that `order_queues_[e]` inserts for an exchange outside `BINANCE_SPOT ..=
    UPBIT` is undefined behaviour: the operations return `none` there, as they do for an
    access outside a ring buffer's allocation.
-/

namespace OmsCore

/-- `OrderManager::Config`, the fields the modelled functions read. -/
structure Config where
  ringBufferSize : Nat
  maxOrdersPerSecond : Nat

/-- The defaults of `OrderManager::Config`. -/
def Config.default : Config := ⟨1048576, 100000⟩

/-- `OrderManager::Stats`; every counter is a `uint64_t`. -/
structure Stats where
  ordersProcessed : Nat
  ordersRejected : Nat
  totalLatencyUs : Nat
  minLatencyUs : Nat
  maxLatencyUs : Nat

def Stats.init : Stats := ⟨0, 0, 0, wordSize - 1, 0⟩

/-- One second of the steady clock, in nanoseconds. -/
def oneSecond : Nat := 1000000000

/-- Number of values of the `uint32_t` counter `orders_this_second_`. -/
def u32Size : Nat := 2 ^ 32

/-- The state of an `OrderManager`. -/
structure OrderManager where
  config : Config
  stats : Stats
  /-- `order_queues_`: `none` where the map holds no queue, or a null one. -/
  orderQueues : ExchangeType → Option (RingBuffer Order)
  /-- `orders_`. -/
  orders : OrderId → Option Order
  /-- `exchange_orders_`; an absent key reads as the empty list. -/
  exchangeOrders : ExchangeType → List OrderId
  running : Bool
  nextOrderId : Nat
  ordersThisSecond : Nat
  lastRateCheck : Nat

namespace OrderManager

/-- `OrderManager(config)`, constructed at steady-clock reading `now`: a queue for each
    exchange `0 ..= UPBIT`. -/
def new (config : Config) (now : Nat) : OrderManager where
  config := config
  stats := Stats.init
  orderQueues e := if e.code.val ≤ 6 then some (RingBuffer.new config.ringBufferSize) else none
  orders := fun _ => none
  exchangeOrders := fun _ => []
  running := false
  nextOrderId := 1
  ordersThisSecond := 0
  lastRateCheck := now

/-- `stats_.orders_rejected.fetch_add(1)`. -/
def reject (om : OrderManager) : OrderManager :=
  { om with stats := { om.stats with ordersRejected := sizeAdd om.stats.ordersRejected 1 } }

/-- The manager with exchange `e`'s queue replaced by `q`: the ring buffer's calls mutate
    the queue in place. -/
def setQueue (om : OrderManager) (e : ExchangeType) (q : RingBuffer Order) : OrderManager :=
  { om with orderQueues := Function.update om.orderQueues e (some q) }

/-- The admission gate of `SubmitOrder` at steady-clock reading `now`: the tumbling
    one-second window, then the `fetch_add` on `orders_this_second_`, made whether or not
    the call is admitted; `true` when the count before it was below the limit. -/
def rateGate (om : OrderManager) (now : Nat) : Bool × OrderManager :=
  let om := if now - om.lastRateCheck ≥ oneSecond then
      { om with ordersThisSecond := 0, lastRateCheck := now } else om
  let count := om.ordersThisSecond
  (!decide (count ≥ om.config.maxOrdersPerSecond),
    { om with ordersThisSecond := (count + 1) % u32Size })

/-- `OrderManager::SubmitOrder` at steady-clock reading `now`: the rate gate, then the
    push onto the exchange's queue. -/
def submitOrder (om : OrderManager) (order : Order) (now : Nat) :
    Option (Bool × OrderManager) :=
  let (passed, om) := om.rateGate now
  if !passed then some (false, om.reject)
  else
    match om.orderQueues order.exchange with
    | none => none
    | some queue => (queue.push order).map fun (ok, queue) =>
      let om := om.setQueue order.exchange queue
      if ok then (true, om) else (false, om.reject)

/-- The record `CancelOrder` builds: `Order cancel_order;` with the id, exchange and
    status set. -/
def cancelRequest (orderId : OrderId) (exchange : ExchangeType) : Order :=
  { Order.blank with id := orderId, exchange := exchange, status := .canceled }

/-- `OrderManager::CancelOrder`: routed through the same admission path. -/
def cancelOrder (om : OrderManager) (orderId : OrderId) (exchange : ExchangeType)
    (now : Nat) : Option (Bool × OrderManager) :=
  om.submitOrder (cancelRequest orderId exchange) now

/-- `OrderManager::UpdateOrder`: overwrite the whole stored record of `order.id`. -/
def updateOrder (om : OrderManager) (order : Order) : Bool × OrderManager :=
  match om.orders order.id with
  | none => (false, om)
  | some _ => (true, { om with orders := Function.update om.orders order.id (some order) })

/-- `OrderManager::GetOrder`. -/
def getOrder (om : OrderManager) (orderId : OrderId) : Option Order := om.orders orderId

/-- `OrderManager::GetOrdersByExchange`: the listed ids that are keys of `orders_`. -/
def getOrdersByExchange (om : OrderManager) (exchange : ExchangeType) : List Order :=
  (om.exchangeOrders exchange).filterMap om.orders

/-- `OrderManager::ProcessCancellation` at system-clock reading `now`: cancel the order
    if it is stored under that exchange, whatever its status. -/
def processCancellation (om : OrderManager) (orderId : OrderId) (exchange : ExchangeType)
    (now : Timestamp) : OrderManager :=
  match om.orders orderId with
  | some o =>
    if o.exchange = exchange then
      let canceled := { o with status := .canceled, updatedAt := now }
      { om with orders := Function.update om.orders orderId (some canceled) }
    else om
  | none => om

/-- `OrderManager::ProcessOrder` at system-clock reading `now`: a cancellation request
    goes to `ProcessCancellation`; any other request is stored under the next id and
    appended to its exchange's list. -/
def processOrder (om : OrderManager) (order : Order) (now : Timestamp) : OrderManager :=
  if order.status = .canceled then om.processCancellation order.id order.exchange now
  else
    let orderId := om.nextOrderId
    let stored := { order with id := orderId, createdAt := now }
    let listed := om.exchangeOrders order.exchange ++ [orderId]
    { om with
      nextOrderId := sizeAdd om.nextOrderId 1
      orders := Function.update om.orders orderId (some stored)
      exchangeOrders := Function.update om.exchangeOrders order.exchange listed }

/-- `OrderManager::UpdateLatencyStats`; with the single dispatch worker the two
    compare-and-swap loops compute a minimum and a maximum. -/
def updateLatencyStats (om : OrderManager) (latencyUs : Nat) : OrderManager :=
  { om with stats := { om.stats with
      totalLatencyUs := sizeAdd om.stats.totalLatencyUs latencyUs
      minLatencyUs := min om.stats.minLatencyUs latencyUs
      maxLatencyUs := max om.stats.maxLatencyUs latencyUs } }

/-- The clock readings the dispatch loop takes around one `ProcessOrder`. -/
structure Tick where
  createdAt : Timestamp
  latencyUs : Nat

/-- `queue->pop(order)` on the queue of `exchange`: the request popped, if any. -/
def popRequest (om : OrderManager) (exchange : ExchangeType) :
    Option (Option Order × OrderManager) :=
  match om.orderQueues exchange with
  | none => none
  | some queue => (queue.pop).map fun (item, queue) => (item, om.setQueue exchange queue)

/-- What the dispatch loop does with a popped request: `ProcessOrder`, the latency
    counters, and `orders_processed`. -/
def handleRequest (om : OrderManager) (order : Order) (tick : Tick) : OrderManager :=
  let om := (om.processOrder order tick.createdAt).updateLatencyStats tick.latencyUs
  { om with stats := { om.stats with ordersProcessed := sizeAdd om.stats.ordersProcessed 1 } }

/-- The body of the dispatch loop for one queue: pop at most one request and handle it. -/
def dispatchOne (om : OrderManager) (exchange : ExchangeType) (tick : Tick) :
    Option OrderManager :=
  (om.popRequest exchange).map fun (item, om) =>
    match item with
    | none => om
    | some order => om.handleRequest order tick

/-- One iteration of `ProcessingLoop`: the queues in the map's iteration order `keys`. -/
def processingPass (om : OrderManager) (keys : List ExchangeType)
    (ticks : ExchangeType → Tick) : Option OrderManager :=
  keys.foldlM (fun om e => om.dispatchOne e (ticks e)) om

/-- `OrderManager::Start`: idempotent; the worker runs `ProcessingLoop` while `running`. -/
def start (om : OrderManager) : OrderManager := { om with running := true }

/-- `OrderManager::Stop`. -/
def stop (om : OrderManager) : OrderManager := { om with running := false }

end OrderManager

end OmsCore
