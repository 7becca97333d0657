import Mathlib.Algebra.Order.Field.Rat

/-! # Domain types of the core engine

    The enumerations and the `Order` record of `types.h`, and the word arithmetic of
    `size_t` / `uint64_t` that the ring buffer and the order manager rely on.

    Prices and quantities are `double` in the source. The model computes them as
    rationals, with no rounding, so what it proves of them holds in exact arithmetic, and
    of the source's doubles only where no rounding occurs. Clock readings enter the model
    as explicit arguments of the operations that read a clock.
-/

namespace OmsCore

/-! ## Machine words -/

/-- Number of values of a 64-bit `size_t` or `uint64_t`. -/
def wordSize : Nat := 2 ^ 64

/-- `a + b` on `size_t`. -/
def sizeAdd (a b : Nat) : Nat := (a + b) % wordSize

/-- `a - b` on `size_t`, for `b < 2^64`: wraps below zero. -/
def sizeSub (a b : Nat) : Nat := (a + wordSize - b) % wordSize

/-! ## Division -/

/-- `a / b` on `double`: C++ leaves a division by zero undefined. -/
def divide? (a b : ℚ) : Option ℚ := if b = 0 then none else some (a / b)

theorem divide?_of_ne_zero (a : ℚ) {b : ℚ} (h : b ≠ 0) : divide? a b = some (a / b) :=
  if_neg h

theorem divide?_eq_some {a b c : ℚ} : divide? a b = some c ↔ b ≠ 0 ∧ a / b = c := by
  unfold divide?
  split_ifs with hb <;> simp [hb]

@[simp] theorem divide?_zero (a : ℚ) : divide? a 0 = none := if_pos rfl

/-! ## Enumerations -/

/-- `enum class Side`. -/
inductive Side where
  | buy
  | sell
  deriving DecidableEq, Repr

/-- `enum class OrderType`. -/
inductive OrderType where
  | market
  | limit
  | stop
  | stopLimit
  | takeProfit
  | takeProfitLimit
  deriving DecidableEq, Repr

/-- `enum class OrderStatus`. -/
inductive OrderStatus where
  | new
  | partiallyFilled
  | filled
  | canceled
  | rejected
  | expired
  deriving DecidableEq, Repr

/-- `enum class TimeInForce`. -/
inductive TimeInForce where
  | gtc
  | ioc
  | fok
  | gtx
  deriving DecidableEq, Repr

/-- `enum class ExchangeType : uint8_t`. The underlying byte can hold any of its 256
    values, not only the seven named ones, so the type is the byte itself. -/
structure ExchangeType where
  code : Fin 256
  deriving DecidableEq, Repr

namespace ExchangeType

def binanceSpot : ExchangeType := ⟨0⟩
def binanceFutures : ExchangeType := ⟨1⟩
def bybitSpot : ExchangeType := ⟨2⟩
def bybitFutures : ExchangeType := ⟨3⟩
def okxSpot : ExchangeType := ⟨4⟩
def okxFutures : ExchangeType := ⟨5⟩
def upbit : ExchangeType := ⟨6⟩

/-- The named exchanges `BINANCE_SPOT ..= UPBIT`, the keys for which the `OrderManager`
    constructor creates a queue. -/
def named : List ExchangeType :=
  [binanceSpot, binanceFutures, bybitSpot, bybitFutures, okxSpot, okxFutures, upbit]

end ExchangeType

/-! ## Orders -/

abbrev OrderId := Nat
abbrev Price := ℚ
abbrev Quantity := ℚ
/-- Microseconds since the epoch. -/
abbrev Timestamp := Nat

/-- `struct Order`. -/
structure Order where
  id : OrderId
  clientOrderId : String
  exchange : ExchangeType
  symbol : String
  side : Side
  type : OrderType
  price : Price
  quantity : Quantity
  executedQuantity : Quantity
  status : OrderStatus
  timeInForce : TimeInForce
  createdAt : Timestamp
  updatedAt : Timestamp
  deriving DecidableEq, Repr

/-- A default-initialised `Order`: the strings are empty, and the scalar members, which
    `Order o;` leaves indeterminate, are taken as zero. -/
def Order.blank : Order where
  id := 0
  clientOrderId := ""
  exchange := ExchangeType.binanceSpot
  symbol := ""
  side := .buy
  type := .market
  price := 0
  quantity := 0
  executedQuantity := 0
  status := .new
  timeInForce := .gtc
  createdAt := 0
  updatedAt := 0

instance : Inhabited Order := ⟨Order.blank⟩

end OmsCore
