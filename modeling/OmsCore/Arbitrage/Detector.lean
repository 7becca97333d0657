import OmsCore.Types

/-! # Arbitrage detector: the price matrix

    `ArbitrageDetector::updatePriceFeed` and `getOrCreateSymbolIndex` of
    `arbitrage_detector.cpp`. Names arrive as NUL-terminated C strings. A feed keeps the
    exchange name in `char exchange[16]`, written by `strncpy(.., 15)`: the first 15
    bytes, NUL padded, while `exchange[15]` is written by no code and left indeterminate
    by the constructor; the model carries that byte as `pad`. The slot search compares
    the stored buffer with the argument by `strcmp`, which reads past the array, and has
    undefined behaviour (`none`), when the first 16 bytes agree without a NUL.
-/

namespace OmsCore

namespace Arbitrage

/-! ## C strings -/

/-- A NUL-terminated C string: its bytes before the terminator. -/
structure CString where
  bytes : List UInt8
  nonzero : ∀ b ∈ bytes, b ≠ 0

/-- `strncpy(dst, src, 15)` into a 16-byte buffer: `dst[0..15)`, NUL padded. -/
def strncpy15 (src : List UInt8) : List UInt8 :=
  src.take 15 ++ List.replicate (15 - src.length) 0

/-- `strcmp(a, b) == 0`, `a` a buffer and `b` terminated: `none` when the comparison runs
    past the end of `a`. -/
def strcmpEq : List UInt8 → List UInt8 → Option Bool
  | [], _ => none
  | _ :: _, [] => some false
  | c :: cs, d :: ds => if c = d then (if c = 0 then some true else strcmpEq cs ds) else some false

/-- A name of at most 14 bytes is stored whole and NUL-terminated. -/
theorem strncpy15_of_short {x : List UInt8} (h : x.length ≤ 14) :
    strncpy15 x = x ++ 0 :: List.replicate (14 - x.length) 0 := by
  rw [strncpy15, List.take_of_length_le (by omega), show 15 - x.length = 14 - x.length + 1 by omega,
    List.replicate_succ]

/-- `strcmp` against a terminated stored name is byte equality, whatever follows it. -/
theorem strcmpEq_terminated {x y : List UInt8} (hx : ∀ b ∈ x, b ≠ 0) (hy : ∀ b ∈ y, b ≠ 0)
    (rest : List UInt8) : strcmpEq (x ++ 0 :: rest) (y ++ [0]) = some (decide (x = y)) := by
  induction x generalizing y with
  | nil =>
    cases y with
    | nil => simp [strcmpEq]
    | cons d ds => simp [strcmpEq, Ne.symm (hy d (List.mem_cons_self _ _))]
  | cons c cs ih =>
    have hc : c ≠ 0 := hx c (List.mem_cons_self _ _)
    cases y with
    | nil => simp [strcmpEq, hc]
    | cons d ds =>
      by_cases hcd : c = d
      · subst hcd
        simp [strcmpEq, hc, ih (fun b hb => hx b (List.mem_cons_of_mem _ hb))
          (fun b hb => hy b (List.mem_cons_of_mem _ hb))]
      · simp [strcmpEq, hcd]

/-- Distinct short names are stored differently. -/
theorem strncpy15_inj {x y : List UInt8} (hx0 : ∀ b ∈ x, b ≠ 0) (hy0 : ∀ b ∈ y, b ≠ 0)
    (hx : x.length ≤ 14) (hy : y.length ≤ 14) (h : strncpy15 x = strncpy15 y) : x = y := by
  have := congrArg (List.takeWhile fun b => b != 0) h
  rw [strncpy15_of_short hx, strncpy15_of_short hy,
    List.takeWhile_append_of_pos (by simpa using hx0),
    List.takeWhile_append_of_pos (by simpa using hy0)] at this
  simpa using this

/-! ## State -/

/-- `ArbitrageDetector::MAX_EXCHANGES`. -/
def maxExchanges : Nat := 10

/-- `ArbitrageDetector::MAX_SYMBOLS`. -/
def maxSymbols : Nat := 100

/-- The four prices and quantities of one update. -/
structure Quote where
  bidPrice : ℚ
  bidQuantity : ℚ
  askPrice : ℚ
  askQuantity : ℚ
  deriving DecidableEq, Repr

/-- `PriceFeed`: `exchange` and `symbol` are the bytes `[0, 15)` of the two buffers. -/
structure PriceFeed where
  exchange : List UInt8
  symbol : List UInt8
  quote : Quote
  timestampNs : Nat

/-- `PriceFeed()`: zero prices; the name bytes it leaves indeterminate are never read
    before a write, and are taken as zero. -/
def PriceFeed.blank : PriceFeed :=
  ⟨List.replicate 15 0, List.replicate 15 0, ⟨0, 0, 0, 0⟩, 0⟩

/-- `SymbolPrices`: up to `MAX_EXCHANGES` feeds, the first `exchangeCount` in use. -/
structure SymbolPrices where
  feeds : Nat → PriceFeed
  exchangeCount : Nat
  symbol : List UInt8

def SymbolPrices.blank : SymbolPrices := ⟨fun _ => .blank, 0, List.replicate 15 0⟩

/-- The price matrix of an `ArbitrageDetector`. -/
structure ArbitrageDetector where
  /-- `symbol_index_`, keyed by the whole symbol string. -/
  symbolIndex : List UInt8 → Option Nat
  symbolPrices : Nat → SymbolPrices
  symbolCount : Nat
  processedPrices : Nat
  /-- `symbol_prices_[s].feeds[i].exchange[15]`, which no code writes. -/
  pad : Nat → Nat → UInt8

namespace ArbitrageDetector

/-- A detector just constructed, its never-written bytes being `pad`. -/
def new (pad : Nat → Nat → UInt8) : ArbitrageDetector :=
  ⟨fun _ => none, fun _ => .blank, 0, 0, pad⟩

/-! ## Operations -/

/-- `getOrCreateSymbolIndex(symbol)`: the symbol's slot, a new slot while fewer than
    `MAX_SYMBOLS` exist, or `MAX_SYMBOLS` when full (the `fetch_add` is undone). -/
def getOrCreateSymbolIndex (d : ArbitrageDetector) (symbol : CString) :
    Nat × ArbitrageDetector :=
  match d.symbolIndex symbol.bytes with
  | some i => (i, d)
  | none =>
    let newIdx := d.symbolCount
    if newIdx ≥ maxSymbols then (maxSymbols, d)
    else
      let sp := d.symbolPrices newIdx
      (newIdx, { d with
        symbolCount := newIdx + 1
        symbolPrices := Function.update d.symbolPrices newIdx
          { sp with symbol := strncpy15 symbol.bytes }
        symbolIndex := Function.update d.symbolIndex symbol.bytes (some newIdx) })

/-- The first index of `is` whose test succeeds, `none` inside when none does; `none`
    when a test is undefined. -/
def firstMatch (test : Nat → Option Bool) : List Nat → Option (Option Nat)
  | [] => some none
  | i :: is => (test i).bind fun found => if found then some (some i) else firstMatch test is

/-- The linear search of `updatePriceFeed`: the first of the `count` slots of symbol
    slot `s` whose stored exchange name `strcmp`s equal to `exchange`. -/
def findExchange (d : ArbitrageDetector) (s : Nat) (exchange : CString) : Option (Option Nat) :=
  let sp := d.symbolPrices s
  firstMatch (fun i => strcmpEq ((sp.feeds i).exchange ++ [d.pad s i]) (exchange.bytes ++ [0]))
    (List.range sp.exchangeCount)

/-- The slot an update writes and the new `exchange_count`: the exchange's slot, else
    the next free one, else none. -/
def chooseSlot (found : Option Nat) (count : Nat) : Option (Nat × Nat) :=
  match found with
  | some i => some (i, count)
  | none => if count < maxExchanges then some (count, count + 1) else none

/-- The body of `updatePriceFeed` once the symbol has slot `s`: find or add the
    exchange's slot and write the feed, or return when the symbol's slots are full. -/
def writeFeed (d : ArbitrageDetector) (s : Nat) (exchange symbol : CString) (quote : Quote)
    (now : Nat) : Option ArbitrageDetector :=
  (d.findExchange s exchange).map fun found =>
    let sp := d.symbolPrices s
    match chooseSlot found sp.exchangeCount with
    | none => d
    | some (i, count) =>
      let feed : PriceFeed := ⟨strncpy15 exchange.bytes, strncpy15 symbol.bytes, quote, now⟩
      { d with
        symbolPrices := Function.update d.symbolPrices s
          { sp with exchangeCount := count, feeds := Function.update sp.feeds i feed }
        processedPrices := d.processedPrices + 1 }

/-- `updatePriceFeed(exchange, symbol, bid_price, bid_quantity, ask_price, ask_quantity)`
    at clock reading `now`. -/
def updatePriceFeed (d : ArbitrageDetector) (exchange symbol : CString) (quote : Quote)
    (now : Nat) : Option ArbitrageDetector :=
  let r := d.getOrCreateSymbolIndex symbol
  if r.1 ≥ maxSymbols then some r.2 else r.2.writeFeed r.1 exchange symbol quote now

end ArbitrageDetector

/-! ## Runs -/

/-- The arguments of one `updatePriceFeed` call, with the clock reading it takes. -/
structure FeedCall where
  exchange : CString
  symbol : CString
  quote : Quote
  now : Nat

/-- `updatePriceFeed` called on each call in turn, from one thread. -/
def ArbitrageDetector.runFeeds (d : ArbitrageDetector) (calls : List FeedCall) :
    Option ArbitrageDetector :=
  calls.foldlM (fun d c => d.updatePriceFeed c.exchange c.symbol c.quote c.now) d

end Arbitrage

end OmsCore
