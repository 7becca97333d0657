import OmsCore.Arbitrage.Matrix
import OmsCore.RingBuffer.Invariant
import Mathlib.Data.List.Nodup
import Mathlib.Tactic.NormNum
import Mathlib.Algebra.Order.Field.Basic

/-! # Arbitrage detector: the detection pass

    `detectOpportunities`, `checkArbitrageOpportunity` and `calculateFee` of
    `arbitrage_detector.cpp`. A pass reads the clock once and loads `symbol_count_`. For
    every symbol with two or more exchanges it checks each pair of slots `i < j` whose
    feeds are at most a second old, in both directions, and each check that passes its
    gates pushes an opportunity onto the ring. The checks are exactly the ordered pairs of
    distinct fresh slots, each once (`mem_candidatePairs`, `nodup_candidatePairs`). Every
    opportunity a check creates meets the configured bounds
    (`checkArbitrageOpportunity_bounds`). A pass over a well-formed matrix with no fresh
    zero ask, with room in the ring, pushes exactly the opportunities of its checks
    (`detectOpportunities_eq`).

    `price_diff / buy.ask_price` is undefined for a zero ask, and no gate rejects one
    before the division: a fresh zero ask below another exchange's positive bid makes the
    pass undefined (`zero_ask_divides_by_zero`). The `id` of an opportunity (`snprintf` of
    the names and the time) is left out. The clock reading of the check of symbol slot
    `s`, buy slot `b` and sell slot `l` is `stamp (s, b, l)`; `running_` is an argument.
-/

namespace OmsCore

namespace Arbitrage

/-! ## Records -/

/-- `ArbitrageConfig`; the fee maps are keyed by exchange name. -/
structure ArbitrageConfig where
  minProfitRate : ℚ
  minProfitAmount : ℚ
  maxPositionSize : ℚ
  opportunityTtlNs : Nat
  takerFees : List (List UInt8 × ℚ)
  makerFees : List (List UInt8 × ℚ)

/-- `ArbitrageConfig()`. -/
def ArbitrageConfig.default : ArbitrageConfig := ⟨1 / 1000, 10, 10000, 500000000, [], []⟩

/-- `ArbitrageOpportunity`, without its `id`; the names are the bytes `[0, 15)` of the
    buffers. -/
structure ArbitrageOpportunity where
  symbol : List UInt8
  buyExchange : List UInt8
  sellExchange : List UInt8
  buyPrice : ℚ
  sellPrice : ℚ
  maxQuantity : ℚ
  profitRate : ℚ
  netProfit : ℚ
  detectedAtNs : Nat
  validUntilNs : Nat

/-- `ArbitrageOpportunity()`. -/
def ArbitrageOpportunity.blank : ArbitrageOpportunity :=
  ⟨List.replicate 15 0, List.replicate 15 0, List.replicate 15 0, 0, 0, 0, 0, 0, 0, 0⟩

instance : Inhabited ArbitrageOpportunity := ⟨.blank⟩

/-- `ArbitrageDetector::OPPORTUNITY_BUFFER_SIZE`. -/
def opportunityBufferSize : Nat := 1024

/-- What a pass writes: `opportunity_buffer_` and `detected_count_`. -/
structure Opportunities where
  buffer : RingBuffer ArbitrageOpportunity
  detectedCount : Nat

namespace Opportunities

/-- The ring and the counter of a detector just constructed. -/
def new : Opportunities := ⟨RingBuffer.new opportunityBufferSize, 0⟩

/-- The end of `checkArbitrageOpportunity`: push the opportunity, if any, and count it
    when the push succeeded. -/
def record (o : Opportunities) : Option ArbitrageOpportunity → Option Opportunities
  | none => some o
  | some opp => (o.buffer.push opp).map fun r =>
      ⟨r.2, if r.1 then sizeAdd o.detectedCount 1 else o.detectedCount⟩

/-- `getNextOpportunity(opportunity)`: the opportunity popped, if any. -/
def getNextOpportunity (o : Opportunities) : Option (Option ArbitrageOpportunity × Opportunities) :=
  o.buffer.pop.map fun r => (r.1, { o with buffer := r.2 })

end Opportunities

/-! ## One check -/

/-- `std::string(buf)` of a 16-byte buffer: the bytes before the first NUL; undefined when
    there is none, as the read runs past the buffer. -/
def cstr (buf : List UInt8) : Option (List UInt8) :=
  if 0 ∈ buf then some (buf.takeWhile fun b => b != 0) else none

/-- `strncpy(dst, src, 15)` from the 15 bytes of a name buffer. -/
def strncpyFrom (src : List UInt8) : List UInt8 := strncpy15 (src.takeWhile fun b => b != 0)

/-- `calculateFee(exchange, price, is_taker)`: the exchange's rate from the taker or the
    maker map, `0.1%` for an exchange in neither. -/
def calculateFee (config : ArbitrageConfig) (exchange : List UInt8) (price : ℚ) (isTaker : Bool) :
    ℚ :=
  match lookupKey (if isTaker then config.takerFees else config.makerFees) exchange with
  | some rate => price * rate
  | none => price * (1 / 1000)

/-- `checkArbitrageOpportunity(buy, sell, symbol)` reading the clock at `now`, `buyPad` and
    `sellPad` the bytes after the stored exchange names: `none` when undefined, `some none`
    when a gate returns, else the opportunity it pushes. -/
def checkArbitrageOpportunity (config : ArbitrageConfig) (buy sell : PriceFeed)
    (buyPad sellPad : UInt8) (symbol : List UInt8) (now : Nat) :
    Option (Option ArbitrageOpportunity) :=
  let priceDiff := sell.quote.bidPrice - buy.quote.askPrice
  if priceDiff ≤ 0 then some none
  else (divide? priceDiff buy.quote.askPrice).bind fun profitRate =>
    if profitRate < config.minProfitRate then some none
    else (cstr (buy.exchange ++ [buyPad])).bind fun buyName =>
      (cstr (sell.exchange ++ [sellPad])).bind fun sellName =>
        let buyFee := calculateFee config buyName buy.quote.askPrice true
        let sellFee := calculateFee config sellName sell.quote.bidPrice true
        (divide? (buyFee + sellFee) buy.quote.askPrice).bind fun totalFeeRate =>
          let netProfitRate := profitRate - totalFeeRate
          if netProfitRate < config.minProfitRate then some none
          else
            let maxQuantity := min buy.quote.askQuantity sell.quote.bidQuantity
            (if maxQuantity * buy.quote.askPrice > config.maxPositionSize then
                divide? config.maxPositionSize buy.quote.askPrice
              else some maxQuantity).bind fun maxQuantity =>
              let netProfit := maxQuantity * priceDiff - maxQuantity * (buyFee + sellFee)
              if netProfit < config.minProfitAmount then some none
              else some (some ⟨strncpyFrom symbol, strncpyFrom buy.exchange,
                strncpyFrom sell.exchange, buy.quote.askPrice, sell.quote.bidPrice, maxQuantity,
                netProfitRate, netProfit, now, sizeAdd now config.opportunityTtlNs⟩)

/-- A gate that returns early yields no opportunity. -/
theorem gate_eq_some_some {c : Prop} [Decidable c] {x : Option (Option ArbitrageOpportunity)}
    {opp : ArbitrageOpportunity} (h : (if c then some none else x) = some (some opp)) :
    ¬c ∧ x = some (some opp) := by
  split_ifs at h with hc
  · cases h
  · exact ⟨hc, h⟩

/-- A gate is defined when what follows it is. -/
theorem gate_isSome {c : Prop} [Decidable c] {x : Option (Option ArbitrageOpportunity)}
    (h : x.isSome) : (if c then some none else x).isSome := by
  split_ifs
  · rfl
  · exact h

/-- What an opportunity records: the buy exchange's ask, positive and below the sell
    exchange's bid, a net profit rate and a net profit at least the configured minimums, a
    quantity within both sides' quantities whose notional is within `max_position_size`,
    and the check's clock reading with the end of its time to live. The gates alone give
    this: a negative ask fails the profit-rate gate, and a zero ask is undefined. -/
theorem checkArbitrageOpportunity_spec {config : ArbitrageConfig} {buy sell : PriceFeed}
    {buyPad sellPad : UInt8} {symbol : List UInt8} {now : Nat} {opp : ArbitrageOpportunity}
    (hmin : 0 < config.minProfitRate)
    (h : checkArbitrageOpportunity config buy sell buyPad sellPad symbol now = some (some opp)) :
    opp.buyPrice = buy.quote.askPrice ∧ opp.sellPrice = sell.quote.bidPrice ∧
      0 < opp.buyPrice ∧ opp.buyPrice < opp.sellPrice ∧ config.minProfitRate ≤ opp.profitRate ∧
      config.minProfitAmount ≤ opp.netProfit ∧
      opp.maxQuantity ≤ min buy.quote.askQuantity sell.quote.bidQuantity ∧
      opp.maxQuantity * opp.buyPrice ≤ config.maxPositionSize ∧
      opp.detectedAtNs = now ∧ opp.validUntilNs = sizeAdd now config.opportunityTtlNs := by
  simp only [checkArbitrageOpportunity] at h
  -- walk the gates
  obtain ⟨hdiff, h⟩ := gate_eq_some_some h
  obtain ⟨rate, hrate, h⟩ := Option.bind_eq_some.1 h
  obtain ⟨hr, h⟩ := gate_eq_some_some h
  obtain ⟨buyName, -, h⟩ := Option.bind_eq_some.1 h
  obtain ⟨sellName, -, h⟩ := Option.bind_eq_some.1 h
  obtain ⟨feeRate, -, h⟩ := Option.bind_eq_some.1 h
  obtain ⟨hn, h⟩ := gate_eq_some_some h
  obtain ⟨q, hq, h⟩ := Option.bind_eq_some.1 h
  obtain ⟨hp, h⟩ := gate_eq_some_some h
  obtain rfl := Option.some.inj (Option.some.inj h).symm
  -- the ask is positive: a negative one gives a negative rate
  obtain ⟨hask0, rfl⟩ := divide?_eq_some.1 hrate
  have hask : 0 < buy.quote.askPrice := by
    rcases lt_or_gt_of_ne hask0 with hneg | hpos
    · exact (hr ((div_neg_of_pos_of_neg (not_le.1 hdiff) hneg).trans hmin)).elim
    · exact hpos
  -- the quantity cap
  have hcap : q ≤ min buy.quote.askQuantity sell.quote.bidQuantity ∧
      q * buy.quote.askPrice ≤ config.maxPositionSize := by
    split_ifs at hq with hcap
    · obtain ⟨-, rfl⟩ := divide?_eq_some.1 hq
      exact ⟨(div_le_iff₀ hask).2 hcap.le, (div_mul_cancel₀ _ hask0).le⟩
    · obtain rfl := Option.some.inj hq
      exact ⟨le_rfl, not_lt.1 hcap⟩
  exact ⟨rfl, rfl, hask, sub_pos.1 (not_le.1 hdiff), not_lt.1 hn, not_lt.1 hp, hcap.1, hcap.2,
    rfl, rfl⟩

/-- The bounds an opportunity records against the feeds it was checked on. -/
theorem checkArbitrageOpportunity_bounds {config : ArbitrageConfig} {buy sell : PriceFeed}
    {buyPad sellPad : UInt8} {symbol : List UInt8} {now : Nat} {opp : ArbitrageOpportunity}
    (hmin : 0 < config.minProfitRate)
    (h : checkArbitrageOpportunity config buy sell buyPad sellPad symbol now = some (some opp)) :
    opp.buyPrice = buy.quote.askPrice ∧ opp.sellPrice = sell.quote.bidPrice ∧
      opp.buyPrice < opp.sellPrice ∧ config.minProfitRate ≤ opp.profitRate ∧
      config.minProfitAmount ≤ opp.netProfit ∧
      opp.maxQuantity ≤ min buy.quote.askQuantity sell.quote.bidQuantity ∧
      opp.maxQuantity * opp.buyPrice ≤ config.maxPositionSize := by
  obtain ⟨h1, h2, -, h3, h4, h5, h6, h7, -⟩ := checkArbitrageOpportunity_spec hmin h
  exact ⟨h1, h2, h3, h4, h5, h6, h7⟩

/-- The names an opportunity records are copied from the buffers it was checked on. -/
theorem checkArbitrageOpportunity_names {config : ArbitrageConfig} {buy sell : PriceFeed}
    {buyPad sellPad : UInt8} {symbol : List UInt8} {now : Nat} {opp : ArbitrageOpportunity}
    (h : checkArbitrageOpportunity config buy sell buyPad sellPad symbol now = some (some opp)) :
    opp.symbol = strncpyFrom symbol ∧ opp.buyExchange = strncpyFrom buy.exchange ∧
      opp.sellExchange = strncpyFrom sell.exchange := by
  unfold checkArbitrageOpportunity at h
  obtain ⟨-, h⟩ := gate_eq_some_some h
  obtain ⟨_, -, h⟩ := Option.bind_eq_some.1 h
  obtain ⟨-, h⟩ := gate_eq_some_some h
  obtain ⟨_, -, h⟩ := Option.bind_eq_some.1 h
  obtain ⟨_, -, h⟩ := Option.bind_eq_some.1 h
  obtain ⟨_, -, h⟩ := Option.bind_eq_some.1 h
  obtain ⟨-, h⟩ := gate_eq_some_some h
  obtain ⟨_, -, h⟩ := Option.bind_eq_some.1 h
  obtain ⟨-, h⟩ := gate_eq_some_some h
  obtain rfl := Option.some.inj (Option.some.inj h).symm
  exact ⟨rfl, rfl, rfl⟩

/-- Copying a stored name again gives the stored name. -/
theorem strncpyFrom_strncpy15 {x : List UInt8} (hx : ∀ b ∈ x, b ≠ 0) :
    strncpyFrom (strncpy15 x) = strncpy15 x := by
  have hz : (List.replicate (15 - x.length) (0 : UInt8)).takeWhile (fun b => b != 0) = [] := by
    cases 15 - x.length <;> simp [List.replicate_succ]
  have hcopy : (strncpy15 x).takeWhile (fun b => b != 0) = x.take 15 := by
    rw [strncpy15, List.takeWhile_append_of_pos
      (fun b hb => by simpa using hx b (List.mem_of_mem_take hb)), hz, List.append_nil]
  rw [strncpyFrom, hcopy]
  simp only [strncpy15, List.take_take, List.length_take, min_self]
  congr 2
  omega

/-- A check is defined when the buy side's ask is not zero and both stored exchange names
    are terminated within their buffers. -/
theorem checkArbitrageOpportunity_isSome (config : ArbitrageConfig) {buy sell : PriceFeed}
    {buyPad sellPad : UInt8} (symbol : List UInt8) (now : Nat) (hask : buy.quote.askPrice ≠ 0)
    (hbuy : 0 ∈ buy.exchange ++ [buyPad]) (hsell : 0 ∈ sell.exchange ++ [sellPad]) :
    (checkArbitrageOpportunity config buy sell buyPad sellPad symbol now).isSome := by
  simp only [checkArbitrageOpportunity, divide?_of_ne_zero _ hask, cstr, if_pos hbuy, if_pos hsell,
    Option.some_bind]
  refine gate_isSome (gate_isSome (gate_isSome ?_))
  split <;> exact gate_isSome rfl

/-! ## The pairs a pass checks -/

/-- The checks of slot `i` among `count`: when `i` is fresh, each fresh `j > i` gives the
    pair `(i, j)` then `(j, i)`, as (buy slot, sell slot). -/
def candidateRow (fresh : Nat → Bool) (count i : Nat) : List (Nat × Nat) :=
  if fresh i then (List.range' (i + 1) (count - (i + 1))).flatMap fun j =>
    if fresh j then [(i, j), (j, i)] else []
  else []

/-- The checks of a symbol with `count` exchanges, in the order of the loops. -/
def candidatePairs (fresh : Nat → Bool) (count : Nat) : List (Nat × Nat) :=
  (List.range count).flatMap (candidateRow fresh count)

theorem mem_candidateRow {fresh : Nat → Bool} {count i : Nat} {p : Nat × Nat} :
    p ∈ candidateRow fresh count i ↔ fresh i = true ∧
      ∃ j, i < j ∧ j < count ∧ fresh j = true ∧ (p = (i, j) ∨ p = (j, i)) := by
  unfold candidateRow
  split_ifs with hfi
  · simp only [List.mem_flatMap, List.mem_range'_1, hfi, true_and]
    constructor
    · rintro ⟨j, ⟨h1, h2⟩, hp⟩
      split_ifs at hp with hfj
      · simp only [List.mem_cons, List.mem_singleton, List.not_mem_nil, or_false] at hp
        exact ⟨j, by omega, by omega, hfj, hp⟩
      · exact absurd hp (List.not_mem_nil p)
    · rintro ⟨j, h1, h2, hfj, hp⟩
      refine ⟨j, ⟨by omega, by omega⟩, ?_⟩
      rw [if_pos hfj]
      rcases hp with rfl | rfl <;> simp
  · simp [hfi]

/-- The pairs checked are the ordered pairs of distinct fresh slots. -/
theorem mem_candidatePairs {fresh : Nat → Bool} {count : Nat} {p : Nat × Nat} :
    p ∈ candidatePairs fresh count ↔
      p.1 < count ∧ p.2 < count ∧ p.1 ≠ p.2 ∧ fresh p.1 = true ∧ fresh p.2 = true := by
  obtain ⟨b, l⟩ := p
  simp only [candidatePairs, List.mem_flatMap, List.mem_range, mem_candidateRow]
  constructor
  · rintro ⟨i, -, hfi, j, hij, hj, hfj, (⟨rfl, rfl⟩ | ⟨rfl, rfl⟩)⟩ <;> simp [*] <;> omega
  · rintro ⟨hb, hl, hne, hfb, hfl⟩
    rcases Nat.lt_or_gt_of_ne hne with h | h
    · exact ⟨b, hb, hfb, l, h, hl, hfl, .inl rfl⟩
    · exact ⟨l, hl, hfl, b, h, hb, hfb, .inr rfl⟩

/-- No pair is checked twice. -/
theorem nodup_candidatePairs (fresh : Nat → Bool) (count : Nat) :
    (candidatePairs fresh count).Nodup := by
  -- a pair of row `i` has `i` as its smaller slot
  have hmin : ∀ i p, p ∈ candidateRow fresh count i → min p.1 p.2 = i := fun i p hp => by
    obtain ⟨-, j, hij, -, -, rfl | rfl⟩ := mem_candidateRow.1 hp <;> simp <;> omega
  refine List.nodup_flatMap.2 ⟨fun i _ => ?_, (List.nodup_range count).imp fun hne p hp hp' =>
    hne ((hmin _ p hp).symm.trans (hmin _ p hp'))⟩
  unfold candidateRow
  split_ifs with hfi
  · refine List.nodup_flatMap.2 ⟨fun j hj => ?_, (List.nodup_range' _ _).imp fun hne p hp hp' => ?_⟩
    · rw [List.mem_range'_1] at hj
      split_ifs
      · simp only [List.nodup_cons, List.mem_singleton, Prod.mk.injEq, List.not_mem_nil,
          not_false_eq_true, List.nodup_nil, and_true]
        omega
      · exact List.nodup_nil
    · obtain ⟨b, l⟩ := p
      simp only [Function.onFun] at hp hp'
      split_ifs at hp hp' <;> simp at hp hp'
      omega
  · exact List.nodup_nil

/-! ## A pass -/

/-- A feed is fresh at `now` unless `now - timestamp_ns > 1 s` on `uint64_t`. -/
def isFresh (now : Nat) (feed : PriceFeed) : Bool := decide (sizeSub now feed.timestampNs ≤ 1000000000)

namespace ArbitrageDetector

/-- The pairs symbol slot `s` checks at `now`. -/
def pairsOf (d : ArbitrageDetector) (now s : Nat) : List (Nat × Nat) :=
  candidatePairs (fun i => isFresh now ((d.symbolPrices s).feeds i)) (d.symbolPrices s).exchangeCount

/-- The check of slot `p.1` as buy and `p.2` as sell on symbol slot `s`. -/
def checkPair (d : ArbitrageDetector) (config : ArbitrageConfig) (stamp : Nat × Nat × Nat → Nat)
    (s : Nat) (p : Nat × Nat) : Option (Option ArbitrageOpportunity) :=
  let sp := d.symbolPrices s
  checkArbitrageOpportunity config (sp.feeds p.1) (sp.feeds p.2) (d.pad s p.1) (d.pad s p.2)
    sp.symbol (stamp (s, p.1, p.2))

/-- The body of the symbol loop for slot `s`: nothing below two exchanges; a feed past
    `MAX_EXCHANGES` is outside the array, undefined. -/
def symbolPass (d : ArbitrageDetector) (config : ArbitrageConfig) (now : Nat)
    (stamp : Nat × Nat × Nat → Nat) (o : Opportunities) (s : Nat) : Option Opportunities :=
  let count := (d.symbolPrices s).exchangeCount
  if count < 2 then some o
  else if maxExchanges < count then none
  else (d.pairsOf now s).foldlM (fun o p => (d.checkPair config stamp s p).bind o.record) o

/-- `detectOpportunities()`, reading the clock at `now`: nothing unless `running`; a symbol
    slot past `MAX_SYMBOLS` is outside the array, undefined. -/
def detectOpportunities (d : ArbitrageDetector) (config : ArbitrageConfig) (running : Bool)
    (now : Nat) (stamp : Nat × Nat × Nat → Nat) (o : Opportunities) : Option Opportunities :=
  if !running then some o
  else if maxSymbols < d.symbolCount then none
  else (List.range d.symbolCount).foldlM (d.symbolPass config now stamp) o

/-- The opportunities the checks of symbol slot `s` create, in order. -/
def opportunitiesOf (d : ArbitrageDetector) (config : ArbitrageConfig) (now : Nat)
    (stamp : Nat × Nat × Nat → Nat) (s : Nat) : List ArbitrageOpportunity :=
  (d.pairsOf now s).filterMap fun p => (d.checkPair config stamp s p).join

end ArbitrageDetector

/-! ## What a pass pushes -/

namespace Opportunities

/-- With room in the ring, `record` appends the opportunity and counts it. -/
theorem record_spec {o : Opportunities} (hbuf : o.buffer.Inv) (x : Option ArbitrageOpportunity)
    (hroom : o.buffer.toList.length + x.toList.length ≤ o.buffer.capacity - 1) :
    ∃ o', o.record x = some o' ∧ o'.buffer.Inv ∧ o'.buffer.capacity = o.buffer.capacity ∧
      o'.buffer.toList = o.buffer.toList ++ x.toList ∧
      o'.detectedCount = if x.isSome then sizeAdd o.detectedCount 1 else o.detectedCount := by
  cases x with
  | none => exact ⟨o, rfl, hbuf, rfl, by simp, rfl⟩
  | some opp =>
    obtain ⟨r, hpush, hr, hcap, hl⟩ := RingBuffer.push_spec hbuf opp
    have hfits : o.buffer.toList.length < o.buffer.capacity - 1 := by
      simp only [Option.toList_some, List.length_singleton] at hroom
      have := hbuf.two_le
      omega
    refine ⟨⟨r, sizeAdd o.detectedCount 1⟩, ?_, hr, hcap, by rw [hl, if_pos hfits]; rfl, rfl⟩
    simp [record, hpush, hfits]

/-- A run of checks, all defined, with room for what they create: the ring gets their
    opportunities in order, and the counter counts them. -/
theorem foldlM_record {α : Type} (f : α → Option (Option ArbitrageOpportunity)) :
    ∀ (l : List α) (o : Opportunities), (∀ a ∈ l, (f a).isSome) → o.buffer.Inv →
      o.detectedCount < wordSize →
      o.buffer.toList.length + (l.filterMap fun a => (f a).join).length ≤ o.buffer.capacity - 1 →
      ∃ o', l.foldlM (fun o a => (f a).bind o.record) o = some o' ∧ o'.buffer.Inv ∧
        o'.buffer.capacity = o.buffer.capacity ∧
        o'.buffer.toList = o.buffer.toList ++ l.filterMap (fun a => (f a).join) ∧
        o'.detectedCount = (o.detectedCount + (l.filterMap fun a => (f a).join).length) % wordSize
  | [], o, _, hbuf, hg, _ => ⟨o, rfl, hbuf, rfl, by simp, by simp [Nat.mod_eq_of_lt hg]⟩
  | a :: l, o, hdef, hbuf, hg, hroom => by
    obtain ⟨x, hx⟩ := Option.isSome_iff_exists.1 (hdef a (List.mem_cons_self _ _))
    have hfm : (a :: l).filterMap (fun a => (f a).join) = x.toList ++ l.filterMap fun a => (f a).join := by
      cases x <;> simp [List.filterMap_cons, hx]
    rw [hfm, List.length_append] at hroom
    obtain ⟨o₁, h₁, hbuf₁, hcap₁, hl₁, hc₁⟩ := record_spec hbuf x (by omega)
    have hg₁ : o₁.detectedCount < wordSize := by
      rw [hc₁]; split_ifs
      · exact Nat.mod_lt _ (by decide)
      · exact hg
    obtain ⟨o', h', hbuf', hcap', hl', hc'⟩ := foldlM_record f l o₁
      (fun a ha => hdef a (List.mem_cons_of_mem _ ha)) hbuf₁ hg₁
      (by rw [hl₁, hcap₁, List.length_append]; omega)
    refine ⟨o', by simp [List.foldlM_cons, hx, h₁, h'],
      hbuf', hcap'.trans hcap₁, by rw [hl', hl₁, hfm, List.append_assoc], ?_⟩
    rw [hc', hc₁, hfm, List.length_append]
    cases x <;> simp [sizeAdd, Nat.mod_eq_of_lt hg, Nat.add_assoc, Nat.add_comm 1]

end Opportunities

theorem candidatePairs_of_lt_two (fresh : Nat → Bool) {count : Nat} (h : count < 2) :
    candidatePairs fresh count = [] :=
  List.eq_nil_iff_forall_not_mem.2 fun p hp => by
    have := mem_candidatePairs.1 hp
    omega

namespace ArbitrageDetector

open Opportunities

/-- Below `MAX_EXCHANGES` exchanges the body of the symbol loop runs the checks of the
    symbol's pairs; with fewer than two there are none. -/
theorem symbolPass_eq (d : ArbitrageDetector) (config : ArbitrageConfig) (now : Nat)
    (stamp : Nat × Nat × Nat → Nat) (o : Opportunities) {s : Nat}
    (h : (d.symbolPrices s).exchangeCount ≤ maxExchanges) :
    d.symbolPass config now stamp o s =
      (d.pairsOf now s).foldlM (fun o p => (d.checkPair config stamp s p).bind o.record) o := by
  dsimp only [symbolPass]
  split_ifs with h2 h10
  · rw [pairsOf, candidatePairs_of_lt_two _ h2]; rfl
  · omega
  · rfl

/-- The symbol loop over `ss`: every check defined and room for what they create. -/
theorem foldlM_symbolPass (d : ArbitrageDetector) (config : ArbitrageConfig) (now : Nat)
    (stamp : Nat × Nat × Nat → Nat) :
    ∀ (ss : List Nat) (o : Opportunities),
      (∀ s ∈ ss, (d.symbolPrices s).exchangeCount ≤ maxExchanges) →
      (∀ s ∈ ss, ∀ p ∈ d.pairsOf now s, (d.checkPair config stamp s p).isSome) →
      o.buffer.Inv → o.detectedCount < wordSize →
      o.buffer.toList.length + (ss.flatMap (d.opportunitiesOf config now stamp)).length ≤
        o.buffer.capacity - 1 →
      ∃ o', ss.foldlM (d.symbolPass config now stamp) o = some o' ∧ o'.buffer.Inv ∧
        o'.buffer.capacity = o.buffer.capacity ∧
        o'.buffer.toList = o.buffer.toList ++ ss.flatMap (d.opportunitiesOf config now stamp) ∧
        o'.detectedCount =
          (o.detectedCount + (ss.flatMap (d.opportunitiesOf config now stamp)).length) % wordSize
  | [], o, _, _, hbuf, hg, _ => ⟨o, rfl, hbuf, rfl, by simp, by simp [Nat.mod_eq_of_lt hg]⟩
  | s :: ss, o, hex, hdef, hbuf, hg, hroom => by
    rw [List.flatMap_cons, List.length_append] at hroom
    obtain ⟨o₁, h₁, hbuf₁, hcap₁, hl₁, hc₁⟩ := foldlM_record (d.checkPair config stamp s)
      (d.pairsOf now s) o (hdef s (List.mem_cons_self _ _)) hbuf hg (by unfold opportunitiesOf at hroom; omega)
    obtain ⟨o', h', hbuf', hcap', hl', hc'⟩ := foldlM_symbolPass d config now stamp ss o₁
      (fun s hs => hex s (List.mem_cons_of_mem _ hs)) (fun s hs => hdef s (List.mem_cons_of_mem _ hs))
      hbuf₁ (hc₁ ▸ Nat.mod_lt _ (by decide)) (by rw [hl₁, hcap₁, List.length_append]; unfold opportunitiesOf at hroom ⊢; omega)
    refine ⟨o', ?_, hbuf', hcap'.trans hcap₁, ?_, ?_⟩
    · rw [List.foldlM_cons, symbolPass_eq d config now stamp o (hex s (List.mem_cons_self _ _)), h₁]
      exact h'
    · rw [hl', hl₁, List.flatMap_cons, List.append_assoc]; rfl
    · rw [hc', hc₁, List.flatMap_cons, List.length_append, Nat.mod_add_mod, Nat.add_assoc]; rfl

/-- A pass while running over a matrix of at most `MAX_SYMBOLS` symbols of at most
    `MAX_EXCHANGES` exchanges, whose fresh feeds have nonzero asks and terminated names,
    with room in the ring: it pushes the opportunities of every symbol's checks, in order,
    and counts them. -/
theorem detectOpportunities_eq (config : ArbitrageConfig) (now : Nat)
    (stamp : Nat × Nat × Nat → Nat) {d : ArbitrageDetector} {o : Opportunities}
    (hsym : d.symbolCount ≤ maxSymbols)
    (hex : ∀ s < d.symbolCount, (d.symbolPrices s).exchangeCount ≤ maxExchanges)
    (hask : ∀ s < d.symbolCount, ∀ i < (d.symbolPrices s).exchangeCount,
      isFresh now ((d.symbolPrices s).feeds i) = true → ((d.symbolPrices s).feeds i).quote.askPrice ≠ 0)
    (hname : ∀ s < d.symbolCount, ∀ i < (d.symbolPrices s).exchangeCount,
      0 ∈ ((d.symbolPrices s).feeds i).exchange ++ [d.pad s i])
    (hbuf : o.buffer.Inv) (hg : o.detectedCount < wordSize)
    (hroom : o.buffer.toList.length +
      ((List.range d.symbolCount).flatMap (d.opportunitiesOf config now stamp)).length ≤
        o.buffer.capacity - 1) :
    ∃ o', d.detectOpportunities config true now stamp o = some o' ∧ o'.buffer.Inv ∧
      o'.buffer.toList =
        o.buffer.toList ++ (List.range d.symbolCount).flatMap (d.opportunitiesOf config now stamp) ∧
      o'.detectedCount = (o.detectedCount +
        ((List.range d.symbolCount).flatMap (d.opportunitiesOf config now stamp)).length) % wordSize := by
  have hdef : ∀ s ∈ List.range d.symbolCount, ∀ p ∈ d.pairsOf now s,
      (d.checkPair config stamp s p).isSome := fun s hs p hp => by
    rw [List.mem_range] at hs
    obtain ⟨h1, h2, -, hf1, -⟩ := mem_candidatePairs.1 hp
    exact checkArbitrageOpportunity_isSome config _ _ (hask s hs p.1 h1 hf1) (hname s hs p.1 h1)
      (hname s hs p.2 h2)
  obtain ⟨o', h', hbuf', -, hl', hc'⟩ := foldlM_symbolPass d config now stamp _ o
    (fun s hs => hex s (List.mem_range.1 hs)) hdef hbuf hg hroom
  refine ⟨o', ?_, hbuf', hl', hc'⟩
  rw [detectOpportunities, if_neg (by decide), if_neg (not_lt.2 hsym)]
  exact h'

/-- Every opportunity of a symbol's checks comes from an ordered pair of distinct fresh
    slots and meets the bounds of `checkArbitrageOpportunity_bounds` for their feeds. -/
theorem opportunitiesOf_bounds {d : ArbitrageDetector} {config : ArbitrageConfig} {now : Nat}
    {stamp : Nat × Nat × Nat → Nat} {s : Nat} {opp : ArbitrageOpportunity}
    (hmin : 0 < config.minProfitRate) (h : opp ∈ d.opportunitiesOf config now stamp s) :
    ∃ b l, (b, l) ∈ d.pairsOf now s ∧
      let buy := ((d.symbolPrices s).feeds b).quote
      let sell := ((d.symbolPrices s).feeds l).quote
      opp.buyPrice = buy.askPrice ∧ opp.sellPrice = sell.bidPrice ∧
      opp.buyPrice < opp.sellPrice ∧ config.minProfitRate ≤ opp.profitRate ∧
      config.minProfitAmount ≤ opp.netProfit ∧
      opp.maxQuantity ≤ min buy.askQuantity sell.bidQuantity ∧
      opp.maxQuantity * opp.buyPrice ≤ config.maxPositionSize := by
  obtain ⟨⟨b, l⟩, hp, hj⟩ := List.mem_filterMap.1 h
  exact ⟨b, l, hp, checkArbitrageOpportunity_bounds hmin (Option.join_eq_some.1 hj)⟩

/-- A pass whose first check, on the first symbol, is undefined is undefined. -/
theorem detectOpportunities_of_check_none (d : ArbitrageDetector) (config : ArbitrageConfig)
    (now : Nat) (stamp : Nat × Nat × Nat → Nat) (o : Opportunities) {n : Nat} {p : Nat × Nat}
    {ps : List (Nat × Nat)} (hn : d.symbolCount = n + 1) (hsym : d.symbolCount ≤ maxSymbols)
    (hex : (d.symbolPrices 0).exchangeCount ≤ maxExchanges) (hp : d.pairsOf now 0 = p :: ps)
    (hcheck : d.checkPair config stamp 0 p = none) :
    d.detectOpportunities config true now stamp o = none := by
  rw [detectOpportunities, if_neg (by decide), if_neg (not_lt.2 hsym), hn, List.range_succ_eq_map,
    List.foldlM_cons, symbolPass_eq d config now stamp o hex, hp, List.foldlM_cons, hcheck]
  rfl

end ArbitrageDetector

/-! ## A zero ask -/

/-- Exchange `A` quotes `BTC` with bid `100` and ask `0`, then exchange `B` with bid `101`
    and ask `102`, both at clock `0`. -/
def zeroAskFeeds : List FeedCall :=
  [⟨⟨[65], by decide⟩, ⟨[66, 84, 67], by decide⟩, ⟨100, 1, 0, 1⟩, 0⟩,
    ⟨⟨[66], by decide⟩, ⟨[66, 84, 67], by decide⟩, ⟨101, 1, 102, 1⟩, 0⟩]

/-- A pass at clock `0` from the default configuration first checks `A` as buy and `B` as
    sell: the price difference `101` is positive and is divided by `A`'s ask `0`. -/
theorem zero_ask_divides_by_zero (stamp : Nat × Nat × Nat → Nat) :
    ∃ d, (ArbitrageDetector.new fun _ _ => 0).runFeeds zeroAskFeeds = some d ∧
      (d.symbolPrices 0).exchangeCount = 2 ∧
      ((d.symbolPrices 0).feeds 0).quote.askPrice = 0 ∧
      d.detectOpportunities .default true 0 stamp .new = none := by
  obtain ⟨d, hd⟩ : ∃ d, (ArbitrageDetector.new fun _ _ => 0).runFeeds zeroAskFeeds = some d :=
    ⟨_, rfl⟩
  have hq0 : ((d.symbolPrices 0).feeds 0).quote = ⟨100, 1, 0, 1⟩ := by cases hd; rfl
  have hq1 : ((d.symbolPrices 0).feeds 1).quote = ⟨101, 1, 102, 1⟩ := by cases hd; rfl
  have hex : (d.symbolPrices 0).exchangeCount = 2 := by cases hd; rfl
  refine ⟨d, hd, hex, by rw [hq0], ?_⟩
  refine @ArbitrageDetector.detectOpportunities_of_check_none d _ _ _ _ 0 (0, 1) [(1, 0)]
    (by cases hd; rfl) (by cases hd; decide) (by rw [hex]; decide)
    (by cases hd; rfl) ?_
  simp only [ArbitrageDetector.checkPair, checkArbitrageOpportunity, hq0, hq1]
  norm_num

end Arbitrage

end OmsCore
