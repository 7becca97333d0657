import OmsCore.MarketMaker.StopLoss
import OmsCore.RingBuffer.Invariant
import Mathlib.Tactic.Ring

/-! # One quoting cycle

    `generateQuotes` clears `current_quotes_`, asks `generateQuoteLevel` for a bid and an
    ask at each level until the `MAX_QUOTES` slots are taken, and pushes the quotes. Slot
    `i` then holds the quote of level `i / 2`, a bid when `i` is even (`quoteLevels_eq`),
    and the ring holds what fitted (`generateQuotes_eq`).

    Both inventory branches of `generateQuoteLevel` scale a bid by `1 + a` and an ask by
    `1 - a`, where `a = |position / max_inventory| · inventory_skew / 2` is the inventory
    bias (`generateQuoteLevel_eq`). Under the spread bounds of the configuration every bid
    is positive, an ask is positive exactly when `a < 1`, and every bid lies below every
    ask when `a` is below the spread (`quotes_positive_uncrossed`); a long position of five
    times `max_inventory` gives a negative ask (`large_inventory_negative_ask`).
-/

namespace OmsCore

namespace MarketMaker

/-! ## Prices in closed form -/

/-- The inventory bias of `generateQuoteLevel`: `|position / max_inventory| · inventory_skew · 0.5`. -/
def inventoryBias (config : MarketMakerConfig) (position : ℚ) : ℚ :=
  |position / config.maxInventory| * config.inventorySkew * (1 / 2)

/-- `level_spread`: the spread of `level`, widened by `level_spacing_bps` per level. -/
def levelSpread (config : MarketMakerConfig) (spread : ℚ) (level : Int) : ℚ :=
  spread * (1 + level * config.levelSpacingBps / 10000)

/-- The price `generateQuoteLevel` gives, in closed form: a bid `mid · (1 - s) · (1 + a)`, an
    ask `mid · (1 + s) · (1 - a)`, for `s` the level's spread and `a` the inventory bias. -/
def quotePrice (config : MarketMakerConfig) (position : ℚ) (side : Side) (midPrice spread : ℚ)
    (level : Int) : ℚ :=
  match side with
  | .buy => midPrice * (1 - levelSpread config spread level) * (1 + inventoryBias config position)
  | .sell => midPrice * (1 + levelSpread config spread level) * (1 - inventoryBias config position)

/-- The side of slot `i` of a cycle: a bid at even slots, an ask at odd ones. -/
def slotSide (i : Nat) : Side := if i % 2 = 0 then .buy else .sell

/-- The quote a cycle writes into slot `i`, reading the clock at `clock i`. -/
def cycleQuote (config : MarketMakerConfig) (position midPrice spread : ℚ) (clock : Nat → Nat)
    (i : Nat) : MMQuote :=
  ⟨"BTCUSDT", "binance", slotSide i,
    quotePrice config position (slotSide i) midPrice spread (i / 2 : Nat), config.quoteSize,
    (i / 2 : Nat), clock i⟩

theorem inventoryBias_nonneg {config : MarketMakerConfig} (h : 0 ≤ config.inventorySkew)
    (position : ℚ) : 0 ≤ inventoryBias config position :=
  mul_nonneg (mul_nonneg (abs_nonneg _) h) (by norm_num)

/-- Within the first ten levels the level spread stays in `[spread, 1)`. -/
theorem levelSpread_bounds {config : MarketMakerConfig} {spread : ℚ} {level : Nat}
    (hs : 0 < spread) (hsmax : spread ≤ config.maxSpreadBps / 10000)
    (hsp : 0 ≤ config.levelSpacingBps)
    (hwide : config.maxSpreadBps * (1 + 9 * config.levelSpacingBps / 10000) < 10000)
    (hl : level ≤ 9) :
    spread ≤ levelSpread config spread level ∧ levelSpread config spread level < 1 := by
  have hl' : (level : ℚ) ≤ 9 := by exact_mod_cast hl
  have hw : 1 ≤ 1 + (level : ℚ) * config.levelSpacingBps / 10000 :=
    le_add_of_nonneg_right (div_nonneg (mul_nonneg (Nat.cast_nonneg _) hsp) (by norm_num))
  refine ⟨le_mul_of_one_le_right hs.le hw, ?_⟩
  calc levelSpread config spread level
      ≤ config.maxSpreadBps / 10000 * (1 + 9 * config.levelSpacingBps / 10000) := by
        unfold levelSpread
        push_cast
        exact mul_le_mul hsmax (add_le_add_left (div_le_div_of_nonneg_right
          (mul_le_mul_of_nonneg_right hl' hsp) (by norm_num)) 1) (zero_le_one.trans hw)
          (hs.le.trans hsmax)
    _ < 1 := by rw [div_mul_eq_mul_div, div_lt_one (by norm_num)]; exact hwide

/-- `calculateSpread` clamps into `[min_spread_bps, max_spread_bps] / 10000`. -/
theorem calculateSpread_bounds {config : MarketMakerConfig} {market : MarketSnapshot}
    {inventory : InventorySnapshot} {spread : ℚ}
    (h : calculateSpread config market inventory = some spread)
    (hminmax : config.minSpreadBps ≤ config.maxSpreadBps) :
    config.minSpreadBps / 10000 ≤ spread ∧ spread ≤ config.maxSpreadBps / 10000 := by
  obtain ⟨skew, -, rfl⟩ := Option.map_eq_some'.1 h
  exact ⟨le_max_left _ _, max_le (by linarith) (min_le_left _ _)⟩

theorem calculateSpread_some (config : MarketMakerConfig) (market : MarketSnapshot)
    (inventory : InventorySnapshot) (h : config.maxInventory ≠ 0) :
    ∃ spread, calculateSpread config market inventory = some spread := by
  rw [calculateSpread, getInventorySkew, divide?_of_ne_zero _ h]
  exact ⟨_, rfl⟩

/-- A bid is below an ask when the bias is below the spread both levels widen. -/
theorem bid_lt_ask {midPrice spread a s s' : ℚ} (hmid : 0 < midPrice) (ha : 0 ≤ a)
    (ha1 : a ≤ 1) (has : a < spread) (hs : spread ≤ s) (hs' : spread ≤ s') :
    midPrice * (1 - s) * (1 + a) < midPrice * (1 + s') * (1 - a) := by
  have key : (1 - s) * (1 + a) < (1 + s') * (1 - a) :=
    calc (1 - s) * (1 + a)
        ≤ (1 - spread) * (1 + a) := mul_le_mul_of_nonneg_right (by linarith) (by linarith)
      _ < (1 + spread) * (1 - a) := by linarith
      _ ≤ (1 + s') * (1 - a) := mul_le_mul_of_nonneg_right (by linarith) (by linarith)
  rw [mul_assoc, mul_assoc]
  exact mul_lt_mul_of_pos_left key hmid

namespace MarketMakerEngine

/-! ## The level loop -/

/-- The engine with `n` slots of `current_quotes_` taken, holding `quotes`. -/
def withQuotes (e : MarketMakerEngine) (n : Nat) (quotes : Nat → MMQuote) : MarketMakerEngine :=
  { e with activeQuotes := n, currentQuotes := quotes }

/-- Below `MAX_QUOTES`, `generateQuoteLevel` takes the next slot for a quote at the price
    `quotePrice` gives. -/
theorem generateQuoteLevel_eq (e : MarketMakerEngine) (n : Nat) (quotes : Nat → MMQuote)
    (symbol : String) (side : Side) (midPrice spread : ℚ) (level : Int) (now : Nat)
    (hinv : e.config.maxInventory ≠ 0) (hn : n < maxQuotes) :
    (e.withQuotes n quotes).generateQuoteLevel symbol side midPrice spread level now =
      some (e.withQuotes (n + 1) (Function.update quotes n ⟨symbol, "binance", side,
        quotePrice e.config e.inventoryState.position side midPrice spread level,
        e.config.quoteSize, level, now⟩)) := by
  simp only [generateQuoteLevel, withQuotes, ge_iff_le, if_neg (not_le.2 hn),
    divide?_of_ne_zero _ hinv, Option.map_some', Option.some.injEq, MarketMakerEngine.mk.injEq,
    true_and, and_true]
  rcases lt_trichotomy (e.inventoryState.position / e.config.maxInventory) 0 with h | h | h <;>
    cases side <;> simp [h, quotePrice, levelSpread, inventoryBias, not_lt_of_lt, le_of_lt]

theorem generateQuoteLevel_full (e : MarketMakerEngine) (symbol : String) (side : Side)
    (midPrice spread : ℚ) (level : Int) (now : Nat) (hidx : maxQuotes ≤ e.activeQuotes) :
    e.generateQuoteLevel symbol side midPrice spread level now = some e := if_pos hidx

theorem quoteLevels_snoc (e : MarketMakerEngine) (midPrice spread : ℚ) (clock : Nat → Nat)
    (levels : List Nat) (level : Nat) :
    e.quoteLevels midPrice spread clock (levels ++ [level]) =
      (e.quoteLevels midPrice spread clock levels).bind fun e =>
        (e.generateQuoteLevel "BTCUSDT" .buy midPrice spread level (clock e.activeQuotes)).bind
          fun e => e.generateQuoteLevel "BTCUSDT" .sell midPrice spread level (clock e.activeQuotes) := by
  simp only [quoteLevels, List.foldlM_append, List.foldlM_cons, List.foldlM_nil, bind_pure]
  rfl

/-- After `L` levels from empty slots, the first `min (2L) MAX_QUOTES` slots hold the
    cycle's quotes. -/
theorem quoteLevels_eq (e : MarketMakerEngine) (midPrice spread : ℚ) (clock : Nat → Nat)
    (hinv : e.config.maxInventory ≠ 0) (L : Nat) :
    ∃ quotes, (e.withQuotes 0 e.currentQuotes).quoteLevels midPrice spread clock (List.range L) =
      some (e.withQuotes (min (2 * L) maxQuotes) quotes) ∧
      ∀ i < min (2 * L) maxQuotes,
        quotes i = cycleQuote e.config e.inventoryState.position midPrice spread clock i := by
  induction L with
  | zero => exact ⟨e.currentQuotes, rfl, fun i hi => absurd hi (Nat.not_lt_zero i)⟩
  | succ L ih =>
    obtain ⟨quotes, hrun, hq⟩ := ih
    rw [List.range_succ, quoteLevels_snoc, hrun, Option.some_bind]
    by_cases hL : 2 * L < maxQuotes
    · -- a bid into slot `2L`, an ask into slot `2L + 1`
      have h1 : min (2 * L) maxQuotes = 2 * L := min_eq_left hL.le
      have h2 : min (2 * (L + 1)) maxQuotes = 2 * L + 2 :=
        min_eq_left (by unfold maxQuotes at hL ⊢; omega)
      rw [h1, h2, generateQuoteLevel_eq _ _ _ _ _ _ _ _ _ hinv hL, Option.some_bind,
        generateQuoteLevel_eq _ _ _ _ _ _ _ _ _ hinv (by unfold maxQuotes at hL ⊢; omega)]
      refine ⟨_, rfl, fun i hi => ?_⟩
      rcases Nat.lt_or_ge i (2 * L) with hi' | hi'
      · rw [Function.update_noteq (by omega), Function.update_noteq (by omega), hq i (by rwa [h1])]
      · have hb : 2 * L % 2 = 0 ∧ 2 * L / 2 = L := by omega
        have hs : (2 * L + 1) % 2 = 1 ∧ (2 * L + 1) / 2 = L := by omega
        rcases (show i = 2 * L ∨ i = 2 * L + 1 by omega) with rfl | rfl
        · rw [Function.update_noteq (by omega), Function.update_same]
          simp [cycleQuote, slotSide, withQuotes, hb]
        · rw [Function.update_same]
          simp [cycleQuote, slotSide, withQuotes, hs]
    · -- every slot is taken: both calls undo their `fetch_add`
      have h1 : min (2 * L) maxQuotes = maxQuotes := min_eq_right (by omega)
      have h2 : min (2 * (L + 1)) maxQuotes = maxQuotes := min_eq_right (by omega)
      rw [h1, h2, generateQuoteLevel_full _ _ _ _ _ _ _ le_rfl, Option.some_bind,
        generateQuoteLevel_full _ _ _ _ _ _ _ le_rfl]
      exact ⟨quotes, rfl, fun i hi => hq i (by rwa [h1])⟩

/-! ## The push loop -/

/-- Pushing `x` onto a queue cut at `c` cuts the extended queue at `c`: once full, the
    queue stays full and drops what comes. -/
theorem take_push {α : Type} (l : List α) (c : Nat) (x : α) :
    (if (l.take c).length < c then l.take c ++ [x] else l.take c) = (l ++ [x]).take c := by
  by_cases hl : l.length < c
  · rw [List.take_of_length_le hl.le, if_pos hl, List.take_of_length_le (by simp; omega)]
  · rw [List.length_take, if_neg (by omega), List.take_append_of_le_length (by omega)]

theorem pushQuotes_snoc (e : MarketMakerEngine) (n : Nat) :
    e.pushQuotes (n + 1) = (e.pushQuotes n).bind fun e =>
      (e.quoteBuffer.push (e.currentQuotes n)).map fun r =>
        { e with quoteBuffer := r.2, quotesGenerated := sizeAdd e.quotesGenerated 1 } := by
  simp only [pushQuotes, List.range_succ, List.foldlM_append, List.foldlM_cons, List.foldlM_nil,
    bind_pure]
  rfl

/-- `n` pushes append the first `n` quotes to the queue, cut at `capacity - 1`, and add `n`
    to `quotes_generated` whether or not they fitted. -/
theorem pushQuotes_eq (e : MarketMakerEngine) (n : Nat) (hbuf : e.quoteBuffer.Inv)
    (hg : e.quotesGenerated < wordSize) :
    ∃ r, e.pushQuotes n =
        some { e with quoteBuffer := r, quotesGenerated := (e.quotesGenerated + n) % wordSize } ∧
      r.Inv ∧ r.capacity = e.quoteBuffer.capacity ∧
      r.toList = (e.quoteBuffer.toList ++ (List.range n).map e.currentQuotes).take
        (e.quoteBuffer.capacity - 1) := by
  induction n with
  | zero =>
    refine ⟨e.quoteBuffer, by simp [pushQuotes, Nat.mod_eq_of_lt hg], hbuf, rfl, ?_⟩
    have := hbuf.size_lt
    rw [List.range_zero, List.map_nil, List.append_nil,
      List.take_of_length_le (by rw [RingBuffer.length_toList]; omega)]
  | succ n ih =>
    obtain ⟨r, hrun, hr, hcap, hl⟩ := ih
    obtain ⟨r', hpush, hr', hcap', hl'⟩ := RingBuffer.push_spec hr (e.currentQuotes n)
    refine ⟨r', ?_, hr', hcap'.trans hcap, ?_⟩
    · rw [pushQuotes_snoc, hrun, Option.some_bind]
      simp only [hpush, Option.map_some', sizeAdd, Nat.mod_add_mod, Nat.add_assoc]
    · rw [hl', hl, hcap, take_push, List.range_succ, List.map_append, List.map_singleton,
        List.append_assoc]

/-! ## A cycle -/

/-- What holds of every engine `new` builds and the operations keep: the quote ring is
    well formed with its `QUOTE_BUFFER_SIZE` slots, and `quotes_generated` is a `size_t`. -/
structure Inv (e : MarketMakerEngine) : Prop where
  quoteBuffer : e.quoteBuffer.Inv
  capacity : e.quoteBuffer.capacity = quoteBufferSize
  quotesGenerated_lt : e.quotesGenerated < wordSize

/-- `QUOTE_BUFFER_SIZE` is a power of two: the ring has exactly that many slots. -/
theorem new_capacity : (RingBuffer.new quoteBufferSize : RingBuffer MMQuote).capacity =
    quoteBufferSize := by
  have h := nextPowerOfTwo_isLeast (n := quoteBufferSize) (by decide) (by decide)
  exact le_antisymm (h.2.2 10 (by decide)) h.2.1

theorem new_inv (config : MarketMakerConfig) : (new config).Inv :=
  ⟨RingBuffer.new_inv (by decide) (by decide), new_capacity, by norm_num [new, wordSize]⟩

/-- The market and inventory updates, `start` and `stop` leave the ring and the counter. -/
theorem Inv.updateMarketData {e : MarketMakerEngine} (he : e.Inv) (libm : Libm)
    (bidPrice bidSize askPrice askSize lastPrice : ℚ) (now : Nat) :
    (e.updateMarketData libm bidPrice bidSize askPrice askSize lastPrice now).Inv :=
  ⟨he.1, he.2, he.3⟩

theorem Inv.updatePosition {e : MarketMakerEngine} (he : e.Inv) (position avgPrice : ℚ)
    (now : Nat) : (e.updatePosition position avgPrice now).Inv :=
  ⟨he.1, he.2, he.3⟩

theorem Inv.start {e : MarketMakerEngine} (he : e.Inv) : e.start.Inv := ⟨he.1, he.2, he.3⟩

theorem Inv.stop {e : MarketMakerEngine} (he : e.Inv) : e.stop.Inv := ⟨he.1, he.2, he.3⟩

/-- The number of quotes a cycle of `config` writes. -/
def cycleSize (config : MarketMakerConfig) : Nat := min (2 * config.quoteLevels.toNat) maxQuotes

/-- A cycle that runs: the slots hold the cycle's quotes at the clamped spread, the ring has
    them appended and cut at `capacity - 1`, and `quotes_generated` counts them all. -/
theorem generateQuotes_eq (e : MarketMakerEngine) (clock : Nat → Nat) (hrun : e.running = true)
    (hmid : 0 < e.marketState.midPrice) (hbid : 0 < e.marketState.bidPrice)
    (hask : 0 < e.marketState.askPrice) (hinv : e.config.maxInventory ≠ 0) (he : e.Inv) :
    ∃ spread quotes r, calculateSpread e.config e.marketState e.inventoryState = some spread ∧
      e.generateQuotes clock = some { e.withQuotes (cycleSize e.config) quotes with
        quoteBuffer := r
        quotesGenerated := (e.quotesGenerated + cycleSize e.config) % wordSize } ∧
      (∀ i < cycleSize e.config, quotes i =
        cycleQuote e.config e.inventoryState.position e.marketState.midPrice spread clock i) ∧
      r.Inv ∧ r.capacity = quoteBufferSize ∧
      r.toList = (e.quoteBuffer.toList ++ (List.range (cycleSize e.config)).map quotes).take
        (quoteBufferSize - 1) := by
  obtain ⟨spread, hs⟩ := calculateSpread_some e.config e.marketState e.inventoryState hinv
  obtain ⟨quotes, hlv, hq⟩ := quoteLevels_eq e e.marketState.midPrice spread clock hinv
    e.config.quoteLevels.toNat
  obtain ⟨r, hpush, hr, hcap, hl⟩ :=
    pushQuotes_eq (e.withQuotes (cycleSize e.config) quotes) (cycleSize e.config) he.quoteBuffer
      he.quotesGenerated_lt
  refine ⟨spread, quotes, r, hs, ?_, hq, hr, hcap.trans he.capacity,
    by rw [hl]; simp only [withQuotes, he.capacity]⟩
  unfold generateQuotes
  rw [if_neg (by simp [hrun]), if_neg (by simp only [not_or, not_le]; exact
    ⟨hmid, hbid, hask⟩), hs, Option.some_bind]
  exact (congrArg (Option.bind · _) hlv).trans hpush

/-! ## Prices of a cycle -/

/-- With a positive minimum spread no wider than the maximum, nonnegative level spacing and
    skew, a positive `max_inventory`, and the widest level below `10000` bps, one cycle runs;
    in it every bid is positive, an ask is positive exactly when the inventory bias is below
    `1`, and every bid lies below every ask when the bias is below the clamped spread. -/
theorem quotes_positive_uncrossed (e : MarketMakerEngine) (clock : Nat → Nat)
    (hrun : e.running = true) (hbid : 0 < e.marketState.bidPrice)
    (hask : 0 < e.marketState.askPrice) (hmid : 0 < e.marketState.midPrice)
    (hmin : 0 < e.config.minSpreadBps) (hminmax : e.config.minSpreadBps ≤ e.config.maxSpreadBps)
    (hsp : 0 ≤ e.config.levelSpacingBps) (hskew : 0 ≤ e.config.inventorySkew)
    (hinv : 0 < e.config.maxInventory)
    (hwide : e.config.maxSpreadBps * (1 + 9 * e.config.levelSpacingBps / 10000) < 10000)
    (he : e.Inv) :
    ∃ e' spread, e.generateQuotes clock = some e' ∧
      calculateSpread e.config e.marketState e.inventoryState = some spread ∧
      ∀ i < e'.activeQuotes, ∀ j < e'.activeQuotes,
        ((e'.currentQuotes i).side = .buy → 0 < (e'.currentQuotes i).price) ∧
        ((e'.currentQuotes i).side = .sell →
          (0 < (e'.currentQuotes i).price ↔ inventoryBias e.config e.inventoryState.position < 1)) ∧
        ((e'.currentQuotes i).side = .buy → (e'.currentQuotes j).side = .sell →
          inventoryBias e.config e.inventoryState.position < spread →
          (e'.currentQuotes i).price < (e'.currentQuotes j).price) := by
  obtain ⟨spread, quotes, r, hs, hgen, hq, -⟩ :=
    generateQuotes_eq e clock hrun hmid hbid hask hinv.ne' he
  obtain ⟨hsmin, hsmax⟩ := calculateSpread_bounds hs hminmax
  have hs0 : 0 < spread := lt_of_lt_of_le (by positivity) hsmin
  have ha := inventoryBias_nonneg hskew e.inventoryState.position
  -- each slot's level spread lies in `[spread, 1)`
  have hlevel : ∀ i < cycleSize e.config, spread ≤ levelSpread e.config spread (i / 2 : Nat) ∧
      levelSpread e.config spread (i / 2 : Nat) < 1 := fun i hi =>
    levelSpread_bounds hs0 hsmax hsp hwide (by unfold cycleSize maxQuotes at hi; omega)
  refine ⟨_, spread, hgen, hs, fun i hi j hj => ?_⟩
  simp only [withQuotes] at hi hj ⊢
  rw [hq i hi, hq j hj]
  obtain ⟨hi₁, hi₂⟩ := hlevel i hi
  obtain ⟨hj₁, -⟩ := hlevel j hj
  refine ⟨fun hb => ?_, fun ha' => ?_, fun hb ha' has => ?_⟩
  · simp only [cycleQuote] at hb ⊢
    rw [hb, quotePrice]
    exact mul_pos (mul_pos hmid (sub_pos.2 hi₂)) (add_pos_of_pos_of_nonneg one_pos ha)
  · simp only [cycleQuote] at ha' ⊢
    rw [ha', quotePrice, mul_pos_iff_of_pos_left (mul_pos hmid (add_pos one_pos (hs0.trans_le hi₁))),
      sub_pos]
  · simp only [cycleQuote] at hb ha' ⊢
    rw [hb, ha', quotePrice, quotePrice]
    exact bid_lt_ask hmid ha (has.trans (hi₁.trans_lt hi₂)).le has hi₁ hj₁

theorem quotes_positive_uncrossed_default :
    ∃ e', (quotedAt 100).start.generateQuotes (fun _ => 0) = some e' := by
  have hmid : 0 < (quotedAt 100).start.marketState.midPrice := by
    simp only [quotedAt, start, updateMarketData]; norm_num
  obtain ⟨e', -, h, -⟩ := quotes_positive_uncrossed (quotedAt 100).start (fun _ => 0) rfl
    (show (0 : ℚ) < 100 by norm_num) (show (0 : ℚ) < 100 by norm_num) hmid
    (show (0 : ℚ) < 5 by norm_num) (show (5 : ℚ) ≤ 50 by norm_num) (show (0 : ℚ) ≤ 2 by norm_num)
    (show (0 : ℚ) ≤ 1 / 2 by norm_num) (show (0 : ℚ) < 100 by norm_num)
    (show (50 : ℚ) * (1 + 9 * 2 / 10000) < 10000 by norm_num) ((new_inv _).updateMarketData _ _ _ _ _ _ _).start
  exact ⟨e', h⟩

/-- From the default configuration at mid `100`, a long position of `500` (five times
    `max_inventory`, bias `5/4`) makes the level-`0` ask negative and below the bid. -/
theorem large_inventory_negative_ask :
    ∃ e', ((quotedAt 100).updatePosition 500 100 0).start.generateQuotes (fun _ => 0) = some e' ∧
      1 < e'.activeQuotes ∧ (e'.currentQuotes 0).side = .buy ∧ (e'.currentQuotes 1).side = .sell ∧
      (e'.currentQuotes 1).price < 0 ∧ (e'.currentQuotes 1).price < (e'.currentQuotes 0).price := by
  have hmid : 0 < ((quotedAt 100).updatePosition 500 100 0).start.marketState.midPrice := by
    simp only [quotedAt, start, updatePosition, updateMarketData]; norm_num
  obtain ⟨spread, quotes, r, hs, hgen, hq, -⟩ :=
    generateQuotes_eq ((quotedAt 100).updatePosition 500 100 0).start (fun _ => 0) rfl hmid
      (show (0 : ℚ) < 100 by norm_num) (show (0 : ℚ) < 100 by norm_num)
      (show (100 : ℚ) ≠ 0 by norm_num) (((new_inv _).updateMarketData _ _ _ _ _ _ _).updatePosition _ _ _).start
  obtain ⟨hsmin, hsmax⟩ := calculateSpread_bounds hs (show (5 : ℚ) ≤ 50 by norm_num)
  refine ⟨_, hgen, show 1 < cycleSize MarketMakerConfig.default by decide, ?_⟩
  simp only [withQuotes]
  rw [hq 0 (by decide), hq 1 (by decide)]
  simp only [cycleQuote, slotSide, quotePrice, levelSpread, inventoryBias, start, updatePosition,
    quotedAt, updateMarketData, new, MarketMakerConfig.default] at hsmin hsmax ⊢
  norm_num at hsmin hsmax ⊢
  constructor <;> linarith

end MarketMakerEngine

end MarketMaker

end OmsCore
