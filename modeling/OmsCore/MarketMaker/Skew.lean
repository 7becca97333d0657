import OmsCore.MarketMaker.Quotes

/-! # The inventory skew ignores the position's sign

    `getInventorySkew` widens the spread by `|position / max_inventory|`, and both inventory
    branches of `generateQuoteLevel` raise a bid and lower an ask by the same bias
    `|position / max_inventory| · inventory_skew / 2`, although the comments beside them
    mean a long position to make bids less aggressive and a short one to make asks less
    aggressive. A quoting cycle therefore reads the inventory only through the size of the
    position: from engines that differ only in their inventory, with positions of equal
    size, `generateQuotes` gives the same quotes, ring and counters
    (`quotes_ignore_position_sign`). A short position quotes exactly as the long position of
    the same size, and the quotes never lean against the side the engine holds.

    One step of each loop commutes with replacing the inventory (`generateQuoteLevel_inventory`,
    `pushQuotes` reads none of it), and `foldlM_map_comm` carries that through the loops.
-/

namespace OmsCore

namespace MarketMaker

/-- A fold commutes with `f` when each step does, on the states `P` picks out, which the
    steps keep. -/
theorem foldlM_map_comm {α β : Type} {P : β → Prop} (f : β → β) (g : β → α → Option β)
    (hg : ∀ b a, P b → g (f b) a = (g b a).map f) (hP : ∀ b a b', P b → g b a = some b' → P b') :
    ∀ (l : List α) (b : β), P b → l.foldlM g (f b) = (l.foldlM g b).map f
  | [], _, _ => rfl
  | a :: l, b, hb => by
    rw [List.foldlM_cons, List.foldlM_cons, hg b a hb]
    cases h : g b a with
    | none => rfl
    | some b' => exact foldlM_map_comm f g hg hP l b' (hP b a b' hb h)

theorem inventoryBias_congr (config : MarketMakerConfig) {p p' : ℚ} (h : |p'| = |p|) :
    inventoryBias config p' = inventoryBias config p := by
  simp only [inventoryBias, abs_div, h]

theorem calculateSpread_congr (config : MarketMakerConfig) (market : MarketSnapshot)
    {inv inv' : InventorySnapshot} (h : |inv'.position| = |inv.position|) :
    calculateSpread config market inv' = calculateSpread config market inv := by
  unfold calculateSpread getInventorySkew
  by_cases hmax : config.maxInventory = 0
  · simp only [hmax, divide?_zero, Option.map_none']
  · simp only [divide?_of_ne_zero _ hmax, Option.map_some', abs_div, h]

namespace MarketMakerEngine

variable (inv : InventorySnapshot)

theorem generateQuoteLevel_inventoryState {e e' : MarketMakerEngine} {symbol : String}
    {side : Side} {midPrice spread : ℚ} {level : Int} {now : Nat}
    (h : e.generateQuoteLevel symbol side midPrice spread level now = some e') :
    e'.inventoryState = e.inventoryState := by
  by_cases hn : maxQuotes ≤ e.activeQuotes
  · rw [generateQuoteLevel_full _ _ _ _ _ _ _ hn] at h
    cases h
    rfl
  · simp only [generateQuoteLevel, ge_iff_le, if_neg hn] at h
    obtain ⟨_, -, rfl⟩ := Option.map_eq_some'.1 h
    rfl

/-- Replacing the inventory by one whose position has the same size commutes with
    `generateQuoteLevel`. -/
theorem generateQuoteLevel_inventory (e : MarketMakerEngine)
    (h : |inv.position| = |e.inventoryState.position|) (symbol : String) (side : Side)
    (midPrice spread : ℚ) (level : Int) (now : Nat) :
    { e with inventoryState := inv }.generateQuoteLevel symbol side midPrice spread level now =
      (e.generateQuoteLevel symbol side midPrice spread level now).map
        fun e => { e with inventoryState := inv } := by
  by_cases hn : maxQuotes ≤ e.activeQuotes
  · rw [generateQuoteLevel_full { e with inventoryState := inv } _ _ _ _ _ _ hn,
      generateQuoteLevel_full e _ _ _ _ _ _ hn]
    rfl
  by_cases hmax : e.config.maxInventory = 0
  · simp only [generateQuoteLevel, ge_iff_le, if_neg hn, hmax, divide?_zero, Option.map_none']
  have hlt := Nat.lt_of_not_le hn
  have h₁ : e.generateQuoteLevel symbol side midPrice spread level now =
      some (e.withQuotes (e.activeQuotes + 1) (Function.update e.currentQuotes e.activeQuotes
        ⟨symbol, "binance", side, quotePrice e.config e.inventoryState.position side midPrice spread
          level, e.config.quoteSize, level, now⟩)) :=
    generateQuoteLevel_eq e _ _ symbol side midPrice spread level now hmax hlt
  have h₂ : { e with inventoryState := inv }.generateQuoteLevel symbol side midPrice spread level now =
      some ({ e with inventoryState := inv }.withQuotes (e.activeQuotes + 1)
        (Function.update e.currentQuotes e.activeQuotes ⟨symbol, "binance", side,
          quotePrice e.config inv.position side midPrice spread level, e.config.quoteSize, level,
          now⟩)) :=
    generateQuoteLevel_eq { e with inventoryState := inv } _ _ symbol side midPrice spread level now
      hmax hlt
  rw [h₁, h₂]
  cases side <;> simp only [quotePrice, inventoryBias_congr _ h] <;> rfl

/-- `pushQuotes` reads no inventory. -/
theorem pushQuotes_inventory (e : MarketMakerEngine) (count : Nat) :
    { e with inventoryState := inv }.pushQuotes count =
      (e.pushQuotes count).map fun e => { e with inventoryState := inv } := by
  unfold pushQuotes
  exact @foldlM_map_comm Nat MarketMakerEngine (fun _ => True)
    (fun e => { e with inventoryState := inv })
    (fun e i => (e.quoteBuffer.push (e.currentQuotes i)).map fun (r : Bool × RingBuffer MMQuote) =>
      { e with quoteBuffer := r.2, quotesGenerated := sizeAdd e.quotesGenerated 1 })
    (fun e i _ => by rw [Option.map_map]; rfl) (fun _ _ _ _ _ => trivial) (List.range count) e
    trivial

/-- Replacing the inventory by one whose position has the same size commutes with the level
    loop. -/
theorem quoteLevels_inventory (e : MarketMakerEngine)
    (h : |inv.position| = |e.inventoryState.position|) (midPrice spread : ℚ) (clock : Nat → Nat)
    (levels : List Nat) :
    { e with inventoryState := inv }.quoteLevels midPrice spread clock levels =
      (e.quoteLevels midPrice spread clock levels).map fun e => { e with inventoryState := inv } := by
  refine @foldlM_map_comm Nat MarketMakerEngine (fun e => |inv.position| = |e.inventoryState.position|)
    (fun e => { e with inventoryState := inv })
    (fun e (level : Nat) =>
      (e.generateQuoteLevel "BTCUSDT" .buy midPrice spread level (clock e.activeQuotes)).bind
        fun e => e.generateQuoteLevel "BTCUSDT" .sell midPrice spread level (clock e.activeQuotes))
    (fun e level he => ?_) (fun e level e' he h' => ?_) levels e h
  · beta_reduce
    rw [generateQuoteLevel_inventory inv e he]
    cases h₁ : e.generateQuoteLevel "BTCUSDT" .buy midPrice spread level (clock e.activeQuotes) with
    | none => rfl
    | some e₁ =>
      exact generateQuoteLevel_inventory inv e₁ ((generateQuoteLevel_inventoryState h₁).symm ▸ he)
        _ _ _ _ _ _
  · obtain ⟨e₁, h₁, h₂⟩ := Option.bind_eq_some.1 h'
    rwa [generateQuoteLevel_inventoryState h₂, generateQuoteLevel_inventoryState h₁]

end MarketMakerEngine

open MarketMakerEngine in
/-- A quoting cycle reads the inventory only through the size of the position: from engines
    that differ only in their inventory, with positions of equal size (a long position and
    the short one of the same size, say), `generateQuotes` is defined for both or for
    neither and gives the same quotes, ring and counters. -/
theorem quotes_ignore_position_sign (e : MarketMakerEngine) (inv : InventorySnapshot)
    (h : |inv.position| = |e.inventoryState.position|) (clock : Nat → Nat) :
    { e with inventoryState := inv }.generateQuotes clock =
      (e.generateQuotes clock).map fun e => { e with inventoryState := inv } := by
  unfold generateQuotes
  split_ifs
  · rfl
  · rfl
  rw [calculateSpread_congr _ _ h]
  cases calculateSpread e.config e.marketState e.inventoryState with
  | none => rfl
  | some spread =>
    simp only [Option.some_bind]
    erw [quoteLevels_inventory inv { e with activeQuotes := 0 } h]
    cases ({ e with activeQuotes := 0 }).quoteLevels e.marketState.midPrice spread clock
      (List.range e.config.quoteLevels.toNat) with
    | none => rfl
    | some e₁ => exact pushQuotes_inventory inv e₁ e₁.activeQuotes

/-- From the default configuration at mid `100`, started, a long position of `10` against a
    short one of `10`: the cycle runs, six quotes are generated, and they are the same for
    both. -/
theorem quotes_ignore_position_sign_longShort :
    let e := ((quotedAt 100).updatePosition 10 100 0).start
    let inv : InventorySnapshot := { e.inventoryState with position := -10 }
    |inv.position| = |e.inventoryState.position| ∧
      (e.generateQuotes fun _ => 0).map MarketMakerEngine.quotesGenerated = some 6 ∧
      { e with inventoryState := inv }.generateQuotes (fun _ => 0) =
        (e.generateQuotes fun _ => 0).map fun e => { e with inventoryState := inv } := by
  intro e inv
  have h : |inv.position| = |e.inventoryState.position| := by
    simp [inv, e, MarketMakerEngine.updatePosition, MarketMakerEngine.start]
  have hmid : 0 < e.marketState.midPrice := by
    simp only [e, quotedAt, MarketMakerEngine.start, MarketMakerEngine.updatePosition,
      MarketMakerEngine.updateMarketData]
    norm_num
  have he : e.Inv := (((MarketMakerEngine.new_inv _).updateMarketData _ _ _ _ _ _ _).updatePosition
    _ _ _).start
  obtain ⟨_, _, _, -, hgen, -⟩ := MarketMakerEngine.generateQuotes_eq e (fun _ => 0) rfl hmid
    (show (0 : ℚ) < 100 by norm_num) (show (0 : ℚ) < 100 by norm_num)
    (show (100 : ℚ) ≠ 0 by norm_num) he
  exact ⟨h, by rw [hgen]; rfl, quotes_ignore_position_sign e inv h _⟩

end MarketMaker

end OmsCore
