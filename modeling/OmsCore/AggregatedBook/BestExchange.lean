import OmsCore.AggregatedBook.Latest
import Mathlib.Algebra.Order.BigOperators.Group.List
import Mathlib.Tactic.Linarith
import Mathlib.Tactic.NormNum

/-! # Venue selection

    `GetBestExchange` walks the merged side, best price first, and returns the exchange of
    the level at which the running total of quantities, summed across all exchanges, first
    reaches the requested quantity. That exchange need not hold the quantity on its own:
    asks of `1` at `100`, `1` at `101` and `5` at `102` on three exchanges send a buy of `2`
    to the second, whatever sort meets the contract (`getBestExchange_threeVenueAsks`),
    and the second quotes `1` (`best_exchange_lacks_quantity`).

    What the walk does guarantee, after any sequence of `UpdateBook` calls that send
    levels of non-negative quantity and whatever order `std::sort` leaves among equal
    prices, is the price of the level it stops at (`best_exchange_marginal_level`): the
    levels of the latest books strictly ahead of it total less than the order, and those
    at least as good total at least the order, unless the whole side falls short, when it
    is a level of the best price. An empty side gives `BINANCE_SPOT`.
-/

namespace OmsCore

namespace AggregatedOrderBook

variable {sort : (Level → Level → Bool) → List Level → List Level}

/-! ## Sorting distinct prices -/

/-- On asks of strictly increasing price, a sort that meets the contract changes nothing:
    with distinct prices the order it must produce is unique. -/
theorem sort_askFirst_of_strict (hsort : StdSort sort) {l : List Level}
    (hl : l.Pairwise fun a b => a.price < b.price) : sort askFirst l = l := by
  obtain ⟨hp, hs⟩ := hsort askFirst isStrictWeakOrder_askFirst l
  haveI : IsAntisymm Level fun a b => a.price < b.price := ⟨fun _ _ h h' => absurd h' (lt_asymm h)⟩
  have hne : (sort askFirst l).Pairwise fun a b => a.price ≠ b.price :=
    (hp.pairwise_iff Ne.symm).2 (hl.imp ne_of_lt)
  refine List.eq_of_perm_of_sorted hp ((hs.and hne).imp fun ⟨h, h'⟩ => ?_) hl
  simp only [askFirst, decide_eq_false_iff_not, not_lt] at h
  exact lt_of_le_of_ne h h'

/-! ## The walk across venues -/

/-- The total quantity of exchange `e`'s own levels on the side an order of `side` walks,
    in `e`'s latest book for `symbol`. -/
def ownQuantity (calls : List BookCall) (symbol : String) (side : Side) (e : ExchangeType) :
    Quantity :=
  match latestBook calls symbol e, side with
  | none, _ => 0
  | some b, .buy => (b.asks.map Level.quantity).sum
  | some b, .sell => (b.bids.map Level.quantity).sum

/-- Three exchanges quote one ask each on `BTC`: `1` at `100`, `1` at `101`, `5` at `102`. -/
def threeVenueAsks : List BookCall :=
  [⟨ExchangeType.binanceSpot, "BTC", [], [⟨100, 1, ExchangeType.binanceSpot, 1⟩], 0⟩,
    ⟨ExchangeType.bybitSpot, "BTC", [], [⟨101, 1, ExchangeType.bybitSpot, 1⟩], 0⟩,
    ⟨ExchangeType.okxSpot, "BTC", [], [⟨102, 5, ExchangeType.okxSpot, 1⟩], 0⟩]

/-- Whatever sort meets the contract, a buy of `2` goes to the exchange at `101`. -/
theorem getBestExchange_threeVenueAsks (hsort : StdSort sort) (lastUpdate0 : Timestamp) :
    (new.run threeVenueAsks).getBestExchange "BTC" .buy 2 sort lastUpdate0 =
      ExchangeType.bybitSpot := by
  have hasks := sort_askFirst_of_strict hsort (show List.Pairwise (fun a b : Level => a.price < b.price)
    [⟨100, 1, ExchangeType.binanceSpot, 1⟩, ⟨101, 1, ExchangeType.bybitSpot, 1⟩,
      ⟨102, 5, ExchangeType.okxSpot, 1⟩] by norm_num)
  show (match Side.buy, (mergeBooks sort lastUpdate0 _).asks, _ with
    | .buy, a :: as, _ => (reachLevel 2 0 (a :: as)).getD a.exchange
    | .sell, _, b :: bs => (reachLevel 2 0 (b :: bs)).getD b.exchange
    | _, _, _ => ExchangeType.binanceSpot) = _
  simp only [mergeBooks, List.map, List.flatMap_cons, List.flatMap_nil, List.append_nil,
    List.singleton_append, List.cons_append, List.nil_append, hasks]
  norm_num [reachLevel]

/-- A buy of `2` goes to the exchange at `101`, whose own asks total `1`, while the exchange
    at `102` alone holds `5`. -/
theorem best_exchange_lacks_quantity :
    (new.run threeVenueAsks).getBestExchange "BTC" .buy 2 insertionSortBy 0 =
        ExchangeType.bybitSpot ∧
      ownQuantity threeVenueAsks "BTC" .buy ExchangeType.bybitSpot < 2 ∧
      2 ≤ ownQuantity threeVenueAsks "BTC" .buy ExchangeType.okxSpot := by
  have hB : latestBook threeVenueAsks "BTC" ExchangeType.bybitSpot =
      some ⟨[], [⟨101, 1, ExchangeType.bybitSpot, 1⟩], 0⟩ := by decide
  have hC : latestBook threeVenueAsks "BTC" ExchangeType.okxSpot =
      some ⟨[], [⟨102, 5, ExchangeType.okxSpot, 1⟩], 0⟩ := by decide
  exact ⟨getBestExchange_threeVenueAsks stdSort_insertionSortBy 0,
    by simp only [ownQuantity, hB]; norm_num, by simp only [ownQuantity, hC]; norm_num⟩

/-! ## Where the walk stops -/

/-- The total quantity of some levels. -/
def totalQuantity (ls : List Level) : Quantity := (ls.map Level.quantity).sum

/-- The side an order of `side` walks: a buy the asks, a sell the bids. -/
def walkedLevels (side : Side) (b : Book) : List Level :=
  match side with
  | .buy => b.asks
  | .sell => b.bids

/-- The comparator `MergeBooks` sorts the walked side with: `walkOrder side a b` when `a`
    has the strictly better price for an order of `side`. -/
def walkOrder (side : Side) : Level → Level → Bool :=
  match side with
  | .buy => askFirst
  | .sell => bidFirst

theorem walkOrder_irrefl (side : Side) (a : Level) : walkOrder side a a = false := by
  cases side <;> simp [walkOrder, askFirst, bidFirst]

theorem totalQuantity_perm {l l' : List Level} (h : l.Perm l') :
    totalQuantity l = totalQuantity l' :=
  (h.map _).sum_eq

theorem totalQuantity_filter_le {l : List Level} (hnn : ∀ y ∈ l, 0 ≤ y.quantity)
    (p : Level → Bool) : totalQuantity (l.filter p) ≤ totalQuantity l :=
  ((List.filter_sublist l).map _).sum_le_sum (by simpa using hnn)

/-- The walk stops at some `x`: the running total before it, from `cumulative`, stayed below
    the order, and with `x` it reaches the order. -/
theorem reachLevel_eq_some {quantity cumulative : Quantity} {ls : List Level}
    {e : ExchangeType} (hc : cumulative < quantity) (h : reachLevel quantity cumulative ls = some e) :
    ∃ pre x post, ls = pre ++ x :: post ∧ x.exchange = e ∧
      cumulative + totalQuantity pre < quantity ∧
      quantity ≤ cumulative + totalQuantity pre + x.quantity := by
  induction ls generalizing cumulative with
  | nil => cases h
  | cons l ls ih =>
    unfold reachLevel at h
    split_ifs at h with hl
    · cases h
      exact ⟨[], l, ls, rfl, rfl, by simpa [totalQuantity] using hc, by simpa [totalQuantity] using hl⟩
    · obtain ⟨pre, x, post, rfl, hx, hlt, hge⟩ := ih (not_le.1 hl) h
      refine ⟨l :: pre, x, post, rfl, hx, ?_, ?_⟩ <;>
        simp only [totalQuantity, List.map_cons, List.sum_cons] at hlt hge ⊢ <;> linarith

/-- A walk that never stops leaves the whole list short of the order. -/
theorem reachLevel_eq_none {quantity cumulative : Quantity} {ls : List Level}
    (hc : cumulative < quantity) (h : reachLevel quantity cumulative ls = none) :
    cumulative + totalQuantity ls < quantity := by
  induction ls generalizing cumulative with
  | nil => simpa [totalQuantity] using hc
  | cons l ls ih =>
    unfold reachLevel at h
    split_ifs at h with hl
    have := ih (not_le.1 hl) h
    simp only [totalQuantity, List.map_cons, List.sum_cons] at this ⊢
    linarith

/-- In a side sorted by `walkOrder`, the levels strictly ahead of `x` all come before it,
    and those before it are all at least as good. -/
theorem totalQuantity_split {side : Side} {pre post : List Level} {x : Level}
    (hnn : ∀ y ∈ pre ++ x :: post, 0 ≤ y.quantity)
    (hs : (pre ++ x :: post).Pairwise fun a b => walkOrder side b a = false) :
    totalQuantity ((pre ++ x :: post).filter fun y => walkOrder side y x) ≤ totalQuantity pre ∧
      totalQuantity pre + x.quantity ≤
        totalQuantity ((pre ++ x :: post).filter fun y => !walkOrder side x y) := by
  obtain ⟨-, hxpost, hcross⟩ := List.pairwise_append.1 hs
  have hbefore : ∀ y ∈ pre, walkOrder side x y = false := fun y hy =>
    hcross y hy x (List.mem_cons_self _ _)
  have hafter : ∀ y ∈ post, walkOrder side y x = false := fun y hy =>
    List.rel_of_pairwise_cons hxpost hy
  have hahead : post.filter (fun y => walkOrder side y x) = [] :=
    List.filter_eq_nil_iff.2 fun y hy => by simp [hafter y hy]
  have hgood : pre.filter (fun y => !walkOrder side x y) = pre :=
    List.filter_eq_self.2 fun y hy => by simp [hbefore y hy]
  have hpost : 0 ≤ totalQuantity (post.filter fun y => !walkOrder side x y) :=
    List.sum_nonneg fun q hq => by
      obtain ⟨y, hy, rfl⟩ := List.mem_map.1 hq
      exact hnn y (List.mem_append_right _ (List.mem_cons_of_mem _ (List.mem_filter.1 hy).1))
  simp only [List.filter_append, List.filter_cons, walkOrder_irrefl, hahead, hgood, Bool.not_false,
    if_true, Bool.false_eq_true, if_false, List.append_nil]
  refine ⟨totalQuantity_filter_le (fun y hy => hnn y (List.mem_append_left _ hy)) _, ?_⟩
  simp only [totalQuantity, List.map_append, List.map_cons, List.sum_append, List.sum_cons] at hpost ⊢
  linarith

theorem getBestExchange_eq (ob : AggregatedOrderBook) (symbol : String) (side : Side)
    (quantity : Quantity) (lastUpdate0 : Timestamp) :
    ob.getBestExchange symbol side quantity sort lastUpdate0 =
      match walkedLevels side (ob.getAggregatedBook symbol sort lastUpdate0) with
      | [] => ExchangeType.binanceSpot
      | a :: as => (reachLevel quantity 0 (a :: as)).getD a.exchange := by
  unfold getBestExchange
  cases side <;> split <;> simp_all [walkedLevels]

/-- The merged walked side holds the walked levels of the latest books, sorted by
    `walkOrder`. -/
theorem walkedLevels_merged (hsort : StdSort sort) (calls : List BookCall) (symbol : String)
    (side : Side) (lastUpdate0 : Timestamp) :
    let merged := walkedLevels side ((new.run calls).getAggregatedBook symbol sort lastUpdate0)
    merged.Perm ((latestBooks calls symbol).flatMap (walkedLevels side)) ∧
      merged.Pairwise fun a b => walkOrder side b a = false := by
  have hperm := run_books_perm calls symbol
  obtain ⟨hbp, hbs, hap, has⟩ := getAggregatedBook_sides hsort (new.run calls) symbol lastUpdate0
  cases side
  · exact ⟨hap.trans (hperm.flatMap_right Book.asks),
      has.imp fun h => decide_eq_false (not_lt.2 h)⟩
  · exact ⟨hbp.trans (hperm.flatMap_right Book.bids),
      hbs.imp fun h => decide_eq_false (not_lt.2 h)⟩

theorem mem_latestBooks {calls : List BookCall} {symbol : String} {b : Book}
    (h : b ∈ latestBooks calls symbol) : ∃ c ∈ calls, b = ⟨c.bids, c.asks, c.now⟩ := by
  obtain ⟨e, -, he⟩ := List.mem_filterMap.1 h
  obtain ⟨c, hc, rfl⟩ := Option.map_eq_some'.1 he
  exact ⟨c, (List.mem_filter.1 (List.mem_of_getLast?_eq_some hc)).1, rfl⟩

theorem walkedLevels_latest_nonneg {calls : List BookCall} {symbol : String} {side : Side}
    (hnn : ∀ c ∈ calls, ∀ l ∈ c.bids ++ c.asks, 0 ≤ l.quantity) :
    ∀ y ∈ (latestBooks calls symbol).flatMap (walkedLevels side), 0 ≤ y.quantity := by
  intro y hy
  obtain ⟨b, hb, hy⟩ := List.mem_flatMap.1 hy
  obtain ⟨c, hc, rfl⟩ := mem_latestBooks hb
  cases side <;> exact hnn c hc y (by simp_all [walkedLevels])

/-- The walk over a non-empty side sorted by `walkOrder`, a permutation of `levels`, stops at
    a level at the marginal price, or falls back on the first level, one of the best price. -/
theorem walk_marginal {side : Side} {quantity : Quantity} (hq : 0 < quantity) {a : Level}
    {as levels : List Level} (hperm : (a :: as).Perm levels)
    (hsorted : (a :: as).Pairwise fun a b => walkOrder side b a = false)
    (hnn : ∀ y ∈ levels, 0 ≤ y.quantity) :
    ∃ x ∈ levels, x.exchange = (reachLevel quantity 0 (a :: as)).getD a.exchange ∧
      totalQuantity (levels.filter fun y => walkOrder side y x) < quantity ∧
      (quantity ≤ totalQuantity (levels.filter fun y => !walkOrder side x y) ∨
        totalQuantity levels < quantity ∧ ∀ y ∈ levels, walkOrder side y x = false) := by
  have hnn' : ∀ y ∈ a :: as, 0 ≤ y.quantity := fun y hy => hnn y (hperm.subset hy)
  have hsum : ∀ p, totalQuantity ((a :: as).filter p) = totalQuantity (levels.filter p) :=
    fun p => totalQuantity_perm (hperm.filter p)
  cases hr : reachLevel quantity 0 (a :: as) with
  | some e =>
    obtain ⟨pre, x, post, hsplit, hx, hlt, hge⟩ := reachLevel_eq_some hq hr
    rw [hsplit] at hnn' hsorted hsum
    obtain ⟨h1, h2⟩ := totalQuantity_split hnn' hsorted
    refine ⟨x, hperm.subset (hsplit ▸ by simp), hx, ?_, .inl ?_⟩
    · linarith [hsum fun y => walkOrder side y x]
    · linarith [hsum fun y => !walkOrder side x y]
  | none =>
    have hshort := reachLevel_eq_none hq hr
    have hbest : ∀ y ∈ a :: as, walkOrder side y a = false := fun y hy =>
      (List.mem_cons.1 hy).elim (fun h => h ▸ walkOrder_irrefl side a)
        fun hy => List.rel_of_pairwise_cons hsorted hy
    refine ⟨a, hperm.subset (List.mem_cons_self _ _), rfl, ?_,
      .inr ⟨?_, fun y hy => hbest y (hperm.symm.subset hy)⟩⟩
    · linarith [hsum fun y => walkOrder side y a,
        totalQuantity_filter_le hnn' fun y => walkOrder side y a]
    · linarith [totalQuantity_perm hperm]

/-- After any sequence of `UpdateBook` calls whose levels have non-negative quantities,
    `GetBestExchange` for a positive quantity returns `BINANCE_SPOT` when the walked side of
    the latest books is empty, and otherwise the exchange of one of its levels `x`, whatever
    order the sort leaves among equal prices: the levels strictly ahead of `x` total less
    than the order, and either those at least as good as `x` total at least the order, or
    the whole side falls short and `x` has the best price. -/
theorem best_exchange_marginal_level (hsort : StdSort sort) (lastUpdate0 : Timestamp)
    (calls : List BookCall) (symbol : String) (side : Side) {quantity : Quantity}
    (hq : 0 < quantity) (hnn : ∀ c ∈ calls, ∀ l ∈ c.bids ++ c.asks, 0 ≤ l.quantity) :
    let levels := (latestBooks calls symbol).flatMap (walkedLevels side)
    let e := (new.run calls).getBestExchange symbol side quantity sort lastUpdate0
    (levels = [] → e = ExchangeType.binanceSpot) ∧
      (levels ≠ [] → ∃ x ∈ levels, x.exchange = e ∧
        totalQuantity (levels.filter fun y => walkOrder side y x) < quantity ∧
        (quantity ≤ totalQuantity (levels.filter fun y => !walkOrder side x y) ∨
          totalQuantity levels < quantity ∧ ∀ y ∈ levels, walkOrder side y x = false)) := by
  intro levels e
  obtain ⟨hperm, hsorted⟩ := walkedLevels_merged hsort calls symbol side lastUpdate0
  rw [show e = _ from getBestExchange_eq (new.run calls) symbol side quantity lastUpdate0]
  cases hm : walkedLevels side ((new.run calls).getAggregatedBook symbol sort lastUpdate0) with
  | nil =>
    rw [hm] at hperm
    exact ⟨fun _ => rfl, fun h => absurd hperm.nil_eq.symm h⟩
  | cons a as =>
    rw [hm] at hperm hsorted
    exact ⟨fun h => absurd (hperm.trans (.of_eq h)).eq_nil (List.cons_ne_nil _ _),
      fun _ => walk_marginal hq hperm hsorted (walkedLevels_latest_nonneg hnn)⟩

/-- On the three venues, for a buy of `2`. -/
theorem best_exchange_marginal_level_threeVenues :
    StdSort insertionSortBy ∧ (0 : Quantity) < 2 ∧
      (∀ c ∈ threeVenueAsks, ∀ l ∈ c.bids ++ c.asks, 0 ≤ l.quantity) ∧
      let levels := (latestBooks threeVenueAsks "BTC").flatMap (walkedLevels .buy)
      let e := (new.run threeVenueAsks).getBestExchange "BTC" .buy 2 insertionSortBy 0
      (levels = [] → e = ExchangeType.binanceSpot) ∧
        (levels ≠ [] → ∃ x ∈ levels, x.exchange = e ∧
          totalQuantity (levels.filter fun y => walkOrder .buy y x) < 2 ∧
          (2 ≤ totalQuantity (levels.filter fun y => !walkOrder .buy x y) ∨
            totalQuantity levels < 2 ∧ ∀ y ∈ levels, walkOrder .buy y x = false)) := by
  have hnn : ∀ c ∈ threeVenueAsks, ∀ l ∈ c.bids ++ c.asks, 0 ≤ l.quantity := by decide
  exact ⟨stdSort_insertionSortBy, by norm_num, hnn,
    best_exchange_marginal_level stdSort_insertionSortBy 0 threeVenueAsks "BTC" .buy
      (by norm_num) hnn⟩

end AggregatedOrderBook

end OmsCore
