import OmsCore.AggregatedBook.Basic
import Mathlib.Data.List.FinRange
import Mathlib.Data.List.Sort
import Mathlib.Order.RelClasses

/-! # The merged book holds the latest book of every exchange

    After any sequence of `UpdateBook` calls, the inner map of a symbol holds one entry per
    exchange that updated the symbol, with the book of its latest call (`run_entries`).
    `GetAggregatedBook` therefore returns a permutation of the latest bids of every such
    exchange, best price first, and likewise the asks, whatever order `std::sort` gives to
    equal prices; `GetBestBidAsk` returns a best level of each side, or the sentinel of an
    empty side (`aggregated_book_latest`).

    The loop of `MergeBooks` that sets `merged.last_update` only raises the value the
    field holds before it, so the merged book carries the later of that indeterminate
    value and the newest book (`mergeBooks_lastUpdate`, `merged_last_update_latest`): a
    value left above every update is returned as it is (`merge_keeps_stale_last_update`).
-/

namespace OmsCore

namespace AggregatedOrderBook

/-! ## What the calls leave -/

/-- The book of the latest call of exchange `e` on `symbol`. -/
def latestBook (calls : List BookCall) (symbol : String) (e : ExchangeType) : Option Book :=
  ((calls.filter fun c => c.symbol = symbol ∧ c.exchange = e).getLast?).map
    fun c => ⟨c.bids, c.asks, c.now⟩

/-- Every exchange, by code. -/
def allExchanges : List ExchangeType := (List.finRange 256).map ExchangeType.mk

/-- The latest books of the exchanges that updated `symbol`, by exchange code. -/
def latestBooks (calls : List BookCall) (symbol : String) : List Book :=
  allExchanges.filterMap (latestBook calls symbol)

theorem nodup_allExchanges : allExchanges.Nodup :=
  (List.nodup_finRange 256).map fun _ _ h => ExchangeType.mk.inj h

theorem mem_allExchanges (e : ExchangeType) : e ∈ allExchanges :=
  List.mem_map.2 ⟨e.code, List.mem_finRange _, rfl⟩

theorem latestBook_append_singleton (calls : List BookCall) (c : BookCall) (symbol : String)
    (e : ExchangeType) :
    latestBook (calls ++ [c]) symbol e =
      if c.symbol = symbol ∧ c.exchange = e then some ⟨c.bids, c.asks, c.now⟩
      else latestBook calls symbol e := by
  by_cases h : c.symbol = symbol ∧ c.exchange = e <;> simp [latestBook, List.filter_append, h]

theorem run_append_singleton (ob : AggregatedOrderBook) (calls : List BookCall) (c : BookCall) :
    ob.run (calls ++ [c]) = (ob.run calls).updateBook c.exchange c.symbol c.bids c.asks c.now := by
  simp [run]

/-- After any calls, the entries of a symbol have distinct exchanges, each with the book
    of its latest call. -/
theorem run_entries (calls : List BookCall) (symbol : String) :
    ((((new.run calls).books symbol).getD []).map Prod.fst).Nodup ∧
      ∀ e, lookupKey (((new.run calls).books symbol).getD []) e = latestBook calls symbol e := by
  induction calls using List.reverseRecOn with
  | nil => simp [new, run, lookupKey, latestBook]
  | append_singleton calls c ih =>
    rw [run_append_singleton]
    by_cases hc : c.symbol = symbol
    · subst hc
      simp only [updateBook, Function.update_same, Option.getD_some]
      refine ⟨nodup_keys_assign ih.1 _ _, fun e => ?_⟩
      rw [lookupKey_assign, latestBook_append_singleton, ih.2 e]
      simp
    · simp only [updateBook, Function.update_noteq (Ne.symm hc)]
      refine ⟨ih.1, fun e => ?_⟩
      rw [ih.2 e, latestBook_append_singleton, if_neg fun h => hc h.1]

/-- Up to order, the books a symbol's entries hold are its latest books. -/
theorem run_books_perm (calls : List BookCall) (symbol : String) :
    ((((new.run calls).books symbol).getD []).map Prod.snd).Perm (latestBooks calls symbol) := by
  have hm := run_entries calls symbol
  have := perm_filterMap_lookupKey hm.1 nodup_allExchanges fun e _ => mem_allExchanges e
  rwa [show lookupKey _ = latestBook calls symbol from funext hm.2] at this

/-! ## The merge -/

/-- Comparing levels by a key of a linear order is a strict weak order. -/
theorem isStrictWeakOrder_key {β : Type} [LinearOrder β] (key : Level → β) :
    IsStrictWeakOrder Level fun a b => key a < key b := by
  haveI : IsAsymm Level fun a b => key a < key b := ⟨fun _ _ h h' => lt_asymm h h'⟩
  haveI : IsOrderConnected Level fun a b => key a < key b :=
    ⟨fun a b _ h => (lt_or_le (key a) (key b)).imp_right fun hba => lt_of_le_of_lt hba h⟩
  exact isStrictWeakOrder_of_isOrderConnected

theorem isStrictWeakOrder_bidFirst : IsStrictWeakOrder Level fun a b => bidFirst a b = true := by
  simpa only [bidFirst, decide_eq_true_eq, OrderDual.toDual_lt_toDual, gt_iff_lt] using
    isStrictWeakOrder_key fun l => OrderDual.toDual l.price

theorem isStrictWeakOrder_askFirst : IsStrictWeakOrder Level fun a b => askFirst a b = true := by
  simpa only [askFirst, decide_eq_true_eq] using isStrictWeakOrder_key Level.price

variable {sort : (Level → Level → Bool) → List Level → List Level}

/-- Each side of the merged book is that side of the symbol's books, best price first. -/
theorem getAggregatedBook_sides (hsort : StdSort sort) (ob : AggregatedOrderBook)
    (symbol : String) (lastUpdate0 : Timestamp) :
    let book := ob.getAggregatedBook symbol sort lastUpdate0
    let books := ((ob.books symbol).getD []).map Prod.snd
    book.bids.Perm (books.flatMap Book.bids) ∧ book.bids.Pairwise (fun a b => b.price ≤ a.price) ∧
      book.asks.Perm (books.flatMap Book.asks) ∧
      book.asks.Pairwise (fun a b => a.price ≤ b.price) := by
  unfold getAggregatedBook
  cases ob.books symbol with
  | none => exact ⟨.nil, .nil, .nil, .nil⟩
  | some m =>
    obtain ⟨hbp, hbs⟩ := hsort _ isStrictWeakOrder_bidFirst (m.map Prod.snd |>.flatMap Book.bids)
    obtain ⟨hap, has⟩ := hsort _ isStrictWeakOrder_askFirst (m.map Prod.snd |>.flatMap Book.asks)
    exact ⟨hbp, hbs.imp fun h => by simpa [bidFirst] using h, hap,
      has.imp fun h => by simpa [askFirst] using h⟩

/-- The first element of a list ordered by a reflexive `R` is `R`-before every element of
    any permutation of it; an empty list gives the default. -/
theorem headD_of_pairwise {R : Level → Level → Prop} (hR : ∀ a, R a a) {l spec : List Level}
    (hp : l.Perm spec) (hs : l.Pairwise R) (d : Level) :
    (spec = [] → l.headD d = d) ∧ (spec ≠ [] → l.headD d ∈ spec ∧ ∀ x ∈ spec, R (l.headD d) x) := by
  cases l with
  | nil => exact ⟨fun _ => rfl, fun h => absurd hp.nil_eq.symm h⟩
  | cons h t =>
    refine ⟨fun he => absurd (hp.trans (he ▸ .refl _)).eq_nil (List.cons_ne_nil _ _),
      fun _ => ⟨hp.subset (List.mem_cons_self _ _), fun x hx => ?_⟩⟩
    rcases List.mem_cons.1 (hp.symm.subset hx) with rfl | hx'
    · exact hR _
    · exact List.rel_of_pairwise_cons hs hx'

/-- After any sequence of `UpdateBook` calls, the merged bids of a symbol are a
    permutation of the bids of the latest call of every exchange that updated it, by
    non-increasing price, and the asks likewise by non-decreasing price; `GetBestBidAsk`
    returns a bid of highest and an ask of lowest price among those levels, or the
    sentinel of an empty side. -/
theorem aggregated_book_latest (hsort : StdSort sort) (lastUpdate0 : Timestamp)
    (calls : List BookCall) (symbol : String) :
    let book := (new.run calls).getAggregatedBook symbol sort lastUpdate0
    let best := (new.run calls).getBestBidAsk symbol sort lastUpdate0
    let bids := (latestBooks calls symbol).flatMap Book.bids
    let asks := (latestBooks calls symbol).flatMap Book.asks
    book.bids.Perm bids ∧ book.bids.Pairwise (fun a b => b.price ≤ a.price) ∧
      book.asks.Perm asks ∧ book.asks.Pairwise (fun a b => a.price ≤ b.price) ∧
      (bids = [] → best.1 = noBid) ∧
      (bids ≠ [] → best.1 ∈ bids ∧ ∀ l ∈ bids, l.price ≤ best.1.price) ∧
      (asks = [] → best.2 = noAsk) ∧
      (asks ≠ [] → best.2 ∈ asks ∧ ∀ l ∈ asks, best.2.price ≤ l.price) := by
  intro book best bids asks
  have hperm := run_books_perm calls symbol
  obtain ⟨hbp, hbs, hap, has⟩ := getAggregatedBook_sides hsort (new.run calls) symbol lastUpdate0
  have hb := hbp.trans (hperm.flatMap_right Book.bids)
  have ha := hap.trans (hperm.flatMap_right Book.asks)
  have hbest := headD_of_pairwise (fun a => le_refl a.price) hb hbs noBid
  have hask := headD_of_pairwise (fun a => le_refl a.price) ha has noAsk
  exact ⟨hb, hbs, ha, has, hbest.1, hbest.2, hask.1, hask.2⟩

/-! ## A sort that meets the contract -/

/-- `std::sort` by insertion, keeping `a` before `b` unless `comp b a`. -/
def insertionSortBy (comp : Level → Level → Bool) (l : List Level) : List Level :=
  l.insertionSort fun a b => comp b a = false

theorem stdSort_insertionSortBy : StdSort insertionSortBy := by
  intro comp hcomp l
  have asymm : ∀ a b, comp a b = true → comp b a = false := fun a b hab =>
    Bool.eq_false_iff.2 fun hba => hcomp.irrefl a (hcomp.trans _ _ _ hab hba)
  haveI : IsTotal Level fun a b => comp b a = false := ⟨fun a b => by
    cases h : comp b a
    · exact .inl rfl
    · exact .inr (asymm _ _ h)⟩
  -- `comp c a` puts `b` after `c` or before `a`, or else `b` is incomparable with both
  haveI : IsTrans Level fun a b => comp b a = false := ⟨fun a b c hab hbc => by
    rw [Bool.eq_false_iff] at hab hbc ⊢
    intro hca
    by_cases hbc' : comp b c = true
    · exact hab (hcomp.trans _ _ _ hbc' hca)
    by_cases hab' : comp a b = true
    · exact hbc (hcomp.trans _ _ _ hca hab')
    exact (hcomp.incomp_trans c b a ⟨hbc, hbc'⟩ ⟨hab, hab'⟩).1 hca⟩
  exact ⟨List.perm_insertionSort _ l, List.sorted_insertionSort _ l⟩

/-- `UPBIT` quotes a bid on `BTC`, `OKX_SPOT` another, then `UPBIT` a new book that replaces
    its first. -/
def supersedeCalls : List BookCall :=
  [⟨ExchangeType.upbit, "BTC", [⟨100, 1, ExchangeType.upbit, 1⟩], [], 0⟩,
    ⟨ExchangeType.okxSpot, "BTC", [⟨99, 2, ExchangeType.okxSpot, 1⟩], [], 1⟩,
    ⟨ExchangeType.upbit, "BTC", [⟨101, 3, ExchangeType.upbit, 1⟩], [], 2⟩]

/-- `UPBIT`'s latest book is its second; the merged bids are a permutation of those of the
    latest books, and the best bid is one of them of the highest price. -/
theorem aggregated_book_latest_superseded :
    StdSort insertionSortBy ∧
      latestBook supersedeCalls "BTC" .upbit = some ⟨[⟨101, 3, ExchangeType.upbit, 1⟩], [], 2⟩ ∧
      ((new.run supersedeCalls).getAggregatedBook "BTC" insertionSortBy 0).bids.Perm
        ((latestBooks supersedeCalls "BTC").flatMap Book.bids) ∧
      ((latestBooks supersedeCalls "BTC").flatMap Book.bids ≠ [] →
        ((new.run supersedeCalls).getBestBidAsk "BTC" insertionSortBy 0).1 ∈
            (latestBooks supersedeCalls "BTC").flatMap Book.bids ∧
          ∀ l ∈ (latestBooks supersedeCalls "BTC").flatMap Book.bids,
            l.price ≤ ((new.run supersedeCalls).getBestBidAsk "BTC" insertionSortBy 0).1.price) := by
  obtain ⟨hperm, -, -, -, -, hbest, -⟩ :=
    aggregated_book_latest stdSort_insertionSortBy 0 supersedeCalls "BTC"
  exact ⟨stdSort_insertionSortBy, rfl, hperm, hbest⟩

/-! ## The latest update -/

/-- One iteration of the loop over `books` that sets `merged.last_update` is `max`. -/
theorem lastUpdateStep_eq_max (t : Timestamp) (b : Book) :
    (if b.lastUpdate > t then b.lastUpdate else t) = max t b.lastUpdate := by
  by_cases h : b.lastUpdate > t
  · rw [if_pos h, max_eq_right h.le]
  · rw [if_neg h, max_eq_left (not_lt.1 h)]

/-- The loop raises `merged.last_update` from the value it holds before the loop to the
    latest update of the books, and never lowers it. -/
theorem mergeBooks_lastUpdate (sort : (Level → Level → Bool) → List Level → List Level)
    (lastUpdate0 : Timestamp) {books : List Book} {m : Timestamp}
    (hm : (books.map Book.lastUpdate).max? = some m) :
    (mergeBooks sort lastUpdate0 books).lastUpdate = max lastUpdate0 m := by
  cases books with
  | nil => cases hm
  | cons b books =>
    rw [List.map_cons, List.max?_cons', Option.some.injEq] at hm
    subst hm
    simp only [mergeBooks, lastUpdateStep_eq_max, List.foldl_cons]
    rw [← List.foldl_map Book.lastUpdate max, List.foldl_assoc]

/-- Up to order, the maximum of a list of timestamps is the same. -/
theorem max?_eq_of_perm {l l' : List Timestamp} (h : l.Perm l') : l.max? = l'.max? := by
  cases hm : l'.max? with
  | none =>
    rw [List.max?_eq_none_iff] at hm ⊢
    subst hm
    exact h.eq_nil
  | some m =>
    obtain ⟨hmem, hle⟩ := List.max?_eq_some_iff'.1 hm
    exact List.max?_eq_some_iff'.2 ⟨h.mem_iff.2 hmem, fun b hb => hle b (h.mem_iff.1 hb)⟩

/-- After any calls, the merged book of a symbol that some exchange updated carries the later
    of the value `merged.last_update` holds before the loop and the newest latest book. -/
theorem getAggregatedBook_lastUpdate (lastUpdate0 : Timestamp) (calls : List BookCall)
    (symbol : String) {m : Timestamp}
    (hm : ((latestBooks calls symbol).map Book.lastUpdate).max? = some m) :
    ((new.run calls).getAggregatedBook symbol sort lastUpdate0).lastUpdate = max lastUpdate0 m := by
  have hperm := run_books_perm calls symbol
  unfold getAggregatedBook
  cases hb : (new.run calls).books symbol with
  | none =>
    rw [hb, Option.getD_none, List.map_nil] at hperm
    rw [← hperm.nil_eq, List.map_nil, List.max?_nil] at hm
    cases hm
  | some entries =>
    rw [hb, Option.getD_some] at hperm
    exact mergeBooks_lastUpdate sort lastUpdate0 ((max?_eq_of_perm (hperm.map _)).trans hm)

/-- A book of the latest books of the symbol. -/
theorem mem_latestBooks_iff {calls : List BookCall} {symbol : String} {b : Book} :
    b ∈ latestBooks calls symbol ↔ ∃ e, latestBook calls symbol e = some b := by
  simp [latestBooks, List.mem_filterMap, mem_allExchanges]

/-- After any calls, for a symbol that some exchange updated, `GetAggregatedBook` returns a
    `last_update` at least the value `merged.last_update` held before the loop and at least
    the update of every exchange's latest book, and equal to one of them. -/
theorem merged_last_update_latest (lastUpdate0 : Timestamp) (calls : List BookCall)
    (symbol : String) (h : ∃ e b, latestBook calls symbol e = some b) :
    let t := ((new.run calls).getAggregatedBook symbol sort lastUpdate0).lastUpdate
    lastUpdate0 ≤ t ∧ (∀ e b, latestBook calls symbol e = some b → b.lastUpdate ≤ t) ∧
      (t = lastUpdate0 ∨ ∃ e b, latestBook calls symbol e = some b ∧ t = b.lastUpdate) := by
  obtain ⟨e, b, hb⟩ := h
  obtain ⟨m, hm⟩ : ∃ m, ((latestBooks calls symbol).map Book.lastUpdate).max? = some m := by
    cases hm : ((latestBooks calls symbol).map Book.lastUpdate).max? with
    | none =>
      rw [List.max?_eq_none_iff, List.map_eq_nil_iff] at hm
      exact absurd (mem_latestBooks_iff.2 ⟨e, hb⟩) (hm ▸ List.not_mem_nil b)
    | some m => exact ⟨m, rfl⟩
  obtain ⟨hmem, hle⟩ := List.max?_eq_some_iff'.1 hm
  intro t
  rw [show t = max lastUpdate0 m from getAggregatedBook_lastUpdate lastUpdate0 calls symbol hm]
  refine ⟨le_max_left _ _, fun e b hb => (hle _ (List.mem_map_of_mem _
    (mem_latestBooks_iff.2 ⟨e, hb⟩))).trans (le_max_right _ _), ?_⟩
  rcases max_choice lastUpdate0 m with hmax | hmax
  · exact .inl hmax
  · obtain ⟨b, hb, rfl⟩ := List.mem_map.1 hmem
    obtain ⟨e, he⟩ := mem_latestBooks_iff.1 hb
    exact .inr ⟨e, b, he, hmax⟩

/-- On the three calls, with `0` in the field before the loop: the merged book carries the
    newest update, `UPBIT`'s `2`. -/
theorem merged_last_update_latest_superseded :
    (∃ e b, latestBook supersedeCalls "BTC" e = some b) ∧
      let t := ((new.run supersedeCalls).getAggregatedBook "BTC" insertionSortBy 0).lastUpdate
      0 ≤ t ∧ (∀ e b, latestBook supersedeCalls "BTC" e = some b → b.lastUpdate ≤ t) ∧
        (t = 0 ∨ ∃ e b, latestBook supersedeCalls "BTC" e = some b ∧ t = b.lastUpdate) :=
  have h : ∃ e b, latestBook supersedeCalls "BTC" e = some b := ⟨.upbit, _, rfl⟩
  ⟨h, merged_last_update_latest 0 supersedeCalls "BTC" h⟩

/-- Books updated at `5` and `7`, with `merged.last_update` holding `10` before the loop:
    `MergeBooks` returns `10`, not the latest update `7`. -/
theorem merge_keeps_stale_last_update (sort : (Level → Level → Bool) → List Level → List Level) :
    ([(⟨[], [], 5⟩ : Book), ⟨[], [], 7⟩].map Book.lastUpdate).max? = some 7 ∧
      (mergeBooks sort 10 [⟨[], [], 5⟩, ⟨[], [], 7⟩]).lastUpdate = 10 :=
  ⟨rfl, rfl⟩

end AggregatedOrderBook

end OmsCore
