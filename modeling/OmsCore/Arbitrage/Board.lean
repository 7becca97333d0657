import OmsCore.Arbitrage.Detector
import OmsCore.AssocList

/-! # The board of latest quotes

    What the price matrix is for (`Board`): per symbol, in order of first sighting, the
    exchanges that quoted it, in order of first quote, each with its latest quote. A symbol
    keeps at most `MAX_EXCHANGES` exchanges and the board at most `MAX_SYMBOLS` symbols;
    later newcomers are dropped. Both levels are one keyed store with a cap (`store`).

    After any run from the empty board, the exchanges of a symbol are the first
    `MAX_EXCHANGES` distinct exchanges that quoted it (`firstCome`), each with the quote of
    its latest call (`run_lookupKey`).
-/

namespace OmsCore

namespace Arbitrage

/-! ## The board -/

/-- A name stored whole with its terminator: at most 14 bytes, none of them NUL. -/
def Short (x : List UInt8) : Prop := x.length ≤ 14 ∧ ∀ b ∈ x, b ≠ 0

instance : DecidablePred Short := fun x =>
  inferInstanceAs (Decidable (x.length ≤ 14 ∧ ∀ b ∈ x, b ≠ 0))

/-- Per symbol, the exchanges that quoted it with their latest quotes. -/
abbrev Board := List (List UInt8 × List (List UInt8 × Quote))

/-- Record quote `q` of exchange `ex` among a symbol's exchanges. -/
def upsert (feeds : List (List UInt8 × Quote)) (ex : List UInt8) (q : Quote) :
    List (List UInt8 × Quote) :=
  store maxExchanges feeds ex (fun _ => q) q

namespace Board

/-- Record quote `q` of exchange `ex` for symbol `sym`. -/
def update (b : Board) (sym ex : List UInt8) (q : Quote) : Board :=
  store maxSymbols b sym (fun feeds => upsert feeds ex q) (upsert [] ex q)

/-- The board after each of `calls` in turn. -/
def run (b : Board) (calls : List FeedCall) : Board :=
  calls.foldl (fun b c => b.update c.symbol.bytes c.exchange.bytes c.quote) b

/-- The shape of a symbol's exchanges: distinct, at most `MAX_EXCHANGES`, all short. -/
def FeedsWF (feeds : List (List UInt8 × Quote)) : Prop :=
  (feeds.map Prod.fst).Nodup ∧ feeds.length ≤ maxExchanges ∧ ∀ f ∈ feeds, Short f.1

/-- The board's shape: distinct symbols, at most `MAX_SYMBOLS`, each well formed. -/
structure WF (b : Board) : Prop where
  keys : (b.map Prod.fst).Nodup
  length_le : b.length ≤ maxSymbols
  feeds : ∀ e ∈ b, FeedsWF e.2

end Board

open Board

theorem feedsWF_nil : FeedsWF [] := ⟨List.nodup_nil, Nat.zero_le _, fun _ h => nomatch h⟩

theorem wf_nil : Board.WF [] := ⟨List.nodup_nil, Nat.zero_le _, fun _ h => nomatch h⟩

theorem feedsWF_upsert {feeds : List (List UInt8 × Quote)} (h : FeedsWF feeds)
    {ex : List UInt8} (hex : Short ex) (q : Quote) : FeedsWF (upsert feeds ex q) := by
  refine ⟨?_, ?_, fun f hf => ?_⟩
  · rw [upsert, keys_store]
    exact addCapped_nodup h.1 ex
  · rw [← List.length_map _ Prod.fst, upsert, keys_store]
    exact length_addCapped_le (by simpa using h.2.1) ex
  · rcases mem_store _ _ _ _ _ hf with hf | rfl | ⟨_, -, rfl⟩
    · exact h.2.2 f hf
    all_goals exact hex

theorem wf_update {b : Board} (h : b.WF) (sym : List UInt8) {ex : List UInt8}
    (hex : Short ex) (q : Quote) : (b.update sym ex q).WF := by
  refine ⟨?_, ?_, fun e he => ?_⟩
  · rw [Board.update, keys_store]
    exact addCapped_nodup h.keys sym
  · rw [← List.length_map _ Prod.fst, Board.update, keys_store]
    exact length_addCapped_le (by simpa using h.length_le) sym
  · rcases mem_store _ _ _ _ _ he with he | rfl | ⟨f, hf, rfl⟩
    · exact h.feeds e he
    · exact feedsWF_upsert feedsWF_nil hex q
    · exact feedsWF_upsert (h.feeds _ hf) hex q

theorem wf_run {b : Board} (h : b.WF) {calls : List FeedCall}
    (hs : ∀ c ∈ calls, Short c.exchange.bytes) : (b.run calls).WF := by
  induction calls generalizing b with
  | nil => exact h
  | cons c calls ih =>
    exact ih (wf_update h _ (hs c (List.mem_cons_self _ _)) _)
      fun c' hc' => hs c' (List.mem_cons_of_mem _ hc')

/-! ## What a run from the empty board holds -/

/-- The exchanges of the calls on `sym`, in call order. -/
def exchangesOn (calls : List FeedCall) (sym : List UInt8) : List (List UInt8) :=
  (calls.filter fun c => c.symbol.bytes = sym).map fun c => c.exchange.bytes

/-- The quote of the latest call of exchange `ex` on `sym`. -/
def latestQuote (calls : List FeedCall) (sym ex : List UInt8) : Option Quote :=
  ((calls.filter fun c => c.symbol.bytes = sym ∧ c.exchange.bytes = ex).getLast?).map
    FeedCall.quote

theorem exchangesOn_append_singleton (calls : List FeedCall) (c : FeedCall) (sym : List UInt8) :
    exchangesOn (calls ++ [c]) sym =
      if c.symbol.bytes = sym then exchangesOn calls sym ++ [c.exchange.bytes]
      else exchangesOn calls sym := by
  by_cases h : c.symbol.bytes = sym <;> simp [exchangesOn, h]

theorem latestQuote_append_singleton (calls : List FeedCall) (c : FeedCall) (sym ex : List UInt8) :
    latestQuote (calls ++ [c]) sym ex =
      if c.symbol.bytes = sym ∧ c.exchange.bytes = ex then some c.quote
      else latestQuote calls sym ex := by
  by_cases h : c.symbol.bytes = sym ∧ c.exchange.bytes = ex <;>
    simp [latestQuote, List.filter_append, h]

/-- The exchanges of `sym` are the first `MAX_EXCHANGES` distinct ones of its calls, each
    with the quote of its latest call. -/
def Latest (calls : List FeedCall) (sym : List UInt8) (feeds : List (List UInt8 × Quote)) :
    Prop :=
  feeds.map Prod.fst = firstCome maxExchanges (exchangesOn calls sym) ∧
  ∀ ex, lookupKey feeds ex =
    if ex ∈ firstCome maxExchanges (exchangesOn calls sym) then latestQuote calls sym ex else none

theorem latest_nil {calls : List FeedCall} {sym : List UInt8} (h : exchangesOn calls sym = []) :
    Latest calls sym [] := by
  simp [Latest, h, firstCome, lookupKey]

theorem Latest.append_other {calls : List FeedCall} {sym : List UInt8}
    {feeds : List (List UInt8 × Quote)} (h : Latest calls sym feeds) {c : FeedCall}
    (hc : c.symbol.bytes ≠ sym) : Latest (calls ++ [c]) sym feeds := by
  simpa [Latest, exchangesOn_append_singleton, latestQuote_append_singleton, hc] using h

theorem Latest.append_self {calls : List FeedCall} {feeds : List (List UInt8 × Quote)}
    {c : FeedCall} (h : Latest calls c.symbol.bytes feeds) :
    Latest (calls ++ [c]) c.symbol.bytes (upsert feeds c.exchange.bytes c.quote) := by
  obtain ⟨hkeys, hval⟩ := h
  refine ⟨by rw [exchangesOn_append_singleton, if_pos rfl, firstCome_append_singleton, upsert,
    keys_store, hkeys], fun ex => ?_⟩
  rw [exchangesOn_append_singleton, if_pos rfl, firstCome_append_singleton,
    latestQuote_append_singleton, upsert]
  by_cases hex : c.exchange.bytes = ex
  · subst hex
    have hlen : feeds.length =
        (firstCome maxExchanges (exchangesOn calls c.symbol.bytes)).length := by
      rw [← hkeys, List.length_map]
    rw [lookupKey_store_self, hkeys]
    by_cases hin : c.exchange.bytes ∈ firstCome maxExchanges (exchangesOn calls c.symbol.bytes)
    · obtain ⟨x, hx⟩ := Option.ne_none_iff_exists'.1 fun h =>
        lookupKey_eq_none.1 h (hkeys ▸ hin)
      simp [hin, hx, mem_addCapped_self]
    · simp [hin, hlen, mem_addCapped_self]
  · rw [lookupKey_store_ne _ _ _ _ _ hex, hval]
    simp [mem_addCapped_of_ne (Ne.symm hex), hex]

theorem run_append_singleton (b : Board) (calls : List FeedCall) (c : FeedCall) :
    b.run (calls ++ [c]) = (b.run calls).update c.symbol.bytes c.exchange.bytes c.quote := by
  simp [Board.run]

/-- The symbols on the board are the first `MAX_SYMBOLS` distinct symbols of the calls. -/
theorem keys_run (calls : List FeedCall) :
    (Board.run [] calls).map Prod.fst =
      firstCome maxSymbols (calls.map fun c => c.symbol.bytes) := by
  induction calls using List.reverseRecOn with
  | nil => rfl
  | append_singleton calls c ih =>
    rw [run_append_singleton, Board.update, keys_store, ih, List.map_append, List.map_singleton,
      firstCome_append_singleton]

/-- After any run from the empty board, each symbol on the board holds the first
    `MAX_EXCHANGES` distinct exchanges of its calls, with their latest quotes; a symbol off
    the board has had no call, or the board is full. -/
theorem run_lookupKey (calls : List FeedCall) (sym : List UInt8) :
    (∀ feeds, lookupKey (Board.run [] calls) sym = some feeds → Latest calls sym feeds) ∧
    (lookupKey (Board.run [] calls) sym = none →
      exchangesOn calls sym = [] ∨ maxSymbols ≤ (Board.run [] calls).length) := by
  induction calls using List.reverseRecOn with
  | nil => simp [Board.run, lookupKey, exchangesOn]
  | append_singleton calls c ih =>
    obtain ⟨hsome, hnone⟩ := ih
    rw [run_append_singleton]
    by_cases hc : c.symbol.bytes = sym
    · subst hc
      rw [Board.update, lookupKey_store_self]
      cases hl : lookupKey (Board.run [] calls) c.symbol.bytes with
      | some feeds =>
        have hmem : c.symbol.bytes ∈ (Board.run [] calls).map Prod.fst :=
          not_not.1 fun h => nomatch hl.symm.trans (lookupKey_eq_none.2 h)
        rw [if_pos hmem, Option.map_some']
        exact ⟨fun _ h => Option.some.inj h ▸ (hsome feeds hl).append_self, nofun⟩
      | none =>
        rw [if_neg (lookupKey_eq_none.1 hl)]
        split_ifs with hroom
        · have hex := (hnone hl).resolve_right (Nat.not_le.2 hroom)
          exact ⟨fun _ h => Option.some.inj h ▸ (latest_nil hex).append_self, nofun⟩
        · refine ⟨nofun, fun _ => .inr ?_⟩
          exact (Nat.not_lt.1 hroom).trans (length_le_store _ _ _ _ _)
    · rw [Board.update, lookupKey_store_ne _ _ _ _ _ hc]
      refine ⟨fun feeds h => (hsome feeds h).append_other hc, fun h => ?_⟩
      rw [exchangesOn_append_singleton, if_neg hc]
      exact (hnone h).imp_right fun hle => hle.trans (length_le_store _ _ _ _ _)

/-- Every quote on a well-formed board after a run is the latest quote of its exchange on its
    symbol. -/
theorem latestQuote_of_mem {calls : List FeedCall} (hwf : (Board.run [] calls).WF)
    {sym : List UInt8} {feeds : List (List UInt8 × Quote)} (hsym : (sym, feeds) ∈ Board.run [] calls)
    {ex : List UInt8} {q : Quote} (hq : (ex, q) ∈ feeds) : latestQuote calls sym ex = some q := by
  have hl := ((run_lookupKey calls sym).1 feeds ((mem_iff_lookupKey hwf.keys).1 hsym)).2 ex
  rw [(mem_iff_lookupKey (hwf.feeds _ hsym).1).1 hq] at hl
  split_ifs at hl
  exact hl.symm

end Arbitrage

end OmsCore
