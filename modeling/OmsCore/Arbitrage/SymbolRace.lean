import OmsCore.Arbitrage.Matrix
import Mathlib.Logic.Relation

/-! # The symbol count under a concurrent detection pass

    One thread calls `updatePriceFeed`; the detection thread runs `detectOpportunities`.
    Their steps interleave at the atomic operations on `symbol_count_` (sequential
    consistency). `getOrCreateSymbolIndex` of a new symbol `fetch_add`s `symbol_count_`
    before it looks at the result, and `fetch_sub`s it back when the result is
    `MAX_SYMBOLS`; between the two the count reads `MAX_SYMBOLS + 1`. A detection pass
    that loads it then visits `symbol_prices_[MAX_SYMBOLS]`, one past the array
    (`detector_reads_past_symbols`). It never reads further: in every reachable state the
    loaded count is at most `MAX_SYMBOLS + 1` (`pastEnd_eq_maxSymbols`).

    The per-symbol work of a pass reads the symbol's slots and pushes opportunities; it
    indexes `symbol_prices_` only by the loop variable, and is one step here. The rest of
    an `updatePriceFeed` call, once the symbol has its slot, is `writeFeed`, one step too:
    it touches the slots of that symbol only, never `symbol_count_`.
-/

namespace OmsCore

namespace Arbitrage

namespace SymbolRace

open ArbitrageDetector

/-! ## State and steps -/

/-- Where the updating thread stands inside `updatePriceFeed`. -/
inductive UpdaterPc where
  | idle
  /-- Before `symbol_index_.find`. -/
  | find (c : FeedCall)
  /-- The symbol is new: before `symbol_count_.fetch_add(1)`. -/
  | fetchAdd (c : FeedCall)
  /-- `fetch_add` returned `newIdx`. -/
  | fetched (c : FeedCall) (newIdx : Nat)
  /-- The symbol has slot `s`: the exchange search and the feed write. -/
  | write (c : FeedCall) (s : Nat)

/-- Where the detection thread stands inside `detectOpportunities`. -/
inductive DetectorPc where
  | idle
  /-- `sym_count` loaded; the loop is at `sym_idx`. -/
  | scan (symCount symIdx : Nat)
  /-- The loop read `symbol_prices_[symIdx]` with `symIdx ≥ MAX_SYMBOLS`, outside the
      array: undefined, no further step. -/
  | pastEnd (symIdx : Nat)
  deriving DecidableEq

/-- The detector's data and both threads' positions. -/
structure State where
  d : ArbitrageDetector
  updater : UpdaterPc
  detector : DetectorPc

/-- Both threads between calls. -/
def init (d : ArbitrageDetector) : State := ⟨d, .idle, .idle⟩

/-- One atomic step of either thread. -/
inductive Step : State → State → Prop where
  | call (st : State) (c : FeedCall) (h : st.updater = .idle) :
      Step st { st with updater := .find c }
  | found (st : State) (c : FeedCall) (s : Nat) (h : st.updater = .find c)
      (hs : st.d.symbolIndex c.symbol.bytes = some s) :
      Step st { st with updater := .write c s }
  | notFound (st : State) (c : FeedCall) (h : st.updater = .find c)
      (hs : st.d.symbolIndex c.symbol.bytes = none) :
      Step st { st with updater := .fetchAdd c }
  | fetchAdd (st : State) (c : FeedCall) (h : st.updater = .fetchAdd c) :
      Step st { st with
        d := { st.d with symbolCount := sizeAdd st.d.symbolCount 1 }
        updater := .fetched c st.d.symbolCount }
  /-- `new_idx >= MAX_SYMBOLS`: `fetch_sub(1)`, and `updatePriceFeed` returns. -/
  | fetchSub (st : State) (c : FeedCall) (i : Nat) (h : st.updater = .fetched c i)
      (hi : maxSymbols ≤ i) :
      Step st { st with
        d := { st.d with symbolCount := sizeSub st.d.symbolCount 1 }
        updater := .idle }
  /-- The slot's name and the index entry. -/
  | insert (st : State) (c : FeedCall) (i : Nat) (h : st.updater = .fetched c i)
      (hi : i < maxSymbols) :
      Step st { st with
        d := { st.d with
          symbolPrices := Function.update st.d.symbolPrices i
            { st.d.symbolPrices i with symbol := strncpy15 c.symbol.bytes }
          symbolIndex := Function.update st.d.symbolIndex c.symbol.bytes (some i) }
        updater := .write c i }
  | writeFeed (st : State) (c : FeedCall) (s : Nat) (d' : ArbitrageDetector)
      (h : st.updater = .write c s) (hw : st.d.writeFeed s c.exchange c.symbol c.quote c.now = some d') :
      Step st { st with d := d', updater := .idle }
  | loadCount (st : State) (h : st.detector = .idle) :
      Step st { st with detector := .scan st.d.symbolCount 0 }
  | visit (st : State) (n s : Nat) (h : st.detector = .scan n s) (hs : s < n)
      (hmax : s < maxSymbols) :
      Step st { st with detector := .scan n (s + 1) }
  | visitPastEnd (st : State) (n s : Nat) (h : st.detector = .scan n s) (hs : s < n)
      (hmax : maxSymbols ≤ s) :
      Step st { st with detector := .pastEnd s }
  | finish (st : State) (n : Nat) (h : st.detector = .scan n n) :
      Step st { st with detector := .idle }

/-! ## The count stays within one of the array -/

theorem writeFeed_symbolCount {d d' : ArbitrageDetector} {s : Nat} {ex sym : CString} {q : Quote}
    {now : Nat} (h : d.writeFeed s ex sym q now = some d') : d'.symbolCount = d.symbolCount := by
  obtain ⟨found, -, rfl⟩ := Option.map_eq_some'.1 h
  dsimp only
  split <;> rfl

/-- What every reachable state keeps: `symbol_count_` exceeds `MAX_SYMBOLS` only between a
    `fetch_add` that returned `MAX_SYMBOLS` and its `fetch_sub`, and a pass loads at most
    `MAX_SYMBOLS + 1`. -/
structure State.Inv (st : State) : Prop where
  count : ∀ c i, st.updater = .fetched c i →
    i ≤ maxSymbols ∧ st.d.symbolCount = i + 1
  count_le : (∀ c i, st.updater ≠ .fetched c i) → st.d.symbolCount ≤ maxSymbols
  scan : ∀ n s, st.detector = .scan n s → n ≤ maxSymbols + 1 ∧ s ≤ n
  pastEnd : ∀ s, st.detector = .pastEnd s → s = maxSymbols

/-- The count any state holds is at most `MAX_SYMBOLS + 1`. -/
theorem State.Inv.count_le_succ {st : State} (h : st.Inv) : st.d.symbolCount ≤ maxSymbols + 1 := by
  by_cases hf : ∃ c i, st.updater = .fetched c i
  · obtain ⟨c, i, hci⟩ := hf
    have := h.count c i hci
    omega
  · exact (h.count_le fun c i hci => hf ⟨c, i, hci⟩).trans (Nat.le_succ _)

theorem inv_init {d : ArbitrageDetector} (h : d.symbolCount ≤ maxSymbols) : (init d).Inv :=
  ⟨(fun _ _ he => nomatch he), (fun _ => h), (fun _ _ he => nomatch he), (fun _ he => nomatch he)⟩

/-- A step of the updater to a state outside the `fetch_add` window, with the count within
    the array, keeps the invariant. -/
theorem State.Inv.updater {st st' : State} (h : st.Inv) (hdet : st'.detector = st.detector)
    (hnf : ∀ c i, st'.updater ≠ .fetched c i) (hle : st'.d.symbolCount ≤ maxSymbols) : st'.Inv :=
  ⟨fun c i he => absurd he (hnf c i), fun _ => hle, hdet ▸ h.scan, hdet ▸ h.pastEnd⟩

theorem State.Inv.detector {st : State} (h : st.Inv) (pc : DetectorPc)
    (hscan : ∀ n s, pc = .scan n s → n ≤ maxSymbols + 1 ∧ s ≤ n)
    (hpast : ∀ s, pc = .pastEnd s → s = maxSymbols) : { st with detector := pc }.Inv :=
  ⟨h.count, h.count_le, hscan, hpast⟩

/-- Every step keeps the invariant. -/
theorem inv_step {st st' : State} (h : st.Inv) (hs : Step st st') : st'.Inv := by
  cases hs with
  | call c hu => exact h.updater rfl (by simp) (h.count_le (by simp [hu]))
  | found c s hu _ => exact h.updater rfl (by simp) (h.count_le (by simp [hu]))
  | notFound c hu _ => exact h.updater rfl (by simp) (h.count_le (by simp [hu]))
  | fetchAdd c hu =>
    -- the count moves one past what `fetch_add` returned
    have hle := h.count_le (by simp [hu])
    refine ⟨fun c' i he => ?_, fun hno => absurd rfl (hno c st.d.symbolCount), h.scan, h.pastEnd⟩
    cases he
    exact ⟨hle, Nat.mod_eq_of_lt (by unfold maxSymbols wordSize at *; omega)⟩
  | fetchSub c i hu hi =>
    -- `fetch_sub` brings it back to `MAX_SYMBOLS`
    obtain ⟨hi', hc⟩ := h.count c i hu
    refine h.updater rfl (by simp) ?_
    show sizeSub st.d.symbolCount 1 ≤ maxSymbols
    rw [sizeSub, hc, show i + 1 + wordSize - 1 = i + wordSize by omega, Nat.add_mod_right,
      Nat.mod_eq_of_lt (by unfold maxSymbols wordSize at *; omega)]
    exact hi'
  | insert c i hu hi =>
    obtain ⟨-, hc⟩ := h.count c i hu
    exact h.updater rfl (by simp) (show st.d.symbolCount ≤ maxSymbols by omega)
  | writeFeed c s d' hu hw =>
    exact h.updater rfl (by simp)
      ((writeFeed_symbolCount hw).trans_le (h.count_le (by simp [hu])))
  | loadCount hd =>
    exact h.detector _ (fun n s he => by cases he; exact ⟨h.count_le_succ, Nat.zero_le _⟩) nofun
  | visit n s hd hs' _ =>
    have := h.scan n s hd
    exact h.detector _ (fun n' s' he => by cases he; omega) nofun
  | visitPastEnd n s hd hs' hmax =>
    have := h.scan n s hd
    exact h.detector _ nofun (fun s' he => by cases he; omega)
  | finish n hd => exact h.detector _ nofun nofun

/-! ## A pass that reads past the array -/

/-- The detection loop from `sym_idx = s` up to `s + k`, within the array. -/
theorem visit_run (d : ArbitrageDetector) (u : UpdaterPc) (n s : Nat) :
    ∀ k, s + k ≤ maxSymbols → s + k ≤ n →
      Relation.ReflTransGen Step ⟨d, u, .scan n s⟩ ⟨d, u, .scan n (s + k)⟩
  | 0, _, _ => .refl
  | k + 1, hk, hn =>
    (visit_run d u n s k (by omega) (by omega)).tail
      (Step.visit ⟨d, u, .scan n (s + k)⟩ n (s + k) rfl (by omega) (by omega))

/-- From a full table, a call for a new symbol and a pass that loads the count between the
    call's `fetch_add` and its `fetch_sub`: the pass visits every symbol and then reads
    `symbol_prices_[MAX_SYMBOLS]`. -/
theorem reads_past_of_full {d : ArbitrageDetector} (hcount : d.symbolCount = maxSymbols)
    {c : FeedCall} (hnew : d.symbolIndex c.symbol.bytes = none) :
    Relation.ReflTransGen Step (init d) ⟨{ d with symbolCount := sizeAdd d.symbolCount 1 },
      .fetched c d.symbolCount, .pastEnd maxSymbols⟩ := by
  let d1 : ArbitrageDetector := { d with symbolCount := sizeAdd d.symbolCount 1 }
  have hd1 : d1.symbolCount = maxSymbols + 1 := by
    show sizeAdd d.symbolCount 1 = _
    rw [hcount]; rfl
  -- the updater: not found, `fetch_add`
  have hupd : Relation.ReflTransGen Step (init d) ⟨d1, .fetched c d.symbolCount, .idle⟩ :=
    .tail (.tail (.single (Step.call (init d) c rfl)) (Step.notFound _ c rfl hnew))
      (Step.fetchAdd ⟨d, .fetchAdd c, .idle⟩ c rfl)
  -- the detector: load `MAX_SYMBOLS + 1`, visit `0 .. MAX_SYMBOLS - 1`, read slot `MAX_SYMBOLS`
  refine (hupd.tail (Step.loadCount _ rfl)).trans ?_
  rw [hd1]
  exact (visit_run d1 _ _ 0 maxSymbols le_rfl (by omega)).tail
    (Step.visitPastEnd _ (maxSymbols + 1) maxSymbols rfl (by omega) le_rfl)

/-- A `CString` of `n` bytes `A`. -/
def letters (n : Nat) : CString :=
  ⟨List.replicate n 65, fun b hb => by rw [List.eq_of_mem_replicate hb]; decide⟩

/-- `updatePriceFeed` at clock `0` for symbols `A`, `AA`, ..., with `100` bytes `A`, from
    exchange `B`. -/
def hundredSymbols : List FeedCall :=
  (List.range maxSymbols).map fun k => ⟨⟨[66], by decide⟩, letters (k + 1), ⟨1, 1, 1, 1⟩, 0⟩

/-- The next call, for a symbol of `101` bytes `A`. -/
def newSymbol : FeedCall := ⟨⟨[66], by decide⟩, letters (maxSymbols + 1), ⟨1, 1, 1, 1⟩, 0⟩

/-- After `100` symbols, the updating thread calls `updatePriceFeed` for a new one: its
    `fetch_add` returns `MAX_SYMBOLS` and moves the count to `101`. A detection pass that
    loads the count now visits symbols `0 .. 99` and then reads `symbol_prices_[100]`. -/
theorem detector_reads_past_symbols :
    ∃ d0 st, (new fun _ _ => 0).runFeeds hundredSymbols = some d0 ∧
      d0.symbolCount = maxSymbols ∧ Relation.ReflTransGen Step (init d0) st ∧
      st.updater = .fetched newSymbol maxSymbols ∧ st.detector = .pastEnd maxSymbols := by
  have hshort : ∀ c ∈ hundredSymbols, Short c.exchange.bytes := by
    simp only [hundredSymbols, List.mem_map]
    rintro _ ⟨k, -, rfl⟩
    show Short [66]
    decide
  obtain ⟨d0, hrun, habs⟩ := (abstracts_new fun _ _ => 0).runFeeds wf_nil hshort
  -- the board holds the hundred symbols, in order
  have hinj : Function.Injective fun k => (letters (k + 1)).bytes := fun a b h => by
    simpa [letters] using congrArg List.length h
  have hkeys : (Board.run [] hundredSymbols).map Prod.fst =
      (List.range maxSymbols).map fun k => (letters (k + 1)).bytes := by
    rw [keys_run, firstCome_of_nodup] <;> simp only [hundredSymbols, List.map_map, Function.comp_def]
    · exact (List.nodup_range _).map hinj
    · simp
  have hcount : d0.symbolCount = maxSymbols := by
    rw [habs.count_eq, ← List.length_map _ Prod.fst, hkeys, List.length_map, List.length_range]
  have hnew : d0.symbolIndex newSymbol.symbol.bytes = none := by
    rcases hs : d0.symbolIndex newSymbol.symbol.bytes with _ | s
    · rfl
    · obtain ⟨feeds, hb⟩ := (habs.index_iff _ _).1 hs
      have hmem := List.mem_map_of_mem Prod.fst (List.getElem?_mem hb)
      rw [hkeys] at hmem
      obtain ⟨k, hk, he⟩ := List.mem_map.1 hmem
      have := congrArg List.length he
      simp [letters, newSymbol] at this hk
      omega
  exact ⟨d0, _, hrun, hcount, reads_past_of_full hcount hnew, by rw [hcount], rfl⟩

/-! ## The one index past the array -/

/-- From a detector holding at most `MAX_SYMBOLS` symbols, in every interleaving, a pass
    loads a count of at most `MAX_SYMBOLS + 1`, and the only index past the array it
    reads is `MAX_SYMBOLS`. -/
theorem pastEnd_eq_maxSymbols {d : ArbitrageDetector} (hd : d.symbolCount ≤ maxSymbols)
    {st : State} (hr : Relation.ReflTransGen Step (init d) st) :
    (∀ n s, st.detector = .scan n s → n ≤ maxSymbols + 1) ∧
      ∀ s, st.detector = .pastEnd s → s = maxSymbols := by
  have hi : st.Inv := by
    induction hr with
    | refl => exact inv_init hd
    | tail _ hs ih => exact inv_step ih hs
  exact ⟨fun n s he => (hi.scan n s he).1, hi.pastEnd⟩

/-- A detector whose table is full, with no symbol indexed. -/
def fullTable : ArbitrageDetector := { new (fun _ _ => 0) with symbolCount := maxSymbols }

/-- From a full table, a pass that reads past the array reads `symbol_prices_[MAX_SYMBOLS]`
    and no other index. -/
theorem pastEnd_eq_maxSymbols_fullTable :
    fullTable.symbolCount ≤ maxSymbols ∧ ∃ st, Relation.ReflTransGen Step (init fullTable) st ∧
      st.detector = .pastEnd maxSymbols ∧ (∀ n s, st.detector = .scan n s → n ≤ maxSymbols + 1) ∧
      ∀ s, st.detector = .pastEnd s → s = maxSymbols := by
  have hr := reads_past_of_full (d := fullTable) rfl (c := newSymbol) rfl
  exact ⟨le_rfl, _, hr, rfl, pastEnd_eq_maxSymbols le_rfl hr⟩

end SymbolRace

end Arbitrage

end OmsCore
