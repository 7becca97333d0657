import OmsCore.OrderManager.Basic
import Mathlib.Data.List.Sort

/-! # The order index

    `orders_` and `exchange_orders_` are written by three calls: `ProcessOrder`,
    `ProcessCancellation` and `UpdateOrder`. Over every sequence of them with fewer than
    `2^64 - 1` admissions (so that `next_order_id_` never wraps), `IndexInv` holds: every
    key maps to an order carrying that id, the keys are exactly the listed ids, each
    listed once, and every list increases.

    That a listed id's stored order names the list's exchange (`ExchangeAgree`) holds only
    while no `UpdateOrder` moves an order to another exchange: `UpdateOrder` overwrites
    the whole record and leaves `exchange_orders_` alone.
-/

namespace OmsCore

namespace OrderManager

/-! ## Spec lemmas of the three calls -/

variable {om : OrderManager}

theorem processOrder_of_canceled {r : Order} (h : r.status = .canceled) (now : Timestamp) :
    om.processOrder r now = om.processCancellation r.id r.exchange now := by
  simp [processOrder, h]

theorem processOrder_orders {r : Order} (h : r.status ≠ .canceled) (now : Timestamp)
    (k : OrderId) : (om.processOrder r now).orders k =
      if k = om.nextOrderId then some { r with id := om.nextOrderId, createdAt := now }
      else om.orders k := by
  simp only [processOrder, if_neg h, Function.update_apply]

theorem processOrder_exchangeOrders {r : Order} (h : r.status ≠ .canceled) (now : Timestamp)
    (e : ExchangeType) : (om.processOrder r now).exchangeOrders e =
      if e = r.exchange then om.exchangeOrders e ++ [om.nextOrderId]
      else om.exchangeOrders e := by
  simp only [processOrder, if_neg h, Function.update_apply]
  split_ifs with he <;> simp [he]

theorem processOrder_nextOrderId {r : Order} (h : r.status ≠ .canceled) (now : Timestamp) :
    (om.processOrder r now).nextOrderId = sizeAdd om.nextOrderId 1 := by
  simp [processOrder, h]

theorem processCancellation_orders (i : OrderId) (e : ExchangeType) (now : Timestamp)
    (k : OrderId) : (om.processCancellation i e now).orders k = (om.orders k).map fun o =>
      if k = i ∧ o.exchange = e then { o with status := .canceled, updatedAt := now }
      else o := by
  unfold processCancellation
  by_cases hk : k = i
  · subst hk
    cases ho : om.orders k with
    | none => simp [ho]
    | some o => by_cases he : o.exchange = e <;> simp [ho, he]
  · cases ho : om.orders i with
    | none => simp [hk]
    | some o => by_cases he : o.exchange = e <;> simp [he, Function.update_apply, hk]

@[simp] theorem processCancellation_exchangeOrders (i : OrderId) (e : ExchangeType)
    (now : Timestamp) : (om.processCancellation i e now).exchangeOrders = om.exchangeOrders := by
  unfold processCancellation; split <;> (try split) <;> rfl

@[simp] theorem processCancellation_nextOrderId (i : OrderId) (e : ExchangeType)
    (now : Timestamp) : (om.processCancellation i e now).nextOrderId = om.nextOrderId := by
  unfold processCancellation; split <;> (try split) <;> rfl

theorem updateOrder_orders (u : Order) (k : OrderId) : (om.updateOrder u).2.orders k =
    if k = u.id ∧ (om.orders k).isSome then some u else om.orders k := by
  unfold updateOrder
  by_cases hk : k = u.id
  · subst hk; cases h : om.orders u.id <;> simp [h]
  · cases om.orders u.id <;> simp [Function.update_apply, hk]

@[simp] theorem updateOrder_exchangeOrders (u : Order) :
    (om.updateOrder u).2.exchangeOrders = om.exchangeOrders := by
  unfold updateOrder; split <;> rfl

@[simp] theorem updateOrder_nextOrderId (u : Order) :
    (om.updateOrder u).2.nextOrderId = om.nextOrderId := by
  unfold updateOrder; split <;> rfl

theorem mem_processOrder_exchangeOrders {r : Order} (h : r.status ≠ .canceled)
    (now : Timestamp) {e : ExchangeType} {k : OrderId} :
    k ∈ (om.processOrder r now).exchangeOrders e ↔
      k ∈ om.exchangeOrders e ∨ (e = r.exchange ∧ k = om.nextOrderId) := by
  rw [processOrder_exchangeOrders h]
  split_ifs with he <;> simp [he]

/-! ## Calls on the index and their runs -/

/-- A call that writes the order index. -/
inductive IndexOp where
  | processOrder (order : Order) (now : Timestamp)
  | processCancellation (orderId : OrderId) (exchange : ExchangeType) (now : Timestamp)
  | updateOrder (order : Order)

/-- The call assigns an id: a `ProcessOrder` of a request that is not a cancellation. -/
def IndexOp.admits : IndexOp → Bool
  | .processOrder o _ => o.status != .canceled
  | _ => false

def applyIndexOp (om : OrderManager) : IndexOp → OrderManager
  | .processOrder o now => om.processOrder o now
  | .processCancellation i e now => om.processCancellation i e now
  | .updateOrder o => (om.updateOrder o).2

/-- A sequence of calls made one after another. -/
def runIndex (om : OrderManager) (ops : List IndexOp) : OrderManager :=
  ops.foldl applyIndexOp om

/-- Number of calls in `ops` that assign an id. -/
def admissions (ops : List IndexOp) : Nat := ops.countP IndexOp.admits

/-! ## The invariant -/

/-- The order index is consistent: keys carry their id, the keys are the listed ids, an id
    is listed under one exchange only, each list increases, and the next id is fresh. -/
structure IndexInv (om : OrderManager) : Prop where
  id_eq : ∀ k o, om.orders k = some o → o.id = k
  key_iff : ∀ k, (om.orders k).isSome ↔ ∃ e, k ∈ om.exchangeOrders e
  listed_lt : ∀ e k, k ∈ om.exchangeOrders e → k < om.nextOrderId
  unique : ∀ e e' k, k ∈ om.exchangeOrders e → k ∈ om.exchangeOrders e' → e = e'
  sorted : ∀ e, (om.exchangeOrders e).Sorted (· < ·)

theorem IndexInv.key_lt (hi : IndexInv om) {k : OrderId} (hk : (om.orders k).isSome) :
    k < om.nextOrderId := by
  obtain ⟨e, he⟩ := (hi.key_iff k).1 hk
  exact hi.listed_lt e k he

theorem indexInv_new (cfg : Config) (now : Nat) : IndexInv (new cfg now) :=
  ⟨by simp [new], by simp [new], by simp [new], by simp [new], by simp [new]⟩

theorem IndexInv.processCancellation (hi : IndexInv om) (i : OrderId) (e : ExchangeType)
    (now : Timestamp) : IndexInv (om.processCancellation i e now) := by
  refine ⟨fun k o hk => ?_, fun k => ?_, by simpa using hi.listed_lt, by simpa using hi.unique,
    by simpa using hi.sorted⟩
  · rw [processCancellation_orders] at hk
    obtain ⟨o₀, h₀, rfl⟩ := Option.map_eq_some'.1 hk
    split_ifs <;> exact hi.id_eq k o₀ h₀
  · simpa [processCancellation_orders] using hi.key_iff k

theorem IndexInv.updateOrder (hi : IndexInv om) (u : Order) :
    IndexInv (om.updateOrder u).2 := by
  refine ⟨fun k o hk => ?_, fun k => ?_, by simpa using hi.listed_lt, by simpa using hi.unique,
    by simpa using hi.sorted⟩
  · rw [updateOrder_orders] at hk
    split_ifs at hk with h
    · cases hk; exact h.1.symm
    · exact hi.id_eq k o hk
  · rw [updateOrder_orders, updateOrder_exchangeOrders, ← hi.key_iff k]
    split_ifs with h
    · simp [h.2]
    · rfl

theorem IndexInv.admit (hi : IndexInv om) (hb : om.nextOrderId + 1 < wordSize) {r : Order}
    (h : r.status ≠ .canceled) (now : Timestamp) : IndexInv (om.processOrder r now) := by
  have hnext : (om.processOrder r now).nextOrderId = om.nextOrderId + 1 := by
    rw [processOrder_nextOrderId h, sizeAdd, Nat.mod_eq_of_lt hb]
  have fresh : ∀ e, om.nextOrderId ∉ om.exchangeOrders e :=
    fun e hm => lt_irrefl _ (hi.listed_lt e _ hm)
  refine ⟨fun k o hk => ?_, fun k => ?_, fun e k hk => ?_, fun e e' k hk hk' => ?_, fun e => ?_⟩
  · rw [processOrder_orders h] at hk
    split_ifs at hk with hkn
    · cases hk; exact hkn.symm
    · exact hi.id_eq k o hk
  · simp only [processOrder_orders h, mem_processOrder_exchangeOrders h]
    split_ifs with hkn
    · exact ⟨fun _ => ⟨r.exchange, .inr ⟨rfl, hkn⟩⟩, fun _ => rfl⟩
    · rw [hi.key_iff k]
      exact exists_congr fun e => by simp [hkn]
  · rw [hnext]
    rcases (mem_processOrder_exchangeOrders h now).1 hk with hk | ⟨-, rfl⟩
    · exact Nat.lt_succ_of_lt (hi.listed_lt e k hk)
    · exact Nat.lt_succ_self _
  · rw [mem_processOrder_exchangeOrders h] at hk hk'
    rcases hk with hk | ⟨rfl, rfl⟩ <;> rcases hk' with hk' | ⟨rfl, hkn⟩
    · exact hi.unique e e' k hk hk'
    · exact absurd hk (hkn ▸ fresh e)
    · exact absurd hk' (fresh e')
    · rfl
  · rw [processOrder_exchangeOrders h]
    split_ifs
    · exact List.pairwise_append.2 ⟨hi.sorted e, List.pairwise_singleton _ _,
        fun a ha b hb => by simp at hb; exact hb ▸ hi.listed_lt e a ha⟩
    · exact hi.sorted e

theorem IndexInv.processOrder (hi : IndexInv om) {r : Order}
    (hb : r.status ≠ .canceled → om.nextOrderId + 1 < wordSize) (now : Timestamp) :
    IndexInv (om.processOrder r now) := by
  by_cases h : r.status = .canceled
  · rw [processOrder_of_canceled h]; exact hi.processCancellation _ _ _
  · exact hi.admit (hb h) h now

theorem nextOrderId_applyIndexOp {op : IndexOp}
    (hb : op.admits → om.nextOrderId + 1 < wordSize) :
    (om.applyIndexOp op).nextOrderId = om.nextOrderId + if op.admits then 1 else 0 := by
  cases op with
  | processOrder r now =>
    by_cases h : r.status = .canceled
    · simp [applyIndexOp, IndexOp.admits, processOrder_of_canceled h, h]
    · simp [IndexOp.admits, h] at hb
      simp [applyIndexOp, IndexOp.admits, processOrder_nextOrderId h, h, sizeAdd,
        Nat.mod_eq_of_lt hb]
  | processCancellation => simp [applyIndexOp, IndexOp.admits]
  | updateOrder => simp [applyIndexOp, IndexOp.admits]

theorem IndexInv.applyIndexOp (hi : IndexInv om) {op : IndexOp}
    (hb : op.admits → om.nextOrderId + 1 < wordSize) : IndexInv (om.applyIndexOp op) := by
  cases op with
  | processOrder r now => exact hi.processOrder (fun h => hb (by simp [IndexOp.admits, h])) now
  | processCancellation i e now => exact hi.processCancellation i e now
  | updateOrder u => exact hi.updateOrder u

/-- Every run with fewer admissions than ids left keeps the invariant. -/
theorem IndexInv.runIndex (hi : IndexInv om) {ops : List IndexOp}
    (hb : om.nextOrderId + admissions ops < wordSize) :
    IndexInv (om.runIndex ops) ∧
      (om.runIndex ops).nextOrderId = om.nextOrderId + admissions ops := by
  induction ops generalizing om with
  | nil => exact ⟨hi, rfl⟩
  | cons op ops ih =>
    have hc : admissions (op :: ops) = admissions ops + if op.admits then 1 else 0 :=
      List.countP_cons _ _ _
    have h1 : op.admits → om.nextOrderId + 1 < wordSize := fun ha => by
      rw [hc, if_pos ha] at hb; omega
    have hn := nextOrderId_applyIndexOp h1
    obtain ⟨h₁, h₂⟩ := ih (hi.applyIndexOp h1) (by rw [hn]; rw [hc] at hb; omega)
    exact ⟨h₁, by rw [runIndex, List.foldl_cons, ← runIndex, h₂, hn, hc]; omega⟩

/-! ## Exchanges of listed orders -/

/-- Every id listed under `e` is stored with exchange `e`. -/
def ExchangeAgree (om : OrderManager) : Prop :=
  ∀ e k, k ∈ om.exchangeOrders e → ∃ o, om.orders k = some o ∧ o.exchange = e

/-- The call does not move a stored order to another exchange. -/
def KeepsExchange (om : OrderManager) : IndexOp → Prop
  | .updateOrder u => ∀ o, om.orders u.id = some o → u.exchange = o.exchange
  | _ => True

/-- No call of the run moves a stored order to another exchange. -/
def KeepsExchanges : OrderManager → List IndexOp → Prop
  | _, [] => True
  | om, op :: ops => om.KeepsExchange op ∧ KeepsExchanges (om.applyIndexOp op) ops

theorem ExchangeAgree.applyIndexOp (hi : IndexInv om) (ha : ExchangeAgree om) {op : IndexOp}
    (hb : op.admits → om.nextOrderId + 1 < wordSize) (hk : om.KeepsExchange op) :
    ExchangeAgree (om.applyIndexOp op) := by
  intro e k hke
  cases op with
  | processOrder r now =>
    by_cases h : r.status = .canceled
    · simp only [OrderManager.applyIndexOp, processOrder_of_canceled h,
        processCancellation_exchangeOrders, processCancellation_orders] at hke ⊢
      obtain ⟨o, ho, rfl⟩ := ha e k hke
      exact ⟨_, by rw [ho]; rfl, by dsimp only; split_ifs <;> rfl⟩
    · simp only [OrderManager.applyIndexOp, processOrder_orders h] at hke ⊢
      rcases (mem_processOrder_exchangeOrders h now).1 hke with hke | ⟨rfl, rfl⟩
      · rw [if_neg (hi.listed_lt e k hke).ne]; exact ha e k hke
      · exact ⟨_, if_pos rfl, rfl⟩
  | processCancellation i e' now =>
    simp only [OrderManager.applyIndexOp, processCancellation_exchangeOrders,
      processCancellation_orders] at hke ⊢
    obtain ⟨o, ho, rfl⟩ := ha e k hke
    exact ⟨_, by rw [ho]; rfl, by dsimp only; split_ifs <;> rfl⟩
  | updateOrder u =>
    simp only [OrderManager.applyIndexOp, updateOrder_exchangeOrders, updateOrder_orders]
      at hke ⊢
    obtain ⟨o, ho, rfl⟩ := ha e k hke
    split_ifs with h
    · exact ⟨u, rfl, hk o (h.1 ▸ ho)⟩
    · exact ⟨o, ho, rfl⟩

theorem ExchangeAgree.runIndex (hi : IndexInv om) (ha : ExchangeAgree om) {ops : List IndexOp}
    (hb : om.nextOrderId + admissions ops < wordSize) (hk : KeepsExchanges om ops) :
    ExchangeAgree (om.runIndex ops) := by
  induction ops generalizing om with
  | nil => exact ha
  | cons op ops ih =>
    have hc : admissions (op :: ops) = admissions ops + if op.admits then 1 else 0 :=
      List.countP_cons _ _ _
    have h1 : op.admits → om.nextOrderId + 1 < wordSize := fun h => by
      rw [hc, if_pos h] at hb; omega
    exact ih (hi.applyIndexOp h1) (ha.applyIndexOp hi h1 hk.1)
      (by rw [nextOrderId_applyIndexOp h1]; rw [hc] at hb; omega) hk.2

/-- Ids that are all keys carrying themselves come back out of `filterMap`. -/
theorem ids_filterMap {l : List OrderId} {f : OrderId → Option Order}
    (h : ∀ k ∈ l, ∃ o, f k = some o ∧ o.id = k) : (l.filterMap f).map Order.id = l := by
  induction l with
  | nil => rfl
  | cons k l ih =>
    obtain ⟨o, ho, hid⟩ := h k (List.mem_cons_self _ _)
    simp [List.filterMap_cons, ho, hid, ih fun j hj => h j (List.mem_cons_of_mem _ hj)]

theorem mem_getOrdersByExchange (hi : IndexInv om) (ha : ExchangeAgree om) (e : ExchangeType)
    (o : Order) : o ∈ om.getOrdersByExchange e ↔ (∃ k, om.orders k = some o) ∧ o.exchange = e := by
  simp only [getOrdersByExchange, List.mem_filterMap]
  constructor
  · rintro ⟨k, hk, ho⟩
    obtain ⟨o', ho', he⟩ := ha e k hk
    exact ⟨⟨k, ho⟩, by rw [ho] at ho'; cases ho'; exact he⟩
  · rintro ⟨⟨k, ho⟩, rfl⟩
    obtain ⟨e', hk⟩ := (hi.key_iff k).1 (by simp [ho])
    obtain ⟨o', ho', he⟩ := ha e' k hk
    rw [ho] at ho'; cases ho'
    exact ⟨k, he ▸ hk, ho⟩

theorem getOrdersByExchange_ids (hi : IndexInv om) (ha : ExchangeAgree om) (e : ExchangeType) :
    (om.getOrdersByExchange e).map Order.id = om.exchangeOrders e :=
  ids_filterMap fun k hk => by
    obtain ⟨o, ho, -⟩ := ha e k hk
    exact ⟨o, ho, hi.id_eq k o ho⟩

/-! ## The order index over every run -/

/-- Over every sequence of `ProcessOrder`, `ProcessCancellation` and `UpdateOrder` calls
    with fewer than `2^64 - 1` admissions, from a fresh manager: every key maps to an order
    carrying that id, the keys are the listed ids, each listed under one exchange and once,
    and every list increases. As long as no `UpdateOrder` moves an order to another
    exchange, every listed id is also stored under its list's exchange, and
    `GetOrdersByExchange(e)` returns exactly the stored orders of exchange `e`, each once,
    by increasing id, that is in admission order. -/
theorem orderIndex_consistent (cfg : Config) (now : Nat) (ops : List IndexOp)
    (hb : admissions ops < 2 ^ 64 - 1) :
    IndexInv ((new cfg now).runIndex ops) ∧
      (KeepsExchanges (new cfg now) ops →
        ExchangeAgree ((new cfg now).runIndex ops) ∧
        ∀ e, (∀ o, o ∈ ((new cfg now).runIndex ops).getOrdersByExchange e ↔
            (∃ k, ((new cfg now).runIndex ops).orders k = some o) ∧ o.exchange = e) ∧
          ((((new cfg now).runIndex ops).getOrdersByExchange e).map Order.id).Sorted
            (· < ·)) := by
  have hb' : (new cfg now).nextOrderId + admissions ops < wordSize := by
    show 1 + _ < 2 ^ 64; omega
  have hi := ((indexInv_new cfg now).runIndex hb').1
  refine ⟨hi, fun hk => ?_⟩
  have ha := ExchangeAgree.runIndex (indexInv_new cfg now) (by simp [ExchangeAgree, new]) hb' hk
  exact ⟨ha, fun e => ⟨mem_getOrdersByExchange hi ha e, by
    rw [getOrdersByExchange_ids hi ha]; exact hi.sorted e⟩⟩

/-- Orders admitted on `BINANCE_SPOT` and on `OKX_SPOT`, the first updated on its own
    exchange, the second canceled. -/
def updateThenCancel : List IndexOp :=
  [.processOrder Order.blank 0, .processOrder { Order.blank with exchange := .okxSpot } 0,
    .updateOrder { Order.blank with id := 1, quantity := 5 }, .processCancellation 2 .okxSpot 7]

theorem orderIndex_consistent_updateThenCancel :
    admissions updateThenCancel < 2 ^ 64 - 1 ∧ KeepsExchanges (new Config.default 0) updateThenCancel ∧
      (((new Config.default 0).runIndex updateThenCancel).getOrdersByExchange .okxSpot).map
        Order.status = [.canceled] ∧
      IndexInv ((new Config.default 0).runIndex updateThenCancel) ∧
      ExchangeAgree ((new Config.default 0).runIndex updateThenCancel) ∧
      ∀ e, (∀ o, o ∈ ((new Config.default 0).runIndex updateThenCancel).getOrdersByExchange e ↔
          (∃ k, ((new Config.default 0).runIndex updateThenCancel).orders k = some o) ∧
            o.exchange = e) ∧
        ((((new Config.default 0).runIndex updateThenCancel).getOrdersByExchange e).map
          Order.id).Sorted (· < ·) := by
  have hk : KeepsExchanges (new Config.default 0) updateThenCancel :=
    ⟨trivial, trivial, fun o h => by cases h; rfl, trivial, trivial⟩
  obtain ⟨hi, h⟩ := orderIndex_consistent Config.default 0 updateThenCancel (by decide)
  exact ⟨by decide, hk, by decide, hi, h hk⟩

/-- An `UpdateOrder` that names another exchange leaves the id listed under the old one:
    after admitting an order on `BINANCE_SPOT` and updating it to `UPBIT`, the
    `BINANCE_SPOT` list returns an `UPBIT` order and the `UPBIT` list returns nothing. -/
theorem orderIndex_exchange_moved :
    let om := (new Config.default 0).runIndex
      [.processOrder Order.blank 0, .updateOrder { Order.blank with id := 1, exchange := .upbit }]
    ¬ ExchangeAgree om ∧ om.getOrdersByExchange .upbit = [] ∧
      (om.getOrdersByExchange .binanceSpot).map Order.exchange = [.upbit] := by
  intro om
  refine ⟨fun h => ?_, by decide, by decide⟩
  obtain ⟨o, ho, he⟩ := h .binanceSpot 1 (by decide)
  have h1 : (om.orders 1).map Order.exchange = some .upbit := by decide
  rw [ho, Option.map_some', Option.some.injEq, he] at h1
  exact absurd h1 (by decide)

end OrderManager

end OmsCore
