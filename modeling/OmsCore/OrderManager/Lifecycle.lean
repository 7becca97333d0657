import OmsCore.OrderManager.Index

/-! # Order status over a run

    Nothing in the order index protects a terminal status. `UpdateOrder` overwrites the
    whole record, and `ProcessCancellation` sets `CANCELED` on any stored order of the
    named exchange without reading its status, so a FILLED, REJECTED or EXPIRED order can
    be cancelled (`filled_order_canceled`). What does hold: a stored order is never
    removed, and its status changes only through those two calls (`status_step`,
    `stored_status_persists`).
-/

namespace OmsCore

namespace OrderManager

/-- The call is an `UpdateOrder` of the record stored under `k`. -/
def IndexOp.updates (k : OrderId) : IndexOp → Prop
  | .updateOrder u => u.id = k
  | _ => False

/-- The call cancels the order stored under `k` if that order's exchange is `e`: a
    `ProcessCancellation`, made directly or by `ProcessOrder` of a cancel request. -/
def IndexOp.cancels (k : OrderId) (e : ExchangeType) : IndexOp → Prop
  | .processOrder r _ => r.status = .canceled ∧ r.id = k ∧ r.exchange = e
  | .processCancellation i e' _ => i = k ∧ e' = e
  | .updateOrder _ => False

variable {om : OrderManager}

theorem cancellation_status (i : OrderId) (e : ExchangeType) (now : Timestamp) {k : OrderId}
    {o : Order} (hk : om.orders k = some o) :
    ∃ o', (om.processCancellation i e now).orders k = some o' ∧ o'.exchange = o.exchange ∧
      (o'.status = o.status ∨ (i = k ∧ e = o.exchange ∧ o'.status = .canceled)) := by
  rw [processCancellation_orders, hk]
  by_cases h : k = i ∧ o.exchange = e
  · exact ⟨_, rfl, by simp [h], .inr ⟨h.1.symm, h.2.symm, by simp [h]⟩⟩
  · exact ⟨o, by simp [h], rfl, .inl rfl⟩

/-- One call that is not an `UpdateOrder` of `k` keeps the order stored under `k` with
    its exchange, and keeps its status unless it cancels it. -/
theorem status_step (hi : IndexInv om) {op : IndexOp}
    (hb : op.admits → om.nextOrderId + 1 < wordSize) {k : OrderId} {o : Order}
    (hk : om.orders k = some o) (hu : ¬ op.updates k) :
    ∃ o', (om.applyIndexOp op).orders k = some o' ∧ o'.exchange = o.exchange ∧
      (o'.status = o.status ∨ (op.cancels k o.exchange ∧ o'.status = .canceled)) := by
  cases op with
  | processOrder r now =>
    by_cases h : r.status = .canceled
    · obtain ⟨o', h₁, h₂, h₃⟩ := cancellation_status r.id r.exchange now hk
      refine ⟨o', by rw [applyIndexOp, processOrder_of_canceled h]; exact h₁, h₂, ?_⟩
      exact h₃.imp_right fun ⟨hi, he, hs⟩ => ⟨⟨h, hi, he⟩, hs⟩
    · refine ⟨o, ?_, rfl, .inl rfl⟩
      rw [applyIndexOp, processOrder_orders h, if_neg (hi.key_lt (by simp [hk])).ne, hk]
  | processCancellation i e now =>
    obtain ⟨o', h₁, h₂, h₃⟩ := cancellation_status i e now hk
    exact ⟨o', h₁, h₂, h₃.imp_right fun ⟨hi, he, hs⟩ => ⟨⟨hi, he⟩, hs⟩⟩
  | updateOrder u =>
    refine ⟨o, ?_, rfl, .inl rfl⟩
    rw [applyIndexOp, updateOrder_orders, if_neg fun h => hu h.1.symm, hk]

/-- Along a run with no `UpdateOrder` of `k`, and, unless the status is already
    `CANCELED`, no cancellation of it, the order stored under `k` keeps its status. -/
theorem status_run (hi : IndexInv om) {ops : List IndexOp}
    (hb : om.nextOrderId + admissions ops < wordSize) {k : OrderId} {o : Order}
    (hk : om.orders k = some o) (hu : ∀ op ∈ ops, ¬ op.updates k)
    (hc : o.status ≠ .canceled → ∀ op ∈ ops, ¬ op.cancels k o.exchange) :
    ∃ o', (om.runIndex ops).orders k = some o' ∧ o'.status = o.status := by
  induction ops generalizing om o with
  | nil => exact ⟨o, hk, rfl⟩
  | cons op ops ih =>
    have hc' : admissions (op :: ops) = admissions ops + if op.admits then 1 else 0 :=
      List.countP_cons _ _ _
    have h1 : op.admits → om.nextOrderId + 1 < wordSize := fun h => by
      rw [hc', if_pos h] at hb; omega
    obtain ⟨o₁, h₁, he, hs⟩ := status_step hi h1 hk (hu op (List.mem_cons_self _ _))
    have hs₁ : o₁.status = o.status := by
      rcases hs with hs | ⟨hcan, hs⟩
      · exact hs
      · by_contra hne
        exact hc (hs ▸ Ne.symm hne) op (List.mem_cons_self _ _) hcan
    obtain ⟨o', h', hs'⟩ := ih (hi.applyIndexOp h1)
      (by rw [nextOrderId_applyIndexOp h1]; rw [hc'] at hb; omega) h₁
      (fun op hop => hu op (List.mem_cons_of_mem _ hop))
      (fun hne op hop => by rw [he]; exact hc (hs₁ ▸ hne) op (List.mem_cons_of_mem _ hop))
    exact ⟨o', h', hs'.trans hs₁⟩

/-- From any state reached by `ProcessOrder`, `ProcessCancellation` and `UpdateOrder`
    calls, with fewer than `2^64 - 1` admissions over the whole run, a stored order stays
    stored and keeps its status through any later calls none of which is an `UpdateOrder`
    of its id, provided also that none cancels it unless it is already `CANCELED`. -/
theorem stored_status_persists (cfg : Config) (now : Nat) (pre post : List IndexOp)
    (hb : admissions (pre ++ post) < 2 ^ 64 - 1) {k : OrderId} {o : Order}
    (hk : ((new cfg now).runIndex pre).orders k = some o)
    (hu : ∀ op ∈ post, ¬ op.updates k)
    (hc : o.status ≠ .canceled → ∀ op ∈ post, ¬ op.cancels k o.exchange) :
    ∃ o', ((new cfg now).runIndex (pre ++ post)).orders k = some o' ∧ o'.status = o.status := by
  have hsum : admissions (pre ++ post) = admissions pre + admissions post :=
    List.countP_append _ _ _
  obtain ⟨hi, hn⟩ := (indexInv_new cfg now).runIndex
    (show (new cfg now).nextOrderId + admissions pre < wordSize by show 1 + _ < 2 ^ 64; omega)
  rw [runIndex, List.foldl_append, ← runIndex, ← runIndex]
  exact status_run hi (by rw [hn]; show 1 + _ + _ < 2 ^ 64; omega) hk hu hc

theorem stored_status_persists_admit :
    admissions ([.processOrder Order.blank 0] ++ [.processOrder Order.blank 5]) < 2 ^ 64 - 1 ∧
      ((new Config.default 0).runIndex [.processOrder Order.blank 0]).orders 1 =
        some { Order.blank with id := 1 } ∧
      (∀ op ∈ [IndexOp.processOrder Order.blank 5], ¬ op.updates 1) ∧
      ((({ Order.blank with id := 1 } : Order)).status ≠ .canceled →
        ∀ op ∈ [IndexOp.processOrder Order.blank 5], ¬ op.cancels 1 Order.blank.exchange) ∧
      ∃ o', ((new Config.default 0).runIndex
          ([.processOrder Order.blank 0] ++ [.processOrder Order.blank 5])).orders 1 = some o' ∧
        o'.status = ({ Order.blank with id := 1 } : Order).status :=
  have hk : ((new Config.default 0).runIndex [.processOrder Order.blank 0]).orders 1 =
      some { Order.blank with id := 1 } := by decide
  have hu : ∀ op ∈ [IndexOp.processOrder Order.blank 5], ¬ op.updates 1 := by
    simp [IndexOp.updates]
  have hc : ((({ Order.blank with id := 1 } : Order)).status ≠ .canceled →
      ∀ op ∈ [IndexOp.processOrder Order.blank 5], ¬ op.cancels 1 Order.blank.exchange) := by
    simp [IndexOp.cancels, Order.blank]
  ⟨by decide, hk, hu, hc,
    stored_status_persists Config.default 0 _ _ (by decide) hk hu hc⟩

/-- A FILLED order does not stay FILLED: `ProcessCancellation` cancels it. -/
theorem filled_order_canceled :
    let om := (new Config.default 0).runIndex
      [.processOrder Order.blank 0, .updateOrder { Order.blank with id := 1, status := .filled }]
    (om.orders 1).map Order.status = some .filled ∧
      ((om.applyIndexOp (.processCancellation 1 .binanceSpot 7)).orders 1).map Order.status =
        some .canceled := by
  decide

end OrderManager

end OmsCore
