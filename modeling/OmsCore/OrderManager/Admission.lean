import OmsCore.OrderManager.Dispatch

/-! # Admission: the rate gate and the exchange's queue

    `SubmitOrder` and `CancelOrder` pass the per-second gate, then push onto the queue of
    the request's exchange. This module follows single calls and whole runs of them.

    For an exchange byte outside `BINANCE_SPOT ..= UPBIT`, `order_queues_[e]` inserts a null
    queue that the push dereferences (`unknown_exchange_undefined`).

    The gate's windows are tumbling: a call at least one second after the start of the
    current window opens the next (`windowPositions`). The counter `orders_this_second_` is
    a `uint32_t` that every call bumps, admitted or not, so a call passes exactly when its
    position in the window, modulo `2^32`, is below the limit
    (`rate_gate_window_positions`); past `2^32` calls a window admits again
    (`gate_counter_wraps`).
-/

namespace OmsCore

namespace OrderManager

variable {om om' : OrderManager}

/-! ## One call -/

/-- A request reaches the push only through the gate. -/
theorem submitOrder_gate {order : Order} {now : Nat}
    (h : om.submitOrder order now = some (true, om')) : (om.rateGate now).1 = true := by
  unfold submitOrder at h
  cases hp : (om.rateGate now).1
  · simp [hp] at h
  · rfl

/-- What a call leaves of the gate and of the rejection counter. -/
theorem submitOrder_counters {order : Order} {now : Nat} {ok : Bool}
    (h : om.submitOrder order now = some (ok, om')) :
    om'.config = om.config ∧ om'.ordersThisSecond = (om.rateGate now).2.ordersThisSecond ∧
      om'.lastRateCheck = (om.rateGate now).2.lastRateCheck ∧
      om'.stats.ordersRejected =
        if ok then om.stats.ordersRejected else sizeAdd om.stats.ordersRejected 1 := by
  obtain ⟨c, t, hg⟩ := rateGate_snd om now
  rcases submitOrder_cases h with ⟨rfl, rfl⟩ | ⟨q, q', -, -, rfl⟩
  · simp [hg, reject]
  · cases ok <;> simp [hg, reject, setQueue]

/-- An exchange byte outside `BINANCE_SPOT ..= UPBIT`: the first call on a fresh manager
    passes the gate, and `order_queues_[7]` is the null queue that the push dereferences. -/
theorem unknown_exchange_undefined :
    (new .default 0).submitOrder { Order.blank with exchange := ⟨7⟩ } 0 = none ∧
      (new .default 0).cancelOrder 1 ⟨7⟩ 0 = none := ⟨rfl, rfl⟩

/-! ## Runs of calls -/

/-- A call of the admission API, with the steady-clock reading it takes. -/
inductive Call where
  | submitOrder (order : Order) (now : Nat)
  | cancelOrder (orderId : OrderId) (exchange : ExchangeType) (now : Nat)

namespace Call

/-- The reading the call takes. -/
def now : Call → Nat
  | submitOrder _ now => now
  | cancelOrder _ _ now => now

/-- The request the call pushes. -/
def request : Call → Order
  | submitOrder order _ => order
  | cancelOrder orderId exchange _ => cancelRequest orderId exchange

end Call

/-- A call made on `om`. -/
def call (om : OrderManager) : Call → Option (Bool × OrderManager)
  | .submitOrder order now => om.submitOrder order now
  | .cancelOrder orderId exchange now => om.cancelOrder orderId exchange now

/-- The calls in turn: what each returned, and the manager after them. -/
def runCalls (om : OrderManager) : List Call → Option (List Bool × OrderManager)
  | [] => some ([], om)
  | c :: cs => (om.call c).bind fun r =>
      (r.2.runCalls cs).map fun rs => (r.1 :: rs.1, rs.2)

theorem call_eq (c : Call) : om.call c = om.submitOrder c.request c.now := by
  cases c <;> rfl

theorem runCalls_cons_eq_some {c : Call} {cs : List Call} {oks : List Bool}
    (h : om.runCalls (c :: cs) = some (oks, om')) :
    ∃ ok om₁ oks', om.call c = some (ok, om₁) ∧ om₁.runCalls cs = some (oks', om') ∧
      oks = ok :: oks' := by
  obtain ⟨⟨ok, om₁⟩, h₁, h₂⟩ := Option.bind_eq_some.1 h
  obtain ⟨⟨oks', om₂⟩, h₃, h₄⟩ := Option.map_eq_some'.1 h₂
  cases h₄
  exact ⟨ok, om₁, oks', h₁, h₃, rfl⟩

theorem runCalls_append (cs ds : List Call) :
    om.runCalls (cs ++ ds) = (om.runCalls cs).bind fun r =>
      (r.2.runCalls ds).map fun rs => (r.1 ++ rs.1, rs.2) := by
  induction cs generalizing om with
  | nil => cases h : om.runCalls ds <;> simp [runCalls, h]
  | cons c cs ih =>
    simp only [List.cons_append, runCalls]
    cases om.call c with
    | none => rfl
    | some r =>
      simp only [Option.some_bind, List.append_eq]
      rw [ih]
      cases r.2.runCalls cs <;> simp [Function.comp_def]

/-! ## The windows of the gate -/

/-- The tumbling windows of the rate limit, one call at a time: a call at `t` at least one
    second after the start of the current window opens a new one. The call's position in
    its window, counted from `0`, then the window's start and its number of calls. -/
def windowStep (start count t : Nat) : Nat × Nat × Nat :=
  if t - start ≥ oneSecond then (0, t, 1) else (count, start, count + 1)

/-- The position in its window of each call of a run. -/
def windowPositions (start count : Nat) : List Nat → List Nat
  | [] => []
  | t :: ts =>
    let w := windowStep start count t
    w.1 :: windowPositions w.2.1 w.2.2 ts

/-- The gate's decisions on a run of readings, and the manager after them. -/
def gateRun (om : OrderManager) : List Nat → List Bool × OrderManager
  | [] => ([], om)
  | t :: ts =>
    let r := om.rateGate t
    ((r.2.gateRun ts).1.cons r.1, (r.2.gateRun ts).2)

/-- One gate step against the windows, `orders_this_second_` holding the window's count
    modulo `2^32`. -/
theorem rateGate_windowStep (t : Nat) {start count : Nat} (hl : om.lastRateCheck = start)
    (hc : om.ordersThisSecond = count % u32Size) :
    (om.rateGate t).1 = decide ((windowStep start count t).1 % u32Size <
        om.config.maxOrdersPerSecond) ∧
      (om.rateGate t).2.config = om.config ∧
      (om.rateGate t).2.lastRateCheck = (windowStep start count t).2.1 ∧
      (om.rateGate t).2.ordersThisSecond = (windowStep start count t).2.2 % u32Size := by
  unfold rateGate windowStep
  subst hl
  split_ifs <;> simp only [hc, ge_iff_le, Nat.zero_mod, ← Nat.not_lt, decide_not,
    Bool.not_not, Nat.mod_add_mod, and_self, and_true]

theorem gateRun_fst (ts : List Nat) {start count : Nat} (hl : om.lastRateCheck = start)
    (hc : om.ordersThisSecond = count % u32Size) :
    (om.gateRun ts).1 = (windowPositions start count ts).map fun i =>
      decide (i % u32Size < om.config.maxOrdersPerSecond) := by
  induction ts generalizing om start count with
  | nil => rfl
  | cons t ts ih =>
    obtain ⟨h₁, h₂, h₃, h₄⟩ := rateGate_windowStep t hl hc
    simp only [gateRun, windowPositions, List.map_cons, h₁, ih h₃ h₄, h₂]

/-- Along a run, a call returns `true` only at a window position the gate admits, and
    each call that returns `false` bumps `orders_rejected`. -/
theorem runCalls_gate (calls : List Call) {start count r : Nat} {oks : List Bool}
    (hl : om.lastRateCheck = start) (hc : om.ordersThisSecond = count % u32Size)
    (hr : om.stats.ordersRejected = r % wordSize) (h : om.runCalls calls = some (oks, om')) :
    List.Forall₂ (fun ok g => ok = true → g = true) oks
        ((windowPositions start count (calls.map Call.now)).map fun i =>
          decide (i % u32Size < om.config.maxOrdersPerSecond)) ∧
      om'.stats.ordersRejected = (r + oks.count false) % wordSize := by
  induction calls generalizing om start count r oks with
  | nil =>
    obtain ⟨rfl, rfl⟩ := Prod.mk.inj (Option.some.inj h)
    exact ⟨.nil, by simpa using hr⟩
  | cons c cs ih =>
    obtain ⟨ok, om₁, oks', h₁, h₂, rfl⟩ := runCalls_cons_eq_some h
    rw [call_eq] at h₁
    obtain ⟨g₁, g₂, g₃, g₄⟩ := rateGate_windowStep c.now hl hc
    obtain ⟨k₁, k₂, k₃, k₄⟩ := submitOrder_counters h₁
    have hr₁ : om₁.stats.ordersRejected = (r + if ok then 0 else 1) % wordSize := by
      rw [k₄, hr]
      cases ok <;> simp [sizeAdd, Nat.mod_add_mod]
    obtain ⟨ih₁, ih₂⟩ := ih (k₃.trans g₃) (k₂.trans g₄) hr₁ h₂
    refine ⟨.cons (fun hok => ?_) (by rwa [k₁] at ih₁), ?_⟩
    · subst hok
      exact (g₁.symm.trans (submitOrder_gate h₁)).symm ▸ rfl
    · rw [ih₂]
      cases ok <;> simp [List.count_cons, Nat.add_assoc, Nat.add_comm 1]

/-- From construction at reading `t0`, along any run of calls: the gate admits a call
    exactly when its position in its window, modulo `2^32`, is below the limit; a call
    returns `true` only if admitted; `orders_rejected` counts the calls that returned
    `false`, modulo `2^64`. -/
theorem rate_gate_window_positions (cfg : Config) (t0 : Nat) (calls : List Call)
    {oks : List Bool} {om' : OrderManager} (h : (new cfg t0).runCalls calls = some (oks, om')) :
    ((new cfg t0).gateRun (calls.map Call.now)).1 =
        (windowPositions t0 0 (calls.map Call.now)).map
          (fun i => decide (i % u32Size < cfg.maxOrdersPerSecond)) ∧
      List.Forall₂ (fun ok g => ok = true → g = true) oks
        ((windowPositions t0 0 (calls.map Call.now)).map
          (fun i => decide (i % u32Size < cfg.maxOrdersPerSecond))) ∧
      om'.stats.ordersRejected = oks.count false % wordSize := by
  have := runCalls_gate calls rfl (show (new cfg t0).ordersThisSecond = 0 % u32Size from rfl)
    (show (new cfg t0).stats.ordersRejected = 0 % wordSize from rfl) h
  rw [Nat.zero_add] at this
  exact ⟨gateRun_fst _ rfl (show (new cfg t0).ordersThisSecond = 0 % u32Size from rfl), this⟩

/-- With a limit of one call a second: a call at `0`, one at `5` in the same window, one a
    second after the first, which opens the next window. -/
def refusedCalls : List Call :=
  [.submitOrder Order.blank 0, .submitOrder Order.blank 5, .submitOrder Order.blank oneSecond]

/-- The second call is at position `1` of its window and refused, the third at position `0`
    of the next and admitted; the one refusal is counted. -/
theorem rate_gate_window_positions_refused :
    ∃ om', (new ⟨4, 1⟩ 0).runCalls refusedCalls = some ([true, false, true], om') ∧
      windowPositions 0 0 (refusedCalls.map Call.now) = [0, 1, 0] ∧
      ((new ⟨4, 1⟩ 0).gateRun (refusedCalls.map Call.now)).1 =
        (windowPositions 0 0 (refusedCalls.map Call.now)).map (fun i => decide (i % u32Size < 1)) ∧
      om'.stats.ordersRejected = 1 := by
  obtain ⟨om', h⟩ : ∃ om', (new ⟨4, 1⟩ 0).runCalls refusedCalls = some ([true, false, true], om') :=
    ⟨_, rfl⟩
  obtain ⟨hgate, -, hrej⟩ := rate_gate_window_positions _ _ _ h
  exact ⟨om', h, by decide, hgate, hrej⟩

/-! ## Past `2^32` calls in one window -/

section Replicate

variable (o : Order) (t : Nat)

/-- A call in the current window with the counter below the limit, and room in the
    queue: admitted and pushed. -/
theorem call_admitted {q q' : RingBuffer Order} (hw : t - om.lastRateCheck < oneSecond)
    (hc : om.ordersThisSecond < om.config.maxOrdersPerSecond)
    (hq : om.orderQueues o.exchange = some q) (hpush : q.push o = some (true, q')) :
    om.call (.submitOrder o t) = some (true,
      ({ om with ordersThisSecond := (om.ordersThisSecond + 1) % u32Size }).setQueue
        o.exchange q') := by
  simp [call, submitOrder, rateGate, Nat.not_le.2 hw, hc, hq, hpush]

/-- A call in the current window with the counter at or above the limit: refused. -/
theorem call_refused (hw : t - om.lastRateCheck < oneSecond)
    (hc : om.config.maxOrdersPerSecond ≤ om.ordersThisSecond) :
    om.call (.submitOrder o t) = some (false,
      ({ om with ordersThisSecond := (om.ordersThisSecond + 1) % u32Size }).reject) := by
  simp [call, submitOrder, rateGate, Nat.not_le.2 hw, hc]

/-- A run of `n` calls in the current window that all stay below the limit and fit in the
    queue: all admitted and pushed. -/
theorem runCalls_admitted (n : Nat) {q : RingBuffer Order}
    (hq : om.orderQueues o.exchange = some q) (hinv : q.Inv)
    (hw : t - om.lastRateCheck < oneSecond)
    (hc : om.ordersThisSecond + n ≤ om.config.maxOrdersPerSecond)
    (hmax : om.config.maxOrdersPerSecond < u32Size) (hroom : q.toList.length + n < q.capacity - 1) :
    ∃ om₁ q₁, om.runCalls (List.replicate n (.submitOrder o t)) =
        some (List.replicate n true, om₁) ∧
      om₁.orderQueues o.exchange = some q₁ ∧ q₁.Inv ∧ q₁.capacity = q.capacity ∧
      q₁.toList.length = q.toList.length + n ∧ om₁.ordersThisSecond = om.ordersThisSecond + n ∧
      om₁.lastRateCheck = om.lastRateCheck ∧ om₁.config = om.config := by
  induction n generalizing om q with
  | zero => exact ⟨om, q, rfl, hq, hinv, rfl, rfl, rfl, rfl, rfl⟩
  | succ n ih =>
    obtain ⟨q', hpush, hinv', hcap', hlist'⟩ := RingBuffer.push_spec hinv o
    rw [if_pos (by omega)] at hlist'
    rw [decide_eq_true (by omega)] at hpush
    have hmod : (om.ordersThisSecond + 1) % u32Size = om.ordersThisSecond + 1 :=
      Nat.mod_eq_of_lt (by omega)
    obtain ⟨om₁, q₁, h₁, hq₁, hinv₁, hcap₁, hlen₁, hc₁, hl₁, hcfg₁⟩ :=
      @ih (({ om with ordersThisSecond := (om.ordersThisSecond + 1) % u32Size }).setQueue
        o.exchange q') q' (by simp) hinv' hw (by simp only [setQueue, hmod]; omega) hmax
        (by rw [hlist', List.length_append, hcap']; simp; omega)
    refine ⟨om₁, q₁, ?_, hq₁, hinv₁, hcap₁.trans hcap', ?_, ?_, hl₁, hcfg₁⟩
    · rw [List.replicate_succ, runCalls, call_admitted o t hw (by omega) hq hpush,
        Option.some_bind, h₁]
      rfl
    · rw [hlen₁, hlist']; simp; omega
    · rw [hc₁]; simp only [setQueue, hmod]; omega

/-- A run of `n` calls in the current window with the counter at or above the limit, and
    no wrap before the last: all refused, every queue as it was. -/
theorem runCalls_refused (n : Nat) (hw : t - om.lastRateCheck < oneSecond)
    (hc : om.config.maxOrdersPerSecond ≤ om.ordersThisSecond)
    (hc32 : om.ordersThisSecond < u32Size) (hn : om.ordersThisSecond + n ≤ u32Size) :
    ∃ om₁, om.runCalls (List.replicate n (.submitOrder o t)) =
        some (List.replicate n false, om₁) ∧
      om₁.orderQueues = om.orderQueues ∧
      om₁.ordersThisSecond = (om.ordersThisSecond + n) % u32Size ∧
      om₁.lastRateCheck = om.lastRateCheck ∧ om₁.config = om.config := by
  induction n with
  | zero => exact ⟨om, rfl, rfl, (Nat.mod_eq_of_lt hc32).symm, rfl, rfl⟩
  | succ n ih =>
    obtain ⟨om₁, h₁, hq₁, hc₁, hl₁, hcfg₁⟩ := ih (by omega)
    rw [Nat.mod_eq_of_lt (by omega)] at hc₁
    refine ⟨({ om₁ with ordersThisSecond := (om₁.ordersThisSecond + 1) % u32Size }).reject, ?_,
      hq₁, ?_, hl₁, hcfg₁⟩
    · rw [List.replicate_succ', runCalls_append, h₁, Option.some_bind, runCalls,
        call_refused o t (by rwa [hl₁]) (by rw [hcfg₁, hc₁]; omega)]
      simp [runCalls, List.replicate_succ']
    · simp only [reject, hc₁, Nat.add_assoc]

end Replicate

/-- `2^32 + 1` calls at one reading on a fresh manager with the default limit of `100000`,
    all in the first window: the first `100000` are admitted, the next are refused until
    the counter wraps to `0`, and the last is admitted and pushed, so `100001` requests of
    the window reach the queue. -/
theorem gate_counter_wraps :
    ∃ oks om', (new .default 0).runCalls
        (List.replicate (2 ^ 32 + 1) (.submitOrder Order.blank 0)) = some (oks, om') ∧
      oks.count true = 100001 := by
  have hq : (new .default 0).orderQueues Order.blank.exchange =
      some (RingBuffer.new 1048576) := rfl
  have hinv : (RingBuffer.new 1048576 : RingBuffer Order).Inv :=
    RingBuffer.new_inv (by norm_num) (by norm_num)
  have hcap : 1048576 ≤ (RingBuffer.new 1048576 : RingBuffer Order).capacity :=
    (nextPowerOfTwo_isLeast (by norm_num) (by norm_num)).2.1
  obtain ⟨om₁, q₁, h₁, hq₁, hinv₁, hcap₁, hlen₁, hc₁, hl₁, hcfg₁⟩ :=
    runCalls_admitted Order.blank 0 100000 hq hinv (by decide) (by decide) (by decide)
      (by simp only [RingBuffer.toList_new, List.length_nil]; omega)
  obtain ⟨om₂, h₂, hq₂, hc₂, hl₂, hcfg₂⟩ :=
    runCalls_refused Order.blank 0 (2 ^ 32 - 100000) (by rw [hl₁]; decide)
      (by rw [hcfg₁, hc₁]; decide) (by rw [hc₁]; decide) (by rw [hc₁]; decide)
  obtain ⟨q', hpush, -⟩ := RingBuffer.push_spec hinv₁ Order.blank
  rw [decide_eq_true (by rw [hlen₁, hcap₁]; simp only [RingBuffer.toList_new, List.length_nil]; omega)]
    at hpush
  obtain ⟨om₃, h₃⟩ : ∃ om₃, om₂.call (.submitOrder Order.blank 0) = some (true, om₃) :=
    ⟨_, call_admitted Order.blank 0 (by rw [hl₂, hl₁]; decide)
      (by rw [hc₂, hc₁, hcfg₂, hcfg₁]; decide) (by rw [hq₂]; exact hq₁) hpush⟩
  refine ⟨List.replicate 100000 true ++ List.replicate (2 ^ 32 - 100000) false ++ [true], om₃, ?_,
    by rw [List.count_append, List.count_append, List.count_replicate_self, List.count_replicate]; rfl⟩
  rw [show 2 ^ 32 + 1 = 100000 + (2 ^ 32 - 100000) + 1 by norm_num, List.replicate_add,
    List.replicate_add, runCalls_append, runCalls_append, h₁, Option.some_bind, h₂,
    Option.map_some', Option.some_bind, List.replicate_one, runCalls, h₃]
  rfl

end OrderManager

end OmsCore
