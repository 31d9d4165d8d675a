import Mathlib.Algebra.Order.BigOperators.Group.List
import Reckoner.Proofs.CostTable
import Reckoner.Proofs.Formula.Acceptance
import Reckoner.Proofs.Formula.Pricing

/-!
# Totals of costs

A formula within the limits has so few operators that the costs of all of them are a duration, with
any table that settings or a file can bring: `totals_exact` says so of the estimate and of what is
charged, and compares the two.
-/

namespace Reckoner

/-! ### Sums of durations -/

namespace Duration

theorem foldlM_add? (ds : List Duration) (d : Duration) :
    ds.foldlM add? d = ofNanos? (d.nanos + (ds.map nanos).sum) := by
  induction ds generalizing d with
  | nil => simp [ofNanos?, d.fits]
  | cons e ds ih =>
    rw [List.foldlM_cons, List.map_cons, List.sum_cons, ← Nat.add_assoc]
    by_cases fits : d.nanos + e.nanos < UInt64.size * perSecond
    · have first : d.add? e = some ⟨d.nanos + e.nanos, fits⟩ := by
        rw [add?, ofNanos?, dif_pos fits]
      rw [first]
      exact ih _
    · -- No later duration brings the sum back into the range.
      have first : d.add? e = none := by rw [add?, ofNanos?, dif_neg fits]
      rw [first, ofNanos?, dif_neg (by omega)]
      rfl

theorem sum?_eq (ds : List Duration) : sum? ds = ofNanos? (ds.map nanos).sum := by
  rw [sum?, foldlM_add?, zero, Nat.zero_add]

theorem sum?_of_fits {ds : List Duration} (fits : (ds.map nanos).sum < UInt64.size * perSecond) :
    ∃ total, sum? ds = some total ∧ total.nanos = (ds.map nanos).sum := by
  rw [sum?_eq, ofNanos?, dif_pos fits]
  exact ⟨_, rfl, rfl⟩

/-- A thousand times the largest word in milliseconds is that word in seconds. -/
theorem sum_fits {ds : List Duration} (few : ds.length ≤ Formula.maxOperators)
    (whole : ∀ d ∈ ds, d.IsWholeMillis) : (ds.map nanos).sum < UInt64.size * perSecond := by
  have each : ∀ n ∈ ds.map nanos, n ≤ (UInt64.size - 1) * perMilli := by
    intro n member
    obtain ⟨d, listed, rfl⟩ := List.mem_map.1 member
    obtain ⟨ms, rfl⟩ := whole d listed
    exact Nat.mul_le_mul_right _ (Nat.le_pred_of_lt ms.toNat_lt)
  calc (ds.map nanos).sum
    _ ≤ (ds.map nanos).length * ((UInt64.size - 1) * perMilli) := List.sum_le_card_nsmul _ _ each
    _ ≤ Formula.maxOperators * ((UInt64.size - 1) * perMilli) :=
      Nat.mul_le_mul_right _ ((List.length_map nanos).trans_le few)
    _ < UInt64.size * perSecond := by decide

/-- The sum is exact, and so is every sum on the way to it. -/
def SumsExactly (ds : List Duration) : Prop :=
  ∀ i, ∃ total, sum? (ds.take i) = some total ∧ total.nanos = ((ds.take i).map nanos).sum

theorem sumsExactly_of_few {ds : List Duration} (few : ds.length ≤ Formula.maxOperators)
    (whole : ∀ d ∈ ds, d.IsWholeMillis) : SumsExactly ds := by
  intro i
  refine sum?_of_fits (sum_fits ?_ fun d member => whole d (List.mem_of_mem_take member))
  exact (List.length_take_le' i ds).trans few

theorem SumsExactly.whole {ds : List Duration} (h : SumsExactly ds) :
    ∃ total, sum? ds = some total ∧ total.nanos = (ds.map nanos).sum := by
  simpa using h ds.length

end Duration

/-! ### Estimates and charges -/

namespace Formula

variable {schedule : Nat → Option CostTable} {table : CostTable} {f : Formula} {text : String}

/-- What the operators cost together in nanoseconds, however many these are. -/
def price (table : CostTable) : Formula → Nat
  | number _ => 0
  | binary l op r => l.price table + r.price table + (table.cost op).nanos

theorem sum_postOrder (table : CostTable) (f : Formula) :
    ((f.postOrder.map table.cost).map Duration.nanos).sum = f.price table := by
  induction f with
  | number x => rfl
  | binary l op r ihl ihr => simp [postOrder, price, ← ihl, ← ihr, Nat.add_assoc]

theorem costs_postOrder (table : CostTable) (f : Formula) :
    (f.postOrder.map table.cost).map Duration.nanos =
      f.nodes.map fun n => (table.cost n.op).nanos := by
  rw [← map_op_nodes, List.map_map, List.map_map]
  rfl

/-- A node and all before it are among those of the formula. -/
theorem sum_take_le_price {i : Nat} (inside : i < f.nodes.length) :
    ((f.nodes.take i).map fun n => (table.cost n.op).nanos).sum +
      (table.cost f.nodes[i].op).nanos ≤ f.price table := by
  have whole : f.price table = (f.nodes.map fun n => (table.cost n.op).nanos).sum := by
    rw [← sum_postOrder, costs_postOrder]
  have longer : ((f.nodes.take i).map fun n => (table.cost n.op).nanos).sum +
      (table.cost f.nodes[i].op).nanos =
        ((f.nodes.take (i + 1)).map fun n => (table.cost n.op).nanos).sum := by
    rw [List.take_add_one, List.getElem?_eq_getElem inside, Option.toList_some, List.map_append,
      List.sum_append, List.map_singleton, List.sum_singleton]
  rw [longer, whole]
  exact ((List.take_sublist _ _).map _).sum_le_sum fun n _ => Nat.zero_le n

/-- The first node that divides by zero stands behind all that are paid for. -/
theorem dividesByZero_paid (early : f.paid < f.nodes.length) : f.nodes[f.paid].dividesByZero ∧
    ∀ j n, j < f.paid → f.nodes[j]? = some n → ¬ n.dividesByZero := by
  refine ⟨List.findIdx_getElem, fun j n earlier here => ?_⟩
  obtain ⟨_, rfl⟩ := List.getElem?_eq_some_iff.1 here
  exact Bool.eq_false_iff.1 (List.not_of_lt_findIdx earlier)

theorem operatorCount_le_of_limit (parsed : parse text = .ok f) :
    f.operatorCount ≤ maxOperators := by
  obtain ⟨ts, _, derives, few, _⟩ := parse_eq_ok.1 parsed
  exact derives.operatorCount_eq.trans_le few

theorem tableAfter_keeps {P : CostTable → Prop} (start : P table)
    (later : ∀ n t, schedule n = some t → P t) (n : Nat) : P (tableAfter schedule table n) := by
  induction n with
  | zero => exact start
  | succ n ih =>
    rw [tableAfter]
    cases replaced : schedule (n + 1) with
    | none => exact ih
    | some t => exact later (n + 1) t replaced

theorem log_start (schedule : Nat → Option CostTable) (table : CostTable) (f : Formula) :
    (f.evaluate schedule (.start table)).2.log = owed schedule table 0 f :=
  (log_evaluate (m := .start table) f rfl).1

theorem length_owed_le (start : Nat) :
    (owed schedule table start f).length ≤ f.operatorCount := by
  rw [owed, ← length_nodes, ← @length_bill schedule table start f]
  exact List.length_take_le' _ _

/-- Every pause is as long as some table in force says. -/
theorem duration_owed {start : Nat} {c : Charge} (member : c ∈ owed schedule table start f) :
    ∃ n op, c.duration = (tableAfter schedule table n).cost op := by
  obtain ⟨i, _, rfl⟩ := List.mem_mapIdx.1 (List.mem_of_mem_take member)
  exact ⟨_, _, rfl⟩

/-- As long as the table is the same, the pauses are those of the estimate. -/
theorem durations_owed (fixed : ∀ n t, schedule n = some t → t = table) (start : Nat) :
    (owed schedule table start f).map Charge.duration =
      (f.postOrder.take f.paid).map table.cost := by
  have same := tableAfter_keeps (P := (· = table)) rfl fixed
  have costs : (bill schedule table start f).map Charge.duration = f.postOrder.map table.cost := by
    rw [← @map_op_bill schedule table start f, List.map_map]
    refine List.map_congr_left fun c member => ?_
    obtain ⟨i, _, rfl⟩ := List.mem_mapIdx.1 member
    simp [charge, same]
  rw [owed, List.map_take, costs, List.map_take]

/-- Neither the estimate under a table from outside nor what is charged under such tables, one
replacing the other at any time, leaves the range of durations, at the end or on the way there; both
are exact. Under one table a value is charged what was estimated, and a division by zero what stands
before its node in post-order, which leaves at least the cost of this node out. -/
theorem totals_exact (parsed : parse text = .ok f) (admitted : table.IsAdmitted)
    (later : ∀ n t, schedule n = some t → t.IsAdmitted) :
    let outcome := (f.evaluate schedule (.start table)).1
    let m := (f.evaluate schedule (.start table)).2
    Duration.SumsExactly (f.postOrder.map table.cost) ∧
      Duration.SumsExactly (m.log.map Charge.duration) ∧
      ∃ estimate total, f.estimatedCost? table = some estimate ∧ m.total? = some total ∧
        estimate.nanos = f.price table ∧ total.nanos = (m.log.map fun c => c.duration.nanos).sum ∧
        ((∀ n t, schedule n = some t → t = table) →
          (∀ x, outcome = .ok x → total = estimate) ∧
          ∀ e, outcome = .error e → e = .divisionByZero ∧
            ∃ i n, f.nodes[i]? = some n ∧ n.dividesByZero ∧
              (∀ j n', j < i → f.nodes[j]? = some n' → ¬ n'.dividesByZero) ∧
              total.nanos = ((f.nodes.take i).map fun n => (table.cost n.op).nanos).sum ∧
              total.nanos + (table.cost n.op).nanos ≤ estimate.nanos) := by
  intro outcome m
  have value : outcome = f.value :=
    (evaluate_trace schedule f (.start table)).1.trans (trace_value f)
  have charged : m.log = owed schedule table 0 f := log_start schedule table f
  have limit := operatorCount_le_of_limit parsed
  have whole : table.IsWhole := CostTable.isAdmitted_iff.1 admitted
  have always := tableAfter_keeps whole fun n t replaced =>
    CostTable.isAdmitted_iff.1 (later n t replaced)
  have estimates : Duration.SumsExactly (f.postOrder.map table.cost) := by
    refine Duration.sumsExactly_of_few (by simpa [length_postOrder] using limit) fun d member => ?_
    obtain ⟨op, _, rfl⟩ := List.mem_map.1 member
    exact whole op
  have charges : Duration.SumsExactly (m.log.map Charge.duration) := by
    rw [charged]
    refine Duration.sumsExactly_of_few ?_ fun d member => ?_
    · rw [List.length_map]
      exact (length_owed_le 0).trans limit
    · obtain ⟨c, owing, rfl⟩ := List.mem_map.1 member
      obtain ⟨n, op, same⟩ := duration_owed owing
      exact same ▸ always n op
  obtain ⟨estimate, estimated, exact_estimate⟩ := estimates.whole
  obtain ⟨total, totalled, exact_total⟩ := charges.whole
  refine ⟨estimates, charges, estimate, total, estimated, totalled, ?_, ?_, fun fixed => ?_⟩
  · rw [exact_estimate, sum_postOrder]
  · rw [exact_total, List.map_map]
    rfl
  rw [charged, durations_owed fixed] at totalled exact_total
  refine ⟨fun x returns => ?_, fun e fails => ?_⟩
  · rcases value_cases f with ⟨_, -, paid⟩ | ⟨stops, -⟩
    · rw [paid, length_nodes, ← length_postOrder, List.take_length, estimated] at totalled
      exact (Option.some.inj totalled).symm
    · cases returns.symm.trans (value.trans stops)
  · rcases value_cases f with ⟨_, returns, -⟩ | ⟨stops, early⟩
    · cases fails.symm.trans (value.trans returns)
    · cases fails.symm.trans (value.trans stops)
      obtain ⟨zero, first⟩ := dividesByZero_paid early
      have before : total.nanos =
          ((f.nodes.take f.paid).map fun n => (table.cost n.op).nanos).sum := by
        rw [exact_total]
        simp only [List.map_take, costs_postOrder]
      refine ⟨rfl, f.paid, _, List.getElem?_eq_getElem early, zero, first, before, ?_⟩
      rw [before, exact_estimate, sum_postOrder]
      exact sum_take_le_price early

/-- The table with the largest costs that can be told. -/
def longest : CostTable :=
  .uniform (.ofMillis 18446744073709551615)

/-- It is set anew after the first pause. -/
def setAgain (n : Nat) : Option CostTable :=
  if n = 1 then some longest else none

def stopped : Formula :=
  .binary (.binary (.number 1.5) .multiply (.number 2.5)) .divide
    (.binary (.number 4.0) .minus (.number 4.0))

theorem stopped_exact :
    parse "1.5*2.5/(4.0-4.0)" = .ok stopped ∧ longest.IsAdmitted ∧
      (∀ n t, setAgain n = some t → t.IsAdmitted) ∧
      ∃ estimate total, stopped.estimatedCost? longest = some estimate ∧
        (stopped.evaluate setAgain (.start longest)).2.total? = some total ∧
        total.nanos + (longest.cost .divide).nanos ≤ estimate.nanos := by
  have parsed : parse "1.5*2.5/(4.0-4.0)" = .ok stopped := rfl
  have admitted : longest.IsAdmitted :=
    CostTable.isAdmitted_iff.2 (CostTable.isWhole_iff.2 ⟨⟨_, rfl⟩, ⟨_, rfl⟩, ⟨_, rfl⟩, ⟨_, rfl⟩⟩)
  have same : ∀ n t, setAgain n = some t → t = longest := by
    intro n t replaced
    rw [setAgain] at replaced
    split at replaced <;> cases replaced
    rfl
  have later : ∀ n t, setAgain n = some t → t.IsAdmitted :=
    fun n t replaced => same n t replaced ▸ admitted
  have fails : (stopped.evaluate setAgain (.start longest)).1 = .error .divisionByZero :=
    (evaluate_trace setAgain stopped (.start longest)).1.trans rfl
  obtain ⟨_, _, estimate, total, estimated, totalled, _, _, fixed⟩ :=
    totals_exact parsed admitted later
  obtain ⟨_, _, n, _, _, _, _, less⟩ := (fixed same).2 _ fails
  have each : longest.cost n.op = longest.cost .divide := by cases n.op <;> rfl
  exact ⟨parsed, admitted, later, estimate, total, estimated, totalled, each ▸ less⟩

end Formula

end Reckoner
