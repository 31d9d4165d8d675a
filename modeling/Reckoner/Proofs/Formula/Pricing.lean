import Mathlib.Data.List.Indexes
import Reckoner.Proofs.Decimal.Binary64
import Reckoner.Proofs.Formula.Charging

/-!
# What a formula is charged

A node reads its price when it is entered and pauses for it behind its operands. `log_evaluate` gives
the whole log of pauses under a schedule that replaces the table: one pause for each operator node in
post-order, up to the first division by zero, at the price of the table that was in force before the
first pause of its operands.
-/

namespace Reckoner.Formula

/-- An operator with its operands. -/
structure Node where
  left : Formula
  op : Operator
  right : Formula

namespace Node

/-- The operators of the node and of its operands. -/
def size (n : Node) : Nat :=
  n.left.operatorCount + n.right.operatorCount + 1

/-- Whether the node is a quotient and its right operand comes to zero, of either sign. -/
def dividesByZero (n : Node) : Bool :=
  n.op = .divide && match n.right.value with
    | .ok y => decide (y = 0 ∨ y = -0)
    | .error _ => false

end Node

/-- The operator nodes, each behind those of its operands. -/
def nodes : Formula → List Node
  | number _ => []
  | binary l op r => l.nodes ++ r.nodes ++ [⟨l, op, r⟩]

theorem map_op_nodes (f : Formula) : f.nodes.map Node.op = f.postOrder := by
  induction f with
  | number => rfl
  | binary l op r ihl ihr => simp [nodes, postOrder, ihl, ihr]

theorem length_nodes (f : Formula) : f.nodes.length = f.operatorCount := by
  rw [← length_postOrder, ← map_op_nodes, List.length_map]

/-- The operators below a node stand in front of it. -/
theorem size_le {f : Formula} {i : Nat} {n : Node} (here : f.nodes[i]? = some n) :
    n.size ≤ i + 1 := by
  induction f generalizing i with
  | number => simp [nodes] at here
  | binary l op r ihl ihr =>
    rw [nodes, List.getElem?_append, List.getElem?_append] at here
    simp only [List.length_append, length_nodes] at here
    split at here
    · split at here
      · exact ihl here
      · have inside := ihr here
        omega
    · rw [List.getElem?_singleton] at here
      split at here
      · cases here
        simp only [Node.size]
        omega
      · cases here

/-! ### Divisions by zero -/

theorem dividesByZero_eq {l r : Formula} {op : Operator} {y : Float} (right : r.value = .ok y) :
    Node.dividesByZero ⟨l, op, r⟩ = (op = .divide && y == 0) := by
  have zero : decide (y = 0 ∨ y = -0) = (y == 0) := by
    rw [Bool.eq_iff_iff, decide_eq_true_eq, Decimal.Binary64.beq_zero_iff]
  simp only [Node.dividesByZero, right, zero]

/-- The number of nodes before the first one that divides by zero. -/
def paid (f : Formula) : Nat :=
  f.nodes.findIdx Node.dividesByZero

theorem paid_of_left {l r : Formula} {op : Operator} (stops : l.paid < l.nodes.length) :
    (binary l op r).paid = l.paid := by
  rw [paid] at stops ⊢
  rw [nodes, List.append_assoc, List.findIdx_append, if_pos stops, paid]

theorem paid_of_right {l r : Formula} {op : Operator} (whole : l.paid = l.nodes.length)
    (stops : r.paid < r.nodes.length) : (binary l op r).paid = l.nodes.length + r.paid := by
  rw [paid] at whole stops
  rw [paid, paid, nodes, List.append_assoc, List.findIdx_append, if_neg (by omega),
    List.findIdx_append, if_pos stops, Nat.add_comm]

theorem paid_of_operands {l r : Formula} {op : Operator} {y : Float}
    (whole : l.paid = l.nodes.length) (whole' : r.paid = r.nodes.length)
    (right : r.value = .ok y) : (binary l op r).paid =
      l.nodes.length + r.nodes.length + if op = .divide && y == 0 then 0 else 1 := by
  rw [paid] at whole whole'
  rw [paid, nodes, List.append_assoc, List.findIdx_append, if_neg (by omega),
    List.findIdx_append, if_neg (by omega), List.findIdx_singleton, dividesByZero_eq right]
  split <;> omega

theorem value_cases (f : Formula) :
    (∃ x, f.value = .ok x ∧ f.paid = f.nodes.length) ∨
      f.value = .error .divisionByZero ∧ f.paid < f.nodes.length := by
  induction f with
  | number x => exact .inl ⟨x, rfl, rfl⟩
  | binary l op r ihl ihr =>
    rw [value]
    simp only [nodes, List.length_append, List.length_singleton]
    rcases ihl with ⟨x, left, whole⟩ | ⟨left, stops⟩
    · rcases ihr with ⟨y, right, whole'⟩ | ⟨right, stops⟩
      · rw [left, right, paid_of_operands whole whole' right]
        simp only [bind, Except.bind]
        split
        · exact .inr ⟨rfl, by omega⟩
        · exact .inl ⟨_, rfl, by omega⟩
      · rw [left, right, paid_of_right whole stops]
        exact .inr ⟨rfl, by omega⟩
    · rw [left, paid_of_left stops]
      exact .inr ⟨rfl, by omega⟩

/-! ### Prices -/

section

variable (schedule : Nat → Option CostTable) (table : CostTable)

/-- The table in force after so many pauses. -/
def tableAfter : Nat → CostTable
  | 0 => table
  | n + 1 => (schedule (n + 1)).getD (tableAfter n)

/-- The pause of the node with the index `i` in post-order, in an evaluation that begins after
`start` pauses. -/
def charge (start i : Nat) (n : Node) : Charge :=
  ⟨n.op, (tableAfter schedule table (start + (i + 1 - n.size))).cost n.op⟩

/-- A pause for every node. -/
def bill (start : Nat) (f : Formula) : List Charge :=
  f.nodes.mapIdx (charge schedule table start)

/-- The pauses before the first division by zero. -/
def owed (start : Nat) (f : Formula) : List Charge :=
  (bill schedule table start f).take f.paid

variable {schedule table}

@[simp] theorem length_bill (start : Nat) (f : Formula) :
    (bill schedule table start f).length = f.nodes.length :=
  List.length_mapIdx

theorem map_op_bill (start : Nat) (f : Formula) :
    (bill schedule table start f).map Charge.op = f.postOrder := by
  rw [← map_op_nodes, bill]
  exact List.ext_getElem (by simp) fun i _ _ => by simp [charge]

/-- The right operand begins when the left one is paid for, the node itself has its price from
before both. -/
theorem bill_binary (start : Nat) (l : Formula) (op : Operator) (r : Formula) :
    bill schedule table start (binary l op r) = bill schedule table start l ++
      bill schedule table (start + l.nodes.length) r ++
        [⟨op, (tableAfter schedule table start).cost op⟩] := by
  have shifted : r.nodes.mapIdx (fun i => charge schedule table start (i + l.nodes.length)) =
      bill schedule table (start + l.nodes.length) r := by
    refine List.ext_getElem (by simp) fun i inside _ => ?_
    rw [List.length_mapIdx] at inside
    have below : r.nodes[i].size ≤ i + 1 := size_le (List.getElem?_eq_getElem inside)
    simp only [bill, List.getElem_mapIdx, charge]
    rw [show start + (i + l.nodes.length + 1 - r.nodes[i].size) =
      start + l.nodes.length + (i + 1 - r.nodes[i].size) by omega]
  have last : charge schedule table start (0 + (l.nodes ++ r.nodes).length) ⟨l, op, r⟩ =
      ⟨op, (tableAfter schedule table start).cost op⟩ := by
    simp only [charge, Node.size, List.length_append, length_nodes]
    rw [show start + (0 + (l.operatorCount + r.operatorCount) + 1 -
      (l.operatorCount + r.operatorCount + 1)) = start by omega]
  rw [bill, nodes, List.mapIdx_append, List.mapIdx_append, shifted, List.mapIdx_singleton]
  exact congrArg (_ ++ [·]) last

theorem owed_whole {start : Nat} {f : Formula} (whole : f.paid = f.nodes.length) :
    owed schedule table start f = bill schedule table start f := by
  rw [owed, whole, List.take_of_length_le (by simp)]

theorem owed_of_left {start : Nat} {l r : Formula} {op : Operator}
    (stops : l.paid < l.nodes.length) :
    owed schedule table start (binary l op r) = owed schedule table start l := by
  rw [owed, paid_of_left stops, bill_binary, List.append_assoc,
    List.take_append_of_le_length (by simpa using stops.le), owed]

theorem owed_of_right {start : Nat} {l r : Formula} {op : Operator}
    (whole : l.paid = l.nodes.length) (stops : r.paid < r.nodes.length) :
    owed schedule table start (binary l op r) =
      owed schedule table start l ++ owed schedule table (start + l.nodes.length) r := by
  have skipped : l.nodes.length = (bill schedule table start l).length := by simp
  rw [owed_whole whole, owed, paid_of_right whole stops, bill_binary, List.append_assoc, skipped,
    List.take_length_add_append, ← skipped, List.take_append_of_le_length (by simpa using stops.le),
    owed]

theorem owed_of_operands {start : Nat} {l r : Formula} {op : Operator} {y : Float}
    (whole : l.paid = l.nodes.length) (whole' : r.paid = r.nodes.length) (right : r.value = .ok y) :
    owed schedule table start (binary l op r) =
      owed schedule table start l ++ owed schedule table (start + l.nodes.length) r ++
        if op = .divide && y == 0 then [] else [⟨op, (tableAfter schedule table start).cost op⟩] := by
  rw [owed_whole whole, owed_whole whole', owed, paid_of_operands whole whole' right, bill_binary]
  split
  · rw [List.take_append_of_le_length (by simp), List.take_of_length_le (by simp), List.append_nil]
  · rw [List.take_of_length_le (by simp [Nat.add_assoc])]

/-- An evaluation pauses once for every node before the first division by zero, at the price that
the node found when it was entered. -/
theorem log_evaluate (f : Formula) {m : Meter}
    (current : m.table = tableAfter schedule table m.charges.length) :
    (f.evaluate schedule m).2.log = m.log ++ owed schedule table m.charges.length f ∧
      (f.evaluate schedule m).2.table =
        tableAfter schedule table (f.evaluate schedule m).2.charges.length := by
  -- The right operand and the node start from the meter that the left operand leaves, so the table
  -- is carried along as the one after all pauses so far.
  induction f generalizing m with
  | number x => exact ⟨by simp [evaluate, owed, bill, nodes], current⟩
  | binary l op r ihl ihr =>
    have value_l := (evaluate_trace schedule l m).1.trans (trace_value l)
    obtain ⟨log, current'⟩ := ihl current
    rw [evaluate]
    generalize l.evaluate schedule m = left at *
    obtain ⟨outcome, m'⟩ := left
    dsimp only at value_l log current'
    subst value_l
    rcases value_cases l with ⟨x, value_l, whole⟩ | ⟨value_l, stops⟩
    swap
    · rw [value_l, owed_of_left stops]
      exact ⟨log, current'⟩
    rw [value_l]
    have count : m'.charges.length = m.charges.length + l.nodes.length := by
      rw [owed_whole whole] at log
      simpa [Meter.log] using congrArg List.length log
    have value_r := (evaluate_trace schedule r m').1.trans (trace_value r)
    obtain ⟨log', current''⟩ := ihr current'
    rw [log, count] at log'
    dsimp only
    generalize r.evaluate schedule m' = right at *
    obtain ⟨outcome, m''⟩ := right
    dsimp only at value_r log' current''
    subst value_r
    rcases value_cases r with ⟨y, value_r, whole'⟩ | ⟨value_r, stops⟩
    swap
    · rw [value_r, owed_of_right whole stops, ← List.append_assoc]
      exact ⟨log', current''⟩
    rw [value_r, owed_of_operands whole whole' value_r]
    dsimp only
    split
    · exact ⟨by rw [log', List.append_nil, List.append_assoc], current''⟩
    · refine ⟨?_, by simp [Meter.pause, tableAfter, current'']⟩
      rw [Meter.pause, Meter.log, List.reverse_cons, ← Meter.log, log', current]
      simp only [List.append_assoc]

end

/-- Neither the tables nor their schedule touch what a formula comes to. It pauses for its operators
in post-order, for all of them or for those before the first division by a zero of either sign; and
each pause has the price of the table in force after the pauses before those of its own operands. -/
theorem evaluate_charges (schedule : Nat → Option CostTable) (table : CostTable) (f : Formula) :
    let outcome := (f.evaluate schedule (.start table)).1
    let log := (f.evaluate schedule (.start table)).2.log
    outcome = f.value ∧
      (∀ x, outcome = .ok x → log.map Charge.op = f.postOrder) ∧
      (∀ e, outcome = .error e → e = .divisionByZero ∧
        ∃ i n, f.nodes[i]? = some n ∧ n.dividesByZero ∧
          (∀ j m, j < i → f.nodes[j]? = some m → ¬ m.dividesByZero) ∧
          log.map Charge.op = f.postOrder.take i) ∧
      ∀ i c, log[i]? = some c → ∃ n, f.nodes[i]? = some n ∧ n.size ≤ i + 1 ∧
        c = ⟨n.op, (tableAfter schedule table (i + 1 - n.size)).cost n.op⟩ := by
  intro outcome log
  have value : outcome = f.value := (evaluate_trace schedule f (.start table)).1.trans (trace_value f)
  have charged : log = owed schedule table 0 f := (log_evaluate (m := .start table) f rfl).1
  have ops : log.map Charge.op = f.postOrder.take f.paid := by
    rw [charged, owed, List.map_take, map_op_bill]
  refine ⟨value, fun x returns => ?_, fun e fails => ?_, fun i c pause => ?_⟩
  · rcases value_cases f with ⟨_, -, whole⟩ | ⟨stops, -⟩
    · rw [ops, whole, length_nodes, ← length_postOrder, List.take_length]
    · cases returns.symm.trans (value.trans stops)
  · rcases value_cases f with ⟨_, returns, -⟩ | ⟨stops, early⟩
    · cases fails.symm.trans (value.trans returns)
    · cases fails.symm.trans (value.trans stops)
      refine ⟨rfl, f.paid, _, List.getElem?_eq_getElem early, List.findIdx_getElem, ?_, ops⟩
      intro j m before here
      obtain ⟨_, rfl⟩ := List.getElem?_eq_some_iff.1 here
      exact Bool.eq_false_iff.1 (List.not_of_lt_findIdx before)
  · rw [charged, owed, List.getElem?_take] at pause
    split at pause
    swap
    · cases pause
    rw [bill, List.getElem?_mapIdx, Option.map_eq_some_iff] at pause
    obtain ⟨n, here, rfl⟩ := pause
    exact ⟨n, here, size_le here, by rw [charge, Nat.zero_add]⟩

end Reckoner.Formula
