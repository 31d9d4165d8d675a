import Reckoner.Proofs.Service.Holdings
import Reckoner.Proofs.Service.Session
import Reckoner.Proofs.Store.Snapshots

/-!
# Results after a restart

A service that started with an empty store is written to a file, and its store is restored from that.
`results_survive_iff` says when all results are still there: the digits of each have to be read as the
same float. An infinite result is lost, and so is one whose digits do not fit the reader's word.
-/

namespace Reckoner

open Reckoner.Json (reread)

namespace Calculation

variable {c d : Calculation}

/-- The calculation is done if and only if it has a result. -/
def Settled (c : Calculation) : Prop :=
  c.status = .done ↔ c.result.isSome = true

theorem lasting_settled : Lasting Settled where
  new := by simp [Settled, new]
  named := fun c id h => h
  queue := by
    intro c plan d h queued
    unfold queue at queued
    split at queued
    · rename_i created
      cases queued
      simpa [Settled, created] using h
    · cases queued
  beginCalculating := by
    intro c d h began
    unfold beginCalculating at began
    split at began
    · rename_i waiting
      cases began
      simpa [Settled, waiting] using h
    · cases began
  complete := by
    intro c x now d _ completed
    unfold complete at completed
    split at completed
    · cases completed
      simp [Settled]
    · cases completed
  fail := by
    intro c message now d _ failed
    unfold fail at failed
    split at failed
    · cases failed
      simp [Settled]
    · cases failed
  reopen := by
    intro c d _ reopened
    unfold reopen at reopened
    split at reopened
    · cases reopened
      simp [Settled]
    · cases reopened

/-- A result that is read as itself is given back, and with it the whole calculation but its
formula. -/
theorem restored_of_reread (kept : ∀ x, c.result = some x → reread x = some x) :
    c.restored = .ok { c with plan := none } := by
  rw [restored_eq_ok]
  cases result : c.result with
  | none => exact ⟨none, rfl, by simp [← result]⟩
  | some x =>
    have back := kept x result
    refine ⟨some x, ?_, by simp [← result]⟩
    rw [restoredResult, if_pos (Json.isFinite_of_reread back), back]

theorem reread_of_restored (h : c.restored = .ok d) (same : d.result = c.result) :
    ∀ x, c.result = some x → reread x = some x := by
  intro x result
  obtain ⟨back, kept, rfl⟩ := restored_eq_ok.1 h
  dsimp only at same
  rw [same, result, restoredResult] at kept
  split at kept
  · split at kept
    · rename_i y digits
      cases kept
      exact digits
    · cases kept
  · cases kept

end Calculation

namespace Service

variable {k : Collaborators} {n : Nat} {table : CostTable} {actions : List Action} {s : Service}

theorem all_settled (calls : ∀ a ∈ actions, a.OfSession .empty)
    (run : (opened n table .empty).run k actions = some s) : s.All Calculation.Settled := by
  have start : (opened n table .empty).All Calculation.Settled := by
    refine ⟨⟨Store.Built.empty.keyed, fun id c found => ?_⟩, fun w member => ?_, fun c member => ?_⟩
    · rw [opened, Store.find?_empty] at found
      cases found
    · obtain ⟨i, _, rfl⟩ := List.mem_map.1 member
      exact List.forall_mem_nil _
    · cases member
  refine start.run Calculation.lasting_settled ?_ run
  intro a member
  have call := calls a member
  cases a with
  | call c =>
    cases c with
    | submit | close => exact List.forall_mem_nil _
    | resume rest count =>
      rw [call.1]
      exact List.forall_mem_nil _
    | _ => exact call.elim
  | use => exact call.elim
  | _ => exact List.forall_mem_nil _

/-- Texts are submitted to a service over an empty store. After a restart every calculation has the
result that it had, and is done if and only if it has one, exactly if the shortest digits of each
result are read as that result. -/
theorem results_survive_iff (calls : ∀ a ∈ actions, a.OfSession .empty)
    (run : (opened n table .empty).run k actions = some s) :
    (∀ id c, s.store.find? id = some c → (c.status = .done ↔ c.result.isSome = true)) ∧
    ((∀ id c x, s.store.find? id = some c → c.result = some x → reread x = some x) ↔
      ∃ t, Store.load s.store.save = .ok t ∧
        (∀ id, (t.find? id).map Calculation.result = (s.store.find? id).map Calculation.result) ∧
        ∀ id c, t.find? id = some c → (c.status = .done ↔ c.result.isSome = true)) := by
  obtain ⟨keyed, settled⟩ := (all_settled calls run).store
  refine ⟨settled, ?_, ?_⟩
  · intro kept
    have restored : ∀ id c, s.store.find? id = some c → c.restored = .ok { c with plan := none } :=
      fun id c found => Calculation.restored_of_reread fun x => kept id c x found
    obtain ⟨t, loaded⟩ := (Store.load_save_eq_ok s.store).2 fun c listed => by
      obtain ⟨id, found⟩ := Store.mem_all.1 listed
      exact ⟨_, restored id c found⟩
    have records := keyed.find?_load loaded
    have found (id : Calculation.Id) :
        t.find? id = (s.store.find? id).map fun c => { c with plan := none } := by
      cases here : s.store.find? id with
      | none =>
        rw [Option.map_none, Option.eq_none_iff_forall_ne_some]
        intro d present
        obtain ⟨c, old, _⟩ := (records id d).1 present
        rw [here] at old
        cases old
      | some c => exact (records id _).2 ⟨c, here, restored id c here⟩
    refine ⟨t, loaded, ?_, ?_⟩
    · intro id
      rw [found, Option.map_map]
      rfl
    · intro id c present
      rw [found, Option.map_eq_some_iff] at present
      obtain ⟨d, here, rfl⟩ := present
      exact settled id d here
  · rintro ⟨t, loaded, same, _⟩ id c x found result
    have here := same id
    rw [found, Option.map_some, Option.map_eq_some_iff] at here
    obtain ⟨d, present, equal⟩ := here
    obtain ⟨c', found', restored⟩ := (keyed.find?_load loaded id d).1 present
    rw [found] at found'
    cases found'
    exact Calculation.reread_of_restored restored equal x result

example : reread 9007199254740991 = some 9007199254740990 := by decide +kernel

def calculating (text : String) (steps : Nat) : List Action :=
  .call (.submit text) :: List.replicate 5 (.caller 0) ++ .handOver 0 0 ::
    List.replicate steps (.worker 0)

theorem calculating_ofSession (text : String) (steps : Nat) :
    ∀ a ∈ calculating text steps, a.OfSession .empty := by
  intro a member
  simp only [calculating, List.cons_append, List.mem_cons, List.mem_append,
    List.mem_replicate] at member
  rcases member with rfl | ⟨-, rfl⟩ | rfl | ⟨-, rfl⟩ <;> trivial

theorem quotient_survives :
    ∃ s, (opened 1 .zero .empty).run (.plain fun _ => default) (calculating "2/3" 11) = some s ∧
      (s.store.find? 1).bind Calculation.result = some (2 / 3) ∧
      ∃ t, Store.load s.store.save = .ok t ∧
        (∀ id, (t.find? id).map Calculation.result = (s.store.find? id).map Calculation.result) ∧
        ∀ id c, t.find? id = some c → (c.status = .done ↔ c.result.isSome = true) := by
  have ran : ((opened 1 .zero .empty).run (.plain fun _ => default) (calculating "2/3" 11)).any
      (fun s => decide ((s.store.find? 1).bind Calculation.result = some (2 / 3)) &&
        s.store.all.all fun c => c.result.all fun x => reread x = some x) = true := by
    decide +kernel
  obtain ⟨s, run, found⟩ := (Option.any_eq_true _ _).1 ran
  rw [Bool.and_eq_true, decide_eq_true_eq, List.all_eq_true] at found
  refine ⟨s, run, found.1, ((results_survive_iff (calculating_ofSession "2/3" 11) run).2.1 ?_)⟩
  intro id c x here result
  have kept := found.2 c (Store.mem_all.2 ⟨id, here⟩)
  rw [result] at kept
  simpa using kept

def reserved (text : String) (plan : Formula) : Service :=
  let c : Calculation := { Calculation.new text default with id := some 1 }
  { opened 1 .zero .empty with
    store := (Store.empty.create c).2
    callers := [.reserve c plan]
    notices := [⟨.created, c⟩]
    readings := 1 }

theorem run_calculating {text : String} {plan : Formula} (parsed : Formula.parse text = .ok plan)
    (steps : Nat) :
    (opened 1 .zero .empty).run (.plain fun _ => default) (calculating text steps) =
      (reserved text plan).run (.plain fun _ => default)
        (List.replicate 3 (.caller 0) ++ .handOver 0 0 :: List.replicate steps (.worker 0)) := by
  have submitted : (opened 1 .zero .empty).run (.plain fun _ => default)
      [.call (.submit text), .caller 0] =
        some { reserved text plan with
          callers := [.parse { Calculation.new text default with id := some 1 }] } := rfl
  have read : Service.step (.plain fun _ => default) { reserved text plan with
      callers := [.parse { Calculation.new text default with id := some 1 }] } (.caller 0) =
        some (reserved text plan) := by
    simp [Service.step, stepCaller, parse, reserved, Calculation.new, parsed]
  have split : calculating text steps = [.call (.submit text), .caller 0] ++ .caller 0 ::
      (List.replicate 3 (.caller 0) ++ .handOver 0 0 :: List.replicate steps (.worker 0)) := rfl
  rw [split, run_append, submitted, Option.bind_some, run_cons, read, Option.bind_some]

/-- What becomes of the calculation, and what a file keeps of it. -/
def outcomes (s : Service) : Option ((Calculation.Status × Option Float) ×
    Option (Calculation.Status × Option Float)) :=
  (s.store.find? 1).map fun c =>
    ((c.status, c.result), c.restored.toOption.map fun d => (d.status, d.result))

theorem exists_restart {text : String} {plan : Formula} {steps : Nat}
    {before after : Calculation.Status × Option Float} (parsed : Formula.parse text = .ok plan)
    (ran : ((reserved text plan).run (.plain fun _ => default)
        (List.replicate 3 (.caller 0) ++ .handOver 0 0 :: List.replicate steps (.worker 0))).any
      (fun s => decide (outcomes s = some (before, some after)) &&
        s.store.all.all fun c => c.restored.toOption.isSome) = true) :
    ∃ s t, (opened 1 .zero .empty).run (.plain fun _ => default) (calculating text steps) = some s ∧
      Store.load s.store.save = .ok t ∧
      (s.store.find? 1).map (fun c => (c.status, c.result)) = some before ∧
      (t.find? 1).map (fun c => (c.status, c.result)) = some after := by
  rw [← run_calculating parsed steps] at ran
  obtain ⟨s, run, found⟩ := (Option.any_eq_true _ _).1 ran
  rw [Bool.and_eq_true, decide_eq_true_eq, List.all_eq_true, outcomes,
    Option.map_eq_some_iff] at found
  obtain ⟨⟨c, here, same⟩, restorable⟩ := found
  rw [Prod.mk.injEq, Option.map_eq_some_iff] at same
  obtain ⟨first, d, left, second⟩ := same
  have restored : c.restored = .ok d := by
    cases kept : c.restored <;> rw [kept] at left <;> cases left
    rfl
  obtain ⟨t, loaded⟩ := (Store.load_save_eq_ok s.store).2 fun e listed => by
    have some := restorable e listed
    cases kept : e.restored with
    | error fault =>
      rw [kept] at some
      cases some
    | ok d => exact ⟨d, rfl⟩
  have keyed := (all_settled (calculating_ofSession text steps) run).store.1
  have present := (keyed.find?_load loaded 1 d).2 ⟨c, here, restored⟩
  refine ⟨s, t, run, loaded, ?_, ?_⟩
  · rw [here, Option.map_some, first]
  · rw [present, Option.map_some, second]

theorem parse_ofList {chars : List Char} {x : Float}
    (h : (match Formula.ofChars chars with
      | .ok (.number y) => decide (y = x)
      | _ => false) = true) : Formula.parse (String.ofList chars) = .ok (.number x) := by
  rw [Formula.parse, String.toList_ofList]
  split at h
  · rename_i y read
    rw [read, of_decide_eq_true h]
    rfl
  · cases h

/-- An integer above the largest float. -/
def hugeText : String :=
  String.ofList ('1' :: List.replicate 309 '0')

/-- An infinite result is lost, and the calculation is done without one. -/
theorem infinite_result_lost :
    (∀ a ∈ calculating hugeText 6, a.OfSession .empty) ∧
      ∃ s t, (opened 1 .zero .empty).run (.plain fun _ => default) (calculating hugeText 6) =
          some s ∧
        Store.load s.store.save = .ok t ∧
        (s.store.find? 1).map (fun c => (c.status, c.result)) = some (.done, some (1 / 0)) ∧
        (t.find? 1).map (fun c => (c.status, c.result)) = some (.done, none) :=
  have parsed : Formula.parse hugeText = .ok (.number (1 / 0)) := parse_ofList (by decide +kernel)
  ⟨calculating_ofSession hugeText 6, exists_restart parsed (by decide +kernel)⟩

end Service

end Reckoner
