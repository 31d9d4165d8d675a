import Reckoner.Proofs.Service.Shifts

/-!
# Duties

What a worker owes at any moment for what it received: of every calculation but the last one it has
told the beginning and the end, in this order, and what it shows and has told of the last one is up
to its standing. `Shift.duty` says so for every worker at every moment of a shift, whoever panics.
-/

namespace Reckoner

namespace Service

variable {k : Collaborators} {s t : Service} {n : Nat} {table : CostTable} {store : Store}

/-- The first parts of the entries of one worker. -/
def ofWorker {α : Type} (j : Nat) (entries : List (α × Nat)) : List α :=
  (entries.filter (·.2 = j)).map Prod.fst

@[simp] theorem ofWorker_append {α : Type} (j : Nat) (first rest : List (α × Nat)) :
    ofWorker j (first ++ rest) = ofWorker j first ++ ofWorker j rest := by
  rw [ofWorker, List.filter_append, List.map_append, ofWorker, ofWorker]

@[simp] theorem ofWorker_self {α : Type} (j : Nat) (entries : List α) :
    ofWorker j (entries.map (·, j)) = entries := by
  simp [ofWorker, List.filter_map, Function.comp_def]

theorem ofWorker_other {α : Type} {i j : Nat} (other : i ≠ j) (entries : List α) :
    ofWorker j (entries.map (·, i)) = [] := by
  simp [ofWorker, List.filter_map, Function.comp_def, other]

/-- Calculations, each told as calculating and then at its end, before anything of the next one. -/
inductive Reported : List Calculation → List Notice → Prop where
  | none : Reported [] []
  | more {cs : List Calculation} {told : List Notice} {c d : Calculation}
      (earlier : Reported cs told) (ends : Ends c d) :
      Reported (cs ++ [c])
        (told ++ [⟨.changed, { c with status := .calculating }⟩, ⟨.completed, d⟩])

/-- What a worker with a number shows, has received and has told. -/
inductive Duty (index : UInt64) :
    Standing → WorkerView → List Calculation → List Notice → Prop where
  | resting {cs : List Calculation} {told : List Notice} (reported : Reported cs told) :
      Duty index .resting (.idle index) cs told
  | taken {cs : List Calculation} {told : List Notice} {c : Calculation}
      (reported : Reported cs told) : Duty index (.taken c) (.idle index) (cs ++ [c]) told
  | shown {cs : List Calculation} {told : List Notice} {c : Calculation}
      (reported : Reported cs told) : Duty index (.shown c) ⟨index, .busy, c.id⟩ (cs ++ [c]) told
  | calculating {cs : List Calculation} {told : List Notice} {c : Calculation}
      (reported : Reported cs told) :
      Duty index (.calculating { c with status := .calculating }) ⟨index, .busy, c.id⟩ (cs ++ [c])
        (told ++ [⟨.changed, { c with status := .calculating }⟩])
  | ended {cs : List Calculation} {told : List Notice} {c : Calculation}
      (reported : Reported (cs ++ [c]) told) :
      Duty index .ended ⟨index, .busy, c.id⟩ (cs ++ [c]) told
  | left {cs : List Calculation} {told : List Notice} (reported : Reported cs told) :
      Duty index .left (.idle index) cs told
  | lost {cs : List Calculation} {told : List Notice} {c : Calculation}
      (reported : Reported (cs ++ [c]) told) :
      Duty index .lost ⟨index, .busy, c.id⟩ (cs ++ [c]) told

theorem Duty.of_rest {index : UInt64} {standing : Standing} {view : WorkerView}
    {cs : List Calculation} {told : List Notice} (h : Duty index standing view cs told)
    (rest : standing = .resting ∨ standing = .left) : view = .idle index ∧ Reported cs told := by
  cases h with
  | resting reported | left reported => exact ⟨rfl, reported⟩
  | _ => rcases rest with same | same <;> cases same

theorem WorkerTurn.duty {index : UInt64} {view view' : WorkerView} {before after : Standing}
    {cs : List Calculation} {told : List Notice}
    (turn : WorkerTurn k s t view before after view') (h : Duty index before view cs told) :
    Duty index after view' cs (told ++ toldSince s t) := by
  obtain ⟨_, follows⟩ := turn.follows
  cases turn with
  | left quiet =>
    cases h with
    | resting reported =>
      rw [toldSince_eq quiet.notices, List.reverse_nil, List.append_nil]
      exact .left reported
  | shown quiet =>
    cases h with
    | taken reported =>
      rw [toldSince_eq quiet.notices, List.reverse_nil, List.append_nil]
      exact .shown reported
  | begun news =>
    cases h with
    | shown reported =>
      rw [toldSince_eq news.notices]
      exact .calculating reported
  | going quiet =>
    rwa [toldSince_eq quiet.notices, List.reverse_nil, List.append_nil]
  | ended news ends =>
    cases h with
    | calculating reported =>
      rw [toldSince_eq news.notices, List.append_assoc]
      exact .ended (reported.more ⟨ends.id, ends.text, ends.terminal⟩)
  | lost news ends =>
    cases h with
    | calculating reported =>
      rw [toldSince_eq news.notices, List.append_assoc]
      exact .lost (reported.more ⟨ends.id, ends.text, ends.terminal⟩)
  | excused quiet =>
    rwa [toldSince_eq quiet.notices, List.reverse_nil, List.append_nil]
  | released quiet =>
    cases h with
    | ended reported =>
      rw [toldSince_eq quiet.notices, List.reverse_nil, List.append_nil]
      exact .resting reported

/-- What every worker of a service owes. -/
def Dutiful (s : Service) (received : List (Calculation × Nat)) (reported : List (Notice × Nat)) :
    Prop :=
  ∀ j w, s.workers[j]? = some w →
    Duty (UInt64.ofNat j) w.stage.standing w.view (ofWorker j received) (ofWorker j reported)

theorem dutiful_opened (n : Nat) (table : CostTable) (store : Store) :
    (opened n table store).Dutiful [] [] := by
  intro j w here
  rw [opened, List.getElem?_map, Option.map_eq_some_iff] at here
  obtain ⟨i, here, rfl⟩ := here
  obtain ⟨inside, same⟩ := List.getElem?_eq_some_iff.1 here
  rw [List.getElem_range] at same
  subst same
  exact .resting .none

theorem ActionTurn.dutiful {a : Action} {received : List (Calculation × Nat)}
    {reported : List (Notice × Nat)} (turn : ActionTurn k s a t) (h : s.Dutiful received reported) :
    t.Dutiful (received ++ s.receipt a) (reported ++ s.report t a) := by
  intro j w' here
  rw [ofWorker_append, ofWorker_append]
  have quiet : t.workers[j]? = s.workers[j]? → s.receipt a = [] → s.report t a = [] →
      Duty (UInt64.ofNat j) w'.stage.standing w'.view
        (ofWorker j received ++ ofWorker j (s.receipt a))
        (ofWorker j reported ++ ofWorker j (s.report t a)) := by
    intro same receipt report
    rw [receipt, report]
    simpa [ofWorker] using h j w' (same ▸ here)
  cases turn with
  | @worker i w v u old turn =>
    have receipt : s.receipt (.worker i) = [] := rfl
    have report : s.report { u with workers := s.workers.set i v } (.worker i) =
      (toldSince s u).map (·, i) := rfl
    rw [receipt, report, show ofWorker j ([] : List (Calculation × Nat)) = [] from rfl,
      List.append_nil]
    by_cases same : i = j
    · subst same
      rw [getElem?_set_of_getElem? old] at here
      cases here
      rw [ofWorker_self]
      exact turn.duty (h i w old)
    · rw [List.getElem?_set_ne same] at here
      rw [ofWorker_other same, List.append_nil]
      exact h j w' here
  | caller _ turn => exact quiet (congrArg (·[j]?) turn.frame.1) rfl rfl
  | @handedOver i l c next view offering waiting =>
    have receipt : s.receipt (.handOver i l) = [c].map (·, l) := by simp [Service.receipt, offering]
    have report : ∀ u, s.report u (.handOver i l) = [] := fun _ => rfl
    rw [receipt, report, show ofWorker j ([] : List (Notice × Nat)) = [] from rfl, List.append_nil]
    by_cases same : l = j
    · subst same
      have rested := h l _ waiting
      rw [getElem?_set_of_getElem? waiting] at here
      cases here
      rw [ofWorker_self]
      cases rested with
      | resting reported => exact .taken reported
    · rw [List.getElem?_set_ne same] at here
      rw [ofWorker_other same, List.append_nil]
      exact h j w' here
  | used | dropped | called | repriced => exact quiet rfl rfl rfl

theorem ActionTurn.numbers {a : Action} (turn : ActionTurn k s a t) :
    (∀ r ∈ s.receipt a, r.2 < s.workers.length) ∧ ∀ r ∈ s.report t a, r.2 < s.workers.length := by
  cases turn with
  | worker here =>
    refine ⟨List.forall_mem_nil _, fun r member => ?_⟩
    obtain ⟨m, _, rfl⟩ := List.mem_map.1 member
    exact (List.getElem?_eq_some_iff.1 here).1
  | handedOver offering waiting =>
    refine ⟨fun r member => ?_, List.forall_mem_nil _⟩
    simp only [receipt, offering, List.mem_singleton] at member
    rw [member]
    exact (List.getElem?_eq_some_iff.1 waiting).1
  | caller | used | dropped | called | repriced =>
    exact ⟨List.forall_mem_nil _, List.forall_mem_nil _⟩

theorem ofWorker_eq_nil {α : Type} {j : Nat} {entries : List (α × Nat)}
    (others : ∀ r ∈ entries, r.2 ≠ j) : ofWorker j entries = [] := by
  rw [ofWorker, List.map_eq_nil_iff, List.filter_eq_nil_iff]
  exact fun r member same => others r member (of_decide_eq_true same)

namespace Shift

variable {actions : List Action}

/-- What the workers received in a shift, earliest first. -/
abbrev received (_ : Shift k n table store actions s) : List (Calculation × Nat) :=
  receipts k (opened n table store) actions

/-- What the workers told in a shift, earliest first. -/
abbrev reported (_ : Shift k n table store actions s) : List (Notice × Nat) :=
  reports k (opened n table store) actions

theorem dutiful (h : Shift k n table store actions s) : s.Dutiful h.received h.reported :=
  h.keeps (P := Dutiful) (dutiful_opened n table store) fun _ dutiful turn => turn.dutiful dutiful

theorem numbers (h : Shift k n table store actions s) :
    (∀ r ∈ h.received, r.2 < n) ∧ ∀ r ∈ h.reported, r.2 < n := by
  have all := h.keeps (P := fun s received reported => s.workers.length = n ∧
      (∀ r ∈ received, r.2 < n) ∧ ∀ r ∈ reported, r.2 < n) (by simp [opened]) ?_
  · exact all.2
  · rintro s t a received reported _ ⟨count, before, before'⟩ turn
    obtain ⟨now, now'⟩ := turn.numbers
    rw [count] at now now'
    exact ⟨turn.length_workers.trans count, List.forall_mem_append.2 ⟨before, now⟩,
      List.forall_mem_append.2 ⟨before', now'⟩⟩

theorem ofWorker_outside (h : Shift k n table store actions s) {j : Nat} (outside : n ≤ j) :
    ofWorker j h.received = [] ∧ ofWorker j h.reported = [] :=
  ⟨ofWorker_eq_nil fun r member => Nat.ne_of_lt (Nat.lt_of_lt_of_le (h.numbers.1 r member) outside),
    ofWorker_eq_nil fun r member => Nat.ne_of_lt (Nat.lt_of_lt_of_le (h.numbers.2 r member) outside)⟩

end Shift

end Service

end Reckoner
