import Reckoner.Proofs.Formula.Acceptance
import Reckoner.Proofs.Service.Shifts
import Reckoner.Service.Schedule

/-!
# The work left

Whatever happens inside a service lowers `work`: the own steps of workers and callers, and the
handovers. So after a bounded number of such actions nobody can act any more, unless something is
called from outside; `length_add_work_le` says so of a run, and `ownSteps_add_work_le` of the steps
of a single worker.
-/

namespace Reckoner

namespace Evaluation

variable {table : CostTable} {e e' : Evaluation}

theorem work_running (h : e.step table = .running e') : e'.work < e.work := by
  cases e with
  | enter f inside =>
    cases f with
    | number x =>
      cases h
      simp only [work]
      omega
    | binary l op r =>
      cases h
      simp only [work, work.insideWork, Formula.operatorCount]
      omega
  | leave x inside =>
    cases inside with
    | nil => cases h
    | cons frame rest =>
      cases frame with
      | left op cost r =>
        cases h
        simp only [work, work.insideWork]
        omega
      | right op cost y =>
        simp only [step] at h
        split at h <;> cases h

theorem work_pausing {c : Charge} (h : e.step table = .pausing c e') : e'.work < e.work := by
  cases e with
  | enter f inside => cases f <;> cases h
  | leave x inside =>
    cases inside with
    | nil => cases h
    | cons frame rest =>
      cases frame with
      | left op cost r => cases h
      | right op cost y =>
        simp only [step] at h
        split at h
        · cases h
        · cases h
          simp only [work, work.insideWork]
          omega

end Evaluation

namespace Service

variable {k : Collaborators} {s t : Service}

/-! ### Workers -/

theorem eleven_le_planWork (c : Calculation) : 11 ≤ planWork c :=
  Nat.le_add_left 11 _

theorem work_beginWork (c : Calculation) : (s.beginWork k c).2.work < planWork c - 1 := by
  have enough := eleven_le_planWork c
  by_cases queued : c.status = .queued
  · simp only [beginWork, Calculation.beginCalculating, queued, if_true]
    split
    · simp only [Stage.work]
      omega
    · split
      · rename_i plan planned
        simp only [Stage.work, planWork, planned, Evaluation.start, Evaluation.work,
          Evaluation.work.insideWork, takenWork, Option.map_some, Option.getD_some]
        omega
      · simp only [Stage.work]
        omega
  · simp only [beginWork, Calculation.beginCalculating, queued, if_false, Stage.work]
    omega

theorem work_evaluate (c : Calculation) (e : Evaluation) :
    (s.evaluate k c e).2.work < (Stage.evaluating c e).work := by
  unfold evaluate
  split
  · rename_i step
    have less := Evaluation.work_running step
    simp only [Stage.work]
    omega
  · simp only [Stage.work]
    omega
  · rename_i step
    have less := Evaluation.work_pausing step
    split <;> simp only [Stage.work] <;> omega

theorem work_conclude (c : Calculation) (outcome : Except Error Float) :
    (s.conclude k c outcome).2.work < (Stage.concluding c outcome).work := by
  unfold conclude
  dsimp only
  split
  · exact Nat.lt_of_sub_eq_succ rfl
  · split <;> exact Nat.lt_of_sub_eq_succ rfl

theorem work_recover (c : Calculation) : (s.recover k c).2.work < (Stage.recovering c).work := by
  unfold recover
  dsimp only
  split
  · split
    · exact Nat.lt_of_sub_eq_succ rfl
    · split <;> exact Nat.lt_of_sub_eq_succ rfl
  · exact Nat.lt_of_sub_eq_succ rfl

theorem work_stepWorker {w w' : Worker} (h : s.stepWorker k w = some (t, w')) :
    w'.stage.work < w.stage.work := by
  obtain ⟨stage, view⟩ := w
  cases stage with
  | waiting =>
    simp only [stepWorker] at h
    split at h <;> cases h
    exact Nat.one_pos
  | received c =>
    cases h
    have enough := eleven_le_planWork c
    simp only [Stage.work]
    omega
  | begun c =>
    cases h
    exact work_beginWork c
  | evaluating c e =>
    cases h
    exact work_evaluate c e
  | pausing c e =>
    cases h
    exact Nat.lt_succ_self _
  | concluding c outcome =>
    cases h
    exact work_conclude c outcome
  | recovering c =>
    cases h
    exact work_recover c
  | releasing =>
    cases h
    exact Nat.lt_succ_self _
  | exited => cases h
  | lost => cases h

/-! ### Callers -/

theorem work_failParse {c : Calculation} {e : Error} {next : Calculation → Caller} (bound : Nat)
    (after : ∀ d, (next d).work ≤ bound) : (s.failParse k c e next).2.work ≤ bound := by
  unfold failParse
  dsimp only
  split
  · exact Nat.zero_le _
  · split
    · exact Nat.zero_le _
    · exact after _

theorem work_parse (c : Calculation) : (s.parse k c).2.work < (Caller.parse c).work := by
  unfold parse
  split
  · rename_i plan right
    have fewer := Formula.operatorCount_le_of_parse right
    simp only [Caller.work, takenWork]
    omega
  · refine Nat.lt_of_le_of_lt (work_failParse 0 fun _ => Nat.le_refl 0) ?_
    simp only [Caller.work, takenWork]
    omega

theorem work_resume (rest : List Calculation) (count : Nat) :
    (s.resume rest count).work < (Caller.resume rest count).work := by
  cases rest with
  | nil => exact Nat.one_pos
  | cons c rest =>
    rw [resume]
    split
    · simp only [Caller.work, resumeWork, totalWork, unparsedWork]
      omega
    · split <;> simp only [Caller.work, resumeWork, totalWork, unparsedWork] <;> omega

theorem work_reopen (c : Calculation) (rest : List Calculation) (count : Nat) :
    (s.reopen k c rest count).2.work < (Caller.reopen c rest count).work := by
  by_cases pending : c.isPending = true
  · simp only [reopen, Calculation.reopen, pending, if_true]
    split
    · rename_i plan right
      have fewer := Formula.operatorCount_le_of_parse right
      simp only [Caller.work, Then.work, takenWork] at fewer ⊢
      omega
    · refine Nat.lt_of_le_of_lt (work_failParse (resumeWork rest) fun _ => Nat.le_refl _) ?_
      simp only [Caller.work, takenWork]
      omega
  · simp only [reopen, Calculation.reopen, if_neg pending, Caller.work, takenWork]
    omega

theorem work_announce (c : Calculation) (plan : Formula) (next : Then) :
    (s.announce k c plan next).2.work < (Caller.announce c plan next).work := by
  by_cases created : c.status = .created
  · simp only [announce, Calculation.queue, created, if_true]
    split <;> simp only [Caller.work, planWork, takenWork, Option.map_some, Option.getD_some] <;>
      omega
  · simp only [announce, Calculation.queue, created, if_false, Caller.work]
    omega

theorem work_submit (text : String) : (s.submit k text).2.work < (Caller.submit text).work := by
  simp only [submit, now, introduce, Store.issue]
  split <;> rename_i named <;> simp only [Prod.mk.injEq] at named
  · simp only [Caller.work, takenWork]
    omega
  · simp only [← named.1, Caller.work, Calculation.new, takenWork]
    omega

theorem work_stepCaller {c c' : Caller} (h : s.stepCaller k c = some (t, c')) :
    c'.work < c.work := by
  have less : ∀ {d : Caller} {r : Service × Caller}, r.2.work < d.work → some r = some (t, c') →
      c'.work < d.work := by
    rintro d r less same
    cases same
    exact less
  cases c with
  | submit text => exact less (work_submit text) h
  | parse c => exact less (work_parse c) h
  | reserve c plan =>
    simp only [stepCaller] at h
    split at h <;> cases h <;> simp only [Caller.work, Then.work, takenWork] <;> omega
  | reject c =>
    have least : (s.reject k c).2.work ≤ 0 := work_failParse 0 fun _ => Nat.le_refl 0
    exact less (Nat.lt_succ_of_le least) h
  | resume rest count => exact less (r := (s, _)) (work_resume rest count) h
  | reopen c rest count => exact less (work_reopen c rest count) h
  | announce c plan next => exact less (work_announce c plan next) h
  | send c next =>
    simp only [stepCaller, send] at h
    split at h <;> cases h <;> simp only [Caller.work] <;> omega
  | offer c next =>
    have enough := eleven_le_planWork c
    simp only [stepCaller] at h
    split at h <;> cases h
    simp only [Caller.work]
    omega
  | request c =>
    simp only [stepCaller] at h
    split at h <;> cases h <;> simp only [Caller.work, Then.work] <;> omega
  | acquire =>
    simp only [stepCaller] at h
    split at h <;> cases h <;> exact Nat.one_pos
  | hold => cases h
  | close =>
    simp only [stepCaller] at h
    split at h <;> cases h <;> simp only [Caller.work] <;> omega
  | join =>
    simp only [stepCaller] at h
    split at h <;> cases h
    exact Nat.one_pos
  | done reply => cases h

/-! ### The whole service -/

def Action.isInside : Action → Bool
  | .worker _ | .caller _ | .handOver .. => true
  | _ => false

theorem permitted_of_isInside {a : Action} (inside : a.isInside = true) : a.Permitted := by
  cases a with
  | call c => cases inside
  | _ => trivial

theorem totalWork_set {α : Type} (bound : α → Nat) {l : List α} {i : Nat} {a : α}
    (here : l[i]? = some a) (b : α) :
    totalWork bound (l.set i b) + bound a = totalWork bound l + bound b := by
  induction l generalizing i with
  | nil => cases here
  | cons head rest ih =>
    cases i with
    | zero =>
      cases here
      simp only [List.set_cons_zero, totalWork]
      omega
    | succ i =>
      have inside := ih (by simpa using here)
      simp only [List.set_cons_succ, totalWork]
      omega

theorem totalWork_append {α : Type} (bound : α → Nat) (first rest : List α) :
    totalWork bound (first ++ rest) = totalWork bound first + totalWork bound rest := by
  induction first with
  | nil => simp [totalWork]
  | cons a first ih => simp only [List.cons_append, totalWork, ih, Nat.add_assoc]

theorem work_handedOver (c : Calculation) (next : Then) : (handedOver c next).work = next.work := by
  cases next <;> rfl

theorem Orderly.work_step (orderly : s.Orderly) {a : Action} (inside : a.isInside = true)
    (h : s.step k a = some t) : t.work < s.work := by
  cases happens_of_step h with
  | @worker i w w' u here own =>
    obtain ⟨_, follows⟩ :=
      (stepWorker_turn (orderly.workers w (List.mem_of_getElem? here)) own).follows
    have less := work_stepWorker own
    have total := totalWork_set (fun w => w.stage.work) here w'
    simp only [work, follows.workers, follows.callers]
    omega
  | @caller i c c' u here own =>
    obtain ⟨workers, callers, _⟩ :=
      (stepCaller_turn (orderly.callers c (List.mem_of_getElem? here)) own).frame
    have less := work_stepCaller own
    have total := totalWork_set Caller.work here c'
    simp only [work, workers, callers]
    omega
  | @handedOver i j c next view offering waiting =>
    have taken : _ + 1 = _ + planWork c :=
      totalWork_set (fun w => w.stage.work) waiting ⟨.received c, view⟩
    have given : _ + (planWork c + next.work) = _ + (Service.handedOver c next).work :=
      totalWork_set Caller.work offering (Service.handedOver c next)
    rw [work_handedOver] at given
    simp only [work]
    omega
  | _ => cases inside

/-- Without calls from outside, no more happens than the work that is left. -/
theorem Orderly.length_add_work_le (orderly : s.Orderly) {actions : List Action}
    (inside : ∀ a ∈ actions, a.isInside = true) (h : s.run k actions = some t) :
    actions.length + t.work ≤ s.work := by
  induction actions generalizing s with
  | nil =>
    cases h
    simp
  | cons a rest ih =>
    rw [run_cons, Option.bind_eq_some_iff] at h
    obtain ⟨u, happened, h⟩ := h
    have here := inside a (.head _)
    have less := orderly.work_step here happened
    have later := ih ((step_turn orderly (permitted_of_isInside here) happened).orderly orderly)
      (fun b member => inside b (.tail _ member)) h
    rw [List.length_cons]
    omega

/-! ### A single worker -/

def Action.isTurnOf (j : Nat) : Action → Bool
  | .worker i => i = j
  | _ => false

theorem not_isTurnOf {j : Nat} {a : Action} (other : a ≠ .worker j) : a.isTurnOf j = false := by
  cases a with
  | worker i => exact decide_eq_false fun same => other (congrArg Action.worker same)
  | _ => rfl

/-- A worker takes no more steps than the work that it has left, before it is at the rendezvous
again. -/
theorem Orderly.ownSteps_add_work_le (orderly : s.Orderly) {j : Nat} {w : Worker}
    (here : s.workers[j]? = some w) (present : w.stage.standing ≠ .left) {actions : List Action}
    (permitted : ∀ a ∈ actions, a.Permitted) (h : s.run k actions = some t) :
    (∃ m u v, s.run k (actions.take m) = some u ∧ u.workers[j]? = some v ∧ v.stage = .waiting) ∨
      ∃ v, t.workers[j]? = some v ∧ v.stage.standing ≠ .left ∧
        actions.countP (Action.isTurnOf j) + v.stage.work ≤ w.stage.work := by
  induction actions generalizing s w with
  | nil =>
    cases h
    exact .inr ⟨w, here, present, by simp⟩
  | cons a rest ih =>
    by_cases waiting : w.stage = .waiting
    · exact .inl ⟨0, s, w, rfl, here, waiting⟩
    rw [run_cons, Option.bind_eq_some_iff] at h
    obtain ⟨u, happened, h⟩ := h
    have turn := step_turn orderly (permitted a (.head _)) happened
    have later : ∀ {v : Worker}, u.workers[j]? = some v → v.stage.standing ≠ .left → _ :=
      fun there present => ih (turn.orderly orderly) there present
        (fun b member => permitted b (.tail _ member)) h
    have forward : (∃ m u' v, u.run k (rest.take m) = some u' ∧ u'.workers[j]? = some v ∧
        v.stage = .waiting) → ∃ m u' v, s.run k ((a :: rest).take m) = some u' ∧
          u'.workers[j]? = some v ∧ v.stage = .waiting := by
      rintro ⟨m, u', v, ran, back⟩
      exact ⟨m + 1, u', v, by rw [List.take_succ_cons, run_cons, happened, Option.bind_some, ran],
        back⟩
    rw [List.countP_cons]
    by_cases own : a = .worker j
    · subst own
      cases happens_of_step happened with
      | @worker _ _ w' t' there happened =>
        cases here.symm.trans there
        have own := stepWorker_turn (orderly.workers w (List.mem_of_getElem? here)) happened
        obtain ⟨_, follows⟩ := own.follows
        have stays : w'.stage.standing ≠ .left := by
          intro left
          rw [left] at own
          exact waiting (standing_eq_resting.1 own.leaving.1)
        refine (later (getElem?_set_of_getElem? (follows.workers ▸ here)) stays).imp forward ?_
        rintro ⟨v, there, stays, (bound : _ ≤ w'.stage.work)⟩
        have less := work_stepWorker happened
        refine ⟨v, there, stays, ?_⟩
        simp only [Action.isTurnOf, decide_true, if_true]
        omega
    · rw [not_isTurnOf own]
      rcases turn.worker_at here with same | ⟨own', _⟩ | ⟨_, _, _, _, _, waiting', _⟩
      · exact (later same present).imp forward id
      · exact (own own').elim
      · exact (waiting waiting').elim

end Service

end Reckoner
