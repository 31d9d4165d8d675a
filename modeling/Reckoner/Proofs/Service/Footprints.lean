import Mathlib.Logic.Relation
import Reckoner.Proofs.Service.Steps
import Reckoner.Proofs.Store.Records

/-!
# Footprints

Whatever happens in a service is put together from a few changes, the touches. `keeps_of_step` says
that a relation between states that all touches respect holds between the states before and behind
every action, so that such a relation need not be followed through the operations. `framed_of_run`
is one: a record changes only when the listener is told of something under its number.
-/

namespace Reckoner.Service

variable {k : Collaborators} {s t u : Service}

/-- The changes that operations are put together from. -/
inductive Touch (k : Collaborators) (s : Service) : Service → Prop where
  | read : Touch k s (s.now k).2
  | told (occasion : Occasion) (c : Calculation) (later : occasion ≠ .created) :
      Touch k s (s.tell k occasion c).1
  | introduced (c : Calculation) : Touch k s (s.introduce k c).2.1
  | paused (charge : Charge) : Touch k s (s.beginPause k charge).1
  | closed : Touch k s { s with isOpen := false }
  | moved (workers : List Worker) (callers : List Caller) : Touch k s { s with workers, callers }

abbrev Touches (k : Collaborators) : Service → Service → Prop :=
  Relation.ReflTransGen (Touch k)

/-! ### Operations -/

theorem Touches.of_tell {occasion : Occasion} {c : Calculation} {panics : Bool}
    (told : s.tell k occasion c = (t, panics)) (later : occasion ≠ .created) : Touches k s t := by
  have touch : Touch k s (s.tell k occasion c).1 := .told occasion c later
  rw [told] at touch
  exact .single touch

theorem Touches.of_now (touches : Touches k (s.now k).2 t) : Touches k s t :=
  .head .read touches

theorem touches_beginWork (c : Calculation) : Touches k s (s.beginWork k c).1 := by
  unfold beginWork
  split
  · exact .refl
  split
  · rename_i told
    exact .of_tell told nofun
  · rename_i told
    split <;> exact .of_tell told nofun

theorem touches_conclude (c : Calculation) (outcome : Except Error Float) :
    Touches k s (s.conclude k c outcome).1 := by
  refine .of_now ?_
  unfold conclude
  dsimp only
  split
  · exact .refl
  split
  all_goals
    rename_i told
    exact .of_tell told nofun

theorem touches_recover (c : Calculation) : Touches k s (s.recover k c).1 := by
  unfold recover
  dsimp only
  split
  · refine .of_now ?_
    split
    · exact .refl
    split
    all_goals
      rename_i told
      exact .of_tell told nofun
  · exact .refl

theorem touches_evaluate (c : Calculation) (e : Evaluation) :
    Touches k s (s.evaluate k c e).1 := by
  unfold evaluate
  split
  · exact .refl
  · exact .refl
  · rename_i charge _ _
    have touch : Touch k s (s.beginPause k charge).1 := .paused charge
    split
    all_goals
      rename_i paused
      rw [paused] at touch
      exact .single touch

theorem touches_failParse (c : Calculation) (e : Error) (next : Calculation → Caller) :
    Touches k s (s.failParse k c e next).1 := by
  refine .of_now ?_
  unfold failParse
  dsimp only
  split
  · exact .refl
  split
  all_goals
    rename_i told
    exact .of_tell told nofun

theorem touches_submit (text : String) : Touches k s (s.submit k text).1 := by
  have touch : Touch k (s.now k).2 ((s.now k).2.introduce k (.new text (s.now k).1)).2.1 :=
    .introduced _
  refine .of_now ?_
  unfold submit
  dsimp only
  split
  all_goals
    rename_i introduced
    rw [introduced] at touch
    exact .single touch

theorem touches_announce (c : Calculation) (plan : Formula) (next : Then) :
    Touches k s (s.announce k c plan next).1 := by
  unfold announce
  split
  · exact .refl
  split
  all_goals
    rename_i told
    exact .of_tell told nofun

/-! ### Actions -/

theorem touches_stepWorker {w : Worker} {r : Service × Worker} (own : s.stepWorker k w = some r) :
    Touches k s r.1 := by
  obtain ⟨stage, view⟩ := w
  cases stage with
  | waiting =>
    simp only [stepWorker] at own
    split at own <;> cases own
    exact .refl
  | received c | pausing c e | releasing =>
    cases own
    exact .refl
  | begun c =>
    cases own
    exact touches_beginWork c
  | evaluating c e =>
    cases own
    exact touches_evaluate c e
  | concluding c outcome =>
    cases own
    exact touches_conclude c outcome
  | recovering c =>
    cases own
    exact touches_recover c
  | exited | lost => cases own

theorem touches_parse (c : Calculation) : Touches k s (s.parse k c).1 := by
  unfold parse
  split
  · exact .refl
  · exact touches_failParse ..

theorem touches_reopen (c : Calculation) (rest : List Calculation) (count : Nat) :
    Touches k s (s.reopen k c rest count).1 := by
  unfold reopen
  split
  · exact .refl
  split
  · exact .refl
  · exact touches_failParse ..

theorem touches_stepCaller {c : Caller} {r : Service × Caller} (own : s.stepCaller k c = some r) :
    Touches k s r.1 := by
  cases c with
  | submit text =>
    cases own
    exact touches_submit text
  | parse c =>
    cases own
    exact touches_parse c
  | reject c =>
    cases own
    exact touches_failParse ..
  | reopen c rest count =>
    cases own
    exact touches_reopen c rest count
  | announce c plan next =>
    cases own
    exact touches_announce c plan next
  | reserve c plan | resume rest count | send c next | request c | acquire =>
    cases own
    exact .refl
  | offer c next | join =>
    simp only [stepCaller] at own
    split at own <;> cases own
    exact .refl
  | close =>
    simp only [stepCaller] at own
    split at own <;> cases own
    · exact .single .closed
    · exact .refl
  | hold | done reply => cases own

/-- What all touches and a new table respect, every action respects. -/
theorem keeps_of_step {R : Service → Service → Prop} {a : Action} (refl : ∀ s, R s s)
    (trans : ∀ {s t u}, R s t → R t u → R s u) (touch : ∀ {s t}, Touch k s t → R s t)
    (repriced : ∀ (s : Service) table, a = .setCosts table → R s { s with table })
    (happened : s.step k a = some t) : R s t := by
  have follow : ∀ {s t}, Touches k s t → R s t := by
    intro s t touches
    induction touches with
    | refl => exact refl s
    | tail _ last ih => exact trans ih (touch last)
  cases happens_of_step happened with
  | worker here own => exact follow ((touches_stepWorker own).tail (.moved _ _))
  | caller here own => exact follow ((touches_stepCaller own).tail (.moved _ _))
  | handedOver | used | dropped | called => exact touch (.moved _ _)
  | repriced => exact repriced _ _ rfl

/-! ### Records -/

/-- The listener was told something, and only records under the numbers that it heard changed. -/
def Framed (s t : Service) : Prop :=
  ∃ told, t.notices = told ++ s.notices ∧
    ∀ id, (∀ m ∈ told, m.calculation.id ≠ some id) → t.store.find? id = s.store.find? id

theorem Framed.refl (s : Service) : Framed s s :=
  ⟨[], rfl, fun _ _ => rfl⟩

theorem Framed.trans (first : Framed s t) (second : Framed t u) : Framed s u := by
  obtain ⟨told, notices, records⟩ := first
  obtain ⟨more, notices', records'⟩ := second
  refine ⟨more ++ told, by rw [notices', notices, List.append_assoc], fun id others => ?_⟩
  obtain ⟨later, earlier⟩ := List.forall_mem_append.1 others
  rw [records' id later, records id earlier]

theorem Touch.framed (touch : Touch k s t) : Framed s t := by
  cases touch with
  | read | paused | closed | moved => exact ⟨[], rfl, fun _ _ => rfl⟩
  | told occasion c =>
    refine ⟨[⟨occasion, c⟩], rfl, fun id other => ?_⟩
    unfold tell
    dsimp only
    split
    · exact Store.find?_keep_of_id_ne (other _ (.head _))
    · rfl
  | introduced c =>
    refine ⟨[⟨.created, { c with id := some s.store.nextId }⟩], rfl, fun id other => ?_⟩
    have different : id ≠ s.store.nextId := fun same => other _ (.head _) (same ▸ rfl)
    unfold introduce
    dsimp only
    split
    · rw [Store.find?_create, if_neg different]
    · rfl

/-- Of what the listener did not hear in a run, the records are as before. -/
theorem framed_of_run {actions : List Action} (ran : s.run k actions = some t) : Framed s t := by
  induction actions generalizing s with
  | nil =>
    cases ran
    exact .refl _
  | cons a rest ih =>
    rw [run_cons, Option.bind_eq_some_iff] at ran
    obtain ⟨u, happened, ran⟩ := ran
    have first : Framed s u := keeps_of_step Framed.refl Framed.trans Touch.framed
      (fun _ _ _ => ⟨[], rfl, fun _ _ => rfl⟩) happened
    exact first.trans (ih ran)

end Reckoner.Service
