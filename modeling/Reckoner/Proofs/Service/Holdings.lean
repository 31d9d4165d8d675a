import Reckoner.Proofs.Calculation.Lifecycle
import Reckoner.Proofs.Service.Steps
import Reckoner.Proofs.Store.Records

/-!
# What a service holds

A service holds calculations in its store and in the hands of its workers and callers, and tells the
listener of them. `Carries.run` says that a property that a calculation has at its beginning and that
no call breaks holds of all that is told and recorded, whatever the listener and the pacer do. What
is to be resumed need not have it before it is opened again; in `All.run` it has it all along.
-/

namespace Reckoner

/-- No step of a calculation breaks the property. -/
structure Calculation.Lasting (P : Calculation → Prop) : Prop where
  new : ∀ text now, P (.new text now)
  named : ∀ c id, P c → P { c with id := some id }
  queue : ∀ c plan d, P c → c.queue plan = .ok d → P d
  beginCalculating : ∀ c d, P c → c.beginCalculating = .ok d → P d
  complete : ∀ c x now d, P c → c.complete x now = .ok d → P d
  fail : ∀ c message now d, P c → c.fail message now = .ok d → P d
  reopen : ∀ c d, P c → c.reopen = .ok d → P d

theorem Calculation.Lasting.effect {P : Calculation → Prop} (lasting : Lasting P) {c : Calculation}
    {call : Call} (holds : P c) (legal : call.isLegal c.status = true) : P (call.effect c) := by
  have made : c.attempt call = .ok (call.effect c) := by rw [attempt_eq, if_pos legal]
  cases call with
  | queue plan => exact lasting.queue c plan _ holds made
  | beginCalculating => exact lasting.beginCalculating c _ holds made
  | complete value now => exact lasting.complete c value now _ holds made
  | fail message now => exact lasting.fail c message now _ holds made
  | reopen => exact lasting.reopen c _ holds made

namespace Store

variable {P : Calculation → Prop} {s : Store} {c : Calculation}

/-- All records have the property, and their numbers. -/
def All (P : Calculation → Prop) (s : Store) : Prop :=
  s.Keyed ∧ ∀ id c, s.find? id = some c → P c

theorem All.insert (h : s.All P) (holds : P c) {id : Calculation.Id} (named : c.id = some id) :
    All P { s with records := s.records.insert id c } := by
  refine ⟨h.1.insert named, ?_⟩
  intro key d found
  rw [find?_insert] at found
  split at found
  · cases found
    exact holds
  · exact h.2 key d found

theorem All.keep (h : s.All P) (holds : P c) : (s.keep c).All P := by
  unfold Store.keep
  split
  · exact h
  · rename_i id named
    split
    · split
      · exact h
      · exact h.insert holds named
    · exact h.insert holds named

end Store

namespace Service

variable {k : Collaborators} {P stored taken : Calculation → Prop} {s t u : Service}
variable {c : Calculation}

/-! ### Hands -/

def Stage.held : Stage → List Calculation
  | .received c | .begun c | .evaluating c _ | .pausing c _ | .concluding c _ | .recovering c => [c]
  | .waiting | .releasing | .exited | .lost => []

def Then.held : Then → List Calculation
  | .submitted | .accepted => []
  | .resume rest _ => rest

def Caller.held : Caller → List Calculation
  | .parse c | .reserve c _ | .reject c | .request c => [c]
  | .resume rest _ => rest
  | .reopen c rest _ => c :: rest
  | .announce c _ next | .send c next | .offer c next => c :: next.held
  | .submit _ | .acquire | .hold | .close | .join | .done _ => []

structure All (P : Calculation → Prop) (s : Service) : Prop where
  store : s.store.All P
  workers : ∀ w ∈ s.workers, ∀ c ∈ w.stage.held, P c
  callers : ∀ c ∈ s.callers, ∀ d ∈ c.held, P d

def Action.held : Action → List Calculation
  | .call c => c.held
  | .use _ c => [c]
  | _ => []

/-! ### Beginnings -/

/-- Every calculation has the property at its beginning, whether it is new or opened again, and
every call keeps it. A calculation whose text is no formula fails as soon as it is opened again. -/
structure Sources (P stored taken : Calculation → Prop) : Prop where
  new : ∀ id text now, P { Calculation.new text now with id }
  effect : ∀ c (call : Calculation.Call), P c → call.isLegal c.status = true → P (call.effect c)
  resumed : ∀ c, stored c → isResumable c = true → taken c
  reopened : ∀ c, taken c → c.isPending = true → (∃ f, Formula.parse c.text = .ok f) →
    P (reopened c)
  unreadable : ∀ c, taken c → c.isPending = true → ∀ message time,
    P (failed (Service.reopened c) message time)

theorem Sources.attempt (sources : Sources P stored taken) (call : Calculation.Call)
    {d : Calculation} (holds : P c) (made : c.attempt call = .ok d) : P d := by
  rw [Calculation.attempt_eq] at made
  split at made
  · cases made
    exact sources.effect c call holds ‹_›
  · cases made

theorem sources_of_lasting (lasting : Calculation.Lasting P) : Sources P P P := by
  have again : ∀ c, P c → c.isPending = true → P (reopened c) := fun c holds pending =>
    lasting.reopen c _ holds (if_pos pending)
  refine ⟨fun id text now => ?_, fun c call holds legal => lasting.effect holds legal,
    fun c holds _ => holds, fun c holds pending _ => again c holds pending,
    fun c holds pending message time => ?_⟩
  · cases id with
    | none => exact lasting.new text now
    | some id => exact lasting.named _ id (lasting.new text now)
  · have legal : (Calculation.Call.fail message time).isLegal (reopened c).status = true := rfl
    exact lasting.effect (again c holds pending) legal

/-! ### What is told -/

/-- All that the listener was told meanwhile has the property, and so all that it recorded. -/
structure Told (P : Calculation → Prop) (s t : Service) : Prop where
  notices : ∃ told, t.notices = told ++ s.notices ∧ ∀ m ∈ told, P m.calculation
  store : s.store.All P → t.store.All P

theorem Told.of_quiet (notices : t.notices = s.notices) (store : t.store = s.store) : Told P s t :=
  ⟨⟨[], notices, List.forall_mem_nil _⟩, fun all => store ▸ all⟩

theorem Told.refl (s : Service) : Told P s s :=
  .of_quiet rfl rfl

theorem Told.trans (first : Told P s t) (second : Told P t u) : Told P s u := by
  obtain ⟨told, grown, holds⟩ := first.notices
  obtain ⟨more, grown', holds'⟩ := second.notices
  refine ⟨⟨more ++ told, ?_, List.forall_mem_append.2 ⟨holds', holds⟩⟩, second.store ∘ first.store⟩
  rw [grown', grown, List.append_assoc]

/-- After an operation that leaves all workers and callers alone. -/
structure Tells (P : Calculation → Prop) (s t : Service) : Prop extends Told P s t where
  workers : t.workers = s.workers
  callers : t.callers = s.callers

namespace Tells

theorem refl (s : Service) : Tells P s s :=
  ⟨.refl s, rfl, rfl⟩

theorem of_now (h : Tells P (s.now k).2 t) : Tells P s t :=
  ⟨⟨h.notices, h.store⟩, h.workers, h.callers⟩

theorem now (k : Collaborators) (s : Service) : Tells P s (s.now k).2 :=
  .of_now (.refl _)

theorem of_tell (holds : P c) {occasion : Occasion} {panicked : Bool}
    (told : s.tell k occasion c = (t, panicked)) : Tells P s t := by
  unfold Service.tell at told
  cases told
  refine ⟨⟨⟨[⟨occasion, c⟩], rfl, List.forall_mem_singleton.2 holds⟩, fun all => ?_⟩, rfl, rfl⟩
  dsimp only
  split
  · exact all.keep holds
  · exact all

theorem of_beginPause {charge : Charge} {panicked : Bool}
    (began : s.beginPause k charge = (t, panicked)) : Tells P s t := by
  cases began
  exact ⟨.of_quiet rfl rfl, rfl, rfl⟩

theorem introduce (holds : P { c with id := some s.store.nextId }) :
    Tells P s (s.introduce k c).2.1 := by
  refine ⟨⟨⟨[_], rfl, List.forall_mem_singleton.2 holds⟩, fun all => ?_⟩, rfl, rfl⟩
  unfold Service.introduce
  dsimp only
  split
  · exact Store.All.insert (s := s.store.issue.2) all holds rfl
  · exact all

end Tells

/-! ### Workers -/

section

variable (sources : Sources P stored taken)

include sources

theorem Sources.beginWork (holds : P c) :
    Tells P s (s.beginWork k c).1 ∧ ∀ d ∈ (s.beginWork k c).2.held, P d := by
  unfold Service.beginWork
  split
  · exact ⟨.refl s, List.forall_mem_nil _⟩
  · rename_i d began
    have holds : P d := sources.attempt .beginCalculating holds began
    split <;> rename_i told
    · exact ⟨.of_tell holds told, List.forall_mem_singleton.2 holds⟩
    · split <;> exact ⟨.of_tell holds told, List.forall_mem_singleton.2 holds⟩

theorem Sources.conclude (holds : P c) (outcome : Except Error Float) :
    Tells P s (s.conclude k c outcome).1 ∧ ∀ d ∈ (s.conclude k c outcome).2.held, P d := by
  unfold Service.conclude
  dsimp only
  split
  · exact ⟨.now k s, List.forall_mem_nil _⟩
  · rename_i d finished
    have holds : P d := by
      cases outcome with
      | ok x => exact sources.attempt (.complete x _) holds finished
      | error e => exact sources.attempt (.fail e.message _) holds finished
    split <;> rename_i told
    · exact ⟨.of_now (.of_tell holds told), List.forall_mem_singleton.2 holds⟩
    · exact ⟨.of_now (.of_tell holds told), List.forall_mem_nil _⟩

theorem Sources.recover (holds : P c) :
    Tells P s (s.recover k c).1 ∧ ∀ d ∈ (s.recover k c).2.held, P d := by
  unfold Service.recover
  dsimp only
  split
  · split
    · exact ⟨.now k s, List.forall_mem_nil _⟩
    · rename_i d ended
      have holds : P d := sources.attempt (.fail panicMessage _) holds ended
      split <;> rename_i told
      · exact ⟨.of_now (.of_tell holds told), List.forall_mem_nil _⟩
      · exact ⟨.of_now (.of_tell holds told), List.forall_mem_nil _⟩
  · exact ⟨.refl s, List.forall_mem_nil _⟩

omit sources in
theorem evaluate_tells (holds : P c) (e : Evaluation) :
    Tells P s (s.evaluate k c e).1 ∧ ∀ d ∈ (s.evaluate k c e).2.held, P d := by
  unfold Service.evaluate
  split
  · exact ⟨.refl s, List.forall_mem_singleton.2 holds⟩
  · exact ⟨.refl s, List.forall_mem_singleton.2 holds⟩
  · split <;> rename_i began
    · exact ⟨.of_beginPause began, List.forall_mem_singleton.2 holds⟩
    · exact ⟨.of_beginPause began, List.forall_mem_singleton.2 holds⟩

theorem Sources.stepWorker {w : Worker} (holds : ∀ d ∈ w.stage.held, P d)
    {r : Service × Worker} (step : s.stepWorker k w = some r) :
    Tells P s r.1 ∧ ∀ d ∈ r.2.stage.held, P d := by
  obtain ⟨stage, view⟩ := w
  cases stage with
  | waiting =>
    simp only [Service.stepWorker] at step
    split at step <;> cases step
    exact ⟨.refl s, List.forall_mem_nil _⟩
  | received c | pausing c e =>
    cases step
    exact ⟨.refl s, holds⟩
  | begun c =>
    cases step
    exact sources.beginWork (holds c (.head _))
  | evaluating c e =>
    cases step
    exact evaluate_tells (holds c (.head _)) e
  | concluding c outcome =>
    cases step
    exact sources.conclude (holds c (.head _)) outcome
  | recovering c =>
    cases step
    exact sources.recover (holds c (.head _))
  | releasing =>
    cases step
    exact ⟨.refl s, List.forall_mem_nil _⟩
  | exited | lost => cases step

end

/-! ### Callers -/

/-- What a caller has in hand has the property. What it has still to resume is as it was stored, and
so is what it has just taken up of that. -/
def Caller.Carries (P stored taken : Calculation → Prop) : Caller → Prop
  | .parse c | .reserve c _ | .reject c | .request c => P c
  | .announce c _ next | .send c next | .offer c next => P c ∧ ∀ d ∈ next.held, stored d
  | .resume rest _ => ∀ d ∈ rest, stored d
  | .reopen c rest _ => taken c ∧ ∀ d ∈ rest, stored d
  | .submit _ | .acquire | .hold | .close | .join | .done _ => True

theorem carries_iff_held (c : Caller) : c.Carries P P P ↔ ∀ d ∈ c.held, P d := by
  cases c <;> simp [Caller.Carries, Caller.held]

theorem carries_handedOver {next : Then} (others : ∀ d ∈ next.held, stored d) :
    (handedOver c next).Carries P stored taken := by
  cases next with
  | submitted | accepted => trivial
  | resume rest count => exact others

/-- A calculation that fails before it is queued. -/
theorem failParse_tells (ends : ∀ d message time, c.fail message time = .ok d → P d) (e : Error)
    {next : Calculation → Caller} (after : ∀ d, P d → (next d).Carries P stored taken) :
    Tells P s (s.failParse k c e next).1 ∧ (s.failParse k c e next).2.Carries P stored taken := by
  unfold Service.failParse
  dsimp only
  split
  · exact ⟨.now k s, trivial⟩
  · rename_i d ended
    have holds := ends d _ _ ended
    split <;> rename_i told
    · exact ⟨.of_now (.of_tell holds told), trivial⟩
    · exact ⟨.of_now (.of_tell holds told), after d holds⟩

section

variable (sources : Sources P stored taken)

include sources

theorem Sources.resume {rest : List Calculation} (others : ∀ d ∈ rest, stored d) (count : Nat) :
    (s.resume rest count).Carries P stored taken := by
  cases rest with
  | nil => trivial
  | cons c rest =>
    obtain ⟨first, others⟩ := List.forall_mem_cons.1 others
    rw [Service.resume]
    split
    · exact others
    · rename_i resumable
      have resumable : isResumable c = true := by
        rw [← Bool.not_eq_false, isResumable_eq_false]
        exact resumable
      split
      · exact ⟨sources.resumed c first resumable, others⟩
      · trivial

theorem Sources.failParse (holds : P c) (e : Error) {next : Calculation → Caller}
    (after : ∀ d, P d → (next d).Carries P stored taken) :
    Tells P s (s.failParse k c e next).1 ∧ (s.failParse k c e next).2.Carries P stored taken :=
  failParse_tells (fun _ message time => sources.attempt (.fail message time) holds) e after

theorem Sources.submit (text : String) :
    Tells P s (s.submit k text).1 ∧ (s.submit k text).2.Carries P stored taken := by
  have holds := sources.new (some s.store.nextId) text (k.clock s.readings)
  have introduced : Tells P s ((s.now k).2.introduce k (.new text (s.now k).1)).2.1 ∧
      P ((s.now k).2.introduce k (.new text (s.now k).1)).1 := ⟨.of_now (.introduce holds), holds⟩
  unfold Service.submit
  dsimp only
  split <;> rename_i same <;> rw [same] at introduced
  · exact ⟨introduced.1, trivial⟩
  · exact introduced

theorem Sources.reopen (carried : taken c) {rest : List Calculation}
    (others : ∀ d ∈ rest, stored d) (count : Nat) :
    Tells P s (s.reopen k c rest count).1 ∧
      (s.reopen k c rest count).2.Carries P stored taken := by
  unfold Service.reopen
  split
  · exact ⟨.refl s, trivial⟩
  · rename_i d again
    unfold Calculation.reopen at again
    split at again <;> cases again
    rename_i pending
    split
    · rename_i f right
      exact ⟨.refl s, sources.reopened c carried pending ⟨f, right⟩, others⟩
    · refine failParse_tells (fun d message time ended => ?_) _ fun _ _ => others
      cases ended
      exact sources.unreadable c carried pending message time

theorem Sources.announce (holds : P c) (plan : Formula) {next : Then}
    (others : ∀ d ∈ next.held, stored d) :
    Tells P s (s.announce k c plan next).1 ∧
      (s.announce k c plan next).2.Carries P stored taken := by
  unfold Service.announce
  split
  · exact ⟨.refl s, trivial⟩
  · rename_i d queued
    have holds : P d := sources.attempt (.queue plan) holds queued
    split <;> rename_i told
    · exact ⟨.of_tell holds told, trivial⟩
    · exact ⟨.of_tell holds told, holds, others⟩

theorem Sources.stepCaller {c : Caller} (carries : c.Carries P stored taken)
    {r : Service × Caller} (step : s.stepCaller k c = some r) :
    Tells P s r.1 ∧ r.2.Carries P stored taken := by
  cases c with
  | submit text =>
    cases step
    exact sources.submit text
  | parse c =>
    cases step
    unfold Service.parse
    split
    · exact ⟨.refl s, carries⟩
    · exact sources.failParse carries _ fun _ _ => trivial
  | reserve c plan =>
    cases step
    refine ⟨.refl s, ?_⟩
    split
    · exact ⟨carries, List.forall_mem_nil _⟩
    · exact carries
  | reject c =>
    cases step
    exact sources.failParse carries _ fun _ _ => trivial
  | resume rest count =>
    cases step
    exact ⟨.refl s, sources.resume carries count⟩
  | reopen c rest count =>
    cases step
    exact sources.reopen carries.1 carries.2 count
  | announce c plan next =>
    cases step
    exact sources.announce carries.1 plan carries.2
  | send c next =>
    cases step
    refine ⟨.refl s, ?_⟩
    unfold Service.send
    split
    · exact carries
    · trivial
  | offer c next =>
    simp only [Service.stepCaller] at step
    split at step <;> cases step
    exact ⟨.refl s, trivial⟩
  | request c =>
    cases step
    refine ⟨.refl s, ?_⟩
    split
    · exact ⟨carries, List.forall_mem_nil _⟩
    · trivial
  | acquire =>
    cases step
    refine ⟨.refl s, ?_⟩
    split <;> trivial
  | close =>
    simp only [Service.stepCaller] at step
    split at step <;> cases step
    · exact ⟨⟨.of_quiet rfl rfl, rfl, rfl⟩, trivial⟩
    · exact ⟨.refl s, trivial⟩
  | join =>
    simp only [Service.stepCaller] at step
    split at step <;> cases step
    exact ⟨.refl s, trivial⟩
  | hold | done => cases step

end

/-! ### Actions -/

/-- What workers and callers have in hand has the property, or is still as it was stored. -/
structure Carries (P stored taken : Calculation → Prop) (s : Service) : Prop where
  workers : ∀ w ∈ s.workers, ∀ c ∈ w.stage.held, P c
  callers : ∀ c ∈ s.callers, c.Carries P stored taken

/-- What comes with a call is as it should be in the hands of a caller. -/
def Action.Brings (P stored taken : Calculation → Prop) : Action → Prop
  | .call c => c.Carries P stored taken
  | .use _ c => P c
  | .worker _ | .caller _ | .handOver .. | .drop _ | .setCosts _ => True

namespace Carries

theorem tells (h : Carries P stored taken s) (tells : Tells P s t) : Carries P stored taken t :=
  ⟨tells.workers ▸ h.workers, tells.callers ▸ h.callers⟩

theorem setWorker (h : Carries P stored taken s) {w : Worker} (holds : ∀ d ∈ w.stage.held, P d)
    (i : Nat) : Carries P stored taken { s with workers := s.workers.set i w } := by
  refine ⟨fun v member => ?_, h.callers⟩
  rcases List.mem_or_eq_of_mem_set member with old | rfl
  · exact h.workers v old
  · exact holds

theorem setCaller (h : Carries P stored taken s) {c : Caller} (carries : c.Carries P stored taken)
    (i : Nat) : Carries P stored taken { s with callers := s.callers.set i c } := by
  refine ⟨h.workers, fun v member => ?_⟩
  rcases List.mem_or_eq_of_mem_set member with old | rfl
  · exact h.callers v old
  · exact carries

variable (sources : Sources P stored taken)

include sources

theorem step (h : Carries P stored taken s) {a : Action} (brings : a.Brings P stored taken)
    (happened : s.step k a = some t) : Carries P stored taken t ∧ Told P s t := by
  cases happens_of_step happened with
  | @worker i w w' u here own =>
    obtain ⟨tells, holds⟩ := sources.stepWorker (h.workers w (List.mem_of_getElem? here)) own
    exact ⟨(h.tells tells).setWorker holds i, tells.notices, tells.store⟩
  | @caller i c c' u here own =>
    obtain ⟨tells, carries⟩ := sources.stepCaller (h.callers c (List.mem_of_getElem? here)) own
    exact ⟨(h.tells tells).setCaller carries i, tells.notices, tells.store⟩
  | @handedOver i j c next view offering =>
    obtain ⟨holds, others⟩ := h.callers _ (List.mem_of_getElem? offering)
    have given := h.setCaller (carries_handedOver (c := c) others) i
    exact ⟨given.setWorker (w := ⟨.received c, view⟩) (List.forall_mem_singleton.2 holds) j,
      .of_quiet rfl rfl⟩
  | @used i c =>
    exact ⟨h.setCaller (c := .send c .accepted) ⟨brings, List.forall_mem_nil _⟩ i, .of_quiet rfl rfl⟩
  | @dropped i => exact ⟨h.setCaller (c := .done .dropped) trivial i, .of_quiet rfl rfl⟩
  | @called c =>
    exact ⟨⟨h.workers, List.forall_mem_append.2 ⟨h.callers, List.forall_mem_singleton.2 brings⟩⟩,
      .of_quiet rfl rfl⟩
  | repriced => exact ⟨⟨h.workers, h.callers⟩, .of_quiet rfl rfl⟩

/-- What a service starts with and what is brought to it is as it should be, so all that the
listener is told and all that it records has the property. -/
theorem run (h : Carries P stored taken s) {actions : List Action}
    (brings : ∀ a ∈ actions, a.Brings P stored taken) (ran : s.run k actions = some t) :
    Carries P stored taken t ∧ Told P s t := by
  induction actions generalizing s with
  | nil =>
    cases ran
    exact ⟨h, .refl _⟩
  | cons a actions ih =>
    rw [run_cons, Option.bind_eq_some_iff] at ran
    obtain ⟨u, happened, rest⟩ := ran
    obtain ⟨carries, first⟩ := h.step sources (brings a (.head _)) happened
    obtain ⟨carries, later⟩ := ih carries (fun b member => brings b (.tail _ member)) rest
    exact ⟨carries, first.trans later⟩

end Carries

theorem brings_of_held {a : Action} (holds : ∀ d ∈ a.held, P d) : a.Brings P P P := by
  cases a with
  | call c => exact (carries_iff_held c).2 holds
  | use i c => exact holds c (.head _)
  | worker | caller | handOver | drop | setCosts => trivial

/-- What a service starts with and what is brought to it has the property, so all that it ever holds
has it. -/
theorem All.run (lasting : Calculation.Lasting P) (h : s.All P) {actions : List Action}
    (brought : ∀ a ∈ actions, ∀ d ∈ a.held, P d) (happened : s.run k actions = some t) :
    t.All P := by
  have start : Carries P P P s :=
    ⟨h.workers, fun c member => (carries_iff_held c).2 (h.callers c member)⟩
  obtain ⟨carries, told⟩ := start.run (sources_of_lasting lasting)
    (fun a member => brings_of_held (brought a member)) happened
  exact ⟨told.store h.store, carries.workers,
    fun c member => (carries_iff_held c).1 (carries.callers c member)⟩

end Service

end Reckoner
