import Reckoner.Proofs.Service.Moves
import Reckoner.Proofs.Service.Turns

/-!
# Shifts

A shift is a run of a service in which everything that can be called from outside is called at any
moment, whatever the listener and the pacer do. `step_turn` says what a single action can be,
`Orderly` is the invariant that it needs, and `Shift.keeps` takes what all actions preserve to a
shift, together with the calculations that were handed over and the notices that the workers told.
-/

namespace Reckoner

namespace Service

variable {k : Collaborators} {s t : Service} {n : Nat} {table : CostTable} {store : Store}

/-! ### Actions -/

def Caller.isCall : Caller → Bool
  | .submit _ | .resume _ 0 | .request _ | .acquire | .close => true
  | _ => false

def Action.Permitted : Action → Prop
  | .call c => c.isCall = true
  | _ => True

instance : DecidablePred Action.Permitted
  | .call c => inferInstanceAs (Decidable (c.isCall = true))
  | .worker _ | .caller _ | .handOver .. | .use .. | .drop _ | .setCosts _ => isTrue trivial

/-- All that an action of a whole service can be. -/
inductive ActionTurn (k : Collaborators) (s : Service) : Action → Service → Prop where
  | worker {i : Nat} {w w' : Worker} {t : Service} (here : s.workers[i]? = some w)
      (turn : WorkerTurn k s t w.view w.stage.standing w'.stage.standing w'.view) :
      ActionTurn k s (.worker i) { t with workers := s.workers.set i w' }
  | caller {i : Nat} {c c' : Caller} {t : Service} (here : s.callers[i]? = some c)
      (turn : CallerTurn k s t c c') :
      ActionTurn k s (.caller i) { t with callers := s.callers.set i c' }
  | handedOver {i j : Nat} {c : Calculation} {next : Then} {view : WorkerView}
      (offering : s.callers[i]? = some (.offer c next))
      (waiting : s.workers[j]? = some ⟨.waiting, view⟩) :
      ActionTurn k s (.handOver i j)
        { s with
          workers := s.workers.set j ⟨.received c, view⟩
          callers := s.callers.set i (handedOver c next) }
  | used {i : Nat} {c : Calculation} (holding : s.callers[i]? = some .hold) :
      ActionTurn k s (.use i c) { s with callers := s.callers.set i (.send c .accepted) }
  | dropped {i : Nat} (holding : s.callers[i]? = some .hold) :
      ActionTurn k s (.drop i) { s with callers := s.callers.set i (.done .dropped) }
  | called {c : Caller} (call : c.isCall = true) :
      ActionTurn k s (.call c) { s with callers := s.callers ++ [c] }
  | repriced {table : CostTable} : ActionTurn k s (.setCosts table) { s with table }

/-- Every calculation is in the status that its place asks for; nobody joins or is rejected before
the intake is closed; and workers only leave when it is closed and no handoff is outstanding. -/
structure Orderly (s : Service) : Prop where
  callers : ∀ c ∈ s.callers, c.Apt
  workers : ∀ w ∈ s.workers, w.stage.standing.Apt
  joining : Caller.join ∈ s.callers → s.isOpen = false
  rejecting : ∀ c, Caller.reject c ∈ s.callers → s.isOpen = false
  loyal : ∀ w ∈ s.workers, w.stage.standing = .left → s.isOpen = false ∧ s.hasHandoff = false

theorem step_turn (orderly : s.Orderly) {a : Action} (permitted : a.Permitted)
    (h : s.step k a = some t) : ActionTurn k s a t := by
  cases happens_of_step h with
  | worker here own =>
    have turn := stepWorker_turn (orderly.workers _ (List.mem_of_getElem? here)) own
    obtain ⟨_, follows⟩ := turn.follows
    rw [follows.workers]
    exact .worker here turn
  | caller here own =>
    have turn := stepCaller_turn (orderly.callers _ (List.mem_of_getElem? here)) own
    rw [turn.frame.2.1]
    exact .caller here turn
  | handedOver offering waiting => exact .handedOver offering waiting
  | used holding => exact .used holding
  | dropped holding => exact .dropped holding
  | called => exact .called permitted
  | repriced => exact .repriced

/-! ### Order -/

/-- As long as a caller holds a handoff, no worker leaves. -/
theorem Orderly.stays (orderly : s.Orderly) {c : Caller} (member : c ∈ s.callers)
    (holds : c.holdsHandoff = true) {w : Worker} (worker : w ∈ s.workers) :
    w.stage.standing ≠ .left := by
  intro left
  have unheld := (orderly.loyal w worker left).2
  rw [hasHandoff_eq_false.1 unheld c member] at holds
  cases holds

theorem orderly_opened (n : Nat) (table : CostTable) (store : Store) :
    (opened n table store).Orderly where
  callers := by simp [opened]
  workers := by
    intro w member
    obtain ⟨i, _, rfl⟩ := List.mem_map.1 member
    trivial
  joining := by simp [opened]
  rejecting := by simp [opened]
  loyal := by
    intro w member left
    obtain ⟨i, _, rfl⟩ := List.mem_map.1 member
    cases left

theorem Caller.apt_of_isCall {c : Caller} (call : c.isCall = true) : c.Apt := by
  cases c <;> trivial

theorem Caller.holdsHandoff_of_isCall {c : Caller} (call : c.isCall = true) :
    c.holdsHandoff = false := by
  cases c <;> first | rfl | cases call

theorem handedOver_apt (c : Calculation) (next : Then) : (handedOver c next).Apt := by
  cases next <;> trivial

theorem holdsHandoff_handedOver (c : Calculation) (next : Then) :
    (handedOver c next).holdsHandoff = false := by
  cases next <;> rfl

theorem getElem?_set_of_getElem? {α : Type} {l : List α} {i : Nat} {a b : α}
    (here : l[i]? = some a) : (l.set i b)[i]? = some b :=
  List.getElem?_set_self (List.getElem?_eq_some_iff.1 here).1

namespace ActionTurn

variable {a : Action}

theorem caller_cases (turn : ActionTurn k s a t) {c' : Caller} (member : c' ∈ t.callers) :
    c' ∈ s.callers ∨ (∃ c ∈ s.callers, ∃ u, u.isOpen = t.isOpen ∧ CallerTurn k s u c c') ∨
      (∃ c next, Caller.offer c next ∈ s.callers ∧ c' = Service.handedOver c next) ∨
      (Caller.hold ∈ s.callers ∧ ∃ c, c' = .send c .accepted) ∨ c' = .done .dropped ∨
      c'.isCall = true := by
  cases turn with
  | worker here turn =>
    obtain ⟨_, follows⟩ := turn.follows
    exact .inl (follows.callers ▸ member)
  | @caller _ c c' t here turn =>
    rcases List.mem_or_eq_of_mem_set member with old | rfl
    · exact .inl old
    · exact .inr (.inl ⟨c, List.mem_of_getElem? here, t, rfl, turn⟩)
  | handedOver offering =>
    rcases List.mem_or_eq_of_mem_set member with old | rfl
    · exact .inl old
    · exact .inr (.inr (.inl ⟨_, _, List.mem_of_getElem? offering, rfl⟩))
  | used holding =>
    rcases List.mem_or_eq_of_mem_set member with old | rfl
    · exact .inl old
    · exact .inr (.inr (.inr (.inl ⟨List.mem_of_getElem? holding, _, rfl⟩)))
  | dropped =>
    rcases List.mem_or_eq_of_mem_set member with old | rfl
    · exact .inl old
    · exact .inr (.inr (.inr (.inr (.inl rfl))))
  | called call =>
    rcases List.mem_append.1 member with old | new
    · exact .inl old
    · exact .inr (.inr (.inr (.inr (.inr (List.mem_singleton.1 new ▸ call)))))
  | repriced => exact .inl member

theorem worker_cases (turn : ActionTurn k s a t) {w' : Worker} (member : w' ∈ t.workers) :
    w' ∈ s.workers ∨
      (∃ w ∈ s.workers, ∃ u, WorkerTurn k s u w.view w.stage.standing w'.stage.standing w'.view) ∨
      ∃ c next view, Caller.offer c next ∈ s.callers ∧ w' = ⟨.received c, view⟩ := by
  cases turn with
  | worker here turn =>
    rcases List.mem_or_eq_of_mem_set member with old | rfl
    · exact .inl old
    · exact .inr (.inl ⟨_, List.mem_of_getElem? here, _, turn⟩)
  | caller _ turn => exact .inl (turn.frame.1 ▸ member)
  | handedOver offering =>
    rcases List.mem_or_eq_of_mem_set member with old | rfl
    · exact .inl old
    · exact .inr (.inr ⟨_, _, _, List.mem_of_getElem? offering, rfl⟩)
  | used | dropped | called | repriced => exact .inl member

theorem caller_at (turn : ActionTurn k s a t) {i : Nat} {c : Caller}
    (here : s.callers[i]? = some c) :
    t.callers[i]? = some c ∨
      (∃ u c', u.isOpen = t.isOpen ∧ CallerTurn k s u c c' ∧ t.callers[i]? = some c') ∨
      (∃ j d next, a = .handOver i j ∧ c = .offer d next ∧
        t.callers[i]? = some (Service.handedOver d next)) ∨
      c = .hold := by
  cases turn with
  | worker _ turn =>
    obtain ⟨_, follows⟩ := turn.follows
    exact .inl (follows.callers ▸ here)
  | @caller j d d' u there turn =>
    by_cases same : j = i
    · subst same
      cases here.symm.trans there
      exact .inr (.inl ⟨u, d', rfl, turn, getElem?_set_of_getElem? here⟩)
    · exact .inl ((List.getElem?_set_ne same).trans here)
  | @handedOver j l d next _ offering =>
    by_cases same : j = i
    · subst same
      cases here.symm.trans offering
      exact .inr (.inr (.inl ⟨l, d, next, rfl, rfl, getElem?_set_of_getElem? here⟩))
    · exact .inl ((List.getElem?_set_ne same).trans here)
  | @used j _ holding | @dropped j holding =>
    by_cases same : j = i
    · subst same
      cases here.symm.trans holding
      exact .inr (.inr (.inr rfl))
    · exact .inl ((List.getElem?_set_ne same).trans here)
  | called => exact .inl ((List.getElem?_append_left (List.getElem?_eq_some_iff.1 here).1).trans here)
  | repriced => exact .inl here

theorem worker_at (turn : ActionTurn k s a t) {j : Nat} {w : Worker}
    (here : s.workers[j]? = some w) :
    t.workers[j]? = some w ∨
      (a = .worker j ∧ ∃ u w', u.notices = t.notices ∧ t.workers[j]? = some w' ∧
        WorkerTurn k s u w.view w.stage.standing w'.stage.standing w'.view) ∨
      ∃ i c next, a = .handOver i j ∧ s.callers[i]? = some (.offer c next) ∧ w.stage = .waiting ∧
        t.workers[j]? = some ⟨.received c, w.view⟩ := by
  cases turn with
  | @worker i v v' u there turn =>
    by_cases same : i = j
    · subst same
      cases here.symm.trans there
      exact .inr (.inl ⟨rfl, u, v', rfl, getElem?_set_of_getElem? here, turn⟩)
    · exact .inl ((List.getElem?_set_ne same).trans here)
  | caller _ turn => exact .inl ((congrArg (·[j]?) turn.frame.1).trans here)
  | @handedOver i l c next view offering waiting =>
    by_cases same : l = j
    · subst same
      cases here.symm.trans waiting
      exact .inr (.inr ⟨i, c, next, rfl, offering, rfl, getElem?_set_of_getElem? here⟩)
    · exact .inl ((List.getElem?_set_ne same).trans here)
  | used | dropped | called | repriced => exact .inl here

theorem notices (turn : ActionTurn k s a t) : ∃ told, t.notices = told ++ s.notices := by
  cases turn with
  | worker _ turn =>
    obtain ⟨told, follows⟩ := turn.follows
    exact ⟨told, follows.notices⟩
  | caller _ turn =>
    obtain ⟨_, _, told, same, _⟩ := turn.frame
    exact ⟨told, same⟩
  | handedOver | used | dropped | called | repriced => exact ⟨[], rfl⟩

theorem intake (turn : ActionTurn k s a t) (closed : s.isOpen = false) : t.isOpen = false := by
  cases turn with
  | worker _ turn =>
    obtain ⟨_, follows⟩ := turn.follows
    exact follows.isOpen.trans closed
  | caller _ turn =>
    rw [Bool.eq_false_iff]
    intro isOpen
    rw [turn.intake isOpen] at closed
    cases closed
  | handedOver | used | dropped | called | repriced => exact closed

/-- At a closed intake nobody gets a handoff. -/
theorem held_at (turn : ActionTurn k s a t) (closed : s.isOpen = false) {i : Nat} {c' : Caller}
    (there : t.callers[i]? = some c') (holds : c'.holdsHandoff = true) :
    ∃ c, s.callers[i]? = some c ∧ c.holdsHandoff = true := by
  have changed : ∀ {j : Nat} {c : Caller} {new : Caller}, s.callers[j]? = some c →
      (s.callers.set j new)[i]? = some c' →
      (j = i ∧ new = c' ∧ s.callers[i]? = some c) ∨ s.callers[i]? = some c' := by
    intro j c new here there
    by_cases same : j = i
    · subst same
      rw [getElem?_set_of_getElem? here] at there
      exact .inl ⟨rfl, Option.some.inj there, here⟩
    · exact .inr ((List.getElem?_set_ne same).symm.trans there)
  cases turn with
  | worker _ turn =>
    obtain ⟨_, follows⟩ := turn.follows
    exact ⟨c', follows.callers ▸ there, holds⟩
  | caller here turn =>
    rcases changed here there with ⟨_, rfl, here⟩ | same
    · rcases turn.handoff holds with held | isOpen
      · exact ⟨_, here, held⟩
      · rw [closed] at isOpen
        cases isOpen
    · exact ⟨c', same, holds⟩
  | @handedOver _ _ c next _ offering =>
    rcases changed offering there with ⟨_, rfl, _⟩ | same
    · rw [holdsHandoff_handedOver] at holds
      cases holds
    · exact ⟨c', same, holds⟩
  | used holding =>
    rcases changed holding there with ⟨_, rfl, here⟩ | same
    · exact ⟨_, here, rfl⟩
    · exact ⟨c', same, holds⟩
  | dropped holding =>
    rcases changed holding there with ⟨_, rfl, _⟩ | same
    · cases holds
    · exact ⟨c', same, holds⟩
  | called call =>
    rw [List.getElem?_append] at there
    split at there
    · exact ⟨c', there, holds⟩
    · rw [List.mem_singleton.1 (List.mem_of_getElem? there),
        Caller.holdsHandoff_of_isCall call] at holds
      cases holds
  | repriced => exact ⟨c', there, holds⟩

theorem unheld (turn : ActionTurn k s a t) (closed : s.isOpen = false)
    (unheld : s.hasHandoff = false) : t.hasHandoff = false := by
  rw [hasHandoff_eq_false] at unheld ⊢
  intro c' member
  obtain ⟨i, there⟩ := List.mem_iff_getElem?.1 member
  rw [Bool.eq_false_iff]
  intro holds
  obtain ⟨c, here, held⟩ := turn.held_at closed there holds
  rw [unheld c (List.mem_of_getElem? here)] at held
  cases held

theorem orderly (turn : ActionTurn k s a t) (h : s.Orderly) : t.Orderly where
  callers := by
    intro c' member
    rcases turn.caller_cases member with old | ⟨c, own, _, _, turn⟩ | ⟨c, next, _, rfl⟩ |
      ⟨_, _, rfl⟩ | rfl | call
    · exact h.callers c' old
    · exact turn.apt (h.callers c own)
    · exact handedOver_apt c next
    · trivial
    · trivial
    · exact Caller.apt_of_isCall call
  workers := by
    intro w' member
    rcases turn.worker_cases member with old | ⟨w, own, _, turn⟩ | ⟨c, next, view, offer, rfl⟩
    · exact h.workers w' old
    · exact turn.apt (h.workers w own)
    · exact h.callers _ offer
  joining := by
    intro member
    rcases turn.caller_cases member with old | ⟨c, own, u, same, step⟩ | ⟨c, next, _, same⟩ |
      ⟨_, _, same⟩ | same | call
    · exact turn.intake (h.joining old)
    · cases step with
      | closed closed =>
        rw [← same, closed]
    · cases next <;> cases same
    · cases same
    · cases same
    · cases call
  rejecting := by
    intro d member
    rcases turn.caller_cases member with old | ⟨c, own, u, same, step⟩ | ⟨c, next, _, same⟩ |
      ⟨_, _, same⟩ | same | call
    · exact turn.intake (h.rejecting d old)
    · cases step with
      | late _ closed => exact turn.intake closed
    · cases next <;> cases same
    · cases same
    · cases same
    · cases call
  loyal := by
    intro w' member left
    have shut : s.isOpen = false ∧ s.hasHandoff = false := by
      rcases turn.worker_cases member with old | ⟨w, own, _, step⟩ | ⟨c, next, view, offer, rfl⟩
      · exact h.loyal w' old left
      · rw [left] at step
        exact step.leaving.2
      · cases left
    exact ⟨turn.intake shut.1, turn.unheld shut.1 shut.2⟩

theorem length_workers (turn : ActionTurn k s a t) : t.workers.length = s.workers.length := by
  cases turn with
  | worker | handedOver => exact List.length_set
  | caller _ turn => exact congrArg List.length turn.frame.1
  | used | dropped | called | repriced => rfl

end ActionTurn

/-! ### Reports -/

/-- What the listener was told between two states, earliest first. -/
def toldSince (s t : Service) : List Notice :=
  (t.notices.take (t.notices.length - s.notices.length)).reverse

theorem toldSince_eq {told : List Notice} (h : t.notices = told ++ s.notices) :
    toldSince s t = told.reverse := by
  rw [toldSince, h, List.length_append, Nat.add_sub_cancel, List.take_left]

/-- What a worker told by its own step, with the number of the worker. -/
def report (s t : Service) : Action → List (Notice × Nat)
  | .worker j => (toldSince s t).map (·, j)
  | _ => []

/-- What the workers told in a run, earliest first. -/
def reports (k : Collaborators) : Service → List Action → List (Notice × Nat)
  | _, [] => []
  | s, a :: rest => match s.step k a with
    | some t => s.report t a ++ reports k t rest
    | none => []

/-- What every action preserves in view of what was received and reported, a run preserves. -/
theorem run_keeps {P : Service → List (Calculation × Nat) → List (Notice × Nat) → Prop}
    (kept : ∀ {s t : Service} {a : Action} {received reported}, s.Orderly → P s received reported →
      ActionTurn k s a t → P t (received ++ s.receipt a) (reported ++ s.report t a))
    {actions : List Action} {received : List (Calculation × Nat)} {reported : List (Notice × Nat)}
    (permitted : ∀ a ∈ actions, a.Permitted) (orderly : s.Orderly) (start : P s received reported)
    (h : s.run k actions = some t) :
    P t (received ++ receipts k s actions) (reported ++ reports k s actions) := by
  induction actions generalizing s received reported with
  | nil =>
    cases h
    simpa only [receipts, reports, List.append_nil] using start
  | cons a rest ih =>
    rw [run_cons, Option.bind_eq_some_iff] at h
    obtain ⟨u, happened, h⟩ := h
    have turn := step_turn orderly (permitted a (.head _)) happened
    have next := ih (fun b member => permitted b (.tail _ member)) (turn.orderly orderly)
      (kept orderly start turn) h
    simpa only [receipts, reports, happened, List.append_assoc] using next

/-- A run of a service with so many workers over any store. -/
structure Shift (k : Collaborators) (n : Nat) (table : CostTable) (store : Store)
    (actions : List Action) (s : Service) : Prop where
  manned : 0 < n
  permitted : ∀ a ∈ actions, a.Permitted
  run : (opened n table store).run k actions = some s

namespace Shift

variable {actions more : List Action}

theorem keeps (h : Shift k n table store actions s)
    {P : Service → List (Calculation × Nat) → List (Notice × Nat) → Prop}
    (start : P (opened n table store) [] [])
    (kept : ∀ {s t : Service} {a : Action} {received reported}, s.Orderly → P s received reported →
      ActionTurn k s a t → P t (received ++ s.receipt a) (reported ++ s.report t a)) :
    P s (receipts k (opened n table store) actions) (reports k (opened n table store) actions) :=
  run_keeps kept h.permitted (orderly_opened n table store) start h.run

theorem orderly (h : Shift k n table store actions s) : s.Orderly :=
  h.keeps (P := fun s _ _ => s.Orderly) (orderly_opened n table store)
    fun before _ turn => turn.orderly before

theorem length_workers (h : Shift k n table store actions s) : s.workers.length = n :=
  h.keeps (P := fun s _ _ => s.workers.length = n) (by simp [opened])
    fun _ same turn => turn.length_workers.trans same

theorem extend (h : Shift k n table store actions s) (permitted : ∀ a ∈ more, a.Permitted)
    (run : s.run k more = some t) : Shift k n table store (actions ++ more) t where
  manned := h.manned
  permitted := List.forall_mem_append.2 ⟨h.permitted, permitted⟩
  run := by rw [run_append, h.run, Option.bind_some, run]

theorem step (h : Shift k n table store actions s) {a : Action} (permitted : a.Permitted)
    (happened : s.step k a = some t) : Shift k n table store (actions ++ [a]) t :=
  h.extend (List.forall_mem_singleton.2 permitted) (by rw [run_cons, happened]; rfl)

/-- What every action preserves, whatever comes later in a shift preserves. -/
theorem follow (h : Shift k n table store actions s) {P : Service → Prop} (start : P s)
    (kept : ∀ {s t : Service} {a : Action} {actions}, Shift k n table store actions s → P s →
      ActionTurn k s a t → P t) (permitted : ∀ a ∈ more, a.Permitted) (run : s.run k more = some t) :
    P t := by
  induction more generalizing s actions with
  | nil =>
    cases run
    exact start
  | cons a rest ih =>
    rw [run_cons, Option.bind_eq_some_iff] at run
    obtain ⟨u, happened, run⟩ := run
    have possible := permitted a (.head _)
    have next := kept h start (step_turn h.orderly possible happened)
    exact ih (h.step possible happened) next (fun b member => permitted b (.tail _ member)) run

theorem induct (h : Shift k n table store actions s) {P : Service → Prop}
    (start : P (opened n table store))
    (kept : ∀ {s t : Service} {a : Action} {actions}, Shift k n table store actions s → P s →
      ActionTurn k s a t → P t) : P s := by
  have opening : Shift k n table store [] (opened n table store) :=
    ⟨h.manned, List.forall_mem_nil _, rfl⟩
  exact opening.follow start kept h.permitted h.run

end Shift

end Service

end Reckoner
