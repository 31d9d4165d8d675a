import Reckoner.Proofs.Service.Flight
import Reckoner.Proofs.Service.Soundness

/-!
# What actions do to the account of a service

The own step of a worker or a caller moves one flight, or none. `ActionStep.move` says so of every
action of a whole service, and `run_preserves` takes what all actions preserve to a run.
-/

namespace Reckoner.Service

variable {k : Collaborators} {s t : Service} {panics rejects : Prop}

/-- The first flight of a place goes on. -/
theorem Move.of_advance {id : Calculation.Id} {text : String} {p : Phase} {e : Effect}
    {next : Option Phase} (advance : Advance panics rejects id text p e next)
    (l : Ledger) (more : List Flight) (others : Multiset Flight) :
    Move panics rejects { l with flights := ↑(⟨id, text, p⟩ :: more) + others }
      (e.apply { l with flights := ↑(onward id text next ++ more) + others }) := by
  have split : (↑(⟨id, text, p⟩ :: more) : Multiset Flight) + others =
      {⟨id, text, p⟩} + (↑more + others) := by
    rw [← Multiset.cons_coe, Multiset.cons_add, Multiset.singleton_add]
  rw [← Multiset.coe_add, Multiset.add_assoc]
  exact .advanced { l with flights := ↑(⟨id, text, p⟩ :: more) + others } split advance

theorem shows_failed {c : Calculation} (numbered : Numbered c) (message : String) (time : Instant) :
    Shows (failed c message time) (c.id.getD 0) c.text (.failed message, none) :=
  ⟨numbered.some_eq, rfl, rfl, rfl⟩

theorem shows_ended {c : Calculation} (numbered : Numbered c) (time : Instant)
    (outcome : Except Error Float) :
    Shows (ended c time outcome) (c.id.getD 0) c.text (verdict outcome) := by
  cases outcome with
  | ok x => exact ⟨numbered.some_eq, rfl, rfl, rfl⟩
  | error e => exact shows_failed numbered e.message time

/-! ### Workers -/

namespace WorkerStep

variable {stage : Stage} {view : WorkerView} {w : Worker}

theorem move (step : WorkerStep k s view stage t w) (sound : stage.Sound)
    (panicking : ∀ n, (k.pacer n).panics = true → panics) (entering : Multiset String)
    (others : Multiset Flight) (received : List (Calculation × Nat)) :
    Move panics rejects (s.account entering (stage.flights + others) received)
      (t.account entering (w.stage.flights + others) received) := by
  cases step with
  | left | shown | resumed | released => exact .rest _
  | @began c f right =>
    have advance : Advance panics rejects _ _ _ _ _ :=
      .begun (c := { c with status := .calculating }) sound.numbered.some_eq rfl rfl right
    rw [← Evaluation.outlook_start] at advance
    exact .of_advance advance (s.account entering 0 received) [] others
  | moved step =>
    simp only [Stage.flights, Evaluation.outlook_running step]
    exact .rest _
  | finished step =>
    simp only [Stage.flights, Evaluation.outlook_finished step]
    exact .rest _
  | paused step =>
    simp only [Stage.flights, Evaluation.outlook_pausing step]
    exact .of_advance .charged (s.account entering 0 received) [] others
  | panicked step panic =>
    simp only [Stage.flights, Evaluation.outlook_pausing step]
    exact .of_advance (.aborted (panicking _ panic)) (s.account entering 0 received) [] others
  | concluded =>
    exact .of_advance (.concluded (shows_ended sound.1 _ _)) (s.account entering 0 received) []
      others
  | recovered =>
    exact .of_advance (.recovered (shows_failed sound.1 _ _)) (s.account entering 0 received) []
      others

end WorkerStep

/-! ### Callers -/

theorem pendingFlights_cons {c : Calculation} {rest : List Calculation}
    (resumable : isResumable c = true) :
    pendingFlights (c :: rest) = .of c .pending :: pendingFlights rest := by
  simp [pendingFlights, resumable]

theorem pendingFlights_cons_of_idle {c : Calculation} {rest : List Calculation}
    (idle : isResumable c = false) : pendingFlights (c :: rest) = pendingFlights rest := by
  simp [pendingFlights, idle]

theorem pendingFlights_append (rest waiting : List Calculation) :
    pendingFlights (rest ++ waiting) = pendingFlights rest ++ pendingFlights waiting := by
  rw [pendingFlights, List.filter_append, List.map_append, pendingFlights, pendingFlights]

theorem phase_of_mem_pendingFlights {rest : List Calculation} {f : Flight}
    (member : f ∈ pendingFlights rest) : f.phase = .pending := by
  obtain ⟨c, _, rfl⟩ := List.mem_map.1 member
  rfl

namespace CallerStep

variable {c c' : Caller}

theorem move (step : CallerStep k s c t c') (sound : c.Sound)
    (late : ∀ c', c = .reject c' → rejects)
    (staffed : c.holdsHandoff = true → s.workers.all Worker.isGone = false)
    (entering : Multiset String) (others : Multiset Flight)
    (received : List (Calculation × Nat)) :
    Move panics rejects
      (s.account (c.entering + entering) (c.flights + others) received)
      (t.account (c'.entering + entering) (c'.flights + others) received) := by
  cases step with
  | @submitted text =>
    simp only [Caller.entering, Caller.flights, Multiset.coe_nil, Multiset.zero_add]
    exact .created (s.account ({text} + entering) others received)
      (c := s.numbered (.new text (k.clock s.readings))) rfl ⟨rfl, rfl, rfl, rfl⟩
  | parsed => exact .of_advance .parsed (s.account (0 + entering) 0 received) [] others
  | unparsed wrong =>
    exact .of_advance (.unparsed (.inr rfl) wrong (shows_failed sound.numbered _ _))
      (s.account (0 + entering) 0 received) [] others
  | rejected =>
    exact .of_advance (.rejected (late _ rfl) (shows_failed sound.numbered _ _))
      (s.account (0 + entering) 0 received) [] others
  | reserved | late | exhausted | sent | acquired | barred | closed | repeated | joined =>
    exact .rest _
  | skipped idle =>
    simp only [Caller.flights, pendingFlights_cons_of_idle idle]
    exact .rest _
  | reopening resumable =>
    simp only [Caller.flights, pendingFlights_cons resumable]
    exact .rest _
  | @stopped c rest count =>
    have forsaken : Move panics rejects _ _ := .forsaken
      (s.account (0 + entering) (↑(pendingFlights (c :: rest)) + others) received) rfl
      fun f member => phase_of_mem_pendingFlights (Multiset.mem_coe.1 member)
    simpa [Caller.entering, Caller.flights, account] using forsaken
  | reopened =>
    exact .of_advance .reopened (s.account (0 + entering) 0 received) (pendingFlights _) others
  | @unreadable c _ _ _ wrong =>
    have numbered := numbered_of_resumable (c := c) sound
    exact .of_advance (.unparsed (.inl rfl) wrong
        (shows_failed (c := Service.reopened c) numbered _ _))
      (s.account (0 + entering) 0 received) (pendingFlights _) others
  | @announced c f next =>
    exact .of_advance (.queued (c := { c with plan := some f, status := .queued })
        sound.1.numbered.some_eq rfl rfl)
      (s.account (0 + entering) 0 received) next.flights others
  | stranded gone =>
    rw [staffed rfl] at gone
    cases gone

end CallerStep

/-! ### Moves -/

/-- The flights of a list, and of the list with another member at one place. -/
theorem exists_others {α β : Type} {l : List α} {i : Nat} {a : α} (here : l[i]? = some a)
    (f : α → List β) : ∃ others : Multiset β, (↑(l.flatMap f) : Multiset β) = f a + others ∧
      ∀ b, (↑((l.set i b).flatMap f) : Multiset β) = f b + others := by
  induction l generalizing i with
  | nil => cases here
  | cons head rest ih =>
    cases i with
    | zero =>
      cases here
      exact ⟨rest.flatMap f, by simp, fun b => by simp⟩
    | succ i =>
      obtain ⟨others, before, after⟩ := ih (by simpa using here)
      refine ⟨f head + others, ?_, fun b => ?_⟩
      · rw [List.flatMap_cons, ← Multiset.coe_add, before, add_left_comm]
      · rw [List.set_cons_succ, List.flatMap_cons, ← Multiset.coe_add, after,
          add_left_comm]

/-- What a handover passes on: the calculation, and the number of the worker. -/
def receipt (s : Service) : Action → List (Calculation × Nat)
  | .handOver i j => match s.callers[i]? with
    | some (.offer c _) => [(c, j)]
    | _ => []
  | _ => []

def Action.brought : Action → List String
  | .call (.submit text) => [text]
  | _ => []

def Action.asked : Action → List Calculation
  | .call (.resume rest _) => rest
  | _ => []

theorem handedOver_flights (c : Calculation) (next : Then) :
    (handedOver c next).flights = next.flights := by
  cases next <;> rfl

theorem handedOver_entering (c : Calculation) (next : Then) :
    (handedOver c next).entering = [] := by
  cases next <;> rfl

theorem ActionStep.move {a : Action} (step : ActionStep k s a t) (sound : s.Sound)
    (panicking : ∀ n, (k.pacer n).panics = true → panics)
    (late : ∀ c, Caller.reject c ∈ s.callers → rejects) (upcoming : List String)
    (waiting : List Calculation) (received : List (Calculation × Nat)) :
    Move panics rejects (s.ledger (a.brought ++ upcoming) (a.asked ++ waiting) received)
      (t.ledger upcoming waiting (received ++ s.receipt a)) := by
  cases step with
  | @worker i w w' t here step =>
    obtain ⟨others, before, after⟩ := exists_others here fun w => w.stage.flights
    have move : Move panics rejects _ _ := step.move (sound.workers w (List.mem_of_getElem? here))
      panicking (s.callers.flatMap Caller.entering + upcoming)
      (others + (s.callers.flatMap Caller.flights + pendingFlights waiting)) received
    simpa only [ledger, account, receipt, Action.brought, Action.asked, List.append_nil,
      List.nil_append, before, after, add_assoc] using move
  | @caller i c c' t here step =>
    have member := List.mem_of_getElem? here
    obtain ⟨entering, enteringBefore, enteringAfter⟩ := exists_others here Caller.entering
    obtain ⟨others, before, after⟩ := exists_others here Caller.flights
    have move : Move panics rejects _ _ := step.move (sound.callers c member)
      (fun d same => late d (same ▸ member)) (sound.not_all_gone member) (entering + upcoming)
      (s.workers.flatMap (fun w => w.stage.flights) + (others + pendingFlights waiting)) received
    simpa only [ledger, account, receipt, Action.brought, Action.asked, List.append_nil,
      List.nil_append, enteringBefore, enteringAfter, before, after, add_assoc, add_left_comm]
      using move
  | @handedOver i j c next view offering resting =>
    have queued := sound.callers _ (List.mem_of_getElem? offering)
    obtain ⟨f, _, right⟩ := queued.planned
    obtain ⟨entering, enteringBefore, enteringAfter⟩ := exists_others offering Caller.entering
    obtain ⟨outside, before, after⟩ := exists_others offering Caller.flights
    obtain ⟨inside, before', after'⟩ := exists_others resting fun w => w.stage.flights
    have advance : Advance panics rejects _ _ .queued (.received c j) _ :=
      .taken queued.numbered.some_eq rfl right
    have move := Move.of_advance advance
      (s.account (0 + entering + upcoming) 0 received) next.flights
      (inside + (outside + pendingFlights waiting))
    simp only [ledger, receipt, offering, Action.brought, Action.asked, List.nil_append,
      enteringBefore, enteringAfter, before, after, before', after', handedOver_flights,
      handedOver_entering]
    have offered : (↑(Stage.flights .waiting) : Multiset Flight) + inside
          + (↑(Caller.flights (.offer c next)) + outside) + ↑(pendingFlights waiting)
        = ↑(Flight.of c .queued :: next.flights)
          + (inside + (outside + ↑(pendingFlights waiting))) := by
      simp only [Stage.flights, Caller.flights, Multiset.coe_nil, zero_add, add_assoc,
        add_left_comm]
    have taken : (↑(Stage.flights (.received c)) : Multiset Flight) + inside
          + (↑next.flights + outside) + ↑(pendingFlights waiting)
        = ↑([Flight.of c .taken] ++ next.flights)
          + (inside + (outside + ↑(pendingFlights waiting))) := by
      simp only [Stage.flights, ← Multiset.coe_add, add_assoc, add_left_comm]
    rw [offered, taken]
    exact move
  | @dropped i holding =>
    obtain ⟨entering, enteringBefore, enteringAfter⟩ := exists_others holding Caller.entering
    obtain ⟨others, before, after⟩ := exists_others holding Caller.flights
    simp only [ledger, receipt, Action.brought, Action.asked, List.append_nil, List.nil_append,
      enteringBefore, enteringAfter, before, after]
    exact .rest _
  | @called c usual =>
    have grown : ∀ {β : Type} (f : Caller → List β),
        (↑((s.callers ++ [c]).flatMap f) : Multiset β) = f c + ↑(s.callers.flatMap f) := by
      intro β f
      rw [List.flatMap_append, List.flatMap_singleton, ← Multiset.coe_add, add_comm]
    simp only [ledger, receipt, List.append_nil, grown]
    cases c with
    | submit text =>
      have together : (↑(s.callers.flatMap Caller.entering) : Multiset String)
            + ↑([text] ++ upcoming)
          = ↑[text] + ↑(s.callers.flatMap Caller.entering) + ↑upcoming := by
        rw [← Multiset.coe_add]
        simp only [add_assoc, add_left_comm]
      simp only [Action.brought, together, Caller.entering, Caller.flights, Multiset.coe_nil,
        zero_add]
      exact .rest _
    | resume rest count =>
      have together : ∀ busy : Multiset Flight,
          busy + (↑(pendingFlights rest) + ↑(s.callers.flatMap Caller.flights))
              + ↑(pendingFlights waiting)
            = busy + ↑(s.callers.flatMap Caller.flights) + ↑(pendingFlights (rest ++ waiting)) := by
        intro busy
        rw [pendingFlights_append, ← Multiset.coe_add]
        simp only [add_assoc, add_left_comm]
      simp only [Caller.flights, Caller.entering, Multiset.coe_nil, zero_add, together]
      exact .rest _
    | acquire | close | join => exact .rest _
    | _ => exact usual.elim
  | repriced =>
    simp only [receipt, Action.brought, Action.asked, List.append_nil, List.nil_append]
    exact .rest _

/-- What the handovers of a run pass on, earliest first. -/
def receipts (k : Collaborators) : Service → List Action → List (Calculation × Nat)
  | _, [] => []
  | s, a :: rest => s.receipt a ++ match s.step k a with
    | some t => receipts k t rest
    | none => []

/-- What every action preserves, in view of the actions to come and of what was received. -/
theorem run_preserves {P : Service → List Action → List (Calculation × Nat) → Prop}
    (preserved : ∀ {s t : Service} {a : Action} {rest : List Action} {received},
      P s (a :: rest) received → s.step k a = some t → P t rest (received ++ s.receipt a))
    {actions : List Action} {received : List (Calculation × Nat)} (start : P s actions received)
    (h : s.run k actions = some t) : P t [] (received ++ receipts k s actions) := by
  induction actions generalizing s received with
  | nil =>
    cases h
    simpa only [receipts, List.append_nil] using start
  | cons a rest ih =>
    rw [run_cons, Option.bind_eq_some_iff] at h
    obtain ⟨u, happened, h⟩ := h
    have next := ih (preserved start happened) h
    simpa only [receipts, happened, List.append_assoc] using next

end Reckoner.Service
