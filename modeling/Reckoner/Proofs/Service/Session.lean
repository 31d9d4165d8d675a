import Reckoner.Proofs.Service.Trails

/-!
# Sessions

A session is a run of a service over a store that came about by its own operations: texts are
submitted, what was pending in the store is resumed at most once, tables are put in force and the
intake is closed, all at any moment. `Session.processed` says that the listener hears a legal trail
of every calculation, and that what is handed over is received once and brought to a single end.
-/

namespace Reckoner.Service

variable {k : Collaborators} {n : Nat} {table : CostTable} {first : Store} {actions : List Action}
variable {s t : Service}

/-! ### The calls of a session -/

def Action.OfSession (first : Store) : Action → Prop
  | .call (.submit _) | .call .close => True
  | .call (.resume rest count) => rest = first.unfinished ∧ count = 0
  | .call _ | .use .. => False
  | .worker _ | .caller _ | .handOver .. | .drop _ | .setCosts _ => True

def Action.isSubmission : Action → Bool
  | .call (.submit _) => true
  | _ => false

def Action.isResumption : Action → Bool
  | .call (.resume ..) => true
  | _ => false

/-- A run of a service with so many workers over a store that has numbers enough. -/
structure Session (k : Collaborators) (n : Nat) (table : CostTable) (first : Store)
    (actions : List Action) (s : Service) : Prop where
  forwards : k.Forwards
  manned : 0 < n
  built : first.Built
  below : ∀ id c, first.find? id = some c → id < first.nextId
  calls : ∀ a ∈ actions, a.OfSession first
  resumedOnce : actions.countP Action.isResumption ≤ 1
  space : first.nextId.toNat + actions.countP Action.isSubmission < UInt64.size
  run : (opened n table first).run k actions = some s

theorem Action.OfSession.usual {a : Action} (h : a.OfSession first) : a.Usual := by
  cases a with
  | call c => cases c <;> trivial
  | use => exact h.elim
  | _ => trivial

theorem length_brought (actions : List Action) :
    (actions.flatMap Action.brought).length = actions.countP Action.isSubmission := by
  induction actions with
  | nil => rfl
  | cons a rest ih =>
    rw [List.flatMap_cons, List.length_append, ih, List.countP_cons, Nat.add_comm]
    congr 1
    cases a with
    | call c => cases c <;> rfl
    | _ => rfl

theorem asked_eq_nil {a : Action} (quiet : a.isResumption = false) : a.asked = [] := by
  cases a with
  | call c => cases c <;> first | rfl | cases quiet
  | _ => rfl

/-- All that is asked for is the list of what was pending, or nothing. -/
theorem asked_cases (calls : ∀ a ∈ actions, a.OfSession first)
    (once : actions.countP Action.isResumption ≤ 1) :
    actions.flatMap Action.asked = [] ∨ actions.flatMap Action.asked = first.unfinished := by
  induction actions with
  | nil => exact .inl rfl
  | cons a rest ih =>
    rw [List.countP_cons] at once
    rw [List.flatMap_cons]
    by_cases resumes : a.isResumption = true
    · rw [if_pos resumes] at once
      have never : rest.countP Action.isResumption = 0 := by omega
      have later : rest.flatMap Action.asked = [] := by
        rw [List.flatMap_eq_nil_iff]
        intro b member
        exact asked_eq_nil (Bool.eq_false_iff.2 (List.countP_eq_zero.1 never b member))
      rw [later, List.append_nil]
      have call := calls a (.head _)
      cases a with
      | call c =>
        cases c with
        | resume waiting count => exact .inr call.1
        | _ => cases resumes
      | _ => cases resumes
    · rw [asked_eq_nil (Bool.eq_false_iff.2 resumes), List.nil_append]
      exact ih (fun b member => calls b (.tail _ member)) (by omega)

/-! ### The start -/

theorem Session.resumed_below (h : Session k n table first actions s) (id : Calculation.Id)
    (resumed : Resumed first id) : id < first.nextId := by
  obtain ⟨c, member, named⟩ := resumed
  obtain ⟨⟨key, found⟩, _⟩ := Store.mem_unfinished.1 member
  have same := h.built.keyed key c found
  rw [named] at same
  exact Option.some.inj same ▸ h.below key c found

theorem ledger_opened (upcoming : List String) (waiting : List Calculation) :
    (opened n table first).ledger upcoming waiting [] =
      ⟨upcoming, pendingFlights waiting, first, [], [], []⟩ := by
  have idle : ((List.range n).map Worker.idle).flatMap (fun w => w.stage.flights) = [] := by
    simp [Worker.idle, Stage.flights]
  simp [ledger, account, opened, idle]

theorem mem_pendingFlights {rest : List Calculation} {f : Flight} :
    f ∈ pendingFlights rest ↔ ∃ c ∈ rest, isResumable c = true ∧ Flight.of c .pending = f := by
  simp [pendingFlights, and_assoc]

theorem nodup_pendingFlights {rest : List Calculation} (distinct : (rest.map Calculation.id).Nodup) :
    ((pendingFlights rest).map Flight.id).Nodup := by
  rw [List.Nodup, List.pairwise_map] at distinct
  rw [pendingFlights, List.map_map, List.Nodup, List.pairwise_map]
  refine (distinct.filter _).imp_of_mem ?_
  intro c d first second different same
  apply different
  rw [(numbered_of_resumable (List.mem_filter.1 first).2).some_eq,
    (numbered_of_resumable (List.mem_filter.1 second).2).some_eq]
  exact congrArg some same

/-- The flights at the start are those of pending records. -/
theorem flight_of_start {waiting : List Calculation} {f : Flight} (keyed : first.Keyed)
    (asked : waiting = [] ∨ waiting = first.unfinished) (member : f ∈ pendingFlights waiting) :
    ∃ c ∈ first.unfinished, c.id = some f.id ∧ first.find? f.id = some c ∧ c.isPending = true ∧
      f = ⟨f.id, c.text, .pending⟩ := by
  rcases asked with rfl | rfl
  · cases member
  · obtain ⟨c, listed, _, rfl⟩ := mem_pendingFlights.1 member
    obtain ⟨⟨id, found⟩, pending⟩ := Store.mem_unfinished.1 listed
    have named := keyed id c found
    have same : (Flight.of c .pending).id = id := by rw [Flight.of, named, Option.getD_some]
    exact ⟨c, listed, by rw [same, named], by rw [same, found], pending, rfl⟩

theorem regular_opened {upcoming : List String} {waiting : List Calculation}
    (built : first.Built) (below : ∀ id c, first.find? id = some c → id < first.nextId)
    (asked : waiting = [] ∨ waiting = first.unfinished)
    (space : first.nextId.toNat + upcoming.length < UInt64.size) :
    Regular first ((opened n table first).ledger upcoming waiting []) := by
  rw [ledger_opened]
  refine ⟨space, UInt64.le_refl _, ?_, ?_, fun _ _ => .inl rfl, fun _ told => (told rfl).elim,
    List.forall_mem_nil _, List.nodup_nil, List.forall_mem_nil _⟩
  · rcases asked with rfl | rfl
    · exact List.nodup_nil
    · refine nodup_pendingFlights (List.Nodup.sublist ?_ built.keyed.nodup_ids)
      exact List.filter_sublist.map _
  · intro f member
    obtain ⟨c, pending, named, found, _, same⟩ := flight_of_start built.keyed asked member
    have resumed : Resumed first f.id := ⟨c, pending, named⟩
    have issued := below f.id c found
    refine ⟨issued, ?_, .inr resumed, fun _ => resumed⟩
    rw [origin, if_neg (UInt64.not_le.2 issued), same]
    rfl

theorem stored_opened {upcoming : List String} {waiting : List Calculation}
    (built : first.Built) (below : ∀ id c, first.find? id = some c → id < first.nextId)
    (asked : waiting = [] ∨ waiting = first.unfinished) :
    Stored ((opened n table first).ledger upcoming waiting []) := by
  rw [ledger_opened]
  refine ⟨fun id c found => ⟨built.keyed id c found, below id c found⟩, ?_,
    fun _ => List.forall_mem_nil _⟩
  intro f member
  obtain ⟨c, _, _, found, pending, same⟩ := flight_of_start built.keyed asked member
  refine ⟨c, found, ?_, congrArg Flight.text same.symm⟩
  by_contra ended
  rw [Calculation.isPending, Calculation.Status.not_isPending_of_isTerminal] at pending
  · cases pending
  · exact Bool.eq_true_of_not_eq_false ended

/-! ### The run -/

structure Going (first : Store) (s : Service) (rest : List Action)
    (received : List (Calculation × Nat)) : Prop where
  sound : s.Sound
  calls : ∀ a ∈ rest, a.OfSession first
  regular : Regular first
    (s.ledger (rest.flatMap Action.brought) (rest.flatMap Action.asked) received)
  stored : Stored (s.ledger (rest.flatMap Action.brought) (rest.flatMap Action.asked) received)
  /-- Whoever was told that a calculation is queued has handed it over. -/
  acknowledged : ∀ c, Caller.done (.submitted c) ∈ s.callers → c.status = .queued →
    ∃ worker, (c, worker) ∈ received

theorem ActionStep.acknowledged {a : Action} (step : ActionStep k s a t)
    {received : List (Calculation × Nat)}
    (before : ∀ c, Caller.done (.submitted c) ∈ s.callers → c.status = .queued →
      ∃ worker, (c, worker) ∈ received) :
    ∀ c, Caller.done (.submitted c) ∈ t.callers → c.status = .queued →
      ∃ worker, (c, worker) ∈ received ++ s.receipt a := by
  intro c member queued
  rcases step.caller_cases member with
    old | ⟨d, _, u, own⟩ | ⟨i, j, d, next, rfl, offering, same⟩ | dropped | called
  · obtain ⟨worker, taken⟩ := before c old queued
    exact ⟨worker, List.mem_append_left _ taken⟩
  · cases own with
    | unparsed => cases queued
  · cases next with
    | submitted =>
      cases same
      exact ⟨j, by simp [receipt, offering]⟩
    | _ => cases same
  · cases dropped
  · exact called.elim

theorem Going.step (forwards : k.Forwards) (below : ∀ id, Resumed first id → id < first.nextId)
    {a : Action} {rest : List Action} {received : List (Calculation × Nat)}
    (h : Going first s (a :: rest) received) (happened : s.step k a = some t) :
    Going first t rest (received ++ s.receipt a) := by
  have step := step_cases forwards h.sound (h.calls a (.head _)).usual happened
  have move : Move True True _ _ := step.move h.sound (fun _ _ => trivial)
    (fun _ _ => trivial) (rest.flatMap Action.brought) (rest.flatMap Action.asked) received
  exact ⟨step.sound h.sound, fun b member => h.calls b (.tail _ member),
    h.regular.move below move, h.stored.move h.regular move, step.acknowledged h.acknowledged⟩

theorem Session.start (h : Session k n table first actions s) :
    Going first (opened n table first) actions [] := by
  have asked := asked_cases h.calls h.resumedOnce
  have space := h.space
  rw [← length_brought] at space
  exact ⟨sound_opened h.manned table first, h.calls, regular_opened h.built h.below asked space,
    stored_opened h.built h.below asked, fun c member => nomatch member⟩

theorem Session.going (h : Session k n table first actions s) :
    Going first s [] (receipts k (opened n table first) actions) := by
  have below := h.resumed_below
  exact run_preserves (P := Going first)
    (fun before happened => before.step h.forwards below happened) h.start h.run

/-! ### What becomes of the calculations -/

/-- The trails of a submitted calculation. -/
def submittedTrails : List (List String) :=
  [["created", "failed"], ["created", "in queue", "calculating", "done"],
    ["created", "in queue", "calculating", "failed"]]

/-- The trails of a resumed calculation, as far as this run tells of it. -/
def resumedTrails : List (List String) :=
  [["failed"], ["in queue", "calculating", "done"], ["in queue", "calculating", "failed"]]

structure Processed (first : Store) (s : Service) (received : List (Calculation × Nat)) :
    Prop where
  submitted : ∀ id, Introduced s.notices id →
    ∃ trail ∈ submittedTrails, labels s.notices id <+: trail
  resumed : ∀ id, Resumed first id → ∃ trail ∈ resumedTrails, labels s.notices id <+: trail
  told : ∀ n ∈ s.notices, ∃ id, n.calculation.id = some id ∧
    (Introduced s.notices id ∨ Resumed first id)
  /-- Whatever was queued fails only in the hands of a worker. -/
  unbroken : ∀ id, ¬ ["in queue", "failed"] <:+: labels s.notices id
  once : (received.map fun r => r.1.id).Nodup
  acknowledged : ∀ c, Caller.done (.submitted c) ∈ s.callers → c.status = .queued →
    ∃ worker, (c, worker) ∈ received
  /-- When no worker holds a calculation, all that was received has come to a single end. -/
  finished : (∀ w ∈ s.workers, w.isWaiting = true ∨ w.isGone = true) → ∀ r ∈ received,
    ∃ id c, r.1.id = some id ∧ (Introduced s.notices id → labels s.notices id ∈ submittedTrails) ∧
      (Resumed first id → labels s.notices id ∈ resumedTrails) ∧
      ends s.notices id = [⟨.completed, c⟩] ∧ s.store.find? id = some c

theorem Phase.labels_prefix (p : Phase) : ∃ ending ∈ endings, p.labels <+: ending := by
  cases p with
  | pending | fresh | parsed => exact ⟨_, .head _, List.nil_prefix⟩
  | queued | taken => exact ⟨_, .tail _ (.head _), _, rfl⟩
  | calculating | aborted => exact ⟨_, .tail _ (.head _), _, rfl⟩

theorem Regular.labels_prefix {l : Ledger} (h : Regular first l) (id : Calculation.Id) :
    ∃ ending ∈ endings, labels l.notices id <+: origin first id ++ ending := by
  by_cases flying : ∃ f ∈ l.flights, f.id = id
  · obtain ⟨f, member, rfl⟩ := flying
    obtain ⟨ending, listed, prefixed⟩ := f.phase.labels_prefix
    rw [(h.flying f member).told]
    exact ⟨ending, listed, (List.prefix_append_right_inj _).2 prefixed⟩
  · rcases h.landed id fun f member same => flying ⟨f, member, same⟩ with
      silent | ⟨⟨ending, listed, told⟩, _⟩
    · rw [silent]
      exact ⟨_, .head _, List.nil_prefix⟩
    · exact ⟨ending, listed, told ▸ List.prefix_refl _⟩

theorem origin_introduced {l : Ledger} (h : Regular first l) {id : Calculation.Id}
    (introduced : Introduced l.notices id) : origin first id = ["created"] := by
  obtain ⟨c, member, named⟩ := introduced
  obtain ⟨id', named', later⟩ := h.named _ member
  rw [origin, if_pos]
  rw [Option.some.inj (named.symm.trans named')]
  exact later rfl

theorem origin_resumed (below : ∀ id, Resumed first id → id < first.nextId) {id : Calculation.Id}
    (resumed : Resumed first id) : origin first id = [] := by
  rw [origin, if_neg (UInt64.not_le.2 (below id resumed))]

theorem Caller.not_inHand {c : Caller} : ∀ f ∈ c.flights, f.phase.inHand = false := by
  have pending : ∀ {rest : List Calculation}, ∀ f ∈ pendingFlights rest,
      f.phase.inHand = false := by
    intro rest f member
    rw [phase_of_mem_pendingFlights member]
    rfl
  have behind : ∀ {next : Then}, ∀ f ∈ next.flights, f.phase.inHand = false := by
    intro next
    cases next with
    | resume => exact pending
    | submitted | accepted => exact List.forall_mem_nil _
  cases c with
  | parse | reserve | reject => exact List.forall_mem_singleton.2 rfl
  | resume => exact pending
  | reopen => exact List.forall_mem_cons.2 ⟨rfl, pending⟩
  | announce | send | offer => exact List.forall_mem_cons.2 ⟨rfl, behind⟩
  | _ => exact List.forall_mem_nil _

theorem Worker.flights_of_idle {w : Worker} (idle : w.isWaiting = true ∨ w.isGone = true) :
    w.stage.flights = [] := by
  obtain ⟨stage, view⟩ := w
  cases stage with
  | waiting | releasing | exited | lost => rfl
  | _ => rcases idle with resting | gone <;> contradiction

theorem not_inHand_of_idle (idle : ∀ w ∈ s.workers, w.isWaiting = true ∨ w.isGone = true)
    {upcoming : List String} {waiting : List Calculation} {received : List (Calculation × Nat)} :
    ∀ f ∈ (s.ledger upcoming waiting received).flights, f.phase.inHand = false := by
  intro f member
  simp only [ledger, account, Multiset.mem_add, Multiset.mem_coe, List.mem_flatMap] at member
  rcases member with (⟨w, worker, carried⟩ | ⟨c, _, carried⟩) | waits
  · rw [Worker.flights_of_idle (idle w worker)] at carried
    cases carried
  · exact Caller.not_inHand f carried
  · rw [phase_of_mem_pendingFlights waits]
    rfl

/-- Every trail is legal, and what is handed over is received once and brought to a single end. -/
theorem Session.processed (h : Session k n table first actions s) :
    Processed first s (receipts k (opened n table first) actions) := by
  have going := h.going
  have below := h.resumed_below
  have regular := going.regular
  have submitted : ∀ id, Introduced s.notices id → origin first id = ["created"] :=
    fun id introduced => origin_introduced regular introduced
  have resumed : ∀ id, Resumed first id → origin first id = [] :=
    fun id resumed => origin_resumed below resumed
  refine ⟨?_, ?_, ?_, ?_, regular.once, going.acknowledged, ?_⟩
  · intro id introduced
    obtain ⟨ending, listed, prefixed⟩ := regular.labels_prefix id
    rw [submitted id introduced] at prefixed
    exact ⟨_, List.mem_map_of_mem (f := (["created"] ++ ·)) listed, prefixed⟩
  · intro id pending
    obtain ⟨ending, listed, prefixed⟩ := regular.labels_prefix id
    rw [resumed id pending] at prefixed
    exact ⟨ending, listed, prefixed⟩
  · intro n member
    obtain ⟨id, named, _⟩ := regular.named n member
    refine ⟨id, named, (regular.known id fun silent => ?_).2⟩
    rw [labels, List.map_eq_nil_iff, toldUnder, List.reverse_eq_nil_iff,
      List.filter_eq_nil_iff] at silent
    exact silent n member (by simpa using named)
  · intro id broken
    obtain ⟨ending, listed, prefixed⟩ := regular.labels_prefix id
    have inside := broken.trans prefixed.isInfix
    rw [origin] at inside
    have none : ∀ ending ∈ endings, ¬ ["in queue", "failed"] <:+: ["created"] ++ ending ∧
        ¬ ["in queue", "failed"] <:+: [] ++ ending := by decide
    split at inside
    · exact (none ending listed).1 inside
    · exact (none ending listed).2 inside
  · intro idle r member
    obtain ⟨id, named, told, hand⟩ := regular.received r member
    have landed : ∀ f ∈ (s.ledger [] [] (receipts k (opened n table first) actions)).flights,
        f.id ≠ id := by
      intro f flying same
      have inHand := hand f flying same
      rw [not_inHand_of_idle idle f flying] at inHand
      cases inHand
    obtain ⟨⟨ending, listed, trail⟩, c, ended⟩ := (regular.landed id landed).resolve_left told
    refine ⟨id, c, named, ?_, ?_, ended, ?_⟩
    · intro introduced
      rw [submitted id introduced] at trail
      exact trail ▸ List.mem_map_of_mem (f := (["created"] ++ ·)) listed
    · intro pending
      rw [resumed id pending] at trail
      exact trail ▸ listed
    · exact going.stored.ended id ⟨.completed, c⟩ (ended ▸ List.mem_singleton_self _)

/-- A store in which a quotient was pending when it was saved. -/
def interruptedStore : Store :=
  (Store.empty.create { Calculation.new "1/0" default with status := .queued }).2

/-- One text that does not parse and one that does are submitted, the quotient is resumed, and the
intake is closed while the only worker is busy. -/
def busyActions : List Action :=
  [.call (.submit "2*(3-1"), .call (.submit "6/3"), .call (.resume interruptedStore.unfinished 0),
      .call .close, .caller 0, .caller 0]
    ++ List.replicate 4 (.caller 2) ++ [.handOver 2 0] ++ List.replicate 5 (.caller 1)
    ++ [.caller 3] ++ List.replicate 9 (.worker 0) ++ [.handOver 1 0]
    ++ List.replicate 11 (.worker 0)

theorem busyActions_processed :
    ∃ s, Session (.plain fun _ => default) 1 .zero interruptedStore busyActions s ∧
      (∀ w ∈ s.workers, w.isWaiting = true ∨ w.isGone = true) ∧
      Processed interruptedStore s
        (receipts (.plain fun _ => default) (opened 1 .zero interruptedStore) busyActions) := by
  have ran : ((opened 1 .zero interruptedStore).run (.plain fun _ => default) busyActions).any
      (fun s => s.workers.all Worker.isWaiting) = true := by decide +kernel
  obtain ⟨s, run, waiting⟩ := (Option.any_eq_true _ _).1 ran
  have session : Session (.plain fun _ => default) 1 .zero interruptedStore busyActions s := by
    refine ⟨fun _ _ => rfl, Nat.one_pos, .created .empty _, ?_, ?_, ?_, ?_, run⟩
    · intro id c found
      rw [interruptedStore, Store.find?_create] at found
      split at found
      · rename_i same
        rw [same]
        decide
      · simp at found
    · intro a member
      simp only [busyActions, List.mem_append, List.mem_cons, List.mem_replicate,
        List.not_mem_nil, or_false, or_assoc] at member
      rcases member with rfl | rfl | rfl | rfl | rfl | rfl | ⟨-, rfl⟩ | rfl | ⟨-, rfl⟩ | rfl
        | ⟨-, rfl⟩ | rfl | ⟨-, rfl⟩
      case inr.inr.inl => exact ⟨rfl, rfl⟩
      all_goals trivial
    · decide
    · decide
  refine ⟨s, session, fun w member => .inl (List.all_eq_true.1 waiting w member), ?_⟩
  exact Session.processed session

end Reckoner.Service
