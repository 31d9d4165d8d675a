import Reckoner.Proofs.Service.Moves
import Reckoner.Proofs.Store.Records

/-!
# What the listener is told

The labels told under a number follow the flight of the calculation. `Regular` is the invariant of
the ledger that says so: a flight has been told of up to its phase, and a number without a flight
was never told of in this run or has a complete trail with a single end.
-/

namespace Reckoner.Service

variable {k : Collaborators} {s t : Service} {panics rejects : Prop} {first : Store} {l : Ledger}
variable {id key : Calculation.Id} {text : String} {p : Phase} {e : Effect} {next : Option Phase}

/-! ### Labels -/

/-- What the listener was told under a number, earliest first. -/
def toldUnder (notices : List Notice) (id : Calculation.Id) : List Notice :=
  (notices.filter fun n => n.calculation.id = some id).reverse

def labels (notices : List Notice) (id : Calculation.Id) : List String :=
  (toldUnder notices id).map fun n => n.calculation.status.label

def ends (notices : List Notice) (id : Calculation.Id) : List Notice :=
  (toldUnder notices id).filter fun n => n.calculation.isTerminal

theorem toldUnder_cons_self {n : Notice} (named : n.calculation.id = some id)
    (notices : List Notice) : toldUnder (n :: notices) id = toldUnder notices id ++ [n] := by
  simp [toldUnder, named]

theorem toldUnder_cons_other {n : Notice} (other : n.calculation.id ≠ some id)
    (notices : List Notice) : toldUnder (n :: notices) id = toldUnder notices id := by
  simp [toldUnder, other]

theorem labels_cons_self {n : Notice} (named : n.calculation.id = some id)
    (notices : List Notice) :
    labels (n :: notices) id = labels notices id ++ [n.calculation.status.label] := by
  rw [labels, toldUnder_cons_self named, List.map_append, labels, List.map_singleton]

theorem ends_eq_nil {notices : List Notice}
    (going : ∀ label ∈ labels notices id, label ≠ "done" ∧ label ≠ "failed") :
    ends notices id = [] := by
  rw [ends, List.filter_eq_nil_iff]
  intro n member terminal
  have going := going _ (List.mem_map_of_mem member)
  rw [Calculation.isTerminal] at terminal
  cases status : n.calculation.status with
  | done => exact going.1 (by rw [status]; rfl)
  | failed message => exact going.2 (by rw [status]; rfl)
  | _ => simp [status, Calculation.Status.isTerminal] at terminal

/-! ### Phases -/

/-- The labels told in this run up to a phase, creation aside. -/
def Phase.labels : Phase → List String
  | .pending | .fresh | .parsed => []
  | .queued | .taken => ["in queue"]
  | .calculating _ | .aborted => ["in queue", "calculating"]

def Phase.inHand : Phase → Bool
  | .taken | .calculating _ | .aborted => true
  | .pending | .fresh | .parsed | .queued => false

/-- The labels of a calculation that has ended, creation aside. -/
def endings : List (List String) :=
  [["failed"], ["in queue", "calculating", "done"], ["in queue", "calculating", "failed"]]

/-- The label of the creation, if the number was given out in this run. -/
def origin (first : Store) (id : Calculation.Id) : List String :=
  if first.nextId ≤ id then ["created"] else []

/-- What an advance does to the trail of its calculation. -/
inductive Course (id : Calculation.Id) (text : String) :
    Phase → Effect → Option Phase → Prop where
  | quiet {p q : Phase} {e : Effect} (same : q.labels = p.labels) (hand : q.inHand = p.inHand)
      (begun : q ≠ .pending) (quiet : e = .silent ∨ ∃ c, e = .charged c) :
      Course id text p e (some q)
  | taken {c : Calculation} {worker : Nat} (named : c.id = some id) :
      Course id text .queued (.received c worker) (some .taken)
  | told {p q : Phase} {c : Calculation} (named : c.id = some id) (same : c.text = text)
      (going : c.isTerminal = false) (longer : q.labels = p.labels ++ [c.status.label])
      (hand : q.inHand = p.inHand) (begun : q ≠ .pending) :
      Course id text p (.told .changed c) (some q)
  | ended {p : Phase} {c : Calculation} (named : c.id = some id) (same : c.text = text)
      (terminal : c.isTerminal = true) (complete : p.labels ++ [c.status.label] ∈ endings) :
      Course id text p (.told .completed c) none

theorem Shows.course {c : Calculation} {state : Calculation.Status × Option Float}
    (shows : Shows c id text state) (terminal : state.1.isTerminal = true)
    (complete : p.labels ++ [state.1.label] ∈ endings) :
    Course id text p (.told .completed c) none := by
  refine .ended shows.id shows.text ?_ ?_
  · rw [Calculation.isTerminal, shows.status, terminal]
  · rw [shows.status]
    exact complete

theorem Course.of_status {q : Phase} {c : Calculation} {status : Calculation.Status}
    (named : c.id = some id) (same : c.text = text) (shown : c.status = status)
    (going : status.isTerminal = false) (longer : q.labels = p.labels ++ [status.label])
    (hand : q.inHand = p.inHand) (begun : q ≠ .pending) :
    Course id text p (.told .changed c) (some q) := by
  subst shown
  exact .told named same going longer hand begun

theorem Advance.course (advance : Advance panics rejects id text p e next) :
    Course id text p e next := by
  cases advance with
  | reopened | parsed => exact .quiet rfl rfl nofun (.inl rfl)
  | charged | aborted => exact .quiet rfl rfl nofun (.inr ⟨_, rfl⟩)
  | taken named => exact .taken named
  | queued named same status => exact .of_status named same status rfl rfl rfl nofun
  | begun named same status => exact .of_status named same status rfl rfl rfl nofun
  | unparsed early wrong shows =>
    rcases early with rfl | rfl <;> exact shows.course rfl List.mem_cons_self
  | rejected late shows => exact shows.course rfl List.mem_cons_self
  | @concluded c outcome shows =>
    cases outcome with
    | ok x => exact shows.course rfl (.tail _ (.head _))
    | error e => exact shows.course rfl (.tail _ (.tail _ (.head _)))
  | recovered shows => exact shows.course rfl (.tail _ (.tail _ (.head _)))

/-! ### The invariant -/

def Resumed (first : Store) (id : Calculation.Id) : Prop :=
  ∃ c ∈ first.unfinished, c.id = some id

def Introduced (notices : List Notice) (id : Calculation.Id) : Prop :=
  ∃ c, ⟨.created, c⟩ ∈ notices ∧ c.id = some id

/-- The listener was told of a flight up to its phase. -/
structure Tracked (first : Store) (l : Ledger) (f : Flight) : Prop where
  issued : f.id < l.store.nextId
  told : labels l.notices f.id = origin first f.id ++ f.phase.labels
  source : Introduced l.notices f.id ∨ Resumed first f.id
  pending : f.phase = .pending → Resumed first f.id

/-- The trail of a number is complete, with a single end. -/
def Complete (first : Store) (notices : List Notice) (id : Calculation.Id) : Prop :=
  (∃ ending ∈ endings, labels notices id = origin first id ++ ending) ∧
    ∃ c, ends notices id = [⟨.completed, c⟩]

structure Regular (first : Store) (l : Ledger) : Prop where
  /-- There are numbers enough for all texts that are to be submitted. -/
  space : l.store.nextId.toNat + l.entering.card < UInt64.size
  grown : first.nextId ≤ l.store.nextId
  distinct : (l.flights.map Flight.id).Nodup
  flying : ∀ f ∈ l.flights, Tracked first l f
  landed : ∀ id, (∀ f ∈ l.flights, f.id ≠ id) →
    labels l.notices id = [] ∨ Complete first l.notices id
  known : ∀ id, labels l.notices id ≠ [] →
    id < l.store.nextId ∧ (Introduced l.notices id ∨ Resumed first id)
  named : ∀ n ∈ l.notices, ∃ id, n.calculation.id = some id ∧
    (n.occasion = .created → first.nextId ≤ id)
  once : (l.received.map fun r => r.1.id).Nodup
  received : ∀ r ∈ l.received, ∃ id, r.1.id = some id ∧ labels l.notices id ≠ [] ∧
    ∀ f ∈ l.flights, f.id = id → f.phase.inHand = true

@[simp] theorem Effect.nextId_apply (e : Effect) (l : Ledger) :
    (e.apply l).store.nextId = l.store.nextId := by
  cases e <;> simp [apply]

@[simp] theorem Effect.entering_apply (e : Effect) (l : Ledger) :
    (e.apply l).entering = l.entering := by
  cases e <;> rfl

@[simp] theorem Effect.flights_apply (e : Effect) (l : Ledger) :
    (e.apply l).flights = l.flights := by
  cases e <;> rfl

theorem Course.toldUnder_other (course : Course id text p e next) (other : key ≠ id) (l : Ledger) :
    toldUnder (e.apply l).notices key = toldUnder l.notices key := by
  have different : ∀ {c : Calculation}, c.id = some id → c.id ≠ some key := by
    intro c named same
    exact other (Option.some.inj (same.symm.trans named))
  cases course with
  | quiet _ _ _ quiet => rcases quiet with rfl | ⟨c, rfl⟩ <;> rfl
  | taken => rfl
  | told named | ended named => exact toldUnder_cons_other (different named) _

theorem Course.labels_other (course : Course id text p e next) (other : key ≠ id) (l : Ledger) :
    labels (e.apply l).notices key = labels l.notices key := by
  rw [labels, course.toldUnder_other other, labels]

theorem Course.complete_other (course : Course id text p e next) (other : key ≠ id) :
    Complete first (e.apply l).notices key ↔ Complete first l.notices key := by
  rw [Complete, Complete, course.labels_other other, ends, ends, course.toldUnder_other other]

theorem Course.labels_ne_nil (course : Course id text p e next) {l : Ledger}
    (told : labels l.notices key ≠ []) : labels (e.apply l).notices key ≠ [] := by
  by_cases same : key = id
  · subst same
    cases course with
    | quiet _ _ _ quiet => rcases quiet with rfl | ⟨c, rfl⟩ <;> exact told
    | taken => exact told
    | told named | ended named =>
      rw [Effect.apply, labels_cons_self named]
      exact List.append_ne_nil_of_left_ne_nil told _
  · rwa [course.labels_other same]

theorem Effect.introduced_apply {e : Effect} (h : Introduced l.notices key) :
    Introduced (e.apply l).notices key := by
  obtain ⟨c, member, named⟩ := h
  cases e with
  | told occasion d => exact ⟨c, .tail _ member, named⟩
  | silent | charged | received => exact ⟨c, member, named⟩

theorem mem_onward {f : Flight} :
    f ∈ onward id text next ↔ ∃ q, next = some q ∧ f = ⟨id, text, q⟩ := by
  cases next <;> simp [onward]

theorem mem_advanced {f : Flight} {others : Multiset Flight} :
    f ∈ (↑(onward id text next) : Multiset Flight) + others ↔
      (∃ q, next = some q ∧ f = ⟨id, text, q⟩) ∨ f ∈ others := by
  rw [Multiset.mem_add, Multiset.mem_coe, mem_onward]

/-- A flight that goes on has been told of up to its next phase. -/
theorem Tracked.onward {q : Phase} {flights : Multiset Flight}
    (tracked : Tracked first l ⟨id, text, p⟩) (course : Course id text p e (some q)) :
    Tracked first (e.apply { l with flights := flights }) ⟨id, text, q⟩ where
  issued := by simpa using tracked.issued
  source := tracked.source.imp_left Effect.introduced_apply
  pending begins := by
    cases course with
    | quiet _ _ begun => exact absurd begins begun
    | taken => cases begins
    | told _ _ _ _ _ begun => exact absurd begins begun
  told := by
    have told := tracked.told
    cases course with
    | quiet same _ _ quiet =>
      rw [same]
      rcases quiet with rfl | ⟨c, rfl⟩ <;> exact told
    | taken => exact told
    | told named _ _ longer =>
      rw [Effect.apply, labels_cons_self named, told, longer, List.append_assoc]

theorem Tracked.other {f : Flight} (tracked : Tracked first l f)
    (course : Course id text p e next) (other : f.id ≠ id) {flights : Multiset Flight} :
    Tracked first (e.apply { l with flights := flights }) f where
  issued := by simpa using tracked.issued
  source := tracked.source.imp_left Effect.introduced_apply
  pending := tracked.pending
  told := (course.labels_other other _).trans tracked.told

theorem Phase.labels_going (p : Phase) : ∀ label ∈ p.labels, label ≠ "done" ∧ label ≠ "failed" := by
  cases p <;> simp [Phase.labels]

/-- Nothing that was told of a flight is an end. -/
theorem Tracked.ends_eq_nil {f : Flight} (tracked : Tracked first l f) :
    ends l.notices f.id = [] := by
  apply Service.ends_eq_nil
  intro label member
  rw [tracked.told] at member
  rcases List.mem_append.1 member with created | later
  · rw [origin] at created
    split at created
    · rw [List.mem_singleton.1 created]
      decide
    · cases created
  · exact f.phase.labels_going label later

/-- The trail of a flight that ends is complete. -/
theorem Tracked.complete (tracked : Tracked first l ⟨id, text, p⟩)
    (course : Course id text p e none) {flights : Multiset Flight} :
    Complete first (e.apply { l with flights := flights }).notices id := by
  cases course with
  | @ended p c named same terminal complete =>
    refine ⟨⟨_, complete, ?_⟩, c, ?_⟩
    · rw [Effect.apply, labels_cons_self named, tracked.told, List.append_assoc]
    · have before := tracked.ends_eq_nil
      rw [ends] at before
      rw [Effect.apply, ends, toldUnder_cons_self named, List.filter_append, before,
        List.nil_append, List.filter_singleton, terminal, cond_true]

theorem Course.inHand {q : Phase} (course : Course id text p e (some q)) (h : p.inHand = true) :
    q.inHand = true := by
  cases course with
  | quiet _ hand => rw [hand, h]
  | taken => rfl
  | told _ _ _ _ hand => rw [hand, h]

theorem Regular.alone {others : Multiset Flight} (h : Regular first l)
    (split : l.flights = {⟨id, text, p⟩} + others) :
    (∀ f ∈ others, f.id ≠ id) ∧ (others.map Flight.id).Nodup := by
  have distinct := h.distinct
  rw [split, Multiset.singleton_add, Multiset.map_cons, Multiset.nodup_cons] at distinct
  refine ⟨fun f member same => distinct.1 ?_, distinct.2⟩
  exact Multiset.mem_map.2 ⟨f, member, same⟩

/-- A flight that is gone has come to its end. -/
theorem eq_none_of_absent {others : Multiset Flight}
    (absent : ∀ f ∈ (↑(onward id text next) : Multiset Flight) + others, f.id ≠ id) :
    next = none := by
  cases next with
  | none => rfl
  | some q => exact (absent ⟨id, text, q⟩ (by simp [onward]) rfl).elim

theorem absent_before {others : Multiset Flight} (split : l.flights = {⟨id, text, p⟩} + others)
    (other : key ≠ id)
    (absent : ∀ f ∈ (↑(onward id text next) : Multiset Flight) + others, f.id ≠ key) :
    ∀ f ∈ l.flights, f.id ≠ key := by
  intro f member
  rw [split, Multiset.singleton_add, Multiset.mem_cons] at member
  rcases member with rfl | old
  · exact Ne.symm other
  · exact absent f (Multiset.mem_add.2 (.inr old))

/-- Whatever was received is in hand or at its end, so nothing is received twice. -/
theorem Regular.once_advanced {others : Multiset Flight} (h : Regular first l)
    (split : l.flights = {⟨id, text, p⟩} + others) (course : Course id text p e next) :
    ((e.apply { l with flights := onward id text next + others }).received.map
      fun r => r.1.id).Nodup := by
  cases course with
  | quiet _ _ _ quiet => rcases quiet with rfl | ⟨c, rfl⟩ <;> exact h.once
  | told | ended => exact h.once
  | @taken c worker named =>
    rw [Effect.apply, List.map_append, List.nodup_append]
    refine ⟨h.once, List.nodup_singleton _, ?_⟩
    intro earlier received new is
    rw [List.map_singleton, List.mem_singleton] at is
    obtain ⟨r, member, rfl⟩ := List.mem_map.1 received
    rintro rfl
    obtain ⟨id', named', _, hand⟩ := h.received r member
    have same : id = id' := Option.some.inj ((named.symm.trans is.symm).trans named')
    have inHand := hand ⟨id, text, .queued⟩ (by simp [split]) same
    cases inHand

theorem Regular.received_advanced {others : Multiset Flight} (h : Regular first l)
    (split : l.flights = {⟨id, text, p⟩} + others) (course : Course id text p e next) :
    ∀ r ∈ (e.apply { l with flights := onward id text next + others }).received,
      ∃ id', r.1.id = some id' ∧
        labels (e.apply { l with flights := onward id text next + others }).notices id' ≠ [] ∧
        ∀ f ∈ (↑(onward id text next) : Multiset Flight) + others, f.id = id' →
          f.phase.inHand = true := by
  have tracked : Tracked first l ⟨id, text, p⟩ := h.flying _ (by simp [split])
  obtain ⟨apart, _⟩ := h.alone split
  have kept : ∀ r ∈ l.received, ∃ id', r.1.id = some id' ∧
      labels (e.apply { l with flights := onward id text next + others }).notices id' ≠ [] ∧
      ∀ f ∈ (↑(onward id text next) : Multiset Flight) + others, f.id = id' →
        f.phase.inHand = true := by
    intro r member
    obtain ⟨id', named, told, hand⟩ := h.received r member
    refine ⟨id', named, course.labels_ne_nil told, fun f flying same => ?_⟩
    rcases mem_advanced.1 flying with ⟨q, rfl, rfl⟩ | old
    · exact course.inHand (hand ⟨id, text, p⟩ (by simp [split]) same)
    · exact hand f (by simp [split, old]) same
  intro r member
  cases course with
  | quiet _ _ _ quiet => rcases quiet with rfl | ⟨c, rfl⟩ <;> exact kept r member
  | told | ended => exact kept r member
  | @taken c worker named =>
    rcases List.mem_append.1 member with old | new
    · exact kept r old
    · rw [List.mem_singleton.1 new]
      refine ⟨id, named, ?_, fun f flying same => ?_⟩
      · rw [Effect.apply, tracked.told]
        exact List.append_ne_nil_of_right_ne_nil _ (List.cons_ne_nil _ _)
      · rcases mem_advanced.1 flying with ⟨q, next, rfl⟩ | old
        · cases next
          rfl
        · exact (apart f old same).elim

theorem Regular.advanced {others : Multiset Flight} (h : Regular first l)
    (split : l.flights = {⟨id, text, p⟩} + others) (course : Course id text p e next) :
    Regular first (e.apply { l with flights := onward id text next + others }) := by
  have tracked : Tracked first l ⟨id, text, p⟩ := h.flying _ (by simp [split])
  obtain ⟨apart, distinct⟩ := h.alone split
  refine ⟨by simpa using h.space, by simpa using h.grown, ?_, ?_, ?_, ?_, ?_, ?_, ?_⟩
  · cases next with
    | none => simpa [onward] using distinct
    | some q => simpa [onward, distinct] using apart
  · intro f member
    rw [Effect.flights_apply, mem_advanced] at member
    rcases member with ⟨q, rfl, rfl⟩ | old
    · exact tracked.onward course
    · exact (h.flying f (by simp [split, old])).other course (apart f old)
  · intro key absent
    rw [Effect.flights_apply] at absent
    by_cases same : key = id
    · subst same
      obtain rfl := eq_none_of_absent absent
      exact .inr (tracked.complete course)
    · rw [course.labels_other same, course.complete_other same]
      exact h.landed key (absent_before split same absent)
  · intro key told
    rw [Effect.nextId_apply]
    by_cases same : key = id
    · subst same
      exact ⟨tracked.issued, tracked.source.imp_left Effect.introduced_apply⟩
    · rw [course.labels_other same] at told
      obtain ⟨issued, source⟩ := h.known key told
      exact ⟨issued, source.imp_left Effect.introduced_apply⟩
  · intro n member
    cases course with
    | quiet _ _ _ quiet => rcases quiet with rfl | ⟨c, rfl⟩ <;> exact h.named n member
    | taken => exact h.named n member
    | told named | ended named =>
      rcases List.mem_cons.1 member with rfl | old
      · exact ⟨id, named, nofun⟩
      · exact h.named n old
  · exact h.once_advanced split course
  · rw [Effect.flights_apply]
    exact h.received_advanced split course

/-- Nothing was told in this run of a calculation that waits to be resumed. -/
theorem Tracked.unheard {f : Flight} (tracked : Tracked first l f)
    (below : ∀ id, Resumed first id → id < first.nextId) (pending : f.phase = .pending) :
    labels l.notices f.id = [] := by
  have unissued := below _ (tracked.pending pending)
  rw [tracked.told, pending, origin, if_neg (UInt64.not_le.2 unissued)]
  rfl

theorem absent_cases {flights gone others : Multiset Flight} (split : flights = gone + others)
    {id : Calculation.Id} (absent : ∀ f ∈ others, f.id ≠ id) :
    (∃ f ∈ gone, f.id = id) ∨ ∀ f ∈ flights, f.id ≠ id := by
  by_cases left : ∃ f ∈ gone, f.id = id
  · exact .inl left
  · refine .inr fun f member same => ?_
    rw [split, Multiset.mem_add] at member
    rcases member with member | member
    · exact left ⟨f, member, same⟩
    · exact absent f member same

theorem Regular.forsaken {gone others : Multiset Flight} (h : Regular first l)
    (below : ∀ id, Resumed first id → id < first.nextId) (split : l.flights = gone + others)
    (pending : ∀ f ∈ gone, f.phase = .pending) :
    Regular first { l with flights := others } := by
  have distinct := h.distinct
  rw [split, Multiset.map_add] at distinct
  refine ⟨h.space, h.grown, (Multiset.nodup_add.1 distinct).2.1, ?_, ?_, h.known, h.named,
    h.once, ?_⟩
  · intro f member
    have tracked := h.flying f (by simp [split, member])
    exact ⟨tracked.issued, tracked.told, tracked.source, tracked.pending⟩
  · intro id absent
    rcases absent_cases split absent with ⟨f, member, rfl⟩ | gone
    · exact .inl ((h.flying f (by simp [split, member])).unheard below (pending f member))
    · exact h.landed id gone
  · intro r member
    obtain ⟨id, named, told, hand⟩ := h.received r member
    exact ⟨id, named, told, fun f flying => hand f (by
      rw [split, Multiset.mem_add]
      exact .inr flying)⟩

theorem Regular.fresh {others : Multiset String} (h : Regular first l)
    (entering : l.entering = {text} + others) :
    (l.store.nextId + 1).toNat = l.store.nextId.toNat + 1 ∧
      l.store.nextId < l.store.nextId + 1 := by
  have space := h.space
  rw [entering, Multiset.card_add, Multiset.card_singleton] at space
  have next : (l.store.nextId + 1).toNat = l.store.nextId.toNat + 1 := by
    rw [UInt64.toNat_add]
    exact Nat.mod_eq_of_lt (show l.store.nextId.toNat + 1 < UInt64.size by omega)
  refine ⟨next, ?_⟩
  rw [UInt64.lt_iff_toNat_lt, next]
  exact Nat.lt_succ_self _

theorem Regular.new (h : Regular first l) : ∀ f ∈ l.flights, f.id ≠ l.store.nextId := by
  intro f member same
  exact UInt64.lt_irrefl _ (same ▸ (h.flying f member).issued)

theorem Regular.unheard (h : Regular first l) : toldUnder l.notices l.store.nextId = [] := by
  by_contra told
  refine UInt64.lt_irrefl _ (h.known l.store.nextId fun silent => told ?_).1
  exact List.map_eq_nil_iff.1 silent

theorem Regular.created {others : Multiset String} {c : Calculation} (h : Regular first l)
    (entering : l.entering = {c.text} + others)
    (shows : Shows c l.store.nextId c.text (.created, none)) :
    Regular first { l with
      entering := others
      flights := {⟨l.store.nextId, c.text, .fresh⟩} + l.flights
      store := (l.store.create c).2
      notices := ⟨.created, c⟩ :: l.notices } := by
  obtain ⟨next, fresh⟩ := h.fresh entering
  have space := h.space
  rw [entering, Multiset.card_add, Multiset.card_singleton] at space
  have named : c.id = some l.store.nextId := shows.id
  have unheard : labels l.notices l.store.nextId = [] := by rw [labels, h.unheard, List.map_nil]
  have heard : labels (⟨.created, c⟩ :: l.notices) l.store.nextId = ["created"] := by
    rw [labels_cons_self named, unheard, shows.status]
    rfl
  have other : ∀ {id}, id ≠ l.store.nextId →
      toldUnder (⟨.created, c⟩ :: l.notices) id = toldUnder l.notices id := by
    intro id different
    exact toldUnder_cons_other (fun same => different (Option.some.inj (same.symm.trans named))) _
  have spoken : ∀ {id}, labels l.notices id ≠ [] →
      labels (⟨.created, c⟩ :: l.notices) id ≠ [] := by
    intro id told
    have different : id ≠ l.store.nextId := by
      rintro rfl
      exact told unheard
    rwa [labels, other different]
  have introduced : ∀ {id}, Introduced l.notices id → Introduced (⟨.created, c⟩ :: l.notices) id := by
    rintro id ⟨d, member, is⟩
    exact ⟨d, .tail _ member, is⟩
  refine ⟨?_, ?_, ?_, ?_, ?_, ?_, ?_, h.once, ?_⟩
  · show (l.store.nextId + 1).toNat + others.card < UInt64.size
    omega
  · exact UInt64.le_of_lt (UInt64.lt_of_le_of_lt h.grown fresh)
  · rw [Multiset.singleton_add, Multiset.map_cons, Multiset.nodup_cons]
    refine ⟨fun member => ?_, h.distinct⟩
    obtain ⟨f, flying, same⟩ := Multiset.mem_map.1 member
    exact h.new f flying same
  · intro f member
    rw [Multiset.singleton_add, Multiset.mem_cons] at member
    rcases member with rfl | old
    · refine ⟨fresh, ?_, .inl ⟨c, .head _, named⟩, nofun⟩
      rw [heard, origin, if_pos h.grown]
      rfl
    · have tracked := h.flying f old
      refine ⟨UInt64.lt_trans tracked.issued fresh, ?_, tracked.source.imp_left introduced,
        tracked.pending⟩
      rw [labels, other (h.new f old)]
      exact tracked.told
  · intro id absent
    have different : id ≠ l.store.nextId := by
      rintro rfl
      exact absent _ (Multiset.mem_cons_self _ _) rfl
    rw [Complete, ends, labels, other different]
    exact h.landed id fun f old => absent f (Multiset.mem_cons_of_mem old)
  · intro id told
    by_cases same : id = l.store.nextId
    · subst same
      exact ⟨fresh, .inl ⟨c, .head _, named⟩⟩
    · rw [labels, other same] at told
      obtain ⟨issued, source⟩ := h.known id told
      exact ⟨UInt64.lt_trans issued fresh, source.imp_left introduced⟩
  · intro n member
    rcases List.mem_cons.1 member with rfl | old
    · exact ⟨_, named, fun _ => h.grown⟩
    · exact h.named n old
  · intro r member
    obtain ⟨id, named, told, hand⟩ := h.received r member
    refine ⟨id, named, spoken told, fun f flying same => ?_⟩
    rw [Multiset.singleton_add, Multiset.mem_cons] at flying
    rcases flying with rfl | old
    · subst same
      exact (told unheard).elim
    · exact hand f old same

theorem Regular.move {l' : Ledger} (h : Regular first l)
    (below : ∀ id, Resumed first id → id < first.nextId) (move : Move panics rejects l l') :
    Regular first l' := by
  cases move with
  | rest => exact h
  | created entering shows => exact h.created entering shows
  | forsaken split pending => exact h.forsaken below split pending
  | advanced split advance => exact h.advanced split advance.course

/-! ### The records -/

/-- The store agrees with what the listener was told: the record of a flight has not ended, and the
record of a number that has come to an end is what was told then. -/
structure Stored (l : Ledger) : Prop where
  kept : ∀ id c, l.store.find? id = some c → c.id = some id ∧ id < l.store.nextId
  flying : ∀ f ∈ l.flights, ∃ c, l.store.find? f.id = some c ∧ c.isTerminal = false ∧
    c.text = f.text
  ended : ∀ id, ∀ n ∈ ends l.notices id, l.store.find? id = some n.calculation

theorem mem_ends_cons {n m : Notice} {notices : List Notice} :
    m ∈ ends (n :: notices) id ↔
      m ∈ ends notices id ∨ (m = n ∧ n.calculation.id = some id ∧ n.calculation.isTerminal) := by
  by_cases named : n.calculation.id = some id
  · rw [ends, toldUnder_cons_self named, List.filter_append, List.mem_append, ← ends]
    by_cases terminal : n.calculation.isTerminal <;> simp [named, terminal]
  · rw [ends, toldUnder_cons_other named, ← ends]
    simp [named]

theorem Stored.find?_keep {f : Flight} {c : Calculation} (h : Stored l) (member : f ∈ l.flights)
    (named : c.id = some f.id) : (l.store.keep c).find? f.id = some c := by
  obtain ⟨old, found, unended, _⟩ := h.flying f member
  refine Store.find?_keep_of_open named fun old' found' => ?_
  rw [found] at found'
  exact Option.some.inj found' ▸ unended

theorem Course.find?_other (course : Course id text p e next) (other : key ≠ id) (l : Ledger) :
    (e.apply l).store.find? key = l.store.find? key := by
  have elsewhere : ∀ {c : Calculation}, c.id = some id →
      (l.store.keep c).find? key = l.store.find? key := fun named =>
    Store.find?_keep_of_id_ne fun hit => other (Option.some.inj (hit.symm.trans named))
  cases course with
  | quiet _ _ _ quiet => rcases quiet with rfl | ⟨c, rfl⟩ <;> rfl
  | taken => rfl
  | told named | ended named => exact elsewhere named

theorem Stored.told {others : Multiset Flight} {occasion : Occasion} {c : Calculation}
    (h : Stored l) (regular : Regular first l) (split : l.flights = {⟨id, text, p⟩} + others)
    (named : c.id = some id) (same : c.text = text) {next : Option Phase}
    (going : next.isSome → c.isTerminal = false) :
    Stored ((Effect.told occasion c).apply { l with flights := onward id text next + others }) := by
  have tracked := regular.flying ⟨id, text, p⟩ (by simp [split])
  have here : (l.store.keep c).find? id = some c :=
    h.find?_keep (f := ⟨id, text, p⟩) (by simp [split]) named
  have elsewhere : ∀ key, key ≠ id → (l.store.keep c).find? key = l.store.find? key := by
    intro key other
    exact Store.find?_keep_of_id_ne fun hit => other (Option.some.inj (hit.symm.trans named))
  refine ⟨?_, ?_, ?_⟩
  · intro key d present
    rw [Effect.nextId_apply]
    by_cases other : key = id
    · subst other
      rw [Effect.apply, here] at present
      cases present
      exact ⟨named, tracked.issued⟩
    · rw [Effect.apply, elsewhere key other] at present
      exact h.kept key d present
  · intro f member
    rw [Effect.flights_apply, mem_advanced] at member
    rcases member with ⟨q, rfl, rfl⟩ | old
    · exact ⟨c, here, going rfl, same⟩
    · obtain ⟨d, found, unended, sameText⟩ := h.flying f (by simp [split, old])
      exact ⟨d, (elsewhere f.id ((regular.alone split).1 f old)).trans found, unended, sameText⟩
  · intro key n member
    rw [Effect.apply, mem_ends_cons] at member
    by_cases other : key = id
    · subst other
      rcases member with before | ⟨rfl, -, -⟩
      · rw [tracked.ends_eq_nil] at before
        cases before
      · exact here
    · rw [Effect.apply, elsewhere key other]
      rcases member with before | ⟨-, hit, -⟩
      · exact h.ended key n before
      · exact (other (Option.some.inj (hit.symm.trans named))).elim

theorem Stored.advanced {others : Multiset Flight} (h : Stored l) (regular : Regular first l)
    (split : l.flights = {⟨id, text, p⟩} + others) (course : Course id text p e next) :
    Stored (e.apply { l with flights := onward id text next + others }) := by
  have unmoved : next.isSome → Stored { l with flights := onward id text next + others } := by
    intro going
    refine ⟨h.kept, fun f member => ?_, h.ended⟩
    rw [Multiset.mem_add, Multiset.mem_coe, mem_onward] at member
    rcases member with ⟨q, rfl, rfl⟩ | old
    · exact h.flying ⟨id, text, p⟩ (by simp [split])
    · exact h.flying f (by simp [split, old])
  cases course with
  | quiet _ _ _ quiet =>
    obtain ⟨kept, flying, ended⟩ := unmoved rfl
    rcases quiet with rfl | ⟨c, rfl⟩ <;> exact ⟨kept, flying, ended⟩
  | taken =>
    obtain ⟨kept, flying, ended⟩ := unmoved rfl
    exact ⟨kept, flying, ended⟩
  | told named same going => exact h.told regular split named same fun _ => going
  | ended named same => exact h.told regular split named same nofun

theorem Stored.created {others : Multiset String} {c : Calculation} (h : Stored l)
    (regular : Regular first l) (entering : l.entering = {c.text} + others)
    (shows : Shows c l.store.nextId c.text (.created, none)) :
    Stored { l with
      entering := others
      flights := {⟨l.store.nextId, c.text, .fresh⟩} + l.flights
      store := (l.store.create c).2
      notices := ⟨.created, c⟩ :: l.notices } := by
  have fresh := (regular.fresh entering).2
  have unended : c.isTerminal = false := by
    rw [Calculation.isTerminal, shows.status]
    rfl
  refine ⟨?_, ?_, ?_⟩
  · intro key d present
    rw [Store.find?_create] at present
    split at present
    · rename_i same
      subst same
      cases present
      exact ⟨rfl, fresh⟩
    · obtain ⟨named, issued⟩ := h.kept key d present
      exact ⟨named, UInt64.lt_trans issued fresh⟩
  · intro f member
    rw [Multiset.singleton_add, Multiset.mem_cons] at member
    rcases member with rfl | old
    · refine ⟨_, ?_, unended, rfl⟩
      rw [Store.find?_create, if_pos rfl]
      exact congrArg some (by rw [← shows.id])
    · obtain ⟨d, found, going, same⟩ := h.flying f old
      refine ⟨d, ?_, going, same⟩
      rw [Store.find?_create, if_neg (regular.new f old)]
      exact found
  · intro key n member
    rcases mem_ends_cons.1 member with before | ⟨rfl, -, terminal⟩
    · have different : key ≠ l.store.nextId := by
        rintro rfl
        rw [ends, regular.unheard] at before
        cases before
      rw [Store.find?_create, if_neg different]
      exact h.ended key n before
    · rw [unended] at terminal
      cases terminal

theorem Stored.move {l' : Ledger} (h : Stored l) (regular : Regular first l)
    (move : Move panics rejects l l') : Stored l' := by
  cases move with
  | rest => exact h
  | created entering shows => exact h.created regular entering shows
  | forsaken split pending =>
    exact ⟨h.kept, fun f member => h.flying f (by simp [split, member]), h.ended⟩
  | advanced split advance => exact h.advanced regular split advance.course

end Reckoner.Service
