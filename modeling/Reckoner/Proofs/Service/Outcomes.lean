import Reckoner.Proofs.Service.Session

/-!
# What calculations come to

What is recorded for a text, and what it charges, depend on the text alone. `Faithful` is the
invariant of the ledger behind this: each pause has an owner, and what a flight has charged so far
together with its outlook is the prospect of its text. `Serial` adds that a single worker charges
calculations one behind the other.
-/

namespace Reckoner.Service

variable {first : Store} {l l' : Ledger} {id key : Calculation.Id} {text : String} {p : Phase}
variable {e : Effect} {next : Option Phase}

/-! ### Prospects -/

/-- The operators that a text charges, and what it comes to. -/
def prospect (text : String) : Outlook :=
  match Formula.parse text with
  | .ok f => f.trace
  | .error e => ([], .error e)

/-- What is still to come of a calculation; nothing is known behind a panic. -/
def Phase.ahead (text : String) : Phase → Option Outlook
  | .pending | .fresh | .parsed | .queued | .taken => some (prospect text)
  | .calculating ahead => some ahead
  | .aborted => none

abbrev Owned :=
  Calculation.Id × Operator

def chargedTo (owned : List Owned) (id : Calculation.Id) : List Operator :=
  (owned.filter fun o => o.1 = id).map Prod.snd

theorem chargedTo_append_self (owned : List Owned) (id : Calculation.Id) (op : Operator) :
    chargedTo (owned ++ [(id, op)]) id = chargedTo owned id ++ [op] := by
  simp [chargedTo]

theorem chargedTo_append_other (owned : List Owned) (op : Operator) (other : key ≠ id) :
    chargedTo (owned ++ [(id, op)]) key = chargedTo owned key := by
  simp [chargedTo, Ne.symm other]

/-- What a calculation has charged and what is still to come are the prospect of its text. -/
def OnCourse (owned : List Owned) (f : Flight) : Prop :=
  ∃ ahead, f.phase.ahead f.text = some ahead ∧
    (chargedTo owned f.id ++ ahead.1, ahead.2) = prospect f.text

def Ledger.operators (l : Ledger) : List Operator :=
  l.charges.reverse.map Charge.op

/-! ### Advances -/

structure Attributed (id : Calculation.Id) (text : String) (e : Effect) (next : Option Phase)
    (l : Ledger) (owned owned' : List Owned) : Prop where
  log : owned'.map Prod.snd = (e.apply l).operators
  others : ∀ key, key ≠ id → chargedTo owned' key = chargedTo owned key
  onward : ∀ q, next = some q → OnCourse owned' ⟨id, text, q⟩
  ended : next = none → ∀ c, e = .told .completed c →
    (c.status, c.result) = verdict (prospect text).2 ∧ chargedTo owned' id = (prospect text).1

theorem Advance.attributed {owned : List Owned} (advance : Advance False False id text p e next)
    (log : owned.map Prod.snd = l.operators) (onCourse : OnCourse owned ⟨id, text, p⟩) :
    ∃ owned', Attributed id text e next l owned owned' := by
  obtain ⟨ahead, known, whole⟩ := onCourse
  have still : ∀ {q : Phase}, q.ahead text = some ahead → OnCourse owned ⟨id, text, q⟩ :=
    fun same => ⟨ahead, same, whole⟩
  cases advance with
  | reopened | parsed | queued | taken =>
    exact ⟨owned, log, fun _ _ => rfl, fun q same => Option.some.inj same ▸ still known, nofun⟩
  | begun _ _ _ right =>
    refine ⟨owned, log, fun _ _ => rfl, fun q same => Option.some.inj same ▸ still ?_, nofun⟩
    rw [← known, Phase.ahead, Phase.ahead, prospect, right]
  | @unparsed _ fault _ early wrong shows =>
    have prospect_eq : prospect text = ([], .error fault) := by rw [prospect, wrong]
    have same : ahead = prospect text := by
      rcases early with rfl | rfl <;> exact (Option.some.inj known).symm
    refine ⟨owned, log, fun _ _ => rfl, nofun, fun _ c told => ?_⟩
    cases told
    have charged := congrArg Prod.fst whole
    rw [same, prospect_eq] at charged
    rw [shows.status, shows.result, prospect_eq]
    exact ⟨rfl, by simpa using charged⟩
  | rejected late => exact late.elim
  | @charged charge rest =>
    cases known
    refine ⟨owned ++ [(id, charge.op)], ?_, fun key other => chargedTo_append_other _ _ other,
      fun q same => ?_, nofun⟩
    · rw [List.map_append, log]
      simp [Effect.apply, Ledger.operators]
    · cases same
      refine ⟨rest, rfl, ?_⟩
      rw [← whole, chargedTo_append_self, List.append_assoc]
      rfl
  | aborted panicking => exact panicking.elim
  | concluded shows =>
    cases known
    refine ⟨owned, log, fun _ _ => rfl, nofun, fun _ c told => ?_⟩
    cases told
    have charged := congrArg Prod.fst whole
    have outcome := congrArg Prod.snd whole
    rw [shows.status, shows.result, ← outcome, ← charged, List.append_nil]
    exact ⟨rfl, rfl⟩
  | recovered => cases known

/-! ### The invariant -/

/-- Each pause has an owner, and each calculation charges the prospect of its text and comes to what
that says. -/
structure Faithful (first : Store) (l : Ledger) (owned : List Owned) : Prop where
  log : owned.map Prod.snd = l.operators
  flying : ∀ f ∈ l.flights, OnCourse owned f
  idle : ∀ id, (∀ f ∈ l.flights, f.id ≠ id) → labels l.notices id = [] → chargedTo owned id = []
  landed : ∀ id c, (∀ f ∈ l.flights, f.id ≠ id) → labels l.notices id ≠ [] →
    l.store.find? id = some c →
    (c.status, c.result) = verdict (prospect c.text).2 ∧ chargedTo owned id = (prospect c.text).1
  heard : ∀ id c, l.store.find? id = some c →
    labels l.notices id ≠ [] ∨ first.find? id = some c

variable {owned : List Owned}

theorem OnCourse.chargedTo_eq_nil {f : Flight} (h : OnCourse owned f) (early : f.phase = .pending) :
    chargedTo owned f.id = [] := by
  obtain ⟨ahead, known, whole⟩ := h
  rw [early] at known
  cases known
  simpa using congrArg Prod.fst whole

theorem Faithful.forsaken {gone others : Multiset Flight} (h : Faithful first l owned)
    (regular : Regular first l) (below : ∀ id, Resumed first id → id < first.nextId)
    (split : l.flights = gone + others) (pending : ∀ f ∈ gone, f.phase = .pending) :
    Faithful first { l with flights := others } owned := by
  refine ⟨h.log, fun f member => h.flying f (by simp [split, member]), ?_, ?_, h.heard⟩
  · intro id absent silent
    rcases absent_cases split absent with ⟨f, member, rfl⟩ | none
    · exact (h.flying f (by simp [split, member])).chargedTo_eq_nil (pending f member)
    · exact h.idle id none silent
  · intro id c absent told found
    rcases absent_cases split absent with ⟨f, member, rfl⟩ | none
    · have tracked := regular.flying f (by simp [split, member])
      exact (told (tracked.unheard below (pending f member))).elim
    · exact h.landed id c none told found

theorem Faithful.created {others : Multiset String} {c : Calculation} (h : Faithful first l owned)
    (regular : Regular first l) (shows : Shows c l.store.nextId c.text (.created, none)) :
    Faithful first { l with
      entering := others
      flights := {⟨l.store.nextId, c.text, .fresh⟩} + l.flights
      store := (l.store.create c).2
      notices := ⟨.created, c⟩ :: l.notices } owned := by
  have uncharged : chargedTo owned l.store.nextId = [] :=
    h.idle _ regular.new (by rw [labels, regular.unheard, List.map_nil])
  have named : c.id = some l.store.nextId := shows.id
  have other : ∀ {id}, id ≠ l.store.nextId →
      labels (⟨.created, c⟩ :: l.notices) id = labels l.notices id := by
    intro id different
    rw [labels, toldUnder_cons_other, ← labels]
    exact fun same => different (Option.some.inj (same.symm.trans named))
  have new : ∀ {id}, (∀ f ∈ ({⟨l.store.nextId, c.text, .fresh⟩} : Multiset Flight) + l.flights,
      f.id ≠ id) → id ≠ l.store.nextId ∧ ∀ f ∈ l.flights, f.id ≠ id := by
    intro id absent
    refine ⟨?_, fun f member => absent f (Multiset.mem_cons_of_mem member)⟩
    rintro rfl
    exact absent _ (Multiset.mem_cons_self _ _) rfl
  refine ⟨h.log, ?_, ?_, ?_, ?_⟩
  · intro f member
    rw [Multiset.singleton_add, Multiset.mem_cons] at member
    rcases member with rfl | old
    · exact ⟨prospect c.text, rfl, by rw [uncharged, List.nil_append]⟩
    · exact h.flying f old
  · intro id absent silent
    obtain ⟨different, absent⟩ := new absent
    rw [other different] at silent
    exact h.idle id absent silent
  · intro id d absent told found
    obtain ⟨different, absent⟩ := new absent
    rw [other different] at told
    rw [Store.find?_create, if_neg different] at found
    exact h.landed id d absent told found
  · intro id d found
    by_cases same : id = l.store.nextId
    · subst same
      rw [labels_cons_self named]
      exact .inl (List.append_ne_nil_of_right_ne_nil _ (List.cons_ne_nil _ _))
    · rw [Store.find?_create, if_neg same] at found
      rw [other same]
      exact h.heard id d found

theorem Faithful.advanced {others : Multiset Flight} (h : Faithful first l owned)
    (regular : Regular first l) (stored : Stored l)
    (split : l.flights = {⟨id, text, p⟩} + others)
    (advance : Advance False False id text p e next) :
    ∃ owned',
      Faithful first (e.apply { l with flights := onward id text next + others }) owned' := by
  have member : ⟨id, text, p⟩ ∈ l.flights := by simp [split]
  have tracked := regular.flying _ member
  have course := advance.course
  obtain ⟨apart, _⟩ := regular.alone split
  obtain ⟨owned', attributed⟩ := advance.attributed
    (l := { l with flights := onward id text next + others }) h.log (h.flying _ member)
  refine ⟨owned', attributed.log, ?_, ?_, ?_, ?_⟩
  · intro f flying
    rw [Effect.flights_apply, mem_advanced] at flying
    rcases flying with ⟨q, going, rfl⟩ | old
    · exact attributed.onward q going
    · obtain ⟨ahead, known, whole⟩ := h.flying f (by simp [split, old])
      exact ⟨ahead, known, by rw [attributed.others f.id (apart f old), whole]⟩
  · intro key absent silent
    rw [Effect.flights_apply] at absent
    by_cases same : key = id
    · subst same
      obtain rfl := eq_none_of_absent absent
      obtain ⟨⟨ending, listed, told⟩, _⟩ := tracked.complete course
      rw [silent] at told
      have nonempty : ∀ ending ∈ endings, ending ≠ [] := by decide
      exact (nonempty ending listed (List.append_eq_nil_iff.1 told.symm).2).elim
    · rw [course.labels_other same] at silent
      rw [attributed.others key same]
      exact h.idle key (absent_before split same absent) silent
  · intro key d absent told found
    rw [Effect.flights_apply] at absent
    by_cases same : key = id
    · subst same
      obtain rfl := eq_none_of_absent absent
      cases course with
      | @ended _ c named sameText =>
        rw [Effect.apply, stored.find?_keep (f := ⟨key, text, p⟩) member named] at found
        cases found
        rw [sameText]
        exact attributed.ended rfl d rfl
    · rw [course.labels_other same] at told
      rw [course.find?_other same] at found
      rw [attributed.others key same]
      exact h.landed key d (absent_before split same absent) told found
  · intro key d found
    by_cases same : key = id
    · subst same
      cases course with
      | quiet _ _ _ quiet => rcases quiet with rfl | ⟨c, rfl⟩ <;> exact h.heard key d found
      | taken => exact h.heard key d found
      | told named | ended named =>
        rw [Effect.apply, labels_cons_self named]
        exact .inl (List.append_ne_nil_of_right_ne_nil _ (List.cons_ne_nil _ _))
    · rw [course.labels_other same]
      rw [course.find?_other same] at found
      exact h.heard key d found

theorem Faithful.move (h : Faithful first l owned) (regular : Regular first l) (stored : Stored l)
    (below : ∀ id, Resumed first id → id < first.nextId) (move : Move False False l l') :
    ∃ owned', Faithful first l' owned' := by
  cases move with
  | rest => exact ⟨owned, h⟩
  | created _ shows => exact ⟨owned, h.created regular shows⟩
  | forsaken split pending => exact ⟨owned, h.forsaken regular below split pending⟩
  | advanced split advance => exact h.advanced regular stored split advance

/-! ### Records and receipts -/

/-- The texts of the records and those still to be recorded are all texts there are. -/
def Accounted (total : Multiset String) (l : Ledger) : Prop :=
  l.entering + ↑(l.store.all.map Calculation.text) = total

theorem Accounted.move {total : Multiset String} (h : Accounted total l) (stored : Stored l)
    {panics rejects : Prop} (move : Move panics rejects l l') :
    Accounted total l' := by
  have kept : ∀ {f : Flight} {c : Calculation}, f ∈ l.flights → c.id = some f.id →
      c.text = f.text → (↑((l.store.keep c).all.map Calculation.text) : Multiset String) =
        ↑(l.store.all.map Calculation.text) := by
    intro f c member named same
    obtain ⟨old, found, _, oldText⟩ := stored.flying f member
    exact Multiset.coe_eq_coe.2 (Store.texts_keep found named (same.trans oldText.symm))
  cases move with
  | rest => exact h
  | @created others c entering shows =>
    have absent : l.store.find? l.store.nextId = none := by
      by_contra present
      obtain ⟨d, found⟩ := Option.ne_none_iff_exists'.1 present
      exact UInt64.lt_irrefl _ (stored.kept _ d found).2
    show others + ↑((l.store.create c).2.all.map Calculation.text) = total
    rw [Multiset.coe_eq_coe.2 (Store.texts_create absent c), ← Multiset.cons_coe, ← h, entering]
    simp only [Multiset.add_cons, Multiset.singleton_add, Multiset.cons_add]
  | forsaken => exact h
  | @advanced others id text p e next split advance =>
    have member : ⟨id, text, p⟩ ∈ l.flights := by simp [split]
    cases advance.course with
    | quiet _ _ _ quiet => rcases quiet with rfl | ⟨c, rfl⟩ <;> exact h
    | taken => exact h
    | told named same | ended named same =>
      rw [Accounted, Effect.apply, kept member named same]
      exact h

theorem Stored.text_stable (h : Stored l) {panics rejects : Prop}
    (move : Move panics rejects l l') {c : Calculation} (found : l.store.find? id = some c) :
    ∃ d, l'.store.find? id = some d ∧ d.text = c.text := by
  cases move with
  | rest | forsaken => exact ⟨c, found, rfl⟩
  | created =>
    refine ⟨c, ?_, rfl⟩
    rw [Store.find?_create, if_neg]
    · exact found
    · rintro rfl
      exact UInt64.lt_irrefl _ (h.kept _ c found).2
  | @advanced others id' text p e next split advance =>
    have member : ⟨id', text, p⟩ ∈ l.flights := by simp [split]
    have course := advance.course
    by_cases same : id = id'
    · subst same
      obtain ⟨old, found', _, oldText⟩ := h.flying _ member
      cases found.symm.trans found'
      cases course with
      | quiet _ _ _ quiet => rcases quiet with rfl | ⟨d, rfl⟩ <;> exact ⟨c, found, rfl⟩
      | taken => exact ⟨c, found, rfl⟩
      | @told _ _ d named sameText | @ended _ d named sameText =>
        exact ⟨d, h.find?_keep member named, sameText.trans oldText.symm⟩
    · exact ⟨c, by rw [course.find?_other same, found], rfl⟩

/-- What was received are the calculations whose texts are formulas. -/
structure Collected (l : Ledger) : Prop where
  sources : ∀ r ∈ l.received, (∃ f, Formula.parse r.1.text = .ok f) ∧
    ∃ id c, r.1.id = some id ∧ l.store.find? id = some c ∧ c.text = r.1.text
  inHand : ∀ f ∈ l.flights, f.phase.inHand = true → ∃ r ∈ l.received, r.1.id = some f.id
  landed : ∀ id c f, (∀ f ∈ l.flights, f.id ≠ id) → labels l.notices id ≠ [] →
    l.store.find? id = some c → Formula.parse c.text = .ok f → ∃ r ∈ l.received, r.1.id = some id

theorem Collected.advanced {others : Multiset Flight} (h : Collected l) (stored : Stored l)
    (split : l.flights = {⟨id, text, p⟩} + others) {panics : Prop}
    (advance : Advance panics False id text p e next) :
    Collected (e.apply { l with flights := onward id text next + others }) := by
  have member : ⟨id, text, p⟩ ∈ l.flights := by simp [split]
  have course := advance.course
  have move := Move.advanced l split advance
  have old : ∀ r ∈ l.received, r ∈ (e.apply { l with
      flights := onward id text next + others }).received := by
    intro r received
    cases e with
    | received => exact List.mem_append_left _ received
    | _ => exact received
  refine ⟨?_, ?_, ?_⟩
  · have kept : ∀ r ∈ l.received, (∃ f, Formula.parse r.1.text = .ok f) ∧
        ∃ id' c, r.1.id = some id' ∧
          (e.apply { l with flights := onward id text next + others }).store.find? id' = some c ∧
          c.text = r.1.text := by
      intro r received
      obtain ⟨right, id', c, named, found, sameText⟩ := h.sources r received
      obtain ⟨d, found', stable⟩ := stored.text_stable move found
      exact ⟨right, id', d, named, found', stable.trans sameText⟩
    intro r received
    cases advance with
    | @taken c worker f named same right =>
      rcases List.mem_append.1 received with earlier | new
      · exact kept r earlier
      · rw [List.mem_singleton.1 new]
        obtain ⟨d, found, _, sameText⟩ := stored.flying _ member
        exact ⟨⟨f, by rw [same, right]⟩, id, d, named, found, sameText.trans same.symm⟩
    | _ => exact kept r received
  · intro f flying inHand
    rw [Effect.flights_apply, mem_advanced] at flying
    rcases flying with ⟨q, rfl, rfl⟩ | other
    · have earlier : p.inHand = true → ∃ r ∈ (e.apply { l with
          flights := onward id text (some q) + others }).received, r.1.id = some id := by
        intro before
        obtain ⟨r, received, named⟩ := h.inHand _ member before
        exact ⟨r, old r received, named⟩
      cases course with
      | quiet _ hand | told _ _ _ _ hand => exact earlier (hand ▸ inHand)
      | @taken c worker named => exact ⟨(c, worker), by simp [Effect.apply], named⟩
    · obtain ⟨r, received, named⟩ := h.inHand f (by simp [split, other]) inHand
      exact ⟨r, old r received, named⟩
  · intro key c f absent told found right
    rw [Effect.flights_apply] at absent
    by_cases same : key = id
    · subst same
      obtain rfl := eq_none_of_absent absent
      have taken : p.inHand = true → ∃ r ∈ (e.apply { l with
          flights := onward key text none + others }).received, r.1.id = some key := by
        intro inHand
        obtain ⟨r, received, named⟩ := h.inHand _ member inHand
        exact ⟨r, old r received, named⟩
      cases advance with
      | unparsed _ wrong shows =>
        rw [Effect.apply, stored.find?_keep member shows.id] at found
        cases found
        rw [shows.text, wrong] at right
        cases right
      | rejected late => exact late.elim
      | concluded | recovered => exact taken rfl
    · rw [course.labels_other same] at told
      rw [course.find?_other same] at found
      obtain ⟨r, received, named⟩ :=
        h.landed key c f (absent_before split same absent) told found right
      exact ⟨r, old r received, named⟩

theorem Collected.move (h : Collected l) (regular : Regular first l) (stored : Stored l)
    (below : ∀ id, Resumed first id → id < first.nextId) {panics : Prop}
    (move : Move panics False l l') : Collected l' := by
  cases move with
  | rest => exact h
  | @created others c entering shows =>
    have move : Move panics False l _ := .created l entering shows
    refine ⟨?_, ?_, ?_⟩
    · intro r received
      obtain ⟨right, id, d, named, found, sameText⟩ := h.sources r received
      obtain ⟨d', found', stable⟩ := stored.text_stable move found
      exact ⟨right, id, d', named, found', stable.trans sameText⟩
    · intro f flying inHand
      rw [Multiset.singleton_add, Multiset.mem_cons] at flying
      rcases flying with rfl | old
      · cases inHand
      · exact h.inHand f old inHand
    · intro id d f absent told found right
      have different : id ≠ l.store.nextId := by
        rintro rfl
        exact absent _ (Multiset.mem_cons_self _ _) rfl
      have other : c.id ≠ some id := by
        rw [shows.id]
        exact fun same => different (Option.some.inj same).symm
      rw [labels, toldUnder_cons_other other, ← labels] at told
      rw [Store.find?_create, if_neg different] at found
      exact h.landed id d f (fun g member => absent g (Multiset.mem_cons_of_mem member)) told found
        right
  | @forsaken gone others split pending =>
    refine ⟨h.sources, fun f member => h.inHand f (by simp [split, member]), ?_⟩
    intro id c f absent told found right
    rcases absent_cases split absent with ⟨g, member, rfl⟩ | none
    · have tracked := regular.flying g (by simp [split, member])
      exact (told (tracked.unheard below (pending g member))).elim
    · exact h.landed id c f none told found right
  | advanced split advance => exact h.advanced stored split advance

/-! ### A single worker -/

/-- What was received charges one behind the other; a calculation in hand is the last. -/
structure Serial (l : Ledger) : Prop where
  busy : ∀ f ∈ l.flights, f.phase.inHand = true → ∀ ahead, f.phase.ahead f.text = some ahead →
    l.operators ++ ahead.1 = l.received.flatMap fun r => (prospect r.1.text).1
  free : (∀ f ∈ l.flights, f.phase.inHand = false) →
    l.operators = l.received.flatMap fun r => (prospect r.1.text).1

def OneInHand (l : Ledger) : Prop :=
  ∀ f ∈ l.flights, ∀ g ∈ l.flights, f.phase.inHand = true → g.phase.inHand = true → f.id = g.id

theorem OneInHand.others {others : Multiset Flight} {f : Flight} (h : OneInHand l)
    (split : l.flights = {f} + others) (apart : ∀ g ∈ others, g.id ≠ f.id)
    (inHand : f.phase.inHand = true) :
    ∀ g ∈ others, g.phase.inHand = false := by
  intro g member
  by_contra busy
  refine apart g member (h g ?_ f ?_ (by simpa using busy) inHand)
  · rw [split]
    exact Multiset.mem_add.2 (.inr member)
  · rw [split]
    exact Multiset.mem_add.2 (.inl (Multiset.mem_singleton_self f))

/-- A flight that is not in hand before or after leaves the order of charges alone. -/
theorem Serial.outside {others : Multiset Flight} (h : Serial l)
    (split : l.flights = {⟨id, text, p⟩} + others) (before : p.inHand = false)
    (after : ∀ q, next = some q → q.inHand = false) {flights : Multiset Flight}
    (joined : flights = ↑(onward id text next) + others) {store : Store} {notices : List Notice} :
    Serial { l with flights := flights, store := store, notices := notices } := by
  subst joined
  refine ⟨fun f flying inHand => ?_, fun idle => h.free fun f member => ?_⟩
  · rw [mem_advanced] at flying
    rcases flying with ⟨q, going, rfl⟩ | other
    · rw [after q going] at inHand
      cases inHand
    · exact h.busy f (by simp [split, other]) inHand
  · rw [split, Multiset.singleton_add, Multiset.mem_cons] at member
    rcases member with rfl | other
    · exact before
    · exact idle f (Multiset.mem_add.2 (.inr other))

/-- The calculation in hand decides about the order of charges. -/
theorem Serial.of_busy {others : Multiset Flight} {q : Phase} {charges : List Charge}
    {received : List (Calculation × Nat)} {store : Store} {notices : List Notice}
    (idle : ∀ g ∈ others, g.phase.inHand = false) (inHand : q.inHand = true)
    (whole : ∀ ahead, q.ahead text = some ahead →
      (charges.reverse.map Charge.op) ++ ahead.1 =
        received.flatMap fun r => (prospect r.1.text).1) :
    Serial { l with
      flights := ↑(onward id text (some q)) + others
      store := store
      notices := notices
      charges := charges
      received := received } := by
  refine ⟨fun f flying busy ahead known => ?_, fun free => ?_⟩
  · rw [mem_advanced] at flying
    rcases flying with ⟨q, same, rfl⟩ | other
    · cases same
      exact whole ahead known
    · rw [idle f other] at busy
      cases busy
  · rw [free ⟨id, text, q⟩ (by simp [onward])] at inHand
    cases inHand

theorem Serial.advanced {others : Multiset Flight} (h : Serial l) (regular : Regular first l)
    (split : l.flights = {⟨id, text, p⟩} + others)
    (advance : Advance False False id text p e next) (known : p.ahead text ≠ none)
    (before : OneInHand l)
    (after : OneInHand (e.apply { l with flights := onward id text next + others })) :
    Serial (e.apply { l with flights := onward id text next + others }) := by
  have member : ⟨id, text, p⟩ ∈ l.flights := by simp [split]
  obtain ⟨apart, _⟩ := regular.alone split
  have others_idle : p.inHand = true → ∀ g ∈ others, g.phase.inHand = false :=
    before.others split apart
  cases advance with
  | reopened | parsed | queued => exact h.outside split rfl (fun _ same => by cases same; rfl) rfl
  | unparsed early =>
    refine h.outside split ?_ (fun q same => nomatch (same : none = some q)) rfl
    rcases early with rfl | rfl <;> rfl
  | rejected late => exact late.elim
  | @taken c worker f named same =>
    have idle : ∀ g ∈ others, g.phase.inHand = false :=
      after.others (f := ⟨id, text, .taken⟩) rfl apart rfl
    refine .of_busy idle rfl fun ahead known => ?_
    cases known
    have free := h.free fun g flying => by
      rw [split, Multiset.singleton_add, Multiset.mem_cons] at flying
      rcases flying with rfl | other
      · rfl
      · exact idle g other
    rw [List.flatMap_append, ← free, List.flatMap_singleton, same]
    rfl
  | @begun c f _ _ _ right =>
    refine .of_busy (others_idle rfl) rfl fun ahead known => ?_
    cases known
    have whole := h.busy _ member rfl (prospect text) rfl
    rw [prospect, right] at whole
    exact whole
  | @charged charge rest =>
    refine .of_busy (others_idle rfl) rfl fun ahead known => ?_
    cases known
    have whole := h.busy _ member rfl _ rfl
    rw [← whole]
    simp [Ledger.operators]
  | aborted panicking => exact panicking.elim
  | concluded =>
    refine ⟨fun f flying busy => ?_, fun _ => ?_⟩
    · rw [Effect.flights_apply, Multiset.mem_add] at flying
      rcases flying with none | other
      · cases none
      · rw [others_idle rfl f other] at busy
        cases busy
    · have whole := h.busy _ member rfl _ rfl
      rw [List.append_nil] at whole
      exact whole
  | recovered => exact (known rfl).elim

theorem Serial.move (h : Serial l) (regular : Regular first l) (faithful : Faithful first l owned)
    (before : OneInHand l) (after : OneInHand l') (move : Move False False l l') : Serial l' := by
  cases move with
  | rest => exact h
  | @created others c entering shows =>
    refine ⟨fun f flying busy => ?_, fun free => ?_⟩
    · rw [Multiset.singleton_add, Multiset.mem_cons] at flying
      rcases flying with rfl | old
      · cases busy
      · exact h.busy f old busy
    · exact h.free fun f member => free f (Multiset.mem_cons_of_mem member)
  | @forsaken gone others split pending =>
    refine ⟨fun f member => h.busy f (by simp [split, member]), fun free => ?_⟩
    refine h.free fun f member => ?_
    rw [split, Multiset.mem_add] at member
    rcases member with member | member
    · rw [pending f member]
      rfl
    · exact free f member
  | @advanced others id text p e next split advance =>
    refine h.advanced regular split advance ?_ before after
    obtain ⟨ahead, known, _⟩ := faithful.flying ⟨id, text, p⟩ (by simp [split])
    rw [known]
    exact nofun

end Reckoner.Service
