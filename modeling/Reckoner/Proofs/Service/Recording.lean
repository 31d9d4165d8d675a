import Reckoner.Proofs.Service.Footprints
import Reckoner.Proofs.Service.Trails

/-!
# The store as the notices make it

A listener that passes everything on makes the store a record of the notices. `recorded_of_run` says
so of every run, and the other lemmas what that means for a single number: which copy is kept under
it, and that numbers are given out once until they begin again.
-/

namespace Reckoner.Service

variable {k : Collaborators} {s t : Service} {first store : Store} {ms : List Notice}
variable {id : Calculation.Id} {c : Calculation}

/-- The notices, latest first, and the store that they lead to from the first one. -/
inductive Recorded (first : Store) : List Notice → Store → Prop where
  | none : Recorded first [] first
  | created {ms : List Notice} {store : Store} (earlier : Recorded first ms store)
      (c : Calculation) :
      Recorded first (⟨.created, { c with id := some store.nextId }⟩ :: ms) (store.create c).2
  | kept {ms : List Notice} {store : Store} (earlier : Recorded first ms store) {m : Notice}
      (later : m.occasion ≠ .created) : Recorded first (m :: ms) (store.keep m.calculation)

theorem Touch.recorded (forwards : k.Forwards) (touch : Touch k s t)
    (h : Recorded first s.notices s.store) : Recorded first t.notices t.store := by
  cases touch with
  | read | paused | closed | moved => exact h
  | told occasion c later =>
    rw [tell_eq forwards]
    exact h.kept later
  | introduced c =>
    rw [introduce_eq forwards]
    exact h.created c

theorem recorded_of_run (forwards : k.Forwards) {actions : List Action}
    (ran : s.run k actions = some t) (h : Recorded first s.notices s.store) :
    Recorded first t.notices t.store := by
  induction actions generalizing s with
  | nil =>
    cases ran
    exact h
  | cons a rest ih =>
    rw [run_cons, Option.bind_eq_some_iff] at ran
    obtain ⟨u, happened, ran⟩ := ran
    refine ih ran (keeps_of_step (R := fun s t => Recorded first s.notices s.store →
      Recorded first t.notices t.store) (fun _ => id) (fun first second => second ∘ first)
      (fun touch => touch.recorded forwards) (fun _ _ _ => id) happened h)

namespace Recorded

/-! ### Records -/

/-- A number that was never told of has the record that it had. -/
theorem find?_of_unheard (h : Recorded first ms store)
    (unheard : ∀ m ∈ ms, m.calculation.id ≠ some id) : store.find? id = first.find? id := by
  induction h with
  | none => rfl
  | @created ms store _ c ih =>
    obtain ⟨other, unheard⟩ := List.forall_mem_cons.1 unheard
    have different : id ≠ store.nextId := fun same => other (same ▸ rfl)
    rw [Store.find?_create, if_neg different, ih unheard]
  | kept _ _ ih =>
    obtain ⟨other, unheard⟩ := List.forall_mem_cons.1 unheard
    rw [Store.find?_keep_of_id_ne other, ih unheard]

/-- The number is given out by what was told first under it, or its first record has not ended. -/
def Opens (first : Store) (ms : List Notice) (id : Calculation.Id) : Prop :=
  (∃ m rest, toldUnder ms id = m :: rest ∧ m.occasion = .created) ∨
    ∀ c, first.find? id = some c → c.isTerminal = false

theorem Opens.before {m : Notice} (h : Opens first (m :: ms) id)
    (named : m.calculation.id = some id) (later : m.occasion ≠ .created) : Opens first ms id := by
  refine h.imp_left ?_
  rintro ⟨b, rest, told, created⟩
  rw [toldUnder_cons_self named] at told
  cases earlier : toldUnder ms id with
  | nil =>
    rw [earlier] at told
    cases told
    exact (later created).elim
  | cons head tail =>
    rw [earlier] at told
    cases told
    exact ⟨_, tail, rfl, created⟩

theorem Opens.of_other {m : Notice} (h : Opens first (m :: ms) id)
    (other : m.calculation.id ≠ some id) : Opens first ms id := by
  rwa [Opens, toldUnder_cons_other other] at h

/-- As long as no end was told, the record has not ended. -/
theorem going (h : Recorded first ms store) (opens : Opens first ms id)
    (told : ∀ m ∈ toldUnder ms id, m.calculation.isTerminal = false) :
    ∀ c, store.find? id = some c → c.isTerminal = false := by
  induction h with
  | none =>
    rcases opens with ⟨b, rest, same, _⟩ | opens
    · cases same
    · exact opens
  | @created ms store _ c ih =>
    intro d found
    by_cases same : id = store.nextId
    · subst same
      rw [toldUnder_cons_self rfl] at told
      rw [Store.find?_create, if_pos rfl] at found
      cases found
      exact told _ (List.mem_append_right _ (.head _))
    · have other : some store.nextId ≠ some id := fun equal => same (Option.some.inj equal).symm
      rw [toldUnder_cons_other other] at told
      rw [Store.find?_create, if_neg same] at found
      exact ih (opens.of_other other) told d found
  | @kept ms store _ m later ih =>
    by_cases named : m.calculation.id = some id
    · rw [toldUnder_cons_self named, List.forall_mem_append] at told
      have before := ih (opens.before named later) told.1
      rw [Store.find?_keep_of_open named before]
      intro d found
      cases found
      exact told.2 m (.head _)
    · rw [toldUnder_cons_other named] at told
      rw [Store.find?_keep_of_id_ne named]
      exact ih (opens.of_other named) told

/-- As long as no end was told before, the record is one of the copies told since. -/
theorem find?_since (h : Recorded first ms store) (before after : List Notice)
    (opens : Opens first ms id) (told : toldUnder ms id = before ++ after) (news : after ≠ [])
    (going : ∀ b ∈ before, b.calculation.isTerminal = false) :
    ∃ m ∈ after, store.find? id = some m.calculation := by
  obtain ⟨init, last, rfl⟩ := (List.eq_nil_or_concat' after).resolve_left news
  induction h generalizing init last with
  | none => simp [toldUnder] at told
  | @created ms store _ c ih =>
    by_cases same : id = store.nextId
    · subst same
      rw [toldUnder_cons_self rfl, ← List.append_assoc] at told
      obtain ⟨_, equal⟩ := List.append_inj' told rfl
      cases equal
      exact ⟨_, List.mem_append_right _ (.head _), by rw [Store.find?_create, if_pos rfl]⟩
    · have other : some store.nextId ≠ some id := fun equal => same (Option.some.inj equal).symm
      rw [toldUnder_cons_other other] at told
      rw [Store.find?_create, if_neg same]
      exact ih (opens.of_other other) init last told news
  | @kept ms store earlier m later ih =>
    by_cases named : m.calculation.id = some id
    · rw [toldUnder_cons_self named, ← List.append_assoc] at told
      obtain ⟨same, equal⟩ := List.append_inj' told rfl
      cases equal
      have opens := opens.before named later
      rcases List.eq_nil_or_concat' init with rfl | ⟨init, last, rfl⟩
      · rw [List.append_nil] at same
        exact ⟨m, .head _, Store.find?_keep_of_open named (earlier.going opens (same ▸ going))⟩
      · obtain ⟨d, listed, found⟩ := ih opens init last same (by simp)
        cases ended : d.calculation.isTerminal with
        | true =>
          exact ⟨d, List.mem_append_left _ listed, Store.find?_keep_of_isTerminal found ended _⟩
        | false =>
          refine ⟨m, List.mem_append_right _ (.head _),
            Store.find?_keep_of_open named fun old same => ?_⟩
          cases found.symm.trans same
          exact ended
    · rw [toldUnder_cons_other named] at told
      rw [Store.find?_keep_of_id_ne named]
      exact ih (opens.of_other named) init last told news

/-- When an end was told, the record has ended, and it is one of the copies told. -/
theorem find?_of_ended (h : Recorded first ms store)
    (old : ∀ m ∈ ms, m.calculation.id = some id → m.occasion ≠ .created)
    (opens : ∀ c, first.find? id = some c → c.isTerminal = false)
    (ended : ∃ m ∈ ms, m.calculation.id = some id ∧ m.calculation.isTerminal = true) :
    ∃ m ∈ ms, m.calculation.id = some id ∧ m.calculation.isTerminal = true ∧
      store.find? id = some m.calculation := by
  induction h with
  | none =>
    obtain ⟨m, member, _⟩ := ended
    cases member
  | @created ms store _ c ih =>
    obtain ⟨this, old⟩ := List.forall_mem_cons.1 old
    have different : id ≠ store.nextId := fun same => this (same ▸ rfl) rfl
    have other : some store.nextId ≠ some id := fun equal => different (Option.some.inj equal).symm
    obtain ⟨m, member, named, terminal⟩ := ended
    rcases List.mem_cons.1 member with rfl | member
    · exact (other named).elim
    · obtain ⟨m, member, so⟩ := ih old ⟨m, member, named, terminal⟩
      rw [Store.find?_create, if_neg different]
      exact ⟨m, .tail _ member, so⟩
  | @kept ms store earlier m later ih =>
    obtain ⟨_, old⟩ := List.forall_mem_cons.1 old
    by_cases before : ∃ m ∈ ms, m.calculation.id = some id ∧ m.calculation.isTerminal = true
    · obtain ⟨b, member, named, terminal, found⟩ := ih old before
      exact ⟨b, .tail _ member, named, terminal,
        Store.find?_keep_of_isTerminal found terminal m.calculation⟩
    · obtain ⟨b, member, named, terminal⟩ := ended
      rcases List.mem_cons.1 member with rfl | member
      · refine ⟨b, .head _, named, terminal, Store.find?_keep_of_open named ?_⟩
        refine earlier.going (.inr opens) fun m told => ?_
        rw [toldUnder, List.mem_reverse, List.mem_filter, decide_eq_true_eq] at told
        exact Bool.eq_false_iff.2 fun terminal => before ⟨m, told.1, told.2, terminal⟩
      · exact (before ⟨b, member, named, terminal⟩).elim

/-! ### Numbers -/

/-- The numbers given out, latest first. -/
def numbers (ms : List Notice) : List (Option Calculation.Id) :=
  (ms.filter (·.occasion = .created)).map (·.calculation.id)

theorem numbers_created (c : Calculation) (ms : List Notice) :
    numbers (⟨.created, c⟩ :: ms) = c.id :: numbers ms := by
  simp [numbers]

theorem numbers_later {m : Notice} (later : m.occasion ≠ .created) (ms : List Notice) :
    numbers (m :: ms) = numbers ms := by
  simp [numbers, later]

theorem mem_numbers {m : Notice} (member : m ∈ ms) (created : m.occasion = .created) :
    m.calculation.id ∈ numbers ms :=
  List.mem_map.2 ⟨m, List.mem_filter.2 ⟨member, decide_eq_true created⟩, rfl⟩

theorem nextId_eq (h : Recorded first ms store) :
    store.nextId = first.nextId + UInt64.ofNat (numbers ms).length := by
  induction h with
  | none => simp [numbers]
  | created _ c ih =>
    rw [numbers_created, List.length_cons, UInt64.ofNat_add, ← UInt64.add_assoc, ← ih]
    rfl
  | kept _ later ih => rw [numbers_later later, Store.nextId_keep, ih]

theorem numbers_lt (h : Recorded first ms store) :
    ∀ x ∈ numbers ms, ∃ p < (numbers ms).length, x = some (first.nextId + UInt64.ofNat p) := by
  induction h with
  | none => exact List.forall_mem_nil _
  | created earlier c ih =>
    rw [numbers_created, List.length_cons]
    refine List.forall_mem_cons.2 ⟨⟨_, Nat.lt_succ_self _, congrArg some earlier.nextId_eq⟩, ?_⟩
    intro x member
    obtain ⟨p, less, same⟩ := ih x member
    exact ⟨p, Nat.lt_succ_of_lt less, same⟩
  | kept _ later ih => rwa [numbers_later later]

theorem nodup_numbers (h : Recorded first ms store) (space : (numbers ms).length ≤ UInt64.size) :
    (numbers ms).Nodup := by
  induction h with
  | none => exact List.nodup_nil
  | @created ms store earlier c ih =>
    rw [numbers_created, List.length_cons] at space
    rw [numbers_created, List.nodup_cons]
    refine ⟨fun again => ?_, ih (Nat.le_of_succ_le space)⟩
    obtain ⟨p, less, same⟩ := earlier.numbers_lt _ again
    have equal := (UInt64.add_right_inj _).1 (earlier.nextId_eq.symm.trans (Option.some.inj same))
    have word := congrArg UInt64.toNat equal
    simp only [UInt64.size] at space
    rw [UInt64.toNat_ofNat', UInt64.toNat_ofNat', Nat.mod_eq_of_lt (by omega),
      Nat.mod_eq_of_lt (by omega)] at word
    omega
  | kept _ later ih =>
    rw [numbers_later later] at space ⊢
    exact ih space

end Recorded

end Reckoner.Service
