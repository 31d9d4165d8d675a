import Mathlib.Algebra.BigOperators.Group.Finset.Piecewise
import Mathlib.Algebra.Order.BigOperators.Group.Finset
import Reckoner.Proofs.Service.Closing

/-!
# Occupancy

What the workers show agrees with what the listener was told, whoever panics: whatever was told as
calculating and not yet at its end is shown by one busy worker, from before the first to after the
second. `Shift.agrees` says so of every moment of a shift, and that no more calculations were handed
over than there are workers and ends told.
-/

namespace Reckoner

namespace Service

variable {k : Collaborators} {s t : Service} {n : Nat} {table : CostTable} {store : Store}

/-! ### What was told -/

/-- Whether the notices do not tell the end of a calculation under the number. -/
def Unended (told : List Notice) (id : Option Calculation.Id) : Prop :=
  ∀ m ∈ told, m.calculation.id = id → m.calculation.isTerminal = false

/-- Whether a calculation under the number was told as calculating and has not been told at its end
since; the notices are latest first. -/
def Underway (notices : List Notice) (id : Calculation.Id) : Prop :=
  ∃ later m earlier, notices = later ++ m :: earlier ∧ m.calculation.id = some id ∧
    m.calculation.status = .calculating ∧
    Unended later (some id)

/-- Whatever was told as calculating, and not at its end since, is in the hands of a worker. -/
def Covered (s : Service) : Prop :=
  ∀ (later : List Notice) (m : Notice) (earlier : List Notice), s.notices = later ++ m :: earlier →
    m.calculation.status = .calculating → Unended later m.calculation.id →
    ∃ (j : Nat) (w : Worker), s.workers[j]? = some w ∧
      w.stage.standing = .calculating m.calculation

theorem Covered.told (h : s.Covered) {told : List Notice} (same : t.notices = told ++ s.notices)
    (stays : ∀ (j : Nat) (w : Worker) (c : Calculation), s.workers[j]? = some w →
      w.stage.standing = .calculating c → Unended told c.id →
      ∃ w', t.workers[j]? = some w' ∧ w'.stage.standing = .calculating c)
    (first : ∀ m ∈ told, m.calculation.status = .calculating →
      ∃ (j : Nat) (w : Worker), t.workers[j]? = some w ∧
        w.stage.standing = .calculating m.calculation) : t.Covered := by
  intro later m earlier split calculating unended
  rw [same] at split
  -- The notice was there before, or it is one of the new ones.
  rcases List.append_eq_append_iff.1 split with ⟨since, rfl, before⟩ | ⟨rest, rfl, before⟩
  · obtain ⟨j, w, here, standing⟩ :=
      h since m earlier before calculating fun m' member => unended m' (List.mem_append_right _ member)
    obtain ⟨w', there, standing'⟩ :=
      stays j w _ here standing fun m' member => unended m' (List.mem_append_left _ member)
    exact ⟨j, w', there, standing'⟩
  · cases rest with
    | nil =>
      obtain ⟨j, w, here, standing⟩ :=
        h [] m earlier (by simpa using before.symm) calculating (List.forall_mem_nil _)
      obtain ⟨w', there, standing'⟩ :=
        stays j w _ here standing (by simpa using unended)
      exact ⟨j, w', there, standing'⟩
    | cons m' rest =>
      cases before
      exact first m (by simp) calculating

theorem WorkerTurn.told {view view' : WorkerView} {before after : Standing}
    (turn : WorkerTurn k s t view before after view') : ∃ told, t.notices = told ++ s.notices ∧
      (∀ c, before = .calculating c → Unended told c.id → after = .calculating c) ∧
      ∀ m ∈ told, m.calculation.status = .calculating → after = .calculating m.calculation := by
  cases turn with
  | left quiet | shown quiet | excused quiet | released quiet =>
    refine ⟨[], quiet.notices, ?_, List.forall_mem_nil _⟩
    rintro _ ⟨⟩
  | going quiet => exact ⟨[], quiet.notices, fun _ same _ => same, List.forall_mem_nil _⟩
  | begun told =>
    refine ⟨_, told.notices, ?_, List.forall_mem_singleton.2 fun _ => rfl⟩
    rintro _ ⟨⟩
  | ended told ends | lost told ends =>
    refine ⟨_, told.notices, ?_, List.forall_mem_singleton.2 fun calculating => ?_⟩
    · rintro _ same unended
      cases same
      have pending := unended _ (.head _) ends.id
      rw [ends.terminal] at pending
      cases pending
    · exact (not_calculating_of_isTerminal ends.terminal calculating).elim

/-- A worker only tells of what it has in hand, and shows the same before and after. -/
theorem WorkerTurn.view_of_told {view view' : WorkerView} {before after : Standing}
    (turn : WorkerTurn k s t view before after view') {m : Notice}
    (told : t.notices = m :: s.notices) : view' = view ∧
      ∃ c, (before = .shown c ∨ before = .calculating c) ∧ c.id = m.calculation.id := by
  cases turn with
  | left quiet | shown quiet | going quiet | excused quiet | released quiet =>
    exact (List.cons_ne_self m s.notices (told.symm.trans quiet.notices)).elim
  | begun news =>
    cases List.head_eq_of_cons_eq (told.symm.trans news.notices)
    exact ⟨rfl, _, .inl rfl, rfl⟩
  | ended news ends | lost news ends =>
    cases List.head_eq_of_cons_eq (told.symm.trans news.notices)
    exact ⟨rfl, _, .inr rfl, ends.id.symm⟩

theorem covered_opened (n : Nat) (table : CostTable) (store : Store) :
    (opened n table store).Covered := by
  intro later m earlier split
  simp [opened] at split

theorem ActionTurn.covered {a : Action} (turn : ActionTurn k s a t) (h : s.Covered) :
    t.Covered := by
  cases turn with
  | @worker i w w' u here turn =>
    obtain ⟨told, same, stays, first⟩ := turn.told
    have there : (s.workers.set i w')[i]? = some w' := getElem?_set_of_getElem? here
    refine h.told same ?_ fun m member calculating => ⟨i, w', there, first m member calculating⟩
    intro j v c present standing unended
    by_cases own : i = j
    · subst own
      cases here.symm.trans present
      exact ⟨w', there, stays c standing unended⟩
    · exact ⟨v, (List.getElem?_set_ne own).trans present, standing⟩
  | caller here turn =>
    obtain ⟨workers, _, told, same, outside⟩ := turn.frame
    refine h.told same ?_ fun m member calculating => ((outside m member).idle calculating).elim
    intro j w c present standing _
    exact ⟨w, (congrArg (·[j]?) workers).trans present, standing⟩
  | @handedOver i l c next view _ waiting =>
    refine h.told (List.nil_append s.notices).symm ?_ (List.forall_mem_nil _)
    intro j w d present standing _
    have other : l ≠ j := by
      rintro rfl
      cases waiting.symm.trans present
      cases standing
    exact ⟨w, (List.getElem?_set_ne other).trans present, standing⟩
  | used | dropped | called | repriced => exact h

/-! ### What is shown -/

theorem Reported.told_end {cs : List Calculation} {told : List Notice} (h : Reported cs told)
    {m : Notice} (last : told.getLast? = some m) : m.calculation.isTerminal = true := by
  cases h with
  | none => cases last
  | more _ ends =>
    simp only [List.getLast?_append, List.getLast?_cons_cons, List.getLast?_singleton,
      Option.some_or, Option.some.injEq] at last
    exact last ▸ ends.terminal

theorem Reported.length_eq {cs : List Calculation} {told : List Notice} (h : Reported cs told) :
    cs.length = told.countP (·.calculation.isTerminal) := by
  induction h with
  | none => rfl
  | more _ ends ih =>
    rw [List.length_append, List.countP_append, ih]
    simp only [List.countP_cons, List.countP_nil, ends.terminal]
    rfl

namespace Duty

variable {index : UInt64} {standing : Standing} {view : WorkerView} {cs : List Calculation}
  {told : List Notice}

theorem index_eq (h : Duty index standing view cs told) : view.index = index := by
  cases h <;> rfl

/-- A worker that is shown as idle shows no calculation; one that is shown as busy shows the one that
it received last, and has not come back with it. -/
theorem view_cases (h : Duty index standing view cs told) : view = .idle index ∨
    ∃ c, cs.getLast? = some c ∧ view = ⟨index, .busy, c.id⟩ ∧ standing ≠ .resting ∧
      standing ≠ .left := by
  cases h with
  | resting | taken | left => exact .inl rfl
  | shown | calculating | ended | lost =>
    exact .inr ⟨_, List.getLast?_concat, rfl, nofun, nofun⟩

/-- A worker shows what it is about to tell as calculating, or has told and not yet ended. -/
theorem view_of_open (h : Duty index standing view cs told) {c : Calculation}
    (same : standing = .shown c ∨ standing = .calculating c) : view = ⟨index, .busy, c.id⟩ := by
  cases h with
  | shown | calculating =>
    rcases same with same | same <;> cases same
    rfl
  | _ => rcases same with same | same <;> cases same

/-- Only what a worker has in hand was told as calculating and not yet at its end. -/
theorem of_told (h : Duty index standing view cs told) {m : Notice}
    (last : told.getLast? = some m) (calculating : m.calculation.status = .calculating) :
    view = ⟨index, .busy, m.calculation.id⟩ := by
  have never : ∀ {cs : List Calculation}, ¬ Reported cs told := fun reported =>
    not_calculating_of_isTerminal (reported.told_end last) calculating
  cases h with
  | calculating reported =>
    rw [List.getLast?_concat] at last
    cases last
    rfl
  | resting reported | taken reported | shown reported | ended reported | left reported
  | lost reported => exact (never reported).elim

/-- Of what a worker received, all but at most the last was told as calculating and at its end. -/
theorem all_but_last (h : Duty index standing view cs told) : ∃ before last told',
    cs = before ++ last ∧ last.length ≤ 1 ∧ told' <+: told ∧ Reported before told' := by
  cases h with
  | resting reported | left reported | ended reported | lost reported =>
    exact ⟨_, [], _, (List.append_nil _).symm, Nat.zero_le _, List.prefix_rfl, reported⟩
  | taken reported | shown reported =>
    exact ⟨_, [_], _, rfl, Nat.le_refl _, List.prefix_rfl, reported⟩
  | calculating reported =>
    exact ⟨_, [_], _, rfl, Nat.le_refl _, List.prefix_append _ _, reported⟩

theorem length_le (h : Duty index standing view cs told) :
    cs.length ≤ told.countP (·.calculation.isTerminal) + 1 := by
  obtain ⟨before, last, told', rfl, few, earlier, reported⟩ := h.all_but_last
  have ends := earlier.sublist.countP_le (p := fun m => m.calculation.isTerminal)
  rw [List.length_append, reported.length_eq]
  omega

end Duty

/-! ### Counting -/

theorem sum_countP_ofWorker {α : Type} {p : α → Bool} {entries : List (α × Nat)}
    (inside : ∀ r ∈ entries, r.2 < n) :
    ∑ j ∈ Finset.range n, (ofWorker j entries).countP p = entries.countP fun r => p r.1 := by
  have split : ∀ j entries, (ofWorker j entries).countP p =
      entries.countP fun r : α × Nat => p r.1 && decide (r.2 = j) := by
    intro j entries
    rw [ofWorker, List.countP_map, List.countP_filter]
    rfl
  simp only [split]
  induction entries with
  | nil => simp
  | cons r rest ih =>
    have within := inside r (.head _)
    simp only [List.countP_cons, Finset.sum_add_distrib, ih fun r member => inside r (.tail _ member)]
    congr 1
    cases p r.1 <;> simp [within]

/-- How many calculations a caller has handed over for certain before it goes on. -/
def Then.handovers : Then → Nat
  | .resume _ count => count
  | _ => 0

/-- How many calculations a caller has handed over for certain. -/
def Caller.handovers : Caller → Nat
  | .resume _ count | .reopen _ _ count | .done (.resumed count) => count
  | .announce _ _ next | .send _ next | .offer _ next => next.handovers
  | .done (.submitted c) => if c.status = .queued then 1 else 0
  | .done .accepted => 1
  | _ => 0

theorem CallerTurn.handovers_le {c c' : Caller} (turn : CallerTurn k s t c c') :
    c'.handovers ≤ c.handovers := by
  cases turn with
  | unparsed _ _ failed => simp [Caller.handovers, failed]
  | reserved | exhausted | skipped | reopening | reopened | unreadable | announced | sent
  | requested => exact Nat.le_refl _
  | _ => exact Nat.zero_le _

theorem handovers_handedOver {c : Calculation} (queued : c.status = .queued) (next : Then) :
    (handedOver c next).handovers = next.handovers + 1 := by
  cases next with
  | submitted => simp [handedOver, Caller.handovers, Then.handovers, queued]
  | accepted | resume => rfl

theorem Caller.handovers_of_isCall {c : Caller} (call : c.isCall = true) : c.handovers = 0 := by
  cases c with
  | resume rest count =>
    cases count with
    | zero => rfl
    | succ count => cases call
  | submit | request | acquire | close => rfl
  | _ => cases call

def handovers (s : Service) : Nat :=
  totalWork Caller.handovers s.callers

theorem ActionTurn.handovers_le {a : Action} (turn : ActionTurn k s a t) (orderly : s.Orderly) :
    t.handovers ≤ s.handovers + (s.receipt a).length := by
  have changed : ∀ {i : Nat} {c : Caller}, s.callers[i]? = some c → ∀ c' : Caller,
      totalWork Caller.handovers (s.callers.set i c') + c.handovers =
        s.handovers + c'.handovers := fun here c' => totalWork_set Caller.handovers here c'
  cases turn with
  | worker _ turn =>
    obtain ⟨_, follows⟩ := turn.follows
    exact Nat.le_of_eq (congrArg (totalWork Caller.handovers) follows.callers)
  | @caller i c c' u here turn =>
    have less := turn.handovers_le
    have total := changed here c'
    dsimp only [handovers] at total ⊢
    omega
  | @handedOver i l c next view offering waiting =>
    have total := changed offering (Service.handedOver c next)
    rw [handovers_handedOver (orderly.callers _ (List.mem_of_getElem? offering))] at total
    simp only [receipt, offering, List.length_singleton]
    have same : (Caller.offer c next).handovers = next.handovers := rfl
    dsimp only [handovers] at total ⊢
    omega
  | @used i c holding =>
    exact Nat.le_of_eq (changed holding (.send c .accepted))
  | @dropped i holding => exact Nat.le_of_eq (changed holding (.done .dropped))
  | @called c call =>
    dsimp only [handovers]
    rw [totalWork_append, totalWork, Caller.handovers_of_isCall call]
    exact Nat.le_refl _
  | repriced => exact Nat.le_refl _

/-! ### In hand -/

/-- Whether a worker has the calculation in hand: it received it last and has not come back from it to
the rendezvous. -/
def InHand (s : Service) (received : List (Calculation × Nat)) (j : Nat) (c : Calculation) : Prop :=
  (ofWorker j received).getLast? = some c ∧ ∃ w, s.workers[j]? = some w ∧
    w.stage.standing ≠ .resting ∧ w.stage.standing ≠ .left

/-- No number is in the hands of two workers. -/
def AtMostOnce (s : Service) (received : List (Calculation × Nat)) : Prop :=
  ∀ i j c d id, InHand s received i c → InHand s received j d → c.id = some id → d.id = some id →
    i = j

theorem mem_ofWorker {α : Type} {j : Nat} {a : α} {entries : List (α × Nat)} :
    a ∈ ofWorker j entries ↔ (a, j) ∈ entries := by
  simp [ofWorker]

theorem atMostOnce_of_nodup {received : List (Calculation × Nat)}
    (once : (received.map fun r => r.1.id).Nodup) : AtMostOnce s received := by
  intro i j c d id here there same same'
  have first := mem_ofWorker.1 (List.mem_of_getLast? here.1)
  have second := mem_ofWorker.1 (List.mem_of_getLast? there.1)
  exact congrArg Prod.snd (List.inj_on_of_nodup_map once first second (same.trans same'.symm))

namespace Shift

variable {actions : List Action}

theorem covered (h : Shift k n table store actions s) : s.Covered :=
  h.keeps (P := fun s _ _ => s.Covered) (covered_opened n table store)
    fun _ before turn => turn.covered before

theorem handovers_le (h : Shift k n table store actions s) : s.handovers ≤ h.received.length :=
  h.keeps (P := fun s received _ => s.handovers ≤ received.length) (Nat.le_refl _)
    fun {s t a received reported} orderly before turn => by
      have more := turn.handovers_le orderly
      rw [List.length_append]
      omega

theorem duty_of_view (h : Shift k n table store actions s) {j : Nat} {view : WorkerView}
    (shown : s.views[j]? = some view) : ∃ w, s.workers[j]? = some w ∧
      Duty (UInt64.ofNat j) w.stage.standing view (ofWorker j h.received)
        (ofWorker j h.reported) := by
  rw [views, List.getElem?_map, Option.map_eq_some_iff] at shown
  obtain ⟨w, here, rfl⟩ := shown
  exact ⟨w, here, h.dutiful j w here⟩

theorem inHand_of_view (h : Shift k n table store actions s) {j : Nat} {view : WorkerView}
    {id : Calculation.Id} (shown : s.views[j]? = some view) (current : view.current = some id) :
    ∃ c, InHand s h.received j c ∧ c.id = some id := by
  obtain ⟨w, here, duty⟩ := h.duty_of_view shown
  rcases duty.view_cases with rfl | ⟨c, last, rfl, back, left⟩
  · cases current
  · exact ⟨c, ⟨last, w, here, back, left⟩, current⟩

theorem received_le (h : Shift k n table store actions s) :
    h.received.length ≤ n + h.reported.countP fun r => r.1.calculation.isTerminal := by
  have each : ∀ j ∈ Finset.range n, (ofWorker j h.received).countP (fun _ => true) ≤
      (ofWorker j h.reported).countP (·.calculation.isTerminal) + 1 := by
    intro j inside
    rw [Finset.mem_range, ← h.length_workers] at inside
    rw [List.countP_true]
    exact (h.dutiful j _ (List.getElem?_eq_getElem inside)).length_le
  have all := Finset.sum_le_sum each
  rw [Finset.sum_add_distrib, sum_countP_ofWorker h.numbers.1, sum_countP_ofWorker h.numbers.2,
    List.countP_true] at all
  simpa [Nat.add_comm] using all

theorem view_of_told (h : Shift k n table store actions s) {j : Nat} {m : Notice}
    (happened : s.step k (.worker j) = some t) (told : t.notices = m :: s.notices) :
    s.views[j]? = some ⟨UInt64.ofNat j, .busy, m.calculation.id⟩ ∧ t.views[j]? = s.views[j]? := by
  cases step_turn h.orderly (a := .worker j) trivial happened with
  | @worker _ w w' u here turn =>
    obtain ⟨same, c, standing, id⟩ := turn.view_of_told told
    have shown := (h.dutiful j w here).view_of_open standing
    have there : (s.workers.set j w')[j]? = some w' := getElem?_set_of_getElem? here
    simp only [views, List.getElem?_map, here, there, Option.map_some, same]
    exact ⟨congrArg some (shown.trans (id ▸ rfl)), trivial⟩

end Shift

/-- What the workers show, at one moment of a run. -/
structure Agrees (k : Collaborators) (n : Nat) (s : Service) (received : List (Calculation × Nat))
    (reported : List (Notice × Nat)) : Prop where
  /-- All workers are listed, in their order. -/
  listed : s.views.map WorkerView.index = (List.range n).map UInt64.ofNat
  /-- Whatever was told as calculating, and not at its end since, is shown by exactly one worker, and
  that one is busy. -/
  underway : ∀ id, Underway s.notices id →
    ∃ j, s.views[j]? = some ⟨UInt64.ofNat j, .busy, some id⟩ ∧
      ∀ (i : Nat) view, s.views[i]? = some view → view.current = some id → i = j
  /-- It is shown by the worker that told so, as long as this one has not told its end. -/
  unbroken : ∀ j m, (ofWorker j reported).getLast? = some m → m.calculation.status = .calculating →
    s.views[j]? = some ⟨UInt64.ofNat j, .busy, m.calculation.id⟩
  /-- It is shown just before and just after a worker tells of it. -/
  told : ∀ j t m, s.step k (.worker j) = some t → t.notices = m :: s.notices →
    s.views[j]? = some ⟨UInt64.ofNat j, .busy, m.calculation.id⟩ ∧ t.views[j]? = s.views[j]?
  /-- No two busy workers show the same number. -/
  distinct : ∀ (i j : Nat) v v' id, s.views[i]? = some v → s.views[j]? = some v' →
    v.state = .busy → v'.state = .busy → v.current = some id → v'.current = some id → i = j
  idle : ∀ v ∈ s.views, v.state = .idle → v.current = none
  /-- Of what a worker received, all but at most the last was told as calculating and at its end. -/
  finished : ∀ j, ∃ before last told, ofWorker j received = before ++ last ∧ last.length ≤ 1 ∧
    told <+: ofWorker j reported ∧ Reported before told
  /-- No more was handed over than there are workers and ends told. -/
  room : received.length ≤ n + reported.countP fun r => r.1.calculation.isTerminal
  /-- Callers only go on with what was handed over. -/
  handed : s.handovers ≤ received.length

/-- At every moment of a shift in which no number is in two hands, what the workers show agrees with
what was told. -/
theorem Shift.agrees {actions : List Action} (h : Shift k n table store actions s)
    (once : AtMostOnce s h.received) : Agrees k n s h.received h.reported where
  listed := by
    refine List.ext_getElem (by simp [views, h.length_workers]) fun j inside _ => ?_
    rw [List.length_map] at inside
    obtain ⟨w, here, duty⟩ := h.duty_of_view (List.getElem?_eq_getElem inside)
    rw [List.getElem_map, List.getElem_map, List.getElem_range, duty.index_eq]
  underway := by
    rintro id ⟨later, m, earlier, split, named, calculating, unended⟩
    obtain ⟨j, w, here, standing⟩ := h.covered later m earlier split calculating (named ▸ unended)
    have shown := (h.dutiful j w here).view_of_open (.inr standing)
    rw [named] at shown
    have listed : s.views[j]? = some ⟨UInt64.ofNat j, .busy, some id⟩ := by
      rw [views, List.getElem?_map, here, Option.map_some, shown]
    refine ⟨j, listed, fun i view present current => ?_⟩
    obtain ⟨c, holds, same⟩ := h.inHand_of_view present current
    obtain ⟨d, holds', same'⟩ := h.inHand_of_view listed rfl
    exact once i j c d id holds holds' same same'
  unbroken := by
    intro j m last calculating
    have inside : j < s.workers.length := by
      rw [h.length_workers]
      exact h.numbers.2 _ (mem_ofWorker.1 (List.mem_of_getLast? last))
    have here := List.getElem?_eq_getElem inside
    rw [views, List.getElem?_map, here, Option.map_some,
      (h.dutiful j _ here).of_told last calculating]
  told := fun _ _ _ happened told => h.view_of_told happened told
  distinct := by
    intro i j v v' id here there _ _ current current'
    obtain ⟨c, holds, same⟩ := h.inHand_of_view here current
    obtain ⟨d, holds', same'⟩ := h.inHand_of_view there current'
    exact once i j c d id holds holds' same same'
  idle := by
    intro view member idle
    obtain ⟨j, shown⟩ := List.mem_iff_getElem?.1 member
    obtain ⟨w, here, duty⟩ := h.duty_of_view shown
    rcases duty.view_cases with rfl | ⟨c, _, rfl, _⟩
    · rfl
    · cases idle
  finished := by
    intro j
    rcases Nat.lt_or_ge j n with inside | outside
    · rw [← h.length_workers] at inside
      exact (h.dutiful j _ (List.getElem?_eq_getElem inside)).all_but_last
    · obtain ⟨nothing, silent⟩ := h.ofWorker_outside outside
      rw [nothing, silent]
      exact ⟨[], [], [], rfl, Nat.zero_le _, List.prefix_rfl, .none⟩
  room := h.received_le
  handed := h.handovers_le

/-- Of two workers one has just been stopped by a panic of the pacer and the other one is about to
begin, while a third calculation waits for one of them. -/
def crowdedActions : List Action :=
  .call (.submit "1+1") :: List.replicate 5 (.caller 0) ++ .handOver 0 0 ::
    List.replicate 7 (.worker 0) ++ .call (.submit "2*5") :: List.replicate 5 (.caller 1) ++
    [.handOver 1 1, .worker 1, .call (.submit "6/3")] ++ List.replicate 5 (.caller 2)

theorem crowdedActions_agrees :
    ∃ s, ∃ h : Shift startled 2 .zero .empty crowdedActions s, AtMostOnce s h.received ∧
      Underway s.notices 1 ∧ s.views = [⟨0, .busy, some 1⟩, ⟨1, .busy, some 2⟩] ∧
      s.handovers = 2 ∧ Agrees startled 2 s h.received h.reported := by
  have ran : ((opened 2 .zero .empty).run startled crowdedActions).any (fun s =>
      s.notices.any (fun m => decide (m.calculation.id = some 1) &&
        decide (m.calculation.status = .calculating)) &&
      s.notices.all (fun m => !m.calculation.isTerminal) &&
      decide (s.views = [⟨0, .busy, some 1⟩, ⟨1, .busy, some 2⟩]) && decide (s.handovers = 2)) =
      true := by decide +kernel
  obtain ⟨s, run, found⟩ := (Option.any_eq_true _ _).1 ran
  simp only [Bool.and_eq_true, decide_eq_true_eq] at found
  obtain ⟨⟨⟨going, unended⟩, views⟩, handovers⟩ := found
  have shift : Shift startled 2 .zero .empty crowdedActions s := ⟨by decide, by decide, run⟩
  have distinct : ((receipts startled (opened 2 .zero .empty) crowdedActions).map
      fun r => r.1.id).Nodup := by decide +kernel
  have once : AtMostOnce s shift.received := atMostOnce_of_nodup distinct
  obtain ⟨m, member, going⟩ := List.any_eq_true.1 going
  rw [Bool.and_eq_true, decide_eq_true_eq, decide_eq_true_eq] at going
  obtain ⟨later, earlier, split⟩ := List.append_of_mem member
  refine ⟨s, shift, once, ⟨later, m, earlier, split, going.1, going.2, ?_⟩, views, handovers,
    Shift.agrees shift once⟩
  intro m' since _
  have all := List.all_eq_true.1 unended m' (split ▸ List.mem_append_left _ since)
  exact Bool.not_eq_true' _ ▸ all

end Service

end Reckoner
