import Reckoner.Proofs.Service.Submissions

/-!
# Answers

What the answer to a submission goes with. `Trail` says what the others make of the number of a
caller, and `Submissions.answered` that the answer, the record, what the listener was told and what
the workers received agree.
-/

namespace Reckoner.Service

variable {k : Collaborators} {s t : Service} {n : Nat} {table : CostTable} {first : Store}
variable {actions : List Action} {a : Action} {i : Nat} {ds : List Deed} {text : String}
variable {id : Calculation.Id} {c : Calculation}

/-! ### Trails -/

/-- What the others make of a number: the workers received what its caller handed over, and the
listener was told what the caller told and then what workers reported. -/
structure Trail (ds : List Deed) (id : Calculation.Id) (notices : List Notice)
    (received : List (Calculation × Nat)) (reported : List (Notice × Nat)) : Prop where
  handed : received.filter (fun r => r.1.id = some id) = deliveries ds
  told : ∃ work, toldUnder notices id = tellings ds ++ work ∧
    ∀ m ∈ work, ∃ j, (m, j) ∈ reported

theorem toldUnder_append {told : List Notice} (grown : t.notices = told ++ s.notices) :
    toldUnder t.notices id =
      toldUnder s.notices id ++ (toldSince s t).filter fun m => m.calculation.id = some id := by
  rw [toldSince_eq grown, toldUnder, grown, List.filter_append, List.reverse_append,
    List.filter_reverse, toldUnder]

namespace Submissions

/-- Nothing is told or received under a number that nobody was given. -/
theorem blank (h : Submissions k n table first actions s)
    (free : some id ∉ Recorded.numbers s.notices) :
    toldUnder s.notices id = [] ∧ h.shift.received.filter (fun r => r.1.id = some id) = [] := by
  constructor
  · rw [toldUnder, List.reverse_eq_nil_iff, List.filter_eq_nil_iff]
    intro m told named
    obtain ⟨i, own⟩ := h.owner_of_told told (of_decide_eq_true named)
    exact free (h.mem_numbers own)
  · rw [List.filter_eq_nil_iff]
    intro r taken named
    obtain ⟨i, own, _⟩ := h.owner_of_received taken (of_decide_eq_true named)
    exact free (h.mem_numbers own)

/-- Of an action under a number, the caller that was given it does what is received, and a worker or
the caller tells what is told. -/
theorem share (h : Submissions k n table first actions s)
    (next : Submissions k n table first (actions ++ [a]) t) (happened : s.step k a = some t)
    (own : Owns (deeds k i (opened n table first) (actions ++ [a])) id) :
    (s.receipt a).filter (fun r => r.1.id = some id) = deliveries (s.deed t i a) ∧
      ∃ work, (toldSince s t).filter (fun m => m.calculation.id = some id) =
        tellings (s.deed t i a) ++ work ∧ (∀ m ∈ work, ∃ j, (m, j) ∈ s.report t a) ∧
          (tellings (s.deed t i a) ≠ [] → work = []) := by
  have concat := fun j => deeds_concat (i := j) h.run happened
  have about : ∀ d ∈ s.deed t i a, d.subject.id = some id := by
    intro d listed
    refine own.2 d ?_
    rw [concat]
    exact List.mem_append_right _ listed
  have sole : ∀ {j : Nat} {d : Deed}, d ∈ s.deed t j a → d.subject.id = some id → j = i := by
    intro j d listed named
    refine next.apart j i id (next.owns_of_mem (d := d) ?_ named) own
    rw [concat]
    exact List.mem_append_right _ listed
  constructor
  · rcases deliveries_deed s t i a with same | ⟨nothing, _⟩
    · rw [same, List.filter_eq_self]
      intro r taken
      rw [← same] at taken
      exact decide_eq_true (about _ (mem_deliveries.1 taken))
    · rw [nothing, List.filter_eq_nil_iff]
      intro r taken named
      obtain ⟨j, handed⟩ := handed_of_receipt (t := t) taken
      cases sole handed (of_decide_eq_true named)
      have member := mem_deliveries.2 handed
      rw [nothing] at member
      cases member
  · by_cases mine : a = .caller i
    · subst mine
      have all : (toldSince s t).filter (fun m => m.calculation.id = some id) = toldSince s t := by
        rw [List.filter_eq_self]
        intro m told
        rw [← tellings_deed_caller s t i] at told
        exact decide_eq_true (about _ (mem_tellings.1 told))
      rw [all, tellings_deed_caller]
      exact ⟨[], (List.append_nil _).symm, List.forall_mem_nil _, fun _ => rfl⟩
    · rw [tellings_deed_other mine]
      refine ⟨_, rfl, fun m listed => ?_, fun some => (some rfl).elim⟩
      obtain ⟨told, named⟩ := List.mem_filter.1 listed
      have permitted : a.Permitted := next.shift.permitted a (List.mem_append_right _ (.head _))
      refine (deed_or_report h.shift.orderly permitted happened told).resolve_left ?_
      rintro ⟨j, deed⟩
      cases sole deed (of_decide_eq_true named)
      have member := mem_tellings.2 deed
      rw [tellings_deed_other mine] at member
      cases member

/-- A caller that handed its calculation over tells nothing more. -/
theorem silent (h : Submissions k n table first actions s)
    (next : Submissions k n table first (actions ++ [a]) t) (happened : s.step k a = some t)
    (told : tellings (s.deed t i a) ≠ []) :
    deliveries (deeds k i (opened n table first) actions) = [] := by
  have mine : a = .caller i := by
    by_contra other
    exact told (tellings_deed_other other)
  subst mine
  cases happens_of_step happened with
  | @caller _ d d' u here own =>
    have inside : i < (calls actions).length :=
      h.shift.length_calls ▸ (List.getElem?_eq_some_iff.1 here).1
    obtain ⟨caller, there, ⟨text, _, submitting⟩ | ⟨_, _, nothing⟩⟩ :=
      h.stands (List.getElem?_eq_getElem inside)
    · cases here.symm.trans there
      generalize deeds k i (opened n table first) actions = ds at submitting
      cases submitting with
      | handed => cases own
      | _ => rfl
    · rw [nothing]
      rfl

theorem trail (h : Submissions k n table first actions s)
    (own : Owns (deeds k i (opened n table first) actions) id) :
    Trail (deeds k i (opened n table first) actions) id s.notices h.shift.received
      h.shift.reported := by
  refine h.trace (P := fun actions s => Owns (deeds k i (opened n table first) actions) id →
    Trail (deeds k i (opened n table first) actions) id s.notices
      (receipts k (opened n table first) actions)
      (reports k (opened n table first) actions)) ?_ ?_ own
  · rintro ⟨⟨c, created⟩, _⟩
    cases created
  · intro actions s t a h next happened step before own
    obtain ⟨taken, work, told, reported, alone⟩ := h.share next happened own
    have permitted : a.Permitted := next.shift.permitted a (List.mem_append_right _ (.head _))
    obtain ⟨_, grown⟩ := (step_turn h.shift.orderly permitted happened).notices
    -- Under a new number there was nothing before.
    have earlier : Trail (deeds k i (opened n table first) actions) id s.notices
        (receipts k (opened n table first) actions) (reports k (opened n table first) actions) := by
      rcases h.owns_step next happened step own with old | ⟨nothing, _, numbers⟩
      · exact before old
      · have nodup := next.nodup
        rw [numbers, List.nodup_cons] at nodup
        obtain ⟨silence, unseen⟩ := h.blank nodup.1
        rw [nothing]
        exact ⟨unseen, [], silence, List.forall_mem_nil _⟩
    obtain ⟨handed, rest, heard, reports⟩ := earlier
    rw [deeds_concat h.run happened, receipts_concat h.run happened, reports_concat h.run happened]
    refine ⟨by rw [List.filter_append, handed, taken, deliveries_append], ?_⟩
    rw [toldUnder_append grown, heard, told, tellings_append]
    have news : ∀ m ∈ rest ++ work, ∃ j, (m, j) ∈
        Service.reports k (opened n table first) actions ++ s.report t a := by
      refine List.forall_mem_append.2 ⟨fun m listed => ?_, fun m listed => ?_⟩
      · obtain ⟨j, member⟩ := reports m listed
        exact ⟨j, List.mem_append_left _ member⟩
      · obtain ⟨j, member⟩ := reported m listed
        exact ⟨j, List.mem_append_right _ member⟩
    by_cases quiet : tellings (s.deed t i a) = []
    · exact ⟨rest ++ work, by simp [quiet], news⟩
    · -- As long as the caller tells, no worker has the calculation, hence none told of it.
      have unheard : rest = [] := by
        refine List.eq_nil_iff_forall_not_mem.2 fun m listed => ?_
        obtain ⟨j, member⟩ := reports m listed
        have named : m.calculation.id = some id := by
          have listed : m ∈ toldUnder s.notices id := heard ▸ List.mem_append_right _ listed
          rw [toldUnder, List.mem_reverse, List.mem_filter, decide_eq_true_eq] at listed
          exact listed.2
        obtain ⟨c, there, same⟩ := h.shift.received_of_reported member
        have listed : (c, j) ∈ deliveries (deeds k i (opened n table first) actions) := by
          rw [← handed]
          exact List.mem_filter.2 ⟨there, decide_eq_true (same.symm.trans named)⟩
        rw [h.silent next happened quiet] at listed
        cases listed
      subst unheard
      exact ⟨work, by simp, news⟩

end Submissions

/-! ### The answer -/

/-- What the answer to a submission goes with: what the call did, the record and the notices under
the number, and what the workers received. -/
inductive Answered (text : String) (s : Service) (received : List (Calculation × Nat)) :
    List Deed → Reply → Prop
  /-- The text is no formula: the failed calculation is returned, and it is the record. -/
  | unreadable {id : Calculation.Id} {c : Calculation} {e : Error} {time : Instant}
      (new : Entered text id c) (wrong : Formula.parse text = .error e)
      (told : toldUnder s.notices id =
        [⟨.created, c⟩, ⟨.completed, failed c e.message time⟩])
      (record : s.store.find? id = some (failed c e.message time))
      (unseen : ∀ r ∈ received, r.1.id ≠ some id) :
      Answered text s received [.told ⟨.created, c⟩, .told ⟨.completed, failed c e.message time⟩]
        (.submitted (failed c e.message time))
  /-- The handoff was reserved while the intake was open: the queued calculation is returned, one
  worker received it, and the record is a copy of it, queued or further. -/
  | handed {id : Calculation.Id} {c d : Calculation} {f : Formula} {worker : Nat}
      (new : Entered text id c) (right : Formula.parse text = .ok f)
      (taken : received.filter (fun r => r.1.id = some id) = [(queuedWith c f, worker)])
      (record : s.store.find? id = some d) (same : d.identity = c.identity)
      (further : d.status ≠ .created) :
      Answered text s received
        [.told ⟨.created, c⟩, .reserved c, .told ⟨.changed, queuedWith c f⟩,
          .handed (queuedWith c f) worker]
        (.submitted (queuedWith c f))
  /-- The intake was closed before: the call is refused, and the record is the calculation failed
  for that. -/
  | refused {id : Calculation.Id} {c : Calculation} {f : Formula} {time : Instant}
      (new : Entered text id c) (right : Formula.parse text = .ok f) (closed : s.isOpen = false)
      (told : toldUnder s.notices id =
        [⟨.created, c⟩, ⟨.completed, failed c "calculation pool is unavailable" time⟩])
      (record : s.store.find? id = some (failed c "calculation pool is unavailable" time))
      (unseen : ∀ r ∈ received, r.1.id ≠ some id) :
      Answered text s received
        [.told ⟨.created, c⟩, .refused c,
          .told ⟨.completed, failed c "calculation pool is unavailable" time⟩]
        (.refused .poolUnavailable)

namespace Submissions

theorem opens {c : Calculation} {rest : List Notice}
    (told : toldUnder s.notices id = ⟨.created, c⟩ :: rest) : Recorded.Opens first s.notices id :=
  .inl ⟨_, rest, told, rfl⟩

/-- A calculation that failed before it was queued was told of twice, and it is the record. -/
theorem failed_early (h : Submissions k n table first actions s) {message : String} {time : Instant}
    (new : Entered text id c) (own : Owns (deeds k i (opened n table first) actions) id)
    (handed : deliveries (deeds k i (opened n table first) actions) = [])
    (told : tellings (deeds k i (opened n table first) actions) =
      [⟨.created, c⟩, ⟨.completed, failed c message time⟩]) :
    toldUnder s.notices id = [⟨.created, c⟩, ⟨.completed, failed c message time⟩] ∧
      s.store.find? id = some (failed c message time) ∧
      ∀ r ∈ h.shift.received, r.1.id ≠ some id := by
  obtain ⟨taken, work, heard, reported⟩ := h.trail own
  rw [handed, List.filter_eq_nil_iff] at taken
  have unseen : ∀ r ∈ h.shift.received, r.1.id ≠ some id := fun r member named =>
    taken r member (decide_eq_true named)
  have idle : work = [] := by
    refine List.eq_nil_iff_forall_not_mem.2 fun m listed => ?_
    obtain ⟨j, member⟩ := reported m listed
    obtain ⟨d, there, same⟩ := h.shift.received_of_reported member
    have listed : m ∈ toldUnder s.notices id := heard ▸ List.mem_append_right _ listed
    rw [toldUnder, List.mem_reverse, List.mem_filter, decide_eq_true_eq] at listed
    exact unseen _ there (same.symm.trans listed.2)
  rw [idle, List.append_nil, told] at heard
  have recorded : Recorded first s.notices s.store := recorded_of_run h.forwards h.run .none
  obtain ⟨m, listed, record⟩ := recorded.find?_since [⟨.created, c⟩]
    [⟨.completed, failed c message time⟩] (opens heard) heard (by simp) (by
      simp [Calculation.isTerminal, new.created, Calculation.Status.isTerminal])
  rw [List.mem_singleton.1 listed] at record
  exact ⟨heard, record, unseen⟩

/-- The record of a calculation that was handed over is a copy of it. -/
theorem record_of_handed (h : Submissions k n table first actions s) {f : Formula} {worker : Nat}
    (new : Entered text id c) (own : Owns (deeds k i (opened n table first) actions) id)
    (handed : deliveries (deeds k i (opened n table first) actions) = [(queuedWith c f, worker)])
    (told : tellings (deeds k i (opened n table first) actions) =
      [⟨.created, c⟩, ⟨.changed, queuedWith c f⟩]) :
    h.shift.received.filter (fun r => r.1.id = some id) = [(queuedWith c f, worker)] ∧
      ∃ d, s.store.find? id = some d ∧ d.identity = c.identity ∧ d.status ≠ .created := by
  obtain ⟨taken, work, heard, reported⟩ := h.trail own
  rw [handed] at taken
  rw [told] at heard
  refine ⟨taken, ?_⟩
  have recorded : Recorded first s.notices s.store := recorded_of_run h.forwards h.run .none
  obtain ⟨m, listed, record⟩ := recorded.find?_since [⟨.created, c⟩]
    (⟨.changed, queuedWith c f⟩ :: work) (opens heard) heard (by simp) (by
      simp [Calculation.isTerminal, new.created, Calculation.Status.isTerminal])
  refine ⟨m.calculation, record, ?_⟩
  rcases List.mem_cons.1 listed with rfl | listed
  · exact ⟨rfl, by simp [queuedWith]⟩
  · obtain ⟨j, member⟩ := reported m listed
    obtain ⟨_, begun, q, there, same⟩ := h.shift.copies h.forwards h.usual _ member
    have listed : m ∈ toldUnder s.notices id := heard ▸ List.mem_append_right _ listed
    rw [toldUnder, List.mem_reverse, List.mem_filter, decide_eq_true_eq] at listed
    have named : q.id = some id := (congrArg Prod.fst same).symm.trans listed.2
    have only : (q, j) ∈ [(queuedWith c f, worker)] :=
      taken ▸ List.mem_filter.2 ⟨there, decide_eq_true named⟩
    cases List.mem_singleton.1 only
    exact ⟨same, begun⟩

theorem returns (h : Submissions k n table first actions s)
    (call : (calls actions)[i]? = some (.submit text)) (quiescent : Quiescent k s) :
    ∃ reply, s.callers[i]? = some (.done reply) := by
  obtain ⟨caller, here, ⟨_, _, submitting⟩ | ⟨close, _⟩⟩ := h.stands call
  · have few : fatalities k s.notices < n := by
      rw [fatalities_eq_zero h.steady]
      exact h.manned
    have stuck := quiescent.callers i
    generalize deeds k i (opened n table first) actions = ds at submitting
    cases submitting with
    | unreadable | handed | rejected => exact ⟨_, here⟩
    | offered => exact (h.shift.nobody_offers few quiescent _ _ (List.mem_of_getElem? here)).elim
    | _ => simp [Service.step, here, stepCaller] at stuck
  · cases close

/-- A submission is answered in one of three ways, and the record, the notices and the workers agree
with the answer then and ever after. Everything comes to rest, and at rest it has been answered. -/
theorem answered (h : Submissions k n table first actions s)
    (call : (calls actions)[i]? = some (.submit text)) :
    (∀ reply, s.callers[i]? = some (.done reply) →
      Answered text s h.shift.received (deeds k i (opened n table first) actions) reply) ∧
    (Quiescent k s → ∃ reply, s.callers[i]? = some (.done reply)) ∧
    ∀ more t, (∀ a ∈ more, a.isInside = true) → s.run k more = some t → more.length ≤ s.work := by
  refine ⟨fun reply there => ?_, h.returns call, fun more t inside run => ?_⟩
  · obtain ⟨caller, here, ⟨_, asked, submitting⟩ | ⟨close, _⟩⟩ := h.stands call
    · cases asked
      cases here.symm.trans there
      generalize same : deeds k i (opened n table first) actions = ds at submitting
      have owned : ∀ {id}, (∃ d ∈ ds, d.subject.id = some id) →
          Owns (deeds k i (opened n table first) actions) id := by
        rintro id ⟨d, listed, about⟩
        exact h.owns_of_mem (same ▸ listed) about
      cases submitting with
      | unreadable new wrong time =>
        have own := owned ⟨_, .head _, new.id_eq⟩
        obtain ⟨told, record, unseen⟩ :=
          h.failed_early new own (by rw [same]; rfl) (by rw [same]; rfl)
        exact .unreadable new wrong told record unseen
      | handed new right worker =>
        have own := owned ⟨_, .head _, new.id_eq⟩
        obtain ⟨taken, d, record, copy, further⟩ :=
          h.record_of_handed new own (by rw [same]; rfl) (by rw [same]; rfl)
        exact .handed new right taken record copy further
      | @rejected _ c _ new right time =>
        have own := owned ⟨_, .head _, new.id_eq⟩
        have closed := h.shift.closed_of_refused (i := i) (c := c) (by rw [same]; simp)
        obtain ⟨told, record, unseen⟩ :=
          h.failed_early new own (by rw [same]; rfl) (by rw [same]; rfl)
        exact .refused new right closed told record unseen
    · cases close
  · have bound := h.shift.orderly.length_add_work_le inside run
    omega

end Submissions

/-- The intake is closed while the first quotient is on offer; a product and a text that is no
formula come too late. -/
def lateActions : List Action :=
  [.call (.submit "6/3"), .call (.submit "2*2"), .call (.submit "1+"), .call .close] ++
    List.replicate 5 (.caller 0) ++ [.caller 3] ++ List.replicate 4 (.caller 1) ++
    List.replicate 2 (.caller 2) ++ [.handOver 0 0] ++ List.replicate 12 (.worker 0) ++ [.caller 3]

theorem lateActions_answered :
    ∃ s, ∃ h : Submissions (.plain fun _ => default) 1 .zero .empty lateActions s,
      ∀ i text, (calls lateActions)[i]? = some (.submit text) →
        ∃ reply, s.callers[i]? = some (.done reply) ∧
          Answered text s h.shift.received
            (deeds (.plain fun _ => default) i (opened 1 .zero .empty) lateActions) reply := by
  have ran : ((opened 1 .zero .empty).run (.plain fun _ => default) lateActions).any
      (fun s => decide (Quiescent (.plain fun _ => default) s)) = true := by decide +kernel
  obtain ⟨s, run, quiescent⟩ := (Option.any_eq_true _ _).1 ran
  have asked : ∀ c ∈ calls lateActions, c.isSubmission = true ∨ c = .close := by
    have four : calls lateActions = [.submit "6/3", .submit "2*2", .submit "1+", .close] := rfl
    simp [four, Caller.isSubmission]
  have h : Submissions (.plain fun _ => default) 1 .zero .empty lateActions s :=
    ⟨fun _ _ => rfl, Nat.one_pos, asked, by decide, run⟩
  refine ⟨s, h, fun i text call => ?_⟩
  obtain ⟨agrees, returns, _⟩ := Submissions.answered h call
  obtain ⟨reply, there⟩ := returns (of_decide_eq_true quiescent)
  exact ⟨reply, there, agrees reply there⟩

end Reckoner.Service
