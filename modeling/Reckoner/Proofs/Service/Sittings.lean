import Reckoner.Proofs.Service.Answers

/-!
# Sittings

In a sitting one client submits texts to a service with an empty store, each when a calculation was
returned for the one before, closes the intake behind the last of them and waits for the workers.
`Sitting.recorded` says what the store then has for every text, and `Sitting.goes_on` and
`Sitting.bounded` that every schedule gets there.
-/

namespace Reckoner.Service

variable {k : Collaborators} {n : Nat} {table : CostTable} {texts : List String}
variable {start s t : Service} {script : List Caller} {actions : List Action} {a : Action} {i : Nat}

theorem stepWorker_of_gone {w : Worker} (gone : w.isGone = true) : s.stepWorker k w = none := by
  obtain ⟨stage, view⟩ := w
  cases stage with
  | exited | lost => rfl
  | _ => cases gone

theorem work_opened (n : Nat) (table : CostTable) (store : Store) :
    (opened n table store).work = n := by
  show totalWork (fun w => w.stage.work) ((List.range n).map Worker.idle) + 0 = n
  induction n with
  | zero => rfl
  | succ n ih =>
    rw [List.range_succ, List.map_append, totalWork_append]
    exact congrArg (· + 1) ih

/-! ### One call after another -/

/-- The caller came back with a calculation. -/
def Caller.Returned (c : Caller) : Prop :=
  ∃ d, c = .done (.submitted d)

/-- A run in which the calls of a script are made in their order, each when a calculation was
returned for every one before. -/
inductive OneByOne (k : Collaborators) (start : Service) (script : List Caller) :
    List Action → Service → Prop where
  | opening : OneByOne k start script [] start
  | inside {actions : List Action} {a : Action} {s t : Service}
      (before : OneByOne k start script actions s) (inside : a.isInside = true)
      (happened : s.step k a = some t) : OneByOne k start script (actions ++ [a]) t
  | call {actions : List Action} {c : Caller} {s : Service}
      (before : OneByOne k start script actions s) (returned : ∀ d ∈ s.callers, d.Returned)
      (next : calls actions ++ [c] <+: script) :
      OneByOne k start script (actions ++ [.call c]) { s with callers := s.callers ++ [c] }

theorem calls_concat_inside (inside : a.isInside = true) :
    calls (actions ++ [a]) = calls actions := by
  rw [calls, List.filterMap_append]
  exact (congrArg _ (calls_of_isInside (List.forall_mem_singleton.2 inside))).trans
    (List.append_nil _)

theorem calls_concat_call (c : Caller) : calls (actions ++ [.call c]) = calls actions ++ [c] :=
  calls_concat actions (.call c)

namespace OneByOne

theorem run (h : OneByOne k start script actions s) : start.run k actions = some s := by
  induction h with
  | opening => rfl
  | inside _ _ happened ih =>
    rw [run_append, ih, Option.bind_some, run_cons, happened]
    rfl
  | call _ _ _ ih =>
    rw [run_append, ih]
    rfl

theorem calls_prefix (h : OneByOne k start script actions s) : calls actions <+: script := by
  induction h with
  | opening => exact List.nil_prefix
  | inside _ inside _ ih => rwa [calls_concat_inside inside]
  | call _ _ next => rwa [calls_concat_call]

theorem inside_or_call (h : OneByOne k start script actions s) :
    ∀ a ∈ actions, a.isInside = true ∨ ∃ c ∈ script, a = .call c := by
  induction h with
  | opening => exact List.forall_mem_nil _
  | inside _ inside _ ih =>
    exact List.forall_mem_append.2 ⟨ih, List.forall_mem_singleton.2 (.inl inside)⟩
  | call _ _ next ih =>
    refine List.forall_mem_append.2 ⟨ih, List.forall_mem_singleton.2 (.inr ⟨_, ?_, rfl⟩)⟩
    exact next.subset (List.mem_append_right _ (List.mem_singleton_self _))

end OneByOne

/-! ### Sittings -/

def agenda (texts : List String) : List Caller :=
  texts.map .submit ++ [.close]

theorem agenda_cases {c : Caller} (member : c ∈ agenda texts) :
    c.isSubmission = true ∨ c = .close := by
  rcases List.mem_append.1 member with submission | close
  · obtain ⟨text, _, rfl⟩ := List.mem_map.1 submission
    exact .inl rfl
  · exact .inr (List.mem_singleton.1 close)

theorem getElem?_agenda {text : String} (here : texts[i]? = some text) :
    (agenda texts)[i]? = some (.submit text) := by
  rw [agenda, List.getElem?_append_left (by simpa using (List.getElem?_eq_some_iff.1 here).1),
    List.getElem?_map, here]
  rfl

/-- Nobody panics, and there are numbers enough for the texts. -/
structure Sitting (k : Collaborators) (n : Nat) (table : CostTable) (texts : List String)
    (actions : List Action) (s : Service) : Prop where
  forwards : k.Forwards
  calm : k.Calm
  manned : 0 < n
  space : texts.length + 1 < UInt64.size
  oneByOne : OneByOne k (opened n table .empty) (agenda texts) actions s

/-- All texts were submitted and the intake was closed, and every call has come back. -/
structure Finished (texts : List String) (actions : List Action) (s : Service) : Prop where
  made : calls actions = agenda texts
  back : ∀ c ∈ s.callers, ∃ reply, c = .done reply

/-- Where the call that closes the intake is if nobody else is under way. -/
inductive Leaving (s : Service) : Caller → Prop where
  | begun (isOpen : s.isOpen = true) : Leaving s .close
  | joining : Leaving s .join
  | stopped (gone : s.workers.all Worker.isGone = true) : Leaving s (.done .stopped)

theorem Leaving.not_returned {c : Caller} (h : Leaving s c) : ¬ c.Returned := by
  rintro ⟨d, rfl⟩
  cases h

/-- It goes on if everybody else has returned, who does nothing more. -/
theorem Leaving.step {c : Caller} (h : Leaving s c) (orderly : s.Orderly)
    (here : s.callers[i]? = some c)
    (only : ∀ {j d}, s.callers[j]? = some d → ¬ d.Returned → j = i) (inside : a.isInside = true)
    (happened : s.step k a = some t) : ∃ c', t.callers[i]? = some c' ∧ Leaving t c' := by
  cases happens_of_step happened with
  | @worker j w w' u there own =>
    obtain ⟨_, follows⟩ :=
      (stepWorker_turn (orderly.workers w (List.mem_of_getElem? there)) own).follows
    refine ⟨c, follows.callers ▸ here, ?_⟩
    cases h with
    | begun isOpen => exact .begun (follows.isOpen.trans isOpen)
    | joining => exact .joining
    | stopped gone =>
      rw [stepWorker_of_gone (List.all_eq_true.1 gone w (List.mem_of_getElem? there))] at own
      cases own
  | @caller j d d' u there own =>
    have same : j = i := by
      refine only there fun returned => ?_
      obtain ⟨e, rfl⟩ := returned
      cases own
    subst same
    cases here.symm.trans there
    obtain ⟨-, callers, -⟩ :=
      (stepCaller_turn (orderly.callers c (List.mem_of_getElem? here)) own).frame
    refine ⟨d', callers ▸ getElem?_set_of_getElem? here, ?_⟩
    cases h with
    | begun isOpen =>
      rw [stepCaller, if_pos isOpen] at own
      cases own
      exact .joining
    | joining =>
      simp only [stepCaller] at own
      split at own <;> cases own
      rename_i gone
      exact .stopped gone
    | stopped gone => cases own
  | @handedOver j l d after view offering =>
    have same : j = i := by
      refine only offering fun returned => ?_
      obtain ⟨e, other⟩ := returned
      cases other
    subst same
    cases here.symm.trans offering
    cases h
  | _ => cases inside

theorem InTime.concat (h : InTime k s actions)
    (last : ∀ t, s.run k (actions ++ [a]) = some t → t.isOpen = false →
      ∀ c ∈ t.callers, c.isEntering = false) : InTime k s (actions ++ [a]) := by
  intro m t run
  by_cases within : m ≤ actions.length
  · rw [List.take_append_of_le_length within] at run
    exact h m t run
  · rw [List.take_of_length_le (by simp; omega)] at run
    exact last t run

namespace Sitting

theorem trace {P : List Action → Service → Prop} (h : Sitting k n table texts actions s)
    (start : P [] (opened n table .empty))
    (inside : ∀ {actions a s t}, Sitting k n table texts actions s →
      Sitting k n table texts (actions ++ [a]) t → a.isInside = true → s.step k a = some t →
      P actions s → P (actions ++ [a]) t)
    (call : ∀ {actions c s}, Sitting k n table texts actions s →
      Sitting k n table texts (actions ++ [.call c]) { s with callers := s.callers ++ [c] } →
      (∀ d ∈ s.callers, d.Returned) → P actions s →
      P (actions ++ [.call c]) { s with callers := s.callers ++ [c] }) : P actions s := by
  obtain ⟨forwards, calm, manned, space, run⟩ := h
  have sits : ∀ {actions s}, OneByOne k (opened n table .empty) (agenda texts) actions s →
      Sitting k n table texts actions s :=
    fun run => ⟨forwards, calm, manned, space, run⟩
  induction run with
  | opening => exact start
  | inside before possible happened ih =>
    exact inside (sits before) (sits (before.inside possible happened)) possible happened ih
  | call before returned next ih =>
    exact call (sits before) (sits (before.call returned next)) returned ih

theorem asked (h : Sitting k n table texts actions s) :
    ∀ c ∈ calls actions, c.isSubmission = true ∨ c = .close :=
  fun _ member => agenda_cases (h.oneByOne.calls_prefix.subset member)

theorem submissions_le (h : Sitting k n table texts actions s) :
    (calls actions).countP Caller.isSubmission ≤ texts.length := by
  calc (calls actions).countP Caller.isSubmission
      ≤ (agenda texts).countP Caller.isSubmission := h.oneByOne.calls_prefix.sublist.countP_le
    _ ≤ texts.length := by
      rw [agenda, List.countP_append]
      exact (Nat.add_le_add_right List.countP_le_length _).trans (by simp [Caller.isSubmission])

theorem submissions (h : Sitting k n table texts actions s) :
    Submissions k n table .empty actions s := by
  have few := h.submissions_le
  have space := h.space
  exact ⟨h.forwards, h.manned, h.asked, by omega, h.oneByOne.run⟩

theorem shift (h : Sitting k n table texts actions s) : Shift k n table .empty actions s :=
  h.submissions.shift

theorem length_callers (h : Sitting k n table texts actions s) :
    s.callers.length = (calls actions).length :=
  h.shift.length_calls

/-- All callers but the last have returned. -/
theorem returned (h : Sitting k n table texts actions s) {c : Caller}
    (here : s.callers[i]? = some c) (earlier : i + 1 < s.callers.length) : c.Returned := by
  refine h.trace (P := fun _ s => ∀ i c, s.callers[i]? = some c → i + 1 < s.callers.length →
    c.Returned) ?_ ?_ ?_ i c here earlier
  · intro i c here
    cases here
  · intro actions a s t h next inside happened before i c there earlier
    rw [next.length_callers, calls_concat_inside inside, ← h.length_callers] at earlier
    have here := List.getElem?_eq_getElem (Nat.lt_of_succ_lt earlier)
    obtain ⟨d, same⟩ := before i _ here earlier
    rw [same] at here
    have turn := step_turn h.shift.orderly (permitted_of_isInside inside) happened
    rcases turn.caller_at here with stays | ⟨_, _, _, own, _⟩ | ⟨_, _, _, _, other, _⟩ | other
    · cases stays.symm.trans there
      exact ⟨d, rfl⟩
    · cases own with
      | unwound tells => cases tells
    · cases other
    · cases other
  · intro actions c s h next all _ i d there earlier
    rw [List.length_append, List.length_singleton] at earlier
    rw [List.getElem?_append_left (by omega)] at there
    exact all d (List.mem_of_getElem? there)

theorem last_of_waits (h : Sitting k n table texts actions s) {c : Caller}
    (here : s.callers[i]? = some c) (waits : ¬ c.Returned) : i + 1 = s.callers.length := by
  have inside := (List.getElem?_eq_some_iff.1 here).1
  by_contra earlier
  exact waits (h.returned here (by omega))

/-- The call that closes the intake is the last, and nobody else is under way. -/
theorem closing (h : Sitting k n table texts actions s) (call : (calls actions)[i]? = some .close) :
    i + 1 = s.callers.length ∧ ∃ c, s.callers[i]? = some c ∧ Leaving s c := by
  refine h.trace (P := fun actions s => ∀ i, (calls actions)[i]? = some .close →
    i + 1 = s.callers.length ∧ ∃ c, s.callers[i]? = some c ∧ Leaving s c) ?_ ?_ ?_ i call
  · intro i call
    cases call
  · intro actions a s t h next inside happened before i call
    rw [calls_concat_inside inside] at call
    obtain ⟨last, c, here, leaving⟩ := before i call
    refine ⟨by rw [next.length_callers, calls_concat_inside inside, ← h.length_callers, last], ?_⟩
    refine leaving.step h.shift.orderly here (fun there waits => ?_) inside happened
    have place := h.last_of_waits there waits
    omega
  · intro actions c s h next all before i call
    have never : Caller.close ∉ calls actions := by
      intro member
      obtain ⟨j, earlier⟩ := List.mem_iff_getElem?.1 member
      obtain ⟨_, d, there, leaving⟩ := before j earlier
      exact leaving.not_returned (all d (List.mem_of_getElem? there))
    rw [calls_concat_call, List.getElem?_append] at call
    split at call
    · exact (never (List.mem_of_getElem? call)).elim
    · rename_i later
      obtain ⟨place, same⟩ := List.getElem?_eq_some_iff.1 call
      rw [List.length_singleton, ← h.length_callers] at place
      rw [← h.length_callers] at later
      have last : i = s.callers.length := by omega
      subst last
      refine ⟨by simp, c, List.getElem?_concat_length, ?_⟩
      rw [List.getElem_singleton] at same
      exact same ▸ .begun (h.shift.isOpen never)

theorem exists_close (h : Sitting k n table texts actions s) (closed : s.isOpen = false) :
    ∃ i : Nat, (calls actions)[i]? = some .close := by
  refine List.mem_iff_getElem?.1 ?_
  by_contra never
  rw [h.shift.isOpen never] at closed
  cases closed

/-- When the intake is closed, all submissions are behind it. -/
theorem entering (h : Sitting k n table texts actions s) (closed : s.isOpen = false) :
    ∀ c ∈ s.callers, c.isEntering = false := by
  intro c member
  obtain ⟨j, there⟩ := List.mem_iff_getElem?.1 member
  by_cases returned : c.Returned
  · obtain ⟨e, rfl⟩ := returned
    rfl
  · obtain ⟨i, call⟩ := h.exists_close closed
    obtain ⟨last, d, here, leaving⟩ := h.closing call
    have place := h.last_of_waits there returned
    obtain rfl : j = i := by omega
    cases here.symm.trans there
    cases leaving <;> rfl

theorem inTime (h : Sitting k n table texts actions s) :
    InTime k (opened n table .empty) actions := by
  have goes : ∀ {actions a t}, Sitting k n table texts (actions ++ [a]) t →
      InTime k (opened n table .empty) actions →
      InTime k (opened n table .empty) (actions ++ [a]) := by
    intro actions a t next before
    refine before.concat fun u run => ?_
    cases next.oneByOne.run.symm.trans run
    exact next.entering
  refine h.trace (P := fun actions _ => InTime k (opened n table .empty) actions) ?_
    (fun _ next _ _ before => goes next before) (fun _ next _ before => goes next before)
  intro m t run isClosed
  rw [List.take_nil] at run
  cases run
  cases isClosed

theorem action_cases (h : Sitting k n table texts actions s) (member : a ∈ actions) :
    a.isInside = true ∨ (∃ text, a = .call (.submit text)) ∨ a = .call .close := by
  rcases h.oneByOne.inside_or_call a member with inside | ⟨c, asked, rfl⟩
  · exact .inl inside
  · rcases agenda_cases asked with submission | rfl
    · obtain ⟨text, rfl⟩ := Caller.eq_of_isSubmission submission
      exact .inr (.inl ⟨text, rfl⟩)
    · exact .inr (.inr rfl)

theorem session (h : Sitting k n table texts actions s) : Session k n table .empty actions s where
  forwards := h.forwards
  manned := h.manned
  built := .empty
  below := fun id c found => by simp at found
  calls := by
    intro a member
    rcases h.action_cases member with inside | ⟨text, rfl⟩ | rfl
    · cases a with
      | worker | caller | handOver => trivial
      | _ => cases inside
    · trivial
    · trivial
  resumedOnce := by
    have none : actions.countP Action.isResumption = 0 := by
      refine List.countP_eq_zero.2 fun a member resumes => ?_
      rcases h.action_cases member with inside | ⟨text, rfl⟩ | rfl
      · cases a with
        | call c => cases inside
        | _ => cases resumes
      · cases resumes
      · cases resumes
    omega
  space := by
    have same :
        actions.countP Action.isSubmission = (calls actions).countP Caller.isSubmission := by
      rw [calls, List.countP_filterMap]
      refine List.countP_congr fun a _ => ?_
      cases a with
      | call c => cases c <;> simp [Action.isSubmission, Action.call?, Caller.isSubmission]
      | _ => simp [Action.isSubmission, Action.call?]
    have few := h.submissions_le
    have first : Store.empty.nextId.toNat = 1 := rfl
    have space := h.space
    omega
  run := h.oneByOne.run

/-! ### At rest -/

/-- A submission that comes back comes back with a calculation. -/
theorem returned_of_done (h : Sitting k n table texts actions s) {text : String} {reply : Reply}
    (call : (calls actions)[i]? = some (.submit text)) (here : s.callers[i]? = some (.done reply)) :
    (Caller.done reply).Returned := by
  obtain ⟨c, there, ⟨_, _, submitting⟩ | ⟨close, _⟩⟩ := h.submissions.stands call
  · cases here.symm.trans there
    generalize same : deeds k i (opened n table .empty) actions = ds at submitting
    cases submitting with
    | unreadable | handed => exact ⟨_, rfl⟩
    | @rejected _ c =>
      -- the intake would have been closed behind this call and before it came back
      have closed := h.shift.closed_of_refused (i := i) (c := c) (by simp [same])
      obtain ⟨j, close⟩ := h.exists_close closed
      obtain ⟨last, _⟩ := h.closing close
      have inside := (List.getElem?_eq_some_iff.1 here).1
      by_cases same : i = j
      · subst same
        cases call.symm.trans close
      · exact h.returned here (by omega)
  · cases close

theorem back_of_quiescent (h : Sitting k n table texts actions s) (quiescent : Quiescent k s) :
    ∀ c ∈ s.callers, c.Returned ∨ c = .done .stopped ∧ .close ∈ calls actions := by
  intro c member
  obtain ⟨i, here⟩ := List.mem_iff_getElem?.1 member
  have inside : i < (calls actions).length :=
    h.length_callers ▸ (List.getElem?_eq_some_iff.1 here).1
  have call := List.getElem?_eq_getElem inside
  rcases h.asked _ (List.getElem_mem inside) with submission | close
  · obtain ⟨text, same⟩ := Caller.eq_of_isSubmission submission
    rw [same] at call
    obtain ⟨reply, there⟩ := h.submissions.returns call quiescent
    cases here.symm.trans there
    exact .inl (h.returned_of_done call here)
  · rw [close] at call
    obtain ⟨last, d, there, leaving⟩ := h.closing call
    cases here.symm.trans there
    have stuck := quiescent.callers i
    cases leaving with
    | begun isOpen => simp [step, here, stepCaller, isOpen] at stuck
    | joining =>
      -- nobody holds a handoff, for all others have returned
      obtain ⟨j, holds⟩ := List.mem_iff_getElem?.1
        (h.shift.hold_of_join h.submissions.steady quiescent member)
      have place := h.last_of_waits holds (by rintro ⟨e, other⟩; cases other)
      obtain rfl : j = i := by omega
      cases holds.symm.trans here
    | stopped => exact .inr ⟨rfl, List.mem_of_getElem? call⟩

/-- As long as a call has not come back or is still to be made, the sitting goes on. -/
theorem goes_on (h : Sitting k n table texts actions s) (unfinished : ¬ Finished texts actions s) :
    ∃ a t, Sitting k n table texts (actions ++ [a]) t := by
  by_cases rest : Quiescent k s
  · have back := h.back_of_quiescent rest
    have submitted : calls actions <+: texts.map .submit := by
      refine (List.prefix_concat_iff.1 h.oneByOne.calls_prefix).resolve_left fun made => ?_
      refine unfinished ⟨made, fun c member => ?_⟩
      rcases back c member with ⟨d, rfl⟩ | ⟨rfl, _⟩ <;> exact ⟨_, rfl⟩
    have never : Caller.close ∉ calls actions := by
      intro member
      obtain ⟨text, _, same⟩ := List.mem_map.1 (submitted.subset member)
      cases same
    obtain ⟨others, same⟩ := submitted
    obtain ⟨c, rest, next⟩ : ∃ c rest, others ++ [Caller.close] = c :: rest := by
      cases others <;> exact ⟨_, _, rfl⟩
    refine ⟨.call c, _, ⟨h.forwards, h.calm, h.manned, h.space, h.oneByOne.call ?_ ⟨rest, ?_⟩⟩⟩
    · exact fun d member => (back d member).resolve_right fun closed => never closed.2
    · rw [List.append_assoc, List.singleton_append, ← next, ← List.append_assoc, same, agenda]
  · by_contra stuck
    have none : ∀ a : Action, a.isInside = true → s.step k a = none := by
      intro a inside
      by_contra possible
      obtain ⟨t, happened⟩ := Option.ne_none_iff_exists'.1 possible
      exact stuck ⟨a, t, ⟨h.forwards, h.calm, h.manned, h.space, h.oneByOne.inside inside happened⟩⟩
    exact rest ⟨fun i => none _ rfl, fun i => none _ rfl, fun i j => none _ rfl⟩

/-- No schedule takes longer than the work that the calls bring. -/
theorem bounded (h : Sitting k n table texts actions s) :
    actions.length + s.work ≤ n + totalWork (fun c => c.work + 1) (agenda texts) := by
  have all : actions.length + s.work ≤ n + totalWork (fun c => c.work + 1) (calls actions) := by
    refine h.trace (P := fun actions s =>
      actions.length + s.work ≤ n + totalWork (fun c => c.work + 1) (calls actions)) ?_ ?_ ?_
    · rw [work_opened]
      simp [calls, totalWork]
    · intro actions a s t h _ inside happened before
      have less := h.shift.orderly.work_step inside happened
      rw [calls_concat_inside inside, List.length_append, List.length_singleton]
      omega
    · intro actions c s _ _ _ before
      rw [calls_concat_call, totalWork_append, List.length_append]
      simp only [work, totalWork_append, totalWork, List.length_singleton] at before ⊢
      omega
  obtain ⟨rest, same⟩ := h.oneByOne.calls_prefix
  rw [← same, totalWork_append]
  omega

theorem finishes (h : Sitting k n table texts actions s) : ∃ more t,
    Sitting k n table texts (actions ++ more) t ∧ Finished texts (actions ++ more) t := by
  generalize left : n + totalWork (fun c => c.work + 1) (agenda texts) - actions.length = steps
  induction steps using Nat.strongRecOn generalizing actions s with
  | _ steps ih =>
    by_cases finished : Finished texts actions s
    · exact ⟨[], s, by rwa [List.append_nil], by rwa [List.append_nil]⟩
    · obtain ⟨a, t, next⟩ := h.goes_on finished
      have bound := next.bounded
      rw [List.length_append, List.length_singleton] at bound
      obtain ⟨more, u, ends, finished⟩ := ih (steps - 1) (by omega) next (by simp; omega)
      rw [← List.append_cons] at ends finished
      exact ⟨a :: more, u, ends, finished⟩

end Sitting

/-! ### The end -/

theorem Finished.quiescent (finished : Finished texts actions s)
    (h : Sitting k n table texts actions s) : Quiescent k s where
  workers := by
    intro j
    have call : (calls actions)[texts.length]? = some .close := by
      rw [finished.made, agenda]
      simp
    obtain ⟨_, c, here, leaving⟩ := h.closing call
    obtain ⟨reply, rfl⟩ := finished.back c (List.mem_of_getElem? here)
    cases leaving with
    | stopped gone =>
      cases there : s.workers[j]? with
      | none => simp [step, there]
      | some w =>
        have left := List.all_eq_true.1 gone w (List.mem_of_getElem? there)
        simp [step, there, stepWorker_of_gone left]
  callers := by
    intro i
    cases here : s.callers[i]? with
    | none => simp [step, here]
    | some c =>
      obtain ⟨reply, rfl⟩ := finished.back c (List.mem_of_getElem? here)
      simp [step, here, stepCaller]
  rendezvous := by
    intro i j
    cases here : s.callers[i]? with
    | none => simp [step, here]
    | some c =>
      obtain ⟨reply, rfl⟩ := finished.back c (List.mem_of_getElem? here)
      simp [step, here]

/-- In the end each text has its calculation, whose record is that of the text evaluated alone. -/
theorem Sitting.recorded (h : Sitting k n table texts actions s)
    (finished : Finished texts actions s) {text : String} (here : texts[i]? = some text) :
    ∃ c d, s.callers[i]? = some (.done (.submitted c)) ∧ c.id.bind s.store.find? = some d ∧
      d.text = text ∧ (d.status, d.result) = fate table text := by
  have call : (calls actions)[i]? = some (.submit text) := finished.made ▸ getElem?_agenda here
  have undisturbed := h.session.undisturbed h.calm h.inTime
  obtain ⟨owned, faithful⟩ := undisturbed.faithful
  obtain ⟨-, settled⟩ := (finished.quiescent h).settled undisturbed.going.sound
    (receipts k (opened n table .empty) actions)
  have landed : ∀ {id d}, s.store.find? id = some d → (d.status, d.result) = fate table d.text :=
    fun found => (undisturbed.landed faithful settled table _ (Store.mem_all.2 ⟨_, found⟩)).1
  obtain ⟨c, there, ⟨_, same, submitting⟩ | ⟨close, _⟩⟩ := h.submissions.stands call
  · cases same
    obtain ⟨reply, rfl⟩ := finished.back c (List.mem_of_getElem? there)
    obtain ⟨d, returned⟩ := h.returned_of_done call there
    cases returned
    generalize same : deeds k i (opened n table .empty) actions = ds at submitting
    have owned : ∀ {id}, (∃ d ∈ ds, d.subject.id = some id) →
        Owns (deeds k i (opened n table .empty) actions) id := by
      rintro id ⟨d, listed, about⟩
      exact h.submissions.owns_of_mem (same ▸ listed) about
    cases submitting with
    | @unreadable id c e new wrong time =>
      obtain ⟨-, record, -⟩ := h.submissions.failed_early new (owned ⟨_, .head _, new.id_eq⟩)
        (by rw [same]; rfl) (by rw [same]; rfl)
      have named : (failed c e.message time).id = some id := new.id_eq
      have text_eq : (failed c e.message time).text = text := new.text_eq
      exact ⟨_, _, there, by rw [named]; exact record, text_eq, text_eq ▸ landed record⟩
    | @handed id c f new right worker =>
      obtain ⟨-, d, record, copy, -⟩ := h.submissions.record_of_handed new
        (owned ⟨_, .head _, new.id_eq⟩) (by rw [same]; rfl) (by rw [same]; rfl)
      have named : (queuedWith c f).id = some id := new.id_eq
      have text_eq : d.text = text := (congrArg (fun parts => parts.2.1) copy).trans new.text_eq
      exact ⟨_, d, there, by rw [named]; exact record, text_eq, text_eq ▸ landed record⟩
  · cases close

end Reckoner.Service
