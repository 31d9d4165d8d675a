import Reckoner.Proofs.Service.Copies
import Reckoner.Proofs.Service.Recording
import Reckoner.Proofs.Service.Resuming

/-!
# Submissions

Texts are submitted while others submit theirs, and the intake may be closed at any moment.
`Submitting` says where such a call is after what it did, and `Submissions.apart` that no two of
them are given the same number.
-/

namespace Reckoner.Service

variable {k : Collaborators} {s t : Service} {n : Nat} {table : CostTable} {first : Store}
variable {actions : List Action} {a : Action} {i j : Nat} {ds new : List Deed} {text : String}
variable {id : Calculation.Id} {c : Calculation}

/-! ### The way of a text -/

/-- A new calculation of a text, with its number. -/
def Entered (text : String) (id : Calculation.Id) (c : Calculation) : Prop :=
  ∃ time, c = { Calculation.new text time with id := some id }

namespace Entered

theorem id_eq (new : Entered text id c) : c.id = some id := by
  obtain ⟨time, rfl⟩ := new
  rfl

theorem text_eq (new : Entered text id c) : c.text = text := by
  obtain ⟨time, rfl⟩ := new
  rfl

theorem created (new : Entered text id c) : c.status = .created := by
  obtain ⟨time, rfl⟩ := new
  rfl

end Entered

/-- Where a call that submits a text is after what it did. -/
inductive Submitting (text : String) : Caller → List Deed → Prop
  | called : Submitting text (.submit text) []
  | entered {id : Calculation.Id} {c : Calculation} (new : Entered text id c) :
      Submitting text (.parse c) [.told ⟨.created, c⟩]
  | unreadable {id : Calculation.Id} {c : Calculation} {e : Error} (new : Entered text id c)
      (wrong : Formula.parse text = .error e) (time : Instant) :
      Submitting text (.done (.submitted (failed c e.message time)))
        [.told ⟨.created, c⟩, .told ⟨.completed, failed c e.message time⟩]
  | parsed {id : Calculation.Id} {c : Calculation} {f : Formula} (new : Entered text id c)
      (right : Formula.parse text = .ok f) :
      Submitting text (.reserve c f) [.told ⟨.created, c⟩]
  | reserved {id : Calculation.Id} {c : Calculation} {f : Formula} (new : Entered text id c)
      (right : Formula.parse text = .ok f) :
      Submitting text (.announce c f .submitted) [.told ⟨.created, c⟩, .reserved c]
  | announced {id : Calculation.Id} {c : Calculation} {f : Formula} (new : Entered text id c)
      (right : Formula.parse text = .ok f) :
      Submitting text (.send (queuedWith c f) .submitted)
        [.told ⟨.created, c⟩, .reserved c, .told ⟨.changed, queuedWith c f⟩]
  | offered {id : Calculation.Id} {c : Calculation} {f : Formula} (new : Entered text id c)
      (right : Formula.parse text = .ok f) :
      Submitting text (.offer (queuedWith c f) .submitted)
        [.told ⟨.created, c⟩, .reserved c, .told ⟨.changed, queuedWith c f⟩]
  | handed {id : Calculation.Id} {c : Calculation} {f : Formula} (new : Entered text id c)
      (right : Formula.parse text = .ok f) (worker : Nat) :
      Submitting text (.done (.submitted (queuedWith c f)))
        [.told ⟨.created, c⟩, .reserved c, .told ⟨.changed, queuedWith c f⟩,
          .handed (queuedWith c f) worker]
  | late {id : Calculation.Id} {c : Calculation} {f : Formula} (new : Entered text id c)
      (right : Formula.parse text = .ok f) :
      Submitting text (.reject c) [.told ⟨.created, c⟩, .refused c]
  | rejected {id : Calculation.Id} {c : Calculation} {f : Formula} (new : Entered text id c)
      (right : Formula.parse text = .ok f) (time : Instant) :
      Submitting text (.done (.refused .poolUnavailable))
        [.told ⟨.created, c⟩, .refused c,
          .told ⟨.completed, failed c Error.poolUnavailable.message time⟩]

theorem Submitting.parse (steady : k.Steady) (new : Entered text id c) :
    Submitting text (s.parse k c).2
      ([.told ⟨.created, c⟩] ++ (toldSince s (s.parse k c).1).map .told) := by
  rw [Service.parse, new.text_eq]
  split
  · rename_i f right
    simpa [toldSince_self] using parsed new right
  · rename_i e wrong
    obtain ⟨t, fails, told⟩ := failParse_steady (s := s) steady new.created e
      fun d => .done (.submitted d)
    simpa [fails, told] using unreadable new wrong _

/-- Whatever happens, the call goes on as it should, unless it waits for workers and all have
ended. -/
theorem Submitting.acts {caller after : Caller} (steady : k.Steady)
    (h : Submitting text caller ds)
    (staffed : caller.holdsHandoff = true → s.workers.all Worker.isGone = false)
    (acts : Acts k s t caller after new) : Submitting text after (ds ++ new) := by
  cases acts with
  | waits => simpa using h
  | meets =>
    cases h with
    | offered new right => simpa [handedOver] using handed new right _
  | uses | drops => cases h
  | steps own =>
    cases h with
    | called =>
      obtain ⟨u, submits, told⟩ := submit_steady (s := s) steady text
      rw [stepCaller, submits] at own
      cases own
      have next : Submitting text (.parse (s.numbered (.new text (k.clock s.readings))))
          [.told ⟨.created, s.numbered (.new text (k.clock s.readings))⟩] := entered ⟨_, rfl⟩
      simpa [reservation, Caller.reserving, told] using next
    | entered new =>
      have next := Submitting.parse (s := s) steady new
      rw [Option.some.inj own] at next
      simpa [reservation, Caller.reserving] using next
    | parsed new right =>
      cases own
      cases isOpen : s.isOpen with
      | true =>
        simpa [reservation, Caller.reserving, isOpen, toldSince_self] using reserved new right
      | false => simpa [reservation, Caller.reserving, isOpen, toldSince_self] using late new right
    | @reserved id c f new right =>
      obtain ⟨u, announces, told⟩ := announce_steady (s := s) steady new.created f .submitted
      rw [stepCaller, announces] at own
      cases own
      simpa [reservation, Caller.reserving, told] using announced new right
    | announced new right =>
      cases own
      simpa [reservation, Caller.reserving, toldSince_self, send, queuedWith] using
        offered new right
    | offered new right =>
      rw [stepCaller, if_neg (by simp [staffed rfl])] at own
      cases own
    | @late id c f new right =>
      obtain ⟨u, fails, told⟩ := failParse_steady (s := s) steady new.created .poolUnavailable
        fun _ => .done (.refused .poolUnavailable)
      rw [stepCaller, reject, fails] at own
      cases own
      simpa [reservation, Caller.reserving, told] using rejected new right _
    | handed | unreadable | rejected => cases own

/-! ### A single number -/

/-- The deeds of a call that was given the number: its creation, and nothing not about it. -/
def Owns (ds : List Deed) (id : Calculation.Id) : Prop :=
  (∃ c, .told ⟨.created, c⟩ ∈ ds) ∧ ∀ d ∈ ds, d.subject.id = some id

theorem Submitting.owns {caller : Caller} (h : Submitting text caller ds) :
    ds = [] ∨ ∃ id, Owns ds id := by
  cases h with
  | called => exact .inl rfl
  | @entered id c new | @unreadable id c _ new | @parsed id c _ new | @reserved id c _ new
  | @announced id c _ new | @offered id c _ new | @handed id c _ new | @late id c _ new
  | @rejected id c _ new =>
    refine .inr ⟨id, ⟨c, .head _⟩, ?_⟩
    simp [Deed.subject, queuedWith, failed, new.id_eq]

/-- What a caller told. -/
def tellings (ds : List Deed) : List Notice :=
  ds.filterMap fun
    | .told m => some m
    | _ => none

@[simp] theorem tellings_append (first rest : List Deed) :
    tellings (first ++ rest) = tellings first ++ tellings rest :=
  List.filterMap_append

theorem mem_tellings {m : Notice} : m ∈ tellings ds ↔ .told m ∈ ds := by
  constructor
  · intro member
    obtain ⟨d, listed, same⟩ := List.mem_filterMap.1 member
    cases d with
    | told m =>
      cases same
      exact listed
    | _ => cases same
  · exact fun listed => List.mem_filterMap.2 ⟨_, listed, rfl⟩

theorem tellings_deed_caller (s t : Service) (i : Nat) :
    tellings (s.deed t i (.caller i)) = toldSince s t := by
  have silent : tellings (s.callers[i]?.toList.flatMap s.reservation) = [] := by
    cases s.callers[i]? with
    | none => rfl
    | some c =>
      simp only [Option.toList_some, List.flatMap_cons, List.flatMap_nil, List.append_nil,
        reservation]
      cases c.reserving with
      | none => rfl
      | some d => cases s.isOpen <;> rfl
  rw [deed, if_pos rfl, tellings_append, silent]
  simp [tellings, List.filterMap_map]

/-- Only by its own step a caller tells anything. -/
theorem tellings_deed_other (other : a ≠ .caller i) : tellings (s.deed t i a) = [] := by
  cases a with
  | caller j =>
    have apart : j ≠ i := fun same => other (same ▸ rfl)
    rw [deed, if_neg apart]
    rfl
  | handOver j l =>
    rw [deed]
    split
    · simp [tellings, List.filterMap_map]
    · rfl
  | _ => rfl

/-! ### Submissions -/

def Caller.isSubmission : Caller → Bool
  | .submit _ => true
  | _ => false

theorem Caller.eq_of_isSubmission {c : Caller} (h : c.isSubmission = true) :
    ∃ text, c = .submit text := by
  cases c with
  | submit text => exact ⟨text, rfl⟩
  | _ => cases h

/-- A run in which texts are submitted and the intake is closed, and nothing else is called. There
are numbers enough. -/
structure Submissions (k : Collaborators) (n : Nat) (table : CostTable) (first : Store)
    (actions : List Action) (s : Service) : Prop where
  forwards : k.Forwards
  manned : 0 < n
  asked : ∀ c ∈ calls actions, c.isSubmission = true ∨ c = .close
  space : (calls actions).countP Caller.isSubmission ≤ UInt64.size
  run : (opened n table first).run k actions = some s

/-- The numbers given out and the texts still to be entered. -/
theorem CallerStep.entering {c c' : Caller} (step : CallerStep k s c t c') :
    (Recorded.numbers t.notices).length + c'.isSubmission.toNat =
      (Recorded.numbers s.notices).length + c.isSubmission.toNat := by
  have later : ∀ {m : Notice}, m.occasion ≠ .created →
      (Recorded.numbers (m :: s.notices)).length + 0 = (Recorded.numbers s.notices).length + 0 :=
    fun later => by rw [Recorded.numbers_later later]
  cases step with
  | submitted =>
    simp only [introduced, Recorded.numbers_created, List.length_cons]
    rfl
  | unparsed | rejected | unreadable | announced => exact later (by simp)
  | _ => rfl

theorem WorkerStep.numbers {stage : Stage} {view : WorkerView} {w : Worker}
    (step : WorkerStep k s view stage t w) :
    Recorded.numbers t.notices = Recorded.numbers s.notices := by
  cases step with
  | began | concluded | recovered => exact Recorded.numbers_later (by simp) _
  | _ => rfl

theorem countP_set_add {α : Type} (p : α → Bool) {l : List α} {a : α} (here : l[i]? = some a)
    (b : α) : (l.set i b).countP p + (p a).toNat = l.countP p + (p b).toNat := by
  obtain ⟨inside, rfl⟩ := List.getElem?_eq_some_iff.1 here
  rw [List.countP_set inside]
  cases old : p l[i] with
  | false => cases p b <;> simp
  | true =>
    have positive := List.countP_pos_iff.2 ⟨_, List.getElem_mem inside, old⟩
    cases p b <;> simp <;> omega

namespace Submissions

theorem steady (h : Submissions k n table first actions s) : k.Steady := by
  intro i m
  rw [h.forwards]

theorem shift (h : Submissions k n table first actions s) : Shift k n table first actions s := by
  refine ⟨h.manned, fun a member => ?_, h.run⟩
  cases a with
  | call c =>
    rcases h.asked c (List.mem_filterMap.2 ⟨_, member, rfl⟩) with submission | rfl
    · obtain ⟨text, rfl⟩ := Caller.eq_of_isSubmission submission
      rfl
    · rfl
  | _ => trivial

theorem usual (h : Submissions k n table first actions s) : ∀ a ∈ actions, a.Usual := by
  refine h.shift.usual fun c call => ?_
  rcases h.asked c call with submission | rfl
  · obtain ⟨text, rfl⟩ := Caller.eq_of_isSubmission submission
    simp
  · simp

/-- What holds at the opening and is kept by one more action holds of every such run. -/
theorem trace {P : List Action → Service → Prop} (h : Submissions k n table first actions s)
    (start : P [] (opened n table first))
    (more : ∀ {actions s t a}, Submissions k n table first actions s →
      Submissions k n table first (actions ++ [a]) t → s.step k a = some t → ActionStep k s a t →
      P actions s → P (actions ++ [a]) t) : P actions s := by
  refine h.shift.trace
    (P := fun actions s => (∀ c ∈ calls actions, c.isSubmission = true ∨ c = .close) →
      (calls actions).countP Caller.isSubmission ≤ UInt64.size → P actions s)
    (fun _ _ => start) ?_ h.asked h.space
  intro actions s t a shift before permitted happened asked space
  have asked' := asked
  have space' := space
  rw [calls_concat, List.forall_mem_append] at asked'
  rw [calls_concat, List.countP_append] at space'
  have now : Submissions k n table first actions s :=
    ⟨h.forwards, h.manned, asked'.1, by omega, shift.run⟩
  have next : Submissions k n table first (actions ++ [a]) t :=
    ⟨h.forwards, h.manned, asked, space, (shift.step permitted happened).run⟩
  have usual := (List.forall_mem_append.1 next.usual).2 a (.head _)
  exact more now next happened
    (step_cases h.forwards (shift.sound h.forwards now.usual) usual happened)
    (before now.asked now.space)

theorem entering (h : Submissions k n table first actions s) :
    (Recorded.numbers s.notices).length + s.callers.countP Caller.isSubmission =
      (calls actions).countP Caller.isSubmission := by
  refine h.trace (P := fun actions s =>
    (Recorded.numbers s.notices).length + s.callers.countP Caller.isSubmission =
      (calls actions).countP Caller.isSubmission) rfl ?_
  intro actions s t a _ _ _ step before
  rw [calls_concat, List.countP_append, ← before]
  cases step with
  | worker _ step =>
    show (Recorded.numbers _).length + _ = _
    rw [step.numbers]
    rfl
  | @caller i c c' t here step =>
    have one := step.entering
    have all := countP_set_add Caller.isSubmission here c'
    simp only [Action.call?, Option.toList_none, List.countP_nil]
    omega
  | @handedOver i j c next view offering =>
    have all := countP_set_add Caller.isSubmission offering (handedOver c next)
    have neither : (handedOver c next).isSubmission = false := by cases next <;> rfl
    rw [neither] at all
    simpa [Action.call?, Caller.isSubmission] using all
  | dropped holding =>
    have all := countP_set_add Caller.isSubmission holding (.done .dropped)
    simpa [Action.call?, Caller.isSubmission] using all
  | called => simp [Action.call?, Nat.add_assoc]
  | repriced => rfl

theorem nodup (h : Submissions k n table first actions s) :
    (Recorded.numbers s.notices).Nodup := by
  have recorded : Recorded first s.notices s.store := recorded_of_run h.forwards h.run .none
  have entering := h.entering
  have space := h.space
  exact recorded.nodup_numbers (by omega)

theorem stands (h : Submissions k n table first actions s) {c : Caller}
    (call : (calls actions)[i]? = some c) : ∃ caller, s.callers[i]? = some caller ∧
      ((∃ text, c = .submit text ∧
        Submitting text caller (deeds k i (opened n table first) actions)) ∨
      c = .close ∧ caller.Closing ∧ deeds k i (opened n table first) actions = []) := by
  have all := h.shift.history (H := fun c₀ c ds =>
      (∀ text, c₀ = .submit text → Submitting text c ds) ∧ (c₀ = .close → c.Closing ∧ ds = []))
    ?_ ?_ call
  · obtain ⟨caller, here, submitting, closing⟩ := all
    refine ⟨caller, here, ?_⟩
    rcases h.asked c (List.mem_of_getElem? call) with submission | rfl
    · obtain ⟨text, rfl⟩ := Caller.eq_of_isSubmission submission
      exact .inl ⟨text, rfl, submitting text rfl⟩
    · exact .inr ⟨rfl, closing rfl⟩
  · refine fun c _ => ⟨?_, ?_⟩
    · rintro text rfl
      exact .called
    · rintro rfl
      exact ⟨.begun, rfl⟩
  · intro actions s t c₀ c c' ds new shift member before acts
    refine ⟨fun text same => ?_, fun same => ?_⟩
    · refine (before.1 text same).acts h.steady
        (fun holds => shift.staffed ?_ (.inr ⟨c, member, holds⟩)) acts
      rw [fatalities_eq_zero h.steady]
      exact h.manned
    · obtain ⟨closing, rfl⟩ := before.2 same
      obtain ⟨rfl, closing⟩ := acts.closing closing
      exact ⟨closing, rfl⟩

/-- All deeds of a caller are about the number that it was given. -/
theorem owns (h : Submissions k n table first actions s) (i : Nat) :
    deeds k i (opened n table first) actions = [] ∨
      ∃ id, Owns (deeds k i (opened n table first) actions) id := by
  cases call : (calls actions)[i]? with
  | none =>
    rw [List.getElem?_eq_none_iff, ← h.shift.length_calls, ← List.getElem?_eq_none_iff] at call
    exact .inl (h.shift.deeds_of_absent call)
  | some c =>
    obtain ⟨_, _, ⟨text, _, submitting⟩ | ⟨_, _, nothing⟩⟩ := h.stands call
    · exact submitting.owns
    · exact .inl nothing

theorem owns_of_mem (h : Submissions k n table first actions s) {d : Deed}
    (listed : d ∈ deeds k i (opened n table first) actions) (about : d.subject.id = some id) :
    Owns (deeds k i (opened n table first) actions) id := by
  rcases h.owns i with nothing | ⟨x, own⟩
  · rw [nothing] at listed
    cases listed
  · cases (own.2 d listed).symm.trans about
    exact own

theorem mem_numbers (h : Submissions k n table first actions s)
    (own : Owns (deeds k i (opened n table first) actions) id) :
    some id ∈ Recorded.numbers s.notices := by
  obtain ⟨⟨c, created⟩, about⟩ := own
  exact about _ created ▸ Recorded.mem_numbers (h.shift.notices_of_told created) rfl

/-- A calculation under a number that was received, or told of, belongs to the caller that was given
the number. -/
theorem owner_of_received (h : Submissions k n table first actions s) {r : Calculation × Nat}
    (taken : r ∈ h.shift.received) (named : r.1.id = some id) :
    ∃ i, Owns (deeds k i (opened n table first) actions) id ∧
      .handed r.1 r.2 ∈ deeds k i (opened n table first) actions := by
  obtain ⟨i, handed⟩ := h.shift.handed_of_received taken
  exact ⟨i, h.owns_of_mem handed named, handed⟩

theorem owner_of_told (h : Submissions k n table first actions s) {m : Notice}
    (told : m ∈ s.notices) (named : m.calculation.id = some id) :
    ∃ i, Owns (deeds k i (opened n table first) actions) id := by
  rcases h.shift.told_of_notices told with ⟨i, own⟩ | ⟨j, reported⟩
  · exact ⟨i, h.owns_of_mem own named⟩
  · obtain ⟨c, taken, same⟩ := h.shift.received_of_reported reported
    obtain ⟨i, own, _⟩ := h.owner_of_received taken (same.symm.trans named)
    exact ⟨i, own⟩

end Submissions

/-- Only the entry of a text creates anything, and it gives out a number. -/
theorem ActionStep.created (step : ActionStep k s a t)
    (created : .told ⟨.created, c⟩ ∈ s.deed t i a) :
    a = .caller i ∧ Recorded.numbers t.notices = c.id :: Recorded.numbers s.notices := by
  cases step with
  | @caller j d d' u here step =>
    have own : j = i := by
      by_contra other
      rw [deed, if_neg other] at created
      cases created
    subst own
    refine ⟨rfl, ?_⟩
    rcases mem_deed_caller created with ⟨d, _, asked⟩ | ⟨m, told, same⟩
    · obtain ⟨e, ⟨_, same⟩ | ⟨_, same⟩⟩ := mem_reservation asked <;> cases same
    · cases same
      have only : ∀ {v : Service} {m : Notice}, v.notices = m :: s.notices →
          (⟨.created, c⟩ : Notice) ∈ toldSince s v → m = ⟨.created, c⟩ := by
        intro v m grown told
        rw [toldSince_eq_singleton grown] at told
        exact (List.mem_singleton.1 told).symm
      have quiet : ∀ {v : Service}, v.notices = s.notices →
          (⟨.created, c⟩ : Notice) ∉ toldSince s v := by
        intro v same told
        rw [toldSince_eq_nil same] at told
        cases told
      cases step with
      | submitted =>
        cases only rfl told
        exact Recorded.numbers_created _ _
      | unparsed | rejected | unreadable | announced => cases only rfl told
      | _ => exact (quiet rfl told).elim
  | @handedOver j l d next view offering =>
    rw [deed] at created
    split at created <;> simp at created
  | _ => cases created

namespace Submissions

/-- The number of a caller is as old as its deeds. -/
theorem owns_step (h : Submissions k n table first actions s)
    (next : Submissions k n table first (actions ++ [a]) t) (happened : s.step k a = some t)
    (step : ActionStep k s a t)
    (own : Owns (deeds k i (opened n table first) (actions ++ [a])) id) :
    Owns (deeds k i (opened n table first) actions) id ∨
      deeds k i (opened n table first) actions = [] ∧ a = .caller i ∧
        Recorded.numbers t.notices = some id :: Recorded.numbers s.notices := by
  have concat := deeds_concat (i := i) h.run happened
  rw [concat] at own
  rcases h.owns i with nothing | ⟨x, old⟩
  · obtain ⟨⟨c, created⟩, about⟩ := own
    rw [nothing, List.nil_append] at created about
    obtain ⟨rfl, numbers⟩ := step.created created
    exact .inr ⟨nothing, rfl, about _ created ▸ numbers⟩
  · obtain ⟨c, created⟩ := old.1
    cases (old.2 _ created).symm.trans (own.2 _ (List.mem_append_left _ created))
    exact .inl old

theorem apart (h : Submissions k n table first actions s) :
    ∀ i j id, Owns (deeds k i (opened n table first) actions) id →
      Owns (deeds k j (opened n table first) actions) id → i = j := by
  refine h.trace (P := fun actions _ => ∀ i j id,
    Owns (deeds k i (opened n table first) actions) id →
      Owns (deeds k j (opened n table first) actions) id → i = j) ?_ ?_
  · rintro i j id ⟨⟨c, created⟩, _⟩
    cases created
  · intro actions s t a h next happened step before i j id own own'
    -- A new number is not among the old ones.
    have fresh : ∀ {l : Nat}, Recorded.numbers t.notices = some id :: Recorded.numbers s.notices →
        ¬ Owns (deeds k l (opened n table first) actions) id := by
      intro l grown own
      have nodup := next.nodup
      rw [grown, List.nodup_cons] at nodup
      exact nodup.1 (h.mem_numbers own)
    rcases h.owns_step next happened step own with old | ⟨_, mine, grown⟩
    · rcases h.owns_step next happened step own' with old' | ⟨_, _, grown⟩
      · exact before i j id old old'
      · exact (fresh grown old).elim
    · rcases h.owns_step next happened step own' with old' | ⟨_, theirs, _⟩
      · exact (fresh grown old').elim
      · cases mine.symm.trans theirs
        rfl

end Submissions

end Reckoner.Service
