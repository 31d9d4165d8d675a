import Reckoner.Proofs.Service.Closing

/-!
# Deeds

What a single caller does in a shift, as far as others can tell: it asks for handoffs, it tells the
listener, and it hands calculations over. `deeds` reads this off the actions. `Shift.history` says
that whatever each action keeps, in view of what it is to one caller, holds of every caller and all
its deeds.
-/

namespace Reckoner.Service

variable {k : Collaborators} {s t u : Service} {n : Nat} {table : CostTable} {store : Store}
variable {i : Nat} {a : Action} {actions : List Action}

inductive Deed where
  /-- Asked for a handoff for the calculation while the intake was open. -/
  | reserved (c : Calculation)
  /-- Asked for one when the intake was closed. -/
  | refused (c : Calculation)
  | told (m : Notice)
  | handed (c : Calculation) (worker : Nat)

/-- The calculation for which the next step of a caller asks for a handoff. -/
def Caller.reserving : Caller → Option Calculation
  | .reserve c _ | .request c => some c
  | .resume (c :: _) _ => if isResumable c then some c else none
  | _ => none

/-- What the next step of a caller asks for, with the answer that it gets. -/
def reservation (s : Service) (c : Caller) : List Deed :=
  c.reserving.toList.map fun d => if s.isOpen then .reserved d else .refused d

/-- What the caller at one place does by an action. -/
def deed (s t : Service) (i : Nat) : Action → List Deed
  | .caller j =>
    if j = i then s.callers[i]?.toList.flatMap s.reservation ++ (toldSince s t).map .told else []
  | .handOver j l => if j = i then (s.receipt (.handOver j l)).map fun r => .handed r.1 r.2 else []
  | _ => []

/-- All that the caller at one place does in a run, earliest first. -/
def deeds (k : Collaborators) (i : Nat) : Service → List Action → List Deed
  | _, [] => []
  | s, a :: rest => match s.step k a with
    | some t => s.deed t i a ++ deeds k i t rest
    | none => []

def Action.call? : Action → Option Caller
  | .call c => some c
  | _ => none

/-- The calls from outside, earliest first: the caller at each place began with the call there. -/
def calls (actions : List Action) : List Caller :=
  actions.filterMap Action.call?

/-- The calculations handed over, with the workers that took them. -/
def deliveries (ds : List Deed) : List (Calculation × Nat) :=
  ds.filterMap fun
    | .handed c j => some (c, j)
    | _ => none

@[simp] theorem deliveries_append (first rest : List Deed) :
    deliveries (first ++ rest) = deliveries first ++ deliveries rest :=
  List.filterMap_append

@[simp] theorem deliveries_reserved (c : Calculation) (ds : List Deed) :
    deliveries (.reserved c :: ds) = deliveries ds :=
  rfl

@[simp] theorem deliveries_refused (c : Calculation) (ds : List Deed) :
    deliveries (.refused c :: ds) = deliveries ds :=
  rfl

@[simp] theorem deliveries_notice (m : Notice) (ds : List Deed) :
    deliveries (.told m :: ds) = deliveries ds :=
  rfl

@[simp] theorem deliveries_handed (c : Calculation) (j : Nat) (ds : List Deed) :
    deliveries (.handed c j :: ds) = (c, j) :: deliveries ds :=
  rfl

@[simp] theorem deliveries_nil : deliveries [] = [] :=
  rfl

theorem mem_deliveries {r : Calculation × Nat} {ds : List Deed} :
    r ∈ deliveries ds ↔ .handed r.1 r.2 ∈ ds := by
  constructor
  · intro member
    obtain ⟨d, listed, same⟩ := List.mem_filterMap.1 member
    cases d with
    | handed c j =>
      cases same
      exact listed
    | _ => cases same
  · exact fun listed => List.mem_filterMap.2 ⟨_, listed, rfl⟩

@[simp] theorem deliveries_told (told : List Notice) : deliveries (told.map .told) = [] := by
  simp [deliveries, List.filterMap_map]

/-! ### One more action -/

theorem deeds_concat (ran : s.run k actions = some t) (happened : t.step k a = some u) :
    deeds k i s (actions ++ [a]) = deeds k i s actions ++ t.deed u i a := by
  induction actions generalizing s with
  | nil =>
    cases ran
    simp only [List.nil_append, deeds, happened, List.append_nil]
  | cons b rest ih =>
    rw [run_cons, Option.bind_eq_some_iff] at ran
    obtain ⟨v, first, ran⟩ := ran
    simp only [List.cons_append, deeds, first, ih ran, List.append_assoc]

theorem receipts_concat (ran : s.run k actions = some t) (happened : t.step k a = some u) :
    receipts k s (actions ++ [a]) = receipts k s actions ++ t.receipt a := by
  induction actions generalizing s with
  | nil =>
    cases ran
    simp only [List.nil_append, receipts, happened, List.append_nil]
  | cons b rest ih =>
    rw [run_cons, Option.bind_eq_some_iff] at ran
    obtain ⟨v, first, ran⟩ := ran
    simp only [List.cons_append, receipts, first, ih ran, List.append_assoc]

theorem reports_concat (ran : s.run k actions = some t) (happened : t.step k a = some u) :
    reports k s (actions ++ [a]) = reports k s actions ++ t.report u a := by
  induction actions generalizing s with
  | nil =>
    cases ran
    simp only [List.nil_append, reports, happened, List.append_nil]
  | cons b rest ih =>
    rw [run_cons, Option.bind_eq_some_iff] at ran
    obtain ⟨v, first, ran⟩ := ran
    simp only [List.cons_append, reports, first, ih ran, List.append_assoc]

theorem calls_concat (actions : List Action) (a : Action) :
    calls (actions ++ [a]) = calls actions ++ a.call?.toList := by
  rw [calls, List.filterMap_append, calls]
  cases h : a.call? <;> simp [h]

theorem calls_of_isInside {more : List Action} (inside : ∀ a ∈ more, a.isInside = true) :
    calls more = [] := by
  rw [calls, List.filterMap_eq_nil_iff]
  intro a member
  cases a with
  | call c => cases inside _ member
  | _ => rfl

namespace Shift

/-- What holds at the opening and is kept by one more action holds of every shift. -/
theorem trace {P : List Action → Service → Prop} (h : Shift k n table store actions s)
    (start : P [] (opened n table store))
    (more : ∀ {actions s t a}, Shift k n table store actions s → P actions s → a.Permitted →
      s.step k a = some t → P (actions ++ [a]) t) : P actions s := by
  induction actions using List.reverseRecOn generalizing s with
  | nil =>
    cases h.run
    exact start
  | append_singleton actions a ih =>
    have run := h.run
    rw [run_append, Option.bind_eq_some_iff] at run
    obtain ⟨u, run, last⟩ := run
    rw [run_cons, Option.bind_eq_some_iff] at last
    obtain ⟨v, happened, same⟩ := last
    cases same
    obtain ⟨earlier, permitted⟩ := List.forall_mem_append.1 h.permitted
    have before : Shift k n table store actions u := ⟨h.manned, earlier, run⟩
    exact more before (ih before) (permitted a (.head _)) happened

end Shift

/-! ### A single caller -/

/-- What an action is to the caller at one place. -/
inductive Acts (k : Collaborators) (s t : Service) : Caller → Caller → List Deed → Prop where
  /-- The action of others. -/
  | waits {c : Caller} : Acts k s t c c []
  | steps {c c' : Caller} {u : Service} (own : s.stepCaller k c = some (u, c')) :
      Acts k s t c c' (s.reservation c ++ (toldSince s u).map .told)
  | meets {c : Calculation} {next : Then} {j : Nat} :
      Acts k s t (.offer c next) (handedOver c next) [.handed c j]
  | uses {c : Calculation} : Acts k s t .hold (.send c .accepted) []
  | drops : Acts k s t .hold (.done .dropped) []

theorem acts_of_step (orderly : s.Orderly) (happened : s.step k a = some t) {c : Caller}
    (here : s.callers[i]? = some c) :
    ∃ c', t.callers[i]? = some c' ∧ Acts k s t c c' (s.deed t i a) := by
  have other : ∀ {j : Nat} {d : Caller}, j ≠ i → (s.callers.set j d)[i]? = some c :=
    fun apart => (List.getElem?_set_ne apart).trans here
  cases happens_of_step happened with
  | @worker j w w' u there own =>
    obtain ⟨_, follows⟩ :=
      (stepWorker_turn (orderly.workers w (List.mem_of_getElem? there)) own).follows
    exact ⟨c, follows.callers ▸ here, .waits⟩
  | @caller j d d' u there own =>
    obtain ⟨_, callers, _⟩ :=
      (stepCaller_turn (orderly.callers d (List.mem_of_getElem? there)) own).frame
    dsimp only
    rw [callers]
    by_cases same : j = i
    · subst same
      cases here.symm.trans there
      refine ⟨d', getElem?_set_of_getElem? here, ?_⟩
      simpa [deed, here, toldSince] using Acts.steps own
    · refine ⟨c, other same, ?_⟩
      simpa [deed, same] using Acts.waits
  | @handedOver j l d next view offering waiting =>
    by_cases same : j = i
    · subst same
      cases here.symm.trans offering
      refine ⟨_, getElem?_set_of_getElem? here, ?_⟩
      simpa [deed, receipt, here] using Acts.meets
    · refine ⟨c, other same, ?_⟩
      simpa [deed, same] using Acts.waits
  | @used j d holding =>
    by_cases same : j = i
    · subst same
      cases here.symm.trans holding
      exact ⟨_, getElem?_set_of_getElem? here, .uses⟩
    · exact ⟨c, other same, .waits⟩
  | @dropped j holding =>
    by_cases same : j = i
    · subst same
      cases here.symm.trans holding
      exact ⟨_, getElem?_set_of_getElem? here, .drops⟩
    · exact ⟨c, other same, .waits⟩
  | called =>
    exact ⟨c, (List.getElem?_append_left (List.getElem?_eq_some_iff.1 here).1).trans here, .waits⟩
  | repriced => exact ⟨c, here, .waits⟩

/-- Nobody does anything before the call. -/
theorem deed_eq_nil (happened : s.step k a = some t) (absent : s.callers[i]? = none) :
    s.deed t i a = [] := by
  cases happens_of_step happened with
  | @caller j d d' u there =>
    have other : j ≠ i := by
      rintro rfl
      rw [absent] at there
      cases there
    simp [deed, other]
  | @handedOver j l d next view offering =>
    have other : j ≠ i := by
      rintro rfl
      rw [absent] at offering
      cases offering
    simp [deed, other]
  | _ => rfl

namespace Shift

theorem length_calls (h : Shift k n table store actions s) :
    s.callers.length = (calls actions).length := by
  refine h.trace (P := fun actions s => s.callers.length = (calls actions).length) rfl ?_
  intro actions s t a h same permitted happened
  rw [calls_concat, List.length_append, ← same]
  cases step_turn h.orderly permitted happened with
  | worker _ turn =>
    obtain ⟨_, follows⟩ := turn.follows
    exact congrArg List.length follows.callers
  | caller | called | handedOver | used | dropped | repriced => simp [Action.call?]

theorem deeds_of_absent (h : Shift k n table store actions s) (absent : s.callers[i]? = none) :
    deeds k i (opened n table store) actions = [] := by
  refine h.trace (P := fun actions s => s.callers[i]? = none →
    deeds k i (opened n table store) actions = []) (fun _ => rfl) ?_ absent
  intro actions s t a h before permitted happened absent
  have earlier : s.callers[i]? = none := by
    by_contra present
    obtain ⟨c, here⟩ := Option.ne_none_iff_exists'.1 present
    obtain ⟨c', there, _⟩ := acts_of_step h.orderly happened here
    rw [absent] at there
    cases there
  rw [deeds_concat h.run happened, before earlier, deed_eq_nil happened earlier]
  rfl

/-- What each action keeps, in view of what it is to one caller, holds of every caller: how it
began, where it is, and what it did so far. -/
theorem history {H : Caller → Caller → List Deed → Prop} (h : Shift k n table store actions s)
    (begins : ∀ c, c.isCall = true → H c c [])
    (goes : ∀ {actions s t c₀ c c' ds new}, Shift k n table store actions s → c ∈ s.callers →
      H c₀ c ds → Acts k s t c c' new → H c₀ c' (ds ++ new)) {c₀ : Caller}
    (call : (calls actions)[i]? = some c₀) :
    ∃ c, s.callers[i]? = some c ∧ H c₀ c (deeds k i (opened n table store) actions) := by
  refine h.trace (P := fun actions s => ∀ c₀, (calls actions)[i]? = some c₀ →
    ∃ c, s.callers[i]? = some c ∧ H c₀ c (deeds k i (opened n table store) actions)) ?_ ?_ c₀ call
  · intro c₀ call
    cases call
  · intro actions s t a h before permitted happened c₀ call
    rw [deeds_concat h.run happened]
    by_cases earlier : i < (calls actions).length
    · rw [calls_concat, List.getElem?_append_left earlier] at call
      obtain ⟨c, here, so⟩ := before c₀ call
      obtain ⟨c', there, acts⟩ := acts_of_step h.orderly happened here
      exact ⟨c', there, goes h (List.mem_of_getElem? here) so acts⟩
    · rw [calls_concat, List.getElem?_append_right (Nat.le_of_not_lt earlier)] at call
      rw [← h.length_calls] at earlier call
      have absent := List.getElem?_eq_none (Nat.le_of_not_lt earlier)
      rw [h.deeds_of_absent absent, deed_eq_nil happened absent]
      cases a with
      | call c =>
        cases happened
        obtain ⟨last, rfl⟩ := List.getElem?_eq_some_iff.1 call
        have place : i = s.callers.length := by
          simp [Action.call?] at last
          omega
        subst place
        refine ⟨c, List.getElem?_concat_length, ?_⟩
        simpa [Action.call?] using begins c permitted
      | _ => cases call

end Shift

/-- Only a call to close is at the point of closing, and only a call for a handoff holds one. -/
theorem Acts.origin {c c' : Caller} {new : List Deed} (acts : Acts k s t c c' new)
    (orderly : s.Orderly) (member : c ∈ s.callers) : (c' = .close → c = .close) ∧
      (c' = .acquire ∨ c' = .hold → c = .acquire ∨ c = .hold) := by
  cases acts with
  | waits => exact ⟨id, id⟩
  | steps own => cases stepCaller_turn (orderly.callers c member) own <;> simp
  | @meets _ next => cases next <;> simp [handedOver]
  | uses | drops => simp

namespace Shift

theorem origin (h : Shift k n table store actions s) {c : Caller} (member : c ∈ s.callers) :
    (c = .close → .close ∈ calls actions) ∧ (c = .hold → .acquire ∈ calls actions) := by
  obtain ⟨i, here⟩ := List.mem_iff_getElem?.1 member
  have inside : i < (calls actions).length :=
    h.length_calls ▸ (List.getElem?_eq_some_iff.1 here).1
  obtain ⟨c', there, close, hold⟩ := h.history (H := fun c₀ c _ =>
      (c = .close → c₀ = .close) ∧ (c = .acquire ∨ c = .hold → c₀ = .acquire))
    (fun c call => ⟨id, by rintro (rfl | rfl) <;> first | rfl | cases call⟩)
    (fun before member origin acts => by
      obtain ⟨close, hold⟩ := acts.origin before.orderly member
      exact ⟨origin.1 ∘ close, origin.2 ∘ hold⟩) (List.getElem?_eq_getElem inside)
  cases here.symm.trans there
  have call := List.getElem_mem inside
  exact ⟨fun same => close same ▸ call, fun same => hold (.inr same) ▸ call⟩

theorem isOpen (h : Shift k n table store actions s) (never : Caller.close ∉ calls actions) :
    s.isOpen = true := by
  refine h.trace (P := fun actions s => Caller.close ∉ calls actions → s.isOpen = true)
    (fun _ => rfl) ?_ never
  intro actions s t a h before permitted happened never
  rw [calls_concat, List.mem_append, not_or] at never
  have isOpen := before never.1
  cases step_turn h.orderly permitted happened with
  | worker _ turn =>
    obtain ⟨_, follows⟩ := turn.follows
    exact follows.isOpen.trans isOpen
  | caller here turn =>
    rcases turn.follows with ⟨rfl, _⟩ | ⟨_, follows, _⟩
    · exact (never.1 ((h.origin (List.mem_of_getElem? here)).1 rfl)).elim
    · exact follows.isOpen.trans isOpen
  | handedOver | used | dropped | called | repriced => exact isOpen

/-- Nobody uses a handoff without a call for one. -/
theorem usual (h : Shift k n table store actions s)
    (ordinary : ∀ c ∈ calls actions, c ≠ .acquire ∧ ∀ d, c ≠ .request d) :
    ∀ a ∈ actions, a.Usual := by
  refine h.trace (P := fun actions _ => (∀ c ∈ calls actions, c ≠ .acquire ∧ ∀ d, c ≠ .request d) →
    ∀ a ∈ actions, a.Usual) (fun _ => List.forall_mem_nil _) ?_ ordinary
  intro actions s t a h before permitted happened ordinary
  rw [calls_concat, List.forall_mem_append] at ordinary
  refine List.forall_mem_append.2 ⟨before ordinary.1, List.forall_mem_singleton.2 ?_⟩
  cases happens_of_step happened with
  | used holding =>
    have acquired := (h.origin (List.mem_of_getElem? holding)).2 rfl
    exact ((ordinary.1 _ acquired).1 rfl).elim
  | @called c =>
    have call := ordinary.2 c (by simp [Action.call?])
    cases c with
    | acquire => exact (call.1 rfl).elim
    | request d => exact (call.2 d rfl).elim
    | submit | resume | close => trivial
    | _ => cases permitted
  | _ => trivial

end Shift

/-! ### All callers -/

@[simp] theorem deliveries_reservation (s : Service) (c : Caller) :
    deliveries (s.reservation c) = [] := by
  rw [reservation]
  cases c.reserving with
  | none => rfl
  | some d => cases s.isOpen <;> rfl

/-- What an action hands over, the caller does or another one that is at the rendezvous. -/
theorem deliveries_deed (s t : Service) (i : Nat) (a : Action) :
    deliveries (s.deed t i a) = s.receipt a ∨
      deliveries (s.deed t i a) = [] ∧
        ∃ j c next, j ≠ i ∧ s.callers[j]? = some (.offer c next) := by
  cases a with
  | caller j =>
    refine .inl ?_
    rw [deed]
    split
    · cases s.callers[i]? <;> simp [receipt]
    · rfl
  | handOver j l =>
    rw [deed]
    split
    · refine .inl ?_
      simp [deliveries, List.filterMap_map]
    · rename_i other
      rw [receipt]
      split
      · rename_i c next offering
        exact .inr ⟨rfl, j, c, next, other, offering⟩
      · exact .inl rfl
  | _ => exact .inl rfl

/-- What an action brings to a worker, a caller hands over. -/
theorem handed_of_receipt {r : Calculation × Nat} (taken : r ∈ s.receipt a) :
    ∃ i, .handed r.1 r.2 ∈ s.deed t i a := by
  cases a with
  | handOver i j => exact ⟨i, by simpa [deed] using taken⟩
  | _ => cases taken

theorem toldSince_eq_nil (same : t.notices = s.notices) : toldSince s t = [] :=
  @toldSince_eq s t [] same

theorem toldSince_eq_singleton {m : Notice} (grown : t.notices = m :: s.notices) :
    toldSince s t = [m] :=
  @toldSince_eq s t [m] grown

theorem toldSince_self (s : Service) : toldSince s s = [] :=
  toldSince_eq_nil rfl

theorem mem_toldSince {told : List Notice} (grown : t.notices = told ++ s.notices) {m : Notice} :
    m ∈ t.notices ↔ m ∈ toldSince s t ∨ m ∈ s.notices := by
  rw [toldSince_eq grown, grown, List.mem_append, List.mem_reverse]

theorem mem_deed_caller {j : Nat} {d : Deed} (member : d ∈ s.deed t i (.caller j)) :
    (∃ c, s.callers[i]? = some c ∧ d ∈ s.reservation c) ∨ ∃ m ∈ toldSince s t, d = .told m := by
  rw [deed] at member
  split at member
  · rcases List.mem_append.1 member with asked | told
    · cases here : s.callers[i]? with
      | none => simp [here] at asked
      | some c => exact .inl ⟨c, rfl, by simpa [here] using asked⟩
    · obtain ⟨m, listed, rfl⟩ := List.mem_map.1 told
      exact .inr ⟨m, listed, rfl⟩
  · cases member

theorem mem_reservation {c : Caller} {d : Deed} (member : d ∈ s.reservation c) :
    ∃ e, s.isOpen = true ∧ d = .reserved e ∨ s.isOpen = false ∧ d = .refused e := by
  obtain ⟨e, _, rfl⟩ := List.mem_map.1 member
  cases s.isOpen
  · exact ⟨e, .inr ⟨rfl, rfl⟩⟩
  · exact ⟨e, .inl ⟨rfl, rfl⟩⟩

theorem mem_deed {d : Deed} (member : d ∈ s.deed t i a) :
    (∃ e, s.isOpen = true ∧ d = .reserved e ∨ s.isOpen = false ∧ d = .refused e) ∨
      (∃ m ∈ toldSince s t, d = .told m) ∨ ∃ r ∈ s.receipt a, d = .handed r.1 r.2 := by
  cases a with
  | caller j =>
    rcases mem_deed_caller member with ⟨c, _, asked⟩ | told
    · exact .inl (mem_reservation asked)
    · exact .inr (.inl told)
  | handOver j l =>
    rw [deed] at member
    split at member
    · obtain ⟨r, listed, rfl⟩ := List.mem_map.1 member
      exact .inr (.inr ⟨r, listed, rfl⟩)
    · cases member
  | _ => cases member

/-- Whatever an action tells, a caller or a worker tells. -/
theorem deed_or_report (orderly : s.Orderly) (permitted : a.Permitted)
    (happened : s.step k a = some t) {m : Notice} (told : m ∈ toldSince s t) :
    (∃ i, .told m ∈ s.deed t i a) ∨ ∃ j, (m, j) ∈ s.report t a := by
  have quiet : ∀ {u : Service}, u.notices = s.notices → m ∉ toldSince s u := by
    intro u same told
    rw [toldSince_eq_nil same] at told
    cases told
  cases step_turn orderly permitted happened with
  | @worker j => exact .inr ⟨j, List.mem_map.2 ⟨m, told, rfl⟩⟩
  | @caller j => exact .inl ⟨j, by simpa [deed] using .inr told⟩
  | handedOver | used | dropped | called | repriced => exact (quiet rfl told).elim

namespace Shift

theorem sublist_received (h : Shift k n table store actions s) :
    (deliveries (deeds k i (opened n table store) actions)).Sublist h.received := by
  refine h.trace
    (P := fun actions _ => (deliveries (deeds k i (opened n table store) actions)).Sublist
      (receipts k (opened n table store) actions)) (List.nil_sublist _) ?_
  intro actions s t a h before _ happened
  rw [deeds_concat h.run happened, receipts_concat h.run happened, deliveries_append]
  refine before.append ?_
  rcases deliveries_deed s t i a with same | ⟨nothing, _⟩
  · exact same ▸ List.Sublist.refl _
  · exact nothing ▸ List.nil_sublist _

theorem handed_of_received (h : Shift k n table store actions s) {r : Calculation × Nat}
    (taken : r ∈ h.received) : ∃ i, .handed r.1 r.2 ∈ deeds k i (opened n table store) actions := by
  refine h.trace (P := fun actions _ => r ∈ receipts k (opened n table store) actions →
    ∃ i, .handed r.1 r.2 ∈ deeds k i (opened n table store) actions) nofun ?_ taken
  intro actions s t a h before _ happened taken
  simp only [deeds_concat h.run happened, List.mem_append, exists_or]
  rw [receipts_concat h.run happened, List.mem_append] at taken
  exact taken.imp before handed_of_receipt

theorem told_of_notices (h : Shift k n table store actions s) {m : Notice} (told : m ∈ s.notices) :
    (∃ i, .told m ∈ deeds k i (opened n table store) actions) ∨ ∃ j, (m, j) ∈ h.reported := by
  refine h.trace (P := fun actions s => m ∈ s.notices →
    (∃ i, .told m ∈ deeds k i (opened n table store) actions) ∨
      ∃ j, (m, j) ∈ reports k (opened n table store) actions) nofun ?_ told
  intro actions s t a h before permitted happened told
  rw [reports_concat h.run happened]
  simp only [deeds_concat h.run happened, List.mem_append, exists_or]
  obtain ⟨_, grown⟩ := (step_turn h.orderly permitted happened).notices
  rcases (mem_toldSince grown).1 told with new | old
  · exact (deed_or_report h.orderly permitted happened new).imp .inr .inr
  · exact (before old).imp .inl .inl

theorem notices_of_told (h : Shift k n table store actions s) {m : Notice}
    (told : .told m ∈ deeds k i (opened n table store) actions) : m ∈ s.notices := by
  refine h.trace (P := fun actions s =>
    .told m ∈ deeds k i (opened n table store) actions → m ∈ s.notices) nofun ?_ told
  intro actions s t a h before permitted happened told
  obtain ⟨_, grown⟩ := (step_turn h.orderly permitted happened).notices
  rw [mem_toldSince grown]
  rw [deeds_concat h.run happened, List.mem_append] at told
  rcases told with old | new
  · exact .inr (before old)
  · rcases mem_deed new with ⟨e, ⟨_, same⟩ | ⟨_, same⟩⟩ | ⟨m', listed, same⟩ | ⟨r, _, same⟩
    · cases same
    · cases same
    · cases same
      exact .inl listed
    · cases same

theorem notices_of_reported (h : Shift k n table store actions s) {m : Notice} {j : Nat}
    (reported : (m, j) ∈ h.reported) : m ∈ s.notices := by
  refine h.trace (P := fun actions s =>
    (m, j) ∈ reports k (opened n table store) actions → m ∈ s.notices) nofun ?_ reported
  intro actions s t a h before permitted happened reported
  obtain ⟨_, grown⟩ := (step_turn h.orderly permitted happened).notices
  rw [mem_toldSince grown]
  rw [reports_concat h.run happened, List.mem_append] at reported
  refine reported.symm.imp (fun new => ?_) before
  cases a with
  | worker i =>
    obtain ⟨_, listed, same⟩ := List.mem_map.1 new
    cases same
    exact listed
  | _ => cases new

theorem closed_of_refused (h : Shift k n table store actions s) {c : Calculation}
    (refused : .refused c ∈ deeds k i (opened n table store) actions) : s.isOpen = false := by
  refine h.trace (P := fun actions s =>
    .refused c ∈ deeds k i (opened n table store) actions → s.isOpen = false) nofun ?_ refused
  intro actions s t a h before permitted happened refused
  refine (step_turn h.orderly permitted happened).intake ?_
  rw [deeds_concat h.run happened, List.mem_append] at refused
  rcases refused with old | new
  · exact before old
  · rcases mem_deed new with ⟨e, ⟨_, same⟩ | ⟨closed, _⟩⟩ | ⟨m, _, same⟩ | ⟨r, _, same⟩
    · cases same
    · exact closed
    · cases same
    · cases same

end Shift

/-! ### A steady listener -/

def queuedWith (c : Calculation) (f : Formula) : Calculation :=
  { c with plan := some f, status := .queued }

section

variable {c : Calculation}

theorem tell_steady (steady : k.Steady) (occasion : Occasion) (c : Calculation) :
    ∃ t, s.tell k occasion c = (t, false) ∧ t.notices = ⟨occasion, c⟩ :: s.notices :=
  ⟨(s.tell k occasion c).1, Prod.ext rfl (steady _ _), rfl⟩

theorem introduce_steady (steady : k.Steady) (c : Calculation) :
    ∃ t, s.introduce k c = (s.numbered c, t, false) ∧
      t.notices = ⟨.created, s.numbered c⟩ :: s.notices :=
  ⟨(s.introduce k c).2.1, Prod.ext rfl (Prod.ext rfl (steady _ _)), rfl⟩

theorem submit_steady (steady : k.Steady) (text : String) :
    ∃ t, s.submit k text = (t, .parse (s.numbered (.new text (k.clock s.readings)))) ∧
      toldSince s t = [⟨.created, s.numbered (.new text (k.clock s.readings))⟩] := by
  obtain ⟨t, introduced, grown⟩ := introduce_steady (s := (s.now k).2) steady
    (.new text (k.clock s.readings))
  refine ⟨t, ?_, toldSince_eq_singleton grown⟩
  rw [now] at introduced
  simp only [submit, now, introduced]
  rfl

theorem announce_steady (steady : k.Steady) (created : c.status = .created) (f : Formula)
    (next : Then) : ∃ t, s.announce k c f next = (t, .send (queuedWith c f) next) ∧
      toldSince s t = [⟨.changed, queuedWith c f⟩] := by
  obtain ⟨t, told, grown⟩ := tell_steady (s := s) steady .changed (queuedWith c f)
  refine ⟨t, ?_, toldSince_eq_singleton grown⟩
  rw [queuedWith] at told ⊢
  simp only [announce, Calculation.queue, created, if_true, told]

theorem failParse_steady (steady : k.Steady) (created : c.status = .created) (e : Error)
    (next : Calculation → Caller) :
    ∃ t, s.failParse k c e next = (t, next (failed c e.message (k.clock s.readings))) ∧
      toldSince s t = [⟨.completed, failed c e.message (k.clock s.readings)⟩] := by
  obtain ⟨t, told, grown⟩ := tell_steady (s := (s.now k).2) steady .completed
    (failed c e.message (k.clock s.readings))
  refine ⟨t, ?_, toldSince_eq_singleton grown⟩
  rw [failed, now] at told
  simp only [failParse, now, Calculation.fail, created, true_or, if_true, told, failed]

end

/-! ### Workers -/

/-- Whatever a worker tells carries the number of a calculation that it received. -/
theorem Reported.numbers {cs : List Calculation} {told : List Notice} (h : Reported cs told) :
    ∀ m ∈ told, ∃ c ∈ cs, m.calculation.id = c.id := by
  induction h with
  | none => exact List.forall_mem_nil _
  | @more cs told c d _ ends ih =>
    intro m member
    rcases List.mem_append.1 member with old | new
    · obtain ⟨e, listed, same⟩ := ih m old
      exact ⟨e, List.mem_append_left _ listed, same⟩
    · refine ⟨c, List.mem_append_right _ (.head _), ?_⟩
      simp only [List.mem_cons, List.not_mem_nil, or_false] at new
      rcases new with rfl | rfl
      · rfl
      · exact ends.id

theorem Duty.numbers {index : UInt64} {standing : Standing} {view : WorkerView}
    {cs : List Calculation} {told : List Notice} (h : Duty index standing view cs told) :
    ∀ m ∈ told, ∃ c ∈ cs, m.calculation.id = c.id := by
  have more : ∀ {cs : List Calculation} {told : List Notice} {c : Calculation}, Reported cs told →
      ∀ m ∈ told, ∃ d ∈ cs ++ [c], m.calculation.id = d.id := by
    intro cs told c reported m member
    obtain ⟨d, listed, same⟩ := reported.numbers m member
    exact ⟨d, List.mem_append_left _ listed, same⟩
  cases h with
  | resting reported | left reported => exact reported.numbers
  | ended reported | lost reported => exact reported.numbers
  | taken reported | shown reported => exact more reported
  | @calculating cs told c reported =>
    refine List.forall_mem_append.2 ⟨more reported, List.forall_mem_singleton.2 ?_⟩
    exact ⟨c, List.mem_append_right _ (.head _), rfl⟩

theorem Reported.ended {cs : List Calculation} {told : List Notice} (h : Reported cs told)
    {c : Calculation} (listed : c ∈ cs) : ∃ d, ⟨.completed, d⟩ ∈ told ∧ Ends c d := by
  induction h with
  | none => cases listed
  | @more cs told c' d _ ends ih =>
    rcases List.mem_append.1 listed with old | new
    · obtain ⟨e, member, ended⟩ := ih old
      exact ⟨e, List.mem_append_left _ member, ended⟩
    · cases List.mem_singleton.1 new
      exact ⟨d, List.mem_append_right _ (.tail _ (.head _)), ends⟩

theorem Shift.received_of_reported (h : Shift k n table store actions s) {m : Notice} {j : Nat}
    (reported : (m, j) ∈ h.reported) : ∃ c, (c, j) ∈ h.received ∧ m.calculation.id = c.id := by
  have inside := h.numbers.2 _ reported
  rw [← h.length_workers] at inside
  have told : m ∈ ofWorker j h.reported := by
    simpa [ofWorker] using reported
  obtain ⟨c, taken, same⟩ := (h.dutiful j _ (List.getElem?_eq_getElem inside)).numbers m told
  refine ⟨c, ?_, same⟩
  simpa [ofWorker] using taken

end Reckoner.Service
