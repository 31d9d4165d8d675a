import Reckoner.Proofs.Service.Sittings

/-!
# Settling

The chosen schedule lets everything happen that can: `proceed_rests` says that it only stops when
nobody can act any more. A call of it forgets the callers before, who have returned; `step_behind`
says that these change nothing, so `Sitting.called` makes it one call of a sitting.
-/

namespace Reckoner.Service

variable {k : Collaborators} {n : Nat} {table : CostTable} {texts : List String}
variable {s t : Service} {actions : List Action} {a : Action} {cs : List Calculation}

/-! ### Rest -/

/-- With all pauses permitted, an attempt is a step. -/
theorem attempt_none (a : Action) : s.attempt k none a = (s.step k a).map (·, none) := by
  unfold attempt
  split
  · cases s.step k a <;> rfl
  · rfl

theorem isInside_of_candidate (member : a ∈ s.candidates) : a.isInside = true := by
  simp only [candidates, List.mem_append, List.mem_map] at member
  rcases member with (⟨i, _, rfl⟩ | meets) | ⟨i, _, rfl⟩
  · rfl
  · unfold meetings at meets
    split at meets
    · cases List.mem_singleton.1 meets
      rfl
    · cases meets
  · rfl

/-- If somebody could meet, the first two at the rendezvous could. -/
theorem exists_meeting {i j : Nat} (happened : s.step k (.handOver i j) = some t) :
    ∃ a ∈ s.meetings, s.step k a ≠ none := by
  cases happens_of_step happened with
  | handedOver offering waiting =>
    have offers : s.callers.any Caller.isOffering = true :=
      List.any_eq_true.2 ⟨_, List.mem_of_getElem? offering, rfl⟩
    have waits : s.workers.any Worker.isWaiting = true :=
      List.any_eq_true.2 ⟨_, List.mem_of_getElem? waiting, rfl⟩
    rw [← List.findIdx?_isSome, Option.isSome_iff_exists] at offers waits
    obtain ⟨i', first⟩ := offers
    obtain ⟨j', second⟩ := waits
    refine ⟨.handOver i' j', by simp [meetings, first, second], ?_⟩
    obtain ⟨inside, offer, -⟩ := List.findIdx?_eq_some_iff_getElem.1 first
    obtain ⟨inside', resting, -⟩ := List.findIdx?_eq_some_iff_getElem.1 second
    have caller := List.getElem?_eq_getElem inside
    have worker := List.getElem?_eq_getElem inside'
    generalize s.callers[i'] = c at offer caller
    generalize s.workers[j'] = w at resting worker
    obtain ⟨stage, view⟩ := w
    cases c with
    | offer d next =>
      cases stage with
      | waiting => simp [step, caller, worker]
      | _ => cases resting
    | _ => cases offer

theorem quiescent_of_candidates (stuck : ∀ a ∈ s.candidates, s.step k a = none) :
    Quiescent k s where
  workers := by
    intro i
    by_cases inside : i < s.workers.length
    · exact stuck _ (by simp [candidates, inside])
    · simp [step, List.getElem?_eq_none (Nat.le_of_not_lt inside)]
  callers := by
    intro i
    by_cases inside : i < s.callers.length
    · exact stuck _ (by simp [candidates, inside])
    · simp [step, List.getElem?_eq_none (Nat.le_of_not_lt inside)]
  rendezvous := by
    intro i j
    by_contra possible
    obtain ⟨t, happened⟩ := Option.ne_none_iff_exists'.1 possible
    obtain ⟨a, meets, acts⟩ := exists_meeting happened
    exact acts (stuck a (by simp [candidates, meets]))

/-- The schedule goes on as long as somebody can act, if it may take as many steps as there is
work. -/
theorem proceed_rests (orderly : s.Orderly) {bound : Nat} (enough : s.work ≤ bound) :
    ∃ actions, (∀ a ∈ actions, a.isInside = true) ∧
      s.run k actions = some (proceed k bound s none).1 ∧
      Quiescent k (proceed k bound s none).1 := by
  induction bound generalizing s with
  | zero =>
    refine ⟨[], List.forall_mem_nil _, rfl, quiescent_of_candidates fun a member => ?_⟩
    by_contra possible
    obtain ⟨t, happened⟩ := Option.ne_none_iff_exists'.1 possible
    have less := orderly.work_step (isInside_of_candidate member) happened
    omega
  | succ bound ih =>
    rw [proceed]
    cases found : s.candidates.findSome? (s.attempt k none) with
    | none =>
      refine ⟨[], List.forall_mem_nil _, rfl, quiescent_of_candidates fun a member => ?_⟩
      have unable := List.findSome?_eq_none_iff.1 found a member
      rw [attempt_none, Option.map_eq_none_iff] at unable
      exact unable
    | some r =>
      obtain ⟨a, member, attempted⟩ := List.exists_of_findSome?_eq_some found
      rw [attempt_none, Option.map_eq_some_iff] at attempted
      obtain ⟨t, happened, rfl⟩ := attempted
      have inside := isInside_of_candidate member
      have less := orderly.work_step inside happened
      obtain ⟨actions, all, ran, rest⟩ :=
        ih ((step_turn orderly (permitted_of_isInside inside) happened).orderly orderly)
          (by omega)
      refine ⟨a :: actions, List.forall_mem_cons.2 ⟨inside, all⟩, ?_, rest⟩
      rw [run_cons, happened]
      exact ran

theorem settle_rests (orderly : s.Orderly) :
    ∃ actions, (∀ a ∈ actions, a.isInside = true) ∧ s.run k actions = some (s.settle k none).1 ∧
      Quiescent k (s.settle k none).1 :=
  proceed_rests orderly (Nat.le_refl _)

/-! ### Callers who have returned -/

/-- The service with callers in front who came back with these calculations. -/
def behind (cs : List Calculation) (s : Service) : Service :=
  { s with callers := cs.map (fun c => .done (.submitted c)) ++ s.callers }

theorem now_behind : (s.behind cs).now k = ((s.now k).1, (s.now k).2.behind cs) :=
  rfl

theorem introduce_behind (c : Calculation) : (s.behind cs).introduce k c =
    ((s.introduce k c).1, (s.introduce k c).2.1.behind cs, (s.introduce k c).2.2) :=
  rfl

theorem tell_behind (occasion : Occasion) (c : Calculation) : (s.behind cs).tell k occasion c =
    ((s.tell k occasion c).1.behind cs, (s.tell k occasion c).2) :=
  rfl

theorem beginPause_behind (charge : Charge) : (s.behind cs).beginPause k charge =
    ((s.beginPause k charge).1.behind cs, (s.beginPause k charge).2) :=
  rfl

theorem hasHandoff_behind : (s.behind cs).hasHandoff = s.hasHandoff := by
  simp [hasHandoff, behind, Caller.holdsHandoff]

theorem beginWork_behind (c : Calculation) :
    (s.behind cs).beginWork k c = ((s.beginWork k c).1.behind cs, (s.beginWork k c).2) := by
  unfold beginWork
  cases c.beginCalculating with
  | error e => rfl
  | ok c =>
    simp only [tell_behind]
    obtain ⟨t, panics⟩ := s.tell k .changed c
    cases panics
    · cases c.plan <;> rfl
    · rfl

theorem conclude_behind (c : Calculation) (outcome : Except Error Float) :
    (s.behind cs).conclude k c outcome =
      ((s.conclude k c outcome).1.behind cs, (s.conclude k c outcome).2) := by
  simp only [conclude, now_behind]
  split
  · rfl
  · simp only [tell_behind]
    obtain ⟨t, panics⟩ := (s.now k).2.tell k .completed _
    cases panics <;> rfl

theorem recover_behind (c : Calculation) :
    (s.behind cs).recover k c = ((s.recover k c).1.behind cs, (s.recover k c).2) := by
  simp only [recover, now_behind]
  by_cases calculating : c.status = .calculating
  · simp only [if_pos calculating]
    split
    · rfl
    · simp only [tell_behind]
      obtain ⟨t, panics⟩ := (s.now k).2.tell k .completed _
      cases panics <;> rfl
  · simp only [if_neg calculating]

theorem evaluate_behind (c : Calculation) (e : Evaluation) :
    (s.behind cs).evaluate k c e = ((s.evaluate k c e).1.behind cs, (s.evaluate k c e).2) := by
  have same : (s.behind cs).table = s.table := rfl
  simp only [evaluate, same]
  cases e.step s.table with
  | running e | finished outcome => rfl
  | pausing charge e =>
    simp only [beginPause_behind]
    obtain ⟨t, panics⟩ := s.beginPause k charge
    cases panics <;> rfl

theorem stepWorker_behind (w : Worker) : (s.behind cs).stepWorker k w =
    (s.stepWorker k w).map fun r => (r.1.behind cs, r.2) := by
  obtain ⟨stage, view⟩ := w
  cases stage with
  | waiting =>
    have same : (s.behind cs).isOpen = s.isOpen := rfl
    simp only [stepWorker, hasHandoff_behind, same]
    split <;> rfl
  | begun c => simp [stepWorker, beginWork_behind]
  | evaluating c e => simp [stepWorker, evaluate_behind]
  | concluding c outcome => simp [stepWorker, conclude_behind]
  | recovering c => simp [stepWorker, recover_behind]
  | received | pausing | releasing | exited | lost => rfl

theorem failParse_behind (c : Calculation) (e : Error) (next : Calculation → Caller) :
    (s.behind cs).failParse k c e next =
      ((s.failParse k c e next).1.behind cs, (s.failParse k c e next).2) := by
  simp only [failParse, now_behind]
  split
  · rfl
  · simp only [tell_behind]
    obtain ⟨t, panics⟩ := (s.now k).2.tell k .completed _
    cases panics <;> rfl

theorem submit_behind (text : String) :
    (s.behind cs).submit k text = ((s.submit k text).1.behind cs, (s.submit k text).2) := by
  simp only [submit, now_behind, introduce_behind]
  obtain ⟨c, t, panics⟩ := (s.now k).2.introduce k _
  cases panics <;> rfl

theorem parse_behind (c : Calculation) :
    (s.behind cs).parse k c = ((s.parse k c).1.behind cs, (s.parse k c).2) := by
  unfold parse
  split
  · rfl
  · exact failParse_behind c _ _

theorem reopen_behind (c : Calculation) (rest : List Calculation) (count : Nat) :
    (s.behind cs).reopen k c rest count =
      ((s.reopen k c rest count).1.behind cs, (s.reopen k c rest count).2) := by
  unfold reopen
  split
  · rfl
  · split
    · rfl
    · exact failParse_behind _ _ _

theorem announce_behind (c : Calculation) (plan : Formula) (next : Then) :
    (s.behind cs).announce k c plan next =
      ((s.announce k c plan next).1.behind cs, (s.announce k c plan next).2) := by
  unfold announce
  cases c.queue plan with
  | error e => rfl
  | ok c =>
    simp only [tell_behind]
    obtain ⟨t, panics⟩ := s.tell k .changed c
    cases panics <;> rfl

theorem resume_behind (rest : List Calculation) (count : Nat) :
    (s.behind cs).resume rest count = s.resume rest count := by
  cases rest <;> rfl

theorem stepCaller_behind (c : Caller) : (s.behind cs).stepCaller k c =
    (s.stepCaller k c).map fun r => (r.1.behind cs, r.2) := by
  have gone : (s.behind cs).workers = s.workers := rfl
  have open? : (s.behind cs).isOpen = s.isOpen := rfl
  cases c with
  | submit text => simp [stepCaller, submit_behind]
  | parse c => simp [stepCaller, parse_behind]
  | reject c => simp [stepCaller, reject, failParse_behind]
  | resume rest count => simp [stepCaller, resume_behind]
  | reopen c rest count => simp [stepCaller, reopen_behind]
  | announce c plan next => simp [stepCaller, announce_behind]
  | offer | join =>
    simp only [stepCaller, gone]
    split <;> rfl
  | close =>
    simp only [stepCaller, open?]
    split <;> rfl
  | reserve | send | request | acquire | hold | done => rfl

/-- The same own step or handover of somebody who has so many more callers in front. -/
def Action.shifted (m : Nat) : Action → Action
  | .caller i => .caller (m + i)
  | .handOver i j => .handOver (m + i) j
  | a => a

theorem Action.isInside_shifted {m : Nat} (inside : a.isInside = true) :
    (a.shifted m).isInside = true := by
  cases a with
  | worker | caller | handOver => rfl
  | _ => cases inside

theorem front_behind {i : Nat} (front : i < cs.length) :
    (s.behind cs).callers[i]? = some (.done (.submitted cs[i])) := by
  rw [behind, List.getElem?_append_left (by simpa using front), List.getElem?_map,
    List.getElem?_eq_getElem front]
  rfl

theorem getElem?_behind (i : Nat) : (s.behind cs).callers[cs.length + i]? = s.callers[i]? := by
  rw [behind, List.getElem?_append_right (by simp), List.length_map, Nat.add_sub_cancel_left]

theorem step_behind (inside : a.isInside = true) :
    (s.behind cs).step k (a.shifted cs.length) = (s.step k a).map (behind cs) := by
  cases a with
  | worker i =>
    have workers : (s.behind cs).workers = s.workers := rfl
    simp only [Action.shifted, step, workers, stepWorker_behind]
    cases s.workers[i]? with
    | none => rfl
    | some w => cases own : s.stepWorker k w <;> simp [own, behind]
  | caller i =>
    simp only [Action.shifted, step, getElem?_behind, stepCaller_behind]
    cases s.callers[i]? with
    | none => rfl
    | some c => cases own : s.stepCaller k c <;> simp [own, behind]
  | handOver i j =>
    have workers : (s.behind cs).workers = s.workers := rfl
    simp only [Action.shifted, step, getElem?_behind, workers]
    split
    · simp [behind]
    · rfl
  | _ => cases inside

theorem run_behind (inside : ∀ a ∈ actions, a.isInside = true) (h : s.run k actions = some t) :
    (s.behind cs).run k (actions.map (Action.shifted cs.length)) = some (t.behind cs) := by
  induction actions generalizing s with
  | nil =>
    cases h
    rfl
  | cons a rest ih =>
    rw [run_cons, Option.bind_eq_some_iff] at h
    obtain ⟨u, happened, h⟩ := h
    obtain ⟨first, others⟩ := List.forall_mem_cons.1 inside
    rw [List.map_cons, run_cons, step_behind first, happened]
    exact ih others h

theorem stuck_behind (inside : a.isInside = true) (stuck : s.step k a = none) :
    (s.behind cs).step k (a.shifted cs.length) = none := by
  rw [step_behind inside, stuck]
  rfl

/-- Those in front have nothing to do any more. -/
theorem Quiescent.behind (h : Quiescent k s) : Quiescent k (s.behind cs) where
  workers i := stuck_behind (a := .worker i) rfl (h.workers i)
  callers := by
    intro i
    by_cases front : i < cs.length
    · simp [step, front_behind front, stepCaller]
    · obtain ⟨j, rfl⟩ := Nat.exists_eq_add_of_le (Nat.le_of_not_lt front)
      exact stuck_behind (a := .caller j) rfl (h.callers j)
  rendezvous := by
    intro i j
    by_cases front : i < cs.length
    · simp [step, front_behind front]
    · obtain ⟨l, rfl⟩ := Nat.exists_eq_add_of_le (Nat.le_of_not_lt front)
      exact stuck_behind (a := .handOver l j) rfl (h.rendezvous l j)

theorem Orderly.of_behind (h : (s.behind cs).Orderly) : s.Orderly where
  callers c member := h.callers c (List.mem_append_right _ member)
  workers := h.workers
  joining member := h.joining (List.mem_append_right _ member)
  rejecting c member := h.rejecting c (List.mem_append_right _ member)
  loyal := by
    intro w member left
    have shut := h.loyal w member left
    rw [hasHandoff_behind] at shut
    exact shut

/-! ### Calls of the schedule -/

theorem OneByOne.insides {start : Service} {script : List Caller} {more : List Action}
    (h : OneByOne k start script actions s) (inside : ∀ a ∈ more, a.isInside = true)
    (run : s.run k more = some t) : OneByOne k start script (actions ++ more) t := by
  induction more generalizing s actions with
  | nil =>
    cases run
    rwa [List.append_nil]
  | cons a rest ih =>
    rw [run_cons, Option.bind_eq_some_iff] at run
    obtain ⟨u, happened, run⟩ := run
    obtain ⟨first, others⟩ := List.forall_mem_cons.1 inside
    rw [List.append_cons]
    exact ih (h.inside first happened) others run

theorem call_of_enter {permits permits' : Permits} {c : Caller} {reply : Reply}
    (entered : s.enter k permits c = (t, permits')) (back : t.callers = [.done reply]) :
    s.call k permits c = (some reply, { t with callers := [] }, permits') := by
  simp [call, entered, leave?, back, Caller.reply?]

/-- The next call of a sitting, up to the point where nobody can act any more. -/
theorem Sitting.called (h : Sitting k n table texts actions (s.behind cs)) (alone : s.callers = [])
    {c : Caller} (next : calls actions ++ [c] <+: agenda texts) :
    ∃ more, Sitting k n table texts more ((s.enter k none c).1.behind cs) ∧
      calls more = calls actions ++ [c] ∧ Quiescent k ((s.enter k none c).1.behind cs) := by
  have all : ∀ d ∈ (s.behind cs).callers, d.Returned := by
    intro d member
    rw [behind, alone, List.append_nil] at member
    obtain ⟨e, _, rfl⟩ := List.mem_map.1 member
    exact ⟨e, rfl⟩
  have entered := h.oneByOne.call all next
  have same : { s.behind cs with callers := (s.behind cs).callers ++ [c] } =
      { s with callers := s.callers ++ [c] }.behind cs := by
    simp [behind]
  rw [same] at entered
  have sits : Sitting k n table texts _ _ := ⟨h.forwards, h.calm, h.manned, h.space, entered⟩
  obtain ⟨actions', inside, ran, rest⟩ := settle_rests (k := k) sits.shift.orderly.of_behind
  have shifted : ∀ a ∈ actions'.map (Action.shifted cs.length), a.isInside = true := by
    intro a member
    obtain ⟨b, old, rfl⟩ := List.mem_map.1 member
    exact Action.isInside_shifted (inside b old)
  refine ⟨_, ⟨h.forwards, h.calm, h.manned, h.space,
    entered.insides shifted (run_behind inside ran)⟩, ?_, rest.behind⟩
  rw [calls, List.filterMap_append, ← calls, ← calls, calls_of_isInside shifted, calls_concat_call,
    List.append_nil]

end Reckoner.Service
