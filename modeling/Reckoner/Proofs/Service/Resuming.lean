import Mathlib.Data.List.Pairwise
import Reckoner.Proofs.Service.Deeds
import Reckoner.Proofs.Service.Footprints

/-!
# Resuming

What a call does with the calculations that it is to resume. It takes them up in their order, each
with a handoff of its own, and stops at the first one for which the intake is closed. `Resuming`
says where the call is after what it has done, and `Shift.resumes` what has become of every
calculation when it returns.
-/

namespace Reckoner.Service

variable {k : Collaborators} {s t : Service} {n : Nat} {table : CostTable} {store : Store}
variable {i : Nat} {actions : List Action} {entries cs rest : List Calculation} {c : Calculation}
variable {ds new : List Deed}

/-! ### The way through the list -/

/-- What was done for calculations, one behind the other: nothing for those without a number or not
pending, and otherwise a handoff, and then the failure of a text that is no formula, or the news
that the calculation is queued and its handover to a worker. -/
inductive Resolved : List Calculation → List Deed → Prop where
  | none : Resolved [] []
  | skipped {cs : List Calculation} {ds : List Deed} {c : Calculation} (earlier : Resolved cs ds)
      (idle : isResumable c = false) : Resolved (cs ++ [c]) ds
  | unreadable {cs : List Calculation} {ds : List Deed} {c : Calculation} {e : Error}
      (earlier : Resolved cs ds) (resumable : isResumable c = true)
      (wrong : Formula.parse c.text = .error e) (time : Instant) :
      Resolved (cs ++ [c])
        (ds ++ [.reserved c, .told ⟨.completed, failed (reopened c) e.message time⟩])
  | handed {cs : List Calculation} {ds : List Deed} {c : Calculation} {f : Formula}
      (earlier : Resolved cs ds) (resumable : isResumable c = true)
      (right : Formula.parse c.text = .ok f) (worker : Nat) :
      Resolved (cs ++ [c])
        (ds ++ [.reserved c, .told ⟨.changed, queuedWith (reopened c) f⟩,
          .handed (queuedWith (reopened c) f) worker])

/-- Everything up to a calculation that is to be resumed was taken up. -/
structure Reached (entries cs : List Calculation) (c : Calculation) (rest : List Calculation)
    (ds : List Deed) : Prop where
  split : entries = cs ++ c :: rest
  resolved : Resolved cs ds
  resumable : isResumable c = true

/-- Where a call that resumes calculations is after what it did. -/
inductive Resuming (entries : List Calculation) : Caller → List Deed → Prop where
  | going {cs rest : List Calculation} {ds : List Deed} (split : entries = cs ++ rest)
      (resolved : Resolved cs ds) : Resuming entries (.resume rest (deliveries ds).length) ds
  | reserved {cs rest : List Calculation} {c : Calculation} {ds : List Deed}
      (reached : Reached entries cs c rest ds) :
      Resuming entries (.reopen c rest (deliveries ds).length) (ds ++ [.reserved c])
  | parsed {cs rest : List Calculation} {c : Calculation} {ds : List Deed} {f : Formula}
      (reached : Reached entries cs c rest ds) (right : Formula.parse c.text = .ok f) :
      Resuming entries (.announce (reopened c) f (.resume rest (deliveries ds).length))
        (ds ++ [.reserved c])
  | announced {cs rest : List Calculation} {c : Calculation} {ds : List Deed} {f : Formula}
      (reached : Reached entries cs c rest ds) (right : Formula.parse c.text = .ok f) :
      Resuming entries
        (.send (queuedWith (reopened c) f) (.resume rest (deliveries ds).length))
        (ds ++ [.reserved c, .told ⟨.changed, queuedWith (reopened c) f⟩])
  | offered {cs rest : List Calculation} {c : Calculation} {ds : List Deed} {f : Formula}
      (reached : Reached entries cs c rest ds) (right : Formula.parse c.text = .ok f) :
      Resuming entries
        (.offer (queuedWith (reopened c) f) (.resume rest (deliveries ds).length))
        (ds ++ [.reserved c, .told ⟨.changed, queuedWith (reopened c) f⟩])
  | returned {ds : List Deed} (resolved : Resolved entries ds) :
      Resuming entries (.done (.resumed (deliveries ds).length)) ds
  | refused {cs rest : List Calculation} {c : Calculation} {ds : List Deed}
      (reached : Reached entries cs c rest ds) :
      Resuming entries (.done (.refused .poolUnavailable)) (ds ++ [.refused c])

/-- The call takes up the next calculation, passes over it, or stops. -/
theorem Resuming.resume (split : entries = cs ++ rest) (resolved : Resolved cs ds) :
    Resuming entries (s.resume rest (deliveries ds).length)
      (ds ++ s.reservation (.resume rest (deliveries ds).length)) := by
  cases rest with
  | nil =>
    rw [List.append_nil] at split
    subst split
    simpa [reservation, Caller.reserving, Service.resume] using returned resolved
  | cons c rest =>
    by_cases resumable : isResumable c = true
    · have present : ¬ (c.id.isNone || !c.isPending) = true := by
        rw [← isResumable_eq_false, resumable]
        exact Bool.false_ne_true.symm
      have reached : Reached entries cs c rest ds := ⟨split, resolved, resumable⟩
      rw [Service.resume, if_neg present]
      cases isOpen : s.isOpen with
      | true => simpa [reservation, Caller.reserving, resumable, isOpen] using reserved reached
      | false => simpa [reservation, Caller.reserving, resumable, isOpen] using refused reached
    · have idle : isResumable c = false := Bool.eq_false_iff.2 resumable
      have next : Resuming entries (.resume rest (deliveries ds).length) ds :=
        .going (by simpa using split) (resolved.skipped idle)
      rw [Service.resume, if_pos (isResumable_eq_false.1 idle)]
      simpa [reservation, Caller.reserving, idle] using next

/-- A calculation that was taken up gets its formula, or fails. -/
theorem Resuming.reopen (steady : k.Steady) (reached : Reached entries cs c rest ds) :
    Resuming entries (s.reopen k c rest (deliveries ds).length).2
      (ds ++ [.reserved c] ++
        (toldSince s (s.reopen k c rest (deliveries ds).length).1).map .told) := by
  have pending : c.isPending = true := ((Bool.and_eq_true _ _).mp reached.resumable).2
  have again : c.reopen = .ok (reopened c) := by rw [Calculation.reopen, if_pos pending, reopened]
  rw [Service.reopen]
  simp only [again]
  split
  · rename_i f right
    simpa [toldSince_self] using parsed reached right
  · rename_i e wrong
    obtain ⟨t, fails, told⟩ := failParse_steady (s := s) steady (c := reopened c) rfl e
      fun _ => .resume rest (deliveries ds).length
    have next : Resuming entries (.resume rest (deliveries ds).length)
        (ds ++ [.reserved c,
          .told ⟨.completed, failed (reopened c) e.message (k.clock s.readings)⟩]) := by
      have same : deliveries ds = deliveries (ds ++ [.reserved c,
          .told ⟨.completed, failed (reopened c) e.message (k.clock s.readings)⟩]) := by
        simp [deliveries]
      rw [same]
      exact .going (by simpa using reached.split)
        (reached.resolved.unreadable reached.resumable wrong _)
    simpa [fails, told] using next

/-- Whatever happens, the call goes on as it should, unless it waits for workers and all have
ended. -/
theorem Resuming.acts {caller after : Caller} (steady : k.Steady) (h : Resuming entries caller ds)
    (staffed : caller.holdsHandoff = true → s.workers.all Worker.isGone = false)
    (acts : Acts k s t caller after new) : Resuming entries after (ds ++ new) := by
  cases acts with
  | waits => simpa using h
  | @meets _ _ j =>
    cases h with
    | @offered cs rest c ds f reached right =>
      have count : (deliveries ds).length + 1 = (deliveries (ds ++ [.reserved c,
          .told ⟨.changed, queuedWith (reopened c) f⟩,
          .handed (queuedWith (reopened c) f) j])).length := by simp [deliveries]
      rw [handedOver, count, List.append_assoc]
      exact .going (by simpa using reached.split)
        (reached.resolved.handed reached.resumable right j)
  | uses | drops => cases h
  | steps own =>
    cases h with
    | going split resolved =>
      cases own
      simpa [toldSince_self] using Resuming.resume (s := s) split resolved
    | reserved reached =>
      have next := Resuming.reopen (s := s) steady reached
      rw [Option.some.inj own] at next
      simpa [reservation, Caller.reserving] using next
    | @parsed cs rest c ds f reached right =>
      obtain ⟨u, announces, told⟩ := announce_steady (s := s) steady (c := reopened c) rfl f
        (.resume rest (deliveries ds).length)
      rw [stepCaller, announces] at own
      cases own
      simpa [reservation, Caller.reserving, told] using announced reached right
    | announced reached right =>
      cases own
      simpa [reservation, Caller.reserving, toldSince_self, send, queuedWith] using
        offered reached right
    | offered reached right =>
      simp [stepCaller, staffed rfl] at own
    | returned | refused => cases own

/-! ### What the call did -/

/-- The calculation that a deed is about. -/
def Deed.subject : Deed → Calculation
  | .reserved c | .refused c | .handed c _ => c
  | .told m => m.calculation

theorem Resolved.reserved_mem (h : Resolved cs ds) (reserved : .reserved c ∈ ds) :
    c ∈ cs ∧ isResumable c = true := by
  induction h with
  | none => cases reserved
  | skipped _ _ ih => exact (ih reserved).imp_left (List.mem_append_left _)
  | unreadable _ resumable _ _ ih | handed _ resumable _ _ ih =>
    rcases List.mem_append.1 reserved with old | new
    · exact (ih old).imp_left (List.mem_append_left _)
    · simp only [List.mem_cons, List.not_mem_nil, or_false, reduceCtorEq,
        Deed.reserved.injEq] at new
      subst new
      exact ⟨List.mem_append_right _ (.head _), resumable⟩

/-- Whatever is done is done for a calculation that was taken up. -/
theorem Resolved.source (h : Resolved cs ds) :
    ∀ d ∈ ds, ∃ c, .reserved c ∈ ds ∧ d.subject.id = c.id := by
  induction h with
  | none => exact List.forall_mem_nil _
  | skipped _ _ ih => exact ih
  | @unreadable _ _ c _ _ _ _ _ ih | @handed _ _ c _ _ _ _ _ ih =>
    refine List.forall_mem_append.2 ⟨fun d member => ?_, fun d member => ⟨c, by simp, ?_⟩⟩
    · obtain ⟨c, reserved, same⟩ := ih d member
      exact ⟨c, List.mem_append_left _ reserved, same⟩
    · simp only [List.mem_cons, List.not_mem_nil, or_false] at member
      rcases member with rfl | rfl | rfl <;> rfl

theorem Resuming.source {caller : Caller} (h : Resuming entries caller ds) :
    ∀ d ∈ ds, (∃ c, d = .refused c) ∨
      ∃ c ∈ entries, isResumable c = true ∧ d.subject.id = c.id := by
  have earlier : ∀ {cs : List Calculation} {ds : List Deed}, Resolved cs ds →
      (∀ c ∈ cs, c ∈ entries) → ∀ d ∈ ds, (∃ c, d = .refused c) ∨
        ∃ c ∈ entries, isResumable c = true ∧ d.subject.id = c.id := by
    intro cs ds resolved inside d member
    obtain ⟨c, reserved, same⟩ := resolved.source d member
    obtain ⟨listed, resumable⟩ := resolved.reserved_mem reserved
    exact .inr ⟨c, inside c listed, resumable, same⟩
  have reached : ∀ {cs rest : List Calculation} {c : Calculation} {ds new : List Deed},
      Reached entries cs c rest ds → (∀ d ∈ new, d.subject.id = c.id) →
      ∀ d ∈ ds ++ new, (∃ c, d = .refused c) ∨
        ∃ c ∈ entries, isResumable c = true ∧ d.subject.id = c.id := by
    intro cs rest c ds new reached about
    have inside : ∀ d ∈ cs, d ∈ entries :=
      fun d listed => reached.split ▸ List.mem_append_left _ listed
    refine List.forall_mem_append.2 ⟨earlier reached.resolved inside, fun d member => ?_⟩
    exact .inr ⟨c, reached.split ▸ List.mem_append_right _ (.head _), reached.resumable,
      about d member⟩
  cases h with
  | going split resolved =>
    exact earlier resolved fun c listed => split ▸ List.mem_append_left _ listed
  | returned resolved => exact earlier resolved fun _ listed => listed
  | reserved here | parsed here | announced here | offered here | refused here =>
    exact reached here (by simp [Deed.subject, queuedWith, reopened])

/-! ### A call alone -/

/-- All other calls close the intake. -/
def Alone (i : Nat) (actions : List Action) : Prop :=
  ∀ j c, (calls actions)[j]? = some c → j ≠ i → c = .close

theorem Alone.of_concat {a : Action} (h : Alone i (actions ++ [a])) : Alone i actions := by
  intro j c call
  refine h j c ?_
  rw [calls_concat]
  exact (List.getElem?_append_left (List.getElem?_eq_some_iff.1 call).1).trans call

/-- Nothing under the number of the calculation was told, and its record is as at the beginning. -/
def Untouched (first : Store) (s : Service) (c : Calculation) : Prop :=
  ∀ id, c.id = some id →
    (∀ m ∈ s.notices, m.calculation.id ≠ some id) ∧ s.store.find? id = first.find? id

/-- Where a call that closes the intake is. -/
inductive Caller.Closing : Caller → Prop where
  | begun : Closing .close
  | joining : Closing .join
  | stopped : Closing (.done .stopped)

theorem silence {caller : Caller} (asks : caller.reserving = none)
    (quiet : t.notices = s.notices) :
    s.reservation caller ++ (toldSince s t).map .told = [] := by
  rw [reservation, asks, toldSince_eq_nil quiet]
  rfl

theorem Acts.closing {caller after : Caller} (acts : Acts k s t caller after new)
    (closing : caller.Closing) : new = [] ∧ after.Closing := by
  cases acts with
  | waits => exact ⟨rfl, closing⟩
  | meets | uses | drops => cases closing
  | steps own =>
    cases closing with
    | begun =>
      simp only [stepCaller] at own
      split at own <;> cases own
      · exact ⟨silence rfl rfl, .joining⟩
      · exact ⟨silence rfl rfl, .stopped⟩
    | joining =>
      simp only [stepCaller] at own
      split at own <;> cases own
      exact ⟨silence rfl rfl, .stopped⟩
    | stopped => cases own

namespace Shift

theorem only_closes (h : Shift k n table store actions s) (alone : Alone i actions) {j : Nat}
    (other : j ≠ i) : deeds k j (opened n table store) actions = [] ∧
      ∀ c next, s.callers[j]? ≠ some (.offer c next) := by
  cases call : (calls actions)[j]? with
  | none =>
    rw [List.getElem?_eq_none_iff, ← h.length_calls, ← List.getElem?_eq_none_iff] at call
    exact ⟨h.deeds_of_absent call, fun c next => by simp [call]⟩
  | some c₀ =>
    obtain ⟨c, here, quiet⟩ := h.history (H := fun c₀ c ds => c₀.Closing → ds = [] ∧ c.Closing)
      (fun _ _ closing => ⟨rfl, closing⟩) (fun _ _ before acts closing => by
        obtain ⟨rfl, closing⟩ := before closing
        exact acts.closing closing) call
    obtain ⟨nothing, closing⟩ := quiet (alone j c₀ call other ▸ .begun)
    refine ⟨nothing, fun d next offering => ?_⟩
    cases here.symm.trans offering
    cases closing

/-- All that was received came from the call. -/
theorem received_eq (h : Shift k n table store actions s) (alone : Alone i actions) :
    h.received = deliveries (deeds k i (opened n table store) actions) := by
  refine h.trace (P := fun actions _ => Alone i actions →
    receipts k (opened n table store) actions =
      deliveries (deeds k i (opened n table store) actions)) (fun _ => rfl) ?_ alone
  intro actions s t a h before _ happened alone
  rw [deeds_concat h.run happened, receipts_concat h.run happened, deliveries_append,
    before alone.of_concat]
  rcases deliveries_deed s t i a with same | ⟨_, j, c, next, other, offering⟩
  · rw [same]
  · exact ((h.only_closes alone.of_concat other).2 c next offering).elim

/-- A number that no deed is about, but perhaps a refusal, is left alone. -/
theorem untouched (h : Shift k n table store actions s) (alone : Alone i actions)
    (free : ∀ d ∈ deeds k i (opened n table store) actions,
      (∃ c, d = .refused c) ∨ d.subject.id ≠ c.id) : Untouched store s c := by
  intro id named
  have unheard : ∀ m ∈ s.notices, m.calculation.id ≠ some id := by
    intro m told same
    rw [← named] at same
    rcases h.told_of_notices told with ⟨j, own⟩ | ⟨j, work⟩
    · by_cases other : j = i
      · subst other
        rcases free _ own with ⟨c, refused⟩ | different
        · cases refused
        · exact different same
      · rw [(h.only_closes alone other).1] at own
        cases own
    · obtain ⟨d, taken, numbered⟩ := h.received_of_reported work
      rw [h.received_eq alone] at taken
      rcases free _ (mem_deliveries.1 taken) with ⟨c, refused⟩ | different
      · cases refused
      · exact different (numbered.symm.trans same)
  obtain ⟨told, grown, records⟩ := framed_of_run h.run
  refine ⟨unheard, records id fun m member => unheard m ?_⟩
  rw [grown]
  exact List.mem_append_left _ member

theorem resuming (h : Shift k n table store actions s) (steady : k.Steady)
    (call : (calls actions)[i]? = some (.resume entries 0)) :
    ∃ c, s.callers[i]? = some c ∧
      Resuming entries c (deeds k i (opened n table store) actions) := by
  have all := h.history (H := fun c₀ c ds => c₀ = .resume entries 0 → Resuming entries c ds)
    ?_ ?_ call
  · obtain ⟨c, here, resuming⟩ := all
    exact ⟨c, here, resuming rfl⟩
  · rintro c₀ _ rfl
    exact .going (List.nil_append entries).symm .none
  · intro actions s t c₀ c c' ds new h member before acts same
    refine (before same).acts steady (fun holds => h.staffed ?_ (.inr ⟨c, member, holds⟩)) acts
    rw [fatalities_eq_zero steady]
    exact h.manned

theorem resume_returns (h : Shift k n table store actions s) (steady : k.Steady)
    (call : (calls actions)[i]? = some (.resume entries 0)) (quiescent : Quiescent k s) :
    ∃ reply, s.callers[i]? = some (.done reply) := by
  obtain ⟨caller, here, resuming⟩ := h.resuming steady call
  have few : fatalities k s.notices < n := by
    rw [fatalities_eq_zero steady]
    exact h.manned
  have stuck := quiescent.callers i
  generalize deeds k i (opened n table store) actions = ds at resuming
  cases resuming with
  | returned | refused => exact ⟨_, here⟩
  | offered => exact (h.nobody_offers few quiescent _ _ (List.mem_of_getElem? here)).elim
  | _ => simp [Service.step, here, stepCaller] at stuck

end Shift

/-! ### The end of the call -/

/-- No two of the calculations have the same number. -/
def Distinct (cs : List Calculation) : Prop :=
  (cs.filterMap Calculation.id).Nodup

theorem distinct_iff : Distinct cs ↔
    cs.Pairwise fun c d => Numbered c → c.id ≠ d.id := by
  rw [Distinct, List.Nodup, List.pairwise_filterMap]
  refine List.Pairwise.iff fun c d =>
    ⟨fun apart numbered same => ?_, fun apart x named y named' => ?_⟩
  · obtain ⟨x, named⟩ := Option.isSome_iff_exists.1 numbered
    exact apart x named x (same ▸ named) rfl
  · rintro rfl
    refine apart ?_ (named.trans named'.symm)
    rw [Numbered, named]
    rfl

theorem Distinct.id_ne {d : Calculation} (distinct : Distinct cs) (first : c ∈ cs)
    (second : d ∈ cs) (numbered : Numbered c) (different : c ≠ d) : c.id ≠ d.id := by
  have symmetric : Std.Symm fun c d : Calculation => Numbered c → c.id ≠ d.id := by
    refine ⟨fun c d apart numbered same => apart ?_ same.symm⟩
    rwa [Numbered, ← same]
  exact (distinct_iff.1 distinct).forall first second different numbered

/-- What a call that resumes calculations comes to, with what it did and what the workers received
and told. -/
structure Resumes (k : Collaborators) (first : Store) (entries : List Calculation)
    (actions : List Action) (s : Service) (i : Nat) (ds : List Deed)
    (received : List (Calculation × Nat)) (reported : List (Notice × Nat)) : Prop where
  /-- It returns how many calculations it handed over, with all of them resolved. Or it is refused
  at the first one for which it found the intake closed; then those before are resolved, and nothing
  was done for this one and those behind it. -/
  returned : ∀ reply, s.callers[i]? = some (.done reply) →
    reply = .resumed (deliveries ds).length ∧ Resolved entries ds ∨
      reply = .refused .poolUnavailable ∧ s.isOpen = false ∧ ∃ before c after earlier,
        entries = before ++ c :: after ∧ isResumable c = true ∧ Resolved before earlier ∧
          ds = earlier ++ [.refused c] ∧
          (Alone i actions → Distinct entries → ∀ d ∈ c :: after, Untouched first s d)
  /-- Calculations without a number or not pending are left alone. -/
  skipped : Alone i actions → Distinct entries →
    ∀ c ∈ entries, isResumable c = false → Untouched first s c
  /-- Without calls from outside everything comes to rest, and then the call has returned. -/
  bounded : ∀ (more : List Action) t, (∀ a ∈ more, a.isInside = true) → s.run k more = some t →
    more.length ≤ s.work
  returns : Quiescent k s → ∃ reply, s.callers[i]? = some (.done reply)
  /-- What the call handed over workers received, each once; and nothing else, if it was alone. -/
  handed : (deliveries ds).Sublist received
  single : Alone i actions → received = deliveries ds
  /-- At rest all that was received has been told as calculating and then at its end. -/
  processed : Quiescent k s → ∀ j, Reported (ofWorker j received) (ofWorker j reported)

/-- Whenever the intake is closed, a call that resumes calculations brings all that it took up to a
handover or a failure, and leaves the rest alone. -/
theorem Shift.resumes (h : Shift k n table store actions s) (steady : k.Steady)
    (call : (calls actions)[i]? = some (.resume entries 0)) :
    Resumes k store entries actions s i (deeds k i (opened n table store) actions) h.received
      h.reported := by
  obtain ⟨caller, here, resuming⟩ := h.resuming steady call
  exact {
    returned := by
      intro reply there
      cases here.symm.trans there
      generalize same : deeds k i (opened n table store) actions = ds at resuming
      cases resuming with
      | returned resolved => exact .inl ⟨rfl, resolved⟩
      | @refused before after c earlier reached =>
        have refused : .refused c ∈ deeds k i (opened n table store) actions := by simp [same]
        refine .inr ⟨rfl, h.closed_of_refused refused, before, c, after, earlier, reached.split,
          reached.resumable, reached.resolved, rfl, fun alone distinct d behind => ?_⟩
        refine h.untouched alone fun e deed => ?_
        rw [same] at deed
        rcases List.mem_append.1 deed with old | new
        · obtain ⟨c', reserved, about⟩ := reached.resolved.source e old
          obtain ⟨listed, resumable⟩ := reached.resolved.reserved_mem reserved
          rw [distinct_iff, reached.split, List.pairwise_append] at distinct
          rw [about]
          exact .inr (distinct.2.2 c' listed d behind (numbered_of_resumable resumable))
        · exact .inl ⟨c, List.mem_singleton.1 new⟩
    skipped := by
      intro alone distinct c listed idle
      refine h.untouched alone fun d deed => (resuming.source d deed).imp_right ?_
      rintro ⟨c', listed', resumable, about⟩
      rw [about]
      refine distinct.id_ne listed' listed (numbered_of_resumable resumable) ?_
      rintro rfl
      rw [idle] at resumable
      cases resumable
    bounded := by
      intro more t inside run
      have bound := h.orderly.length_add_work_le inside run
      omega
    returns := h.resume_returns steady call
    handed := h.sublist_received
    single := h.received_eq
    processed := fun quiescent =>
      h.reported_of_rest steady fun w member => quiescent.worker member }

/-- A calculation without a number, one that is done, a text that is no formula, a sum and a
product. -/
def leftovers : List Calculation :=
  [{ Calculation.new "1" default with status := .queued },
    { Calculation.new "6/3" default with id := some 5, status := .done },
    { Calculation.new "1+" default with id := some 1, status := .queued },
    { Calculation.new "1+1" default with id := some 2, status := .calculating },
    { Calculation.new "2*2" default with id := some 3, status := .queued }]

/-- The intake is closed while the sum is on offer; the product is left. -/
def midwayActions : List Action :=
  [.call (.resume leftovers 0), .call .close] ++ List.replicate 8 (.caller 0) ++
    [.caller 1, .handOver 0 0, .caller 0] ++ List.replicate 12 (.worker 0) ++ [.caller 1]

theorem alone_midwayActions : Alone 0 midwayActions := by
  have two : calls midwayActions = [.resume leftovers 0, .close] := rfl
  rintro (_ | _ | j) c call other
  · exact (other rfl).elim
  · rw [two] at call
    cases call
    rfl
  · rw [two] at call
    cases call

theorem midwayActions_resumes :
    ∃ s, ∃ h : Shift (.plain fun _ => default) 1 .zero .empty midwayActions s,
      Alone 0 midwayActions ∧ Distinct leftovers ∧ Quiescent (.plain fun _ => default) s ∧
      s.callers[0]?.any Caller.isRefused = true ∧
      Resumes (.plain fun _ => default) .empty leftovers midwayActions s 0
        (deeds (.plain fun _ => default) 0 (opened 1 .zero .empty) midwayActions) h.received
        h.reported := by
  have ran : ((opened 1 .zero .empty).run (.plain fun _ => default) midwayActions).any (fun s =>
      decide (Quiescent (.plain fun _ => default) s) && s.callers[0]?.any Caller.isRefused) =
      true := by decide +kernel
  obtain ⟨s, run, found⟩ := (Option.any_eq_true _ _).1 ran
  rw [Bool.and_eq_true, decide_eq_true_eq] at found
  have shift : Shift (.plain fun _ => default) 1 .zero .empty midwayActions s :=
    ⟨by decide, by decide, run⟩
  have distinct : Distinct leftovers := by
    rw [Distinct]
    decide
  exact ⟨s, shift, alone_midwayActions, distinct, found.1, found.2,
    Shift.resumes shift (fun _ _ => rfl) rfl⟩

end Reckoner.Service
