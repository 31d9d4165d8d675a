import Reckoner.Proofs.Calculation.Lifecycle
import Reckoner.Proofs.Service.Holdings
import Reckoner.Proofs.Service.Resuming
import Reckoner.Proofs.Store.Snapshots

/-!
# Leftovers of stored calculations

Calculations that are to be resumed come with whatever was stored with them. `Restored` says what of
that is still there in what the listener is told, whatever it and the pacer do: nothing but the time
of an end. `resumed_coherent_iff` says when it gets to see one. That it does is shown by a call that
takes its course, which `exists_shift` finds in every open pool.
-/

namespace Reckoner

open Calculation (Call)

namespace Service

variable {k : Collaborators} {P : Calculation → Prop} {entries : List Calculation} {s : Service}
variable {c : Calculation}

/-! ### Resumed calculations -/

/-- The calculations are resumed and texts are submitted, as often as anybody likes. -/
def Action.Restores (entries : List Calculation) : Action → Prop
  | .call (.resume rest count) => rest = entries ∧ count = 0
  | .call (.submit _) | .call .acquire | .call .close => True
  | .call _ | .use .. => False
  | .worker _ | .caller _ | .handOver .. | .drop _ | .setCosts _ => True

/-- What a call that resumes calculations has taken up. -/
def IsTaken (entries : List Calculation) (c : Calculation) : Prop :=
  c ∈ entries ∧ isResumable c = true

theorem Action.Restores.brings {a : Action} (restores : a.Restores entries) :
    a.Brings P (· ∈ entries) (IsTaken entries) := by
  cases a with
  | call c =>
    cases c with
    | submit | acquire | close => trivial
    | resume rest count => exact fun d member => restores.1 ▸ member
    | _ => exact restores.elim
  | use => exact restores.elim
  | worker | caller | handOver | drop | setCosts => trivial

variable {n : Nat} {table : CostTable} {store : Store} {actions : List Action}

theorem carries_opened : Carries P (· ∈ entries) (IsTaken entries) (opened n table store) := by
  refine ⟨fun w member => ?_, List.forall_mem_nil _⟩
  obtain ⟨_, _, rfl⟩ := List.mem_map.1 member
  exact List.forall_mem_nil _

/-- What holds at the beginning of every calculation and what no call breaks holds of all that the
listener is told of. -/
theorem notices_of_sources (sources : Sources P (· ∈ entries) (IsTaken entries))
    (restores : ∀ a ∈ actions, a.Restores entries)
    (ran : (opened n table store).run k actions = some s) : ∀ m ∈ s.notices, P m.calculation := by
  obtain ⟨_, told⟩ := carries_opened.run sources (fun a member => (restores a member).brings) ran
  obtain ⟨told, grown, holds⟩ := told.notices
  rw [grown]
  exact List.forall_mem_append.2 ⟨holds, List.forall_mem_nil _⟩

/-! ### What is left over -/

/-- All that a calculation says agrees with its status, but for the time of an end that was stored
with it and that it keeps until it ends anew. -/
structure Restored (entries : List Calculation) (c : Calculation) : Prop where
  result : c.result.isSome = true ↔ c.status = .done
  errorMessage : c.errorMessage.isSome = true ↔ ∃ message, c.status = .failed message
  ended : c.isTerminal = true → c.finishedAt.isSome = true
  leftover : c.isTerminal = false → ∀ time, c.finishedAt = some time →
    ∃ d ∈ entries, isResumable d = true ∧ (∃ f, Formula.parse d.text = .ok f) ∧
      d.id = c.id ∧ d.text = c.text ∧ d.finishedAt = some time

theorem restored_failed (c : Calculation) (message : String) (time : Instant) :
    Restored entries (failed c message time) where
  result := by simp [failed]
  errorMessage := Calculation.isSome_errorMessage _
  ended := fun _ => rfl
  leftover := nofun

theorem sources_restored (entries : List Calculation) :
    Sources (Restored entries) (· ∈ entries) (IsTaken entries) where
  new id text now := by
    refine ⟨by simp [Calculation.new], Calculation.isSome_errorMessage _, fun ended => ?_,
      fun _ time kept => ?_⟩
    · cases ended
    · cases kept
  resumed c stored resumable := ⟨stored, resumable⟩
  reopened c taken _ right := by
    refine ⟨by simp [Service.reopened], Calculation.isSome_errorMessage _, fun ended => ?_,
      fun _ time kept => ⟨c, taken.1, taken.2, right, rfl, rfl, kept⟩⟩
    cases ended
  unreadable c _ _ message time := restored_failed _ message time
  effect c call h legal := by
    have going : c.isTerminal = false := Call.not_isTerminal_of_isLegal legal
    have noResult : c.result = none := by
      rw [← Option.not_isSome_iff_eq_none, h.result]
      intro done
      rw [Calculation.isTerminal, done] at going
      cases going
    have leftover := h.leftover going
    refine ⟨?_, Calculation.isSome_errorMessage _, ?_, ?_⟩
    · cases call <;> simp [Call.effect, noResult]
    · cases call <;> simp [Call.effect, Calculation.isTerminal, Calculation.Status.isTerminal]
    · cases call with
      | queue | beginCalculating | reopen => exact fun _ => leftover
      | complete | fail => exact fun unended => by cases unended

theorem Restored.coherent (h : Restored entries c)
    (clean : ∀ d ∈ entries, isResumable d = true → (∃ f, Formula.parse d.text = .ok f) →
      d.finishedAt = none) : c.Coherent := by
  refine ⟨h.result, ⟨fun kept => ?_, h.ended⟩, h.errorMessage⟩
  refine Bool.eq_true_of_not_eq_false fun going => ?_
  obtain ⟨time, same⟩ := Option.isSome_iff_exists.1 kept
  obtain ⟨d, stored, resumable, right, _, _, old⟩ := h.leftover going time same
  rw [clean d stored resumable right] at old
  cases old

/-! ### A call that takes its course -/

theorem Orderly.exists_rest (orderly : s.Orderly) : ∃ more t,
    (∀ a ∈ more, a.isInside = true) ∧ s.run k more = some t ∧ Quiescent k t := by
  induction bound : s.work using Nat.strong_induction_on generalizing s with
  | _ m ih =>
    by_cases rest : ∃ a t, a.isInside = true ∧ s.step k a = some t
    · obtain ⟨a, t, inside, happened⟩ := rest
      have turn := step_turn orderly (permitted_of_isInside inside) happened
      obtain ⟨more, u, within, ran, quiescent⟩ :=
        ih _ (bound ▸ orderly.work_step inside happened) (turn.orderly orderly) rfl
      refine ⟨a :: more, u, List.forall_mem_cons.2 ⟨inside, within⟩, ?_, quiescent⟩
      rw [run_cons, happened]
      exact ran
    · have stuck : ∀ a : Action, a.isInside = true → s.step k a = none := by
        intro a inside
        by_contra possible
        obtain ⟨t, happened⟩ := Option.ne_none_iff_exists'.1 possible
        exact rest ⟨a, t, inside, happened⟩
      exact ⟨[], s, List.forall_mem_nil _, rfl, fun _ => stuck _ rfl, fun _ => stuck _ rfl,
        fun _ _ => stuck _ rfl⟩

theorem Resolved.told_queued {ds : List Deed} {f : Formula} (resolved : Resolved entries ds)
    (stored : c ∈ entries) (resumable : isResumable c = true)
    (right : Formula.parse c.text = .ok f) :
    .told ⟨.changed, queuedWith (reopened c) f⟩ ∈ ds := by
  induction resolved with
  | none => cases stored
  | skipped _ idle ih =>
    rcases List.mem_append.1 stored with old | new
    · exact ih old
    · rw [← List.mem_singleton.1 new, resumable] at idle
      cases idle
  | unreadable _ _ wrong _ ih =>
    rcases List.mem_append.1 stored with old | new
    · exact List.mem_append_left _ (ih old)
    · rw [← List.mem_singleton.1 new, right] at wrong
      cases wrong
  | handed _ _ right' _ ih =>
    rcases List.mem_append.1 stored with old | new
    · exact List.mem_append_left _ (ih old)
    · obtain rfl := List.mem_singleton.1 new
      cases right.symm.trans right'
      simp

theorem Action.restores_of_isInside {a : Action} (inside : a.isInside = true) :
    a.Restores entries := by
  cases a with
  | worker | caller | handOver => trivial
  | _ => cases inside

/-- A call that resumes calculations can take its course in an open pool. -/
theorem exists_shift (k : Collaborators) (manned : 0 < n) (table : CostTable) (store : Store)
    (entries : List Calculation) : ∃ actions s, Shift k n table store actions s ∧
      (∀ a ∈ actions, a.Restores entries) ∧ calls actions = [.resume entries 0] ∧
      Quiescent k s := by
  have first : Shift k n table store [.call (.resume entries 0)] _ :=
    ⟨manned, List.forall_mem_singleton.2 rfl, rfl⟩
  obtain ⟨more, s, inside, ran, quiescent⟩ := first.orderly.exists_rest (k := k)
  refine ⟨.call (.resume entries 0) :: more, s,
    first.extend (fun a member => permitted_of_isInside (inside a member)) ran, ?_, ?_, quiescent⟩
  · exact List.forall_mem_cons.2 ⟨⟨rfl, rfl⟩, fun a member =>
      Action.restores_of_isInside (inside a member)⟩
  · exact congrArg (Caller.resume entries 0 :: ·) (calls_of_isInside inside)

/-- The call tells of all that can be resumed and read. -/
theorem exists_told (manned : 0 < n) (table : CostTable) (store : Store)
    (entries : List Calculation) : ∃ k actions s, (∀ a ∈ actions, a.Restores entries) ∧
      (opened n table store).run k actions = some s ∧
      ∀ c ∈ entries, isResumable c = true → ∀ f, Formula.parse c.text = .ok f →
        ⟨.changed, queuedWith (reopened c) f⟩ ∈ s.notices := by
  obtain ⟨actions, s, shift, restores, only, quiescent⟩ :=
    exists_shift (.plain fun _ => default) manned table store entries
  refine ⟨_, actions, s, restores, shift.run, ?_⟩
  have steady : (Collaborators.plain fun _ => default).Steady := fun _ _ => rfl
  have call : (calls actions)[0]? = some (.resume entries 0) := by rw [only]; rfl
  obtain ⟨caller, here, resuming⟩ := shift.resuming steady call
  obtain ⟨reply, there⟩ := shift.resume_returns steady call quiescent
  cases here.symm.trans there
  generalize same : deeds _ 0 _ _ = ds at resuming
  cases resuming with
  | returned resolved =>
    intro c stored resumable f right
    exact shift.notices_of_told (same ▸ resolved.told_queued stored resumable right)
  | @refused _ _ c _ _ =>
    have closed := shift.closed_of_refused (i := 0) (c := c) (by simp [same])
    rw [shift.isOpen (by simp [only])] at closed
    cases closed

/-- Whatever is stored with calculations that are to be resumed, in all that the listener is told
the results and the messages go with the statuses, and whatever has ended has a time of its end.
Before its end a calculation has one only if it was stored with it. So all that is told is coherent,
whatever happens, exactly if nothing that can be resumed and read has the time of an end. -/
theorem resumed_coherent_iff (manned : 0 < n) (table : CostTable) (store : Store)
    (entries : List Calculation) :
    (∀ k actions s, (∀ a ∈ actions, a.Restores entries) →
      (opened n table store).run k actions = some s →
        ∀ m ∈ s.notices, Restored entries m.calculation) ∧
    ((∀ k actions s, (∀ a ∈ actions, a.Restores entries) →
        (opened n table store).run k actions = some s → ∀ m ∈ s.notices, m.calculation.Coherent) ↔
      ∀ c ∈ entries, isResumable c = true → (∃ f, Formula.parse c.text = .ok f) →
        c.finishedAt = none) := by
  have restored : ∀ k actions s, (∀ a ∈ actions, a.Restores entries) →
      (opened n table store).run k actions = some s →
        ∀ m ∈ s.notices, Restored entries m.calculation :=
    fun _ _ _ restores ran => notices_of_sources (sources_restored entries) restores ran
  refine ⟨restored, ⟨fun coherent c stored resumable ⟨f, right⟩ => ?_,
    fun clean k actions s restores ran m told =>
      (restored k actions s restores ran m told).coherent clean⟩⟩
  obtain ⟨k, actions, s, restores, ran, told⟩ := exists_told manned table store entries
  have queued := coherent k actions s restores ran _ (told c stored resumable f right)
  exact (queued.blank rfl).2

theorem leftovers_coherent : 0 < 1 ∧
    (∀ c ∈ leftovers, isResumable c = true → (∃ f, Formula.parse c.text = .ok f) →
      c.finishedAt = none) ∧
    ∀ k actions s, (∀ a ∈ actions, a.Restores leftovers) →
      (opened 1 .zero .empty).run k actions = some s → ∀ m ∈ s.notices, m.calculation.Coherent := by
  have clean : ∀ c ∈ leftovers, c.finishedAt = none := by simp [leftovers, Calculation.new]
  have clean : ∀ c ∈ leftovers, isResumable c = true → (∃ f, Formula.parse c.text = .ok f) →
      c.finishedAt = none := fun c stored _ _ => clean c stored
  exact ⟨Nat.one_pos, clean, (resumed_coherent_iff Nat.one_pos .zero .empty leftovers).2.2 clean⟩

/-- A pending sum that was stored with the time of an end. -/
def halfEnded : Calculation :=
  { Calculation.new "1+1" default with id := some 1, status := .queued, finishedAt := some default }

def halfEndedActions : List Action :=
  .call (.resume [halfEnded] 0) :: List.replicate 3 (.caller 0)

/-- It can be read from a file, and the listener is told of it as queued and as ended. -/
theorem halfEnded_told : (∃ v, Calculation.read v = .ok halfEnded) ∧
    (∀ a ∈ halfEndedActions, a.Restores [halfEnded]) ∧
    ∃ s, (opened 1 .zero .empty).run (.plain fun _ => default) halfEndedActions = some s ∧
      ∃ m ∈ s.notices, m.calculation.status = .queued ∧
        m.calculation.finishedAt.isSome = true ∧ ¬ m.calculation.Coherent := by
  have ran : ((opened 1 .zero .empty).run (.plain fun _ => default) halfEndedActions).any (fun s =>
      s.notices.any fun m => decide (m.calculation.status = .queued) &&
        m.calculation.finishedAt.isSome) = true := by decide +kernel
  obtain ⟨s, run, found⟩ := (Option.any_eq_true _ _).1 ran
  obtain ⟨m, told, found⟩ := List.any_eq_true.1 found
  rw [Bool.and_eq_true, decide_eq_true_eq] at found
  obtain ⟨queued, kept⟩ := found
  have restores : ∀ a ∈ halfEndedActions, a.Restores [halfEnded] := by
    refine List.forall_mem_cons.2 ⟨⟨rfl, rfl⟩, fun a member => ?_⟩
    obtain ⟨_, rfl⟩ := List.mem_replicate.1 member
    trivial
  refine ⟨⟨_, (Calculation.read_reading halfEnded).trans rfl⟩, restores, s, run, m, told, queued,
    kept, fun coherent => ?_⟩
  rw [coherent.finishedAt, queued] at kept
  cases kept

end Service

end Reckoner
