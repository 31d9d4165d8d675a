import Reckoner.Proofs.Service.Steps

/-!
# Sound services

What single actions of a whole service can be, and the invariant that makes the steps of
`stepWorker_cases` and `stepCaller_cases` the only ones. `step_sound` says that every usual action
keeps a service sound. The handoffs matter here: as long as a caller holds one no worker leaves, so
that nobody is stranded at the rendezvous.
-/

namespace Reckoner.Service

variable {k : Collaborators} {s t : Service}

/-! ### Workers -/

namespace WorkerStep

variable {stage : Stage} {view : WorkerView} {w : Worker}

theorem frame (step : WorkerStep k s view stage t w) :
    t.callers = s.callers ∧ t.workers = s.workers ∧ t.isOpen = s.isOpen := by
  cases step <;> exact ⟨rfl, rfl, rfl⟩

theorem leaving (step : WorkerStep k s view stage t w) (gone : w.isGone = true) :
    s.isOpen = false ∧ s.hasHandoff = false := by
  cases step with
  | left closed unheld => exact ⟨closed, unheld⟩
  | _ => cases gone

theorem sound (step : WorkerStep k s view stage t w) (sound : stage.Sound) : w.stage.Sound := by
  cases step with
  | left | finished | paused | panicked | resumed | shown => exact sound
  | moved => exact sound
  | began => exact ⟨sound.numbered, rfl⟩
  | concluded | recovered | released => trivial

end WorkerStep

/-! ### Callers -/

namespace CallerStep

variable {c c' : Caller}

theorem frame (step : CallerStep k s c t c') : t.callers = s.callers ∧ t.workers = s.workers := by
  cases step <;> exact ⟨rfl, rfl⟩

theorem intake (step : CallerStep k s c t c') (isOpen : t.isOpen = true) : s.isOpen = true := by
  cases step <;> first | exact isOpen | cases isOpen

theorem handoff (step : CallerStep k s c t c') (holds : c'.holdsHandoff = true) :
    c.holdsHandoff = true ∨ s.isOpen = true := by
  cases step with
  | reserved isOpen | reopening _ isOpen | acquired isOpen => exact .inr isOpen
  | reopened | announced | sent => exact .inl rfl
  | _ => cases holds

theorem sound (step : CallerStep k s c t c') (sound : c.Sound) : c'.Sound := by
  cases step with
  | submitted => exact ⟨rfl, rfl⟩
  | parsed right => exact ⟨sound, right⟩
  | reserved | sent => exact sound
  | late => exact sound.1
  | reopening resumable => exact resumable
  | @reopened c _ _ _ right =>
    exact ⟨⟨numbered_of_resumable (c := c) sound, rfl⟩, right⟩
  | announced => exact ⟨sound.1.numbered, rfl, _, rfl, sound.2⟩
  | _ => trivial

end CallerStep

theorem handedOver_sound (c : Calculation) (next : Then) : (handedOver c next).Sound := by
  cases next <;> trivial

/-! ### The whole service -/

/-- Every calculation is in the status that its place asks for, and workers have only left when the
intake was closed and no handoff was outstanding. -/
structure Sound (s : Service) : Prop where
  callers : ∀ c ∈ s.callers, c.Sound
  workers : ∀ w ∈ s.workers, w.stage.Sound
  manned : s.workers ≠ []
  loyal : ∀ w ∈ s.workers, w.isGone = true → s.isOpen = false ∧ s.hasHandoff = false

theorem hasHandoff_eq_false :
    s.hasHandoff = false ↔ ∀ c ∈ s.callers, c.holdsHandoff = false := by
  simp [hasHandoff]

/-- As long as a caller holds a handoff, no worker leaves. -/
theorem Sound.staffed (sound : s.Sound) {c : Caller} (member : c ∈ s.callers)
    (holds : c.holdsHandoff = true) {w : Worker} (worker : w ∈ s.workers) : w.isGone = false := by
  rw [Bool.eq_false_iff]
  intro gone
  have unheld := (sound.loyal w worker gone).2
  rw [hasHandoff_eq_false.1 unheld c member] at holds
  cases holds

theorem Sound.not_all_gone (sound : s.Sound) {c : Caller} (member : c ∈ s.callers)
    (holds : c.holdsHandoff = true) : s.workers.all Worker.isGone = false := by
  obtain ⟨w, worker⟩ := List.exists_mem_of_ne_nil _ sound.manned
  rw [List.all_eq_false]
  exact ⟨w, worker, by simp [sound.staffed member holds worker]⟩

theorem sound_opened {n : Nat} (positive : 0 < n) (table : CostTable) (store : Store) :
    (opened n table store).Sound where
  callers := by simp [opened]
  workers := by
    intro w member
    obtain ⟨i, _, rfl⟩ := List.mem_map.1 member
    trivial
  manned := by simpa [opened] using Nat.ne_of_gt positive
  loyal := by
    intro w member gone
    obtain ⟨i, _, rfl⟩ := List.mem_map.1 member
    cases gone

/-- The operations that are called from outside, and everything that happens inside. -/
def Action.Usual : Action → Prop
  | .call (.submit _) | .call (.resume ..) | .call .acquire | .call .close | .call .join => True
  | .call _ | .use .. => False
  | _ => True

theorem Action.Usual.call {c : Caller} (usual : (Action.call c).Usual) :
    c.Sound ∧ c.holdsHandoff = false := by
  cases c <;> first | exact ⟨trivial, rfl⟩ | exact usual.elim

inductive ActionStep (k : Collaborators) (s : Service) : Action → Service → Prop where
  | worker {i : Nat} {w w' : Worker} {t : Service} (here : s.workers[i]? = some w)
      (step : WorkerStep k s w.view w.stage t w') :
      ActionStep k s (.worker i)
        { t with isOpen := s.isOpen, workers := s.workers.set i w', callers := s.callers }
  | caller {i : Nat} {c c' : Caller} {t : Service} (here : s.callers[i]? = some c)
      (step : CallerStep k s c t c') :
      ActionStep k s (.caller i) { t with workers := s.workers, callers := s.callers.set i c' }
  | handedOver {i j : Nat} {c : Calculation} {next : Then} {view : WorkerView}
      (offering : s.callers[i]? = some (.offer c next))
      (waiting : s.workers[j]? = some ⟨.waiting, view⟩) :
      ActionStep k s (.handOver i j)
        { s with
          workers := s.workers.set j ⟨.received c, view⟩
          callers := s.callers.set i (handedOver c next) }
  | dropped {i : Nat} (holding : s.callers[i]? = some .hold) :
      ActionStep k s (.drop i) { s with callers := s.callers.set i (.done .dropped) }
  | called {c : Caller} (usual : (Action.call c).Usual) :
      ActionStep k s (.call c) { s with callers := s.callers ++ [c] }
  | repriced {table : CostTable} : ActionStep k s (.setCosts table) { s with table }

theorem step_cases (forwards : k.Forwards) (sound : s.Sound) {a : Action} (usual : a.Usual)
    (h : s.step k a = some t) : ActionStep k s a t := by
  cases happens_of_step h with
  | worker here own =>
    have place := sound.workers _ (List.mem_of_getElem? here)
    have step := stepWorker_cases forwards place own
    obtain ⟨callers, workers, isOpen⟩ := step.frame
    have result := ActionStep.worker here step
    rwa [← callers, ← workers, ← isOpen] at result
  | caller here own =>
    have place := sound.callers _ (List.mem_of_getElem? here)
    have step := stepCaller_cases forwards place own
    obtain ⟨callers, workers⟩ := step.frame
    have result := ActionStep.caller here step
    rwa [← callers, ← workers] at result
  | handedOver offering waiting => exact .handedOver offering waiting
  | used => exact usual.elim
  | dropped holding => exact .dropped holding
  | called => exact .called usual
  | repriced => exact .repriced

namespace ActionStep

variable {a : Action}

theorem sound (step : ActionStep k s a t) (sound : s.Sound) : t.Sound := by
  cases step with
  | @worker i w w' t here step =>
    have place := sound.workers w (List.mem_of_getElem? here)
    refine ⟨sound.callers, ?_, by simpa using sound.manned, ?_⟩
    · intro v present
      rcases List.mem_or_eq_of_mem_set present with old | rfl
      · exact sound.workers v old
      · exact step.sound place
    · intro v present gone
      rcases List.mem_or_eq_of_mem_set present with old | rfl
      · exact sound.loyal v old gone
      · exact step.leaving gone
  | @caller i c c' t here step =>
    have member := List.mem_of_getElem? here
    refine ⟨?_, sound.workers, sound.manned, ?_⟩
    · intro d present
      rcases List.mem_or_eq_of_mem_set present with old | rfl
      · exact sound.callers d old
      · exact step.sound (sound.callers c member)
    · intro w present gone
      obtain ⟨closed, unheld⟩ := sound.loyal w present gone
      have shut : ¬ s.isOpen = true := by simp [closed]
      refine ⟨Bool.eq_false_iff.2 fun isOpen => shut (step.intake isOpen), ?_⟩
      rw [hasHandoff_eq_false] at unheld ⊢
      intro d present
      rcases List.mem_or_eq_of_mem_set present with old | rfl
      · exact unheld d old
      · rw [Bool.eq_false_iff]
        intro holds
        rcases step.handoff holds with held | isOpen
        · rw [unheld c member] at held
          cases held
        · exact shut isOpen
  | @handedOver i j c next view offering waiting =>
    have member := List.mem_of_getElem? offering
    refine ⟨?_, ?_, by simpa using sound.manned, ?_⟩
    · intro d present
      rcases List.mem_or_eq_of_mem_set present with old | rfl
      · exact sound.callers d old
      · exact handedOver_sound c next
    · intro w present
      rcases List.mem_or_eq_of_mem_set present with old | rfl
      · exact sound.workers w old
      · exact sound.callers _ member
    · intro w present gone
      rcases List.mem_or_eq_of_mem_set present with old | rfl
      · rw [sound.staffed member rfl old] at gone
        cases gone
      · cases gone
  | dropped =>
    refine ⟨?_, sound.workers, sound.manned, ?_⟩
    · intro d present
      rcases List.mem_or_eq_of_mem_set present with old | rfl
      · exact sound.callers d old
      · trivial
    · intro w present gone
      obtain ⟨closed, unheld⟩ := sound.loyal w present gone
      refine ⟨closed, hasHandoff_eq_false.2 fun d present => ?_⟩
      rcases List.mem_or_eq_of_mem_set present with old | rfl
      · exact hasHandoff_eq_false.1 unheld d old
      · rfl
  | called usual =>
    refine ⟨?_, sound.workers, sound.manned, ?_⟩
    · intro d present
      rcases List.mem_append.1 present with old | new
      · exact sound.callers d old
      · exact List.mem_singleton.1 new ▸ usual.call.1
    · intro w present gone
      obtain ⟨closed, unheld⟩ := sound.loyal w present gone
      refine ⟨closed, hasHandoff_eq_false.2 fun d present => ?_⟩
      rcases List.mem_append.1 present with old | new
      · exact hasHandoff_eq_false.1 unheld d old
      · exact List.mem_singleton.1 new ▸ usual.call.2
  | repriced => exact ⟨sound.callers, sound.workers, sound.manned, sound.loyal⟩

theorem length_workers (step : ActionStep k s a t) : t.workers.length = s.workers.length := by
  cases step with
  | worker | handedOver => exact List.length_set
  | _ => rfl

theorem caller_cases (step : ActionStep k s a t) {c' : Caller} (member : c' ∈ t.callers) :
    c' ∈ s.callers ∨ (∃ c ∈ s.callers, ∃ u, CallerStep k s c u c') ∨
      (∃ i j c next, a = .handOver i j ∧ s.callers[i]? = some (.offer c next) ∧
        c' = Service.handedOver c next) ∨
      c' = .done .dropped ∨ (Action.call c').Usual := by
  cases step with
  | worker | repriced => exact .inl member
  | @caller i c c'' u here step =>
    rcases List.mem_or_eq_of_mem_set member with old | rfl
    · exact .inl old
    · exact .inr (.inl ⟨c, List.mem_of_getElem? here, u, step⟩)
  | @handedOver i j c next view offering =>
    rcases List.mem_or_eq_of_mem_set member with old | rfl
    · exact .inl old
    · exact .inr (.inr (.inl ⟨i, j, c, next, rfl, offering, rfl⟩))
  | dropped =>
    rcases List.mem_or_eq_of_mem_set member with old | rfl
    · exact .inl old
    · exact .inr (.inr (.inr (.inl rfl)))
  | called usual =>
    rcases List.mem_append.1 member with old | new
    · exact .inl old
    · exact .inr (.inr (.inr (.inr (List.mem_singleton.1 new ▸ usual))))

end ActionStep

end Reckoner.Service
