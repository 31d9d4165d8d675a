import Reckoner.Proofs.Service.Footprints

/-!
# What changes the prices

The table in force and the one that the store remembers. `prices_step` says that no action of a
service changes either but the one that sets the table, if the pacer leaves it alone.
-/

namespace Reckoner

/-- The pacer leaves the table alone. -/
def Collaborators.Patient (k : Collaborators) : Prop :=
  ∀ n, (k.pacer n).table = none

namespace Service

/-- The table in force and the remembered one. -/
def prices (s : Service) : CostTable × Option CostTable :=
  (s.table, s.store.costs)

variable {k : Collaborators} {s t : Service}

theorem Touch.prices (patient : k.Patient) (touch : Touch k s t) : t.prices = s.prices := by
  cases touch with
  | read | closed | moved => rfl
  | told occasion c =>
    unfold Service.prices tell
    dsimp only
    split
    · rw [Store.costs_keep]
    · rfl
  | introduced c =>
    unfold Service.prices introduce
    dsimp only
    split <;> rfl
  | paused charge =>
    unfold Service.prices beginPause
    dsimp only
    rw [patient, Option.getD_none]

def Action.setsCosts : Action → Bool
  | .setCosts _ => true
  | _ => false

/-- Only the action that sets the table changes the prices. -/
theorem prices_step (patient : k.Patient) {a : Action} (other : a.setsCosts = false)
    (happened : s.step k a = some t) : t.prices = s.prices := by
  refine keeps_of_step (R := fun s t => t.prices = s.prices) (fun _ => rfl)
    (fun first second => second.trans first) (Touch.prices patient) ?_ happened
  rintro s table rfl
  cases other

end Service

end Reckoner
