import Reckoner.Api.App
import Reckoner.Proofs.Service.Prices
import Reckoner.Proofs.Store.RoundTrip

/-!
# Updates of the costs

Any number of requests replace the costs. Each first puts its table in force and then has it
remembered, and the others may come in between. `costs_agree_iff` says when the remembered table is
the one in force.
-/

namespace Reckoner.Api.App

/-! ### The start -/

theorem serviceStart_eq_ok {settings : Settings} {workers : Nat} {configured : CostTable}
    (h : settings.serviceStart = .ok (workers, configured)) :
    workers ≠ 0 ∧ settings.costTable = .ok configured := by
  simp only [Settings.serviceStart, bind_eq_ok, pure, Except.pure, Except.ok.injEq,
    Prod.mk.injEq] at h
  obtain ⟨_, valid, _, costs, rfl, rfl⟩ := h
  refine ⟨fun zero => ?_, costs⟩
  have none : settings.pool.workers = 0 := UInt64.toNat_inj.1 zero
  rw [Settings.validate, if_pos none] at valid
  cases valid

/-- Whether a start succeeds does not depend on the store. -/
theorem start_eq_ok {settings : Settings} {store : Store} {app : App} :
    start settings store = .ok app ↔ ∃ workers configured limit,
      settings.serviceStart = .ok (workers, configured) ∧ settings.maxBodyBytes = .ok limit ∧
        ⟨.opened workers (store.costs.getD configured)
          (store.recordCosts (store.costs.getD configured)), limit⟩ = app := by
  simp only [start, bind_eq_ok, Prod.exists, pure, Except.pure, Except.ok.injEq]
  constructor
  · rintro ⟨workers, configured, started, limit, body, service, opened, rfl⟩
    rw [Service.start, if_neg (serviceStart_eq_ok started).1] at opened
    cases opened
    exact ⟨workers, configured, limit, started, body, rfl⟩
  · rintro ⟨workers, configured, limit, started, body, rfl⟩
    refine ⟨workers, configured, started, limit, body, _, ?_, rfl⟩
    rw [Service.start, if_neg (serviceStart_eq_ok started).1]

/-- A start that fails leaves the store alone; one that succeeds puts the remembered table in force,
or else the configured one, and has it remembered. -/
theorem startWith_cases (settings : Settings) (store : Store) :
    (∃ e, startWith settings store = (.error e, store)) ∨
      ∃ app configured, startWith settings store = (.ok app, app.service.store) ∧
        settings.costTable = .ok configured ∧
        app.service.prices =
          (store.costs.getD configured, some (store.costs.getD configured)) := by
  unfold startWith
  cases started : settings.serviceStart with
  | error e => exact .inl ⟨e, rfl⟩
  | ok r =>
    obtain ⟨workers, configured⟩ := r
    obtain ⟨some, costs⟩ := serviceStart_eq_ok started
    cases settings.maxBodyBytes with
    | error e => exact .inl ⟨e, rfl⟩
    | ok limit =>
      refine .inr ⟨⟨.opened workers (store.costs.getD configured)
        (store.recordCosts (store.costs.getD configured)), limit⟩, configured, ?_, costs, rfl⟩
      simp only [Service.start, if_neg some]
      rfl

/-! ### Any number of updates -/

/-- What a step of an update does. -/
inductive Effect where
  | applied (table : CostTable)
  | remembered (table : CostTable)

def Effect.applied? : Effect → Option CostTable
  | .applied table => some table
  | .remembered _ => none

def Effect.remembered? : Effect → Option CostTable
  | .remembered table => some table
  | .applied _ => none

@[simp] theorem Effect.applied?_eq_some {e : Effect} {table : CostTable} :
    e.applied? = some table ↔ e = .applied table := by
  cases e <;> simp [applied?]

@[simp] theorem Effect.remembered?_eq_some {e : Effect} {table : CostTable} :
    e.remembered? = some table ↔ e = .remembered table := by
  cases e <;> simp [remembered?]

def Update.effect? : Update → Option Effect
  | .asked plus minus multiply divide =>
    (CostTable.ofMillis plus minus multiply divide).toOption.map .applied
  | .applied table => some (.remembered table)
  | .answered _ => none

/-- The table that is in force, but not yet remembered. -/
def Update.pending? : Update → Option CostTable
  | .applied table => some table
  | .asked .. | .answered _ => none

/-- What the next step of an update is made of. -/
inductive Update.Advances (s : Service) : Update → Service → Update → Option Effect → Prop where
  | applies {plus minus multiply divide : Int64} {table : CostTable}
      (made : CostTable.ofMillis plus minus multiply divide = .ok table) :
      Advances s (.asked plus minus multiply divide) { s with table } (.applied table)
        (some (.applied table))
  | refuses {plus minus multiply divide : Int64} {e : Error}
      (made : CostTable.ofMillis plus minus multiply divide = .error e) :
      Advances s (.asked plus minus multiply divide) s (.answered (.error e)) none
  | remembers (table : CostTable) :
      Advances s (.applied table) { s with store := s.store.recordCosts table }
        (.answered (.ok table)) (some (.remembered table))
  | rests (outcome : Except Error CostTable) :
      Advances s (.answered outcome) s (.answered outcome) none

theorem Update.advances_step (s : Service) (r : Update) :
    r.Advances s (r.step s).1 (r.step s).2 r.effect? := by
  cases r with
  | asked plus minus multiply divide =>
    cases made : CostTable.ofMillis plus minus multiply divide with
    | error e =>
      simp only [step, Service.setCosts, effect?, made]
      exact .refuses made
    | ok table =>
      simp only [step, Service.setCosts, effect?, made]
      exact .applies made
  | applied table => exact .remembers table
  | answered outcome => exact .rests outcome

namespace Update.Advances

variable {s s' : Service} {r r' : Update} {effect : Option Effect}

theorem not_asked (own : r.Advances s s' r' effect) (plus minus multiply divide : Int64) :
    r' ≠ .asked plus minus multiply divide := by
  cases own <;> exact fun same => nomatch same

theorem asked_of_applied (own : r.Advances s s' r' effect) {table : CostTable}
    (applied : .applied table ∈ effect.toList) :
    ∃ plus minus multiply divide, r = .asked plus minus multiply divide ∧
      CostTable.ofMillis plus minus multiply divide = .ok table := by
  cases own with
  | applies made =>
    cases List.mem_singleton.1 applied
    exact ⟨_, _, _, _, rfl, made⟩
  | remembers other => exact nomatch List.mem_singleton.1 applied
  | refuses | rests => exact nomatch applied

/-- A table is pending between being put in force and being remembered. -/
theorem balance (own : r.Advances s s' r' effect) (table : CostTable) :
    (effect.toList.filterMap Effect.applied?).count table + r.pending?.toList.count table =
      (effect.toList.filterMap Effect.remembered?).count table +
        r'.pending?.toList.count table := by
  cases own with
  | applies made => exact Nat.add_comm _ 0
  | remembers other => exact Nat.add_comm 0 _
  | refuses | rests => rfl

end Update.Advances

def Update.isAnswered : Update → Bool
  | .answered _ => true
  | .asked .. | .applied _ => false

structure Updates where
  service : Service
  requests : List Update
  /-- What the requests did, latest first. -/
  history : List Effect

inductive Move where
  | ask (plus minus multiply divide : Int64)
  | advance (index : Nat)
  /-- Anything else that happens in the service. -/
  | work (a : Service.Action)

namespace Updates

def step (k : Collaborators) (u : Updates) : Move → Option Updates
  | .ask plus minus multiply divide =>
    some { u with requests := u.requests ++ [.asked plus minus multiply divide] }
  | .advance i =>
    u.requests[i]?.map fun r =>
      ⟨(r.step u.service).1, u.requests.set i (r.step u.service).2,
        r.effect?.toList ++ u.history⟩
  | .work a =>
    if a.setsCosts then none
    else (u.service.step k a).map fun service => { u with service }

def run (k : Collaborators) (u : Updates) (moves : List Move) : Option Updates :=
  moves.foldlM (step k) u

/-- What a move is made of. -/
inductive Made (k : Collaborators) (u : Updates) : Move → Updates → Prop where
  | asked (plus minus multiply divide : Int64) :
      Made k u (.ask plus minus multiply divide)
        { u with requests := u.requests ++ [.asked plus minus multiply divide] }
  | advanced {i : Nat} {r r' : Update} (here : u.requests[i]? = some r) {s : Service}
      {effect : Option Effect} (own : r.Advances u.service s r' effect) :
      Made k u (.advance i) ⟨s, u.requests.set i r', effect.toList ++ u.history⟩
  | worked {a : Service.Action} (other : a.setsCosts = false) {s : Service}
      (worked : u.service.step k a = some s) : Made k u (.work a) { u with service := s }

/-- The table last put in force, after the first one. -/
def applied (first : CostTable) (u : Updates) : CostTable :=
  (u.history.findSome? Effect.applied?).getD first

/-- The table last remembered, after the first one. -/
def remembered (first : CostTable) (u : Updates) : CostTable :=
  (u.history.findSome? Effect.remembered?).getD first

/-- Whether all requests have been answered. -/
def isAtRest (u : Updates) : Bool :=
  u.requests.all Update.isAnswered

variable {k : Collaborators} {u v : Updates} {first : CostTable} {accepted : CostTable → Prop}

theorem made_of_step {move : Move} (happened : u.step k move = some v) : u.Made k move v := by
  cases move with
  | ask plus minus multiply divide =>
    cases happened
    exact .asked plus minus multiply divide
  | advance i =>
    obtain ⟨r, here, rfl⟩ := Option.map_eq_some_iff.1 happened
    exact .advanced here (r.advances_step u.service)
  | work a =>
    simp only [Updates.step] at happened
    split at happened
    · cases happened
    · rename_i other
      obtain ⟨s, worked, rfl⟩ := Option.map_eq_some_iff.1 happened
      exact .worked (Bool.eq_false_iff.2 other) worked

theorem run_cons {move : Move} {moves : List Move} :
    u.run k (move :: moves) = some v ↔ ∃ w, u.step k move = some w ∧ w.run k moves = some v := by
  simp only [Updates.run, List.foldlM_cons, Option.bind_eq_bind, Option.bind_eq_some_iff]

/-- What holds of all requests, effects and tables, where the tables asked for are acceptable. -/
structure Sound (first : CostTable) (accepted : CostTable → Prop) (u : Updates) : Prop where
  prices : u.service.prices = (u.applied first, some (u.remembered first))
  asked : ∀ plus minus multiply divide table, .asked plus minus multiply divide ∈ u.requests →
    CostTable.ofMillis plus minus multiply divide = .ok table → accepted table
  effects : ∀ table, .applied table ∈ u.history → accepted table
  balance : ∀ table, (u.history.filterMap Effect.applied?).count table =
    (u.history.filterMap Effect.remembered?).count table +
      (u.requests.filterMap Update.pending?).count table

theorem Sound.ask (h : u.Sound first accepted) {plus minus multiply divide : Int64}
    (fine : ∀ table, CostTable.ofMillis plus minus multiply divide = .ok table → accepted table) :
    Sound first accepted
      { u with requests := u.requests ++ [.asked plus minus multiply divide] } where
  prices := h.prices
  asked := by
    intro p m x d table asked made
    rcases List.mem_append.1 asked with old | new
    · exact h.asked p m x d table old made
    · cases List.mem_singleton.1 new
      exact fine table made
  effects := h.effects
  balance := by
    intro table
    rw [List.filterMap_append, List.count_append, h.balance table]
    rfl

theorem count_filterMap_set {α β : Type} [DecidableEq β] {l : List α} {i : Nat} {a : α}
    (here : l[i]? = some a) (b : α) (f : α → Option β) (x : β) :
    ((l.set i b).filterMap f).count x + (f a).toList.count x =
      (l.filterMap f).count x + (f b).toList.count x := by
  obtain ⟨inside, rfl⟩ := List.getElem?_eq_some_iff.1 here
  have before := ((List.getElem_cons_eraseIdx_perm inside).filterMap f).count_eq x
  have after := ((List.set_perm_cons_eraseIdx inside b).filterMap f).count_eq x
  have entry (c : α) : ((c :: l.eraseIdx i).filterMap f).count x =
      (f c).toList.count x + ((l.eraseIdx i).filterMap f).count x := by
    rw [List.filterMap_cons]
    cases f c <;> simp [List.count_cons, Nat.add_comm]
  rw [entry] at before after
  omega

theorem Sound.advance (h : u.Sound first accepted) {i : Nat} {r r' : Update}
    (here : u.requests[i]? = some r) {s : Service} {effect : Option Effect}
    (own : r.Advances u.service s r' effect) :
    Sound first accepted ⟨s, u.requests.set i r', effect.toList ++ u.history⟩ where
  prices := by
    have prices := Prod.mk.inj h.prices
    cases own with
    | applies made => exact Prod.ext rfl prices.2
    | remembers table => exact Prod.ext prices.1 rfl
    | refuses | rests => exact h.prices
  asked := by
    intro plus minus multiply divide table listed made
    rcases List.mem_or_eq_of_mem_set listed with old | new
    · exact h.asked plus minus multiply divide table old made
    · exact absurd new.symm (own.not_asked plus minus multiply divide)
  effects := by
    intro table listed
    rcases List.mem_append.1 listed with new | old
    · obtain ⟨plus, minus, multiply, divide, rfl, made⟩ := own.asked_of_applied new
      exact h.asked plus minus multiply divide table (List.mem_of_getElem? here) made
    · exact h.effects table old
  balance := by
    intro table
    have step := own.balance table
    have place := count_filterMap_set here r' Update.pending? table
    have before := h.balance table
    simp only [List.filterMap_append, List.count_append]
    omega

theorem Sound.step (h : u.Sound first accepted) (patient : k.Patient) {move : Move}
    (fine : ∀ plus minus multiply divide table, move = .ask plus minus multiply divide →
      CostTable.ofMillis plus minus multiply divide = .ok table → accepted table)
    (happened : u.step k move = some v) : v.Sound first accepted := by
  cases made_of_step happened with
  | asked plus minus multiply divide =>
    exact h.ask fun table => fine plus minus multiply divide table rfl
  | advanced here own => exact h.advance here own
  | worked other worked =>
    have same := Service.prices_step patient other worked
    exact ⟨same.trans h.prices, h.asked, h.effects, h.balance⟩

theorem Sound.run (h : u.Sound first accepted) (patient : k.Patient) {moves : List Move}
    (fine : ∀ plus minus multiply divide table, .ask plus minus multiply divide ∈ moves →
      CostTable.ofMillis plus minus multiply divide = .ok table → accepted table)
    (happened : u.run k moves = some v) : v.Sound first accepted := by
  induction moves generalizing u with
  | nil =>
    cases happened
    exact h
  | cons move moves ih =>
    obtain ⟨w, first, rest⟩ := run_cons.1 happened
    refine ih (h.step patient ?_ first) ?_ rest
    · rintro plus minus multiply divide table rfl made
      exact fine plus minus multiply divide table (.head _) made
    · intro plus minus multiply divide table listed made
      exact fine plus minus multiply divide table (.tail _ listed) made

/-! ### Requests that do not cross -/

/-- Whether all other requests are before or behind both of their steps. -/
def isFree (u : Updates) : Move → Bool
  | .advance i => (u.requests.eraseIdx i).all fun r => r.pending?.isNone
  | .ask .. | .work _ => true

/-- Whether no request takes a step while another one is between its two. -/
def isApart (k : Collaborators) (u : Updates) : List Move → Bool
  | [] => true
  | move :: moves => u.isFree move && (u.step k move).all (isApart k · moves)

/-- The requests between their steps: none, and then the tables agree, or the one whose table was
put in force last. -/
def IsPaired (first : CostTable) (u : Updates) : Prop :=
  u.requests.filterMap Update.pending? = [] ∧ u.remembered first = u.applied first ∨
    u.requests.filterMap Update.pending? = [u.applied first]

theorem pending_of_others {requests : List Update} {i : Nat} {r : Update}
    (here : requests[i]? = some r)
    (others : (requests.eraseIdx i).all (fun r => r.pending?.isNone) = true) :
    requests.filterMap Update.pending? = r.pending?.toList := by
  obtain ⟨inside, rfl⟩ := List.getElem?_eq_some_iff.1 here
  have none : (requests.eraseIdx i).filterMap Update.pending? = [] := by
    simpa [List.filterMap_eq_nil_iff] using others
  have same := (List.getElem_cons_eraseIdx_perm inside).symm.filterMap Update.pending?
  rw [List.filterMap_cons, none] at same
  cases own : requests[i].pending? with
  | none =>
    rw [own] at same
    exact same.eq_nil
  | some table =>
    rw [own] at same
    exact List.perm_singleton.1 same

theorem IsPaired.advance (h : u.IsPaired first) {i : Nat} {r r' : Update}
    (here : u.requests[i]? = some r) (free : u.isFree (.advance i) = true) {s : Service}
    {effect : Option Effect} (own : r.Advances u.service s r' effect) :
    IsPaired first ⟨s, u.requests.set i r', effect.toList ++ u.history⟩ := by
  have before := pending_of_others here free
  have after : (u.requests.set i r').filterMap Update.pending? = r'.pending?.toList := by
    obtain ⟨inside, _⟩ := List.getElem?_eq_some_iff.1 here
    refine pending_of_others (i := i) (List.getElem?_set_self inside) ?_
    rw [List.eraseIdx_set_eq]
    exact free
  cases own with
  | applies made => exact .inr after
  | remembers table =>
    rcases h with ⟨none, _⟩ | one
    · cases before.symm.trans none
    · cases before.symm.trans one
      exact .inl ⟨after, rfl⟩
  | refuses made =>
    rcases h with ⟨_, agree⟩ | one
    · exact .inl ⟨after, agree⟩
    · cases before.symm.trans one
  | rests outcome =>
    rcases h with ⟨_, agree⟩ | one
    · exact .inl ⟨after, agree⟩
    · cases before.symm.trans one

theorem IsPaired.step (h : u.IsPaired first) {move : Move} (free : u.isFree move = true)
    (happened : u.step k move = some v) : v.IsPaired first := by
  cases made_of_step happened with
  | asked plus minus multiply divide =>
    have same : (u.requests ++ [Update.asked plus minus multiply divide]).filterMap
        Update.pending? = u.requests.filterMap Update.pending? := by
      rw [List.filterMap_append]
      exact List.append_nil _
    unfold IsPaired
    rw [same]
    exact h
  | advanced here own => exact h.advance here free own
  | worked => exact h

theorem IsPaired.run (h : u.IsPaired first) {moves : List Move}
    (apart : u.isApart k moves = true) (happened : u.run k moves = some v) :
    v.IsPaired first := by
  induction moves generalizing u with
  | nil =>
    cases happened
    exact h
  | cons move moves ih =>
    obtain ⟨w, made, rest⟩ := run_cons.1 happened
    simp only [isApart, made, Option.all_some, Bool.and_eq_true] at apart
    exact ih (h.step apart.1 made) apart.2 rest

/-! ### Agreement -/

/-- The table of a request that came and was accepted. -/
def Accepted (moves : List Move) (table : CostTable) : Prop :=
  ∃ plus minus multiply divide, .ask plus minus multiply divide ∈ moves ∧
    CostTable.ofMillis plus minus multiply divide = .ok table

/-- Where a service stands that began with a table, after such moves. -/
structure Stands (first : CostTable) (moves : List Move) (u : Updates) : Prop where
  table : u.service.table = u.applied first
  costs : u.service.store.costs = some (u.remembered first)
  /-- Both tables are as a whole the first one or that of a request. -/
  whole : ∀ table, u.service.table = table ∨ u.service.store.costs = some table →
    table = first ∨ Accepted moves table
  accepted : ∀ table, .applied table ∈ u.history → Accepted moves table
  refused : ∀ k i plus minus multiply divide,
    u.requests[i]? = some (.asked plus minus multiply divide) →
    (plus.toInt < 0 ∨ minus.toInt < 0 ∨ multiply.toInt < 0 ∨ divide.toInt < 0) →
    ∃ e, u.step k (.advance i) = some { u with requests := u.requests.set i (.answered (.error e)) }
  /-- What is remembered is what was put in force before, and at rest nothing is left to be. -/
  remembered : ∀ table, .remembered table ∈ u.history → .applied table ∈ u.history
  balance : u.isAtRest = true →
    (u.history.filterMap Effect.applied?).Perm (u.history.filterMap Effect.remembered?)
  agree : u.service.store.costs = some u.service.table ↔ u.remembered first = u.applied first
  /-- A restart, with settings that allow a start, brings back the remembered table, of the first
  one its whole milliseconds. -/
  restart : ∃ t, Store.load u.service.store.save = .ok t ∧
    ∀ settings store old, start settings store = .ok old →
      ∃ app, start settings t = .ok app ∧ app.service.table =
        if u.remembered first = first then first.inMillis else u.remembered first

theorem exists_start {settings : Settings} {store : Store} {old : App}
    (started : start settings store = .ok old) {t : Store} {table : CostTable}
    (costs : t.costs = some table) :
    ∃ app, start settings t = .ok app ∧ app.service.table = table := by
  obtain ⟨workers, configured, limit, valid, body, rfl⟩ := start_eq_ok.1 started
  refine ⟨_, start_eq_ok.2 ⟨workers, configured, limit, valid, body, rfl⟩, ?_⟩
  rw [costs]
  rfl

theorem Accepted.inMillis {moves : List Move} {table : CostTable} (h : Accepted moves table) :
    table.inMillis = table := by
  obtain ⟨plus, minus, multiply, divide, _, made⟩ := h
  exact (CostTable.isWhole_of_ofMillis made).inMillis

theorem getD_findSome?_cases (shows : Effect → Option CostTable) (first : CostTable)
    (history : List Effect) :
    (history.findSome? shows).getD first = first ∨
      ∃ e ∈ history, shows e = some ((history.findSome? shows).getD first) := by
  cases found : history.findSome? shows with
  | none => exact .inl rfl
  | some table => exact .inr (List.exists_of_findSome?_eq_some found)

theorem applied_cases (first : CostTable) (u : Updates) :
    u.applied first = first ∨ .applied (u.applied first) ∈ u.history := by
  simpa [applied] using getD_findSome?_cases Effect.applied? first u.history

theorem remembered_cases (first : CostTable) (u : Updates) :
    u.remembered first = first ∨ .remembered (u.remembered first) ∈ u.history := by
  simpa [remembered] using getD_findSome?_cases Effect.remembered? first u.history

theorem pending_of_isAtRest (atRest : u.isAtRest = true) :
    u.requests.filterMap Update.pending? = [] := by
  refine List.filterMap_eq_nil_iff.2 fun r listed => ?_
  have answered := List.all_eq_true.1 atRest r listed
  cases r with
  | answered outcome => rfl
  | asked | applied => cases answered

theorem Sound.mem_of_remembered (h : u.Sound first accepted) {table : CostTable}
    (listed : .remembered table ∈ u.history) : .applied table ∈ u.history := by
  have counted : 0 < (u.history.filterMap Effect.remembered?).count table :=
    List.count_pos_iff.2 (List.mem_filterMap.2 ⟨_, listed, rfl⟩)
  have balance := h.balance table
  have member : table ∈ u.history.filterMap Effect.applied? := List.count_pos_iff.1 (by omega)
  obtain ⟨effect, there, applied⟩ := List.mem_filterMap.1 member
  exact Effect.applied?_eq_some.1 applied ▸ there

theorem Sound.stands {moves : List Move}
    (h : u.Sound first (Accepted moves)) : u.Stands first moves where
  table := congrArg Prod.fst h.prices
  costs := congrArg Prod.snd h.prices
  whole := by
    have prices := Prod.mk.inj h.prices
    rintro table (force | kept)
    · rw [prices.1] at force
      exact force ▸ (applied_cases first u).imp_right (h.effects _)
    · rw [prices.2] at kept
      exact Option.some.inj kept ▸
        (remembered_cases first u).imp_right fun listed => h.effects _ (h.mem_of_remembered listed)
  accepted := h.effects
  refused := by
    intro k i plus minus multiply divide here negative
    obtain ⟨e, made⟩ := CostTable.ofMillis_of_negative negative
    refine ⟨e, ?_⟩
    have own : Update.step u.service (.asked plus minus multiply divide) =
        (u.service, .answered (.error e)) := by
      simp only [Update.step, Service.setCosts, made]
      rfl
    simp only [Updates.step, here, Option.map_some, own, Update.effect?, made]
    rfl
  remembered _ := h.mem_of_remembered
  balance := by
    intro atRest
    refine List.perm_iff_count.2 fun table => ?_
    rw [h.balance table, pending_of_isAtRest atRest]
    rfl
  agree := by
    have prices := Prod.mk.inj h.prices
    rw [prices.1, prices.2, Option.some_inj]
  restart := by
    have prices := Prod.mk.inj h.prices
    obtain ⟨t, loaded⟩ := Store.exists_load u.service.store
    refine ⟨t, loaded, fun settings store old started => ?_⟩
    have costs : t.costs = some (u.remembered first).inMillis := by
      rw [Store.costs_load loaded, prices.2]
      rfl
    obtain ⟨app, again, table⟩ := exists_start started costs
    refine ⟨app, again, ?_⟩
    rw [table]
    split
    · rename_i same
      rw [same]
    · rename_i other
      have listed := (remembered_cases first u).resolve_left other
      exact (h.effects _ (h.mem_of_remembered listed)).inMillis

theorem Stands.agree_of_isPaired {moves : List Move} (h : u.Stands first moves)
    (paired : u.IsPaired first) (atRest : u.isAtRest = true) :
    u.service.store.costs = some u.service.table := by
  rcases paired with ⟨_, same⟩ | one
  · exact h.agree.2 same
  · rw [pending_of_isAtRest atRest] at one
    cases one

/-- A start that fails leaves the recorded costs alone. After one that succeeds the table in force
and the remembered one are the same, the one that was remembered before or else the configured one,
and from then on they are those last put in force and last remembered by the requests. They agree
exactly if the last of both are the same, and so at rest if the requests did not cross. -/
theorem costs_agree_iff (patient : k.Patient) (settings : Settings) (store : Store) :
    (startWith settings store).1 = start settings store ∧
    ((∃ e, startWith settings store = (.error e, store)) ∨
      ∃ app configured first, startWith settings store = (.ok app, app.service.store) ∧
        settings.costTable = .ok configured ∧ first = store.costs.getD configured ∧
        app.service.table = first ∧ app.service.store.costs = some first ∧
        ∀ moves u, run k ⟨app.service, [], []⟩ moves = some u →
          u.Stands first moves ∧
            (isApart k ⟨app.service, [], []⟩ moves = true → u.isAtRest = true →
              u.service.store.costs = some u.service.table)) := by
  refine ⟨fst_startWith settings store, ?_⟩
  rcases startWith_cases settings store with failed | ⟨app, configured, started, costs, prices⟩
  · exact .inl failed
  · refine .inr ⟨app, configured, _, started, costs, rfl, congrArg Prod.fst prices,
      congrArg Prod.snd prices, ?_⟩
    intro moves u happened
    have sound : u.Sound (store.costs.getD configured) (Accepted moves) := by
      refine Sound.run ?_ patient ?_ happened
      · exact ⟨prices, by simp, by simp, by simp⟩
      · intro plus minus multiply divide table listed made
        exact ⟨plus, minus, multiply, divide, listed, made⟩
    refine ⟨sound.stands, fun apart => sound.stands.agree_of_isPaired ?_⟩
    exact IsPaired.run (.inl ⟨rfl, rfl⟩) apart happened

/-- The application as it starts with the default settings. -/
def opening : App :=
  ⟨.opened 10 (.uniform (.ofMillis 1000)) (Store.empty.recordCosts (.uniform (.ofMillis 1000))),
    65536⟩

theorem startWith_default :
    startWith .default .empty = (.ok opening, opening.service.store) :=
  rfl

/-- Two requests, one after the other. -/
def twoMoves : List Move :=
  [.ask 1 1 1 1, .advance 0, .advance 0, .ask 2 2 2 2, .advance 1, .advance 1]

/-- Two requests, the second one in the middle of the first. -/
def crossingMoves : List Move :=
  [.ask 1 1 1 1, .ask 2 2 2 2, .advance 0, .advance 1, .advance 1, .advance 0]

theorem twoMoves_agree :
    Collaborators.Patient (.plain fun _ => default) ∧
      ∃ u, run (.plain fun _ => default) ⟨opening.service, [], []⟩ twoMoves = some u ∧
        u.isAtRest = true ∧ u.service.store.costs = some u.service.table := by
  have patient : Collaborators.Patient (.plain fun _ => default) := fun _ => rfl
  refine ⟨patient, _, rfl, rfl, ?_⟩
  obtain ⟨_, ⟨e, failed⟩ | ⟨app, configured, first, started, _, _, _, _, stands⟩⟩ :=
    costs_agree_iff patient .default .empty
  · rw [startWith_default] at failed
    cases failed
  · rw [startWith_default] at started
    cases started
    exact (stands twoMoves _ rfl).2 rfl rfl

/-- Two requests that cross leave one table in force and the other remembered. -/
theorem crossing_updates_disagree :
    ∃ app u, startWith .default .empty = (.ok app, app.service.store) ∧
      run (.plain fun _ => default) ⟨app.service, [], []⟩ crossingMoves = some u ∧
      u.isAtRest = true ∧ u.service.table = .uniform (.ofMillis 2) ∧
      u.service.store.costs = some (.uniform (.ofMillis 1)) ∧
      some (CostTable.uniform (.ofMillis 1)) ≠ some (.uniform (.ofMillis 2)) :=
  ⟨opening, _, startWith_default, rfl, rfl, rfl, rfl, by decide⟩

end Updates

end Reckoner.Api.App
