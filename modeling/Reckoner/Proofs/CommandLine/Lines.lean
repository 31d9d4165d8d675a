import Reckoner.CommandLine.Run
import Reckoner.Proofs.Service.Settling

/-!
# Lines of texts

The program prints one line for each text that it is to evaluate. `Sitting.prints` says so of every
schedule of the workers, and `submitAll_sits` that the program runs one of these.
-/

namespace Reckoner

variable {k : Collaborators} {n : Nat} {table : CostTable} {texts : List String} {s : Service}
variable {actions : List Service.Action} {store : Store} {cs : List Calculation} {text : String}

open Service

/-! ### The line of a text -/

namespace CommandLine

def lineFor (text : String) : String :=
  match Formula.parse text with
  | .error e => text ++ ": error: " ++ e.message
  | .ok f => match f.value with
    | .error _ => text ++ ": error: " ++ "division by zero"
    | .ok x => text ++ " = " ++ Decimal.Layout.plain.render x

/-- The record of a returned calculation has ended, and its line is that of the text. -/
def Prints (store : Store) (c : Calculation) (text : String) : Prop :=
  ∃ d, c.id.bind store.find? = some d ∧ d.isTerminal = true ∧ lineOf d = lineFor text

def linesOf (store : Store) (cs : List Calculation) : List String :=
  cs.filterMap fun c => (c.id.bind store.find?).map lineOf

theorem linesOf_eq (printed : List.Forall₂ (Prints store) cs texts) :
    linesOf store cs = texts.map lineFor := by
  induction printed with
  | nil => rfl
  | cons first _ ih =>
    obtain ⟨d, found, -, line⟩ := first
    rw [linesOf, List.filterMap_cons_some (by rw [found, Option.map_some, line]), List.map_cons]
    exact congrArg _ ih

theorem lineOf_fate {d : Calculation} (landed : (d.status, d.result) = fate table d.text) :
    d.isTerminal = true ∧ lineOf d = lineFor d.text := by
  rw [fate] at landed
  rw [Calculation.isTerminal, lineOf, lineFor, Calculation.errorMessage]
  cases right : Formula.parse d.text with
  | error e =>
    rw [right] at landed
    obtain ⟨status, result⟩ := Prod.mk.inj landed
    rw [status, result]
    exact ⟨rfl, rfl⟩
  | ok f =>
    have value : (f.evaluate (fun _ => none) (.start table)).1 = f.value :=
      (f.evaluate_trace _ _).1.trans f.trace_value
    rw [right] at landed
    simp only [value] at landed
    cases evaluated : f.value with
    | error e | ok x =>
      rw [evaluated] at landed
      obtain ⟨status, result⟩ := Prod.mk.inj landed
      simp [status, result, evaluated, Calculation.Status.isTerminal]

end CommandLine

/-! ### Every schedule -/

namespace Service

def Caller.answer? : Caller → Option Calculation
  | .done (.submitted c) => some c
  | _ => none

/-- The calculations that were returned, in the order of the calls. -/
def answers (s : Service) : List Calculation :=
  s.callers.filterMap Caller.answer?

theorem answers_behind : (s.behind cs).answers = cs ++ s.answers := by
  rw [answers, behind, List.filterMap_append, List.filterMap_map]
  exact congrArg (· ++ s.answers) List.filterMap_some

theorem prints_answers {callers : List Caller}
    (each : List.Forall₂ (fun c text => ∃ d, c.answer? = some d ∧ CommandLine.Prints store d text)
      callers texts) :
    List.Forall₂ (CommandLine.Prints store) (callers.filterMap Caller.answer?) texts := by
  induction each with
  | nil => exact .nil
  | cons first _ ih =>
    obtain ⟨d, answer, prints⟩ := first
    rw [List.filterMap_cons_some answer]
    exact .cons prints ih

theorem Sitting.stopped (h : Sitting k n table texts actions s)
    (finished : Finished texts actions s) :
    s.callers.drop texts.length = [.done .stopped] := by
  have count : s.callers.length = texts.length + 1 := by
    rw [h.length_callers, finished.made, agenda]
    simp
  have call : (calls actions)[texts.length]? = some .close := by
    rw [finished.made, agenda]
    simp
  obtain ⟨_, c, here, leaving⟩ := h.closing call
  obtain ⟨reply, rfl⟩ := finished.back c (List.mem_of_getElem? here)
  cases leaving with
  | stopped =>
    refine List.ext_getElem? fun i => ?_
    rw [List.getElem?_drop]
    cases i with
    | zero => exact here
    | succ i =>
      rw [List.getElem?_eq_none (by omega)]
      rfl

/-- In the end the calculations returned are those of the texts, in their order, and each is printed
as the line of its text. -/
theorem Sitting.prints (h : Sitting k n table texts actions s)
    (finished : Finished texts actions s) :
    List.Forall₂ (CommandLine.Prints s.store) s.answers texts := by
  have each : List.Forall₂ (fun c text => ∃ d, c.answer? = some d ∧
      CommandLine.Prints s.store d text) (s.callers.take texts.length) texts := by
    have count := congrArg List.length (h.stopped finished)
    rw [List.length_drop, List.length_singleton] at count
    refine List.forall₂_iff_get.2 ⟨by rw [List.length_take]; omega, fun i left right => ?_⟩
    obtain ⟨c, d, there, found, same, landed⟩ :=
      h.recorded finished (List.getElem?_eq_getElem right)
    obtain ⟨_, caller⟩ := List.getElem?_eq_some_iff.1 there
    rw [← same] at landed
    obtain ⟨ended, line⟩ := CommandLine.lineOf_fate landed
    refine ⟨c, ?_, d, found, ended, line.trans (congrArg _ same)⟩
    rw [List.get_eq_getElem, List.getElem_take, caller]
    rfl
  rw [answers, ← List.take_append_drop texts.length s.callers, List.filterMap_append,
    h.stopped finished]
  exact (List.append_nil _).symm ▸ prints_answers each

end Service

/-! ### The schedule of the program -/

namespace CommandLine

/-- The program submits the texts one after another, and its schedule is one of a sitting. -/
theorem submitAll_sits {rest done : List String} (same : done ++ rest = texts)
    (h : Sitting k n table texts actions (s.behind cs)) (alone : s.callers = [])
    (submitted : calls actions = done.map .submit) :
    ∃ ds t more, submitAll k s rest = .ok (ds, t) ∧
      Sitting k n table texts more (t.behind (cs ++ ds)) ∧ t.callers = [] ∧
      calls more = texts.map .submit := by
  induction rest generalizing done cs s actions with
  | nil =>
    rw [List.append_nil] at same
    refine ⟨[], s, actions, rfl, ?_, alone, same ▸ submitted⟩
    rwa [List.append_nil]
  | cons text rest ih =>
    have next : calls actions ++ [.submit text] <+: agenda texts := by
      rw [submitted, ← same, agenda]
      exact ⟨rest.map .submit ++ [.close], by simp⟩
    obtain ⟨more, sits, made, quiescent⟩ := h.called alone next
    rcases entered : s.enter k none (.submit text) with ⟨u, permits⟩
    rw [entered] at sits quiescent
    have never : Caller.close ∉ calls more := by
      rw [made, submitted]
      simp
    obtain ⟨d, back⟩ : ∃ d, u.callers = [.done (.submitted d)] := by
      have before := h.length_callers
      have after := sits.length_callers
      rw [made, List.length_append, ← before, List.length_singleton] at after
      simp only [behind, alone, List.length_append, List.length_map, List.length_nil] at after
      obtain ⟨c, shape⟩ := List.length_eq_one_iff.1 (show u.callers.length = 1 by omega)
      rcases sits.back_of_quiescent quiescent c (by simp [behind, shape]) with
        ⟨d, rfl⟩ | ⟨_, closed⟩
      · exact ⟨d, shape⟩
      · exact (never closed).elim
    have front : { u with callers := [] }.behind (cs ++ [d]) = u.behind cs := by
      simp [behind, back]
    rw [← front] at sits
    have split : done ++ [text] ++ rest = texts := by simpa using same
    obtain ⟨ds, t, more', submits, sits', alone', made'⟩ :=
      ih split sits rfl (by rw [made, submitted]; simp)
    refine ⟨d :: ds, t, more', ?_, by simpa using sits', alone', made'⟩
    rw [submitAll, call_of_enter entered back]
    simp only [submits]
    rfl

theorem store_call {c : Caller} :
    (s.call k none c).2.1.store = (s.enter k none c).1.store := by
  rw [Service.call]
  rcases s.enter k none c with ⟨u, permits⟩
  dsimp only
  cases left : u.leave? with
  | none => rfl
  | some r =>
    simp only [leave?, Option.bind_eq_bind, Option.bind_eq_some_iff, Option.pure_def,
      Option.some.injEq] at left
    obtain ⟨c, -, reply, -, rfl⟩ := left
    rfl

theorem evaluateAll_eq (forwards : k.Forwards) (calm : k.Calm) (manned : 0 < n)
    (space : texts.length + 1 < UInt64.size) :
    evaluateAll k n table texts = .ok (texts.map lineFor) := by
  have opening : Sitting k n table texts [] ((opened n table .empty).behind []) :=
    ⟨forwards, calm, manned, space, .opening⟩
  obtain ⟨cs, s, actions, submits, sits, alone, made⟩ :=
    submitAll_sits (List.nil_append texts) opening rfl rfl
  rw [List.nil_append] at sits
  obtain ⟨more, ends, all, quiescent⟩ :=
    sits.called alone (c := .close) ⟨[], by rw [made, agenda, List.append_nil]⟩
  have finished : Finished texts more ((s.enter k none .close).1.behind cs) := by
    refine ⟨by rw [all, made, agenda], fun c member => ?_⟩
    rcases ends.back_of_quiescent quiescent c member with ⟨d, rfl⟩ | ⟨rfl, -⟩ <;> exact ⟨_, rfl⟩
  have printed := ends.prints finished
  -- the call that closes the intake has no calculation for an answer
  have others : (s.enter k none .close).1.answers = [] := by
    have returned := printed.length_eq
    have submitted := sits.length_callers
    rw [answers_behind, List.length_append] at returned
    rw [made, List.length_map, behind, alone, List.append_nil, List.length_map] at submitted
    exact List.eq_nil_of_length_eq_zero (by omega)
  rw [answers_behind, others, List.append_nil] at printed
  rw [evaluateAll, Service.start, if_neg (Nat.ne_of_gt manned)]
  show (submitAll k (opened n table .empty) texts >>= fun r =>
    pure (linesOf (r.2.call k none .close).2.1.store r.1)) = _
  rw [submits]
  show Except.ok (linesOf (s.call k none .close).2.1.store cs) = _
  rw [store_call]
  exact congrArg _ (linesOf_eq printed)

theorem serviceStart_of_valid {settings : Settings} (valid : settings.validate = .ok ()) :
    ∃ n table, settings.serviceStart = .ok (n, table) ∧ 0 < n := by
  have manned : settings.pool.workers ≠ 0 := by
    intro none
    rw [Settings.validate, if_pos none] at valid
    cases valid
  cases costs : settings.costTable with
  | error e =>
    simp only [Settings.validate, if_neg manned, costs] at valid
    cases limit : settings.maxBodyBytes <;> rw [limit] at valid <;> cases valid
  | ok table =>
    refine ⟨_, table, by rw [Settings.serviceStart, valid, costs]; rfl, ?_⟩
    exact Nat.pos_of_ne_zero fun zero => manned (UInt64.toNat_inj.1 zero)

/-- For valid settings one line is printed for each text, in their order, and it depends on the text
alone. So it is in every schedule of the workers: none takes longer than the work that the texts
bring, until all calls have come back somebody can act, and then the record of each text has ended
and is printed as its line. -/
theorem evaluate_prints (forwards : k.Forwards) (calm : k.Calm) {settings : Settings}
    (valid : settings.validate = .ok ()) (space : texts.length + 1 < UInt64.size) (free : Bool) :
    evaluate k settings texts free =
      .done (String.join ((texts.map lineFor).map (· ++ "\n"))) ∧
    ∃ n configured, settings.serviceStart = .ok (n, configured) ∧
      let start := opened n (if free then .zero else configured) .empty
      ∀ actions s, OneByOne k start (agenda texts) actions s →
        actions.length ≤ n + totalWork (fun c => c.work + 1) (agenda texts) ∧
        (Finished texts actions s ∨
          ∃ a t, OneByOne k start (agenda texts) (actions ++ [a]) t) ∧
        (Finished texts actions s → List.Forall₂ (Prints s.store) s.answers texts ∧
          linesOf s.store s.answers = texts.map lineFor) := by
  obtain ⟨n, configured, started, manned⟩ := serviceStart_of_valid valid
  constructor
  · simp only [evaluate, started, bind, Except.bind, evaluateAll_eq forwards calm manned space]
  · refine ⟨n, configured, started, fun actions s run => ?_⟩
    have sits : Sitting k n _ texts actions s := ⟨forwards, calm, manned, space, run⟩
    refine ⟨(Nat.le_add_right _ _).trans sits.bounded, ?_, fun finished => ?_⟩
    · by_cases finished : Finished texts actions s
      · exact .inl finished
      · obtain ⟨a, t, next⟩ := sits.goes_on finished
        exact .inr ⟨a, t, next.oneByOne⟩
    · exact ⟨sits.prints finished, linesOf_eq (sits.prints finished)⟩

/-- A quotient, a division by zero and a text that does not parse. -/
theorem threeTexts_printed :
    let k : Collaborators := .plain fun _ => default
    let texts := ["6/3", "1/0", "2*(3-1"]
    let lines := ["6/3 = 2", "1/0: error: division by zero",
      "2*(3-1: error: parse error at position 2: unbalanced parentheses: missing ')'"]
    evaluate k default texts true = .done (String.join (lines.map (· ++ "\n"))) ∧
    ∃ n actions s, OneByOne k (opened n .zero .empty) (agenda texts) actions s ∧
      Finished texts actions s ∧ linesOf s.store s.answers = lines := by
  intro k texts lines
  have forwards : k.Forwards := fun _ _ => rfl
  have calm : k.Calm := fun _ => rfl
  have valid : (default : Settings).validate = .ok () := by decide +kernel
  have space : texts.length + 1 < UInt64.size := by decide
  have same : texts.map lineFor = lines := by decide +kernel
  obtain ⟨printed, n, configured, started, schedules⟩ :=
    evaluate_prints forwards calm valid space true
  obtain ⟨_, _, started', manned⟩ := serviceStart_of_valid valid
  cases started.symm.trans started'
  have opening : Sitting k n .zero texts [] _ := ⟨forwards, calm, manned, space, .opening⟩
  obtain ⟨actions, s, sits, finished⟩ := opening.finishes
  obtain ⟨-, -, ends⟩ := schedules _ _ sits.oneByOne
  rw [same] at printed
  exact ⟨printed, n, _, s, sits.oneByOne, finished, (ends finished).2.trans same⟩

end CommandLine

end Reckoner
