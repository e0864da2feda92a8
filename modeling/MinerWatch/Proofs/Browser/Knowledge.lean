import MinerWatch.Proofs.Browser.Signals
import MinerWatch.Proofs.Engine.Answer
/-!
What the signals know of the device, and of errors.

The engine and the board both keep the last report. The engine takes it from the answer, the board from
the outcome that is observed at the same move (`effect_of_observed`), and nothing else touches either of
them (`retains_of_silent`). So on a page where one dashboard was ever made they are the same
(`Informed`). What the board shows is what the outcomes leave that were observed, one after another
(`knowledge_after`): the last report, and the error of the last one that took effect.
-/

namespace MinerWatch

/-- What the outcome says that went wrong. -/
def Outcome.error? : Outcome → Option String
  | updated _ _ => none
  | rejected _ fault => some fault.inDomain
  | superseded _ => none
  | failed fault => some fault.message

/-- The error of the last outcome that took effect. -/
def lastError (outcomes : List Outcome) : Option String :=
  (outcomes.filter (·.takesEffect)).getLast?.bind Outcome.error?

/-- The report of the last outcome that has one. -/
def lastInfo (outcomes : List Outcome) : Option DeviceInfo :=
  (outcomes.filterMap Outcome.info?).getLast?

namespace StatusBoard

/-- The hashrate and the pool are those that the shown report promises and names. -/
def Derived (b : StatusBoard) : Prop :=
  ∀ info, b.info = some info → b.expected = info.nominalHashrate ∧ b.poolLink = info.poolLink?

/-- What the board shows of the device and of errors. -/
def knowledge (b : StatusBoard) : Option DeviceInfo × UInt64 × Option String × Option String :=
  (b.info, b.expected, b.poolLink, b.error)

variable {b c : StatusBoard}

theorem knowledge_eq_iff : c.knowledge = b.knowledge ↔
    c.info = b.info ∧ c.expected = b.expected ∧ c.poolLink = b.poolLink ∧ c.error = b.error := by
  simp only [knowledge, Prod.mk.injEq]

@[simp] theorem info_showOutcome (b : StatusBoard) (outcome : Outcome) :
    (b.showOutcome outcome).info = outcome.info?.or b.info := by
  cases outcome <;> rfl

@[simp] theorem error_showOutcome (b : StatusBoard) (outcome : Outcome) :
    (b.showOutcome outcome).error = if outcome.takesEffect then outcome.error? else b.error := by
  cases outcome <;> rfl

theorem knowledge_update (b : StatusBoard) (outcome : Outcome) (n : Nat) (latest : Option Sample) :
    (b.update outcome n latest).knowledge = (b.showOutcome outcome).knowledge := by
  cases latest <;> rfl

theorem knowledge_showOutcome (same : c.knowledge = b.knowledge) (outcome : Outcome) :
    (c.showOutcome outcome).knowledge = (b.showOutcome outcome).knowledge := by
  obtain ⟨info, expected, link, error⟩ := knowledge_eq_iff.mp same
  cases outcome with
  | updated report merged => rfl
  | rejected report fault => rfl
  | superseded id => exact same
  | failed fault => exact knowledge_eq_iff.mpr ⟨info, expected, link, rfl⟩

/-- The board after outcomes, one after another. -/
def showAll (b : StatusBoard) (outcomes : List Outcome) : StatusBoard :=
  outcomes.foldl showOutcome b

theorem knowledge_showAll (same : c.knowledge = b.knowledge) (outcomes : List Outcome) :
    (c.showAll outcomes).knowledge = (b.showAll outcomes).knowledge := by
  induction outcomes generalizing b c with
  | nil => exact same
  | cons outcome outcomes ih => exact ih (knowledge_showOutcome same outcome)

/-- A new board shows the error of the last outcome that took effect. -/
theorem error_showAll (outcomes : List Outcome) :
    (({} : StatusBoard).showAll outcomes).error = lastError outcomes := by
  induction outcomes using List.reverseRecOn with
  | nil => rfl
  | append_singleton outcomes outcome ih =>
      rw [showAll, List.foldl_concat, error_showOutcome, lastError, List.filter_append]
      cases takes : outcome.takesEffect with
      | false =>
          rw [List.filter_cons_of_neg (by simp [takes]), List.filter_nil, List.append_nil]
          exact ih
      | true =>
          rw [List.filter_cons_of_pos takes, List.filter_nil, List.getLast?_concat]
          rfl

/-- A new board shows the report of the last outcome that has one. -/
theorem info_showAll (outcomes : List Outcome) :
    (({} : StatusBoard).showAll outcomes).info = lastInfo outcomes := by
  induction outcomes using List.reverseRecOn with
  | nil => rfl
  | append_singleton outcomes outcome ih =>
      rw [showAll, List.foldl_concat, info_showOutcome, lastInfo, List.filterMap_append]
      cases shown : outcome.info? with
      | none =>
          rw [List.filterMap_cons_none shown, List.filterMap_nil, List.append_nil, Option.none_or]
          exact ih
      | some info =>
          rw [List.filterMap_cons_some shown, List.filterMap_nil, List.getLast?_concat, Option.some_or]

/-- A report is shown together with what it promises and names. -/
theorem Derived.showOutcome (h : b.Derived) (outcome : Outcome) : (b.showOutcome outcome).Derived := by
  cases outcome with
  | updated info report =>
      rintro _ ⟨⟩
      exact ⟨rfl, rfl⟩
  | rejected info fault =>
      rintro _ ⟨⟩
      exact ⟨rfl, rfl⟩
  | superseded id => exact h
  | failed fault => exact h

theorem Derived.of_knowledge (h : b.Derived) (same : c.knowledge = b.knowledge) : c.Derived := by
  obtain ⟨info, expected, link, -⟩ := knowledge_eq_iff.mp same
  intro report found
  rw [expected, link]
  exact h report (info ▸ found)

end StatusBoard

/-- The engine's report is the one that a move shows, or the one from before. -/
theorem PollLoop.info_of_step {l : PollLoop} {e : Engine} {now : Millis} {ready : ReadyAnswers}
    {moved : Logged (PollLoop × Engine × Move)} {outcome : Outcome}
    (h : l.step e now ready = some moved) (shows : moved.value.2.2.outcome? = some outcome) :
    moved.value.2.1.info = outcome.info?.or e.info := by
  rcases step_cases h with ⟨r, -, -, eq⟩ | ⟨r, -, -, answer, -, eq⟩ | ⟨-, -, eq⟩
  · rw [eq] at shows
    exact absurd shows (by simp [Move.outcome?])
  · rw [eq] at shows ⊢
    obtain rfl := Option.some.inj shows
    rcases e.info_complete r.ticket answer.value now with ⟨-, shown, known⟩ | ⟨-, _, -, shown, known⟩
    · rw [known, shown, Option.none_or]
    · rw [known, shown, Option.some_or]
  · rw [eq] at shows
    exact absurd shows (by simp [takeTick, Move.outcome?])

namespace Browser.Page

/-- The outcome that is observed at an event. -/
def outcomeAt? (p : Page) : Event → Option Outcome
  | .stir task => p.observed? task
  | _ => none

/-- The outcomes that are observed in a session, in order. -/
def outcomes : Page → List Event → List Outcome
  | _, [] => []
  | p, ev :: es => (p.outcomeAt? ev).toList ++ (p.perform ev).outcomes es

variable {p q : Page}

/-! ### Events without an outcome -/

theorem aloof_knowledge : Aloof Engine.info StatusBoard.knowledge where
  issue _ _ := rfl
  store _ _ := rfl
  polling _ _ := rfl
  run _ _ := rfl

theorem exists_of_engine? {k : Nat} {e : Engine} (h : p.engine? k = some e) :
    ∃ e', p.engines[k]? = some e' ∧ e.info = e'.info := by
  obtain ⟨e', found, rfl⟩ := Option.map_eq_some_iff.mp h
  exact ⟨e', found, rfl⟩

/-- Clearing forgets no report. -/
theorem retains_knowledge_clear (p : Page) (d : Dashboard) :
    p.Retains Engine.info StatusBoard.knowledge (p.clear d) := by
  unfold clear
  split
  · exact .refl p
  · rename_i e here
    obtain ⟨e', found, same⟩ := exists_of_engine? here
    have kept : e.clear.value.info = e'.info := same
    exact retains_of_set found kept rfl rfl

/-- A backfill brings no report. -/
theorem retains_knowledge_takeBackfill {task : Nat} {w : Pledge} {e : Engine} (here : p.engine? w.engine = some e)
    (start : Millis) (a : Answer) :
    p.Retains Engine.info StatusBoard.knowledge
      ((p.forget (·.task = task)).takeBackfill task w e start a) := by
  obtain ⟨e', found, same⟩ := exists_of_engine? here
  unfold takeBackfill
  dsimp only
  split
  · exact retains_of_same rfl rfl
  · rename_i batch _
    have kept := (e.info_absorb batch p.clock).trans same
    split
    · exact retains_of_set found kept rfl rfl
    · exact retains_of_set found kept rfl rfl

theorem retains_knowledge_turnPledge {task : Nat} {w : Pledge} :
    p.Retains Engine.info StatusBoard.knowledge (p.turnPledge task w) := by
  unfold turnPledge
  split
  · exact .refl p
  · exact retains_of_same rfl rfl
  · split
    · exact .refl p
    · dsimp only
      split
      · exact retains_knowledge_takeBackfill ‹_› _ _
      · unfold takeExtent
        dsimp only
        split <;> exact retains_of_same rfl rfl

/-- Only an outcome changes what is known of the device. -/
theorem retains_of_silent {ev : Event} (silent : p.outcomeAt? ev = none) :
    p.Retains Engine.info StatusBoard.knowledge (p.perform ev) := by
  by_cases kept : p.alters ev = false
  · exact retains_perform aloof_knowledge kept
  · cases ev with
    | clear name => exact onDashboard_induction (.refl p) fun d _ => retains_knowledge_clear p d
    | stir task =>
        have unobserved : p.observed? task = none := silent
        simp only [perform, stir]
        split
        · exact retains_stirRun aloof_knowledge ‹_› unobserved
        · exact retains_knowledge_turnPledge
        · exact .refl p
        · exact .refl p
    | _ => exact absurd rfl kept

/-! ### Outcomes -/

/-- At an outcome one engine and the board take the same report. -/
theorem effect_of_observed {task : Nat} {outcome : Outcome} (h : p.observed? task = some outcome) :
    ∃ (k : Nat) (e e' : Engine), p.engines[k]? = some e ∧
      (p.stir task).engines = p.engines.set k e' ∧ e'.info = outcome.info?.or e.info ∧
      (p.stir task).board.knowledge = (p.board.showOutcome outcome).knowledge := by
  obtain ⟨run, moved, here, -, moves, shows, eq⟩ := stir_of_observed h
  obtain ⟨loop, e, -, found, step⟩ := move?_eq_some moves
  have info := PollLoop.info_of_step step shows
  have board := board_follow p task run moved
  rw [shows] at board
  rw [eq, board]
  exact ⟨run.engine, e, moved.value.2.1, found, engines_follow p task run moved, info,
    StatusBoard.knowledge_update ..⟩

/-- As long as one dashboard was made at most, the board shows the report that its engine knows. -/
structure Informed (p : Page) : Prop where
  known : p.engines.length ≤ 1 → p.board.info = (p.engines.map (·.info)).head?.join
  derived : p.board.Derived

theorem Informed.of_retains (h : p.Informed) (kept : p.Retains Engine.info StatusBoard.knowledge q) :
    q.Informed := by
  refine ⟨fun few => ?_, h.derived.of_knowledge kept.board⟩
  obtain ⟨fresh, same, restored⟩ := kept.engines
  obtain ⟨board, -⟩ := StatusBoard.knowledge_eq_iff.mp kept.board
  have count := congrArg List.length same
  simp only [List.length_map, List.length_append] at count
  rw [board, h.known (by omega), same]
  cases engines : p.engines with
  | cons e es => rfl
  | nil =>
      -- An engine that comes first was restored, and knows no report.
      cases fresh with
      | nil => rfl
      | cons e fresh =>
          obtain ⟨store, settings, made⟩ := restored e List.mem_cons_self
          obtain ⟨-, rfl⟩ := Engine.restore_eq_ok made
          rfl

theorem Informed.of_observed (h : p.Informed) {task : Nat} {outcome : Outcome}
    (observed : p.observed? task = some outcome) : (p.stir task).Informed := by
  obtain ⟨k, e, e', found, engines, info, board⟩ := effect_of_observed observed
  refine ⟨fun few => ?_, (h.derived.showOutcome outcome).of_knowledge board⟩
  obtain ⟨shown, -⟩ := StatusBoard.knowledge_eq_iff.mp board
  rw [engines, List.length_set] at few
  obtain ⟨inside, rfl⟩ := List.getElem?_eq_some_iff.mp found
  obtain rfl : k = 0 := by omega
  have known := h.known few
  rw [shown, engines, StatusBoard.info_showOutcome, known]
  cases all : p.engines with
  | nil => simp [all] at inside
  | cons first rest =>
      simp only [all, List.getElem_cons_zero] at info
      simp [info]

theorem Informed.perform (h : p.Informed) (ev : Event) : (p.perform ev).Informed := by
  cases at_ : p.outcomeAt? ev with
  | none => exact h.of_retains (retains_of_silent at_)
  | some outcome =>
      cases ev with
      | stir task => exact h.of_observed at_
      | _ => exact absurd at_ (by simp [outcomeAt?])

theorem informed_after (clock : Millis) (storage : Store) (access : Access) (es : List Event) :
    ((opened clock storage access).after es).Informed :=
  after_induction ⟨fun _ => rfl, nofun⟩ (fun _ ev informed => informed.perform ev) es

/-! ### The board after a session -/

theorem knowledge_perform (p : Page) (ev : Event) :
    (p.perform ev).board.knowledge = (p.board.showAll (p.outcomeAt? ev).toList).knowledge := by
  cases at_ : p.outcomeAt? ev with
  | none => exact (retains_of_silent at_).board
  | some outcome =>
      cases ev with
      | stir task =>
          obtain ⟨-, -, -, -, -, -, board⟩ := effect_of_observed at_
          exact board
      | _ => exact absurd at_ (by simp [outcomeAt?])

/-- The board shows what the observed outcomes leave, one after another. -/
theorem knowledge_after (p : Page) (es : List Event) :
    (p.after es).board.knowledge = (p.board.showAll (p.outcomes es)).knowledge := by
  induction es generalizing p with
  | nil => rfl
  | cons ev es ih =>
      have later := StatusBoard.knowledge_showAll (p.knowledge_perform ev) ((p.perform ev).outcomes es)
      rw [after_cons, ih, later, outcomes, StatusBoard.showAll, StatusBoard.showAll,
        StatusBoard.showAll, List.foldl_append]

/-! ### What the signals show -/

/-- **The signals know of the device what its dashboard knows.** On a page that was opened, as long as no
second dashboard is made, whatever happens: the signal of the report is the report that the dashboard
knows; when there is one, the signals of the promised hashrate and of the pool are those of the
dashboard. And with any number of dashboards, the signals of the report and of the error are the report
of the last outcome that brought one, and the error of the last one that took effect, which an update
has none of. -/
theorem signals_know_the_device (clock : Millis) (storage : Store) (access : Access)
    (es : List Event) :
    let p := (opened clock storage access).after es
    (p.engines.length ≤ 1 → ∀ name d, p.dashboard? name = some d →
      ∃ v, p.view? d = some v ∧ p.board.info = v.info ∧
        (v.info.isSome = true →
          v.expected = some p.board.expected.toFloat ∧ v.poolLink = p.board.poolLink)) ∧
    p.board.info = lastInfo ((opened clock storage access).outcomes es) ∧
    p.board.error = lastError ((opened clock storage access).outcomes es) := by
  intro p
  have informed : p.Informed := informed_after clock storage access es
  have sound : p.Sound := sound_after (sound_opened clock storage access) es
  obtain ⟨info, -, -, error⟩ := StatusBoard.knowledge_eq_iff.mp
    (knowledge_after (opened clock storage access) es)
  refine ⟨fun few name d mine => ?_, info.trans (StatusBoard.info_showAll _),
    error.trans (StatusBoard.error_showAll _)⟩
  · have inside := sound.known name d mine
    have first : d.engine = 0 := by omega
    have found : p.engines[d.engine]? = some p.engines[d.engine] := List.getElem?_eq_getElem inside
    obtain ⟨v, seen, -, info, expected, link⟩ := exists_view found
    have known : p.board.info = v.info := by
      rw [informed.known few, info, List.head?_map, List.head?_eq_getElem?, ← first, found]
      rfl
    refine ⟨v, seen, known, fun present => ?_⟩
    obtain ⟨report, shown⟩ := Option.isSome_iff_exists.mp present
    obtain ⟨promised, named⟩ := informed.derived report (known.trans shown)
    rw [expected, link, ← info, shown, promised, named]
    exact ⟨rfl, rfl⟩

/-- A report whose history has no values beside its instant. -/
def uneven : Answer :=
  reply ("\x7b\"frequency\":485,\"smallCoreCount\":672,\"asicCount\":1,"
    ++ "\"history\":\x7b\"timestamps\":[0]\x7d\x7d")

/-- The first request of a dashboard is answered with it. -/
def unevenSession : List Event :=
  [.create "main" none, .start "main", .stir 0, .stir 0, .respond 0 uneven, .stir 0]

def unevenPage : Page :=
  (opened 5000000 { entries := [] } .granted).after unevenSession

/-- The history is rejected, which is an error, and the report is known all the same. -/
theorem uneven_is_known :
    (∃ d v, unevenPage.dashboard? "main" = some d ∧ unevenPage.view? d = some v ∧
      v.info.isSome = true ∧ unevenPage.board.info = v.info ∧
      v.expected = some unevenPage.board.expected.toFloat) ∧
    unevenPage.board.expected = 325 ∧
    lastError ((opened 5000000 { entries := [] } .granted).outcomes unevenSession) =
      unevenPage.board.error ∧
    unevenPage.board.error.isSome = true := by
  have knows := signals_know_the_device 5000000 { entries := [] } .granted unevenSession
  rw [← unevenPage] at knows
  obtain ⟨device, -, error⟩ := knows
  have shown : unevenPage.board.info.isSome = true := by decide +kernel
  obtain ⟨d, mine⟩ : ∃ d, unevenPage.dashboard? "main" = some d :=
    Option.isSome_iff_exists.mp (by decide +kernel)
  obtain ⟨v, seen, known, rest⟩ := device (by decide +kernel) "main" d mine
  have present : v.info.isSome = true := known ▸ shown
  exact ⟨⟨d, v, mine, seen, present, known, (rest present).1⟩, by decide +kernel, error.symm,
    by decide +kernel⟩

end Browser.Page
end MinerWatch
