import MinerWatch.Proofs.Browser.Exclusion
import MinerWatch.Proofs.PollLoop.Ledger
/-!
How far the signals follow the series.

The two signals about the series are set when an outcome is observed: then they show the series of the
engine that took the answer, of which a dashboard is polling (`signals_follow_outcomes`). But without
a sample the hashrate stays at what it was, clearing only sets the number of points, and what a backfill
merges is not shown before the next outcome (`signals_lag`).

Nothing else changes an engine, its tickets and its store aside, or what the board shows but the
polling (`retains_perform`); so nothing else changes a series or these signals (`Steady`).
-/

namespace MinerWatch

namespace StatusBoard

@[simp] theorem points_update (b : StatusBoard) (outcome : Outcome) (n : Nat) (latest : Option Sample) :
    (b.update outcome n latest).points = n := by
  cases latest <;> rfl

@[simp] theorem hashrate10m_update (b : StatusBoard) (outcome : Outcome) (n : Nat)
    (latest : Option Sample) :
    (b.update outcome n latest).hashrate10m = (latest.map (·.tenMin)).getD b.hashrate10m := by
  cases latest <;> cases outcome <;> rfl

end StatusBoard

namespace Series

theorem length_labels_chart (s : Series) : s.chart.labels.length = s.size := by
  simp [chart, Chart.ofSamples, size]

end Series

namespace PollLoop

/-- The outcome that a move shows. -/
def Move.outcome? : Move → Option Outcome
  | .settled _ outcome => some outcome
  | _ => none

/-- A move that shows no outcome leaves an engine alone, unless it issues a ticket. -/
theorem seen_of_step {α : Type} {seen : Engine → α}
    (issue : ∀ e now, seen (e.issue now).value.1 = seen e) {l : PollLoop} {e : Engine} {now : Millis}
    {ready : ReadyAnswers} {moved : Logged (PollLoop × Engine × Move)}
    (h : l.step e now ready = some moved) (silent : moved.value.2.2.outcome? = none) :
    seen moved.value.2.1 = seen e := by
  rcases step_cases h with ⟨r, -, -, eq⟩ | ⟨r, -, -, answer, -, eq⟩ | ⟨-, -, eq⟩
  · rw [eq]
  · rw [eq] at silent
    exact absurd silent (by simp [Move.outcome?])
  · rw [eq]
    exact issue e now

end PollLoop

namespace Browser

namespace Page

/-- The outcome that is observed when a task has a piece of a turn. -/
def observed? (p : Page) (task : Nat) : Option Outcome :=
  match p.tasks[task]? with
  | some (.run r) => if r.aborted then none else (p.move? task r).bind (·.value.2.2.outcome?)
  | _ => none

/-- The task is a backfill that has sent its request. -/
def backfills (p : Page) (task : Nat) : Bool :=
  match p.tasks[task]? with
  | some (.pledge w) => w.purpose = .backfill && w.start.isSome
  | _ => false

/-- By the event a series may change: a dashboard is cleared, an outcome is observed, or a backfill
takes its answer. -/
def alters (p : Page) : Event → Bool
  | .clear _ => true
  | .stir task => (p.observed? task).isSome || p.backfills task
  | _ => false

/-- No event of a session is one by which a series may change. -/
def Unaltered : Page → List Event → Prop
  | _, [] => True
  | p, ev :: es => p.alters ev = false ∧ (p.perform ev).Unaltered es

/-- The series have stayed, and the signals that are about them. -/
structure Steady (p q : Page) : Prop where
  series : ∀ (k : Nat) e, p.engines[k]? = some e → ∃ e', q.engines[k]? = some e' ∧ e'.series = e.series
  points : q.board.points = p.board.points
  hashrate : q.board.hashrate10m = p.board.hashrate10m

variable {p q r : Page}

/-! ### Outcomes -/

theorem move?_eq_some {task : Nat} {run : Run} {moved : Logged (PollLoop × Engine × PollLoop.Move)}
    (h : p.move? task run = some moved) :
    ∃ loop e, run.loop = some loop ∧ p.engines[run.engine]? = some e ∧
      loop.step { e with store := p.storage } p.clock (p.readyFor task) = some moved := by
  unfold move? at h
  split at h
  · rename_i loop e begun found
    obtain ⟨e', here, rfl⟩ := Option.map_eq_some_iff.mp found
    exact ⟨loop, e', begun, here, h⟩
  · exact absurd h (by simp)

theorem engines_follow (p : Page) (task : Nat) (run : Run)
    (moved : Logged (PollLoop × Engine × PollLoop.Move)) :
    (p.follow task run moved).engines = p.engines.set run.engine moved.value.2.1 := by
  obtain ⟨⟨loop, e, move⟩, notices⟩ := moved
  cases move <;> rfl

theorem board_follow (p : Page) (task : Nat) (run : Run)
    (moved : Logged (PollLoop × Engine × PollLoop.Move)) :
    (p.follow task run moved).board = match moved.value.2.2.outcome? with
      | some outcome =>
          p.board.update outcome moved.value.2.1.series.size moved.value.2.1.series.latest?
      | none => p.board := by
  obtain ⟨⟨loop, e, move⟩, notices⟩ := moved
  cases move <;> rfl

/-- An outcome is observed by a run that is on, at a move of its loop. -/
theorem stir_of_observed {task : Nat} {outcome : Outcome} (h : p.observed? task = some outcome) :
    ∃ run moved, p.tasks[task]? = some (.run run) ∧ run.aborted = false ∧
      p.move? task run = some moved ∧ moved.value.2.2.outcome? = some outcome ∧
      p.stir task = p.follow task run moved := by
  unfold observed? at h
  split at h
  · rename_i run here
    split at h
    · exact absurd h (by simp)
    · rename_i on
      obtain ⟨moved, moves, shows⟩ := Option.bind_eq_some_iff.mp h
      obtain ⟨loop, e, begun, -, -⟩ := move?_eq_some moves
      have unaborted : run.aborted = false := by simpa using on
      refine ⟨run, moved, here, unaborted, moves, shows, ?_⟩
      rw [stir_of_move here unaborted begun, moves]
  · exact absurd h (by simp)

/-! ### What leaves engines and board alone -/

/-- What is seen of the engines has stayed, and what the board shows. Engines may have come that were
restored. -/
structure Retains {α β : Type} (seen : Engine → α) (shown : StatusBoard → β) (p q : Page) : Prop where
  engines : ∃ fresh : List Engine, q.engines.map seen = (p.engines ++ fresh).map seen ∧
    ∀ e ∈ fresh, ∃ store settings, (Engine.restore store settings).value = .ok e
  board : shown q.board = shown p.board

/-- Of an engine neither its tickets nor its store are seen, and the polling is not shown. -/
structure Aloof {α β : Type} (seen : Engine → α) (shown : StatusBoard → β) : Prop where
  issue : ∀ e now, seen (e.issue now).value.1 = seen e
  store : ∀ e store, seen { e with store } = seen e
  polling : ∀ b polling, shown { b with polling } = shown b
  run : ∀ b run, shown { b with run } = shown b

section Retention

variable {α β : Type} {seen : Engine → α} {shown : StatusBoard → β}

theorem retains_of_same (engines : q.engines = p.engines) (board : shown q.board = shown p.board) :
    p.Retains seen shown q :=
  ⟨⟨[], by rw [engines, List.append_nil], by simp⟩, board⟩

theorem Retains.refl (p : Page) : p.Retains seen shown p :=
  retains_of_same rfl rfl

theorem Retains.trans (first : p.Retains seen shown q) (next : q.Retains seen shown r) :
    p.Retains seen shown r := by
  obtain ⟨fresh, same, restored⟩ := first.engines
  obtain ⟨fresh', same', restored'⟩ := next.engines
  refine ⟨⟨fresh ++ fresh', ?_, List.forall_mem_append.mpr ⟨restored, restored'⟩⟩,
    next.board.trans first.board⟩
  rw [same', List.map_append, same, ← List.map_append, List.append_assoc]

/-- An engine was put back of which the same is seen. -/
theorem retains_of_set {k : Nat} {e e' : Engine} (found : p.engines[k]? = some e)
    (same : seen e' = seen e) (engines : q.engines = p.engines.set k e')
    (board : shown q.board = shown p.board) : p.Retains seen shown q := by
  refine ⟨⟨[], ?_, by simp⟩, board⟩
  obtain ⟨inside, rfl⟩ := List.getElem?_eq_some_iff.mp found
  have placed : k < (p.engines.map seen).length := by simpa using inside
  have old : seen p.engines[k] = (p.engines.map seen)[k] := by rw [List.getElem_map]
  rw [engines, List.append_nil, List.map_set, same, old]
  exact List.set_getElem_self placed

variable (aloof : Aloof seen shown)

include aloof

theorem retains_of_quiet (h : p.Quiet q) : p.Retains seen shown q :=
  retains_of_same h.engines ((aloof.polling ..).symm.trans (congrArg shown h.board))

theorem retains_stirRun {task : Nat} {run : Run} (here : p.tasks[task]? = some (.run run))
    (silent : p.observed? task = none) : p.Retains seen shown (p.stirRun task run) := by
  unfold stirRun
  split
  · exact retains_of_quiet aloof (quiet_finishRun p task run)
  · rename_i on
    split
    · exact retains_of_same rfl rfl
    · split
      · rename_i moved moves
        obtain ⟨loop, e, -, found, step⟩ := move?_eq_some moves
        have unshown : moved.value.2.2.outcome? = none := by
          simpa [observed?, here, on, moves] using silent
        have board := board_follow p task run moved
        rw [unshown] at board
        have same := (PollLoop.seen_of_step aloof.issue step unshown).trans (aloof.store e p.storage)
        exact retains_of_set found same (engines_follow p task run moved) (congrArg shown board)
      · exact .refl p

omit aloof in
theorem retains_turnPledge {task : Nat} {w : Pledge} (here : p.tasks[task]? = some (.pledge w))
    (other : p.backfills task = false) : p.Retains seen shown (p.turnPledge task w) := by
  unfold turnPledge
  split
  · exact .refl p
  · exact retains_of_same rfl rfl
  · rename_i start _ sent
    split
    · exact .refl p
    · dsimp only
      split
      · rename_i purpose
        exact absurd other (by simp [backfills, here, purpose, sent])
      · unfold takeExtent
        dsimp only
        split <;> exact retains_of_same rfl rfl

theorem retains_start (p : Page) (name : String) (d : Dashboard) :
    p.Retains seen shown (p.start name d) := by
  unfold start
  split
  · exact .refl p
  · refine retains_of_same rfl ?_
    exact (aloof.polling { p.board with run := p.board.run + 1 } true).trans (aloof.run p.board _)

theorem retains_discard (p : Page) (name : String) : p.Retains seen shown (p.discard name) := by
  unfold discard
  split
  · exact .refl p
  · rename_i d _
    exact (retains_of_quiet aloof (quiet_halt p d)).trans (retains_of_same rfl rfl)

theorem retains_create (p : Page) (name : String) (config : Option String) :
    p.Retains seen shown (p.create name config).1 := by
  rcases p.create_cases name config with ⟨log, fault, eq⟩ | ⟨log, settings, e, restored, eq⟩
  · rw [eq]
    exact retains_of_same rfl rfl
  · have larger : p.Retains seen shown { p with log, engines := p.engines ++ [e] } :=
      ⟨⟨[e], rfl, by simpa using ⟨p.storage, settings, restored⟩⟩, rfl⟩
    rw [eq]
    exact (larger.trans (retains_discard aloof _ name)).trans (retains_of_same rfl rfl)

/-- Only outcomes, clearing and backfills change engines beyond tickets and store, or the board beyond
the polling. -/
theorem retains_perform {ev : Event} (kept : p.alters ev = false) :
    p.Retains seen shown (p.perform ev) := by
  cases ev with
  | create name config => exact retains_create aloof p name config
  | start name => exact onDashboard_induction (.refl p) fun d _ => retains_start aloof p name d
  | stop name =>
      refine onDashboard_induction (.refl p) fun d _ => ?_
      exact (retains_of_quiet aloof (quiet_halt p d)).trans (retains_of_same rfl rfl)
  | drop name => exact retains_discard aloof p name
  | clear name => exact absurd kept (by simp [alters])
  | pledge name purpose =>
      exact onDashboard_induction (.refl p) fun _ _ => retains_of_same rfl rfl
  | respond index a => exact retains_of_quiet aloof (quiet_respond p index a)
  | tick place =>
      simp only [perform]
      split
      · exact retains_of_quiet aloof (quiet_fire p _)
      · exact .refl p
  | stir task =>
      obtain ⟨silent, other⟩ : p.observed? task = none ∧ p.backfills task = false := by
        simpa [alters] using kept
      simp only [perform, stir]
      split
      · exact retains_stirRun aloof ‹_› silent
      · exact retains_turnPledge ‹_› other
      · exact .refl p
      · exact .refl p
  | dequeue => exact retains_of_same rfl rfl
  | pass moment => exact retains_of_same rfl rfl
  | rehost storage access => exact retains_of_same rfl rfl
  | override key value => exact retains_of_same rfl rfl

end Retention

/-! ### The series and the signals about them -/

theorem aloof_series : Aloof Engine.series fun b => (b.points, b.hashrate10m) where
  issue _ _ := rfl
  store _ _ := rfl
  polling _ _ := rfl
  run _ _ := rfl

theorem Steady.refl (p : Page) : p.Steady p :=
  ⟨fun _ e found => ⟨e, found, rfl⟩, rfl, rfl⟩

theorem Steady.trans (first : p.Steady q) (next : q.Steady r) : p.Steady r := by
  refine ⟨fun k e found => ?_, next.points.trans first.points, next.hashrate.trans first.hashrate⟩
  obtain ⟨e', found', same⟩ := first.series k e found
  obtain ⟨e'', found'', same'⟩ := next.series k e' found'
  exact ⟨e'', found'', same'.trans same⟩

theorem steady_of_retains (h : p.Retains Engine.series (fun b => (b.points, b.hashrate10m)) q) :
    p.Steady q := by
  obtain ⟨points, hashrate⟩ := Prod.mk.inj h.board
  refine ⟨fun k e found => ?_, points, hashrate⟩
  obtain ⟨fresh, same, -⟩ := h.engines
  have mapped : (q.engines.map Engine.series)[k]? = some e.series := by
    obtain ⟨inside, -⟩ := List.getElem?_eq_some_iff.mp found
    rw [same, List.getElem?_map, List.getElem?_append_left inside, found, Option.map_some]
  rw [List.getElem?_map] at mapped
  exact Option.map_eq_some_iff.mp mapped

/-- Only outcomes, clearing and backfills change a series or the signals about it. -/
theorem steady_perform {ev : Event} (kept : p.alters ev = false) : p.Steady (p.perform ev) :=
  steady_of_retains (retains_perform aloof_series kept)

theorem steady_after {es : List Event} (kept : p.Unaltered es) : p.Steady (p.after es) := by
  induction es generalizing p with
  | nil => exact .refl p
  | cons ev es ih => exact (steady_perform kept.1).trans (ih kept.2)

/-! ### What the signals show -/

/-- A view shows the series of the dashboard's engine, its report, and what that promises and names. -/
theorem exists_view {d : Dashboard} {e : Engine} (found : p.engines[d.engine]? = some e) :
    ∃ v, p.view? d = some v ∧ (v.chart = e.series.chart ∧ v.latest = e.series.latest?) ∧
      v.info = e.info ∧ v.expected = e.info.map (·.nominalHashrate.toFloat) ∧
      v.poolLink = e.info.bind (·.poolLink?) := by
  simp only [view?, engine?, found, Option.map_some]
  exact ⟨_, rfl, ⟨rfl, rfl⟩, rfl, rfl, rfl⟩

/-- After an outcome the signals show the series of the dashboard whose run observed it. -/
theorem signals_of_observed (sound : p.Sound) {task : Nat} {outcome : Outcome}
    (h : p.observed? task = some outcome) :
    ∃ name d v, (p.stir task).dashboard? name = some d ∧ d.running = some task ∧
      (p.stir task).view? d = some v ∧ (p.stir task).board.points = v.chart.labels.length ∧
      (p.stir task).board.hashrate10m = (v.latest.map (·.tenMin)).getD p.board.hashrate10m := by
  obtain ⟨run, moved, here, on, moves, shows, eq⟩ := stir_of_observed h
  obtain ⟨-, e, -, found, -⟩ := move?_eq_some moves
  obtain ⟨inside, -⟩ := List.getElem?_eq_some_iff.mp found
  have polls : p.polls? task = some run.engine := by simp [polls?, here, Task.polls?, on]
  obtain ⟨name, d, mine, engine, running⟩ := (sound.polling task run.engine).mp polls
  have kept : (p.follow task run moved).dashboard? name = some d := by
    rw [dashboard?, (keeps_follow here moved).dashboards]
    exact mine
  have put : (p.follow task run moved).engines[d.engine]? = some moved.value.2.1 := by
    rw [engines_follow, engine, List.getElem?_set_self inside]
  obtain ⟨v, seen, ⟨chart, latest⟩, -⟩ := exists_view put
  have board := board_follow p task run moved
  rw [shows] at board
  rw [eq]
  refine ⟨name, d, v, kept, running, seen, ?_, ?_⟩
  · rw [board, StatusBoard.points_update, chart, Series.length_labels_chart]
  · rw [board, StatusBoard.hashrate10m_update, latest]

/-- After clearing there are no points, and none are shown. -/
theorem signals_of_clear (sound : p.Sound) {name : String} {d : Dashboard}
    (found : p.dashboard? name = some d) :
    ∃ v, (p.perform (.clear name)).view? d = some v ∧ v.chart.labels = [] ∧ v.latest = none ∧
      (p.perform (.clear name)).board.points = 0 := by
  have inside := sound.known name d found
  obtain ⟨e, here⟩ : ∃ e, p.engine? d.engine = some e := by
    simp [engine?, List.getElem?_eq_getElem inside]
  have cleared : p.perform (.clear name) = p.clear d := by simp only [perform, onDashboard, found]
  have put : (p.clear d).engines[d.engine]? = some e.clear.value := by
    simp only [clear, here, putEngine]
    exact List.getElem?_set_self inside
  have points : (p.clear d).board.points = 0 := by simp only [clear, here]
  obtain ⟨v, seen, ⟨chart, latest⟩, -⟩ := exists_view put
  rw [cleared]
  exact ⟨v, seen, by rw [chart]; rfl, by rw [latest]; rfl, points⟩

/-- **The signals follow the outcomes.** Whatever has happened on a page: when a run observes an
outcome, the dashboard that is polling by that run has as many points as are shown, and the shown
hashrate is that of its newest point, or without a point the one shown before. When a dashboard is
cleared, it has no points and none are shown. And as long as none of this happens, and no backfill takes
its answer, all series and the two signals stay as they are. -/
theorem signals_follow_outcomes (clock : Millis) (storage : Store) (access : Access)
    (es : List Event) :
    let p := (opened clock storage access).after es
    (∀ task outcome, p.observed? task = some outcome →
      let q := p.perform (.stir task)
      ∃ name d v, q.dashboard? name = some d ∧ d.running = some task ∧ q.view? d = some v ∧
        q.board.points = v.chart.labels.length ∧
        q.board.hashrate10m = (v.latest.map (·.tenMin)).getD p.board.hashrate10m) ∧
    (∀ name d, p.dashboard? name = some d →
      let q := p.perform (.clear name)
      ∃ v, q.view? d = some v ∧ v.chart.labels = [] ∧ v.latest = none ∧ q.board.points = 0) ∧
    ∀ later, p.Unaltered later → p.Steady (p.after later) := by
  intro p
  have sound : p.Sound := sound_after (sound_opened clock storage access) es
  exact ⟨fun task outcome h => signals_of_observed sound h,
    fun name d found => signals_of_clear sound found, fun later kept => steady_after kept⟩

/-- A history with one sample. -/
def lone (time hashrate : String) : String :=
  "\x7b\"timestampBase\":" ++ time ++ ",\"timestamps\":[0],\"hashrate_10m\":[" ++ hashrate
    ++ "],\"hashrate_1h\":[1.0],\"hashrate_1d\":[1.0]\x7d"

def reply (body : String) : Answer :=
  .replied 200 "OK" body

def reportOf (history : String) : Answer :=
  reply ("\x7b\"history\":" ++ history ++ "\x7d")

/-- The first request of a dashboard is answered with one sample. -/
def answered : Page :=
  (opened 5000000 { entries := [] } .granted).after
    [.create "main" none, .start "main", .stir 0, .stir 0,
      .respond 0 (reportOf (lone "5000000" "1.0"))]

/-- The turn after the answer shows the point, clearing shows none, and stopping changes nothing. -/
theorem signals_of_answered :
    (∃ name d v, (answered.perform (.stir 0)).dashboard? name = some d ∧
      (answered.perform (.stir 0)).view? d = some v ∧ v.chart.labels.length = 1) ∧
    (∃ d v, answered.dashboard? "main" = some d ∧
      (answered.perform (.clear "main")).view? d = some v ∧ v.chart.labels = []) ∧
    answered.Steady (answered.after [.stop "main", .drop "main"]) := by
  have follows := signals_follow_outcomes 5000000 { entries := [] } .granted
    [.create "main" none, .start "main", .stir 0, .stir 0,
      .respond 0 (reportOf (lone "5000000" "1.0"))]
  rw [← answered] at follows
  obtain ⟨outcomes, clears, others⟩ := follows
  obtain ⟨outcome, observed⟩ : ∃ outcome, answered.observed? 0 = some outcome :=
    Option.isSome_iff_exists.mp (by decide +kernel)
  obtain ⟨c, mine⟩ : ∃ c, answered.dashboard? "main" = some c :=
    Option.isSome_iff_exists.mp (by decide)
  refine ⟨?_, ?_, others [.stop "main", .drop "main"] (by simp [Unaltered, alters])⟩
  · have one : (answered.perform (.stir 0)).board.points = 1 := by decide +kernel
    obtain ⟨name, d, v, found, -, seen, points, -⟩ := outcomes 0 outcome observed
    exact ⟨name, d, v, found, seen, points.symm.trans one⟩
  · obtain ⟨v, seen, labels, -, -⟩ := clears "main" c mine
    exact ⟨c, v, mine, seen, labels⟩

/-- The number of points and the newest hashrate, of a dashboard and as the signals show them. -/
def sideBySide (p : Page) (name : String) : Option ((Nat × Option Float) × Nat × Float) :=
  (p.dashboard? name).bind fun d => (p.view? d).map fun v =>
    ((v.chart.labels.length, v.latest.map (·.tenMin)), p.board.points, p.board.hashrate10m)

/-- Polling is stopped, and starts again after more than an hour. The second answer then brings a sample
that is too old as well. -/
def outdated : Page :=
  answered.after [.stir 0, .stop "main", .stir 0, .pass 4000000, .start "main", .stir 1, .stir 1,
    .respond 1 (reportOf (lone "5000001" "2.0"))]

/-- When that is taken, a backfill brings a sample that is not. -/
def backfilled : Page :=
  outdated.after [.stir 1, .pledge "main" .backfill, .stir 2, .respond 2 (reply (lone "9000000" "3.0")),
    .stir 2]

/-- The signals need not follow the series: not the hashrate when an outcome leaves no point or the
series is cleared, and neither of them when a backfill is merged. -/
theorem signals_lag :
    (outdated.observed? 1).isSome ∧
    (outdated.perform (.stir 1)).sideBySide "main" = some ((0, none), 0, 10000000.0) ∧
    backfilled.sideBySide "main" = some ((1, some 30000000.0), 0, 10000000.0) ∧
    (backfilled.perform (.clear "main")).sideBySide "main" = some ((0, none), 0, 10000000.0) := by
  decide +kernel

end Page
end Browser
end MinerWatch
