import MinerWatch.Proofs.Browser.Session
import Mathlib.Data.Option.Basic
/-!
What the events on a page leave alone.

`Keeps` is about tasks: the dashboards stay, and a task only becomes what a task becomes that nobody
stops. All events keep a page in this sense but those by which a dashboard is made, taken off, started
or stopped, or promises something (`keeps_perform`); what these do to the tasks is said exactly.

`Quiet` is about effects: no engine has changed, nothing was sent or written, and the board shows what
it showed, except that polling may have ended.
-/

namespace MinerWatch.Browser

/-- What becomes of a task that nobody stops. -/
inductive Task.Becomes : Task → Task → Prop where
  | stays (t : Task) : Becomes t t
  | loops (r : Run) (loop : Option PollLoop) : Becomes (.run r) (.run { r with loop })
  | ends {r : Run} (aborted : r.aborted = true) : Becomes (.run r) .finished
  | sends (w : Pledge) (start : Option Millis) : Becomes (.pledge w) (.pledge { w with start })
  | settles (w : Pledge) : Becomes (.pledge w) .finished

/-- The task after somebody stopped it. -/
def Task.abort : Task → Task
  | .run r => .run { r with aborted := true }
  | t => t

/-- By the event dashboards come or go, or tasks begin or are stopped. -/
def Event.controls : Event → Bool
  | .create _ _ | .start _ | .stop _ | .drop _ | .pledge _ _ => true
  | _ => false

namespace Page

/-- The dashboards have stayed, and every task is where it was. -/
structure Keeps (p q : Page) : Prop where
  dashboards : q.dashboards = p.dashboards
  engines : q.engines.length = p.engines.length
  tasks : ∀ i : Nat, Option.Rel Task.Becomes p.tasks[i]? q.tasks[i]?

/-- Nothing was done to an engine, to the storage or to the device, and nothing is shown that was not. -/
structure Quiet (p q : Page) : Prop where
  engines : q.engines = p.engines
  storage : q.storage = p.storage
  sent : q.requests.map (·.url) = p.requests.map (·.url)
  board : { q.board with polling := p.board.polling } = p.board

variable {p q r : Page}

/-! ### Tasks -/

theorem rel_self (ts : List Task) (i : Nat) : Option.Rel Task.Becomes ts[i]? ts[i]? := by
  cases ts[i]? with
  | none => exact .none
  | some t => exact .some (.stays t)

theorem keeps_of_same (tasks : q.tasks = p.tasks) (dashboards : q.dashboards = p.dashboards)
    (engines : q.engines.length = p.engines.length) : p.Keeps q :=
  ⟨dashboards, engines, fun i => tasks ▸ rel_self p.tasks i⟩

theorem Keeps.refl (p : Page) : p.Keeps p :=
  keeps_of_same rfl rfl rfl

theorem keeps_of_set {task : Nat} {t u : Task} (here : p.tasks[task]? = some t) (becomes : t.Becomes u)
    (tasks : q.tasks = p.tasks.set task u) (dashboards : q.dashboards = p.dashboards)
    (engines : q.engines.length = p.engines.length) : p.Keeps q := by
  refine ⟨dashboards, engines, fun i => ?_⟩
  rw [tasks]
  by_cases same : task = i
  · obtain ⟨inside, -⟩ := List.getElem?_eq_some_iff.mp here
    rw [← same, here, List.getElem?_set_self inside]
    exact .some becomes
  · rw [List.getElem?_set_ne same]
    exact rel_self p.tasks i

@[simp] theorem tasks_wake (p : Page) (i : Nat) : (p.wake i).tasks = p.tasks := by
  unfold wake
  split <;> rfl

@[simp] theorem dashboards_wake (p : Page) (i : Nat) : (p.wake i).dashboards = p.dashboards := by
  unfold wake
  split <;> rfl

@[simp] theorem engines_wake (p : Page) (i : Nat) : (p.wake i).engines = p.engines := by
  unfold wake
  split <;> rfl

theorem keeps_follow {task : Nat} {run : Run} (here : p.tasks[task]? = some (.run run))
    (moved : Logged (PollLoop × Engine × PollLoop.Move)) : p.Keeps (p.follow task run moved) := by
  obtain ⟨⟨loop, e, move⟩, notices⟩ := moved
  cases move <;> exact keeps_of_set here (.loops run loop) rfl rfl List.length_set

theorem keeps_stirRun {task : Nat} {run : Run} (here : p.tasks[task]? = some (.run run)) :
    p.Keeps (p.stirRun task run) := by
  unfold stirRun
  split
  · rename_i aborted
    exact keeps_of_set here (.ends aborted) rfl rfl rfl
  · split
    · exact keeps_of_set here (.loops run _) rfl rfl rfl
    · split
      · exact keeps_follow here _
      · exact .refl p

theorem keeps_takeBackfill {task : Nat} {w : Pledge} (here : p.tasks[task]? = some (.pledge w))
    (e : Engine) (start : Millis) (a : Answer) :
    p.Keeps ((p.forget (·.task = task)).takeBackfill task w e start a) := by
  unfold takeBackfill
  dsimp only
  split
  · exact keeps_of_set here (.settles w) rfl rfl rfl
  · split
    · exact keeps_of_set here (.settles w) rfl rfl List.length_set
    · exact keeps_of_set here (.settles w) rfl rfl List.length_set

theorem keeps_takeExtent {task : Nat} {w : Pledge} (here : p.tasks[task]? = some (.pledge w))
    (a : Answer) : p.Keeps ((p.forget (·.task = task)).takeExtent task w a) := by
  unfold takeExtent
  dsimp only
  split <;> exact keeps_of_set here (.settles w) rfl rfl rfl

theorem keeps_turnPledge {task : Nat} {w : Pledge} (here : p.tasks[task]? = some (.pledge w)) :
    p.Keeps (p.turnPledge task w) := by
  unfold turnPledge
  split
  · exact .refl p
  · exact keeps_of_set here (.sends w _) rfl rfl rfl
  · split
    · exact .refl p
    · dsimp only
      split
      · exact keeps_takeBackfill here _ _ _
      · exact keeps_takeExtent here _

theorem keeps_stir (p : Page) (task : Nat) : p.Keeps (p.stir task) := by
  unfold stir
  split
  · exact keeps_stirRun ‹_›
  · exact keeps_turnPledge ‹_›
  · exact .refl p
  · exact .refl p

theorem keeps_fire (p : Page) (t : Timer) : p.Keeps (p.fire t) := by
  unfold fire
  dsimp only
  split
  · rename_i run here
    exact keeps_of_set here (.loops run _) (tasks_wake _ _) (dashboards_wake _ _)
      (congrArg List.length (engines_wake _ _))
  · exact keeps_of_same rfl rfl rfl

theorem keeps_respond (p : Page) (index : Nat) (a : Answer) : p.Keeps (p.respond index a).1 := by
  unfold respond
  split
  · exact keeps_of_same (tasks_wake _ _) (dashboards_wake _ _) (congrArg List.length (engines_wake _ _))
  · exact .refl p

theorem keeps_clear (p : Page) (d : Dashboard) : p.Keeps (p.clear d) := by
  unfold clear
  split
  · exact .refl p
  · exact keeps_of_same rfl rfl List.length_set

/-- An event keeps a page unless by it dashboards come and go, or tasks begin and are stopped. -/
theorem keeps_perform (p : Page) {ev : Event} (kept : ev.controls = false) : p.Keeps (p.perform ev) := by
  cases ev with
  | create name config => exact absurd kept (by simp [Event.controls])
  | start name => exact absurd kept (by simp [Event.controls])
  | stop name => exact absurd kept (by simp [Event.controls])
  | drop name => exact absurd kept (by simp [Event.controls])
  | pledge name purpose => exact absurd kept (by simp [Event.controls])
  | clear name => exact onDashboard_induction (.refl p) fun d _ => keeps_clear p d
  | respond index a => exact keeps_respond p index a
  | tick place =>
      simp only [perform]
      split
      · exact keeps_fire p _
      · exact .refl p
  | stir task => exact keeps_stir p task
  | dequeue => exact keeps_of_same rfl rfl rfl
  | pass moment => exact keeps_of_same rfl rfl rfl
  | rehost storage access => exact keeps_of_same rfl rfl rfl
  | override key value => exact keeps_of_same rfl rfl rfl

/-- A new task has the place after all others. -/
theorem getElem?_of_append {t : Task} (tasks : q.tasks = p.tasks ++ [t]) (i : Nat) :
    q.tasks[i]? = if i = p.tasks.length then some t else p.tasks[i]? := by
  rw [tasks]
  by_cases last : i = p.tasks.length
  · simp [last]
  · rw [if_neg last]
    rcases Nat.lt_or_gt_of_ne last with inside | outside
    · rw [List.getElem?_append_left inside]
    · rw [List.getElem?_eq_none (by simp; omega), List.getElem?_eq_none (by omega)]

/-- Halting a dashboard stops the task that it runs, and nothing else becomes of any. -/
theorem getElem?_halt (p : Page) (d : Dashboard) (i : Nat) :
    (p.halt d).tasks[i]? = if d.running = some i then p.tasks[i]?.map Task.abort else p.tasks[i]? := by
  unfold halt
  cases running : d.running with
  | none => simp
  | some task =>
      dsimp only
      split
      · rename_i run here
        obtain ⟨inside, -⟩ := List.getElem?_eq_some_iff.mp here
        simp only [tasks_wake, putTask]
        by_cases same : task = i
        · rw [← same, List.getElem?_set_self inside, here]
          simp [Task.abort]
        · rw [List.getElem?_set_ne same]
          simp [same]
      · rename_i other
        by_cases same : task = i
        · subst same
          cases found : p.tasks[task]? with
          | none => simp
          | some t =>
              cases t with
              | run run => exact absurd found (other run)
              | pledge w => simp [Task.abort]
              | finished => simp [Task.abort]
        · simp [same]

@[simp] theorem dashboards_halt (p : Page) (d : Dashboard) : (p.halt d).dashboards = p.dashboards := by
  unfold halt
  cases d.running with
  | none => rfl
  | some task =>
      dsimp only
      split
      · exact dashboards_wake _ _
      · rfl

@[simp] theorem engines_halt (p : Page) (d : Dashboard) : (p.halt d).engines = p.engines := by
  unfold halt
  cases d.running with
  | none => rfl
  | some task =>
      dsimp only
      split
      · exact engines_wake _ _
      · rfl

/-! ### Dashboards by name -/

/-- Making a dashboard leaves lines in the log, and if it succeeds there is one more engine. -/
theorem create_cases (p : Page) (name : String) (config : Option String) :
    (∃ log fault, p.create name config = ({ p with log }, .error fault)) ∨
    ∃ log settings e, (Engine.restore p.storage settings).value = .ok e ∧
      p.create name config = (({ p with log, engines := p.engines ++ [e] }.discard name).putDashboard name
        { engine := p.engines.length }, .ok ()) := by
  unfold create
  cases readSettings? config with
  | none => exact .inl ⟨p.log, _, rfl⟩
  | some settings =>
      cases p.access.fault? with
      | some fault => exact .inl ⟨p.log, _, rfl⟩
      | none =>
          dsimp only
          cases made : (Engine.restore p.storage settings).value with
          | error fault => exact .inl ⟨_, _, rfl⟩
          | ok e => exact .inr ⟨_, settings, e, made, rfl⟩

theorem lookup_filter_ne (ds : List (String × Dashboard)) (name n : String) :
    (ds.filter (fun e => e.1 ≠ name)).lookup n = if n = name then none else ds.lookup n := by
  induction ds with
  | nil => simp
  | cons e ds ih =>
      obtain ⟨m, d⟩ := e
      by_cases other : m = name
      · rw [List.filter_cons_of_neg (by simpa using other), ih, List.lookup_cons]
        by_cases same : n = name
        · simp [same]
        · simp [same, beq_eq_false_iff_ne.mpr (other ▸ same)]
      · rw [List.filter_cons_of_pos (by simpa using other), List.lookup_cons, List.lookup_cons, ih]
        by_cases same : n = m
        · simp [same, other]
        · simp [beq_eq_false_iff_ne.mpr same]

theorem dashboard?_putDashboard (p : Page) (name n : String) (d : Dashboard) :
    (p.putDashboard name d).dashboard? n = if n = name then some d else p.dashboard? n := by
  rw [dashboard?, putDashboard, List.lookup_cons, lookup_filter_ne]
  by_cases same : n = name
  · simp [same]
  · simp [same, dashboard?, beq_eq_false_iff_ne.mpr same]

theorem dashboard?_discard (p : Page) (name n : String) :
    (p.discard name).dashboard? n = if n = name then none else p.dashboard? n := by
  unfold discard
  cases found : p.dashboard? name with
  | none =>
      by_cases same : n = name
      · simp [same, found]
      · simp [same]
  | some d =>
      simp only [dashboard?]
      exact lookup_filter_ne p.dashboards name n

theorem dashboard?_stop (p : Page) (name n : String) (d : Dashboard) :
    (p.stop name d).dashboard? n = if n = name then some { d with running := none }
      else p.dashboard? n := by
  rw [stop, dashboard?_putDashboard]
  simp only [dashboard?, dashboards_halt]

/-! ### Effects -/

theorem quiet_of_same (engines : q.engines = p.engines) (storage : q.storage = p.storage)
    (requests : q.requests = p.requests) (board : q.board = p.board) : p.Quiet q :=
  ⟨engines, storage, congrArg _ requests, by rw [board]⟩

theorem Quiet.refl (p : Page) : p.Quiet p :=
  quiet_of_same rfl rfl rfl rfl

theorem Quiet.trans (first : p.Quiet q) (next : q.Quiet r) : p.Quiet r where
  engines := next.engines.trans first.engines
  storage := next.storage.trans first.storage
  sent := next.sent.trans first.sent
  board := by
    have shown := congrArg (fun b => { b with polling := p.board.polling }) next.board
    exact shown.trans first.board

theorem Quiet.wake (h : p.Quiet q) (i : Nat) : p.Quiet (q.wake i) := by
  refine h.trans ?_
  unfold Page.wake
  split <;> exact quiet_of_same rfl rfl rfl rfl

theorem Quiet.endRun (h : p.Quiet q) (run : Nat) :
    p.Quiet { q with board := q.board.endRun run } := by
  refine h.trans ⟨rfl, rfl, rfl, ?_⟩
  simp only [StatusBoard.endRun]
  split <;> rfl

theorem Quiet.forget (h : p.Quiet q) (gone : Waiter → Bool) : p.Quiet (q.forget gone) := by
  refine h.trans ⟨rfl, rfl, ?_, rfl⟩
  simp only [Page.forget, List.map_map]
  rfl

theorem quiet_respond (p : Page) (index : Nat) (a : Answer) : p.Quiet (p.respond index a).1 := by
  unfold respond
  split
  · rename_i url w here
    refine Quiet.wake ?_ w.task
    refine ⟨rfl, rfl, ?_, rfl⟩
    obtain ⟨inside, eq⟩ := List.getElem?_eq_some_iff.mp here
    have placed : index < (p.requests.map (·.url)).length := by simpa using inside
    have same : url = (p.requests.map (·.url))[index] := by simp [eq]
    rw [List.map_set]
    exact (congrArg _ same).trans (List.set_getElem_self _)
  · exact .refl p

theorem quiet_fire (p : Page) (t : Timer) : p.Quiet (p.fire t) := by
  unfold fire
  dsimp only
  split
  · refine Quiet.wake ?_ t.task
    exact quiet_of_same rfl rfl rfl rfl
  · exact quiet_of_same rfl rfl rfl rfl

theorem quiet_finishRun (p : Page) (task : Nat) (run : Run) : p.Quiet (p.finishRun task run) := by
  have ended : p.Quiet ((p.report "⏹️ Polling stopped").putTask task .finished) :=
    quiet_of_same rfl rfl rfl rfl
  have shown := (ended.forget (·.task = task)).endRun run.number
  exact shown.trans (quiet_of_same rfl rfl rfl rfl)

theorem quiet_halt (p : Page) (d : Dashboard) : p.Quiet (p.halt d) := by
  unfold halt
  cases d.running with
  | none => exact .refl p
  | some task =>
      dsimp only
      split
      · rename_i run here
        have aborted : p.Quiet (p.putTask task (.run { run with aborted := true })) :=
          quiet_of_same rfl rfl rfl rfl
        exact (aborted.wake task).endRun d.run
      · exact (Quiet.refl p).endRun d.run

end Page
end MinerWatch.Browser
