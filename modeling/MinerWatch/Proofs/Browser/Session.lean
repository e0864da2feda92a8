import MinerWatch.Browser.Page.Dashboard
import MinerWatch.Browser.Page.Time
/-!
What happens on a page, event after event.

A turn is cut into pieces (`Page.stir`): a run begins, makes one move of its loop, or ends, and a
promise has its turn. So a session is a list of events, in any order, and giving turns and letting
time pass are such lists too (`exists_events_runTasks`, `exists_events_advance`). A turn has as many
pieces as a run has moves to make, and leaves none of them (`waits_turn`).
-/

namespace MinerWatch.Browser

/-- What can happen on a page. -/
inductive Event where
  | create (name : String) (config : Option String)
  | start (name : String)
  | stop (name : String)
  | drop (name : String)
  | clear (name : String)
  | pledge (name : String) (purpose : Purpose)
  | respond (index : Nat) (a : Answer)
  /-- The interval at a place of the list ticks. -/
  | tick (place : Nat)
  /-- A task has a piece of a turn. -/
  | stir (task : Nat)
  /-- The queue is taken, to give a turn to all that wait on it. -/
  | dequeue
  | pass (moment : Nat)
  | rehost (storage : Store) (access : Access)
  | override (key : String) (value : Option String)

namespace Page

/-- A page as it is opened, without dashboards. -/
def opened (clock : Millis) (storage : Store) (access : Access) : Page :=
  { clock, storage, access }

/-- The next move of a run, if it has one. -/
def move? (p : Page) (task : Nat) (r : Run) : Option (Logged (PollLoop × Engine × PollLoop.Move)) :=
  match r.loop, p.engine? r.engine with
  | some loop, some e => loop.step e p.clock (p.readyFor task)
  | _, _ => none

def stirRun (p : Page) (task : Nat) (r : Run) : Page :=
  if r.aborted then p.finishRun task r
  else
    match r.loop, p.engines[r.engine]? with
    | none, some e => p.startRun task r e
    | _, _ =>
      match p.move? task r with
      | some moved => p.follow task r moved
      | none => p

/-- Gives a task a piece of a turn. -/
def stir (p : Page) (task : Nat) : Page :=
  match p.tasks[task]? with
  | some (.run r) => p.stirRun task r
  | some (.pledge w) => p.turnPledge task w
  | some .finished => p
  | none => p

/-- Lets the dashboard of a name act, if there is one. -/
def onDashboard (p : Page) (name : String) (act : Dashboard → Page) : Page :=
  match p.dashboard? name with
  | some d => act d
  | none => p

/-- The page after an event. -/
def perform (p : Page) : Event → Page
  | .create name config => (p.create name config).1
  | .start name => p.onDashboard name (p.start name)
  | .stop name => p.onDashboard name (p.stop name)
  | .drop name => p.discard name
  | .clear name => p.onDashboard name p.clear
  | .pledge name purpose => p.onDashboard name fun d => (p.pledge d purpose).1
  | .respond index a => (p.respond index a).1
  | .tick place =>
    match p.timers[place]? with
    | some t => p.fire t
    | none => p
  | .stir task => p.stir task
  | .dequeue => { p with queue := [] }
  | .pass moment => p.passTo moment
  | .rehost storage access => p.rehost storage access
  | .override key value => p.override key value

/-- The page after a session. -/
def after (p : Page) (es : List Event) : Page :=
  es.foldl perform p

@[simp] theorem after_nil (p : Page) : p.after [] = p := rfl

@[simp] theorem after_cons (p : Page) (ev : Event) (es : List Event) :
    p.after (ev :: es) = (p.perform ev).after es := rfl

theorem after_append (p : Page) (es fs : List Event) : p.after (es ++ fs) = (p.after es).after fs :=
  List.foldl_append

/-- What every event keeps is kept by a session. -/
theorem after_induction {motive : Page → Prop} {p : Page} (start : motive p)
    (step : ∀ q ev, motive q → motive (q.perform ev)) (es : List Event) : motive (p.after es) := by
  induction es generalizing p with
  | nil => exact start
  | cons ev es ih => exact ih (step p ev start)

variable {p : Page}

/-- What holds of a page, and of what any of its dashboards does to it, holds after it has acted. -/
theorem onDashboard_induction {motive : Page → Prop} {name : String} {act : Dashboard → Page}
    (without : motive p) (acted : ∀ d, p.dashboard? name = some d → motive (act d)) :
    motive (p.onDashboard name act) := by
  unfold onDashboard
  split
  · exact acted _ ‹_›
  · exact without

/-! ### Turns as sessions -/

theorem getElem?_follow {task : Nat} {r : Run} (here : p.tasks[task]? = some (.run r))
    (moved : Logged (PollLoop × Engine × PollLoop.Move)) :
    (p.follow task r moved).tasks[task]? = some (.run { r with loop := some moved.value.1 }) := by
  have inside : task < p.tasks.length := (List.getElem?_eq_some_iff.mp here).1
  obtain ⟨⟨loop, e, move⟩, notices⟩ := moved
  cases move <;> exact List.getElem?_set_self inside

theorem stir_of_move {task : Nat} {r : Run} {loop : PollLoop} (here : p.tasks[task]? = some (.run r))
    (on : r.aborted = false) (begun : r.loop = some loop) :
    p.stir task = match p.move? task r with
      | some moved => p.follow task r moved
      | none => p := by
  simp only [stir, here, stirRun, on, Bool.false_eq_true, if_false, begun]

theorem work_succ (n : Nat) {task : Nat} {r : Run} {loop : PollLoop}
    (here : p.tasks[task]? = some (.run r)) (begun : r.loop = some loop) :
    work (n + 1) p task = match p.move? task r with
      | some moved => work n (p.follow task r moved) task
      | none => p := by
  simp only [work, here, begun, move?]
  cases p.engine? r.engine with
  | none => rfl
  | some e => rfl

/-- The moves that a run makes at once are pieces of its turn. -/
theorem exists_events_work (n : Nat) {task : Nat} {r : Run} {loop : PollLoop}
    (here : p.tasks[task]? = some (.run r)) (on : r.aborted = false) (begun : r.loop = some loop) :
    ∃ es, work n p task = p.after es := by
  induction n generalizing p r loop with
  | zero => exact ⟨[], rfl⟩
  | succ n ih =>
      have piece := stir_of_move here on begun
      rw [work_succ n here begun]
      cases moves : p.move? task r with
      | none => exact ⟨[], rfl⟩
      | some moved =>
          rw [moves] at piece
          obtain ⟨es, eq⟩ := ih (getElem?_follow here moved) on rfl
          exact ⟨.stir task :: es, by rw [after_cons, perform, piece, ← eq]⟩

theorem getElem?_startRun {task : Nat} {r : Run} (here : p.tasks[task]? = some (.run r)) (e : Engine) :
    (p.startRun task r e).tasks[task]? = some (.run { r with loop := some PollLoop.first }) :=
  List.getElem?_set_self (List.getElem?_eq_some_iff.mp here).1

theorem exists_events_turn (task : Nat) : ∃ es, p.turn task = p.after es := by
  cases here : p.tasks[task]? with
  | none => exact ⟨[], by simp only [turn, here, after_nil]⟩
  | some t =>
      cases t with
      | finished => exact ⟨[], by simp only [turn, here, after_nil]⟩
      | pledge w =>
          exact ⟨[.stir task], by simp only [turn, here, after_cons, after_nil, perform, stir]⟩
      | run r =>
          simp only [turn, here]
          cases on : r.aborted with
          | true =>
              refine ⟨[.stir task], ?_⟩
              simp only [turnRun, on, if_true, after_cons, after_nil, perform, stir, here, stirRun]
          | false =>
              simp only [turnRun, on, Bool.false_eq_true, if_false]
              cases begun : r.loop with
              | some loop => exact exists_events_work _ here on begun
              | none =>
                  cases found : p.engines[r.engine]? with
                  | none => exact ⟨[], rfl⟩
                  | some e =>
                      -- The first piece starts the loop, the others move it.
                      obtain ⟨es, eq⟩ := exists_events_work PollLoop.first.movesLeft
                        (getElem?_startRun here e) on rfl
                      refine ⟨.stir task :: es, ?_⟩
                      simp only [after_cons, perform, stir, here, stirRun, on, Bool.false_eq_true,
                        if_false, begun, found, eq]

theorem exists_events_turns (tasks : List Nat) : ∃ es, tasks.foldl turn p = p.after es := by
  induction tasks generalizing p with
  | nil => exact ⟨[], rfl⟩
  | cons task tasks ih =>
      obtain ⟨es, first⟩ := exists_events_turn (p := p) task
      obtain ⟨fs, others⟩ := ih (p := p.turn task)
      exact ⟨es ++ fs, by rw [List.foldl_cons, others, first, after_append]⟩

/-- Giving every woken task its turn is a session. -/
theorem exists_events_runTasks : ∃ es, p.runTasks = p.after es := by
  obtain ⟨es, eq⟩ := exists_events_turns (p := { p with queue := [] }) p.queue
  exact ⟨.dequeue :: es, eq⟩

/-! ### Turns come to an end -/

/-- The run of a task has no move to make. -/
def Waits (p : Page) (task : Nat) : Prop :=
  ∃ r, p.tasks[task]? = some (.run r) ∧ p.move? task r = none

theorem movesLeft_lt_of_move? {task : Nat} {r : Run} {loop : PollLoop} (begun : r.loop = some loop)
    {moved : Logged (PollLoop × Engine × PollLoop.Move)} (moves : p.move? task r = some moved) :
    moved.value.1.movesLeft < loop.movesLeft := by
  simp only [move?, begun] at moves
  cases found : p.engine? r.engine with
  | none => simp [found] at moves
  | some e =>
      simp only [found] at moves
      exact PollLoop.movesLeft_lt_of_step moves

/-- A run that may make all the moves that are left to it comes to wait. -/
theorem waits_work {n task : Nat} {r : Run} {loop : PollLoop} (here : p.tasks[task]? = some (.run r))
    (begun : r.loop = some loop) (enough : loop.movesLeft ≤ n) : (work n p task).Waits task := by
  induction n generalizing p r loop with
  | zero =>
      refine ⟨r, here, ?_⟩
      cases moves : p.move? task r with
      | none => exact moves
      | some moved => exact absurd (movesLeft_lt_of_move? begun moves) (by omega)
  | succ n ih =>
      rw [work_succ n here begun]
      cases moves : p.move? task r with
      | none => exact ⟨r, here, moves⟩
      | some moved =>
          have fewer := movesLeft_lt_of_move? begun moves
          exact ih (getElem?_follow here moved) rfl (by omega)

/-- A turn leaves a run without a move, unless it ends the run. -/
theorem waits_turn {task : Nat} {r : Run} (here : p.tasks[task]? = some (.run r))
    (on : r.aborted = false) : (p.turn task).Waits task := by
  simp only [turn, here, turnRun, on, Bool.false_eq_true, if_false]
  cases begun : r.loop with
  | some loop => exact waits_work here begun (Nat.le_refl _)
  | none =>
      cases p.engines[r.engine]? with
      | none => exact ⟨r, here, by simp only [move?, begun]⟩
      | some e => exact waits_work (getElem?_startRun here e) rfl (Nat.le_refl _)

/-! ### Time as a session -/

theorem mem_of_firstTimer {ts : List Timer} {t : Timer} (h : firstTimer ts = some t) : t ∈ ts := by
  induction ts generalizing t with
  | nil => exact absurd h (by simp [firstTimer])
  | cons u us ih =>
      simp only [firstTimer] at h
      cases rest : firstTimer us with
      | none =>
          simp only [rest, Option.some.injEq] at h
          exact h ▸ List.mem_cons_self
      | some v =>
          simp only [rest] at h
          split at h
          · exact Option.some.inj h ▸ List.mem_cons_of_mem _ (ih rest)
          · exact Option.some.inj h ▸ List.mem_cons_self

theorem exists_events_fire {t : Timer} (h : t ∈ p.timers) : ∃ es, p.fire t = p.after es := by
  obtain ⟨place, here⟩ := List.mem_iff_getElem?.mp h
  exact ⟨[.tick place], by simp only [after_cons, after_nil, perform, here]⟩

theorem exists_events_passUntil (fuel moment : Nat) : ∃ es, passUntil fuel p moment = p.after es := by
  induction fuel generalizing p with
  | zero => exact ⟨[.pass moment], rfl⟩
  | succ fuel ih =>
      simp only [passUntil]
      cases first : firstTimer p.timers with
      | none => exact ⟨[.pass moment], rfl⟩
      | some t =>
          by_cases due : t.due ≤ moment
          · have ticking : t ∈ (p.passTo t.due).timers := mem_of_firstTimer first
            obtain ⟨ticks, fired⟩ := exists_events_fire ticking
            obtain ⟨turns, run⟩ := exists_events_runTasks (p := (p.passTo t.due).fire t)
            obtain ⟨rest, eq⟩ := ih (p := ((p.passTo t.due).fire t).runTasks)
            refine ⟨.pass t.due :: (ticks ++ turns ++ rest), ?_⟩
            simp only [due, if_true, eq, after_cons, after_append, perform, ← fired, ← run]
          · exact ⟨[.pass moment], by simp only [due, if_false, after_cons, after_nil, perform]⟩

/-- Letting time pass is a session. -/
theorem exists_events_advance (ms : Millis) : ∃ es, p.advance ms = p.after es :=
  exists_events_passUntil _ _

end Page
end MinerWatch.Browser
