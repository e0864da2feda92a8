import MinerWatch.Proofs.Browser.Signals
/-!
The polling flag tells the truth.

A run is ended twice: when its dashboard stops polling, and by the last turn of its task, which may come
much later, with other runs begun in between. Only the newest run clears the flag by its end.

`Numbered` says that runs are told apart by their numbers, that a dashboard which polls knows the number
of its run, and that the flag is on just while a dashboard polls by the newest one. The last turn of an
aborted run then shows nothing: if the run was the newest, the flag is off already (`board_finishRun`).
Every event keeps a page numbered (`numbered_perform`), and if all dashboards have one name, the one that
is there polls by the newest run or not at all (`sole_perform`).
-/

namespace MinerWatch

namespace StatusBoard

@[simp] theorem run_endRun (b : StatusBoard) (run : Nat) : (b.endRun run).run = b.run := by
  unfold endRun
  split <;> rfl

@[simp] theorem run_update (b : StatusBoard) (outcome : Outcome) (n : Nat) (latest : Option Sample) :
    (b.update outcome n latest).run = b.run := by
  cases latest <;> cases outcome <;> rfl

@[simp] theorem polling_update (b : StatusBoard) (outcome : Outcome) (n : Nat) (latest : Option Sample) :
    (b.update outcome n latest).polling = b.polling := by
  cases latest <;> cases outcome <;> rfl

end StatusBoard

namespace Browser

/-- The number of the run that a task is, until it has ended. -/
def Task.number? : Task → Option Nat
  | .run r => some r.number
  | _ => none

theorem Task.Becomes.number? {t u : Task} (h : t.Becomes u) {n : Nat} (here : u.number? = some n) :
    t.number? = some n := by
  cases h with
  | stays => exact here
  | loops => exact here
  | ends => exact absurd here (by simp [Task.number?])
  | sends => exact here
  | settles => exact absurd here (by simp [Task.number?])

/-- A run that is on does not end by itself. -/
theorem Task.Becomes.number?_of_polls {t u : Task} (h : t.Becomes u) {k : Nat}
    (on : t.polls? = some k) : u.number? = t.number? := by
  cases h with
  | stays => rfl
  | loops => rfl
  | ends aborted => exact absurd on (by simp [Task.polls?, aborted])
  | sends => rfl
  | settles => exact absurd on (by simp [Task.polls?])

@[simp] theorem Task.number?_abort (t : Task) : t.abort.number? = t.number? := by
  cases t <;> rfl

namespace Page

def number? (p : Page) (i : Nat) : Option Nat :=
  p.tasks[i]?.bind Task.number?

/-- The runs have numbers of their own, the dashboards that poll know theirs, and the flag is the newest
run's. -/
structure Numbered (p : Page) : Prop where
  begun : ∀ i n, p.number? i = some n → n ≤ p.board.run
  unique : ∀ i j n, p.number? i = some n → p.number? j = some n → i = j
  known : ∀ name d i, p.dashboard? name = some d → d.running = some i → p.number? i = some d.run
  flag : p.board.polling = true ↔
    ∃ name d, p.dashboard? name = some d ∧ d.running.isSome ∧ d.run = p.board.run

/-- No run was begun, and the flag is as it was. -/
structure SameFlag (p q : Page) : Prop where
  run : q.board.run = p.board.run
  polling : q.board.polling = p.board.polling

/-- All dashboards of the page have one name, and the one that polls does so by the newest run. -/
structure Sole (p : Page) (name : String) : Prop where
  alone : ∀ n d, p.dashboard? n = some d → n = name
  newest : ∀ n d, p.dashboard? n = some d → d.running.isSome → d.run = p.board.run

variable {p q : Page}

/-! ### Numbers -/

theorem Keeps.number? (h : p.Keeps q) {i n : Nat} (here : q.number? i = some n) :
    p.number? i = some n := by
  have becomes := h.tasks i
  unfold Page.number? at here ⊢
  generalize p.tasks[i]? = t at becomes ⊢
  generalize q.tasks[i]? = u at becomes here
  cases becomes with
  | none => exact absurd here (by simp)
  | some b => exact b.number? here

theorem Keeps.number?_of_polls (h : p.Keeps q) {i k : Nat} (on : p.polls? i = some k) :
    q.number? i = p.number? i := by
  have becomes := h.tasks i
  unfold Page.polls? at on
  unfold Page.number?
  generalize p.tasks[i]? = t at becomes on ⊢
  generalize q.tasks[i]? = u at becomes ⊢
  cases becomes with
  | none => rfl
  | some b => exact b.number?_of_polls on

theorem number?_halt (p : Page) (d : Dashboard) (i : Nat) : (p.halt d).number? i = p.number? i := by
  unfold number?
  rw [getElem?_halt]
  split
  · cases p.tasks[i]? with
    | none => rfl
    | some t => exact t.number?_abort
  · rfl

theorem number?_of_append {t : Task} (tasks : q.tasks = p.tasks ++ [t]) (i : Nat) :
    q.number? i = if i = p.tasks.length then t.number? else p.number? i := by
  rw [number?, getElem?_of_append tasks]
  split <;> rfl

/-- Two dashboards do not poll by runs of the same number. -/
theorem Numbered.apart (h : p.Numbered) (sound : p.Sound) {name other : String} {d e : Dashboard}
    (found : p.dashboard? name = some d) (found' : p.dashboard? other = some e)
    (on : d.running.isSome) (on' : e.running.isSome) (same : d.run = e.run) : name = other := by
  obtain ⟨i, running⟩ := Option.isSome_iff_exists.mp on
  obtain ⟨j, running'⟩ := Option.isSome_iff_exists.mp on'
  have number := h.known name d i found running
  have number' := h.known other e j found' running'
  obtain rfl := h.unique i j d.run number (same ▸ number')
  have engine := sound.polls?_of_running found running
  have engine' := sound.polls?_of_running found' running'
  exact sound.apart name other d e found found' (Option.some.inj (engine.symm.trans engine'))

/-! ### Events without control -/

theorem sameFlag_of_board (board : q.board = p.board) : p.SameFlag q :=
  ⟨by rw [board], by rw [board]⟩

@[simp] theorem board_wake (p : Page) (i : Nat) : (p.wake i).board = p.board := by
  unfold wake
  split <;> rfl

/-- The last turn of an aborted run shows nothing, however late it comes. -/
theorem board_finishRun (h : p.Numbered) (sound : p.Sound) {task : Nat} {r : Run}
    (here : p.tasks[task]? = some (.run r)) (aborted : r.aborted = true) :
    (p.finishRun task r).board = p.board := by
  have ended : (p.finishRun task r).board = p.board.endRun r.number := rfl
  rw [ended, StatusBoard.endRun]
  split
  · rename_i newest
    have off : p.board.polling = false := by
      by_contra on
      obtain ⟨name, d, found, isOn, run⟩ := h.flag.mp (by simpa using on)
      obtain ⟨i, running⟩ := Option.isSome_iff_exists.mp isOn
      have number : p.number? task = some d.run := by simp [number?, here, Task.number?, run, newest]
      obtain rfl := h.unique i task d.run (h.known name d i found running) number
      exact absurd (sound.polls?_of_running found running) (by simp [polls?, here, Task.polls?, aborted])
    rw [← off]
  · rfl

theorem sameFlag_follow (p : Page) (task : Nat) (run : Run)
    (moved : Logged (PollLoop × Engine × PollLoop.Move)) : p.SameFlag (p.follow task run moved) := by
  have board := board_follow p task run moved
  cases shown : moved.value.2.2.outcome? with
  | none => exact sameFlag_of_board (by rw [board, shown])
  | some outcome => exact ⟨by simp [board, shown], by simp [board, shown]⟩

theorem sameFlag_stirRun (h : p.Numbered) (sound : p.Sound) {task : Nat} {run : Run}
    (here : p.tasks[task]? = some (.run run)) : p.SameFlag (p.stirRun task run) := by
  unfold stirRun
  split
  · exact sameFlag_of_board (board_finishRun h sound here ‹_›)
  · split
    · exact sameFlag_of_board rfl
    · split
      · exact sameFlag_follow p task run _
      · exact sameFlag_of_board rfl

theorem sameFlag_turnPledge (p : Page) (task : Nat) (w : Pledge) : p.SameFlag (p.turnPledge task w) := by
  unfold turnPledge
  split
  · exact sameFlag_of_board rfl
  · exact sameFlag_of_board rfl
  · split
    · exact sameFlag_of_board rfl
    · dsimp only
      split
      · unfold takeBackfill
        dsimp only
        split
        · exact sameFlag_of_board rfl
        · split <;> exact sameFlag_of_board rfl
      · unfold takeExtent
        dsimp only
        split <;> exact sameFlag_of_board rfl

/-- The flag changes only when a dashboard is started, stopped or taken off. -/
theorem sameFlag_perform (h : p.Numbered) (sound : p.Sound) {ev : Event} (kept : ev.controls = false) :
    p.SameFlag (p.perform ev) := by
  have same : p.SameFlag p := sameFlag_of_board rfl
  cases ev with
  | create name config => exact absurd kept (by simp [Event.controls])
  | start name => exact absurd kept (by simp [Event.controls])
  | stop name => exact absurd kept (by simp [Event.controls])
  | drop name => exact absurd kept (by simp [Event.controls])
  | pledge name purpose => exact absurd kept (by simp [Event.controls])
  | clear name =>
      refine onDashboard_induction same fun d _ => ?_
      unfold clear
      split
      · exact same
      · exact ⟨rfl, rfl⟩
  | respond index a =>
      simp only [perform, respond]
      split
      · exact sameFlag_of_board (board_wake _ _)
      · exact same
  | tick place =>
      simp only [perform]
      split
      · unfold fire
        dsimp only
        split
        · exact sameFlag_of_board (board_wake _ _)
        · exact sameFlag_of_board rfl
      · exact same
  | stir task =>
      simp only [perform, stir]
      split
      · exact sameFlag_stirRun h sound ‹_›
      · exact sameFlag_turnPledge p task _
      · exact same
      · exact same
  | dequeue => exact sameFlag_of_board rfl
  | pass moment => exact sameFlag_of_board rfl
  | rehost storage access => exact sameFlag_of_board rfl
  | override key value => exact sameFlag_of_board rfl

theorem numbered_of_keeps (h : p.Numbered) (sound : p.Sound) (kept : p.Keeps q) (flag : p.SameFlag q) :
    q.Numbered := by
  have same : q.dashboard? = p.dashboard? := by
    funext name
    rw [dashboard?, kept.dashboards, dashboard?]
  refine ⟨fun i n here => ?_, fun i j n here there => ?_, fun name d i found running => ?_, ?_⟩
  · rw [flag.run]
    exact h.begun i n (kept.number? here)
  · exact h.unique i j n (kept.number? here) (kept.number? there)
  · rw [same] at found
    rw [kept.number?_of_polls (sound.polls?_of_running found running)]
    exact h.known name d i found running
  · rw [flag.polling, flag.run, same]
    exact h.flag

/-! ### Starting and stopping -/

theorem board_halt (p : Page) (d : Dashboard) :
    (p.halt d).board = if d.running.isSome then p.board.endRun d.run else p.board := by
  unfold halt
  cases d.running with
  | none => rfl
  | some task =>
      dsimp only
      split
      · exact congrArg (·.endRun d.run) (board_wake _ _)
      · rfl

theorem run_halt (p : Page) (d : Dashboard) : (p.halt d).board.run = p.board.run := by
  rw [board_halt]
  split <;> simp

/-- After a halt the flag is on just if another dashboard polls by the newest run. -/
theorem polling_halt (h : p.Numbered) (sound : p.Sound) {name : String} {d : Dashboard}
    (found : p.dashboard? name = some d) :
    (p.halt d).board.polling = true ↔
      ∃ n e, n ≠ name ∧ p.dashboard? n = some e ∧ e.running.isSome ∧ e.run = p.board.run := by
  have others (different : d.running.isSome → d.run ≠ p.board.run) :
      p.board.polling = true ↔
        ∃ n e, n ≠ name ∧ p.dashboard? n = some e ∧ e.running.isSome ∧ e.run = p.board.run := by
    rw [h.flag]
    constructor
    · rintro ⟨n, e, mine, on, run⟩
      refine ⟨n, e, fun same => ?_, mine, on, run⟩
      obtain rfl := Option.some.inj (found.symm.trans (same ▸ mine))
      exact different on run
    · rintro ⟨n, e, -, mine, on, run⟩
      exact ⟨n, e, mine, on, run⟩
  rw [board_halt]
  cases on : d.running.isSome with
  | false => exact others (by simp [on])
  | true =>
      rw [if_pos rfl, StatusBoard.endRun]
      split
      · rename_i newest
        refine iff_of_false (by simp) ?_
        rintro ⟨n, e, ne, mine, on', run⟩
        exact ne (h.apart sound mine found on' on (run.trans newest))
      · rename_i older
        exact others fun _ same => older same.symm

/-- A page stays numbered when no run is begun and no dashboard starts to poll, if the flag is still that
of the newest run. -/
theorem numbered_of_fewer (h : p.Numbered) (number : ∀ i, q.number? i = p.number? i)
    (run : q.board.run = p.board.run)
    (fewer : ∀ n e, e.running.isSome → q.dashboard? n = some e → p.dashboard? n = some e)
    (flag : q.board.polling = true ↔
      ∃ n e, q.dashboard? n = some e ∧ e.running.isSome ∧ e.run = p.board.run) : q.Numbered := by
  refine ⟨fun i n here => ?_, fun i j n here there => ?_, fun n e i mine running => ?_, run ▸ flag⟩
  · rw [run]
    exact h.begun i n (number i ▸ here)
  · exact h.unique i j n (number i ▸ here) (number j ▸ there)
  · rw [number]
    exact h.known n e i (fewer n e (by simp [running]) mine) running

theorem numbered_of_same (h : p.Numbered) (number : ∀ i, q.number? i = p.number? i)
    (board : q.board = p.board) (polling : ∀ n e, e.running.isSome →
      (q.dashboard? n = some e ↔ p.dashboard? n = some e)) : q.Numbered := by
  refine numbered_of_fewer h number (by rw [board]) (fun n e on => (polling n e on).mp) ?_
  rw [board, h.flag]
  constructor
  · rintro ⟨n, e, mine, on, newest⟩
    exact ⟨n, e, (polling n e on).mpr mine, on, newest⟩
  · rintro ⟨n, e, mine, on, newest⟩
    exact ⟨n, e, (polling n e on).mp mine, on, newest⟩

/-- Nothing but a halt has happened, after which the dashboard of this name polls no more. -/
theorem numbered_of_halt (h : p.Numbered) (sound : p.Sound) {name : String} {d : Dashboard}
    (found : p.dashboard? name = some d) (tasks : q.tasks = (p.halt d).tasks)
    (board : q.board = (p.halt d).board)
    (polling : ∀ n e, e.running.isSome →
      (q.dashboard? n = some e ↔ n ≠ name ∧ p.dashboard? n = some e)) : q.Numbered := by
  have number (i : Nat) : q.number? i = p.number? i := by
    rw [← number?_halt p d i, number?, number?, tasks]
  refine numbered_of_fewer h number (by rw [board, run_halt])
    (fun n e on mine => ((polling n e on).mp mine).2) ?_
  rw [board, polling_halt h sound found]
  constructor
  · rintro ⟨n, e, ne, mine, on, newest⟩
    exact ⟨n, e, (polling n e on).mpr ⟨ne, mine⟩, on, newest⟩
  · rintro ⟨n, e, mine, on, newest⟩
    obtain ⟨ne, mine'⟩ := (polling n e on).mp mine
    exact ⟨n, e, ne, mine', on, newest⟩

theorem numbered_discard (h : p.Numbered) (sound : p.Sound) (name : String) :
    (p.discard name).Numbered := by
  cases found : p.dashboard? name with
  | none =>
      have same : p.discard name = p := by simp only [discard, found]
      rw [same]
      exact h
  | some d =>
      have tasks : (p.discard name).tasks = (p.halt d).tasks := by simp only [discard, found]
      have board : (p.discard name).board = (p.halt d).board := by simp only [discard, found]
      refine numbered_of_halt h sound found tasks board fun n e _ => ?_
      rw [dashboard?_discard]
      split <;> simp_all

theorem numbered_stop (h : p.Numbered) (sound : p.Sound) {name : String} {d : Dashboard}
    (found : p.dashboard? name = some d) : (p.stop name d).Numbered := by
  refine numbered_of_halt h sound found rfl rfl fun n e on => ?_
  rw [dashboard?_stop]
  split
  · rename_i same
    -- The dashboard that was stopped is not `e`, which polls.
    refine iff_of_false (fun mine => ?_) (by simp [same])
    rw [← Option.some.inj mine] at on
    exact absurd on (by simp)
  · rename_i ne
    simp [ne]

theorem number?_start (p : Page) (name : String) {d : Dashboard} (off : d.running = none) (i : Nat) :
    (p.start name d).number? i = if i = p.tasks.length then some (p.board.run + 1) else p.number? i := by
  have tasks : (p.start name d).tasks =
      p.tasks ++ [.run { engine := d.engine, number := p.board.beginRun.run }] := by
    simp only [start, off]
    rfl
  rw [number?_of_append tasks]
  rfl

theorem dashboard?_start (p : Page) (name n : String) {d : Dashboard} (off : d.running = none) :
    (p.start name d).dashboard? n = if n = name
      then some { d with running := some p.tasks.length, run := p.board.run + 1 }
      else p.dashboard? n := by
  simp only [start, off]
  exact dashboard?_putDashboard _ name n _

theorem board_start (p : Page) (name : String) {d : Dashboard} (off : d.running = none) :
    (p.start name d).board = p.board.beginRun := by
  simp only [start, off]
  rfl

theorem start_of_running (p : Page) (name : String) {d : Dashboard} (on : d.running.isSome) :
    p.start name d = p := by
  simp [start, on]

theorem numbered_start (h : p.Numbered) (name : String) (d : Dashboard) : (p.start name d).Numbered := by
  cases off : d.running with
  | some task =>
      rw [start_of_running p name (by simp [off])]
      exact h
  | none =>
      have run : (p.start name d).board.run = p.board.run + 1 := by rw [board_start p name off]; rfl
      have last : p.number? p.tasks.length = none := by simp [number?]
      have fresh {i n : Nat} (here : p.number? i = some n) : n ≠ p.board.run + 1 := by
        have := h.begun i n here
        omega
      refine ⟨fun i n here => ?_, fun i j n here there => ?_, fun n e i mine running => ?_, ?_⟩
      · rw [number?_start p name off] at here
        rw [run]
        split at here
        · exact Nat.le_of_eq (Option.some.inj here).symm
        · exact Nat.le_succ_of_le (h.begun i n here)
      · rw [number?_start p name off] at here there
        split at here
        · rename_i isLast
          split at there
          · rename_i isLast'
            exact isLast.trans isLast'.symm
          · exact absurd (Option.some.inj here).symm (fresh there)
        · split at there
          · exact absurd (Option.some.inj there).symm (fresh here)
          · exact h.unique i j n here there
      · rw [dashboard?_start p name n off] at mine
        rw [number?_start p name off]
        split at mine
        · obtain rfl := Option.some.inj mine
          rw [if_pos (Option.some.inj running).symm]
        · have number := h.known n e i mine running
          rw [if_neg fun same => by simp [same, last] at number]
          exact number
      · refine iff_of_true (by rw [board_start p name off]; rfl) ?_
        exact ⟨name, _, (dashboard?_start p name name off).trans (if_pos rfl), rfl, run.symm⟩

theorem numbered_create (h : p.Numbered) (sound : p.Sound) (name : String) (config : Option String) :
    (p.create name config).1.Numbered := by
  rcases p.create_cases name config with ⟨log, fault, eq⟩ | ⟨log, settings, e, -, eq⟩
  · rw [eq]
    exact numbered_of_same h (fun _ => rfl) rfl fun _ _ _ => Iff.rfl
  · have larger : ({ p with log, engines := p.engines ++ [e] } : Page).Numbered :=
      numbered_of_same h (fun _ => rfl) rfl fun _ _ _ => Iff.rfl
    have logged : ({ p with log } : Page).Sound := sound_of_keeps sound (keeps_of_same rfl rfl rfl)
    have left := numbered_discard larger (sound_withEngine logged e) name
    rw [eq]
    -- The new dashboard comes in where none is, and does not poll.
    refine numbered_of_same left (fun _ => rfl) rfl fun n d on => ?_
    rw [dashboard?_putDashboard, dashboard?_discard]
    split
    · refine iff_of_false (fun mine => ?_) (by simp)
      rw [← Option.some.inj mine] at on
      exact absurd on (by simp)
    · exact Iff.rfl

theorem numbered_pledge (h : p.Numbered) (d : Dashboard) (purpose : Purpose) :
    (p.pledge d purpose).1.Numbered := by
  refine numbered_of_same h (fun i => ?_) rfl fun _ _ _ => Iff.rfl
  rw [number?_of_append (p := p) rfl]
  split
  · rename_i last
    simp [last, number?, Task.number?]
  · rfl

theorem numbered_perform (h : p.Numbered) (sound : p.Sound) (ev : Event) : (p.perform ev).Numbered := by
  cases controls : ev.controls with
  | false =>
      exact numbered_of_keeps h sound (keeps_perform p controls) (sameFlag_perform h sound controls)
  | true =>
      cases ev with
      | create name config => exact numbered_create h sound name config
      | start name => exact onDashboard_induction h fun d _ => numbered_start h name d
      | stop name => exact onDashboard_induction h fun _ found => numbered_stop h sound found
      | drop name => exact numbered_discard h sound name
      | pledge name purpose => exact onDashboard_induction h fun d _ => numbered_pledge h d purpose
      | _ => exact absurd controls (by simp [Event.controls])

theorem numbered_after (h : p.Numbered) (sound : p.Sound) (es : List Event) : (p.after es).Numbered := by
  have both : (p.after es).Numbered ∧ (p.after es).Sound :=
    after_induction (motive := fun q => q.Numbered ∧ q.Sound) ⟨h, sound⟩
      (fun _ ev kept => ⟨numbered_perform kept.1 kept.2 ev, sound_perform kept.2 ev⟩) es
  exact both.1

theorem numbered_opened (clock : Millis) (storage : Store) (access : Access) :
    (opened clock storage access).Numbered := by
  refine ⟨fun i n here => absurd here ?_, fun i j n here => absurd here ?_,
    fun name d i found => absurd found ?_, iff_of_false ?_ ?_⟩
  · simp [opened, number?]
  · simp [opened, number?]
  · simp [opened, dashboard?]
  · simp [opened]
  · rintro ⟨name, d, found, -⟩
    exact absurd found (by simp [opened, dashboard?])

/-! ### One dashboard -/

theorem run_discard (p : Page) (name : String) : (p.discard name).board.run = p.board.run := by
  unfold discard
  split
  · rfl
  · exact run_halt p _

theorem sole_of_fewer {name : String} (sole : p.Sole name) (run : q.board.run = p.board.run)
    (fewer : ∀ n e, q.dashboard? n = some e →
      p.dashboard? n = some e ∨ n = name ∧ e.running = none) : q.Sole name := by
  refine ⟨fun n e mine => ?_, fun n e mine on => ?_⟩
  · rcases fewer n e mine with old | ⟨same, -⟩
    · exact sole.alone n e old
    · exact same
  · rcases fewer n e mine with old | ⟨-, off⟩
    · rw [run]
      exact sole.newest n e old on
    · exact absurd on (by simp [off])

theorem sole_discard {name : String} (sole : p.Sole name) (n : String) : (p.discard n).Sole name := by
  refine sole_of_fewer sole (run_discard p n) fun m e mine => ?_
  rw [dashboard?_discard] at mine
  split at mine
  · exact absurd mine (by simp)
  · exact .inl mine

theorem sole_create {name : String} (sole : p.Sole name) (config : Option String) :
    (p.create name config).1.Sole name := by
  rcases p.create_cases name config with ⟨log, fault, eq⟩ | ⟨log, settings, e, -, eq⟩
  · rw [eq]
    exact ⟨sole.alone, sole.newest⟩
  · have larger : ({ p with log, engines := p.engines ++ [e] } : Page).Sole name :=
      ⟨sole.alone, sole.newest⟩
    rw [eq]
    refine sole_of_fewer (sole_discard larger name) rfl fun n d mine => ?_
    rw [dashboard?_putDashboard] at mine
    split at mine
    · exact .inr ⟨‹_›, Option.some.inj mine ▸ rfl⟩
    · exact .inl mine

theorem sole_stop {name n : String} {d : Dashboard} (sole : p.Sole name)
    (found : p.dashboard? n = some d) : (p.stop n d).Sole name := by
  refine sole_of_fewer sole (run_halt p d) fun m e mine => ?_
  rw [dashboard?_stop] at mine
  split at mine
  · rename_i same
    exact .inr ⟨same ▸ sole.alone n d found, Option.some.inj mine ▸ rfl⟩
  · exact .inl mine

theorem sole_start {name n : String} {d : Dashboard} (sole : p.Sole name)
    (found : p.dashboard? n = some d) : (p.start n d).Sole name := by
  cases off : d.running with
  | some task =>
      rw [start_of_running p n (by simp [off])]
      exact sole
  | none =>
      have mine := sole.alone n d found
      have only {m : String} {e : Dashboard} (here : (p.start n d).dashboard? m = some e) :
          m = n ∧ e.run = p.board.run + 1 := by
        rw [dashboard?_start p n m off] at here
        split at here
        · exact ⟨‹_›, Option.some.inj here ▸ rfl⟩
        · rename_i ne
          exact absurd ((sole.alone m e here).trans mine.symm) ne
      refine ⟨fun m e here => (only here).1.trans mine, fun m e here _ => ?_⟩
      rw [(only here).2, board_start p n off]
      rfl

/-- An event that makes no dashboard of another name keeps a dashboard alone. -/
theorem sole_perform (h : p.Numbered) (sound : p.Sound) {name : String} (sole : p.Sole name) {ev : Event}
    (made : ∀ n config, ev = .create n config → n = name) : (p.perform ev).Sole name := by
  cases controls : ev.controls with
  | false =>
      have kept := keeps_perform p controls
      refine sole_of_fewer sole (sameFlag_perform h sound controls).run fun n e mine => .inl ?_
      rwa [dashboard?, kept.dashboards] at mine
  | true =>
      have acted {n : String} {act : Dashboard → Page}
          (all : ∀ d, p.dashboard? n = some d → (act d).Sole name) : (p.onDashboard n act).Sole name :=
        onDashboard_induction (motive := fun q => q.Sole name) sole all
      cases ev with
      | create n config =>
          obtain rfl := made n config rfl
          exact sole_create sole config
      | start n => exact acted fun _ found => sole_start sole found
      | stop n => exact acted fun _ found => sole_stop sole found
      | drop n => exact sole_discard sole n
      | pledge n purpose => exact acted fun _ _ => ⟨sole.alone, sole.newest⟩
      | _ => exact absurd controls (by simp [Event.controls])

theorem sole_after (h : p.Numbered) (sound : p.Sound) {name : String} (sole : p.Sole name)
    {es : List Event} (made : ∀ n config, .create n config ∈ es → n = name) :
    (p.after es).Sole name := by
  induction es generalizing p with
  | nil => exact sole
  | cons ev es ih =>
      refine ih (numbered_perform h sound ev) (sound_perform sound ev) ?_
        fun n config later => made n config (List.mem_cons_of_mem ev later)
      exact sole_perform h sound sole fun n config eq => made n config (eq ▸ List.mem_cons_self)

theorem running_of_view {d : Dashboard} {v : DashboardView} (seen : p.view? d = some v) :
    v.running = d.running.isSome := by
  obtain ⟨e, -, rfl⟩ := Option.map_eq_some_iff.mp seen
  rfl

/-- **The polling flag tells the truth.** Whatever has happened on a page since it was opened, with runs
ending as late as they like and in any order, the flag is on just if a dashboard polls by the newest run.
And if every dashboard that was made has the one name, then the flag says whether the dashboard of that
name is running, and is off when there is none. -/
theorem polling_flag_tells_the_truth (clock : Millis) (storage : Store) (access : Access)
    (es : List Event) :
    let p := (opened clock storage access).after es
    (p.board.polling = true ↔
      ∃ name d, p.dashboard? name = some d ∧ d.running.isSome ∧ d.run = p.board.run) ∧
    ∀ name, (∀ n config, .create n config ∈ es → n = name) →
      (∀ d, p.dashboard? name = some d → ∃ v, p.view? d = some v ∧ p.board.polling = v.running) ∧
      (p.dashboard? name = none → p.board.polling = false) := by
  intro p
  have start := sound_opened clock storage access
  have sound : p.Sound := sound_after start es
  have numbered : p.Numbered := numbered_after (numbered_opened clock storage access) start es
  refine ⟨numbered.flag, fun name made => ?_⟩
  have begun : (opened clock storage access).Sole name := by
    constructor <;> intro n d found <;> exact absurd found (by simp [opened, dashboard?])
  have sole : p.Sole name := sole_after (numbered_opened clock storage access) start begun made
  refine ⟨fun d found => ?_, fun absent => ?_⟩
  · obtain ⟨v, seen, -, -⟩ := exists_view (List.getElem?_eq_getElem (sound.known name d found))
    refine ⟨v, seen, ?_⟩
    rw [running_of_view seen, Bool.eq_iff_iff, numbered.flag]
    constructor
    · rintro ⟨n, e, mine, on, -⟩
      obtain rfl := sole.alone n e mine
      exact Option.some.inj (found.symm.trans mine) ▸ on
    · exact fun on => ⟨name, d, found, on, sole.newest name d found on⟩
  · rw [← Bool.not_eq_true, numbered.flag]
    rintro ⟨n, e, mine, -, -⟩
    obtain rfl := sole.alone n e mine
    exact absurd (absent.symm.trans mine) (by simp)

/-- A dashboard is started again before its first run has ended. -/
def restarted : List Event :=
  [.create "main" none, .start "main", .stir 0, .stop "main", .start "main"]

/-- The end of the first run leaves the flag on, which is off after the dashboard is dropped. -/
theorem polling_of_restarted :
    let p := (opened 5000 { entries := [] } .granted).after (restarted ++ [.stir 0])
    let q := (opened 5000 { entries := [] } .granted).after (restarted ++ [.stir 0, .drop "main", .stir 1])
    p.number? 0 = none ∧ p.board.polling = true ∧
      (∃ d v, p.dashboard? "main" = some d ∧ p.view? d = some v ∧ v.running = true) ∧
      q.board.polling = false := by
  intro p q
  obtain ⟨flag, single⟩ := polling_flag_tells_the_truth 5000 { entries := [] } .granted
    (restarted ++ [.stir 0])
  obtain ⟨-, gone⟩ := polling_flag_tells_the_truth 5000 { entries := [] } .granted
    (restarted ++ [.stir 0, .drop "main", .stir 1])
  have on : p.board.polling = true := flag.mpr ⟨"main", ⟨0, some 1, 2⟩, rfl, rfl, rfl⟩
  obtain ⟨v, seen, running⟩ := (single "main" (by simp [restarted])).1 ⟨0, some 1, 2⟩ rfl
  exact ⟨rfl, on, ⟨_, v, rfl, seen, running.symm.trans on⟩,
    (gone "main" (by simp [restarted])).2 rfl⟩

end Page
end Browser
end MinerWatch
