import MinerWatch.Proofs.Browser.Frame
/-!
Starting is exclusive, and stopping is final.

A dashboard is known by its engine, which it has to itself. `Sound` says of a page that the runs that
nobody has aborted are just those which the dashboards know as theirs. Every event keeps this
(`sound_perform`), so that a dashboard has one such run while it polls and none otherwise.

A run that was aborted, or has ended, is spent for good (`spent_perform`). What concerns it is quiet:
its turns, the ticks of its interval, and the answers that are still to come.
-/

namespace MinerWatch.Browser

/-- The engine that a task polls for, if it is a run that nobody has aborted. -/
def Task.polls? : Task → Option Nat
  | .run r => if r.aborted then none else some r.engine
  | _ => none

/-- The task is a run that was aborted, or it has ended. -/
def Task.Spent : Task → Prop
  | .run r => r.aborted = true
  | .pledge _ => False
  | .finished => True

/-- The task that an event is about: it has a turn, its interval ticks, or its answer has come. -/
def Event.task? (p : Page) : Event → Option Nat
  | .stir task => some task
  | .tick place => p.timers[place]?.map (·.task)
  | .respond index _ => (p.requests[index]?.bind (·.waiter)).map (·.task)
  | _ => none

theorem Task.Becomes.polls? {t u : Task} (h : t.Becomes u) : u.polls? = t.polls? := by
  cases h with
  | stays => rfl
  | loops => rfl
  | ends aborted => simp [Task.polls?, aborted]
  | sends => rfl
  | settles => rfl

theorem Task.Becomes.spent {t u : Task} (h : t.Becomes u) (spent : t.Spent) : u.Spent := by
  cases h with
  | stays => exact spent
  | loops => exact spent
  | ends => trivial
  | sends => exact spent
  | settles => trivial

@[simp] theorem Task.polls?_abort (t : Task) : t.abort.polls? = none := by
  cases t <;> rfl

theorem Task.spent_abort {t : Task} (spent : t.Spent) : t.abort.Spent := by
  cases t with
  | run r => rfl
  | pledge w => exact spent
  | finished => exact spent

namespace Page

/-- The engine that the task at a place polls for. -/
def polls? (p : Page) (i : Nat) : Option Nat :=
  p.tasks[i]?.bind Task.polls?

def Spent (p : Page) (i : Nat) : Prop :=
  ∃ t, p.tasks[i]? = some t ∧ t.Spent

/-- The dashboards have engines of their own, and know the runs that nobody has aborted as theirs. -/
structure Sound (p : Page) : Prop where
  known : ∀ name d, p.dashboard? name = some d → d.engine < p.engines.length
  apart : ∀ name other d e, p.dashboard? name = some d → p.dashboard? other = some e →
    d.engine = e.engine → name = other
  polling : ∀ i k, p.polls? i = some k ↔
    ∃ name d, p.dashboard? name = some d ∧ d.engine = k ∧ d.running = some i

variable {p q : Page}

/-! ### Which runs are on -/

theorem Keeps.polls? (h : p.Keeps q) (i : Nat) : q.polls? i = p.polls? i := by
  have becomes := h.tasks i
  unfold Page.polls?
  generalize p.tasks[i]? = t at becomes
  generalize q.tasks[i]? = u at becomes
  cases becomes with
  | none => rfl
  | some b => exact b.polls?

theorem polls?_halt (p : Page) (d : Dashboard) (i : Nat) :
    (p.halt d).polls? i = if d.running = some i then none else p.polls? i := by
  unfold polls?
  rw [getElem?_halt]
  split
  · cases p.tasks[i]? with
    | none => rfl
    | some t => exact t.polls?_abort
  · rfl

theorem polls?_of_append {t : Task} (tasks : q.tasks = p.tasks ++ [t]) (i : Nat) :
    q.polls? i = if i = p.tasks.length then t.polls? else p.polls? i := by
  rw [polls?, getElem?_of_append tasks]
  split <;> rfl

theorem polls?_length (p : Page) : p.polls? p.tasks.length = none := by
  simp [polls?]

/-! ### Dashboards and their runs -/

/-- The run that a dashboard knows as its own is on. -/
theorem Sound.polls?_of_running (h : p.Sound) {name : String} {d : Dashboard}
    (found : p.dashboard? name = some d) {i : Nat} (running : d.running = some i) :
    p.polls? i = some d.engine :=
  (h.polling i d.engine).mpr ⟨name, d, found, rfl, running⟩

theorem sound_of_keeps (h : p.Sound) (kept : p.Keeps q) : q.Sound := by
  have same : q.dashboard? = p.dashboard? := by
    funext name
    rw [dashboard?, kept.dashboards, dashboard?]
  refine ⟨fun name d found => ?_, fun name other d e => ?_, fun i k => ?_⟩
  · rw [kept.engines]
    exact h.known name d (same ▸ found)
  · rw [same]
    exact h.apart name other d e
  · rw [kept.polls?, same]
    exact h.polling i k

/-- A dashboard with another name knows a run on an engine as its own. -/
def Elsewhere (p : Page) (name : String) (i k : Nat) : Prop :=
  ∃ n d, n ≠ name ∧ p.dashboard? n = some d ∧ d.engine = k ∧ d.running = some i

/-- What is on is on for a dashboard or elsewhere. -/
theorem Sound.polling_iff (h : p.Sound) {name : String} {d : Dashboard}
    (found : p.dashboard? name = some d) (i k : Nat) :
    p.polls? i = some k ↔ (d.engine = k ∧ d.running = some i) ∨ p.Elsewhere name i k := by
  rw [h.polling]
  constructor
  · rintro ⟨n, e, mine, engine, running⟩
    by_cases same : n = name
    · obtain rfl := Option.some.inj (found.symm.trans (same ▸ mine))
      exact .inl ⟨engine, running⟩
    · exact .inr ⟨n, e, same, mine, engine, running⟩
  · rintro (⟨engine, running⟩ | ⟨n, e, -, mine, engine, running⟩)
    · exact ⟨name, d, found, engine, running⟩
    · exact ⟨n, e, mine, engine, running⟩

/-- After a halt, what is on is on elsewhere. -/
theorem Sound.polling_halt (h : p.Sound) {name : String} {d : Dashboard}
    (found : p.dashboard? name = some d) (i k : Nat) :
    (p.halt d).polls? i = some k ↔ p.Elsewhere name i k := by
  rw [polls?_halt]
  constructor
  · intro on
    split at on
    · exact absurd on (by simp)
    · rename_i other
      exact ((h.polling_iff found i k).mp on).resolve_left fun mine => other mine.2
  · intro elsewhere
    have on := (h.polling_iff found i k).mpr (.inr elsewhere)
    rw [if_neg, on]
    -- A run that this dashboard knew as its own would be on for two engines, or for two dashboards.
    intro halted
    obtain ⟨n, e, ne, yours, engine, -⟩ := elsewhere
    have mine := (h.polling_iff found i d.engine).mpr (.inl ⟨rfl, halted⟩)
    have engines : e.engine = d.engine := engine.trans (Option.some.inj (on.symm.trans mine))
    exact ne (h.apart n name e d yours found engines)

/-- A page stays sound when a dashboard comes in under a name, if it shares its engine with none of
another name and knows what is on for it. -/
theorem sound_of_put (h : p.Sound) (name : String) {e : Dashboard}
    (dashboards : ∀ n, q.dashboard? n = if n = name then some e else p.dashboard? n)
    (engines : p.engines.length ≤ q.engines.length) (own : e.engine < q.engines.length)
    (alone : ∀ n d, n ≠ name → p.dashboard? n = some d → d.engine ≠ e.engine)
    (polling : ∀ i k, q.polls? i = some k ↔
      (e.engine = k ∧ e.running = some i) ∨ p.Elsewhere name i k) : q.Sound := by
  refine ⟨fun n d mine => ?_, fun n m d f mine yours same => ?_, fun i k => ?_⟩
  · rw [dashboards] at mine
    split at mine
    · exact Option.some.inj mine ▸ own
    · exact Nat.lt_of_lt_of_le (h.known n d mine) engines
  · rw [dashboards] at mine yours
    split at mine
    · rename_i named
      split at yours
      · rename_i named'
        exact named.trans named'.symm
      · rename_i other
        rw [← Option.some.inj mine] at same
        exact absurd same.symm (alone m f other yours)
    · rename_i other
      split at yours
      · rw [← Option.some.inj yours] at same
        exact absurd same (alone n d other mine)
      · exact h.apart n m d f mine yours same
  · rw [polling]
    constructor
    · rintro (⟨engine, running⟩ | ⟨n, d, ne, mine, engine, running⟩)
      · exact ⟨name, e, by simp [dashboards], engine, running⟩
      · exact ⟨n, d, by simp [dashboards, ne, mine], engine, running⟩
    · rintro ⟨n, d, mine, engine, running⟩
      rw [dashboards] at mine
      split at mine
      · obtain rfl := Option.some.inj mine
        exact .inl ⟨engine, running⟩
      · rename_i ne
        exact .inr ⟨n, d, ne, mine, engine, running⟩

theorem Sound.alone (h : p.Sound) {name : String} {d : Dashboard} (found : p.dashboard? name = some d)
    (n : String) (e : Dashboard) (ne : n ≠ name) (mine : p.dashboard? n = some e) :
    e.engine ≠ d.engine :=
  fun same => ne (h.apart n name e d mine found same)

@[simp] theorem engines_discard (p : Page) (name : String) : (p.discard name).engines = p.engines := by
  unfold discard
  split
  · rfl
  · exact engines_halt _ _

theorem sound_discard (h : p.Sound) (name : String) : (p.discard name).Sound := by
  cases found : p.dashboard? name with
  | none =>
      have same : p.discard name = p := by simp only [discard, found]
      rw [same]
      exact h
  | some d =>
      have halted (i : Nat) : (p.discard name).polls? i = (p.halt d).polls? i := by
        simp only [discard, found, polls?]
      refine ⟨fun n e mine => ?_, fun n m e f mine yours => ?_, fun i k => ?_⟩
      · rw [dashboard?_discard] at mine
        rw [engines_discard]
        split at mine
        · exact absurd mine (by simp)
        · exact h.known n e mine
      · rw [dashboard?_discard] at mine yours
        split at mine
        · exact absurd mine (by simp)
        · split at yours
          · exact absurd yours (by simp)
          · exact h.apart n m e f mine yours
      · rw [halted, h.polling_halt found]
        simp only [dashboard?_discard]
        constructor
        · rintro ⟨n, e, ne, mine, engine, running⟩
          exact ⟨n, e, by simp [ne, mine], engine, running⟩
        · rintro ⟨n, e, mine, engine, running⟩
          split at mine
          · exact absurd mine (by simp)
          · rename_i ne
            exact ⟨n, e, ne, mine, engine, running⟩

theorem sound_stop (h : p.Sound) {name : String} {d : Dashboard} (found : p.dashboard? name = some d) :
    (p.stop name d).Sound := by
  have engines : (p.stop name d).engines = p.engines := engines_halt p d
  refine sound_of_put h name (e := { d with running := none }) (fun n => dashboard?_stop p name n d)
    (engines ▸ Nat.le_refl _) (engines ▸ h.known name d found)
    (fun n e ne mine => h.alone found n e ne mine) fun i k => ?_
  have halted : (p.stop name d).polls? i = (p.halt d).polls? i := rfl
  rw [halted, h.polling_halt found]
  simp

@[simp] theorem engines_start (p : Page) (name : String) (d : Dashboard) :
    (p.start name d).engines = p.engines := by
  unfold start
  split <;> rfl

theorem polls?_start (p : Page) (name : String) {d : Dashboard} (off : d.running = none) (i : Nat) :
    (p.start name d).polls? i = if i = p.tasks.length then some d.engine else p.polls? i := by
  have tasks : (p.start name d).tasks =
      p.tasks ++ [.run { engine := d.engine, number := p.board.beginRun.run }] := by
    simp only [start, off]
    rfl
  rw [polls?_of_append tasks]
  rfl

theorem sound_start (h : p.Sound) {name : String} {d : Dashboard} (found : p.dashboard? name = some d) :
    (p.start name d).Sound := by
  cases running : d.running with
  | some task =>
      have same : p.start name d = p := by simp [start, running]
      rw [same]
      exact h
  | none =>
      refine sound_of_put h name
        (e := { d with running := some p.tasks.length, run := p.board.beginRun.run }) (fun n => ?_)
        (by simp) (by simpa using h.known name d found) (fun n e ne mine => h.alone found n e ne mine)
        fun i k => ?_
      · simp only [start, running]
        exact dashboard?_putDashboard _ name n _
      · have others := h.polling_iff found i k
        rw [running] at others
        rw [polls?_start p name running]
        split
        · -- The new run is the one that this dashboard has begun; none was known at its place.
          rename_i last
          rw [last, polls?_length] at others
          have nowhere : ¬ p.Elsewhere name p.tasks.length k := by simpa using others
          simp [last, nowhere]
        · rename_i old
          simpa [Ne.symm old] using others

theorem sound_pledge (h : p.Sound) (d : Dashboard) (purpose : Purpose) :
    (p.pledge d purpose).1.Sound := by
  refine ⟨h.known, h.apart, fun i k => ?_⟩
  rw [polls?_of_append (p := p) rfl]
  split
  · rename_i last
    have off := h.polling p.tasks.length k
    rw [polls?_length] at off
    exact last ▸ off
  · exact h.polling i k

/-- A new engine disturbs nothing. -/
theorem sound_withEngine (h : p.Sound) (e : Engine) :
    ({ p with engines := p.engines ++ [e] } : Page).Sound :=
  ⟨fun n d found => by simpa using Nat.lt_succ_of_lt (h.known n d found), h.apart, h.polling⟩

/-- A dashboard comes in with a new engine, and nothing is on for it. -/
theorem sound_enter (h : p.Sound) (e : Engine) (name : String) :
    (({ p with engines := p.engines ++ [e] }.discard name).putDashboard name
      { engine := p.engines.length }).Sound := by
  have left := sound_discard (sound_withEngine h e) name
  refine sound_of_put left name (fun n => dashboard?_putDashboard _ name n _) (Nat.le_refl _) ?_
    (fun n d ne mine => ?_) fun i k => ?_
  · simp [putDashboard]
  · rw [dashboard?_discard, if_neg ne] at mine
    exact Nat.ne_of_lt (h.known n d mine)
  · refine (left.polling i k).trans ?_
    simp only [dashboard?_discard, Elsewhere]
    constructor
    · rintro ⟨n, d, mine, engine, running⟩
      split at mine
      · exact absurd mine (by simp)
      · rename_i ne
        exact .inr ⟨n, d, ne, by simp [ne, mine], engine, running⟩
    · rintro (⟨-, running⟩ | ⟨n, d, -, mine, engine, running⟩)
      · exact absurd running (by simp)
      · exact ⟨n, d, mine, engine, running⟩

theorem sound_create (h : p.Sound) (name : String) (config : Option String) :
    (p.create name config).1.Sound := by
  rcases p.create_cases name config with ⟨log, fault, eq⟩ | ⟨log, settings, e, -, eq⟩
  · rw [eq]
    exact sound_of_keeps h (keeps_of_same rfl rfl rfl)
  · rw [eq]
    exact sound_enter (p := { p with log }) (sound_of_keeps h (keeps_of_same rfl rfl rfl)) e name

theorem sound_perform (h : p.Sound) (ev : Event) : (p.perform ev).Sound := by
  cases controls : ev.controls with
  | false => exact sound_of_keeps h (keeps_perform p controls)
  | true =>
      cases ev with
      | create name config => exact sound_create h name config
      | start name => exact onDashboard_induction h fun _ found => sound_start h found
      | stop name => exact onDashboard_induction h fun _ found => sound_stop h found
      | drop name => exact sound_discard h name
      | pledge name purpose => exact onDashboard_induction h fun d _ => sound_pledge h d purpose
      | _ => exact absurd controls (by simp [Event.controls])

theorem sound_after (h : p.Sound) (es : List Event) : (p.after es).Sound :=
  after_induction h (fun _ ev sound => sound_perform sound ev) es

theorem sound_opened (clock : Millis) (storage : Store) (access : Access) :
    (opened clock storage access).Sound := by
  refine ⟨fun name d found => absurd found ?_, fun name other d e found => absurd found ?_,
    fun i k => ?_⟩
  · simp [opened, dashboard?]
  · simp [opened, dashboard?]
  · simp [opened, polls?, dashboard?]

/-! ### Runs that have ended -/

theorem Keeps.spent (h : p.Keeps q) {i : Nat} (spent : p.Spent i) : q.Spent i := by
  obtain ⟨t, here, ended⟩ := spent
  have becomes := h.tasks i
  rw [here] at becomes
  generalize found : q.tasks[i]? = u at becomes
  cases becomes with
  | some b => exact ⟨_, found, b.spent ended⟩

theorem spent_of_append {ts : List Task} (tasks : q.tasks = p.tasks ++ ts) {i : Nat}
    (spent : p.Spent i) : q.Spent i := by
  obtain ⟨t, here, ended⟩ := spent
  obtain ⟨inside, -⟩ := List.getElem?_eq_some_iff.mp here
  exact ⟨t, by rw [tasks, List.getElem?_append_left inside, here], ended⟩

theorem spent_halt (d : Dashboard) {i : Nat} (spent : p.Spent i) : (p.halt d).Spent i := by
  obtain ⟨t, here, ended⟩ := spent
  unfold Spent
  rw [getElem?_halt, here]
  split
  · exact ⟨t.abort, rfl, t.spent_abort ended⟩
  · exact ⟨t, rfl, ended⟩

theorem spent_start (name : String) (d : Dashboard) {i : Nat} (spent : p.Spent i) :
    (p.start name d).Spent i := by
  unfold start
  split
  · exact spent
  · exact spent_of_append rfl spent

theorem spent_discard (name : String) {i : Nat} (spent : p.Spent i) : (p.discard name).Spent i := by
  unfold discard
  split
  · exact spent
  · exact spent_halt _ spent

theorem spent_create (name : String) (config : Option String) {i : Nat} (spent : p.Spent i) :
    (p.create name config).1.Spent i := by
  rcases p.create_cases name config with ⟨log, fault, eq⟩ | ⟨log, settings, e, -, eq⟩
  · rw [eq]
    exact spent
  · have same : ({ p with log, engines := p.engines ++ [e] } : Page).Spent i := spent
    rw [eq]
    exact spent_discard name same

/-- What is spent stays spent. -/
theorem spent_perform (ev : Event) {i : Nat} (spent : p.Spent i) : (p.perform ev).Spent i := by
  cases controls : ev.controls with
  | false => exact (keeps_perform p controls).spent spent
  | true =>
      have acted {n : String} {act : Dashboard → Page}
          (all : ∀ d, p.dashboard? n = some d → (act d).Spent i) : (p.onDashboard n act).Spent i :=
        onDashboard_induction (motive := fun q => q.Spent i) spent all
      cases ev with
      | create name config => exact spent_create name config spent
      | start name => exact acted fun d _ => spent_start name d spent
      | stop name =>
          refine acted fun d _ => ?_
          have halted : (p.halt d).Spent i := spent_halt d spent
          exact halted
      | drop name => exact spent_discard name spent
      | pledge name purpose => exact acted fun _ _ => spent_of_append rfl spent
      | _ => exact absurd controls (by simp [Event.controls])

theorem spent_after {i : Nat} (spent : p.Spent i) (es : List Event) : (p.after es).Spent i :=
  after_induction (motive := fun q => q.Spent i) spent (fun _ ev ended => spent_perform ev ended) es

theorem quiet_stir {i : Nat} (spent : p.Spent i) : p.Quiet (p.stir i) := by
  obtain ⟨t, here, ended⟩ := spent
  unfold stir
  rw [here]
  cases t with
  | run r =>
      have aborted : r.aborted = true := ended
      simp only [stirRun, aborted, if_true]
      exact quiet_finishRun p i r
  | pledge w => exact ended.elim
  | finished => exact .refl p

/-- The turn of a spent task has one piece. -/
theorem turn_of_spent {i : Nat} (spent : p.Spent i) : p.turn i = p.stir i := by
  obtain ⟨t, here, ended⟩ := spent
  unfold turn stir
  rw [here]
  cases t with
  | run r =>
      have aborted : r.aborted = true := ended
      simp only [turnRun, stirRun, aborted, if_true]
  | pledge w => exact ended.elim
  | finished => rfl

theorem quiet_turn {i : Nat} (spent : p.Spent i) : p.Quiet (p.turn i) :=
  turn_of_spent spent ▸ quiet_stir spent

/-- No event about a spent task does anything. -/
theorem quiet_perform {i : Nat} (spent : p.Spent i) {ev : Event} (about : ev.task? p = some i) :
    p.Quiet (p.perform ev) := by
  cases ev with
  | stir task => exact Option.some.inj about ▸ quiet_stir (Option.some.inj about ▸ spent)
  | tick place =>
      simp only [perform]
      split
      · exact quiet_fire p _
      · exact .refl p
  | respond index a => exact quiet_respond p index a
  | _ => exact absurd about (by simp [Event.task?])

/-! ### Answers that come late -/

theorem find?_set_of_neither {α : Type} {f : α → Bool} {l : List α} {i : Nat} {a b : α}
    (here : l[i]? = some a) (old : f a = false) (new : f b = false) :
    (l.set i b).find? f = l.find? f := by
  induction l generalizing i with
  | nil => rfl
  | cons c l ih =>
      cases i with
      | zero =>
          obtain rfl := Option.some.inj here
          rw [List.set_cons_zero, List.find?_cons_of_neg (by simpa using new),
            List.find?_cons_of_neg (by simpa using old)]
      | succ i =>
          rw [List.set_cons_succ, List.find?_cons, List.find?_cons, ih here]

/-- An answer to one task is not there for another. -/
theorem answer?_respond {index : Nat} {a : Answer} {i : Nat}
    (about : Event.task? p (.respond index a) = some i) {w : Waiter} (other : w.task ≠ i) :
    (p.respond index a).1.answer? w = p.answer? w := by
  unfold respond
  split
  · rename_i url waiter here
    have mine : waiter.task = i := by simpa [Event.task?, here] using about
    have ne : waiter ≠ w := fun same => other (same ▸ mine)
    have requests : ∀ q : Page, (q.wake waiter.task).requests = q.requests := by
      intro q
      unfold wake
      split <;> rfl
    simp only [answer?, requests]
    rw [find?_set_of_neither here (by simp) (by simp [ne])]
  · rfl

/-- **Starting is exclusive, and stopping is final.** Whatever has happened on a page, the runs that
nobody has aborted are those that the dashboards know as theirs: one for a dashboard that polls, none
for one that does not or has been dropped. And once nothing is on for an engine, the runs that it had
are quiet ever after, also after later starts: no turn, no tick and no answer of theirs sends a
request, changes an engine or the storage, or shows an outcome, and what answers them answers nobody
else. -/
theorem start_is_exclusive_and_stop_is_final (clock : Millis) (storage : Store) (access : Access)
    (es : List Event) :
    let p := (opened clock storage access).after es
    (∀ name d, p.dashboard? name = some d → ∀ i, p.polls? i = some d.engine ↔ d.running = some i) ∧
    ∀ k, (∀ name d, p.dashboard? name = some d → d.engine = k → d.running = none) →
      (∀ i, p.polls? i ≠ some k) ∧
      ∀ i r, p.tasks[i]? = some (.run r) → r.engine = k → ∀ later,
        let q := p.after later
        (∀ ev : Event, ev.task? q = some i → q.Quiet (q.perform ev)) ∧ q.Quiet (q.turn i) ∧
        ∀ index a, Event.task? q (.respond index a) = some i → ∀ w : Waiter, w.task ≠ i →
          (q.respond index a).1.answer? w = q.answer? w := by
  intro p
  have sound : p.Sound := sound_after (sound_opened clock storage access) es
  refine ⟨fun name d found i => ?_, fun k idle => ?_⟩
  · rw [sound.polling_iff found]
    constructor
    · rintro (⟨-, running⟩ | ⟨n, e, ne, yours, engine, -⟩)
      · exact running
      · exact absurd engine (sound.alone found n e ne yours)
    · exact fun running => .inl ⟨rfl, running⟩
  · have off (i : Nat) : p.polls? i ≠ some k := by
      intro on
      obtain ⟨name, d, found, engine, running⟩ := (sound.polling i k).mp on
      exact absurd (running.symm.trans (idle name d found engine)) (by simp)
    refine ⟨off, fun i r here engine later => ?_⟩
    have aborted : r.aborted = true := by
      by_contra on
      exact off i (by simp [polls?, here, Task.polls?, on, engine])
    have spent : (p.after later).Spent i := spent_after ⟨_, here, aborted⟩ later
    exact ⟨fun ev about => quiet_perform spent about, quiet_turn spent,
      fun index a about w other => answer?_respond about other⟩

/-- A dashboard is stopped while its first request is out. -/
def interrupted : Page :=
  (opened 5000 { entries := [] } .granted).after
    [.create "main" none, .start "main", .stir 0, .stir 0, .stop "main"]

/-- The dashboard of `interrupted` is started again, and when the new run has sent a request too, the
first one is answered. -/
def resumed : Page :=
  interrupted.after [.start "main", .stir 1, .stir 1, .respond 0 (.replied 200 "OK" "\x7b\x7d")]

/-- The turn after the late answer does nothing, while the new run is on. -/
theorem quiet_stir_resumed :
    resumed.polls? 1 = some 0 ∧ (resumed.answer? ⟨0, 1⟩).isSome ∧
      resumed.Quiet (resumed.perform (.stir 0)) := by
  obtain ⟨-, stopped⟩ := start_is_exclusive_and_stop_is_final 5000 { entries := [] } .granted
    [.create "main" none, .start "main", .stir 0, .stir 0, .stop "main"]
  have dashboards : interrupted.dashboards = [("main", ⟨0, none, 1⟩)] := rfl
  have idle (name : String) (d : Dashboard) (found : interrupted.dashboard? name = some d)
      (_ : d.engine = 0) : d.running = none := by
    rw [dashboard?, dashboards, List.lookup_cons] at found
    split at found
    · exact Option.some.inj found ▸ rfl
    · exact absurd found (by simp)
  obtain ⟨-, quiet⟩ := stopped 0 idle
  exact ⟨rfl, rfl, (quiet 0 _ rfl rfl _).1 (.stir 0) rfl⟩

end Page
end MinerWatch.Browser
