import Mathlib.Tactic.IntervalCases
import Xv6.Sched

/-!
# The multi-level feedback queue

The scheduling data of a process: its level, the ticks it has spent there, and the counts of system
calls that decide whether it is demoted. It is written in three places. `allocproc` sets it up under
`p->lock`. The boost in `clockintr` resets it, also under `p->lock`. The timer branch of `usertrap`
takes no lock at all, so another processor can boost a process that is in the middle of it.
`Xv6.Sched` is about what is decided and takes a tick as one step; here the subject is the race.

For this reason the timer branch is cut into its statements, and everything that holds `p->lock` is
one step. Every step works on one process, and `Entry` is all there is to know about it.

Two fields are not in the source: the number of user ticks since the process was created or reset by
a boost, and whether it has made no system call. `position` says where such a process has to be.
-/

namespace Xv6

/-- Where a process is in the timer branch of `usertrap`. A point stands before the statement it is
named after, and carries the local variables. -/
inductive Timer where
  /-- Not in the branch. -/
  | out
  /-- `p->ticks_at_level++` -/
  | count
  /-- `p->ticks_per_level[p->mlfq_level]++` -/
  | perLevel
  /-- `quantum = get_quantum(p->mlfq_level)` -/
  | quantum
  /-- `if(p->ticks_at_level >= quantum)` -/
  | expired (quantum : ℤ)
  /-- `delta_s = p->syscount - p->syscalls_at_level` -/
  | deltaS
  /-- `delta_t = p->ticks_at_level` -/
  | deltaT (deltaS : BitVec 32)
  /-- `if(delta_s < delta_t && p->mlfq_level < 3)` -/
  | busy (deltaS : BitVec 32) (deltaT : ℤ)
  /-- `p->mlfq_level++` -/
  | demote
  /-- `p->ticks_at_level = 0` -/
  | reset
  /-- `yield()` -/
  | yield
  deriving DecidableEq

/-- The scheduling data of a process. The counters that nothing bounds wrap. -/
structure Entry where
  state : ProcState
  mlfqLevel : ℤ
  ticksAtLevel : ℤ
  ticksPerLevel : ℤ → BitVec 32
  timesScheduled : BitVec 32
  syscount : BitVec 32
  syscallsAtLevel : BitVec 32
  timer : Timer
  /-- The user ticks since the process was created or was reset by a boost. -/
  since : ℕ
  /-- The process has made no system call. -/
  quiet : Bool

namespace Entry

/-- An entry of the process table when the machine starts. -/
def zero : Entry := ⟨.unused, 0, 0, fun _ => 0, 0, 0, 0, .out, 0, true⟩

/-- The part of `allocproc` that sets up an entry. -/
def alloc (e : Entry) : Entry :=
  { e with
    state := .used, syscount := 0, mlfqLevel := 0, ticksAtLevel := 0, ticksPerLevel := fun _ => 0
    timesScheduled := 0, syscallsAtLevel := 0, since := 0, quiet := true }

/-- What `scheduler` does to the process that it picks. -/
def dispatch (e : Entry) : Entry :=
  { e with
    state := .running, timesScheduled := e.timesScheduled + 1, syscallsAtLevel := e.syscount }

/-- `syscall` counts a system call. -/
def countCall (e : Entry) : Entry := { e with syscount := e.syscount + 1, quiet := false }

/-- A timer interrupt leads into the timer branch of `usertrap`. -/
def enter (e : Entry) : Entry := { e with timer := .count }

/-- What `clockintr` does to a process when it boosts. -/
def boost (e : Entry) : Entry :=
  if e.state = .runnable ∨ e.state = .running then
    { e with mlfqLevel := 0, ticksAtLevel := 0, since := 0 }
  else e

/-- The next statement of the timer branch. -/
def statement (e : Entry) : Option Entry :=
  match e.timer with
  | .out => none
  | .count => some { e with ticksAtLevel := e.ticksAtLevel + 1, timer := .perLevel }
  | .perLevel => some { e with
      ticksPerLevel := Function.update e.ticksPerLevel e.mlfqLevel
        (e.ticksPerLevel e.mlfqLevel + 1)
      timer := .quantum }
  | .quantum => some { e with timer := .expired (getQuantum e.mlfqLevel) }
  | .expired quantum =>
    if quantum ≤ e.ticksAtLevel then some { e with timer := .deltaS }
    else some { e with timer := .out, since := e.since + 1 }
  | .deltaS => some { e with timer := .deltaT (e.syscount - e.syscallsAtLevel) }
  | .deltaT deltaS => some { e with timer := .busy deltaS e.ticksAtLevel }
  | .busy deltaS deltaT =>
    if deltaS.toInt < deltaT ∧ e.mlfqLevel < 3 then some { e with timer := .demote }
    else some { e with timer := .reset }
  | .demote => some { e with mlfqLevel := e.mlfqLevel + 1, timer := .reset }
  | .reset => some { e with ticksAtLevel := 0, timer := .yield, since := e.since + 1 }
  | .yield => some { e with state := .runnable, timer := .out }

end Entry

/-- What happens to one process. -/
inductive Event where
  /-- `allocproc` takes the entry. -/
  | alloc
  /-- `allocproc` or `kfork` fails, and gives the entry back. -/
  | abandon
  /-- `kfork` or `userinit` makes the process runnable. -/
  | start
  /-- `scheduler` picks the process at a level. -/
  | dispatch (level : Fin 4)
  /-- `yield` outside of the timer branch. -/
  | giveUp
  | sleep
  /-- `wakeup` or `kkill`. -/
  | wakeup
  | exit
  /-- `kwait` frees the entry. -/
  | free
  /-- `syscall` counts a system call. -/
  | syscall
  /-- A timer interrupt in user code, of a process that is not killed. -/
  | tick
  /-- The next statement of the timer branch. -/
  | statement
  deriving DecidableEq

/-- Something that happens to a process in a state, outside of the timer branch. -/
def Entry.guard (state : ProcState) (f : Entry → Entry) (e : Entry) : Option Entry :=
  if e.state = state ∧ e.timer = .out then some (f e) else none

/-- A change of state. -/
def Entry.become (old new : ProcState) : Entry → Option Entry :=
  Entry.guard old fun e => { e with state := new }

/-- What an event does, if it can happen. -/
def Entry.step (e : Entry) : Event → Option Entry
  | .alloc => e.guard .unused Entry.alloc
  | .abandon => e.become .used .unused
  | .start => e.become .used .runnable
  | .dispatch level =>
    if e.mlfqLevel = level then e.guard .runnable Entry.dispatch else none
  | .giveUp => e.become .running .runnable
  | .sleep => e.become .running .sleeping
  | .wakeup => e.become .sleeping .runnable
  | .exit => e.become .running .zombie
  | .free => e.become .zombie .unused
  | .syscall => e.guard .running Entry.countCall
  | .tick => e.guard .running Entry.enter
  | .statement => e.statement

/-- The process table and the clock. -/
structure Mlfq where
  entry : Fin nproc → Entry
  /-- `ticks`. -/
  ticks : BitVec 32
  /-- The processes that the boost in `clockintr` has yet to visit. -/
  boosting : List (Fin nproc)

namespace Mlfq

/-- Power-on. -/
def start : Mlfq := ⟨fun _ => .zero, 0, []⟩

/-- Replace an entry. -/
def set (s : Mlfq) (p : Fin nproc) (e : Entry) : Mlfq :=
  { s with entry := Function.update s.entry p e }

/-- The steps of the system: something happens to a process, the clock of processor 0 ticks, or its
boost goes on to the next process. -/
inductive Move where
  | event (p : Fin nproc) (e : Event)
  | clock
  | boost
  deriving DecidableEq

def step : Move → Mlfq → Option Mlfq
  | .event p e, s => ((s.entry p).step e).map (s.set p)
  | .clock, s =>
    match s.boosting with
    | [] =>
      let ticks := s.ticks + 1
      let gboost := 0 < ticks ∧ ticks % 128 = 0
      some { s with ticks := ticks, boosting := if gboost then List.finRange nproc else [] }
    | _ :: _ => none
  | .boost, s =>
    match s.boosting with
    | [] => none
    | p :: rest => some { s.set p (s.entry p).boost with boosting := rest }

/-- The states that are reached by steps that meet the condition `P`. -/
inductive Reaches (P : Move → Mlfq → Prop) : Mlfq → Prop where
  | start : Reaches P start
  | step {s s' : Mlfq} {m : Move} (h : Reaches P s) (hm : P m s) (hstep : step m s = some s') :
    Reaches P s'

end Mlfq

/-! ### Where a process without system calls is -/

/-- The level and the ticks at it, after `t` ticks of a process that is demoted whenever its quantum
expires. -/
def position : ℕ → ℤ × ℤ
  | 0 => (0, 0)
  | t + 1 =>
    let (level, ticks) := position t
    if getQuantum level ≤ ticks + 1 then (if level < 3 then level + 1 else level, 0)
    else (level, ticks + 1)

/-- The level after `t` ticks: the quanta are 2, 4, 8 and 16. -/
def levelAfter (t : ℕ) : ℤ := if t < 2 then 0 else if t < 6 then 1 else if t < 14 then 2 else 3

theorem two_le_getQuantum (level : ℤ) : 2 ≤ getQuantum level := by
  rw [getQuantum]
  split_ifs <;> decide

theorem position_stay {t : ℕ} {level ticks : ℤ} (h : position t = (level, ticks))
    (hlt : ticks + 1 < getQuantum level) : position (t + 1) = (level, ticks + 1) := by
  rw [position, h]
  exact if_neg (not_le.mpr hlt)

theorem position_expire {t : ℕ} {level ticks : ℤ} (h : position t = (level, ticks))
    (hge : getQuantum level ≤ ticks + 1) :
    position (t + 1) = (if level < 3 then level + 1 else level, 0) := by
  rw [position, h]
  exact if_pos hge

/-- Nothing leads out of the last level but a boost. -/
theorem position_last (n : ℕ) : (position (14 + n)).1 = 3 := by
  induction n with
  | zero => decide
  | succ n ih =>
    cases hp : position (14 + n) with
    | mk level ticks =>
      rw [hp] at ih
      obtain rfl : level = 3 := ih
      rcases lt_or_ge (ticks + 1) (getQuantum 3) with hlt | hge
      · exact congrArg Prod.fst (position_stay hp hlt)
      · exact congrArg Prod.fst (position_expire hp hge)

theorem position_level (t : ℕ) : (position t).1 = levelAfter t := by
  rcases lt_or_ge t 14 with hlt | hge
  · interval_cases t <;> decide
  · obtain ⟨n, rfl⟩ := Nat.exists_eq_add_of_le hge
    rw [position_last, levelAfter, if_neg (by omega), if_neg (by omega), if_neg (by omega)]

/-! ### The invariant of a process -/

namespace Entry

variable {e e' : Entry} {level ticks : ℤ}

/-- The process has been accounted for up to `ticks` ticks at `level`. -/
structure At (e : Entry) (level ticks : ℤ) : Prop where
  level_nonneg : 0 ≤ level
  level_le : level ≤ 3
  ticks_nonneg : 0 ≤ ticks
  ticks_lt : ticks < getQuantum level
  quiet : e.quiet = true →
    e.syscount = e.syscallsAtLevel ∧ position e.since = (level, ticks)

/-- The data of `At` that the timer branch does not write before its end. -/
def account (e : Entry) : BitVec 32 × BitVec 32 × ℕ × Bool :=
  (e.syscount, e.syscallsAtLevel, e.since, e.quiet)

theorem At.congr (h : e.At level ticks) (hsame : e'.account = e.account) : e'.At level ticks := by
  simp only [account, Prod.mk.injEq] at hsame
  obtain ⟨hcount, hcalls, hsince, hquiet⟩ := hsame
  refine ⟨h.level_nonneg, h.level_le, h.ticks_nonneg, h.ticks_lt, fun hq => ?_⟩
  rw [hcount, hcalls, hsince]
  exact h.quiet (hquiet ▸ hq)

/-- The quantum has expired with the tick that is being accounted for. -/
structure Due (e : Entry) : Prop extends At e e.mlfqLevel (e.ticksAtLevel - 1) where
  expired : e.ticksAtLevel = getQuantum e.mlfqLevel

/-- The invariant of a process. In the timer branch, `p->ticks_at_level` is one ahead. -/
def Ok (e : Entry) : Prop :=
  match e.timer with
  | .out | .count | .yield => e.At e.mlfqLevel e.ticksAtLevel
  | .perLevel | .quantum => e.At e.mlfqLevel (e.ticksAtLevel - 1)
  | .expired quantum => e.At e.mlfqLevel (e.ticksAtLevel - 1) ∧ quantum = getQuantum e.mlfqLevel
  | .deltaS => e.Due
  | .deltaT deltaS => e.Due ∧ (e.quiet = true → deltaS = 0)
  | .busy deltaS deltaT => e.Due ∧ (e.quiet = true → deltaS = 0) ∧ deltaT = e.ticksAtLevel
  | .demote => e.Due ∧ e.mlfqLevel < 3
  | .reset => ∃ level, e.At level (getQuantum level - 1) ∧
      ((e.mlfqLevel = level ∧ (e.quiet = true → ¬level < 3)) ∨
        (e.mlfqLevel = level + 1 ∧ level < 3))

theorem Ok.at_out (h : e.Ok) (hout : e.timer = .out) : e.At e.mlfqLevel e.ticksAtLevel := by
  rw [Ok, hout] at h
  exact h

theorem ok_of_at (h : e.At e.mlfqLevel e.ticksAtLevel) (hout : e.timer = .out) : e.Ok := by
  rw [Ok, hout]
  exact h

theorem Ok.level_mem (h : e.Ok) : 0 ≤ e.mlfqLevel ∧ e.mlfqLevel ≤ 3 := by
  rw [Ok] at h
  split at h
  all_goals first
    | exact ⟨h.level_nonneg, h.level_le⟩
    | exact ⟨h.1.level_nonneg, h.1.level_le⟩
    | skip
  obtain ⟨level, hat, hnext⟩ := h
  have hnonneg := hat.level_nonneg
  have hle := hat.level_le
  omega

theorem At.expire (h : e.At level (getQuantum level - 1)) {next : ℤ}
    (hnext : (next = level ∧ (e.quiet = true → ¬level < 3)) ∨ (next = level + 1 ∧ level < 3))
    (hcount : e'.syscount = e.syscount) (hcalls : e'.syscallsAtLevel = e.syscallsAtLevel)
    (hquiet : e'.quiet = e.quiet) (hsince : e'.since = e.since + 1) : e'.At next 0 := by
  have hpos := two_le_getQuantum next
  have hnonneg := h.level_nonneg
  have hle := h.level_le
  refine ⟨by omega, by omega, le_rfl, by omega, fun hq => ?_⟩
  rw [hquiet] at hq
  obtain ⟨hsame, hposition⟩ := h.quiet hq
  have hexpire := position_expire hposition (by omega)
  rw [hcount, hcalls, hsince, hexpire]
  refine ⟨hsame, ?_⟩
  rcases hnext with ⟨rfl, hlast⟩ | ⟨rfl, hlt⟩
  · rw [if_neg (hlast hq)]
  · rw [if_pos hlt]

/-- **The statements of the timer branch** keep the invariant. -/
theorem statement_ok (h : e.Ok) (hs : e.statement = some e') : e'.Ok := by
  rw [Ok] at h
  rw [statement] at hs
  cases htimer : e.timer with simp only [htimer, Option.some.injEq, reduceCtorEq] at h hs
  | count =>
    subst hs
    have hsub : e.ticksAtLevel + 1 - 1 = e.ticksAtLevel := by omega
    change At _ e.mlfqLevel (e.ticksAtLevel + 1 - 1)
    rw [hsub]
    exact h.congr rfl
  | perLevel | yield =>
    subst hs
    exact h.congr rfl
  | quantum =>
    subst hs
    exact ⟨h.congr rfl, rfl⟩
  | expired quantum =>
    obtain ⟨hat, rfl⟩ := h
    have hlt := hat.ticks_lt
    split_ifs at hs with hge
    · obtain rfl := Option.some.inj hs
      exact ⟨hat.congr rfl, by dsimp only; omega⟩
    · obtain rfl := Option.some.inj hs
      have hnonneg := hat.ticks_nonneg
      refine ⟨hat.level_nonneg, hat.level_le, by dsimp only; omega, not_le.mp hge, fun hq => ?_⟩
      obtain ⟨hsame, hposition⟩ := hat.quiet hq
      have hstay := position_stay hposition (by omega)
      rw [sub_add_cancel] at hstay
      exact ⟨hsame, hstay⟩
  | deltaS =>
    subst hs
    refine ⟨⟨h.toAt.congr rfl, h.expired⟩, fun hq => ?_⟩
    rw [(h.quiet hq).1, BitVec.sub_self]
    rfl
  | deltaT deltaS =>
    subst hs
    obtain ⟨hdue, hzero⟩ := h
    exact ⟨⟨hdue.toAt.congr rfl, hdue.expired⟩, hzero, rfl⟩
  | busy deltaS deltaT =>
    obtain ⟨hdue, hzero, rfl⟩ := h
    have hticks := two_le_getQuantum e.mlfqLevel
    rw [← hdue.expired] at hticks
    split_ifs at hs with hdemote
    · obtain rfl := Option.some.inj hs
      exact ⟨⟨hdue.toAt.congr rfl, hdue.expired⟩, hdemote.2⟩
    · obtain rfl := Option.some.inj hs
      refine ⟨e.mlfqLevel, ?_, Or.inl ⟨rfl, fun hq hlt => hdemote ⟨?_, hlt⟩⟩⟩
      · rw [← hdue.expired]
        exact hdue.toAt.congr rfl
      · rw [hzero hq]
        change (0 : ℤ) < _
        omega
  | demote =>
    subst hs
    obtain ⟨hdue, hlt⟩ := h
    refine ⟨e.mlfqLevel, ?_, Or.inr ⟨rfl, hlt⟩⟩
    rw [← hdue.expired]
    exact hdue.toAt.congr rfl
  | reset =>
    subst hs
    obtain ⟨level, hat, hnext⟩ := h
    exact hat.expire hnext rfl rfl rfl rfl

theorem guard_eq_some {state : ProcState} {f : Entry → Entry} (hs : e.guard state f = some e') :
    e.state = state ∧ e.timer = .out ∧ f e = e' := by
  rw [guard] at hs
  split_ifs at hs with h
  exact ⟨h.1, h.2, Option.some.inj hs⟩

theorem become_ok {old new : ProcState} (h : e.Ok) (hs : e.become old new = some e') : e'.Ok := by
  obtain ⟨-, hout, rfl⟩ := guard_eq_some hs
  exact ok_of_at ((h.at_out hout).congr rfl) hout

theorem At.origin (h : e.quiet = true → e.syscount = e.syscallsAtLevel ∧ e.since = 0) :
    e.At 0 0 := by
  refine ⟨le_rfl, by decide, le_rfl, by decide, fun hq => ⟨(h hq).1, ?_⟩⟩
  rw [(h hq).2, position]

/-- **Every event** keeps the invariant. -/
theorem step_ok {ev : Event} (h : e.Ok) (hs : e.step ev = some e') : e'.Ok := by
  cases ev with
  | alloc =>
    obtain ⟨-, hout, rfl⟩ := guard_eq_some hs
    exact ok_of_at (At.origin fun _ => ⟨rfl, rfl⟩) hout
  | dispatch level =>
    rw [step] at hs
    split_ifs at hs with hlevel
    obtain ⟨-, hout, rfl⟩ := guard_eq_some hs
    have hat := h.at_out hout
    exact ok_of_at ⟨hat.level_nonneg, hat.level_le, hat.ticks_nonneg, hat.ticks_lt,
      fun hq => ⟨rfl, (hat.quiet hq).2⟩⟩ hout
  | syscall =>
    obtain ⟨-, hout, rfl⟩ := guard_eq_some hs
    have hat := h.at_out hout
    exact ok_of_at ⟨hat.level_nonneg, hat.level_le, hat.ticks_nonneg, hat.ticks_lt,
      nofun⟩ hout
  | tick =>
    obtain ⟨-, hout, rfl⟩ := guard_eq_some hs
    exact (h.at_out hout).congr rfl
  | statement => exact statement_ok h hs
  | abandon | start | giveUp | sleep | wakeup | exit | free => exact become_ok h hs

/-- **A boost** keeps the invariant if it does not hit the timer branch. -/
theorem boost_ok (h : e.Ok) (hout : e.timer = .out) : e.boost.Ok := by
  rw [boost]
  split_ifs with hstate
  · exact ok_of_at (At.origin fun hq => ⟨((h.at_out hout).quiet hq).1, rfl⟩) hout
  · exact h

/-! ### Changes of level -/

theorem statement_level (hs : e.statement = some e') : e'.mlfqLevel = e.mlfqLevel ∨
    (e.timer = .demote ∧ e'.mlfqLevel = e.mlfqLevel + 1) := by
  rw [statement] at hs
  cases htimer : e.timer with simp only [htimer, Option.some.injEq, reduceCtorEq] at hs
  | demote =>
    subst hs
    exact Or.inr ⟨rfl, rfl⟩
  | expired quantum | busy deltaS deltaT =>
    split_ifs at hs
    all_goals
      obtain rfl := Option.some.inj hs
      exact Or.inl rfl
  | _ =>
    subst hs
    exact Or.inl rfl

/-- **The level of a process** changes by one, at the end of a quantum. -/
theorem step_level {ev : Event} (h : e.Ok) (hs : e.step ev = some e') (hused : e.state ≠ .unused)
    (hne : e'.mlfqLevel ≠ e.mlfqLevel) : ev = .statement ∧
      e.ticksAtLevel = getQuantum e.mlfqLevel ∧ e'.mlfqLevel = e.mlfqLevel + 1 := by
  have hbecome : ∀ {old new : ProcState}, e.become old new = some e' →
      e'.mlfqLevel = e.mlfqLevel := fun hs => by
    obtain ⟨-, -, rfl⟩ := guard_eq_some hs
    rfl
  cases ev with
  | alloc => exact absurd (guard_eq_some hs).1 hused
  | dispatch level =>
    rw [step] at hs
    split_ifs at hs with hlevel
    obtain ⟨-, -, rfl⟩ := guard_eq_some hs
    exact absurd rfl hne
  | syscall | tick =>
    obtain ⟨-, -, rfl⟩ := guard_eq_some hs
    exact absurd rfl hne
  | statement =>
    obtain ⟨htimer, hup⟩ := (statement_level hs).resolve_left hne
    rw [Ok, htimer] at h
    exact ⟨rfl, h.1.expired, hup⟩
  | abandon | start | giveUp | sleep | wakeup | exit | free => exact absurd (hbecome hs) hne

theorem boost_level (e : Entry) : e.boost.mlfqLevel = e.mlfqLevel ∨ e.boost.mlfqLevel = 0 := by
  rw [boost]
  split_ifs
  · exact Or.inr rfl
  · exact Or.inl rfl

end Entry

/-! ### Whole runs -/

namespace Mlfq

variable {P : Move → Mlfq → Prop} {s s' : Mlfq} {p : Fin nproc}

@[simp] theorem set_entry_self (s : Mlfq) (p : Fin nproc) (e : Entry) :
    (s.set p e).entry p = e := by
  simp [set]

theorem set_entry_of_ne (s : Mlfq) {p q : Fin nproc} (e : Entry) (h : q ≠ p) :
    (s.set p e).entry q = s.entry q := by
  simp [set, h]

/-- **What a step does to a process**: nothing, an event, or a boost. -/
theorem step_entry {m : Move} (hs : step m s = some s') (p : Fin nproc) :
    s'.entry p = s.entry p ∨
      (∃ e, m = .event p e ∧ (s.entry p).step e = some (s'.entry p)) ∨
      (m = .boost ∧ s.boosting.head? = some p ∧ s'.entry p = (s.entry p).boost) := by
  cases m with
  | event q e =>
    obtain ⟨x, hx, rfl⟩ := Option.map_eq_some_iff.mp hs
    by_cases hp : p = q
    · subst hp
      rw [set_entry_self]
      exact Or.inr (Or.inl ⟨e, rfl, hx⟩)
    · exact Or.inl (set_entry_of_ne s x hp)
  | clock =>
    rw [step] at hs
    split at hs
    · obtain rfl := Option.some.inj hs
      exact Or.inl rfl
    · exact absurd hs (by simp)
  | boost =>
    rw [step] at hs
    split at hs
    · exact absurd hs (by simp)
    · next q rest hq =>
      obtain rfl := Option.some.inj hs
      by_cases hp : p = q
      · subst hp
        exact Or.inr (Or.inr ⟨rfl, by rw [hq]; rfl, set_entry_self s p _⟩)
      · exact Or.inl (set_entry_of_ne s _ hp)

/-- No boost falls into a timer branch. -/
def Apart (m : Move) (s : Mlfq) : Prop :=
  ∀ p, m = .boost → s.boosting.head? = some p → (s.entry p).timer = .out

theorem step_apart_ok {m : Move} (hm : Apart m s) (h : ∀ p, (s.entry p).Ok)
    (hs : step m s = some s') (p : Fin nproc) : (s'.entry p).Ok := by
  rcases step_entry hs p with hsame | ⟨e, -, he⟩ | ⟨hboost, hhead, heq⟩
  · rw [hsame]
    exact h p
  · exact Entry.step_ok (h p) he
  · rw [heq]
    exact Entry.boost_ok (h p) (hm p hboost hhead)

theorem Reaches.ok (h : Reaches Apart s) : ∀ p, (s.entry p).Ok := by
  induction h with
  | start => exact fun _ => Entry.ok_of_at (Entry.At.origin fun _ => ⟨rfl, rfl⟩) rfl
  | step _ hm hstep ih => exact step_apart_ok hm ih hstep

/-- The accounting invariant in a state. -/
def Accounted (s : Mlfq) : Prop :=
  ∀ p, (s.entry p).state ≠ .unused →
    (0 ≤ (s.entry p).mlfqLevel ∧ (s.entry p).mlfqLevel ≤ 3) ∧
    ((s.entry p).timer = .out →
      0 ≤ (s.entry p).ticksAtLevel ∧
      (s.entry p).ticksAtLevel < getQuantum (s.entry p).mlfqLevel) ∧
    ((s.entry p).timer = .out → (s.entry p).quiet = true →
      (s.entry p).mlfqLevel = levelAfter (s.entry p).since)

/-- The level of a process changes only by one when its quantum has expired, or to 0 by a boost. -/
def LevelStep (m : Move) (s s' : Mlfq) : Prop :=
  ∀ p, (s.entry p).state ≠ .unused → (s'.entry p).mlfqLevel ≠ (s.entry p).mlfqLevel →
    (m = .event p .statement ∧
      (s.entry p).ticksAtLevel = getQuantum (s.entry p).mlfqLevel ∧
      (s'.entry p).mlfqLevel = (s.entry p).mlfqLevel + 1) ∨
    (m = .boost ∧ s.boosting.head? = some p ∧ (s'.entry p).mlfqLevel = 0)

theorem accounted_of_ok (h : ∀ p, (s.entry p).Ok) : s.Accounted := by
  intro p _
  refine ⟨(h p).level_mem, fun hout => ?_, fun hout hq => ?_⟩
  · have hat := (h p).at_out hout
    exact ⟨hat.ticks_nonneg, hat.ticks_lt⟩
  · have hposition := (((h p).at_out hout).quiet hq).2
    rw [← position_level, hposition]

theorem levelStep_of_ok {m : Move} (h : ∀ p, (s.entry p).Ok) (hs : step m s = some s') :
    LevelStep m s s' := by
  intro p hused hne
  rcases step_entry hs p with hsame | ⟨e, rfl, he⟩ | ⟨rfl, hhead, heq⟩
  · exact absurd (congrArg Entry.mlfqLevel hsame) hne
  · obtain ⟨rfl, hexpired, hup⟩ := Entry.step_level (h p) he hused hne
    exact Or.inl ⟨rfl, hexpired, hup⟩
  · rw [heq] at hne ⊢
    exact Or.inr ⟨rfl, hhead, ((s.entry p).boost_level).resolve_left hne⟩

/-- **The accounting invariant** holds in every run in which no boost falls into a timer branch. -/
theorem accounting (h : Reaches Apart s) :
    s.Accounted ∧ ∀ m s', step m s = some s' → LevelStep m s s' :=
  ⟨accounted_of_ok h.ok, fun _ _ hs => levelStep_of_ok h.ok hs⟩

/-! ### A boost in the timer branch -/

/-- Take steps one after the other. -/
def run : List Move → Mlfq → Option Mlfq
  | [], s => some s
  | m :: rest, s => (step m s).bind (run rest)

theorem Reaches.run {moves : List Move} (hP : ∀ m ∈ moves, ∀ s, P m s) :
    ∀ {s : Mlfq}, Reaches P s → run moves s = some s' → Reaches P s' := by
  induction moves with
  | nil =>
    intro s h hrun
    obtain rfl := Option.some.inj hrun
    exact h
  | cons m rest ih =>
    intro s h hrun
    obtain ⟨s₁, hs₁, hrun₁⟩ := Option.bind_eq_some_iff.mp hrun
    exact ih (fun m' hm' => hP m' (List.mem_cons_of_mem _ hm'))
      (.step h (hP m List.mem_cons_self s) hs₁) hrun₁

/-- The first process starts, and runs until the timer interrupts it for the second time. The
statements of the timer branch are executed up to the demotion. -/
def secondTick : List Move :=
  [.alloc, .start, .dispatch 0, .tick, .statement, .statement, .statement, .statement, .tick,
    .statement, .statement, .statement, .statement, .statement, .statement, .statement].map
    (.event ⟨0, nproc_pos⟩)

/-- The rest of the timer branch. -/
def finishTick : List Move :=
  [.statement, .statement, .statement].map (.event ⟨0, nproc_pos⟩)

/-- **A boost in the timer branch**: the process is demoted although it has just been reset. -/
theorem not_accounting : ¬∀ s, Reaches (fun _ _ => True) s → s.Accounted := by
  intro hall
  have hrun : (run (secondTick ++ List.replicate 128 .clock ++ [.boost] ++ finishTick) start).map
      (fun s => ((s.entry ⟨0, by decide⟩).state, (s.entry ⟨0, by decide⟩).mlfqLevel,
        (s.entry ⟨0, by decide⟩).timer, (s.entry ⟨0, by decide⟩).quiet,
        (s.entry ⟨0, by decide⟩).since)) = some (.runnable, 1, .out, true, 1) := by
    decide +kernel
  obtain ⟨s, hs, hvalues⟩ := Option.map_eq_some_iff.mp hrun
  simp only [Prod.mk.injEq] at hvalues
  obtain ⟨hstate, hlevel, htimer, hquiet, hsince⟩ := hvalues
  have hused : (s.entry ⟨0, by decide⟩).state ≠ .unused := by
    rw [hstate]
    decide
  have hafter := (hall s (Reaches.run (fun _ _ _ => trivial) .start hs) _ hused).2.2 htimer hquiet
  rw [hlevel, hsince] at hafter
  exact absurd hafter (by decide)

theorem accounting_secondTick : ∃ s, Reaches Apart s ∧
    (s.entry ⟨0, by decide⟩).mlfqLevel = 1 ∧ s.Accounted := by
  have hrun : (run (secondTick ++ finishTick) start).map
      (fun s => (s.entry ⟨0, by decide⟩).mlfqLevel) = some 1 := by
    decide +kernel
  obtain ⟨s, hs, hlevel⟩ := Option.map_eq_some_iff.mp hrun
  have hreach : Reaches Apart s := Reaches.run (fun m hm s p hboost => by
    rw [hboost] at hm
    exact absurd hm (by decide)) .start hs
  exact ⟨s, hreach, hlevel, (accounting hreach).1⟩

end Mlfq

end Xv6
