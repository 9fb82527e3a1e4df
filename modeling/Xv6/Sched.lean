import Mathlib.Data.List.FinRange
import Mathlib.Logic.Relation
import Xv6.Proc

/-!
# The scheduler

The multi-level feedback queue of `proc.c` and `trap.c`. A process is at one of four levels. The
scheduler looks for a runnable process level by level, in each level round robin, and a process
that uses up its quantum at a level without making system calls goes one level down.

## What the loop forgets

After a process has run, the loop over the levels goes on with the next level. It starts again at
the top only when it has been through all of them. The choice is the right one as long as no
process becomes runnable where the scan has already been, while another one runs or from an
interrupt between two tests.

## What a slice is

`ticks_at_level` counts the ticks of a slice and survives sleeping. `syscalls_at_level` is the
number of system calls at the last dispatch. The two are compared, so the comparison is about one
and the same slice only if no dispatch within the slice throws away system calls.
-/

namespace Xv6

open Function

/-! ### Processes -/

instance neZero4 : NeZero 4 := ⟨by decide⟩

/-- The fields of `struct proc` that scheduling reads and writes. The counters do not wrap. -/
structure Task where
  state : ProcState
  mlfqLevel : Fin 4
  ticksAtLevel : ℤ
  ticksPerLevel : Fin 4 → ℤ
  timesScheduled : ℤ
  syscallsAtLevel : ℤ
  syscount : ℤ

/-- What `allocproc` sets. -/
def Task.fresh (s : ProcState) : Task := ⟨s, 0, 0, fun _ => 0, 0, 0, 0⟩

/-- The scheduler is about to switch to the process. -/
def Task.dispatched (t : Task) : Task :=
  { t with
    state := .running
    timesScheduled := t.timesScheduled + 1
    syscallsAtLevel := t.syscount }

/-- `get_quantum`. -/
def getQuantum (level : ℤ) : ℤ :=
  if level = 0 then 2 else if level = 1 then 4 else if level = 2 then 8 else 16

/-- One level down, unless that is the last one. -/
def lowerLevel (l : Fin 4) : Fin 4 := if h : (l : ℕ) + 1 < 4 then ⟨l + 1, h⟩ else l

/-- A timer interrupt in user code. -/
def Task.tick (t : Task) : Task :=
  let t := { t with
    ticksAtLevel := t.ticksAtLevel + 1
    ticksPerLevel := update t.ticksPerLevel t.mlfqLevel (t.ticksPerLevel t.mlfqLevel + 1) }
  if getQuantum t.mlfqLevel ≤ t.ticksAtLevel then
    let deltaS := t.syscount - t.syscallsAtLevel
    let deltaT := t.ticksAtLevel
    let t := if deltaS < deltaT ∧ t.mlfqLevel < 3 then
      { t with mlfqLevel := lowerLevel t.mlfqLevel } else t
    -- and yield
    { t with ticksAtLevel := 0, state := .runnable }
  else t

/-- The boost that `clockintr` gives every 128 ticks. -/
def Task.boosted (t : Task) : Task :=
  if t.state = .runnable ∨ t.state = .running then { t with mlfqLevel := 0, ticksAtLevel := 0 }
  else t

/-! ### The scan -/

/-- A process that the scan of a level takes. -/
def Task.ReadyAt (t : Task) (l : Fin 4) : Prop := t.state = .runnable ∧ t.mlfqLevel = l

instance Task.decidableReadyAt (t : Task) (l : Fin 4) : Decidable (t.ReadyAt l) :=
  inferInstanceAs (Decidable (_ ∧ _))

/-- The next process, in a circle. -/
def nextIdx (i : Fin nproc) : Fin nproc := ⟨(i + 1) % nproc, Nat.mod_lt _ (by decide)⟩

/-- The scan of the process table for a level, with `n` entries to go. -/
def scanTable (task : Fin nproc → Task) (level : Fin 4) : ℕ → Fin nproc → Option (Fin nproc)
  | 0, _ => none
  | n + 1, idx =>
    if (task idx).ReadyAt level then some idx
    else scanTable task level n (nextIdx idx)

/-- A CPU in its scheduler. -/
structure Cpu where
  task : Fin nproc → Task
  lastIdx : Fin 4 → Fin nproc
  /-- The loop variable: the level at which the scan goes on. -/
  level : ℕ
  /-- The process that runs, if any. -/
  running : Option (Fin nproc)

namespace Cpu

/-- The scan of one level. -/
def scanLevel (c : Cpu) (level : Fin 4) : Option (Fin nproc) :=
  scanTable c.task level nproc (nextIdx (c.lastIdx level))

/-- The process that the loop over the levels comes to next, with its level, if no interrupt changes
the table meanwhile. -/
def pick (c : Cpu) : Option (Fin 4 × Fin nproc) :=
  ((List.finRange 4).drop c.level).findSome? fun l => (c.scanLevel l).map fun i => (l, i)

/-- Switch to a process. When it gives up the CPU the loop goes on with the next level. -/
def dispatch (c : Cpu) (l : Fin 4) (i : Fin nproc) : Cpu where
  task := update c.task i (c.task i).dispatched
  lastIdx := update c.lastIdx l i
  level := l + 1
  running := some i

end Cpu

theorem scanLevel_of_pick {c : Cpu} {l : Fin 4} {i : Fin nproc} (h : c.pick = some (l, i)) :
    c.scanLevel l = some i := by
  obtain ⟨m, -, hfound⟩ := List.exists_of_findSome?_eq_some h
  obtain ⟨i', hscan, heq⟩ := Option.map_eq_some_iff.mp hfound
  obtain ⟨rfl, rfl⟩ := Prod.mk.inj heq
  exact hscan

/-! ### Events -/

/-- What happens to a process between two dispatches. -/
inductive TaskEvent where
  /-- `fork` makes the process. -/
  | spawn
  | syscall
  /-- A timer interrupt in user code. -/
  | tick
  /-- A timer interrupt in the kernel. -/
  | yield
  | sleep
  /-- `wakeup` or `kill`. -/
  | wake
  | boost
  | exit
  /-- The parent's `wait` frees the entry. -/
  | reap
  deriving DecidableEq

namespace TaskEvent

/-- When an event can happen. -/
def Enabled (t : Task) : TaskEvent → Prop
  | spawn => t.state = .unused
  | syscall | tick | yield | sleep | exit => t.state = .running
  | wake => t.state = .sleeping
  | boost => True
  | reap => t.state = .zombie

/-- The events that the running process causes to itself. -/
def Own : TaskEvent → Prop
  | syscall | tick | yield | sleep | exit => True
  | _ => False

/-- What an event does. -/
def apply (t : Task) : TaskEvent → Task
  | spawn => .fresh .runnable
  | syscall => { t with syscount := t.syscount + 1 }
  | tick => t.tick
  | yield => { t with state := .runnable }
  | sleep => { t with state := .sleeping }
  | wake => { t with state := .runnable }
  | boost => t.boosted
  | exit => { t with state := .zombie }
  | reap => { t with state := .unused }

end TaskEvent

theorem nproc_pos : 0 < nproc := by decide

theorem one_lt_nproc : 1 < nproc := by decide

/-- Two entries of the process table. -/
def firstProc : Fin nproc := ⟨0, by decide⟩

@[inherit_doc firstProc] def secondProc : Fin nproc := ⟨1, by decide⟩

/-! ### Priority -/

/-- **One CPU in `scheduler`**, between two rounds of its inner loop. The scan of `level` began at
`start`, and `idx` is the entry that is tested next or, if a process runs, the one that runs. -/
structure Sweep where
  task : Fin nproc → Task
  lastIdx : Fin 4 → Fin nproc
  level : Fin 4
  start : Fin nproc
  idx : Fin nproc
  /-- `c->proc` is not null. -/
  running : Bool

namespace Sweep

/-- The loop comes to a level, after the last one to level 0. -/
def enter (s : Sweep) (level : Fin 4) : Sweep :=
  { s with
    level := level
    start := nextIdx (s.lastIdx level)
    idx := nextIdx (s.lastIdx level)
    running := false }

/-- The loop goes on after an entry that is not for it. -/
def pass (s : Sweep) : Sweep :=
  if nextIdx s.idx = s.start then s.enter (s.level + 1) else { s with idx := nextIdx s.idx }

/-- Switch to the process. -/
def dispatch (s : Sweep) : Sweep :=
  { s with
    task := update s.task s.idx (s.task s.idx).dispatched
    lastIdx := update s.lastIdx s.level s.idx
    running := true }

/-- Something happens to a process. -/
def event (s : Sweep) (j : Fin nproc) (e : TaskEvent) : Sweep :=
  { s with task := update s.task j (e.apply (s.task j)) }

/-- **A step.** The lock of the entry is held from its test to the switch. Otherwise interrupts can
come at any time, since a process that slept or yielded has left them on for `release`. `P` is asked
of the state in which a process comes back, and `Q` of what an interrupt finds. -/
inductive Step (P : Sweep → Prop) (Q : Sweep → Fin nproc → TaskEvent → Prop) (s : Sweep) :
    Sweep → Prop where
  | pass (hidle : s.running = false) (h : ¬(s.task s.idx).ReadyAt s.level) : Step P Q s s.pass
  | dispatch (hidle : s.running = false) (h : (s.task s.idx).ReadyAt s.level) :
      Step P Q s s.dispatch
  | interrupt {j : Fin nproc} {e : TaskEvent} (hidle : s.running = false) (he : ¬e.Own)
      (hen : e.Enabled (s.task j)) (hQ : Q s j e) : Step P Q s (s.event j e)
  /-- The running process does something, or something happens to another one. -/
  | event {j : Fin nproc} {e : TaskEvent} (hrun : s.running = true) (he : e.Own → j = s.idx)
      (hen : e.Enabled (s.task j)) : Step P Q s (s.event j e)
  /-- The process has given up the CPU, and the loop goes on with the next level. -/
  | back (hrun : s.running = true) (hout : (s.task s.idx).state ≠ .running) (hP : P s) :
      Step P Q s (s.enter (s.level + 1))

/-- The runs, from any process table and any `last_idx`. -/
def Runs (P : Sweep → Prop) (Q : Sweep → Fin nproc → TaskEvent → Prop) (s : Sweep) : Prop :=
  ∃ s₀ : Sweep, Relation.ReflTransGen (Step P Q) (s₀.enter 0) s

/-- How far an entry is from where the scan of the level began. -/
def rank (s : Sweep) (j : Fin nproc) : ℕ := (j + nproc - s.start) % nproc

/-- Entry `j` would yet be found if it were runnable at level `l`. -/
def Ahead (s : Sweep) (j : Fin nproc) (l : Fin 4) : Prop :=
  s.level < l ∨ s.level = l ∧ s.rank s.idx ≤ s.rank j

/-- No process is left behind when the loop goes on with the next level. -/
def Clear (s : Sweep) : Prop :=
  ∀ j, (s.task j).state = .runnable → s.level + 1 ≤ (s.task j).mlfqLevel

/-- The event does not make a process runnable where the scan has already been. -/
def Timely (s : Sweep) (j : Fin nproc) (e : TaskEvent) : Prop :=
  (e.apply (s.task j)).state = .runnable → s.Ahead j (e.apply (s.task j)).mlfqLevel

/-- Every process that is runnable will be found. -/
def Ok (s : Sweep) : Prop :=
  s.running = false → ∀ j, (s.task j).state = .runnable → s.Ahead j (s.task j).mlfqLevel

variable {P : Sweep → Prop} {Q : Sweep → Fin nproc → TaskEvent → Prop} {s s' : Sweep}

theorem enter_ahead {l m : Fin 4} {j : Fin nproc} (h : l ≤ m) : (s.enter l).Ahead j m := by
  rcases h.lt_or_eq with hlt | heq
  · exact .inl hlt
  · refine .inr ⟨heq, ?_⟩
    have hzero : (s.enter l).rank (s.enter l).idx = 0 := by
      simp only [rank, enter, nproc]
      omega
    omega

theorem rank_next (h : nextIdx s.idx ≠ s.start) : s.rank (nextIdx s.idx) = s.rank s.idx + 1 := by
  have hne : (s.idx + 1) % nproc ≠ s.start := fun heq => h (Fin.ext heq)
  have hstart := s.start.isLt
  have hidx := s.idx.isLt
  simp only [rank, nextIdx, nproc] at *
  omega

theorem rank_lt_of_ne {j : Fin nproc} (h : j ≠ s.idx) (hle : s.rank s.idx ≤ s.rank j) :
    s.rank s.idx + 1 ≤ s.rank j := by
  have hne : (j : ℕ) ≠ s.idx := fun heq => h (Fin.ext heq)
  have hstart := s.start.isLt
  have hidx := s.idx.isLt
  have hj := j.isLt
  simp only [rank, nproc] at *
  omega

/-- The last entry of a scan is the one before its start. -/
theorem rank_last (h : nextIdx s.idx = s.start) (j : Fin nproc) : s.rank j ≤ s.rank s.idx := by
  have heq : (s.idx + 1) % nproc = s.start := congrArg Fin.val h
  have hidx := s.idx.isLt
  have hj := j.isLt
  simp only [rank, nproc] at *
  omega

theorem Ok.pass (h : s.Ok) (hidle : s.running = false)
    (hskip : ¬(s.task s.idx).ReadyAt s.level) : s.pass.Ok := by
  have hbehind : ∀ j, (s.task j).state = .runnable →
      s.level < (s.task j).mlfqLevel ∨
        s.level = (s.task j).mlfqLevel ∧ s.rank s.idx + 1 ≤ s.rank j := fun j hj =>
    (h hidle j hj).imp_right fun hl => ⟨hl.1, rank_lt_of_ne (fun heq => hskip
      (heq ▸ ⟨hj, hl.1.symm⟩)) hl.2⟩
  unfold Sweep.pass
  split_ifs with hend
  · intro _ j hj
    refine enter_ahead ?_
    change s.level + 1 ≤ (s.task j).mlfqLevel
    rcases hbehind j hj with hlt | ⟨-, hle⟩
    · revert hlt
      generalize s.level = l, (s.task j).mlfqLevel = m
      revert l m
      decide
    · exact absurd (rank_last hend j) (by omega)
  · intro _ j hj
    refine (hbehind j hj).imp_right fun hl => ⟨hl.1, ?_⟩
    rw [← rank_next hend] at hl
    exact hl.2

/-- **A step keeps every runnable process ahead**, if nobody is left behind or becomes runnable
behind the scan. -/
theorem Ok.step (h : s.Ok) (hs : Step Clear Timely s s') : s'.Ok := by
  cases hs with
  | pass hidle hskip => exact h.pass hidle hskip
  | dispatch => exact fun hidle => absurd (show true = false from hidle) (by decide)
  | @interrupt j e hidle _ _ htimely =>
    intro _ i hi
    change (update s.task j (e.apply (s.task j)) i).state = _ at hi
    change s.Ahead i (update s.task j (e.apply (s.task j)) i).mlfqLevel
    by_cases hij : i = j
    · subst hij
      rw [update_self] at hi ⊢
      exact htimely hi
    · rw [update_of_ne hij] at hi ⊢
      exact h hidle i hi
  | event hrun => exact fun hidle => absurd (hrun.symm.trans hidle) (by decide)
  | back _ _ hclear => exact fun _ j hj => enter_ahead (hclear j hj)

/-- **Priority is respected** in every run in which no process is left behind when the loop goes on
after a process has run, and none becomes runnable behind the scan: when a process is dispatched,
nobody is runnable at a smaller level. -/
theorem respects_priority (h : Runs Clear Timely s) (hidle : s.running = false)
    (hready : (s.task s.idx).ReadyAt s.level) (j : Fin nproc)
    (hj : (s.task j).state = .runnable) : (s.task s.idx).mlfqLevel ≤ (s.task j).mlfqLevel := by
  obtain ⟨s₀, hrun⟩ := h
  have hok : s.Ok := by
    clear hidle hready hj
    induction hrun with
    | refl => exact fun _ j _ => enter_ahead (Fin.zero_le _)
    | tail _ hs ih => exact ih.step hs
  rw [hready.2]
  rcases hok hidle j hj with hlt | heq
  · exact hlt.le
  · exact heq.1.le

/-- Two processes are runnable, the first at level 0 and the second at level 1, and the scans begin
with the first. -/
def two : Sweep where
  task i :=
    if i = firstProc then .fresh .runnable
    else if i = secondProc then { Task.fresh .runnable with mlfqLevel := 1 }
    else .fresh .unused
  lastIdx _ := ⟨63, by decide⟩
  level := 0
  start := firstProc
  idx := firstProc
  running := false

/-- The first has run, the event has taken it off the CPU, and the scan of level 1 has passed it. -/
def twoAfter (e : TaskEvent) : Sweep := ((two.dispatch.event firstProc e).enter 1).pass

theorem two_runs {e : TaskEvent} (he : e = .sleep ∨ e = .yield)
    (hP : P (two.dispatch.event firstProc e)) : Runs P Q (twoAfter e) := by
  have hdispatch : Step P Q (two.enter 0) two.dispatch := .dispatch rfl ⟨rfl, rfl⟩
  have hevent : Step P Q two.dispatch (two.dispatch.event firstProc e) :=
    .event rfl (fun _ => rfl) (by rcases he with rfl | rfl <;> rfl)
  have hback : Step P Q (two.dispatch.event firstProc e)
      ((two.dispatch.event firstProc e).enter 1) :=
    .back rfl (by rcases he with rfl | rfl <;> decide) hP
  -- the first process is at level 0, whatever it did
  have hpass : Step P Q ((two.dispatch.event firstProc e).enter 1) (twoAfter e) := by
    refine .pass rfl fun h => absurd h.2 ?_
    rcases he with rfl | rfl <;> decide
  exact ⟨two, (((Relation.ReflTransGen.single hdispatch).tail hevent).tail hback).tail hpass⟩

theorem respects_priority_two : Runs Clear Timely (twoAfter .sleep) ∧
    ((twoAfter .sleep).task secondProc).ReadyAt 1 ∧
    ∀ j, ((twoAfter .sleep).task j).state = .runnable →
      1 ≤ ((twoAfter .sleep).task j).mlfqLevel := by
  have hclear : Clear (two.dispatch.event firstProc .sleep) := by
    unfold Clear
    decide +kernel
  have hrun : Runs Clear Timely (twoAfter .sleep) := two_runs (.inl rfl) hclear
  have hready : ((twoAfter .sleep).task secondProc).ReadyAt 1 := ⟨rfl, rfl⟩
  exact ⟨hrun, hready, fun j hj => respects_priority hrun rfl hready j hj⟩

/-- **A process is overtaken from below.** The first process runs and is interrupted; the loop goes
on with level 1 although that process is runnable at level 0. -/
theorem dispatch_overtakes : ¬∀ s, Runs (fun _ => True) (fun _ _ _ => True) s →
    s.running = false → (s.task s.idx).ReadyAt s.level → ∀ j, j ≠ s.idx →
    (s.task j).state = .runnable → (s.task s.idx).mlfqLevel ≤ (s.task j).mlfqLevel := by
  intro hall
  have hle := hall (twoAfter .yield) (two_runs (.inr rfl) trivial) rfl ⟨rfl, rfl⟩ firstProc
    (by decide) rfl
  exact absurd hle (by decide)

end Sweep

/-! ### Slices -/

/-- A process, and the number of system calls it has made since `ticks_at_level` was last 0. No code
reads the number. -/
structure Slice where
  task : Task
  calls : ℕ

namespace Slice

/-- The process as it is now, after `n` more system calls. -/
def next (s : Slice) (t : Task) (n : ℕ) : Slice :=
  ⟨t, if t.ticksAtLevel = 0 then 0 else s.calls + n⟩

/-- **A step of a process.** `dispatch` is the scheduler's, on any CPU; everything else is an
event. -/
inductive Step (P : Slice → Prop) (s : Slice) : Slice → Prop where
  | dispatch (hrun : s.task.state = .runnable) (hP : P s) : Step P s (s.next s.task.dispatched 0)
  | event {e : TaskEvent} (hen : e.Enabled s.task) :
      Step P s (s.next (e.apply s.task) (if e = .syscall then 1 else 0))

/-- The runs of an entry of the process table from boot on, with dispatches that meet the condition
`P`. -/
def Runs (P : Slice → Prop) : Slice → Prop :=
  Relation.ReflTransGen (Step P) ⟨.fresh .unused, 0⟩

/-- The slice has just begun, or there was no system call in it. -/
def Quiet (s : Slice) : Prop := s.task.ticksAtLevel = 0 ∨ s.calls = 0

/-- The tick demotes the process. -/
def Demotes (s : Slice) : Prop :=
  s.task.state = .running ∧ s.task.mlfqLevel < s.task.tick.mlfqLevel

section Run

variable {P : Slice → Prop} {s s' : Slice}

/-- The baseline of the comparison lies before the system calls of the slice. -/
def Counted (s : Slice) : Prop := (s.calls : ℤ) ≤ s.task.syscount - s.task.syscallsAtLevel

theorem tick_syscalls (t : Task) :
    t.tick.syscount = t.syscount ∧ t.tick.syscallsAtLevel = t.syscallsAtLevel := by
  unfold Task.tick
  dsimp only
  split_ifs <;> exact ⟨rfl, rfl⟩

theorem boosted_syscalls (t : Task) :
    t.boosted.syscount = t.syscount ∧ t.boosted.syscallsAtLevel = t.syscallsAtLevel := by
  unfold Task.boosted
  split_ifs <;> exact ⟨rfl, rfl⟩

/-- An event leaves the baseline alone, and only a system call is counted. -/
theorem apply_syscalls {e : TaskEvent} (he : e ≠ .spawn) (t : Task) :
    (e.apply t).syscount = t.syscount + (if e = .syscall then 1 else 0) ∧
      (e.apply t).syscallsAtLevel = t.syscallsAtLevel := by
  cases e with
  | spawn => exact absurd rfl he
  | syscall => exact ⟨rfl, rfl⟩
  | tick =>
    rw [if_neg (by decide), add_zero]
    exact tick_syscalls t
  | boost =>
    rw [if_neg (by decide), add_zero]
    exact boosted_syscalls t
  | _ => exact ⟨(add_zero _).symm, rfl⟩

theorem next_calls_le (s : Slice) (t : Task) (n : ℕ) : (s.next t n).calls ≤ s.calls + n := by
  unfold next
  dsimp only
  split_ifs <;> omega

theorem next_calls_of_zero (s : Slice) {t : Task} (h : t.ticksAtLevel = 0) (n : ℕ) :
    (s.next t n).calls = 0 := by
  unfold next
  rw [if_pos h]

/-- **A step keeps the baseline before the slice**, if a dispatch finds the slice quiet. -/
theorem Counted.step (h : Counted s) (hs : Step Quiet s s') : Counted s' := by
  unfold Counted at h ⊢
  cases hs with
  | dispatch hrun hquiet =>
    have hzero : (s.next s.task.dispatched 0).calls = 0 := by
      rcases hquiet with hticks | hnone
      · exact next_calls_of_zero s hticks 0
      · have hle := next_calls_le s s.task.dispatched 0
        omega
    rw [hzero]
    change (0 : ℤ) ≤ s.task.syscount - s.task.syscount
    omega
  | @event e hen =>
    change _ ≤ (e.apply s.task).syscount - (e.apply s.task).syscallsAtLevel
    by_cases he : e = .spawn
    · rw [he, next_calls_of_zero s rfl]
      rfl
    · obtain ⟨hcount, hbase⟩ := apply_syscalls he s.task
      have hle := next_calls_le s (e.apply s.task) (if e = .syscall then 1 else 0)
      rw [hcount, hbase]
      split_ifs at hle ⊢ <;> omega

/-- A tick demotes a process only if the comparison of `usertrap` says so. -/
theorem lt_of_tick_lowers {t : Task} (h : t.mlfqLevel < t.tick.mlfqLevel) :
    t.syscount - t.syscallsAtLevel < t.ticksAtLevel + 1 := by
  unfold Task.tick at h
  dsimp only at h
  split_ifs at h with hfull hless
  · exact hless.1
  · exact absurd h (lt_irrefl _)
  · exact absurd h (lt_irrefl _)

/-- **A demotion is fair** in a run in which every dispatch finds the slice quiet: the system calls
since `ticks_at_level` was last 0 are fewer than the ticks since then, the last one included. -/
theorem demotion_fair (h : Runs Quiet s) (hd : s.Demotes) :
    (s.calls : ℤ) < s.task.ticksAtLevel + 1 := by
  have hcounted : Counted s := by
    clear hd
    induction h with
    | refl => exact le_rfl
    | tail _ hs ih => exact ih.step hs
  exact lt_of_le_of_lt hcounted (lt_of_tick_lowers hd.2)

end Run

section Example

variable {P : Slice → Prop} {s : Slice}

theorem Runs.dispatch (h : Runs P s) (hrun : s.task.state = .runnable) (hP : P s) :
    Runs P (s.next s.task.dispatched 0) :=
  h.tail (.dispatch hrun hP)

theorem Runs.event (h : Runs P s) (e : TaskEvent) (hen : e.Enabled s.task) :
    Runs P (s.next (e.apply s.task) (if e = .syscall then 1 else 0)) :=
  h.tail (.event hen)

theorem runs_tick (hP : ∀ s, s.task.ticksAtLevel = 0 → P s) :
    Runs P ⟨{ Task.fresh .running with
      timesScheduled := 1, ticksAtLevel := 1, ticksPerLevel := update (fun _ => 0) 0 1 },
      0⟩ := by
  have hboot : Runs P ⟨.fresh .unused, 0⟩ := Relation.ReflTransGen.refl
  exact ((hboot.event .spawn rfl).dispatch rfl (hP _ rfl)).event .tick rfl

end Example

theorem demotion_fair_quiet : ∃ s, Runs Quiet s ∧ s.Demotes ∧
    (s.calls : ℤ) < s.task.ticksAtLevel + 1 := by
  have hrun := runs_tick (P := Quiet) fun _ h => Or.inl h
  have hd : Demotes ⟨{ Task.fresh .running with
      timesScheduled := 1, ticksAtLevel := 1, ticksPerLevel := update (fun _ => 0) 0 1 },
      0⟩ := ⟨rfl, by decide⟩
  exact ⟨_, hrun, hd, demotion_fair hrun hd⟩

/-- **A process is demoted for its sleep.** It makes two system calls in a slice of two ticks, but
sleeps between them and the second tick; the dispatch forgets the calls and not the tick. -/
theorem sleeper_demoted : ¬∀ s, Runs (fun _ => True) s → s.Demotes →
    (s.calls : ℤ) < s.task.ticksAtLevel + 1 := by
  intro hall
  have hrun := (((((runs_tick (P := fun _ => True) fun _ _ => trivial).event .syscall rfl).event
    .syscall rfl).event .sleep rfl).event .wake rfl).dispatch rfl trivial
  exact absurd (hall _ hrun ⟨rfl, by decide⟩) (by decide)

end Slice

end Xv6
