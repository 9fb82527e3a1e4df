import Xv6.Lib.Interleave
import Xv6.Sched

/-!
# Processes on several CPUs

The code of `proc.c` that moves processes from one state to another: the scheduler, `yield`,
`sleep`, `wakeup`, `kkill`, `kfork`, `kexit` and `kwait`, on any number of CPUs. What they have in
common is the lock of each entry of the process table. It is taken by one thread and often released
by another, on the other side of `swtch`.

## The machine

A CPU is in its scheduler or in the kernel thread of a process. A thread is a stack of frames, each
of them a call with the place it has come to and its local variables. A frame is one statement of
the code that touches something shared, and its name says which. `swtch` puts the stack of a thread
aside and goes on with another one: the stack of a process that does not run is its
`p->context`.

A CPU takes one step at a time. A thread with no frame on its stack is in user code, or in kernel
code that is not modelled: it may take and release locks, change what these protect, and call any of
the functions. When a CPU holds no lock, an interrupt may put a handler on the stack: it takes a
lock, changes what others wait for and calls `wakeup`, or boosts all processes, or calls `yield`.
Handlers may be interrupted here as anything else, which real ones are not.

The locks that a CPU holds are a list, and `c->noff` is its length. A lock that is taken makes a CPU
spin: it stays where it is.

Memory for a new process, and the copy of the exit status, may or may not work out. What `kexit`
does with the open files comes before the part of it that is modelled, and `allocpid`, whose lock is
taken and released while nothing else can be seen, is part of the statement that uses the number.
The `wfi` of a scheduler that found nothing has no effect.
-/

namespace Xv6

open Function

namespace Smp

/-! ### The state -/

/-- The address that a process sleeps on: that of a process, or another one. -/
inductive Chan (χ : Type) where
  | proc (p : Fin nproc)
  | other (x : χ)
  deriving DecidableEq

/-- The locks that may be passed to `sleep`: `wait_lock`, and others. -/
inductive CondLock (ℓ : Type) where
  | wait
  | other (l : ℓ)
  deriving DecidableEq

/-- The spinlocks: `p->lock`, and the others. -/
inductive Lock (ℓ : Type) where
  | proc (p : Fin nproc)
  | cond (lk : CondLock ℓ)
  deriving DecidableEq

/-- The fields of `struct proc` that this code reads and writes, except for the context. -/
structure Slot (χ : Type) where
  state : ProcState
  /-- If not null, the process is sleeping on it. -/
  chan : Option (Chan χ)
  killed : Bool
  pid : ℤ
  parent : Option (Fin nproc)
  mlfqLevel : Fin 4

/-- What `freeproc` leaves. -/
def Slot.freed {χ : Type} (e : Slot χ) : Slot χ :=
  { e with pid := 0, parent := none, chan := none, killed := false, state := .unused }

/-- A frame: a call, with the statement it has come to and its local variables. `p` is the process
that the call is made by. -/
inductive Frame (ℓ χ : Type) where
  -- scheduler
  | schedTop
  | schedLevel (level : Fin 4)
  | schedScan (level : Fin 4) (start idx : Fin nproc)
  | schedTest (level : Fin 4) (start idx : Fin nproc)
  | dispatch (level : Fin 4) (idx : Fin nproc)
  | remember (level : Fin 4) (idx : Fin nproc)
  | bind (level : Fin 4) (idx : Fin nproc)
  | switchTo (level : Fin 4) (idx : Fin nproc)
  | back (level : Fin 4) (idx : Fin nproc)
  | drop (level : Fin 4) (idx : Fin nproc)
  | schedSkip (level : Fin 4) (start idx : Fin nproc)
  -- yield
  | yield
  | yieldSet (p : Fin nproc)
  | yieldSched (p : Fin nproc)
  | yieldRelease (p : Fin nproc)
  -- sleep
  | sleep (chan : Chan χ) (lk : CondLock ℓ)
  | sleepRelease (p : Fin nproc) (chan : Chan χ) (lk : CondLock ℓ)
  | sleepChan (p : Fin nproc) (chan : Chan χ) (lk : CondLock ℓ)
  | sleepState (p : Fin nproc) (chan : Chan χ) (lk : CondLock ℓ)
  | sleepSched (p : Fin nproc) (chan : Chan χ) (lk : CondLock ℓ)
  | sleepTidy (p : Fin nproc) (chan : Chan χ) (lk : CondLock ℓ)
  | sleepUnlock (p : Fin nproc) (chan : Chan χ) (lk : CondLock ℓ)
  | sleepLock (p : Fin nproc) (chan : Chan χ) (lk : CondLock ℓ)
  -- the loop around sleep
  | await (chan : Chan χ) (lk : CondLock ℓ)
  -- wakeup
  | wakeup (chan : Option (Chan χ)) (i : ℕ)
  | wakeupTest (chan : Option (Chan χ)) (i : Fin nproc)
  | wakeupRelease (chan : Option (Chan χ)) (i : Fin nproc)
  -- kkill and setkilled
  | kill (pid : ℤ) (i : ℕ)
  | killTest (pid : ℤ) (i : Fin nproc)
  | killRelease (pid : ℤ) (i : Fin nproc) (found : Bool)
  | setkilled
  | setkilledSet (p : Fin nproc)
  | setkilledRelease (p : Fin nproc)
  -- kfork and allocproc
  | fork
  | allocproc (p : Fin nproc) (i : ℕ)
  | forkTest (p np : Fin nproc)
  | forkSkip (p np : Fin nproc)
  | forkFound (p np : Fin nproc)
  | forkAlloc (p np : Fin nproc)
  | forkCopy (p np : Fin nproc)
  | forkFree (p np : Fin nproc)
  | forkFail (p np : Fin nproc)
  | forkRelease (p np : Fin nproc)
  | forkWait (p np : Fin nproc)
  | forkParent (p np : Fin nproc)
  | forkUnwait (p np : Fin nproc)
  | forkLock (p np : Fin nproc)
  | forkRun (p np : Fin nproc)
  | forkDone (p np : Fin nproc)
  -- forkret
  | forkret (p : Fin nproc)
  -- kexit and reparent
  | exit
  | exitReparent (p : Fin nproc) (j : ℕ)
  | exitWake (p : Fin nproc)
  | exitLock (p : Fin nproc)
  | exitZombie (p : Fin nproc)
  | exitUnwait (p : Fin nproc)
  | exitSched (p : Fin nproc)
  | exited (p : Fin nproc)
  -- kwait and killed
  | wait
  | waitLoop (p : Fin nproc)
  | waitScan (p : Fin nproc) (j : ℕ) (havekids : Bool)
  | waitTest (p j : Fin nproc)
  | waitSkip (p j : Fin nproc)
  | waitAbort (p j : Fin nproc)
  | waitFree (p j : Fin nproc)
  | waitReap (p j : Fin nproc)
  | waitDone (p : Fin nproc)
  | waitKids (p : Fin nproc) (havekids : Bool)
  | waitKilled (p : Fin nproc)
  | waitUnlock (p : Fin nproc) (killed : Bool)
  -- killed, and the system calls that look at an entry
  | peek (i : Fin nproc)
  | peekRelease (i : Fin nproc)
  -- an interrupt handler that tells of an event
  | notify (chan : Chan χ) (lk : CondLock ℓ)
  | notifySet (chan : Chan χ) (lk : CondLock ℓ)
  | notifyRelease (chan : Chan χ) (lk : CondLock ℓ)
  -- the boost in clockintr
  | boost (i : ℕ)
  | boostTest (i : Fin nproc)
  | boostRelease (i : Fin nproc)

/-- The threads: the scheduler of a CPU, and the kernel threads of the processes. -/
inductive Thread where
  | sched
  | proc (p : Fin nproc)
  deriving DecidableEq

/-- What a CPU is doing. -/
structure Pc (ℓ χ : Type) where
  thread : Thread
  /-- The top of the stack comes first. -/
  stack : List (Frame ℓ χ)

/-- The shared state. -/
structure Machine (κ ℓ χ : Type) where
  slot : Fin nproc → Slot χ
  nextpid : ℤ
  initproc : Option (Fin nproc)
  /-- Which CPU holds a lock. -/
  holder : Lock ℓ → Option κ
  /-- The locks that a CPU holds. Their number is `c->noff`. -/
  held : κ → List (Lock ℓ)
  /-- `c->proc`. -/
  cur : κ → Option (Fin nproc)
  /-- `p->context`. -/
  context : Fin nproc → List (Frame ℓ χ)
  /-- `c->context`. -/
  schedContext : κ → List (Frame ℓ χ)
  /-- `last_idx`, a local variable of the scheduler of each CPU. -/
  lastIdx : κ → Fin 4 → Fin nproc
  /-- The conditions that processes wait for. A lock protects those of its channels. -/
  cond : CondLock ℓ → Chan χ → Bool
  /-- How often each process has tested its condition. No code reads this. -/
  tests : Fin nproc → ℕ

variable {κ ℓ χ : Type} [DecidableEq κ] [DecidableEq ℓ] [DecidableEq χ]

namespace Machine

/-- Change the entry of a process. -/
def setSlot (s : Machine κ ℓ χ) (p : Fin nproc) (g : Slot χ → Slot χ) : Machine κ ℓ χ :=
  { s with slot := update s.slot p (g (s.slot p)) }

/-- CPU `c` takes a lock. -/
def take (s : Machine κ ℓ χ) (c : κ) (l : Lock ℓ) : Machine κ ℓ χ :=
  { s with
    holder := update s.holder l (some c)
    held := update s.held c (l :: s.held c) }

/-- CPU `c` gives back a lock. -/
def give (s : Machine κ ℓ χ) (c : κ) (l : Lock ℓ) : Machine κ ℓ χ :=
  { s with
    holder := update s.holder l none
    held := update s.held c ((s.held c).erase l) }

/-- Set the saved stack of a process. -/
def setContext (s : Machine κ ℓ χ) (p : Fin nproc) (st : List (Frame ℓ χ)) : Machine κ ℓ χ :=
  { s with context := update s.context p st }

/-- Set `c->proc`. -/
def setCur (s : Machine κ ℓ χ) (c : κ) (p : Option (Fin nproc)) : Machine κ ℓ χ :=
  { s with cur := update s.cur c p }

end Machine

/-! ### Statements -/

/-- What a statement does. The frames are what replaces the frame of the statement: the next one of
the same call with those of the calls it makes in front, or nothing when the call returns. -/
inductive Instr (ℓ χ : Type) where
  /-- Nothing shared is changed. -/
  | goto (fs : List (Frame ℓ χ))
  /-- `acquire`. -/
  | lock (l : Lock ℓ) (fs : List (Frame ℓ χ))
  /-- `release`. -/
  | unlock (l : Lock ℓ) (fs : List (Frame ℓ χ))
  /-- Assignments to fields of a process. -/
  | set (p : Fin nproc) (g : Slot χ → Slot χ) (fs : List (Frame ℓ χ))
  /-- `allocproc` gives an entry a process number. -/
  | alloc (p : Fin nproc) (fs : List (Frame ℓ χ))
  /-- `allocproc` makes a new process start at `forkret`. -/
  | start (p : Fin nproc) (fs : List (Frame ℓ χ))
  /-- `sched`, and where the thread goes on after it. -/
  | sched (f : Frame ℓ χ)
  /-- `last_idx[level] = idx`. -/
  | remember (level : Fin 4) (idx : Fin nproc) (fs : List (Frame ℓ χ))
  /-- `c->proc = p`. -/
  | setCur (p : Option (Fin nproc)) (fs : List (Frame ℓ χ))
  /-- `swtch` from the scheduler, and where it goes on after it. -/
  | resume (p : Fin nproc) (fs : List (Frame ℓ χ))
  /-- A process tests its condition, or starts to look for what it waits for. -/
  | test (p : Fin nproc) (fs : List (Frame ℓ χ))
  /-- A condition changes. -/
  | signal (lk : CondLock ℓ) (chan : Chan χ) (b : Bool) (fs : List (Frame ℓ χ))
  | panic (msg : String)

/-- The loop over the levels goes on. -/
def Frame.nextLevel (level : Fin 4) : Frame ℓ χ :=
  if h : (level : ℕ) + 1 < 4 then .schedLevel ⟨level + 1, h⟩ else .schedTop

/-- A statement that needs `myproc()`. A null pointer is dereferenced if there is none. -/
def withProc (s : Machine κ ℓ χ) (c : κ) (next : Fin nproc → Instr ℓ χ) : Instr ℓ χ :=
  match s.cur c with
  | none => .panic "kerneltrap"
  | some p => next p

/-- A loop over the process table. -/
def forProc (i : ℕ) (body : Fin nproc → Instr ℓ χ) (rest : Instr ℓ χ) : Instr ℓ χ :=
  if h : i < nproc then body ⟨i, h⟩ else rest

/-- **The code.** `ok` says whether what may fail works out. -/
def Frame.next (s : Machine κ ℓ χ) (c : κ) (ok : Bool) : Frame ℓ χ → Instr ℓ χ
  -- scheduler
  | .schedTop => .goto [.schedLevel 0]
  | .schedLevel level =>
    .goto [.schedScan level (nextIdx (s.lastIdx c level)) (nextIdx (s.lastIdx c level))]
  | .schedScan level start idx => .lock (.proc idx) [.schedTest level start idx]
  | .schedTest level start idx =>
    if (s.slot idx).state = .runnable ∧ (s.slot idx).mlfqLevel = level then
      .goto [.dispatch level idx]
    else .goto [.schedSkip level start idx]
  | .dispatch level idx => .set idx (fun e => { e with state := .running }) [.remember level idx]
  | .remember level idx => .remember level idx [.bind level idx]
  | .bind level idx => .setCur (some idx) [.switchTo level idx]
  | .switchTo level idx => .resume idx [.back level idx]
  | .back level idx => .setCur none [.drop level idx]
  | .drop level idx => .unlock (.proc idx) [.nextLevel level]
  | .schedSkip level start idx =>
    .unlock (.proc idx)
      [if nextIdx idx = start then .nextLevel level else .schedScan level start (nextIdx idx)]
  -- yield
  | .yield => withProc s c fun p => .lock (.proc p) [.yieldSet p]
  | .yieldSet p => .set p (fun e => { e with state := .runnable }) [.yieldSched p]
  | .yieldSched p => .sched (.yieldRelease p)
  | .yieldRelease p => .unlock (.proc p) []
  -- sleep
  | .sleep chan lk => withProc s c fun p => .lock (.proc p) [.sleepRelease p chan lk]
  | .sleepRelease p chan lk => .unlock (.cond lk) [.sleepChan p chan lk]
  | .sleepChan p chan lk => .set p (fun e => { e with chan := some chan }) [.sleepState p chan lk]
  | .sleepState p chan lk =>
    .set p (fun e => { e with state := .sleeping }) [.sleepSched p chan lk]
  | .sleepSched p chan lk => .sched (.sleepTidy p chan lk)
  | .sleepTidy p chan lk => .set p (fun e => { e with chan := none }) [.sleepUnlock p chan lk]
  | .sleepUnlock p chan lk => .unlock (.proc p) [.sleepLock p chan lk]
  | .sleepLock _ _ lk => .lock (.cond lk) []
  -- while(!cond) sleep(chan, lk)
  | .await chan lk => withProc s c fun p =>
    .test p (if s.cond lk chan then [] else [.sleep chan lk, .await chan lk])
  -- wakeup
  | .wakeup chan i => forProc i
    (fun p => if s.cur c = some p then .goto [.wakeup chan (i + 1)]
      else .lock (.proc p) [.wakeupTest chan p])
    (.goto [])
  | .wakeupTest chan i =>
    if (s.slot i).state = .sleeping ∧ (s.slot i).chan = chan then
      .set i (fun e => { e with state := .runnable }) [.wakeupRelease chan i]
    else .goto [.wakeupRelease chan i]
  | .wakeupRelease chan i => .unlock (.proc i) [.wakeup chan (i + 1)]
  -- kkill and setkilled
  | .kill pid i => forProc i (fun p => .lock (.proc p) [.killTest pid p]) (.goto [])
  | .killTest pid i =>
    if (s.slot i).pid = pid then
      .set i (fun e => { e with
        killed := true
        state := if e.state = .sleeping then .runnable else e.state }) [.killRelease pid i true]
    else .goto [.killRelease pid i false]
  | .killRelease pid i found => .unlock (.proc i) (if found then [] else [.kill pid (i + 1)])
  | .setkilled => withProc s c fun p => .lock (.proc p) [.setkilledSet p]
  | .setkilledSet p => .set p (fun e => { e with killed := true }) [.setkilledRelease p]
  | .setkilledRelease p => .unlock (.proc p) []
  -- kfork and allocproc
  | .fork => withProc s c fun p => .goto [.allocproc p 0]
  | .allocproc p i => forProc i (fun np => .lock (.proc np) [.forkTest p np]) (.goto [])
  | .forkTest p np =>
    if (s.slot np).state = .unused then .goto [.forkFound p np] else .goto [.forkSkip p np]
  | .forkSkip p np => .unlock (.proc np) [.allocproc p (np + 1)]
  | .forkFound p np => .alloc np [.forkAlloc p np]
  | .forkAlloc p np => if ok then .start np [.forkCopy p np] else .goto [.forkFree p np]
  | .forkCopy p np => if ok then .goto [.forkRelease p np] else .goto [.forkFree p np]
  | .forkFree p np => .set np Slot.freed [.forkFail p np]
  | .forkFail _ np => .unlock (.proc np) []
  | .forkRelease p np => .unlock (.proc np) [.forkWait p np]
  | .forkWait p np => .lock (.cond .wait) [.forkParent p np]
  | .forkParent p np => .set np (fun e => { e with parent := some p }) [.forkUnwait p np]
  | .forkUnwait p np => .unlock (.cond .wait) [.forkLock p np]
  | .forkLock p np => .lock (.proc np) [.forkRun p np]
  | .forkRun p np => .set np (fun e => { e with state := .runnable }) [.forkDone p np]
  | .forkDone _ np => .unlock (.proc np) []
  | .forkret p => .unlock (.proc p) []
  -- kexit and reparent
  | .exit => withProc s c fun p =>
    if s.initproc = some p then .panic "init exiting"
    else .lock (.cond .wait) [.exitReparent p 0]
  | .exitReparent p j => forProc j
    (fun pp =>
      if (s.slot pp).parent = some p then
        .set pp (fun e => { e with parent := s.initproc })
          [.wakeup (s.initproc.map .proc) 0, .exitReparent p (j + 1)]
      else .goto [.exitReparent p (j + 1)])
    (.goto [.exitWake p])
  | .exitWake p => .goto [.wakeup ((s.slot p).parent.map .proc) 0, .exitLock p]
  | .exitLock p => .lock (.proc p) [.exitZombie p]
  | .exitZombie p => .set p (fun e => { e with state := .zombie }) [.exitUnwait p]
  | .exitUnwait p => .unlock (.cond .wait) [.exitSched p]
  | .exitSched p => .sched (.exited p)
  | .exited _ => .panic "zombie exit"
  -- kwait and killed
  | .wait => withProc s c fun p => .lock (.cond .wait) [.waitLoop p]
  | .waitLoop p => .test p [.waitScan p 0 false]
  | .waitScan p j havekids => forProc j
    (fun pp => if (s.slot pp).parent = some p then .lock (.proc pp) [.waitTest p pp]
      else .goto [.waitScan p (j + 1) havekids])
    (.goto [.waitKids p havekids])
  | .waitTest p j =>
    if (s.slot j).state = .zombie then
      if ok then .goto [.waitFree p j] else .goto [.waitAbort p j]
    else .goto [.waitSkip p j]
  | .waitSkip p j => .unlock (.proc j) [.waitScan p (j + 1) true]
  | .waitAbort p j => .unlock (.proc j) [.waitDone p]
  | .waitFree p j => .set j Slot.freed [.waitReap p j]
  | .waitReap p j => .unlock (.proc j) [.waitDone p]
  | .waitDone _ => .unlock (.cond .wait) []
  | .waitKids p havekids =>
    if havekids then .lock (.proc p) [.waitKilled p] else .goto [.waitDone p]
  | .waitKilled p => .goto [.waitUnlock p (s.slot p).killed]
  | .waitUnlock p killed =>
    .unlock (.proc p)
      (if killed then [.waitDone p] else [.sleep (.proc p) .wait, .waitLoop p])
  -- killed, and the system calls that look at an entry
  | .peek i => .lock (.proc i) [.peekRelease i]
  | .peekRelease i => .unlock (.proc i) []
  -- an interrupt handler that tells of an event
  | .notify chan lk => .lock (.cond lk) [.notifySet chan lk]
  | .notifySet chan lk =>
    .signal lk chan ok [.wakeup (some chan) 0, .notifyRelease chan lk]
  | .notifyRelease _ lk => .unlock (.cond lk) []
  -- the boost in clockintr
  | .boost i => forProc i (fun p => .lock (.proc p) [.boostTest p]) (.goto [])
  | .boostTest i =>
    .set i (fun e => { e with
      mlfqLevel := if e.state = .runnable ∨ e.state = .running then 0 else e.mlfqLevel })
      [.boostRelease i]
  | .boostRelease i => .unlock (.proc i) [.boost (i + 1)]

/-- **Running a statement** on CPU `c`, in a thread with frame `f` on top of the stack `st`. -/
def Instr.exec (c : κ) (t : Thread) (f : Frame ℓ χ) (st : List (Frame ℓ χ)) :
    Instr ℓ χ → Prog (Machine κ ℓ χ) (Pc ℓ χ)
  | .goto fs => return ⟨t, fs ++ st⟩
  | .lock l fs => do
    let s ← Prog.get
    match s.holder l with
    | some d => if d = c then Prog.panic "acquire" else return ⟨t, f :: st⟩
    | none => do
      Prog.modify fun s => s.take c l
      return ⟨t, fs ++ st⟩
  | .unlock l fs => do
    let s ← Prog.get
    if s.holder l = some c then do
      Prog.modify fun s => s.give c l
      return ⟨t, fs ++ st⟩
    else Prog.panic "release"
  | .set p g fs => do
    Prog.modify fun s => s.setSlot p g
    return ⟨t, fs ++ st⟩
  | .alloc p fs => do
    Prog.modify fun s => { s.setSlot p fun e => { e with
      pid := s.nextpid, state := .used, mlfqLevel := 0 } with nextpid := s.nextpid + 1 }
    return ⟨t, fs ++ st⟩
  | .start p fs => do
    Prog.modify fun s => s.setContext p [.forkret p]
    return ⟨t, fs ++ st⟩
  | .sched f' => do
    let s ← Prog.get
    match s.cur c with
    | none => Prog.panic "kerneltrap"
    | some p =>
      if s.holder (.proc p) ≠ some c then Prog.panic "sched p->lock"
      else if (s.held c).length ≠ 1 then Prog.panic "sched locks"
      else if (s.slot p).state = .running then Prog.panic "sched RUNNING"
      else do
        Prog.modify fun s => s.setContext p (f' :: st)
        return ⟨.sched, s.schedContext c⟩
  | .remember level idx fs => do
    Prog.modify fun s => { s with
      lastIdx := update s.lastIdx c (update (s.lastIdx c) level idx) }
    return ⟨t, fs ++ st⟩
  | .setCur p fs => do
    Prog.modify fun s => s.setCur c p
    return ⟨t, fs ++ st⟩
  | .resume p fs => do
    let s ← Prog.get
    Prog.modify fun s => { s with schedContext := update s.schedContext c (fs ++ st) }
    return ⟨.proc p, s.context p⟩
  | .test p fs => do
    Prog.modify fun s => { s with tests := update s.tests p (s.tests p + 1) }
    return ⟨t, fs ++ st⟩
  | .signal lk chan b fs => do
    Prog.modify fun s => { s with
      cond := update s.cond lk (update (s.cond lk) chan b) }
    return ⟨t, fs ++ st⟩
  | .panic msg => Prog.panic msg

/-- One statement. -/
def Frame.step (c : κ) (t : Thread) (f : Frame ℓ χ) (st : List (Frame ℓ χ)) (ok : Bool) :
    Prog (Machine κ ℓ χ) (Pc ℓ χ) := do
  let s ← Prog.get
  (f.next s c ok).exec c t f st

/-! ### Steps -/

/-- The functions that kernel code calls. -/
inductive Frame.IsCall : Frame ℓ χ → Prop where
  | yield : IsCall .yield
  | sleep (chan : Chan χ) (lk : CondLock ℓ) : IsCall (.sleep chan lk)
  | await (chan : Chan χ) (lk : CondLock ℓ) : IsCall (.await chan lk)
  | wakeup (chan : Option (Chan χ)) : IsCall (.wakeup chan 0)
  | kill (pid : ℤ) : IsCall (.kill pid 0)
  | setkilled : IsCall .setkilled
  | peek (i : Fin nproc) : IsCall (.peek i)
  | fork : IsCall .fork
  | exit : IsCall .exit
  | wait : IsCall .wait

/-- The functions that interrupt handlers call in a thread. Only a process can `yield`. -/
inductive Frame.IsHandler : Thread → Frame ℓ χ → Prop where
  | yield (p : Fin nproc) : IsHandler (.proc p) .yield
  | notify (t : Thread) (chan : Chan χ) (lk : CondLock ℓ) : IsHandler t (.notify chan lk)
  | boost (t : Thread) : IsHandler t (.boost 0)

/-- `acquire`, in code that is not modelled. -/
def takeLock (c : κ) (π : Pc ℓ χ) (lk : CondLock ℓ) : Prog (Machine κ ℓ χ) (Pc ℓ χ) := do
  let s ← Prog.get
  match s.holder (.cond lk) with
  | some d => if d = c then Prog.panic "acquire" else return π
  | none => do
    Prog.modify fun s => s.take c (.cond lk)
    return π

/-- `release`, in code that is not modelled. -/
def dropLock (c : κ) (π : Pc ℓ χ) (lk : CondLock ℓ) : Prog (Machine κ ℓ χ) (Pc ℓ χ) := do
  let s ← Prog.get
  if s.holder (.cond lk) = some c then do
    Prog.modify fun s => s.give c (.cond lk)
    return π
  else Prog.panic "release"

/-- An interrupt, which waits while a lock is held. The scheduler turns interrupts off before it
scans, but after a process has slept the `release` of its lock turns them on again. -/
def interrupt (c : κ) (π : Pc ℓ χ) (f : Frame ℓ χ) : Prog (Machine κ ℓ χ) (Pc ℓ χ) := do
  let s ← Prog.get
  if (s.held c).length = 0 then return ⟨π.thread, f :: π.stack⟩ else return π

/-- **What a CPU may do.** -/
inductive Moves (c : κ) : Pc ℓ χ → Prog (Machine κ ℓ χ) (Pc ℓ χ) → Prop where
  /-- The next statement. -/
  | frame (t : Thread) (f : Frame ℓ χ) (st : List (Frame ℓ χ)) (ok : Bool) :
    Moves c ⟨t, f :: st⟩ (f.step c t st ok)
  /-- A process calls a function. -/
  | call (p : Fin nproc) {f : Frame ℓ χ} (hf : f.IsCall) :
    Moves c ⟨.proc p, []⟩ (pure ⟨.proc p, [f]⟩)
  | lock (p : Fin nproc) (lk : CondLock ℓ) : Moves c ⟨.proc p, []⟩ (takeLock c ⟨.proc p, []⟩ lk)
  | unlock (p : Fin nproc) (lk : CondLock ℓ) : Moves c ⟨.proc p, []⟩ (dropLock c ⟨.proc p, []⟩ lk)
  /-- It changes what others wait for. -/
  | touch (p : Fin nproc) (cond : CondLock ℓ → Chan χ → Bool) : Moves c ⟨.proc p, []⟩ (do
      Prog.modify fun s => { s with cond := cond }
      return ⟨.proc p, []⟩)
  /-- Its level changes. -/
  | demote (p : Fin nproc) (level : Fin 4) : Moves c ⟨.proc p, []⟩ (do
      Prog.modify fun s => s.setSlot p fun e => { e with mlfqLevel := level }
      return ⟨.proc p, []⟩)
  | interrupt {π : Pc ℓ χ} {f : Frame ℓ χ} (hf : f.IsHandler π.thread) :
    Moves c π (interrupt c π f)

/-- The CPUs as threads of one machine. -/
def cpus : Threads κ (Machine κ ℓ χ) (Pc ℓ χ) := Moves

/-- A configuration of the machine. -/
abbrev Cfg (κ ℓ χ : Type) : Type := Threads.Config κ (Machine κ ℓ χ) (Pc ℓ χ)

/-- **The start.** Every CPU is about to enter its scheduler, no lock is held, and the first process
has been made. -/
structure Starts (cfg : Cfg κ ℓ χ) : Prop where
  pc : ∀ c, cfg.pc c = ⟨.sched, [.schedTop]⟩
  holder : ∀ l, cfg.shared.holder l = none
  held : ∀ c, cfg.shared.held c = []
  cur : ∀ c, cfg.shared.cur c = none
  lastIdx : ∀ c level, cfg.shared.lastIdx c level = ⟨0, by decide⟩
  init : ∃ p, cfg.shared.initproc = some p ∧ (cfg.shared.slot p).state = .runnable ∧
    cfg.shared.context p = [.forkret p] ∧
    ∀ q, q ≠ p → (cfg.shared.slot q).state = .unused ∧ cfg.shared.context q = []

/-- The configurations that are reached. -/
def Reached (cfg : Cfg κ ℓ χ) : Prop :=
  ∃ cfg₀, Starts cfg₀ ∧ cpus.Runs (fun _ _ => True) cfg₀ cfg

end Smp

end Xv6
