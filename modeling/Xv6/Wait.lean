import Xv6.Family
import Xv6.Fs.Filing
import Xv6.Lib.Interleave

/-!
# Parents, children and `wait`

`fork`, `exit` and `wait` run in several processes at once. What is atomic is a critical section:
`fork` makes the child while it holds the child's lock, sets the parent under `wait_lock` and makes
the child runnable under its lock again; `exit` hands its children to init and becomes a zombie
under `wait_lock`; `wait` looks for a zombie and frees it under `wait_lock`.

## Two models

The first model is about families only. An entry of the process table goes through a life, from its
allocation to the moment it is freed, and every step of the system is a step in the life of one
process, or of a process and its children. Everything that is to be shown is shown there.

The second model runs the functions of the kernel, with all they do to memory and files. Each of its
steps is a step of the first model. So the first one says what `proc.c` is for, and the second one
that it does it.

## What is not true

A `fork` that runs out of memory frees the entry it had taken. The entry is then in use but not a
zombie. It has no parent and it has never run, so nobody notices; but it is not true that entries
are freed only when they are zombies.
-/

namespace Xv6

open Threads Prog Function Multiset

/-! ### The life of an entry -/

/-- What happens to an entry of the process table. -/
inductive LifeEvent where
  | alloc (i : Fin nproc) (pid : ℤ)
  /-- The new process becomes runnable. -/
  | start (i : Fin nproc)
  /-- The new process is given up. -/
  | discard (i : Fin nproc)
  | exit (i : Fin nproc) (status : ℤ)
  /-- The process is freed by the `wait` of `parent`, which returns `pid` and `status`. -/
  | reap (parent i : Fin nproc) (pid status : ℤ)
  deriving DecidableEq

/-- The entry that an event is about. -/
def LifeEvent.slot : LifeEvent → Fin nproc
  | alloc i _ | start i | discard i | exit i _ | reap _ i _ _ => i

/-- Where an entry is in its life. -/
inductive Phase where
  | free
  /-- Allocated, and not yet runnable. -/
  | made (pid : ℤ)
  | alive (pid : ℤ)
  | zombie (pid status : ℤ)
  deriving DecidableEq

/-- **One life.** An entry is allocated. It starts, exits and is reaped, by a `wait` that returns its
number and its status; or it is given up before it starts. Then it can be allocated again. -/
def Phase.next : Phase → LifeEvent → Option Phase
  | free, .alloc _ pid => some (made pid)
  | made pid, .start _ => some (alive pid)
  | made _, .discard _ => some free
  | alive pid, .exit _ status => some (zombie pid status)
  | zombie pid status, .reap _ _ pid' status' =>
    if pid' = pid ∧ status' = status then some free else none
  | _, _ => none

/-- Where an entry is after a history of the whole table; `none` if the history is not one of lives
one after another. -/
def lifeOf (history : List LifeEvent) (i : Fin nproc) : Option Phase :=
  (history.filter fun e => e.slot = i).foldlM Phase.next .free

theorem lifeOf_append_self {h : List LifeEvent} {e : LifeEvent} {p : Phase}
    (hp : lifeOf h e.slot = some p) : lifeOf (h ++ [e]) e.slot = p.next e := by
  rw [lifeOf, List.filter_append, List.foldlM_append, ← lifeOf, hp]
  simp

theorem lifeOf_append_of_ne {h : List LifeEvent} {e : LifeEvent} {i : Fin nproc}
    (hi : i ≠ e.slot) : lifeOf (h ++ [e]) i = lifeOf h i := by
  rw [lifeOf, List.filter_append, List.foldlM_append, ← lifeOf]
  simp [hi.symm]

/-- What an entry of the process table says about where it is. -/
def Mark.phase (m : Mark) : Phase :=
  match m.state with
  | .unused => .free
  | .used => .made m.pid
  | .zombie => .zombie m.pid m.xstate
  | .sleeping | .runnable | .running => .alive m.pid

/-- The events about entry `i` that are of a kind. -/
def countOf (kind : LifeEvent → Bool) (h : List LifeEvent) (i : Fin nproc) : ℕ :=
  h.countP fun e => decide (e.slot = i) && kind e

/-- Allocations. -/
def LifeEvent.isAlloc : LifeEvent → Bool
  | alloc _ _ => true
  | _ => false

/-- What frees an entry. -/
def LifeEvent.isFree : LifeEvent → Bool
  | discard _ | reap _ _ _ _ => true
  | _ => false

/-- Calls of `exit`. -/
def LifeEvent.isExit : LifeEvent → Bool
  | exit _ _ => true
  | _ => false

/-- Successful calls of `wait`. -/
def LifeEvent.isReap : LifeEvent → Bool
  | reap _ _ _ _ => true
  | _ => false

theorem lifeOf_append_eq_some {h : List LifeEvent} {e : LifeEvent} {p : Phase}
    (hp : lifeOf (h ++ [e]) e.slot = some p) : ∃ q, lifeOf h e.slot = some q ∧ q.next e = some p := by
  rw [lifeOf, List.filter_append, List.foldlM_append, ← lifeOf] at hp
  simpa [Option.bind_eq_some_iff] using hp

theorem Phase.next_eq_some {q p : Phase} {e : LifeEvent} (h : q.next e = some p) :
    (∃ i pid, q = .free ∧ e = .alloc i pid ∧ p = .made pid) ∨
    (∃ i pid, q = .made pid ∧ e = .start i ∧ p = .alive pid) ∨
    (∃ i pid, q = .made pid ∧ e = .discard i ∧ p = .free) ∨
    (∃ i pid status, q = .alive pid ∧ e = .exit i status ∧ p = .zombie pid status) ∨
    ∃ me i pid status, q = .zombie pid status ∧ e = .reap me i pid status ∧ p = .free := by
  cases q <;> cases e <;> simp_all [Phase.next, eq_comm]

theorem countOf_append (kind : LifeEvent → Bool) (h : List LifeEvent) (e : LifeEvent)
    (i : Fin nproc) :
    countOf kind (h ++ [e]) i = countOf kind h i + if e.slot = i ∧ kind e = true then 1 else 0 := by
  rw [countOf, List.countP_append, ← countOf]
  simp

/-- **Each allocation is freed once** before the next, and each exit is reaped once. -/
theorem counts_of_lifeOf {h : List LifeEvent} {i : Fin nproc} : ∀ {p : Phase},
    lifeOf h i = some p →
    countOf LifeEvent.isAlloc h i = countOf LifeEvent.isFree h i + (if p = .free then 0 else 1) ∧
    countOf LifeEvent.isExit h i = countOf LifeEvent.isReap h i +
      (match p with
        | .zombie _ _ => 1
        | _ => 0) := by
  induction h using List.reverseRecOn with
  | nil =>
    intro p hp
    obtain rfl : p = .free := by
      simpa [lifeOf, eq_comm] using hp
    exact ⟨rfl, rfl⟩
  | append_singleton h e ih =>
    intro p hp
    rw [countOf_append, countOf_append, countOf_append, countOf_append]
    by_cases hi : e.slot = i
    · subst hi
      obtain ⟨q, hq, hnext⟩ := lifeOf_append_eq_some hp
      obtain ⟨hfree, hreap⟩ := ih hq
      rw [hfree, hreap]
      rcases Phase.next_eq_some hnext with ⟨i, pid, rfl, rfl, rfl⟩ | ⟨i, pid, rfl, rfl, rfl⟩ |
          ⟨i, pid, rfl, rfl, rfl⟩ | ⟨i, pid, status, rfl, rfl, rfl⟩ |
          ⟨me, i, pid, status, rfl, rfl, rfl⟩ <;>
        simp [LifeEvent.isAlloc, LifeEvent.isFree, LifeEvent.isExit, LifeEvent.isReap]
    · rw [lifeOf_append_of_ne (Ne.symm hi)] at hp
      simpa [hi] using ih hp

/-! ### The first model -/

/-- Where a process is in `fork` or `wait`. -/
inductive FamilyPc where
  | idle
  /-- `fork` has made the child. -/
  | forked (np : Fin nproc) (pid : ℤ)
  /-- `fork` has set the parent of the child. -/
  | adopted (np : Fin nproc) (pid : ℤ)
  /-- In `wait`, about to look for a zombie. -/
  | waiting (addr : ℕ)

/-- The child that a process is making. -/
def FamilyPc.child : FamilyPc → Option (Fin nproc)
  | forked np _ | adopted np _ => some np
  | idle | waiting _ => none

@[simp] theorem FamilyPc.child_idle : idle.child = none := rfl

@[simp] theorem FamilyPc.child_forked (np : Fin nproc) (pid : ℤ) :
    (forked np pid).child = some np := rfl

@[simp] theorem FamilyPc.child_adopted (np : Fin nproc) (pid : ℤ) :
    (adopted np pid).child = some np := rfl

@[simp] theorem FamilyPc.child_waiting (addr : ℕ) : (waiting addr).child = none := rfl

/-- Families: the processes, where each of them is, and what has happened. -/
structure Clan where
  family : Family
  pc : Fin nproc → FamilyPc
  history : List LifeEvent
  /-- When the process was made. -/
  born : Fin nproc → ℕ
  /-- How many processes have been made. -/
  births : ℕ

namespace Clan

/-- What an entry says. -/
def mark (a : Clan) (i : Fin nproc) : Mark := a.family.mark i

/-- One entry changes, and an event is noted. -/
def write (a : Clan) (i : Fin nproc) (m : Mark) (es : List LifeEvent) : Clan :=
  { a with
    family := a.family.set i m
    history := a.history ++ es }

theorem write_nil (a : Clan) (i : Fin nproc) (m : Mark) :
    a.write i m [] = { a with family := a.family.set i m } := by
  rw [write, List.append_nil]

/-- A process moves on. -/
def goto (a : Clan) (me : Fin nproc) (pc : FamilyPc) : Clan :=
  { a with pc := update a.pc me pc }

/-- A process is made. -/
def bear (a : Clan) (i : Fin nproc) : Clan :=
  { a with
    born := update a.born i a.births
    births := a.births + 1 }

/-- `fork` takes a step with its child `np`, which was made at time `t`. -/
def rear (a : Clan) (me np : Fin nproc) (m : Mark) (es : List LifeEvent) (pc : FamilyPc)
    (t n : ℕ) : Clan :=
  { (a.write np m es).goto me pc with
    born := update a.born np t
    births := n }

/-- A process has become a zombie, and its children are init's. -/
def exited (a : Clan) (me : Fin nproc) (status : ℤ) : Clan :=
  { a with
    family := (a.family.orphaned me).set me
      { (a.family.orphaned me).mark me with state := .zombie, xstate := status }
    history := a.history ++ [.exit me status] }

/-- All that can be done to an entry without any process taking notice: its process is scheduled,
woken up or killed. -/
def Stirred (m m' : Mark) : Prop :=
  m'.pid = m.pid ∧ m'.parent = m.parent ∧ m'.xstate = m.xstate ∧
    (m'.state = m.state ∨ m.state.Live ∧ m'.state.Live)

/-- **A step of a family.** -/
inductive Step (a : Clan) : Clan → Prop where
  | make {me i : Fin nproc} {pid : ℤ} (hpc : a.pc me = .idle) (hme : (a.mark me).state = .running)
      (hi : (a.mark i).state = .unused) :
      Step a (((a.write i { a.mark i with state := .used, pid := pid } [.alloc i pid]).bear i).goto
        me (.forked i pid))
  | waste {i : Fin nproc} {pid : ℤ} (hi : (a.mark i).state = .unused) :
      Step a (a.write i .free [.alloc i pid, .discard i])
  | adopt {me np : Fin nproc} {pid : ℤ} (hpc : a.pc me = .forked np pid) :
      Step a ((a.write np { a.mark np with parent := some me } []).goto me (.adopted np pid))
  | start {me np : Fin nproc} {pid : ℤ} (hpc : a.pc me = .adopted np pid) :
      Step a ((a.write np { a.mark np with state := .runnable } [.start np]).goto me .idle)
  | exit {me : Fin nproc} {status : ℤ} (hpc : a.pc me = .idle) (hme : (a.mark me).state = .running)
      (hinit : a.family.initproc ≠ some me) : Step a (a.exited me status)
  | wait {me : Fin nproc} (hme : (a.mark me).state = .running) (hpc : a.pc me = .idle)
      (addr : ℕ) : Step a (a.goto me (.waiting addr))
  | reap {me j : Fin nproc} {addr : ℕ} (hpc : a.pc me = .waiting addr)
      (hparent : (a.mark j).parent = some me) (hj : (a.mark j).state = .zombie) :
      Step a ((a.write j .free [.reap me j (a.mark j).pid (a.mark j).xstate]).goto me .idle)
  | giveUp {me : Fin nproc} {addr : ℕ} (hpc : a.pc me = .waiting addr) : Step a (a.goto me .idle)
  | stir {i : Fin nproc} {m : Mark} (hm : Stirred (a.mark i) m) : Step a (a.write i m [])

theorem Step.stir_family {a : Clan} {i : Fin nproc} {m : Mark} (hm : Stirred (a.mark i) m) :
    a.Step { a with family := a.family.set i m } := by
  rw [← write_nil]
  exact .stir hm

section Projections

variable (a : Clan) (i j me : Fin nproc) (m : Mark) (es : List LifeEvent) (pc : FamilyPc)

@[simp] theorem write_mark : (a.write i m es).mark j = if j = i then m else a.mark j :=
  update_apply ..

@[simp] theorem write_pc : (a.write i m es).pc = a.pc := rfl

@[simp] theorem rear_mark (t n : ℕ) :
    (a.rear me i m es pc t n).mark j = if j = i then m else a.mark j :=
  update_apply ..

@[simp] theorem rear_pc (t n : ℕ) :
    (a.rear me i m es pc t n).pc j = if j = me then pc else a.pc j :=
  update_apply ..

@[simp] theorem rear_born (t n : ℕ) :
    (a.rear me i m es pc t n).born j = if j = i then t else a.born j :=
  update_apply ..

@[simp] theorem goto_pc : (a.goto me pc).pc j = if j = me then pc else a.pc j :=
  update_apply ..

end Projections

/-- **What holds of every family.** -/
structure Ok (init : Fin nproc) (a : Clan) : Prop where
  initproc : a.family.initproc = some init
  initLive : (a.mark init).state.Live
  /-- Only live processes are in the middle of something. -/
  busy : ∀ me, a.pc me ≠ .idle → (a.mark me).state.Live
  unused : ∀ i, (a.mark i).state = .unused → (a.mark i).parent = none
  making : ∀ me np, (a.pc me).child = some np →
    (a.mark np).state = .used ∧ a.born me < a.born np
  single : ∀ me me' np, (a.pc me).child = some np → (a.pc me').child = some np → me = me'
  forked : ∀ me np pid, a.pc me = .forked np pid → (a.mark np).parent = none
  adopted : ∀ me np pid, a.pc me = .adopted np pid → (a.mark np).parent = some me
  /-- Parents are live, and older than their children unless they are init. -/
  parent : ∀ i, i ≠ init → (a.mark i).state ≠ .unused →
    (∃ me pid, a.pc me = .forked i pid) ∨
    ∃ p, (a.mark i).parent = some p ∧ (a.mark p).state.Live ∧ (p = init ∨ a.born p < a.born i)
  births : ∀ i, (a.mark i).state ≠ .unused → a.born i < a.births
  history : ∀ i, lifeOf a.history i = some (a.mark i).phase

section Ok

variable {init me i np : Fin nproc} {pid status : ℤ} {a : Clan} {m : Mark} {es : List LifeEvent}
  {pc : FamilyPc}

/-- A live process is not at an entry that is not live. -/
theorem ne_of_live {j : Fin nproc} (hj : (a.mark j).state.Live) (hi : ¬(a.mark i).state.Live) :
    j ≠ i := fun heq => hi (heq ▸ hj)

section

variable (h : Ok init a)
include h

theorem Ok.child_live (hchild : (a.pc me).child = some np) : (a.mark me).state.Live :=
  h.busy me fun hidle => by
    rw [hidle] at hchild
    exact absurd hchild (by simp)

/-- The child that is being made is not at an entry in another state. -/
theorem Ok.child_ne (hchild : (a.pc me).child = some np)
    (hi : (a.mark i).state ≠ .used) : np ≠ i := fun heq =>
  hi (heq ▸ (h.making me np hchild).1)

theorem Ok.history_write (hes : ∀ e ∈ es, e.slot = i)
    (hlife : lifeOf (a.history ++ es) i = some m.phase)
    (j : Fin nproc) : lifeOf (a.history ++ es) j = some (if j = i then m else a.mark j).phase := by
  by_cases hj : j = i
  · rw [hj, hlife, if_pos rfl]
  · have hnone : es.filter (fun e => e.slot = j) = [] := by
      rw [List.filter_eq_nil_iff]
      intro e he hslot
      exact hj ((decide_eq_true_eq.mp hslot).symm.trans (hes e he))
    rw [if_neg hj, ← h.history j, lifeOf, List.filter_append, hnone, List.append_nil, lifeOf]

/-- **`fork` takes a step with its child**, which nobody else is making: it has a new child, sets the
parent of the child, or makes it runnable. -/
theorem Ok.rear {t n : ℕ}
    (hlive : (a.mark me).state.Live) (hdead : ¬(a.mark np).state.Live)
    (hother : ∀ {j np'}, j ≠ me → (a.pc j).child = some np' → np' ≠ np)
    (hmine : ∀ {i}, (a.pc me).child = some i → i = np)
    (hpc : (pc = .forked np pid ∧ m.state = .used ∧ m.parent = none) ∨
      m.parent = some me ∧ (m.state = .used ∧ pc = .adopted np pid ∨ m.state.Live ∧ pc = .idle))
    (hborn : a.born me < t) (ht : t < n) (hn : a.births ≤ n)
    (hes : ∀ e ∈ es, e.slot = np) (hlife : lifeOf (a.history ++ es) np = some m.phase) :
    Ok init (a.rear me np m es pc t n) := by
  have hmenp := ne_of_live hlive hdead
  have hinuse : m.state ≠ .unused := by
    rintro hu
    simp [hu, ProcState.Live] at hpc
  have hself : ∀ {np'}, pc.child = some np' → np' = np ∧ m.state = .used := by
    intro np' hnp'
    rcases hpc with ⟨rfl, hu, -⟩ | ⟨-, ⟨hu, rfl⟩ | ⟨-, rfl⟩⟩
    · exact ⟨(Option.some.inj hnp').symm, hu⟩
    · exact ⟨(Option.some.inj hnp').symm, hu⟩
    · simp at hnp'
  refine ⟨h.initproc, ?_, fun j hj => ?_, fun j hj => ?_, fun j np' hj => ?_,
    fun j j' np' hj hj' => ?_, fun j np' pid' hj => ?_, fun j np' pid' hj => ?_,
    fun j hne hj => ?_, fun j hj => ?_, fun j => by rw [rear_mark]; exact h.history_write hes hlife j⟩
  · simpa [ne_of_live h.initLive hdead] using h.initLive
  · by_cases heq : j = me
    · simpa [heq, hmenp] using hlive
    · have hl := h.busy j (by simpa [heq] using hj)
      simpa [ne_of_live hl hdead] using hl
  · by_cases heq : j = np
    · exact absurd (by simpa [heq] using hj) hinuse
    · simpa [heq] using h.unused j (by simpa [heq] using hj)
  · by_cases heq : j = me
    · obtain ⟨rfl, hu⟩ := hself (by simpa [heq] using hj)
      simpa [heq, hu, hmenp] using hborn
    · have hj' : (a.pc j).child = some np' := by simpa [heq] using hj
      simpa [hother heq hj', ne_of_live (h.child_live hj') hdead] using h.making j np' hj'
  · by_cases heq : j = me <;> by_cases heq' : j' = me
    · rw [heq, heq']
    · exact absurd (hself (by simpa [heq] using hj)).1 (hother heq' (by simpa [heq'] using hj'))
    · exact absurd (hself (by simpa [heq'] using hj')).1 (hother heq (by simpa [heq] using hj))
    · exact h.single j j' np' (by simpa [heq] using hj) (by simpa [heq'] using hj')
  · by_cases heq : j = me
    · have hj' : pc = .forked np' pid' := by simpa [heq] using hj
      rcases hpc with ⟨hpc, -, hm⟩ | ⟨-, ⟨-, rfl⟩ | ⟨-, rfl⟩⟩
      · obtain ⟨rfl, -⟩ := FamilyPc.forked.inj (hpc.symm.trans hj')
        simpa using hm
      · nomatch hj'
      · nomatch hj'
    · have hj' : a.pc j = .forked np' pid' := by simpa [heq] using hj
      simpa [hother heq (by rw [hj']; rfl)] using h.forked j np' pid' hj'
  · by_cases heq : j = me
    · have hj' : pc = .adopted np' pid' := by simpa [heq] using hj
      obtain ⟨rfl, -⟩ := hself (by rw [hj']; rfl)
      rcases hpc with ⟨rfl, -⟩ | ⟨hm, -⟩
      · nomatch hj'
      · simpa [heq] using hm
    · have hj' : a.pc j = .adopted np' pid' := by simpa [heq] using hj
      simpa [hother heq (by rw [hj']; rfl)] using h.adopted j np' pid' hj'
  · by_cases heq : j = np
    · rcases hpc with ⟨rfl, -⟩ | ⟨hm, -⟩
      · exact Or.inl ⟨me, pid, by simp [heq]⟩
      · exact Or.inr ⟨me, by simpa [heq] using hm, by simpa [hmenp] using hlive,
          Or.inr (by simpa [heq, hmenp] using hborn)⟩
    · rcases h.parent j hne (by simpa [heq] using hj) with ⟨q, pid', hq⟩ | ⟨q, hq, hlq, hold⟩
      · have hqme : q ≠ me := by
          rintro rfl
          exact heq (hmine (by rw [hq]; rfl))
        exact Or.inl ⟨q, pid', by simpa [hqme] using hq⟩
      · have hqnp := ne_of_live hlq hdead
        exact Or.inr ⟨q, by simpa [heq] using hq, by simpa [hqnp] using hlq,
          by simpa [heq, hqnp] using hold⟩
  · by_cases heq : j = np
    · simpa [heq] using (show t < (a.rear me np m es pc t n).births from ht)
    · rw [rear_born, if_neg heq]
      exact (h.births j (by simpa [heq] using hj)).trans_le hn

theorem Ok.make (hpc : a.pc me = .idle) (hme : (a.mark me).state = .running)
    (hi : (a.mark i).state = .unused) :
    Ok init (((a.write i { a.mark i with state := .used, pid := pid } [.alloc i pid]).bear i).goto
      me (.forked i pid)) := by
  have hlife : lifeOf (a.history ++ [.alloc i pid]) i = some (Phase.made pid) :=
    (lifeOf_append_self (h.history i)).trans (by rw [Mark.phase, hi]; rfl)
  exact h.rear (Or.inl hme) (by simp [hi, ProcState.Live])
    (fun _ hj => h.child_ne hj (by simp [hi])) (fun hj => by simp [hpc] at hj)
    (Or.inl ⟨rfl, rfl, h.unused i hi⟩) (h.births me (by simp [hme])) (Nat.lt_succ_self _)
    (Nat.le_succ _) (by simp [LifeEvent.slot]) hlife

/-- An entry changes that is not a child in the making, and it does not stop being live. -/
theorem Ok.write (hlive : (a.mark i).state.Live → m.state.Live)
    (hmade : m.state = .used → m.parent = (a.mark i).parent)
    (hused : (a.mark i).state = .used → m.state = .used)
    (hunused : m.state = .unused → m.parent = none)
    (hparent : m.state ≠ .unused → (a.mark i).state ≠ .unused ∧ m.parent = (a.mark i).parent)
    (hes : ∀ e ∈ es, e.slot = i) (hlife : lifeOf (a.history ++ es) i = some m.phase) :
    Ok init (a.write i m es) := by
  have hkeeps : ∀ {j}, (a.mark j).state.Live → ((a.write i m es).mark j).state.Live := by
    intro j hj
    by_cases heq : j = i
    · rw [heq] at hj
      simpa [heq] using hlive hj
    · simpa [heq] using hj
  have hchild : ∀ {j np}, (a.pc j).child = some np →
      ((a.write i m es).mark np).state = .used ∧
        ((a.write i m es).mark np).parent = (a.mark np).parent := by
    intro j np hj
    have hnp := (h.making j np hj).1
    by_cases heq : np = i
    · rw [heq] at hnp ⊢
      simpa using ⟨hused hnp, hmade (hused hnp)⟩
    · simpa [heq] using hnp
  refine ⟨h.initproc, hkeeps h.initLive, fun j hj => hkeeps (h.busy j hj), fun j hj => ?_,
    fun j np hj => ⟨(hchild hj).1, (h.making j np hj).2⟩, h.single,
    fun j np pid' hj => ((hchild (by rw [show a.pc j = _ from hj]; rfl)).2).trans
      (h.forked j np pid' hj),
    fun j np pid' hj => ((hchild (by rw [show a.pc j = _ from hj]; rfl)).2).trans
      (h.adopted j np pid' hj), fun j hne hj => ?_, fun j hj => ?_,
    fun j => (h.history_write hes hlife j).trans (by rw [Clan.write_mark])⟩
  · by_cases heq : j = i
    · simpa [heq] using hunused (by simpa [heq] using hj)
    · simpa [heq] using h.unused j (by simpa [heq] using hj)
  · have hold : (a.mark j).state ≠ .unused ∧
        ((a.write i m es).mark j).parent = (a.mark j).parent := by
      by_cases heq : j = i
      · simpa [heq] using hparent (by simpa [heq] using hj)
      · exact ⟨by simpa [heq] using hj, by simp [heq]⟩
    rcases h.parent j hne hold.1 with hq | ⟨q, hq, hlq, hborn⟩
    · exact Or.inl hq
    · exact Or.inr ⟨q, hold.2.trans hq, hkeeps hlq, hborn⟩
  · by_cases heq : j = i
    · have hm : m.state ≠ .unused := by simpa [heq] using hj
      rw [heq]
      exact h.births i (hparent hm).1
    · exact h.births j (by simpa [heq] using hj)

/-- Freeing an entry that is not live and that nobody is making. -/
theorem Ok.free (hi : ¬(a.mark i).state.Live) (hused : (a.mark i).state ≠ .used)
    (hes : ∀ e ∈ es, e.slot = i) (hlife : lifeOf (a.history ++ es) i = some .free) :
    Ok init (a.write i .free es) :=
  h.write (fun hl => absurd hl hi) (fun hu => by cases hu) (fun hu => absurd hu hused)
    (fun _ => rfl) (fun hn => absurd rfl hn) hes hlife

theorem Ok.waste (hi : (a.mark i).state = .unused) :
    Ok init (a.write i .free [.alloc i pid, .discard i]) := by
  refine h.free (by simp [hi, ProcState.Live]) (by simp [hi]) (by simp [LifeEvent.slot]) ?_
  have halloc : lifeOf (a.history ++ [.alloc i pid]) i = some (Phase.made pid) :=
    (lifeOf_append_self (h.history i)).trans (by rw [Mark.phase, hi]; rfl)
  rw [show [LifeEvent.alloc i pid, .discard i] = [.alloc i pid] ++ [.discard i] from rfl,
    ← List.append_assoc]
  exact lifeOf_append_self (e := .discard i) halloc

theorem Ok.reap {j : Fin nproc} (hj : (a.mark j).state = .zombie) :
    Ok init (a.write j .free [.reap me j (a.mark j).pid (a.mark j).xstate]) := by
  refine h.free (by simp [hj, ProcState.Live]) (by simp [hj]) (by simp [LifeEvent.slot]) ?_
  refine (lifeOf_append_self (e := .reap me j _ _) (h.history j)).trans ?_
  rw [Mark.phase, hj]
  simp [Phase.next]

theorem Ok.stir (hm : Stirred (a.mark i) m) : Ok init (a.write i m []) := by
  obtain ⟨hpid, hparent, hx, hstate⟩ := hm
  have hphase : m.phase = (a.mark i).phase := by
    rcases hstate with heq | ⟨hl, hl'⟩
    · rw [Mark.phase, Mark.phase, heq, hpid, hx]
    · rcases hl with hs | hs | hs <;> rcases hl' with hs' | hs' | hs' <;>
        rw [Mark.phase, Mark.phase, hs, hs', hpid]
  refine h.write (fun hl => ?_) (fun _ => hparent) (fun hu => ?_) (fun hu => ?_) (fun hn => ?_)
    (by simp) (by rw [List.append_nil, h.history i, hphase])
  · rcases hstate with heq | ⟨-, hl'⟩
    · rwa [heq]
    · exact hl'
  · rcases hstate with heq | ⟨hl, -⟩
    · rwa [heq]
    · simp [hu, ProcState.Live] at hl
  · rcases hstate with heq | ⟨-, hl'⟩
    · rw [hparent]
      exact h.unused i (heq.symm.trans hu)
    · simp [hu, ProcState.Live] at hl'
  · refine ⟨fun hu => ?_, hparent⟩
    rcases hstate with heq | ⟨hl, -⟩
    · exact hn (heq.trans hu)
    · simp [hu, ProcState.Live] at hl

/-- A process that is not making a child moves on and does not begin to. -/
theorem Ok.goto (hold : (a.pc me).child = none) (hnew : pc.child = none)
    (hlive : pc ≠ .idle → (a.mark me).state.Live) :
    Ok init (a.goto me pc) := by
  have hchild : ∀ {j np}, ((a.goto me pc).pc j).child = some np →
      (a.goto me pc).pc j = a.pc j := by
    intro j np hj
    by_cases heq : j = me
    · simp [heq, hnew] at hj
    · simp [heq]
  refine ⟨h.initproc, h.initLive, fun j hj => ?_, h.unused, fun j np hj => ?_,
    fun j j' np hj hj' => ?_, fun j np pid' hj => ?_, fun j np pid' hj => ?_, fun j hne hj => ?_,
    h.births, h.history⟩
  · by_cases heq : j = me
    · rw [heq]
      exact hlive (by simpa [heq] using hj)
    · exact h.busy j (by simpa [heq] using hj)
  · exact h.making j np (hchild hj ▸ hj)
  · exact h.single j j' np (hchild hj ▸ hj) (hchild hj' ▸ hj')
  · exact h.forked j np pid' ((hchild (by rw [hj]; rfl)).symm.trans hj)
  · exact h.adopted j np pid' ((hchild (by rw [hj]; rfl)).symm.trans hj)
  · rcases h.parent j hne hj with ⟨q, pid', hq⟩ | hq
    · have hqme : q ≠ me := fun he => by
        rw [he] at hq
        simp [hq] at hold
      exact Or.inl ⟨q, pid', by simpa [hqme] using hq⟩
    · exact Or.inr hq

/-- `fork` goes on with its child: it sets the parent, or makes it runnable. -/
theorem Ok.raise (hchild : (a.pc me).child = some np) (hm : m.parent = some me)
    (hpc : m.state = .used ∧ pc = .adopted np pid ∨ m.state.Live ∧ pc = .idle)
    (hes : ∀ e ∈ es, e.slot = np) (hlife : lifeOf (a.history ++ es) np = some m.phase) :
    Ok init ((a.write np m es).goto me pc) := by
  obtain ⟨hused, hborn⟩ := h.making me np hchild
  have hother : ∀ {j np'}, j ≠ me → (a.pc j).child = some np' → np' ≠ np := by
    rintro j np' hj hj' rfl
    exact hj (h.single j me _ hj' hchild)
  have hrear := h.rear (h.child_live hchild) (by simp [hused, ProcState.Live]) hother
    (fun hi => Option.some.inj (hi.symm.trans hchild)) (Or.inr ⟨hm, hpc⟩) hborn
    (h.births np (by simp [hused])) le_rfl hes hlife
  rwa [Clan.rear, update_eq_self] at hrear

theorem Ok.adopt (hpc : a.pc me = .forked np pid) :
    Ok init ((a.write np { a.mark np with parent := some me } []).goto me (.adopted np pid)) := by
  have hchild : (a.pc me).child = some np := by rw [hpc]; rfl
  refine h.raise hchild rfl (Or.inl ⟨(h.making me np hchild).1, rfl⟩) (by simp) ?_
  rw [List.append_nil, h.history np]
  rfl

theorem Ok.start (hpc : a.pc me = .adopted np pid) :
    Ok init ((a.write np { a.mark np with state := .runnable } [.start np]).goto me .idle) := by
  have hchild : (a.pc me).child = some np := by rw [hpc]; rfl
  have hidle : { a.mark np with state := .runnable }.state = .used ∧
        FamilyPc.idle = .adopted np pid ∨
      { a.mark np with state := .runnable }.state.Live ∧ FamilyPc.idle = .idle :=
    Or.inr ⟨Or.inr (Or.inl rfl), rfl⟩
  refine h.raise hchild (h.adopted me np pid hpc) hidle (by simp [LifeEvent.slot]) ?_
  refine (lifeOf_append_self (e := .start np) (h.history np)).trans ?_
  rw [Mark.phase, (h.making me np hchild).1]
  rfl

end

theorem exited_mark_self : (a.exited me status).mark me
    = { (a.family.orphaned me).mark me with state := .zombie, xstate := status } :=
  Family.set_mark_self ..

theorem exited_mark_of_ne {j : Fin nproc} (hj : j ≠ me) :
    (a.exited me status).mark j = (a.family.orphaned me).mark j :=
  Family.set_mark_of_ne _ _ hj

theorem orphaned_mark (j : Fin nproc) :
    (a.family.orphaned me).mark j = { a.mark j with
      parent := if (a.mark j).parent = some me then a.family.initproc else (a.mark j).parent } := by
  rw [Family.orphaned]
  dsimp only
  change (if (a.mark j).parent = some me then _ else a.mark j) = _
  split_ifs <;> rfl

theorem exited_parent (j : Fin nproc) : ((a.exited me status).mark j).parent
    = if (a.mark j).parent = some me then a.family.initproc else (a.mark j).parent := by
  by_cases hj : j = me
  · rw [hj, exited_mark_self, orphaned_mark]
  · rw [exited_mark_of_ne hj, orphaned_mark]

theorem exited_state {j : Fin nproc} (hj : j ≠ me) :
    ((a.exited me status).mark j).state = (a.mark j).state := by
  rw [exited_mark_of_ne hj, orphaned_mark]

theorem Ok.exit (h : Ok init a) (hpc : a.pc me = .idle) (hme : (a.mark me).state = .running)
    (hinit : a.family.initproc ≠ some me) : Ok init (a.exited me status) := by
  have hinitme : init ≠ me := fun heq => hinit (heq ▸ h.initproc)
  have hinuse : ∀ {j}, ((a.exited me status).mark j).state ≠ .unused →
      (a.mark j).state ≠ .unused := by
    intro j hj
    by_cases heq : j = me
    · simp [heq, hme]
    · rwa [exited_state heq] at hj
  have hchild : ∀ {j np}, (a.pc j).child = some np → np ≠ me :=
    fun hj => h.child_ne hj (by simp [hme])
  have hidle : ∀ {j}, a.pc j ≠ .idle → j ≠ me := fun hj heq => hj (heq ▸ hpc)
  refine ⟨h.initproc, ?_, fun j hj => ?_, fun j hj => ?_, fun j np hj => ?_, h.single,
    fun j np pid' hj => ?_, fun j np pid' hj => ?_, fun j hne hj => ?_,
    fun j hj => h.births j (hinuse hj), fun j => ?_⟩
  · rw [exited_state hinitme]
    exact h.initLive
  · rw [exited_state (hidle hj)]
    exact h.busy j hj
  · have heq : j ≠ me := by
      rintro rfl
      rw [exited_mark_self] at hj
      cases hj
    rw [exited_state heq] at hj
    rw [exited_parent, h.unused j hj, if_neg (by simp)]
  · rw [exited_state (hchild hj)]
    exact h.making j np hj
  · rw [exited_parent, h.forked j np pid' hj, if_neg (by simp)]
  · have hjme : j ≠ me := hidle (by rw [show a.pc j = _ from hj]; simp)
    rw [exited_parent, h.adopted j np pid' hj, if_neg (by simpa using hjme)]
  · rcases h.parent j hne (hinuse hj) with hq | ⟨q, hq, hlq, hborn⟩
    · exact Or.inl hq
    · by_cases hqme : q = me
      · refine Or.inr ⟨init, ?_, ?_, Or.inl rfl⟩
        · rw [exited_parent, hq, hqme, if_pos rfl, h.initproc]
        · rw [exited_state hinitme]
          exact h.initLive
      · refine Or.inr ⟨q, ?_, ?_, hborn⟩
        · rw [exited_parent, hq, if_neg (by simpa using hqme)]
        · rwa [exited_state hqme]
  · by_cases heq : j = me
    · rw [heq, exited_mark_self, orphaned_mark]
      refine (lifeOf_append_self (e := .exit me status) (h.history me)).trans ?_
      rw [Mark.phase, hme]
      rfl
    · refine (lifeOf_append_of_ne (e := .exit me status) heq).trans ((h.history j).trans ?_)
      rw [exited_mark_of_ne heq, orphaned_mark]
      rfl

/-- **Every step keeps the family in order.** -/
theorem Ok.step {a' : Clan} (h : Ok init a) (hs : a.Step a') : Ok init a' := by
  cases hs with
  | make hpc hme hi => exact h.make hpc hme hi
  | waste hi => exact h.waste hi
  | adopt hpc => exact h.adopt hpc
  | start hpc => exact h.start hpc
  | exit hpc hme hinit => exact h.exit hpc hme hinit
  | wait hme hpc addr => exact h.goto (by simp [hpc]) rfl fun _ => Or.inl hme
  | reap hpc _ hj => exact (h.reap hj).goto (by simp [hpc]) rfl fun hne => absurd rfl hne
  | giveUp hpc => exact h.goto (by simp [hpc]) rfl fun hne => absurd rfl hne
  | stir hm => exact h.stir hm

/-- Who is whose parent. -/
def ParentOf (a : Clan) (i p : Fin nproc) : Prop := (a.mark i).parent = some p

/-- **The ancestors of a process lead to init.** -/
theorem Ok.ancestors (h : Ok init a) : ∀ i, (a.mark i).state ≠ .unused →
    (∀ me pid, a.pc me ≠ .forked i pid) → Relation.ReflTransGen a.ParentOf i init := by
  -- parents are older
  intro i
  induction hn : a.born i using Nat.strong_induction_on generalizing i with
  | _ n ih =>
    intro hi hset
    by_cases heq : i = init
    · rw [heq]
    · rcases h.parent i heq hi with ⟨me, pid, hpc⟩ | ⟨p, hp, hlive, hold⟩
      · exact absurd hpc (hset me pid)
      · rcases hold with rfl | hold
        · exact .single hp
        · have hp' : ∀ me pid, a.pc me ≠ .forked p pid := by
            intro me pid hpc
            have hused := (h.making me p (by rw [hpc]; rfl)).1
            simp [hused, ProcState.Live] at hlive
          have hinuse : (a.mark p).state ≠ .unused := fun hu => by
            simp [hu, ProcState.Live] at hlive
          exact .head hp (ih _ (hn ▸ hold) p rfl hinuse hp')

end Ok

end Clan

/-! ### The second model -/

/-- A kernel, and what has happened to its processes. No code reads the latter. -/
structure Household where
  kernel : Kernel
  history : List LifeEvent
  born : Fin nproc → ℕ
  births : ℕ

/-- The kernel, as a part. -/
def Household.kernelPart : Prog.Part Household Kernel where
  get := kernel
  put h k := { h with kernel := k }

/-- Run a function of the kernel. -/
def onKernel {α : Type} (x : Prog Kernel α) : Prog Household α :=
  zoom Household.kernelPart x

/-- Note an event. -/
def note (es : List LifeEvent) : Prog Household Unit :=
  Prog.modify fun h => { h with history := h.history ++ es }

/-- Only a running process executes anything; another one stays where it is. -/
def whenRunning (me : Fin nproc) (pc : FamilyPc) (x : Prog Household FamilyPc) :
    Prog Household FamilyPc := do
  let h ← Prog.get
  if (h.kernel.proc me).state = .running then x else return pc

/-- The first part of `fork`. If it fails, the entry was taken and given back, unless there was
none. -/
def forkMakeStep (me : Fin nproc) : Prog Household FamilyPc := do
  let h ← Prog.get
  match ← onKernel (forkMake me) with
  | some (np, pid) => do
    note [.alloc np pid]
    Prog.modify fun h => { h with
      born := update h.born np h.births
      births := h.births + 1 }
    return .forked np pid
  | none =>
    match h.kernel.firstUnused with
    | none => return .idle
    | some i => do
      note [.alloc i h.kernel.nextpid, .discard i]
      return .idle

/-- The second part. -/
def forkAdoptStep (me np : Fin nproc) (pid : ℤ) : Prog Household FamilyPc := do
  onKernel (forkAdopt me np)
  return .adopted np pid

/-- The third part. -/
def forkStartStep (np : Fin nproc) : Prog Household FamilyPc := do
  onKernel (forkStart np)
  note [.start np]
  return .idle

/-- `exit`. -/
def exitStep (me : Fin nproc) (status : ℤ) : Prog Household FamilyPc := do
  onKernel (kexit me status)
  note [.exit me status]
  return .idle

/-- One round of `wait`. If the zombie it finds is gone afterwards, it was reaped. -/
def waitStep (me : Fin nproc) (addr : ℕ) : Prog Household FamilyPc := do
  let h ← Prog.get
  match ← onKernel (kwait me addr) with
  | .sleep => return .waiting addr
  | .ret _ => do
    let h' ← Prog.get
    match h.kernel.zombieChild me with
    | none => return .idle
    | some j =>
      if (h'.kernel.proc j).state = .unused then do
        note [.reap me j (h.kernel.proc j).pid (h.kernel.proc j).xstate]
        return .idle
      else return .idle

/-- `kill`, which may wake a process up. -/
def killStep (pid : ℤ) : Prog Household FamilyPc := do
  let _ ← onKernel (kkill pid)
  return .idle

/-- The scheduler and the interrupts: a live process begins or ceases to run. -/
def scheduleStep (p : Fin nproc) (state : ProcState) : Prog Household FamilyPc := do
  let h ← Prog.get
  if (h.kernel.proc p).state ∈ [.running, .runnable, .sleeping] ∧
      state ∈ [.running, .runnable, .sleeping] then do
    onKernel (updateProc p fun x => { x with state := state })
    return .idle
  else return .idle

/-- The processes, and as `none` the rest of the machine. A process may also do anything that has
nothing to do with families. -/
inductive familyThreads : Threads (Option (Fin nproc)) Household FamilyPc
  | fork (me : Fin nproc) :
      familyThreads (some me) .idle (whenRunning me .idle (forkMakeStep me))
  | adopt (me np : Fin nproc) (pid : ℤ) : familyThreads (some me) (.forked np pid)
      (whenRunning me (.forked np pid) (forkAdoptStep me np pid))
  | start (me np : Fin nproc) (pid : ℤ) : familyThreads (some me) (.adopted np pid)
      (whenRunning me (.adopted np pid) (forkStartStep np))
  | exit (me : Fin nproc) (status : ℤ) :
      familyThreads (some me) .idle (whenRunning me .idle (exitStep me status))
  | wait (me : Fin nproc) (addr : ℕ) :
      familyThreads (some me) .idle (whenRunning me .idle (return .waiting addr))
  | scan (me : Fin nproc) (addr : ℕ) : familyThreads (some me) (.waiting addr)
      (whenRunning me (.waiting addr) (waitStep me addr))
  | kill (me : Fin nproc) (pid : ℤ) :
      familyThreads (some me) .idle (whenRunning me .idle (killStep pid))
  | other (me : Fin nproc) {x : Prog Kernel Unit} (hx : Leaves Kernel.family x) :
      familyThreads (some me) .idle (do
        onKernel x
        return .idle)
  | schedule (p : Fin nproc) (state : ProcState) : familyThreads none .idle (scheduleStep p state)

/-- The family of a configuration. -/
def clanOf (c : Config (Option (Fin nproc)) Household FamilyPc) : Clan where
  family := c.shared.kernel.family
  pc i := c.pc (some i)
  history := c.shared.history
  born := c.shared.born
  births := c.shared.births

section Simulation

variable {c c' : Config (Option (Fin nproc)) Household FamilyPc} {me : Fin nproc}

theorem wp_onKernel {α : Type} {x : Prog Kernel α} {Q : α → Household → Prop} {E : String → Prop}
    {h : Household} :
    wp (onKernel x) Q E h ↔ wp x (fun a k => Q a { h with kernel := k }) E h.kernel :=
  wp_zoom Household.kernelPart

/-- Nothing has happened to the family, or one step of it. -/
def Advances (a a' : Clan) : Prop := a' = a ∨ a.Step a'

theorem clanOf_move (pc : FamilyPc) (h : Household) :
    clanOf (c.move (some me) pc h)
      = ⟨h.kernel.family, update (clanOf c).pc me pc, h.history, h.born, h.births⟩ := by
  have hpc : (clanOf (c.move (some me) pc h)).pc = update (clanOf c).pc me pc := by
    funext j
    by_cases hj : j = me
    · rw [hj, update_self]
      exact Config.move_pc_self c (some me) pc h
    · rw [update_of_ne hj]
      exact Config.move_pc_of_ne c pc h (by simpa using hj)
  exact congrArg (fun pc => (⟨_, pc, _, _, _⟩ : Clan)) hpc

theorem clanOf_move_self {pc : FamilyPc} (hpc : c.pc (some me) = pc) (h : Household) :
    clanOf (c.move (some me) pc h)
      = ⟨h.kernel.family, (clanOf c).pc, h.history, h.born, h.births⟩ := by
  have hsame : update (clanOf c).pc me pc = (clanOf c).pc := by
    rw [← hpc]
    exact update_eq_self ..
  rw [clanOf_move, hsame]

/-- Where a thread goes, the families go as they may. -/
def Follows (c : Config (Option (Fin nproc)) Household FamilyPc) (i : Option (Fin nproc))
    (pc : FamilyPc) (h : Household) : Prop :=
  Advances (clanOf c) (clanOf (c.move i pc h))

theorem advances_self {k : Kernel} (hk : k.family = c.shared.kernel.family) {pc : FamilyPc}
    (hpc : c.pc (some me) = pc) :
    Follows c (some me) pc { c.shared with kernel := k } := by
  rw [Follows, clanOf_move_self hpc, hk]
  exact Or.inl rfl

theorem wp_whenRunning {x : Prog Household FamilyPc} {pc : FamilyPc}
    (hpc : c.pc (some me) = pc)
    (hx : (c.shared.kernel.proc me).state = .running →
      wp x (Follows c (some me)) (fun _ => True) c.shared) :
    wp (whenRunning me pc x) (Follows c (some me)) (fun _ => True) c.shared := by
  rw [whenRunning, wp_bind, wp_get]
  split_ifs with hrun
  · exact hx hrun
  · exact advances_self (k := c.shared.kernel) rfl hpc

theorem forkMakeStep_advances (hpc : c.pc (some me) = .idle)
    (hrun : (c.shared.kernel.proc me).state = .running) :
    wp (forkMakeStep me) (Follows c (some me)) (fun _ => True) c.shared := by
  rw [forkMakeStep, wp_bind, wp_get, wp_bind, wp_onKernel]
  refine wp_imp (forkMake_family me c.shared.kernel) fun r k' hk => ?_
  rcases hk with ⟨rfl, hun⟩ | ⟨i, rfl, hborn⟩
  · dsimp only
    rw [Unborn] at hun
    cases hfirst : c.shared.kernel.firstUnused with
    | none =>
      rw [hfirst] at hun
      exact advances_self hun hpc
    | some i =>
      rw [hfirst] at hun
      have hi : ((clanOf c).mark i).state = .unused := state_of_firstUnused hfirst
      refine Or.inr ?_
      rw [clanOf_move_self hpc]
      dsimp only
      rw [hun]
      exact .waste hi
  · have hi : ((clanOf c).mark i).state = .unused := state_of_firstUnused hborn.1
    refine Or.inr ?_
    rw [clanOf_move]
    dsimp only
    rw [hborn.2]
    exact .make hpc hrun hi

theorem forkAdoptStep_advances {np : Fin nproc} {pid : ℤ} (hpc : c.pc (some me) = .forked np pid) :
    wp (forkAdoptStep me np pid) (Follows c (some me)) (fun _ => True) c.shared := by
  rw [forkAdoptStep, wp_bind, wp_onKernel, forkAdopt, wp_updateProc, wp_pure,
    Follows, clanOf_move]
  dsimp only
  rw [Kernel.family_setProc]
  have hstep : (clanOf c).Step _ := .adopt hpc
  rw [Clan.write_nil] at hstep
  exact Or.inr hstep

theorem forkStartStep_advances {np : Fin nproc} {pid : ℤ}
    (hpc : c.pc (some me) = .adopted np pid) :
    wp (forkStartStep np) (Follows c (some me)) (fun _ => True) c.shared := by
  rw [forkStartStep, wp_bind, wp_onKernel, forkStart, wp_updateProc, wp_bind, note,
    wp_modify, wp_pure, Follows, clanOf_move]
  dsimp only
  rw [Kernel.family_setProc]
  exact Or.inr (.start hpc)

theorem exitStep_advances (hpc : c.pc (some me) = .idle)
    (hrun : (c.shared.kernel.proc me).state = .running) (status : ℤ) :
    wp (exitStep me status) (Follows c (some me)) (fun _ => True) c.shared := by
  rw [exitStep, wp_bind, wp_onKernel]
  refine wp_imp (kexit_family me status c.shared.kernel) fun _ k' hk => ?_
  rw [wp_bind, note, wp_modify, wp_pure, Follows, clanOf_move_self hpc]
  dsimp only
  rw [hk.2]
  exact Or.inr (.exit hpc hrun hk.1)

theorem waitStep_advances {addr : ℕ} (hpc : c.pc (some me) = .waiting addr) :
    wp (waitStep me addr) (Follows c (some me)) (fun _ => True) c.shared := by
  have hgiveUp : ∀ k' : Kernel, k'.family = c.shared.kernel.family →
      Follows c (some me) .idle { c.shared with kernel := k' } := by
    intro k' hk'
    rw [Follows, clanOf_move]
    dsimp only
    rw [hk']
    exact Or.inr (.giveUp hpc)
  rw [waitStep, wp_bind, wp_get, wp_bind, wp_onKernel]
  refine wp_imp (kwait_family me addr c.shared.kernel) fun r k' hk => ?_
  cases r with
  | sleep =>
    obtain rfl : k' = c.shared.kernel := hk
    exact advances_self rfl hpc
  | ret r =>
    dsimp only
    rw [wp_bind, wp_get]
    rcases hk with ⟨j, -, hreap⟩ | ⟨-, hsame⟩
    · rw [hreap.child]
      dsimp only
      have hfree : (k'.proc j).state = .unused := by
        have hmark : (k'.proc j).mark = _ := congrArg (Family.mark · j) hreap.family
        rw [Family.set_mark_self] at hmark
        exact congrArg Mark.state hmark
      obtain ⟨hparent, hzombie⟩ := of_zombieChild hreap.child
      rw [if_pos hfree, wp_bind, note, wp_modify, wp_pure, Follows, clanOf_move]
      dsimp only
      rw [hreap.family]
      exact Or.inr (.reap hpc hparent hzombie)
    · cases hchild : c.shared.kernel.zombieChild me with
      | none => exact hgiveUp k' hsame
      | some j =>
        have hzombie : (k'.proc j).state = .zombie := by
          have hmark : (k'.proc j).mark = _ := congrArg (Family.mark · j) hsame
          exact (congrArg Mark.state hmark).trans (of_zombieChild hchild).2
        dsimp only
        rw [if_neg (by rw [hzombie]; decide)]
        exact hgiveUp k' hsame

theorem killStep_advances (hpc : c.pc (some me) = .idle) (pid : ℤ) :
    wp (killStep pid) (Follows c (some me)) (fun _ => True) c.shared := by
  rw [killStep, wp_bind, wp_onKernel, kkill, wp_bind, wp_get]
  cases findProc c.shared.kernel pid with
  | none => exact advances_self rfl hpc
  | some i =>
    dsimp only
    rw [wp_bind, wp_updateProc, wp_pure, wp_pure, Follows, clanOf_move_self hpc]
    dsimp only
    rw [Kernel.family_setProc]
    refine Or.inr (Clan.Step.stir_family (a := clanOf c) ⟨rfl, rfl, rfl, ?_⟩)
    by_cases hs : (c.shared.kernel.proc i).state = .sleeping
    · exact Or.inr ⟨Or.inr (Or.inr hs), Or.inr (Or.inl (if_pos hs))⟩
    · exact Or.inl (if_neg hs)

/-- **The kernel does what families do.** -/
theorem clanOf_advances {i : Option (Fin nproc)} (hs : familyThreads.Step i c c') :
    Advances (clanOf c) (clanOf c') := by
  cases hs with
  | @mk x pc' h' hact hrun =>
    suffices hwp : wp x (Follows c i) (fun _ => True) c.shared from (wp_of_ok hrun).mp hwp
    clear hrun
    generalize hpc : c.pc i = pc at hact
    cases hact with
    | fork me => exact wp_whenRunning hpc fun hr => forkMakeStep_advances hpc hr
    | adopt me np pid => exact wp_whenRunning hpc fun _ => forkAdoptStep_advances hpc
    | start me np pid => exact wp_whenRunning hpc fun _ => forkStartStep_advances hpc
    | exit me status => exact wp_whenRunning hpc fun hr => exitStep_advances hpc hr status
    | wait me addr =>
      refine wp_whenRunning hpc fun hr => ?_
      rw [wp_pure, Follows, clanOf_move]
      exact Or.inr (Clan.Step.wait (a := clanOf c) hr hpc addr)
    | scan me addr => exact wp_whenRunning hpc fun _ => waitStep_advances hpc
    | kill me pid => exact wp_whenRunning hpc fun _ => killStep_advances hpc pid
    | other me hx =>
      rw [wp_bind, wp_onKernel]
      exact wp_imp (hx c.shared.kernel) fun _ k' hk => advances_self hk hpc
    | schedule p state =>
      have hnone : ∀ h', clanOf (c.move none .idle h')
          = ⟨h'.kernel.family, (clanOf c).pc, h'.history, h'.born, h'.births⟩ := fun _ => rfl
      rw [scheduleStep, wp_bind, wp_get]
      split_ifs with hlive
      · rw [wp_bind, wp_onKernel, wp_updateProc, wp_pure, Follows, hnone]
        dsimp only
        rw [Kernel.family_setProc]
        refine Or.inr (Clan.Step.stir_family (a := clanOf c) ⟨rfl, rfl, rfl, Or.inr ?_⟩)
        have hboth : (c.shared.kernel.proc p).state.Live ∧ state.Live := by
          simpa [ProcState.Live] using hlive
        exact hboth
      · exact Or.inl rfl

end Simulation

/-! ### Interleavings -/

section Runs

variable {b : Boot} {k : Kernel} {init : Fin nproc}
  {c : Config (Option (Fin nproc)) Household FamilyPc}

/-- After boot there is only init. -/
def Household.start (k : Kernel) (init : Fin nproc) :
    Config (Option (Fin nproc)) Household FamilyPc where
  shared := ⟨k, [.alloc init (k.proc init).pid, .start init], fun _ => 0, 1⟩
  pc _ := .idle

theorem Booted.clanOk {root n : ℕ} (h : Booted init root n k) :
    Clan.Ok init (clanOf (Household.start k init)) := by
  have hother : ∀ {i}, i ≠ init → (clanOf (Household.start k init)).mark i = Proc.empty.mark :=
    fun {i} hi => congrArg Proc.mark (h.others i hi)
  have hstate : ((clanOf (Household.start k init)).mark init).state = .running := h.state
  have hinit : ∀ {i}, ((clanOf (Household.start k init)).mark i).state ≠ .unused → i = init := by
    intro i hi
    by_contra hne
    rw [hother hne] at hi
    exact hi rfl
  refine ⟨h.initproc, Or.inl hstate, fun me hme => absurd rfl hme, fun i hi => ?_,
    fun me np hme => absurd hme (by simp [clanOf, Household.start]),
    fun me me' np hme => absurd hme (by simp [clanOf, Household.start]),
    fun me np pid hme => absurd hme (by simp [clanOf, Household.start]),
    fun me np pid hme => absurd hme (by simp [clanOf, Household.start]),
    fun i hne hi => absurd (hinit hi) hne, fun i _ => Nat.one_pos, fun i => ?_⟩
  · have hne : i ≠ init := by
      rintro rfl
      rw [hstate] at hi
      cases hi
    rw [hother hne]
    rfl
  · by_cases hi : i = init
    · rw [hi, Mark.phase, hstate]
      simp [clanOf, Household.start, lifeOf, LifeEvent.slot, Phase.next]
      rfl
    · rw [hother hi]
      simp [clanOf, Household.start, lifeOf, LifeEvent.slot, Ne.symm hi]
      rfl

theorem clanOk_of_runs (hboot : boot b b.start = .ok ((), k)) (hinit : k.initproc = some init)
    (hrun : familyThreads.Runs (fun _ _ => True) (Household.start k init) c) :
    Clan.Ok init (clanOf c) := by
  obtain ⟨i, root, n, hk⟩ := booted_of_boot hboot
  obtain rfl : init = i := Option.some.inj (hinit.symm.trans hk.initproc)
  refine hrun.invariant (I := fun c => Clan.Ok init (clanOf c)) hk.clanOk
    fun i c₁ c₂ hok _ hstep => ?_
  rcases clanOf_advances hstep with heq | hs
  · rwa [heq]
  · exact hok.step hs

/-- **Process tree and `wait`.** In every interleaving the parent of a process is alive and its
ancestors lead to init, except for a child that `fork` has not given a parent yet. The life of every
entry is a sequence of allocations, each of which is freed before the next: by the one `wait` that
returns its number and the status it exited with, or by the `fork` that could not make it. A `wait`
reaps a zombie that is a child of its caller, or it returns -1 and changes nothing. -/
theorem family_and_wait (hboot : boot b b.start = .ok ((), k)) (hinit : k.initproc = some init)
    (hrun : familyThreads.Runs (fun _ _ => True) (Household.start k init) c) :
    (∀ i, i ≠ init → (c.shared.kernel.proc i).state ≠ .unused →
      (∃ me pid, c.pc (some me) = .forked i pid) ∨
      ∃ p, (c.shared.kernel.proc i).parent = some p ∧ (c.shared.kernel.proc p).state ≠ .unused ∧
        (c.shared.kernel.proc p).state ≠ .zombie) ∧
    (∀ i, (c.shared.kernel.proc i).state ≠ .unused →
      (∀ me pid, c.pc (some me) ≠ .forked i pid) →
      Relation.ReflTransGen (fun i p => (c.shared.kernel.proc i).parent = some p) i init) ∧
    (∀ i, lifeOf c.shared.history i = some (c.shared.kernel.proc i).mark.phase ∧
      countOf LifeEvent.isAlloc c.shared.history i = countOf LifeEvent.isFree c.shared.history i +
        (if (c.shared.kernel.proc i).state = .unused then 0 else 1) ∧
      countOf LifeEvent.isExit c.shared.history i = countOf LifeEvent.isReap c.shared.history i +
        (if (c.shared.kernel.proc i).state = .zombie then 1 else 0)) ∧
    ∀ me addr r k', kwait me addr c.shared.kernel = .ok (.ret r, k') →
      (∃ j, (c.shared.kernel.proc j).parent = some me ∧ (c.shared.kernel.proc j).state = .zombie ∧
        r = (c.shared.kernel.proc j).pid ∧ Reaped me addr c.shared.kernel j k') ∨
      r = -1 ∧ k'.family = c.shared.kernel.family := by
  have hok := clanOk_of_runs hboot hinit hrun
  refine ⟨fun i hi huse => ?_, hok.ancestors, fun i => ?_, fun me addr r k' hwait => ?_⟩
  · rcases hok.parent i hi huse with hfork | ⟨p, hp, hlive, -⟩
    · exact Or.inl hfork
    · refine Or.inr ⟨p, hp, fun hu => ?_, fun hz => ?_⟩
      · rw [show ((clanOf c).mark p).state = .unused from hu] at hlive
        simp [ProcState.Live] at hlive
      · rw [show ((clanOf c).mark p).state = .zombie from hz] at hlive
        simp [ProcState.Live] at hlive
  · have hlife : lifeOf c.shared.history i = some (c.shared.kernel.proc i).mark.phase :=
      hok.history i
    obtain ⟨hfree, hreap⟩ := counts_of_lifeOf hlife
    refine ⟨hlife, hfree.trans ?_, hreap.trans ?_⟩
    · rw [Mark.phase]
      cases hs : (c.shared.kernel.proc i).state <;> simp [Proc.mark, hs]
    · rw [Mark.phase]
      cases hs : (c.shared.kernel.proc i).state <;> simp [Proc.mark, hs]
  · rcases wp_ok (kwait_family me addr c.shared.kernel) hwait with ⟨j, hj, hreap⟩ | hsame
    · obtain ⟨hparent, hzombie⟩ := of_zombieChild hreap.child
      exact Or.inl ⟨j, hparent, hzombie, hj, hreap⟩
    · exact Or.inr hsame

theorem step_of_running {x : Prog Household FamilyPc} {pc pc' : FamilyPc} {h : Household}
    (hact : familyThreads (some me) pc (whenRunning me pc x)) (hpc : c.pc (some me) = pc)
    (hme : (c.shared.kernel.proc me).state = .running) (hx : x c.shared = .ok (pc', h)) :
    familyThreads.Step (some me) c (c.move (some me) pc' h) :=
  .mk (hpc ▸ hact) (bind_ok_iff.mpr ⟨_, _, rfl, by rw [if_pos hme, hx]⟩)

end Runs

/-! ### A fork that runs out of memory -/

section Memory

variable {extra : Multiset ℕ} {k k' k₁ : Kernel} {me np : Fin nproc} {root root' : ℕ}

theorem KOk.card_trapframes_le (h : KOk k) :
    Multiset.card (trapframes k) ≤ pageCount k.vm.kmem.sym := by
  have hcard := congrArg Multiset.card h.inv.vm.pages
  rw [card_add, card_add, card_physPages, zero_add, held, card_add,
    card_add] at hcard
  omega

/-- Where every entry is in use there are as many trapframes as entries. -/
theorem KOk.card_trapframes_of_full (h : KOk k) (hfull : ∀ i, (k.proc i).state ≠ .unused) :
    Multiset.card (trapframes k) = nproc := by
  rw [trapframes, Multiset.card_sum, Finset.sum_congr rfl fun i _ => show _ = 1 by
    obtain ⟨tf, htf⟩ := (h.complete i (hfull i)).2
    rw [htf, Ledger.ofOption_some, card_singleton]]
  rw [Finset.sum_const, smul_eq_mul, mul_one, Ledger.card_all, Fintype.card_fin]

theorem Forked.card_trapframes (hf : Forked extra me np root root' k k') (h : KInv extra k) :
    Multiset.card (trapframes k') = Multiset.card (trapframes k) + 1 := by
  obtain ⟨tf, htf⟩ := hf.trapframe
  have hother : otherTrapframes k' np = otherTrapframes k np :=
    otherTrapframes_congr fun j hj => by rw [hf.others j hj]
  rw [trapframes_eq k np, trapframes_eq k' np, htf, (h.unused np hf.old).2.2.2,
    hother]
  simp only [card_add, Ledger.ofOption_some, Ledger.ofOption_none,
    card_singleton, Multiset.card_zero]
  omega

/-- A machine with as many pages as `boot` needs. -/
def Symbols.tiny : Symbols where
  kend := phystop - 17 * pgsize
  trampoline := kernbase
  kernbase_le_kend := by decide
  kend_le_phystop := by decide
  kernbase_le_trampoline := Nat.le_refl _
  trampoline_lt_kend := by decide
  trampoline_aligned := Symbols.small.trampoline_aligned

def Boot.tiny : Boot where
  sym := .tiny
  mem := fun _ => fill 0
  taken := 0
  init := Boot.small.init

theorem Symbols.pageCount_tiny : pageCount .tiny = 17 := by decide +kernel

theorem Boot.tiny_boots : ∃ i root k, boot .tiny Boot.tiny.start = .ok ((), k) ∧
    Booted i root 0 k ∧ k.vm.kmem.sym = .tiny := by
  obtain ⟨i, root, k, hrun, hb, hsym, -⟩ := boot_of_segmentless .tiny Boot.small_segmentless
    (by rw [show Boot.tiny.sym = .tiny from rfl, Symbols.pageCount_tiny]; rfl)
  exact ⟨i, root, k, hrun, hb, hsym⟩

/-- A failing `fork` takes an entry and gives it back. -/
theorem forkMakeStep_of_none {h : Household} {i : Fin nproc}
    (hx : forkMake me h.kernel = .ok (none, k')) (hi : h.kernel.firstUnused = some i) :
    forkMakeStep me h = .ok (.idle, ⟨k', h.history ++ [.alloc i h.kernel.nextpid, .discard i],
      h.born, h.births⟩) := by
  refine bind_ok_iff.mpr ⟨h, h, rfl,
    bind_ok_iff.mpr ⟨none, _, zoom_ok hx, ?_⟩⟩
  dsimp only
  rw [hi]
  rfl

variable {c : Config (Option (Fin nproc)) Household FamilyPc} {init : Fin nproc} {n : ℕ}

/-- The second and the third part of `fork` follow the first. -/
theorem runs_of_forkMake {pid : ℤ} (hpc : c.pc = fun _ => .idle)
    (hme : (c.shared.kernel.proc me).state = .running)
    (hx : forkMake me c.shared.kernel = .ok (some (np, pid), k₁))
    (hme₁ : (k₁.proc me).state = .running) (hne : me ≠ np) :
    ∃ c', familyThreads.Runs (fun _ _ => True) c c' ∧ c'.pc = (fun _ => .idle) ∧
      c'.shared.kernel
        = k₁.setProc np { k₁.proc np with parent := some me, state := .runnable } := by
  obtain ⟨h₁, hmake, rfl⟩ : ∃ h₁, forkMakeStep me c.shared = .ok (.forked np pid, h₁) ∧
      h₁.kernel = k₁ :=
    ⟨_, bind_ok_iff.mpr ⟨_, _, rfl, bind_ok_iff.mpr ⟨_, _, zoom_ok hx, rfl⟩⟩, rfl⟩
  obtain ⟨h₂, hadopt, hk₂⟩ : ∃ h₂, forkAdoptStep me np pid h₁ = .ok (.adopted np pid, h₂) ∧
      h₂.kernel = h₁.kernel.setProc np { h₁.kernel.proc np with parent := some me } :=
    ⟨_, rfl, rfl⟩
  obtain ⟨h₃, hstart, hk₃⟩ : ∃ h₃, forkStartStep np h₂ = .ok (.idle, h₃) ∧
      h₃.kernel = h₂.kernel.setProc np { h₂.kernel.proc np with state := .runnable } :=
    ⟨_, rfl, rfl⟩
  have hme₂ : (h₂.kernel.proc me).state = .running := by
    rwa [hk₂, Kernel.setProc_proc_of_ne _ _ hne]
  have s₁ : familyThreads.Step (some me) c (c.move (some me) (.forked np pid) h₁) :=
    step_of_running (.fork me) (by rw [hpc]) hme hmake
  have s₂ : familyThreads.Step (some me) (c.move (some me) (.forked np pid) h₁)
      (c.move (some me) (.adopted np pid) h₂) := by
    have := step_of_running (.adopt me np pid) (c.move_pc_self _ _ h₁) hme₁ hadopt
    rwa [Config.move_move] at this
  have s₃ : familyThreads.Step (some me) (c.move (some me) (.adopted np pid) h₂)
      (c.move (some me) .idle h₃) := by
    have := step_of_running (.start me np pid) (c.move_pc_self _ _ h₂) hme₂ hstart
    rwa [Config.move_move] at this
  refine ⟨_, ((Relation.ReflTransGen.single ⟨_, trivial, s₁⟩).tail ⟨_, trivial, s₂⟩).tail
    ⟨_, trivial, s₃⟩, ?_, ?_⟩
  · rw [Config.move, hpc]
    exact update_eq_self _ _
  · rw [Config.move_shared, hk₃, hk₂, Kernel.setProc_proc_self, Kernel.setProc_setProc]

/-- A `fork` by a process without open files fails for want of an entry or of memory, or it goes
through its three parts. -/
theorem runs_of_fork (hpc : c.pc = fun _ => .idle) (h : KOk c.shared.kernel)
    (hme : (c.shared.kernel.proc me).state = .running)
    (hofile : ∀ fd, (c.shared.kernel.proc me).ofile fd = none)
    (hlt : c.shared.kernel.created + 1 < 2 ^ 31) :
    ∃ r k₁, forkMake me c.shared.kernel = .ok (r, k₁) ∧ k₁.filing = c.shared.kernel.filing ∧
      (r = none ∧ ((∀ i, (c.shared.kernel.proc i).state ≠ .unused) ∨ c.shared.kernel.freePages
          < 6 + 3 * pagesOf (c.shared.kernel.proc me).sz) ∨
        ∃ np root root' c', familyThreads.Runs (fun _ _ => True) c c' ∧ c'.pc = (fun _ => .idle) ∧
          c'.shared.kernel
            = k₁.setProc np { k₁.proc np with parent := some me, state := .runnable } ∧
          Forked 0 me np root root' c.shared.kernel c'.shared.kernel) := by
  have huse : (c.shared.kernel.proc me).state ≠ .unused := by
    rw [hme]
    exact ProcState.noConfusion
  obtain ⟨⟨root, hroot⟩, -⟩ := h.complete me huse
  obtain ⟨r, k₁, hx, hfiling, hr⟩ := exists_of_wp (forkMake_of_none h.inv hlt hroot hofile)
  refine ⟨r, k₁, hx, hfiling, hr.imp_right ?_⟩
  rintro ⟨np, root', pid, rfl, hf⟩
  have hne : me ≠ np := fun heq => huse (heq ▸ hf.old)
  have hme₁ := hf.others me hne
  rw [Kernel.setProc_proc_of_ne _ _ hne] at hme₁
  obtain ⟨c', hruns, hpc', hk'⟩ := runs_of_forkMake hpc hme hx (by rw [hme₁]; exact hme) hne
  exact ⟨np, root, root', c', hruns, hpc', hk', hk' ▸ hf⟩

/-! ### A child that is reaped -/

theorem closeFiles_none (h : ∀ fd, (k.proc me).ofile fd = none) :
    wp (closeFiles me) (fun _ k' => k' = k) (fun _ => False) k := by
  refine wp_forEach (fun _ k' => k' = k) (fun fd rest k' hk' => ?_) rfl
  rw [hk', wp_bind, wp_get, h fd]
  rfl

theorem kexit_of_none (hinit : k.initproc ≠ some me) (h : ∀ fd, (k.proc me).ofile fd = none)
    (status : ℤ) : wp (kexit me status) (fun _ _ => True) (fun _ => False) k := by
  rw [kexit, wp_bind, wp_get, if_neg hinit]
  exact wp_seq (closeFiles_none h) fun _ _ _ => trivial

/-- A `wait` that does not ask for the status reaps a zombie if there is one. -/
theorem kwait_of_zombie {j : Fin nproc} (h : KInv extra k) (hj : k.zombieChild me = some j) :
    wp (kwait me 0) (fun r k' => r = .ret (k.proc j).pid ∧ (k'.proc j).state = .unused)
      (fun _ => False) k := by
  rw [kwait, wp_bind, wp_get]
  dsimp only
  rw [← Kernel.zombieChild, hj]
  dsimp only
  rw [if_pos rfl, wp_bind, wp_pure, if_pos rfl, wp_bind]
  refine freeproc_spec h fun v _ _ _ _ => ⟨rfl, ?_⟩
  rw [Kernel.setProc_proc_self]
  rfl

/-- The scheduler starts a process that is ready. -/
theorem step_of_ready (hpc : c.pc = fun _ => .idle) (h : KInv extra c.shared.kernel)
    {i : Fin nproc} (hi : (c.shared.kernel.proc i).state = .runnable) :
    ∃ c', familyThreads.Step none c c' ∧ c'.pc = (fun _ => .idle) ∧ KInv extra c'.shared.kernel ∧
      c'.shared.kernel
        = c.shared.kernel.setProc i { c.shared.kernel.proc i with state := .running } := by
  have hact : familyThreads none (c.pc none) (scheduleStep i .running) := by
    rw [hpc]
    exact .schedule i .running
  have hinv := h.setProc (p := { c.shared.kernel.proc i with state := .running })
    ⟨rfl, rfl, rfl, rfl, rfl, by
      rw [hi]
      exact iff_of_false ProcState.noConfusion ProcState.noConfusion⟩
  refine ⟨c.move none .idle { c.shared with kernel := _ },
    .mk hact (bind_ok_iff.mpr ⟨_, _, rfl, ?_⟩), ?_, hinv, rfl⟩
  · rw [if_pos ⟨by rw [hi]; decide, by decide⟩]
    rfl
  · rw [Config.move, hpc]
    exact update_eq_self _ _

/-- Init forks, and the child runs and exits. -/
theorem runs_to_zombie : ∃ k init c i, boot .small Boot.small.start = .ok ((), k) ∧
    k.initproc = some init ∧ familyThreads.Runs (fun _ _ => True) (Household.start k init) c ∧
    KInv 0 c.shared.kernel ∧ (c.shared.kernel.proc i).parent = some init ∧
    (c.shared.kernel.proc i).state = .zombie := by
  obtain ⟨init, root, k, hboot, hb, hmem⟩ := Boot.small_boots
  have hfree : 6 + 3 * pagesOf (k.proc init).sz ≤ k.freePages := by
    rw [hb.sz, pagesOf_mul]
    omega
  obtain ⟨-, k₁, -, hfiling, ⟨-, hwhy⟩ | ⟨i, _, _, c₁, hruns₁, hpc₁, hk₁, hf⟩⟩ :=
    runs_of_fork (c := Household.start k init) rfl hb.ok hb.state hb.ofile
      (show k.created + 1 < 2 ^ 31 by rw [hb.created]; decide)
  · obtain ⟨j, hj⟩ := exists_unused fun j hj => congrArg Proc.state (hb.others j hj)
    exact absurd hj (hwhy.resolve_right (not_lt.mpr hfree) j)
  have hne : i ≠ init := by
    rintro rfl
    exact ProcState.noConfusion (hf.old.symm.trans hb.state)
  have hofile : ∀ fd, (c₁.shared.kernel.proc i).ofile fd = none := fun fd => by
    rw [hk₁, Kernel.setProc_proc_self]
    refine (congrArg (fun F : Filing => F.ofile i fd) hfiling).trans ?_
    exact congrFun (congrArg Proc.ofile (hb.others i hne)) fd
  have hparent : (c₁.shared.kernel.proc i).parent = some init := by
    rw [hk₁, Kernel.setProc_proc_self]
  obtain ⟨c₂, hs₂, hpc₂, hinv₂, hk₂⟩ := step_of_ready hpc₁ hf.inv hf.state
  have hself : c₂.shared.kernel.proc i = { c₁.shared.kernel.proc i with state := .running } := by
    rw [hk₂, Kernel.setProc_proc_self]
  -- the child exits
  have hinit : c₂.shared.kernel.initproc ≠ some i := by
    rw [hk₂]
    exact fun h => hne (Option.some.inj ((hf.initproc.trans hb.initproc).symm.trans h)).symm
  obtain ⟨_, k₃, hexit, -⟩ := exists_of_wp (kexit_of_none hinit (by rw [hself]; exact hofile) 7)
  have hinv₃ : KInv 0 k₃ := by
    have hspec := kexit_spec (E := fun _ => True) hinv₂
      (show (c₂.shared.kernel.proc i).state ≠ _ by rw [hself]; exact ProcState.noConfusion) trivial
      (fun _ => trivial) 7
    exact (wp_ok hspec hexit).inv
  have hfam := (wp_ok (kexit_family i 7 c₂.shared.kernel) hexit).2
  have hs₃ : familyThreads.Step (some i) c₂ (c₂.move (some i) .idle
      { c₂.shared with kernel := k₃, history := c₂.shared.history ++ [.exit i 7] }) :=
    step_of_running (.exit i 7) (by rw [hpc₂]) (by rw [hself])
      (bind_ok_iff.mpr ⟨(), _, zoom_ok (t := c₂.shared) (s := k₃) hexit, rfl⟩)
  have hmark : ∀ j, (k₃.proc j).mark = ((clanOf c₂).exited i 7).mark j := fun j =>
    congrArg (fun f => f.mark j) hfam
  have hparent₂ : (((clanOf c₂).mark i).parent) = some init := by
    change (c₂.shared.kernel.proc i).parent = some init
    rw [hself]
    exact hparent
  have hparent₃ : (k₃.proc i).parent = some init := by
    refine (congrArg Mark.parent (hmark i)).trans ((Clan.exited_parent i).trans ?_)
    rw [hparent₂, if_neg fun h => hne (Option.some.inj h).symm]
  refine ⟨k, init, _, i, hboot, hb.initproc, (hruns₁.tail ⟨_, trivial, hs₂⟩).tail ⟨_, trivial, hs₃⟩,
    hinv₃, hparent₃, congrArg Mark.state ((hmark i).trans Clan.exited_mark_self)⟩

/-- Init forks, the child exits, and a `wait` by init returns its number. -/
theorem family_and_wait_reaped : ∃ k init c j k', boot .small Boot.small.start = .ok ((), k) ∧
    familyThreads.Runs (fun _ _ => True) (Household.start k init) c ∧
    (c.shared.kernel.proc j).state = .zombie ∧
    countOf LifeEvent.isExit c.shared.history j
      = countOf LifeEvent.isReap c.shared.history j + 1 ∧
    kwait init 0 c.shared.kernel = .ok (.ret (c.shared.kernel.proc j).pid, k') ∧
    ∃ i, (c.shared.kernel.proc i).parent = some init ∧ (c.shared.kernel.proc i).state = .zombie ∧
      (c.shared.kernel.proc j).pid = (c.shared.kernel.proc i).pid ∧
      Reaped init 0 c.shared.kernel i k' := by
  obtain ⟨k, init, c, i, hboot, hinit, hruns, hinv, hparent, hzombie⟩ := runs_to_zombie
  have hsome : c.shared.kernel.zombieChild init ≠ none :=
    Table.first_ne_none (i := i) (by rw [hparent, hzombie]; simp)
  obtain ⟨j, hj⟩ := Option.ne_none_iff_exists'.mp hsome
  have hdead := (of_zombieChild hj).2
  obtain ⟨_, k', hwait, rfl, hfreed⟩ := exists_of_wp (kwait_of_zombie hinv hj)
  obtain ⟨-, -, hlife, hreap⟩ := family_and_wait hboot hinit hruns
  have hcount := (hlife j).2.2
  rw [if_pos hdead] at hcount
  refine ⟨k, init, c, j, k', hboot, hruns, hdead, hcount, hwait,
    (hreap init 0 _ k' hwait).resolve_right fun h => ?_⟩
  have hfree := congrArg (fun f => (f.mark j).state) h.2
  change (k'.proc j).state = (c.shared.kernel.proc j).state at hfree
  rw [hfreed, hdead] at hfree
  exact ProcState.noConfusion hfree

/-- The tiny machine after `init` has forked `n` times. -/
structure Crowd (init : Fin nproc) (n : ℕ)
    (c : Config (Option (Fin nproc)) Household FamilyPc) : Prop where
  pc : c.pc = fun _ => .idle
  ok : KOk c.shared.kernel
  sym : c.shared.kernel.vm.kmem.sym = .tiny
  running : (c.shared.kernel.proc init).state = .running
  ofile : ∀ fd, (c.shared.kernel.proc init).ofile fd = none
  created : c.shared.kernel.created = n + 1
  frames : n ≤ Multiset.card (trapframes c.shared.kernel)

theorem Crowd.le (h : Crowd init n c) : n ≤ 17 := by
  have hle := h.ok.card_trapframes_le
  rw [h.sym, Symbols.pageCount_tiny] at hle
  exact h.frames.trans hle

/-- An entry is not in use: there are not enough pages for a trapframe each. -/
theorem Crowd.firstUnused (h : Crowd init n c) : ∃ i, c.shared.kernel.firstUnused = some i := by
  cases hfirst : c.shared.kernel.firstUnused with
  | some i => exact ⟨i, rfl⟩
  | none =>
    have hle := h.ok.card_trapframes_le
    have hfull := h.ok.card_trapframes_of_full fun i hi => by
      have := Table.first_eq_none.mp hfirst i
      simp [hi] at this
    rw [h.sym, Symbols.pageCount_tiny, hfull] at hle
    exact absurd hle (by decide)

/-- Another fork succeeds, or an entry is given back. -/
theorem Crowd.fork (h : Crowd init n c) :
    ∃ c', familyThreads.Runs (fun _ _ => True) c c' ∧
      (Crowd init (n + 1) c' ∨ ∃ i, .discard i ∈ c'.shared.history) := by
  have hlt : c.shared.kernel.created + 1 < 2 ^ 31 := by
    have := h.le
    rw [h.created]
    omega
  obtain ⟨r, k₁, hmake, -, ⟨rfl, -⟩ | ⟨np, root, root', c', hruns, hpc, -, hf⟩⟩ :=
    runs_of_fork h.pc h.ok h.running h.ofile hlt
  · obtain ⟨i, hi⟩ := h.firstUnused
    have hstep : familyThreads.Step (some init) c _ :=
      step_of_running (.fork init) (by rw [h.pc]) h.running (forkMakeStep_of_none hmake hi)
    exact ⟨_, .single ⟨_, trivial, hstep⟩, Or.inr ⟨i, by simp⟩⟩
  · have hinit : c'.shared.kernel.proc init = c.shared.kernel.proc init :=
      hf.others init fun heq => ProcState.noConfusion ((heq ▸ hf.old).symm.trans h.running)
    refine ⟨c', hruns, Or.inl ⟨hpc, ⟨hf.inv, hf.complete h.ok.complete⟩,
      hf.keeps.sym.trans h.sym, by rw [hinit, h.running], by rw [hinit]; exact h.ofile,
      by rw [hf.created, h.created], ?_⟩⟩
    rw [hf.card_trapframes h.ok.inv]
    exact Nat.succ_le_succ h.frames

/-- **A fork that fails frees an entry that never ran.** -/
theorem fork_frees_unstarted : ¬∀ b k init c, boot b b.start = .ok ((), k) →
    k.initproc = some init → familyThreads.Runs (fun _ _ => True) (Household.start k init) c →
    ∀ i, .discard i ∉ c.shared.history := by
  intro hclaim
  obtain ⟨init, root, k, hboot, hb, hsym⟩ := Boot.tiny_boots
  have hcrowd : ∀ n, ∃ c, familyThreads.Runs (fun _ _ => True) (Household.start k init) c ∧
      Crowd init n c := by
    intro n
    induction n with
    | zero =>
      exact ⟨_, .refl, rfl, hb.ok, hsym, hb.state, hb.ofile, hb.created, Nat.zero_le _⟩
    | succ n ih =>
      obtain ⟨c, hruns, hc⟩ := ih
      obtain ⟨c', hruns', hc' | ⟨i, hi⟩⟩ := hc.fork
      · exact ⟨c', hruns.trans hruns', hc'⟩
      · exact absurd hi (hclaim _ k init c' hboot hb.initproc (hruns.trans hruns') i)
  obtain ⟨c, -, hc⟩ := hcrowd 18
  exact absurd hc.le (by decide)

end Memory

end Xv6
