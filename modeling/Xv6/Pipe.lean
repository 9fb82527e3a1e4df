import Xv6.Lib.Interleave
import Xv6.Lib.Ring
import Xv6.Proc

/-!
# Pipes

`pipewrite` and `piperead` of `pipe.c`. Any number of processes call them on one pipe. A call gives
up `pi->lock` where it sleeps and where it returns, and only there; what it does in between is one
step here. So a call is a control point, and a step takes it from there to where it sleeps or to its
return value.

Whether the process is found killed and whether a byte can be copied to or from user memory is
decided outside, anew for every byte. A process that has an end of a pipe in a call has it open, so
the pipe is not freed under it; here an end may be closed at any time, which allows more.
-/

namespace Xv6

open Threads Prog Function

/-- `PIPESIZE`. -/
def pipesize : ℕ := 512

instance : NeZero pipesize := ⟨by decide⟩

/-- `struct pipe`, used by the processes `ι`. -/
structure PipeState (ι : Type) extends Pipe where
  ring : Ring Byte pipesize 32
  /-- The bytes accepted from writers. No code reads this. -/
  accepted : List Byte
  /-- The bytes delivered to readers. No code reads this. -/
  delivered : List Byte
  /-- How many bytes the current call of a process has transferred. No code reads this. -/
  moved : ι → ℕ

/-- What `pipealloc` makes of a page. -/
def PipeState.new (ι : Type) (data : Fin pipesize → Byte) : PipeState ι where
  readopen := true
  writeopen := true
  ring := ⟨data, 0#32, 0#32⟩
  accepted := []
  delivered := []
  moved _ := 0

section Calls

variable {ι : Type} [DecidableEq ι]

/-- `data[nwrite++ % PIPESIZE] = ch`. -/
def PipeState.accept (s : PipeState ι) (me : ι) (ch : Byte) : PipeState ι :=
  { s with
    ring := s.ring.push ch
    accepted := s.accepted ++ [ch]
    moved := update s.moved me (s.moved me + 1) }

/-- `nread++`, after the byte has been copied out. -/
def PipeState.deliver (s : PipeState ι) (me : ι) : PipeState ι :=
  { s with
    ring := s.ring.pop
    delivered := s.delivered ++ [s.ring.front]
    moved := update s.moved me (s.moved me + 1) }

/-- A call begins. -/
def PipeState.enter (s : PipeState ι) (me : ι) : PipeState ι :=
  { s with moved := update s.moved me 0 }

/-- How the loop of `pipewrite` is left: it sleeps at byte `i`, or the call returns. -/
inductive PipeWrite where
  | sleep (i : ℕ)
  | ret (r : ℤ)

/-- The loop of `pipewrite` at byte `i`, with `left` bytes to go. `killed` and `copyin` are what the
process finds at each byte. -/
def pipewriteFrom (me : ι) (killed : ℕ → Bool) (copyin : ℕ → Option Byte) :
    ℕ → ℕ → Prog (PipeState ι) PipeWrite
  | 0, i => return .ret i
  | left + 1, i => do
    let s ← Prog.get
    if !s.readopen || killed i then return .ret (-1)
    else if s.ring.isFull then return .sleep i
    else
      match copyin i with
      | none => return .ret i
      | some ch => do
        Prog.modify fun s => s.accept me ch
        pipewriteFrom me killed copyin left (i + 1)

/-- The second loop of `piperead` at byte `i`, with `left` bytes to go. `copyout` is whether each
byte can be copied. -/
def pipereadFrom (me : ι) (copyout : ℕ → Bool) : ℕ → ℕ → Prog (PipeState ι) ℤ
  | 0, i => return i
  | left + 1, i => do
    let s ← Prog.get
    if s.ring.isEmpty then return i
    else if copyout i then do
      Prog.modify fun s => s.deliver me
      pipereadFrom me copyout left (i + 1)
    else if i = 0 then return -1
    else return i

/-- Where a process stands. -/
inductive PipePc where
  | idle
  /-- In `pipewrite` for `n` bytes, at the top of the loop with the lock held. -/
  | write (n : ℤ) (i : ℕ)
  /-- In `piperead` for `n` bytes, at the top of the first loop with the lock held. -/
  | read (n : ℤ)
  /-- `pipewrite` has returned. -/
  | wrote (n r : ℤ)
  /-- `piperead` has returned. -/
  | didRead (n r : ℤ)
deriving DecidableEq

/-- A process outside the two functions. -/
def PipePc.Outside : PipePc → Prop
  | idle | wrote _ _ | didRead _ _ => True
  | write _ _ | read _ => False

def pipeEnter (me : ι) (pc : PipePc) : Prog (PipeState ι) PipePc := do
  Prog.modify fun s => s.enter me
  return pc

/-- `pipewrite` from where the lock is taken to where it is released. A negative `n` asks for
nothing. -/
def pipewriteStep (me : ι) (killed : ℕ → Bool) (copyin : ℕ → Option Byte) (n : ℤ) (i : ℕ) :
    Prog (PipeState ι) PipePc := do
  match ← pipewriteFrom me killed copyin (n.toNat - i) i with
  | .sleep i => return .write n i
  | .ret r => return .wrote n r

/-- `piperead` from where the lock is taken to where it is released. -/
def pipereadStep (me : ι) (killed : Bool) (copyout : ℕ → Bool) (n : ℤ) :
    Prog (PipeState ι) PipePc := do
  let s ← Prog.get
  if s.ring.isEmpty && s.writeopen then
    if killed then return .didRead n (-1)
    else return .read n
  else do
    let r ← pipereadFrom me copyout n.toNat 0
    return .didRead n r

/-- The first lines of `pipeclose`. -/
def pipecloseStep (pc : PipePc) (writable : Bool) : Prog (PipeState ι) PipePc := do
  Prog.modify fun s =>
    if writable then { s with writeopen := false } else { s with readopen := false }
  return pc

/-- What a process may do next. -/
inductive pipeThreads : Threads ι (PipeState ι) PipePc
  | startWrite {me : ι} {pc : PipePc} (hpc : pc.Outside) (n : ℤ) :
      pipeThreads me pc (pipeEnter me (.write n 0))
  | startRead {me : ι} {pc : PipePc} (hpc : pc.Outside) (n : ℤ) :
      pipeThreads me pc (pipeEnter me (.read n))
  | write {me : ι} (n : ℤ) (i : ℕ) (killed : ℕ → Bool) (copyin : ℕ → Option Byte) :
      pipeThreads me (.write n i) (pipewriteStep me killed copyin n i)
  | read {me : ι} (n : ℤ) (killed : Bool) (copyout : ℕ → Bool) :
      pipeThreads me (.read n) (pipereadStep me killed copyout n)
  | close {me : ι} {pc : PipePc} (hpc : pc.Outside) (writable : Bool) :
      pipeThreads me pc (pipecloseStep pc writable)

/-! ### One step -/

/-- The ring buffer holds what has been accepted and not yet delivered. -/
def PipeState.Lossless (s : PipeState ι) : Prop := s.ring.Carries s.accepted s.delivered

/-- A step of process `me` from `s` to `s'` that ends where the process stands at `pc`: the pipe has
lost nothing, and what the other processes have transferred is as before. -/
structure PipeStep (me : ι) (s : PipeState ι) (fits : Prop) (s' : PipeState ι) : Prop where
  lossless : s'.Lossless
  others : ∀ j, j ≠ me → s'.moved j = s.moved j
  fits : fits

/-- The return value or the position of a call is the number of bytes it has transferred, `moved`. A
`pipewrite` that returns -1 may have transferred some; a `piperead` has transferred none. -/
def PipePc.Fits (moved : ℕ) : PipePc → Prop
  | idle => True
  | write _ i => moved = i
  | read _ => moved = 0
  | wrote _ r => r = moved ∨ r = -1
  | didRead _ r => r = moved ∨ r = -1 ∧ moved = 0

variable {me : ι} {s s' : PipeState ι} {P : Prop}

theorem pipesize_dvd : pipesize ∣ 2 ^ 32 := ⟨2 ^ 23, by decide⟩

theorem pipesize_lt : pipesize < 2 ^ 32 := by decide

omit [DecidableEq ι] in
theorem PipeStep.trans {s'' : PipeState ι} {P' : Prop} (h : PipeStep me s P s')
    (h' : PipeStep me s' P' s'') : PipeStep me s P' s'' :=
  ⟨h'.lossless, fun j hj => (h'.others j hj).trans (h.others j hj), h'.fits⟩

theorem PipeState.Lossless.accept (h : s.Lossless) (hfull : s.ring.isFull = false) (ch : Byte) :
    PipeStep me s ((s.accept me ch).moved me = s.moved me + 1) (s.accept me ch) where
  lossless := h.push pipesize_dvd pipesize_lt hfull ch
  others _ hj := update_of_ne hj _ _
  fits := update_self ..

theorem PipeState.Lossless.deliver (h : s.Lossless) (hempty : s.ring.isEmpty = false) :
    PipeStep me s ((s.deliver me).moved me = s.moved me + 1) (s.deliver me) where
  lossless := h.pop pipesize_dvd pipesize_lt hempty
  others _ hj := update_of_ne hj _ _
  fits := update_self ..

/-- The loop of `pipewrite` counts what it transfers. -/
theorem pipewriteFrom_spec (killed : ℕ → Bool) (copyin : ℕ → Option Byte) (n : ℤ) :
    ∀ (left i : ℕ) (s : PipeState ι), s.Lossless → s.moved me = i →
      wp (pipewriteFrom me killed copyin left i) (fun r s' => PipeStep me s
        (match r with
          | .sleep i => PipePc.Fits (s'.moved me) (.write n i)
          | .ret r => PipePc.Fits (s'.moved me) (.wrote n r)) s') (fun _ => False) s := by
  intro left
  induction left with
  | zero =>
    intro i s h hi
    exact ⟨h, fun _ _ => rfl, Or.inl (by rw [hi])⟩
  | succ left ih =>
    intro i s h hi
    rw [pipewriteFrom, wp_bind, wp_get]
    split_ifs with hstop hfull
    · exact ⟨h, fun _ _ => rfl, Or.inr rfl⟩
    · exact ⟨h, fun _ _ => rfl, hi⟩
    · cases copyin i with
      | none => exact ⟨h, fun _ _ => rfl, Or.inl (by rw [hi])⟩
      | some ch =>
        have hstep : PipeStep me s _ (s.accept me ch) := h.accept (Bool.eq_false_iff.mpr hfull) ch
        rw [wp_bind, wp_modify]
        exact wp_imp (ih (i + 1) _ hstep.lossless (by rw [hstep.fits, hi]))
          fun _ _ => hstep.trans

/-- The second loop of `piperead` counts what it transfers. -/
theorem pipereadFrom_spec (copyout : ℕ → Bool) (n : ℤ) :
    ∀ (left i : ℕ) (s : PipeState ι), s.Lossless → s.moved me = i →
      wp (pipereadFrom me copyout left i) (fun r s' => PipeStep me s
        (PipePc.Fits (s'.moved me) (.didRead n r)) s') (fun _ => False) s := by
  intro left
  induction left with
  | zero =>
    intro i s h hi
    exact ⟨h, fun _ _ => rfl, Or.inl (by rw [hi])⟩
  | succ left ih =>
    intro i s h hi
    rw [pipereadFrom, wp_bind, wp_get]
    split_ifs with hempty hcopy hzero
    · exact ⟨h, fun _ _ => rfl, Or.inl (by rw [hi])⟩
    · have hstep : PipeStep me s _ (s.deliver me) := h.deliver (Bool.eq_false_iff.mpr hempty)
      rw [wp_bind, wp_modify]
      exact wp_imp (ih (i + 1) _ hstep.lossless (by rw [hstep.fits, hi]))
        fun _ _ => hstep.trans
    · exact ⟨h, fun _ _ => rfl, Or.inr ⟨rfl, hi.trans hzero⟩⟩
    · exact ⟨h, fun _ _ => rfl, Or.inl (by rw [hi])⟩

/-- **A step loses nothing** and counts what it transfers. -/
theorem pipeThreads_spec {pc : PipePc} {x : Prog (PipeState ι) PipePc}
    (hact : pipeThreads me pc x) (h : s.Lossless) (hfits : pc.Fits (s.moved me)) :
    wp x (fun pc' s' => PipeStep me s (pc'.Fits (s'.moved me)) s') (fun _ => False) s := by
  cases hact with
  | startWrite hpc n | startRead hpc n =>
    exact ⟨h, fun j hj => update_of_ne hj _ _, update_self ..⟩
  | write n i killed copyin =>
    rw [pipewriteStep]
    refine wp_seq (pipewriteFrom_spec killed copyin n _ i s h hfits) fun r s' hstep => ?_
    cases r with
    | sleep i => exact hstep
    | ret r => exact hstep
  | read n killed copyout =>
    rw [pipereadStep, wp_bind, wp_get]
    split_ifs
    · exact ⟨h, fun _ _ => rfl, Or.inr ⟨rfl, hfits⟩⟩
    · exact ⟨h, fun _ _ => rfl, hfits⟩
    · rw [wp_bind]
      exact pipereadFrom_spec copyout n _ 0 s h hfits
  | close hpc writable =>
    rw [pipecloseStep, wp_bind, wp_modify]
    cases writable with
    | true | false => exact ⟨h, fun _ _ => rfl, hfits⟩

/-! ### What -1 means -/

/-- `pipewrite` returns -1 only if no process can read any more, or the caller is killed. -/
theorem pipewriteFrom_fails (killed : ℕ → Bool) (copyin : ℕ → Option Byte) :
    ∀ (left i : ℕ) (s : PipeState ι),
      wp (pipewriteFrom me killed copyin left i) (fun r _ => r = .ret (-1) →
        s.readopen = false ∨ ∃ j, i ≤ j ∧ j < i + left ∧ killed j = true) (fun _ => False) s := by
  intro left
  induction left with
  | zero =>
    intro i s hr
    injection hr with hr
    omega
  | succ left ih =>
    intro i s
    rw [pipewriteFrom, wp_bind, wp_get]
    split_ifs with hstop hfull
    · intro _
      rcases Bool.or_eq_true_iff.mp hstop with hclosed | hkilled
      · exact Or.inl (by simpa using hclosed)
      · exact Or.inr ⟨i, le_rfl, by omega, hkilled⟩
    · exact fun hr => by cases hr
    · cases copyin i with
      | none =>
        intro hr
        injection hr with hr
        omega
      | some ch =>
        rw [wp_bind, wp_modify]
        refine wp_imp (ih (i + 1) _) fun r _ hr hret => ?_
        rcases hr hret with hclosed | ⟨j, hj, hlt, hkilled⟩
        · exact Or.inl hclosed
        · exact Or.inr ⟨j, by omega, by omega, hkilled⟩

/-- `piperead` returns -1 in the middle only if the first byte cannot be copied. -/
theorem pipereadFrom_fails (copyout : ℕ → Bool) :
    ∀ (left i : ℕ) (s : PipeState ι),
      wp (pipereadFrom me copyout left i) (fun r _ => r = -1 →
        i = 0 ∧ copyout 0 = false) (fun _ => False) s := by
  intro left
  induction left with
  | zero =>
    intro i s hr
    omega
  | succ left ih =>
    intro i s
    rw [pipereadFrom, wp_bind, wp_get]
    split_ifs with hempty hcopy hzero
    · exact fun hr => by omega
    · rw [wp_bind, wp_modify]
      exact wp_imp (ih (i + 1) _) fun r _ hr hret => absurd (hr hret).1 (Nat.succ_ne_zero i)
    · exact fun _ => ⟨hzero, by rw [← hzero]; exact Bool.eq_false_iff.mpr hcopy⟩
    · exact fun hr => by omega

theorem pipewriteStep_fails (killed : ℕ → Bool) (copyin : ℕ → Option Byte) (n : ℤ) (i : ℕ)
    (hrun : pipewriteStep me killed copyin n i s = .ok (.wrote n (-1), s')) :
    s.readopen = false ∨ ∃ j, i ≤ j ∧ (j : ℤ) < n ∧ killed j = true := by
  have hwp : wp (pipewriteStep me killed copyin n i) (fun pc _ => pc = .wrote n (-1) →
      s.readopen = false ∨ ∃ j, i ≤ j ∧ j < i + (n.toNat - i) ∧ killed j = true)
      (fun _ => False) s := by
    rw [pipewriteStep]
    refine wp_seq (pipewriteFrom_fails killed copyin _ i s) fun r _ hr => ?_
    cases r with
    | sleep i => exact fun hpc => by cases hpc
    | ret r =>
      intro hpc
      injection hpc with _ hr'
      exact hr (by rw [hr'])
  rcases (wp_of_ok hrun).mp hwp rfl with hclosed | ⟨j, hj, hlt, hkilled⟩
  · exact Or.inl hclosed
  · exact Or.inr ⟨j, hj, by omega, hkilled⟩

theorem pipereadStep_fails (killed : Bool) (copyout : ℕ → Bool) (n : ℤ)
    (hrun : pipereadStep me killed copyout n s = .ok (.didRead n (-1), s')) :
    killed = true ∨ copyout 0 = false := by
  have hwp : wp (pipereadStep me killed copyout n) (fun pc _ => pc = .didRead n (-1) →
      killed = true ∨ copyout 0 = false) (fun _ => False) s := by
    rw [pipereadStep, wp_bind, wp_get]
    split_ifs with hwait hkilled
    · exact fun _ => Or.inl hkilled
    · exact fun hpc => by cases hpc
    · refine wp_seq (pipereadFrom_fails copyout _ 0 s) fun r _ hr hpc => ?_
      injection hpc with _ hr'
      exact Or.inr (hr hr').2
  exact (wp_of_ok hrun).mp hwp rfl

/-! ### Interleavings -/

/-- A new pipe that nobody uses yet. -/
def PipeState.fresh (ι : Type) (data : Fin pipesize → Byte) :
    Config ι (PipeState ι) PipePc := ⟨.new ι data, fun _ => .idle⟩

/-- What holds of every configuration. -/
structure PipeOk (c : Config ι (PipeState ι) PipePc) : Prop where
  lossless : c.shared.Lossless
  fits : ∀ me, (c.pc me).Fits (c.shared.moved me)

theorem PipeOk.step {c c' : Config ι (PipeState ι) PipePc} (h : PipeOk c)
    (hs : pipeThreads.Step me c c') : PipeOk c' := by
  cases hs with
  | @mk x pc s hact hrun =>
    have hstep := (wp_of_ok hrun).mp (pipeThreads_spec hact h.lossless (h.fits me))
    refine ⟨hstep.lossless, fun j => ?_⟩
    by_cases hj : j = me
    · rw [hj, Config.move_pc_self]
      exact hstep.fits
    · rw [Config.move_pc_of_ne _ _ _ hj, Config.move_shared, hstep.others j hj]
      exact h.fits j

theorem pipeOk_of_runs {data : Fin pipesize → Byte}
    {c : Config ι (PipeState ι) PipePc}
    (h : pipeThreads.Runs (fun _ _ => True) (PipeState.fresh ι data) c) : PipeOk c := by
  refine h.invariant ⟨Ring.carries_nil data, fun _ => trivial⟩ fun me c₁ c₂ h₁ _ hs => ?_
  exact h₁.step hs

/-- **A pipe is a lossless bounded FIFO** in every interleaving of calls of any sizes, whatever
copies fail and however often the counters wrap. -/
theorem pipe_is_fifo {data : Fin pipesize → Byte} {c : Config ι (PipeState ι) PipePc}
    (h : pipeThreads.Runs (fun _ _ => True) (PipeState.fresh ι data) c) :
    c.shared.delivered <+: c.shared.accepted ∧
    (c.shared.ring.nwrite - c.shared.ring.nread).toNat
      = c.shared.accepted.length - c.shared.delivered.length ∧
    c.shared.accepted.length - c.shared.delivered.length ≤ pipesize ∧
    (∀ me n r, c.pc me = .wrote n r → r = c.shared.moved me ∨ r = -1) ∧
    (∀ me n r, c.pc me = .didRead n r →
      r = c.shared.moved me ∨ r = -1 ∧ c.shared.moved me = 0) ∧
    (∀ me n i killed copyin s', pipewriteStep me killed copyin n i c.shared
        = .ok (.wrote n (-1), s') →
      c.shared.readopen = false ∨ ∃ j, i ≤ j ∧ (j : ℤ) < n ∧ killed j = true) ∧
    ∀ me n killed copyout s', pipereadStep me killed copyout n c.shared
        = .ok (.didRead n (-1), s') → killed = true ∨ copyout 0 = false := by
  have hok := pipeOk_of_runs h
  have hroom := hok.lossless.room
  refine ⟨hok.lossless.delivered, hok.lossless.distance pipesize_lt, by omega,
    fun me n r hpc => ?_, fun me n r hpc => ?_, fun _ n i killed copyin _ hrun => ?_,
    fun _ n killed copyout _ hrun => ?_⟩
  · have := hok.fits me
    rwa [hpc] at this
  · have := hok.fits me
    rwa [hpc] at this
  · exact pipewriteStep_fails killed copyin n i hrun
  · exact pipereadStep_fails killed copyout n hrun

end Calls

/-- One process writes three bytes, and another one then reads two of them. -/
theorem pipe_is_fifo_small : ∃ c : Config Bool (PipeState Bool) PipePc,
    c.pc true = .wrote 3 3 ∧ c.pc false = .didRead 2 2 ∧ c.shared.accepted = [7, 8, 9] ∧
    c.shared.delivered = [7, 8] ∧
    (c.shared.ring.nwrite - c.shared.ring.nread).toNat
      = c.shared.accepted.length - c.shared.delivered.length := by
  have hcalls : wp (pipewriteStep true (fun _ => false) (fun i => [7, 8, 9][i]?) 3 0) (fun pc s =>
      pc = .wrote 3 3 ∧ wp (pipereadStep false false (fun _ => true) 2) (fun pc s =>
        pc = .didRead 2 2 ∧ s.accepted = [7, 8, 9] ∧ s.delivered = [7, 8])
        (fun _ => False) (s.enter false))
      (fun _ => False) ((PipeState.new Bool fun _ => 0).enter true) := by decide +kernel
  obtain ⟨_, s₁, h₁, rfl, hread⟩ := exists_of_wp hcalls
  obtain ⟨_, s₂, h₂, rfl, haccepted, hdelivered⟩ := exists_of_wp hread
  have hrun : pipeThreads.Runs (fun _ _ => True) (PipeState.fresh Bool fun _ => 0) _ :=
    (((Relation.ReflTransGen.single ⟨true, trivial, .mk (.startWrite
      (show PipePc.idle.Outside from trivial) 3) rfl⟩).tail
      ⟨true, trivial, .mk (.write 3 0 _ _) h₁⟩).tail ⟨false, trivial, .mk (.startRead
      (show PipePc.idle.Outside from trivial) 2) rfl⟩).tail
      ⟨false, trivial, .mk (.read 2 _ _) h₂⟩
  exact ⟨_, rfl, rfl, haccepted, hdelivered, (pipe_is_fifo hrun).2.1⟩

end Xv6
