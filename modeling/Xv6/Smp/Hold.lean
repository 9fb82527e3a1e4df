import Xv6.Smp.Machine

/-!
# Who holds the lock of a process, and what it knows

A CPU holds the lock of at most one process at a time, and which one it is can be read off the frame
on top of its stack. So can what is true of the entry meanwhile: a thread that is about to switch
away has set a state for which its own context is the right one, a scheduler that has picked a
process has set it running before it is on the CPU. `Frame.hold` is this table, `Stance` are its
values.

When nobody holds the lock, the entry is settled. Either the process runs and is on a CPU, or it is
on none and its context fits its state.

What the statements of the code do with all this is said statement by statement, in
`Frame.next_good`. It needs nothing of the other CPUs.
-/

namespace Xv6

namespace Smp

variable {κ ℓ χ : Type}

/-! ### The table -/

/-- What a thread that holds the lock of a process knows of it. -/
inductive Stance (ℓ χ : Type) where
  /-- Nothing. -/
  | calm
  /-- The state. -/
  | known (st : ProcState)
  /-- The thread is that of the process, which runs. -/
  | own
  /-- The same, and the process has set the channel. -/
  | dozing (chan : Chan χ)
  /-- The thread is that of the process, which has set another state. It will go on at `f`. -/
  | leaving (f : Frame ℓ χ)
  /-- The scheduler has picked the process. -/
  | picked
  /-- A new process that is not complete. -/
  | making

/-- **The table**: whose lock is held at a frame, and in which stance. -/
def Frame.hold : Frame ℓ χ → Option (Fin nproc × Stance ℓ χ)
  | .schedTest _ _ idx => some (idx, .calm)
  | .dispatch _ idx => some (idx, .known .runnable)
  | .remember _ idx => some (idx, .picked)
  | .bind _ idx => some (idx, .picked)
  | .switchTo _ idx => some (idx, .picked)
  | .back _ idx => some (idx, .calm)
  | .drop _ idx => some (idx, .calm)
  | .schedSkip _ _ idx => some (idx, .calm)
  | .yieldSet p => some (p, .own)
  | .yieldSched p => some (p, .leaving (.yieldRelease p))
  | .yieldRelease p => some (p, .own)
  | .sleepRelease p _ _ => some (p, .own)
  | .sleepChan p _ _ => some (p, .own)
  | .sleepState p chan _ => some (p, .dozing chan)
  | .sleepSched p chan lk => some (p, .leaving (.sleepTidy p chan lk))
  | .sleepTidy p _ _ => some (p, .own)
  | .sleepUnlock p _ _ => some (p, .own)
  | .wakeupTest _ i => some (i, .calm)
  | .wakeupRelease _ i => some (i, .calm)
  | .killTest _ i => some (i, .calm)
  | .killRelease _ i _ => some (i, .calm)
  | .setkilledSet p => some (p, .calm)
  | .setkilledRelease p => some (p, .calm)
  | .forkTest _ np => some (np, .calm)
  | .forkSkip _ np => some (np, .calm)
  | .forkFound _ np => some (np, .known .unused)
  | .forkAlloc _ np => some (np, .making)
  | .forkCopy _ np => some (np, .known .used)
  | .forkFree _ np => some (np, .making)
  | .forkFail _ np => some (np, .calm)
  | .forkRelease _ np => some (np, .known .used)
  | .forkRun _ np => some (np, .known .used)
  | .forkDone _ np => some (np, .calm)
  | .forkret p => some (p, .own)
  | .exitZombie p => some (p, .own)
  | .exitUnwait p => some (p, .leaving (.exited p))
  | .exitSched p => some (p, .leaving (.exited p))
  | .exited p => some (p, .own)
  | .waitTest _ j => some (j, .calm)
  | .waitSkip _ j => some (j, .calm)
  | .waitAbort _ j => some (j, .calm)
  | .waitFree _ j => some (j, .known .zombie)
  | .waitReap _ j => some (j, .calm)
  | .waitKilled p => some (p, .calm)
  | .waitUnlock p _ => some (p, .calm)
  | .peekRelease i => some (i, .calm)
  | .boostTest i => some (i, .calm)
  | .boostRelease i => some (i, .calm)
  | _ => none

/-- The process that goes on at a frame when it is switched to. -/
def Frame.resumes : Frame ℓ χ → Option (Fin nproc)
  | .yieldRelease p => some p
  | .sleepTidy p _ _ => some p
  | .forkret p => some p
  | .exited p => some p
  | _ => none

/-- The process that `c->proc` is set to at a frame of the scheduler. -/
def Frame.bound : Frame ℓ χ → Option (Fin nproc)
  | .switchTo _ idx => some idx
  | .back _ idx => some idx
  | _ => none

/-- The process that a call is made by, where the frame has it. -/
def Frame.me : Frame ℓ χ → Option (Fin nproc)
  | .yieldSet p | .yieldSched p | .yieldRelease p => some p
  | .sleepRelease p _ _ | .sleepChan p _ _ | .sleepState p _ _ | .sleepSched p _ _ => some p
  | .sleepTidy p _ _ | .sleepUnlock p _ _ | .sleepLock p _ _ => some p
  | .setkilledSet p | .setkilledRelease p => some p
  | .allocproc p _ => some p
  | .forkTest p _ | .forkSkip p _ | .forkFound p _ | .forkAlloc p _ | .forkCopy p _ => some p
  | .forkFree p _ | .forkFail p _ | .forkRelease p _ | .forkWait p _ | .forkParent p _ => some p
  | .forkUnwait p _ | .forkLock p _ | .forkRun p _ | .forkDone p _ => some p
  | .forkret p => some p
  | .exitReparent p _ => some p
  | .exitWake p | .exitLock p | .exitZombie p | .exitUnwait p | .exitSched p | .exited p => some p
  | .waitLoop p | .waitScan p _ _ => some p
  | .waitTest p _ | .waitSkip p _ | .waitAbort p _ | .waitFree p _ | .waitReap p _ => some p
  | .waitDone p | .waitKids p _ | .waitKilled p | .waitUnlock p _ => some p
  | _ => none

/-- The frames of the scheduler. -/
def Frame.scheduling : Frame ℓ χ → Bool
  | .schedTop | .schedLevel _ | .schedScan _ _ _ | .schedTest _ _ _ | .dispatch _ _ => true
  | .remember _ _ | .bind _ _ | .switchTo _ _ | .back _ _ | .drop _ _ | .schedSkip _ _ _ => true
  | _ => false

/-- The process that a `kfork` has taken an entry for and not completed. -/
def Frame.making : Frame ℓ χ → Option (Fin nproc)
  | .forkAlloc _ np | .forkCopy _ np | .forkFree _ np | .forkRelease _ np => some np
  | .forkWait _ np | .forkParent _ np | .forkUnwait _ np | .forkLock _ np | .forkRun _ np => some np
  | _ => none

/-- A frame is one of the thread it is in. -/
def Frame.Fits (f : Frame ℓ χ) : Thread → Prop
  | .sched => f.me = none
  | .proc p => f.scheduling = false ∧ (f.me = none ∨ f.me = some p)

/-- The process that `c->proc` is set to at the top of a stack of the scheduler. -/
def topBound (fs : List (Frame ℓ χ)) : Option (Fin nproc) := fs.head?.bind Frame.bound

/-- What the frame on top of a stack holds. -/
def topHold (fs : List (Frame ℓ χ)) : Option (Fin nproc × Stance ℓ χ) := fs.head?.bind Frame.hold

/-- The processes that the calls of a stack are making. -/
def makings (fs : List (Frame ℓ χ)) : List (Fin nproc) := fs.filterMap Frame.making

/-! ### What the stances say -/

/-- A process that is on no CPU. -/
def Off (th : κ → Thread) (p : Fin nproc) : Prop := ∀ d, th d ≠ .proc p

/-- The state of a process that is off fits the frame on top of its context. -/
def Rests (p : Fin nproc) (top : Option (Frame ℓ χ)) (e : Slot χ) : Prop :=
  match e.state with
  | .running => False
  | .runnable => ∃ f, top = some f ∧ f.resumes = some p
  | .sleeping => ∃ chan lk, top = some (.sleepTidy p chan lk) ∧ e.chan = some chan
  | .used => top = some (.forkret p)
  | .zombie | .unused => True

/-- What holds of a process when its lock is free. -/
def Settled (th : κ → Thread) (p : Fin nproc) (top : Option (Frame ℓ χ)) (e : Slot χ) : Prop :=
  e.state = .running ∧ (∃ d, th d = .proc p) ∨ Off th p ∧ Rests p top e

/-- What holds of a process when CPU `c` holds its lock. -/
def Meets (th : κ → Thread) (c : κ) (p : Fin nproc) (top : Option (Frame ℓ χ)) (e : Slot χ) :
    Stance ℓ χ → Prop
  | .calm => Settled th p top e
  | .known st => Settled th p top e ∧ e.state = st
  | .own => e.state = .running ∧ th c = .proc p
  | .dozing chan => e.state = .running ∧ th c = .proc p ∧ e.chan = some chan
  | .leaving f => th c = .proc p ∧ Rests p (some f) e
  | .picked => e.state = .running ∧ Off th p ∧ ∃ f, top = some f ∧ f.resumes = some p
  | .making => e.state = .used ∧ Off th p

/-- **The state machine.** The changes that statements make to the state of process `p`. -/
inductive Transition (p : Fin nproc) : Frame ℓ χ → ProcState → ProcState → Prop where
  | same (f : Frame ℓ χ) (st : ProcState) : Transition p f st st
  | dispatch (level : Fin 4) : Transition p (.dispatch level p) .runnable .running
  | yield : Transition p (.yieldSet p) .running .runnable
  | sleep (chan : Chan χ) (lk : CondLock ℓ) :
    Transition p (.sleepState p chan lk) .running .sleeping
  | exit : Transition p (.exitZombie p) .running .zombie
  | wakeup (chan : Option (Chan χ)) : Transition p (.wakeupTest chan p) .sleeping .runnable
  | kill (pid : ℤ) : Transition p (.killTest pid p) .sleeping .runnable
  | reap (q : Fin nproc) : Transition p (.waitFree q p) .zombie .unused
  | alloc (q : Fin nproc) : Transition p (.forkFound q p) .unused .used
  | run (q : Fin nproc) : Transition p (.forkRun q p) .used .runnable
  | abandon (q : Fin nproc) : Transition p (.forkFree q p) .used .unused

/-- A process that will not run again. -/
def Slot.Dead (e : Slot χ) : Prop := e.state = .zombie ∨ e.state = .unused

/-- The entry may change as long as this stays. -/
def Slot.Alike (e e' : Slot χ) : Prop := e'.state = e.state ∧ e'.chan = e.chan

section Meets

variable {th th' : κ → Thread} {c : κ} {p : Fin nproc} {top : Option (Frame ℓ χ)} {e e' : Slot χ}

theorem Rests.congr (h : e.Alike e') (hr : Rests p top e) : Rests p top e' := by
  unfold Rests at hr ⊢
  rw [h.1, h.2]
  exact hr

theorem Settled.congr (h : e.Alike e') (hs : Settled th p top e) : Settled th p top e' := by
  rcases hs with ⟨hrun, hon⟩ | ⟨hoff, hr⟩
  · exact .inl ⟨h.1.trans hrun, hon⟩
  · exact .inr ⟨hoff, hr.congr h⟩

theorem Meets.congr {σ : Stance ℓ χ} (h : e.Alike e') (hm : Meets th c p top e σ) :
    Meets th c p top e' σ := by
  cases σ with
  | calm => exact Settled.congr h hm
  | known st => exact ⟨hm.1.congr h, h.1.trans hm.2⟩
  | own | picked | making => exact ⟨h.1.trans hm.1, hm.2⟩
  | dozing chan => exact ⟨h.1.trans hm.1, hm.2.1, h.2.trans hm.2.2⟩
  | leaving f => exact ⟨hm.1, hm.2.congr h⟩

/-- The stances do not depend on the other processes' threads. -/
theorem Settled.of_threads (hth : ∀ d, th' d = .proc p ↔ th d = .proc p)
    (h : Settled th p top e) : Settled th' p top e := by
  rcases h with ⟨hst, d, hd⟩ | ⟨hoff, hr⟩
  · exact .inl ⟨hst, d, (hth d).mpr hd⟩
  · exact .inr ⟨fun d hd => hoff d ((hth d).mp hd), hr⟩

theorem Meets.of_threads {σ : Stance ℓ χ} (hth : ∀ d, th' d = .proc p ↔ th d = .proc p)
    (h : Meets th c p top e σ) : Meets th' c p top e σ := by
  have hoff : Off th p → Off th' p := fun hoff d hd => hoff d ((hth d).mp hd)
  cases σ with
  | calm => exact Settled.of_threads hth h
  | known st => exact ⟨h.1.of_threads hth, h.2⟩
  | own => exact ⟨h.1, (hth c).mpr h.2⟩
  | dozing chan => exact ⟨h.1, (hth c).mpr h.2.1, h.2.2⟩
  | leaving f => exact ⟨(hth c).mpr h.1, h.2⟩
  | picked => exact ⟨h.1, hoff h.2.1, h.2.2⟩
  | making => exact ⟨h.1, hoff h.2⟩

/-- A process in a state other than `RUNNING` is off. -/
theorem Settled.off (hs : Settled th p top e) (h : e.state ≠ .running) :
    Off th p ∧ Rests p top e :=
  hs.resolve_left fun hr => h hr.1

theorem Settled.running (hs : Settled th p top e) (h : th c = .proc p) : e.state = .running := by
  rcases hs with hr | ⟨hoff, -⟩
  · exact hr.1
  · exact absurd h (hoff c)

/-- Its own thread may take over when it has taken the lock. -/
theorem Settled.own (h : th c = .proc p) (hs : Settled th p top e) :
    Meets th c p top e (.own : Stance ℓ χ) :=
  ⟨hs.running h, h⟩

/-- A sleeping process may be made runnable by anyone. -/
theorem Settled.woken {b : Bool} (h : e.state = .sleeping) (hs : Settled th p top e) :
    Settled th p top { e with state := .runnable, killed := b } := by
  obtain ⟨hoff, hr⟩ := hs.off (by simp [h])
  rw [Rests, h] at hr
  obtain ⟨chan, lk, htop, -⟩ := hr
  exact .inr ⟨hoff, _, htop, rfl⟩

theorem Meets.settled (hm : Meets th c p top e (.own : Stance ℓ χ)) : Settled th p top e :=
  .inl ⟨hm.1, c, hm.2⟩

end Meets

/-! ### Statements that keep to the table -/

/-- What a statement does to the hold of its thread: it stays with the same process, and what the
new stance says follows. -/
def Passes (th : κ → Thread) (s : Machine κ ℓ χ) (c : κ) (e : Fin nproc → Slot χ)
    (h h' : Option (Fin nproc × Stance ℓ χ)) : Prop :=
  match h, h' with
  | none, none => True
  | some (p, σ), some (q, σ') =>
    q = p ∧ (Meets th c p (s.context p).head? (s.slot p) σ →
      Meets th c p (s.context p).head? (e p) σ')
  | _, _ => False

theorem Passes.keeps {th : κ → Thread} {s : Machine κ ℓ χ} {c : κ}
    {e : Fin nproc → Slot χ} {h h' : Option (Fin nproc × Stance ℓ χ)}
    (hp : Passes th s c e h h') (p : Fin nproc) :
    (∃ σ, h' = some (p, σ)) ↔ ∃ σ, h = some (p, σ) := by
  rcases h with - | ⟨q, σ⟩ <;> rcases h' with - | ⟨q', σ'⟩ <;> simp_all [Passes]

theorem Passes.meets {th : κ → Thread} {s : Machine κ ℓ χ} {c : κ}
    {e : Fin nproc → Slot χ} {h h' : Option (Fin nproc × Stance ℓ χ)}
    (hp : Passes th s c e h h') {p : Fin nproc}
    {σ σ' : Stance ℓ χ} (hh : h = some (p, σ)) (hh' : h' = some (p, σ'))
    (hm : Meets th c p (s.context p).head? (s.slot p) σ) :
    Meets th c p (s.context p).head? (e p) σ' := by
  subst hh hh'
  exact hp.2 hm

/-- The frames that replace a frame are in the right place, and `c->proc` stays. -/
structure Follows (t : Thread) (f : Frame ℓ χ) (fs : List (Frame ℓ χ)) : Prop where
  fits : ∀ g ∈ fs, g.Fits t
  tail : ∀ g ∈ fs.tail, g.hold = none
  unbound : f.bound = none
  bound : topBound fs = none

/-- A statement that changes nothing that the stances speak of. -/
structure Quiet (th : κ → Thread) (s : Machine κ ℓ χ) (c : κ) (f : Frame ℓ χ)
    (fs : List (Frame ℓ χ)) : Prop where
  follows : Follows (th c) f fs
  makings : makings fs = f.making.toList
  passes : Passes th s c s.slot f.hold (topHold fs)

/-- **A statement keeps to the table.** -/
def Instr.Good (th : κ → Thread) (s : Machine κ ℓ χ) (c : κ) (f : Frame ℓ χ) : Instr ℓ χ → Prop
  | .goto fs | .lock (.cond _) fs | .unlock (.cond _) fs | .remember _ _ fs | .test _ fs
  | .signal _ _ _ fs => Quiet th s c f fs
  | .lock (.proc p) fs =>
    Follows (th c) f fs ∧ makings fs = f.making.toList ∧ f.hold = none ∧
      ∃ σ, topHold fs = some (p, σ) ∧
        ((∀ np, f.making = some np → (s.slot np).state = .used) →
          Settled th p (s.context p).head? (s.slot p) →
          Meets th c p (s.context p).head? (s.slot p) σ)
  | .unlock (.proc p) fs =>
    Follows (th c) f fs ∧ makings fs = f.making.toList ∧ topHold fs = none ∧
      ∃ σ, f.hold = some (p, σ) ∧
        (Meets th c p (s.context p).head? (s.slot p) σ →
          Settled th p (s.context p).head? (s.slot p))
  | .set p g fs =>
    Follows (th c) f fs ∧
      ((s.slot p).Alike (g (s.slot p)) ∧ makings fs = f.making.toList ∧
          Passes th s c s.slot f.hold (topHold fs) ∨
        ∃ σ σ', f.hold = some (p, σ) ∧ topHold fs = some (p, σ') ∧
          (Meets th c p (s.context p).head? (s.slot p) σ →
            Meets th c p (s.context p).head? (g (s.slot p)) σ' ∧
            Transition p f (s.slot p).state (g (s.slot p)).state ∧
            (makings fs = f.making.toList ∧
                ((s.slot p).state = .used → (g (s.slot p)).state = .used) ∨
              makings fs = [] ∧ f.making = some p)))
  | .alloc p fs =>
    Follows (th c) f fs ∧ f.hold = some (p, .known .unused) ∧ topHold fs = some (p, .making) ∧
      makings fs = [p] ∧ ∃ q, f = .forkFound q p
  | .start p fs =>
    Follows (th c) f fs ∧ f.hold = some (p, .making) ∧ topHold fs = some (p, .known .used) ∧
      makings fs = f.making.toList
  | .sched f' =>
    ∃ p, th c = .proc p ∧ f.hold = some (p, .leaving f') ∧ f'.resumes = some p ∧
      f'.Fits (.proc p) ∧ f.making = none ∧ f'.making = none
  | .setCur p fs =>
    th c = .sched ∧ makings fs = f.making.toList ∧
      Passes th s c s.slot f.hold (topHold fs) ∧ (∀ q, p = some q → f.hold = some (q, .picked)) ∧
      ∃ g, fs = [g] ∧ g.me = none ∧ g.bound = p
  | .resume p fs =>
    th c = .sched ∧ f.hold = some (p, .picked) ∧ f.bound = some p ∧ ∃ level, fs = [.back level p]
  | .panic _ => True

/-! ### The code -/

/-- The process whose thread a CPU is in, or that its scheduler has bound. -/
def Pc.cur (π : Pc ℓ χ) : Option (Fin nproc) :=
  match π.thread with
  | .sched => topBound π.stack
  | .proc p => some p

section Good

variable {th : κ → Thread} {s : Machine κ ℓ χ} {c : κ} {f g : Frame ℓ χ} {p : Fin nproc}

theorem Frame.Fits.of_same {t : Thread} (h : f.Fits t) (hme : g.me = f.me)
    (hs : g.scheduling = f.scheduling) : g.Fits t := by
  unfold Frame.Fits at h ⊢
  rw [hme, hs]
  exact h

theorem Frame.fits_proc {t : Thread} (ht : t = .proc p) (hme : g.me = some p)
    (hs : g.scheduling = false) : g.Fits t := by
  subst ht
  exact ⟨hs, .inr hme⟩

/-- A frame that belongs to no process fits everywhere. -/
theorem Frame.fits_any {t : Thread} (hme : g.me = none) (hs : g.scheduling = false) :
    g.Fits t := by
  cases t with
  | sched => exact hme
  | proc p => exact ⟨hs, .inl hme⟩

theorem Frame.Fits.thread {t : Thread} (h : f.Fits t) (hme : f.me = some p) : t = .proc p := by
  cases t with
  | sched => simp [Frame.Fits, hme] at h
  | proc q =>
    have hq := h.2.resolve_left (by simp [hme])
    rw [hme] at hq
    rw [Option.some.inj hq]

theorem Frame.Fits.sched {t : Thread} (h : f.Fits t) (hs : f.scheduling = true) : t = .sched := by
  cases t with
  | sched => rfl
  | proc q => simp [Frame.Fits, hs] at h

theorem Follows.nil (t : Thread) (hb : f.bound = none) : Follows t f [] :=
  ⟨by simp, by simp, hb, rfl⟩

theorem Follows.one {t : Thread} (hg : g.Fits t) (hb : f.bound = none) (hb' : g.bound = none) :
    Follows t f [g] :=
  ⟨by simpa using hg, by simp, hb, hb'⟩

theorem Follows.two {t : Thread} {g' : Frame ℓ χ} (hg : g.Fits t) (hg' : g'.Fits t)
    (hh : g'.hold = none) (hb : f.bound = none) (hb' : g.bound = none) : Follows t f [g, g'] :=
  ⟨by simpa using ⟨hg, hg'⟩, by simpa using hh, hb, hb'⟩

theorem Frame.Fits.next {t : Thread} (h : f.Fits t)
    (hlike : (g.me, g.scheduling, f.bound, g.bound) = (f.me, f.scheduling, none, none)) :
    Follows t f [g] := by
  simp only [Prod.mk.injEq] at hlike
  exact .one (h.of_same hlike.1 hlike.2.1) hlike.2.2.1 hlike.2.2.2

theorem withProc_good {next : Fin nproc → Instr ℓ χ} (hb : f.bound = none)
    {st : List (Frame ℓ χ)} (hcur : s.cur c = Pc.cur ⟨th c, f :: st⟩)
    (h : ∀ p, th c = .proc p → (next p).Good th s c f) : (withProc s c next).Good th s c f := by
  unfold withProc
  split
  · trivial
  · rename_i p hp
    refine h p ?_
    rw [hp] at hcur
    unfold Pc.cur at hcur
    split at hcur
    · simp [topBound, hb] at hcur
    · rename_i t q ht
      rw [Option.some.inj hcur]
      exact ht

theorem forProc_good {i : ℕ} {body : Fin nproc → Instr ℓ χ} {rest : Instr ℓ χ}
    (h : ∀ p, (body p).Good th s c f) (hrest : rest.Good th s c f) :
    (forProc i body rest).Good th s c f := by
  unfold forProc
  split
  · exact h _
  · exact hrest

theorem ite_good {b : Prop} [Decidable b] {i j : Instr ℓ χ} (hi : b → i.Good th s c f)
    (hj : ¬b → j.Good th s c f) : (if b then i else j).Good th s c f := by
  split
  · exact hi ‹_›
  · exact hj ‹_›

/-- The scheduler goes on at a frame where it has nothing. -/
structure Frame.Seeking (f : Frame ℓ χ) : Prop where
  scheduling : f.scheduling = true
  me : f.me = none
  hold : f.hold = none
  bound : f.bound = none
  making : f.making = none

theorem Frame.seeking_nextLevel (level : Fin 4) : (nextLevel level : Frame ℓ χ).Seeking := by
  unfold nextLevel
  split <;> exact ⟨rfl, rfl, rfl, rfl, rfl⟩

theorem Frame.Seeking.unlock_good (hg : g.Seeking) (hfits : f.Fits (th c))
    (hf : f.scheduling = true) (hb : f.bound = none) (hm : f.making = none)
    (hh : f.hold = some (p, .calm)) : Instr.Good th s c f (.unlock (.proc p) [g]) := by
  have hme : f.me = none := by
    rw [hfits.sched hf] at hfits
    exact hfits
  refine ⟨.one (hfits.of_same (hg.me.trans hme.symm) (hg.scheduling.trans hf.symm)) hb hg.bound,
    ?_, hg.hold, _, hh, fun h => h⟩
  simp [makings, hg.making, hm]

variable [DecidableEq χ]

/-- **Every statement keeps to the table.** -/
theorem Frame.next_good {st : List (Frame ℓ χ)} (ok : Bool) (hfits : f.Fits (th c))
    (hcur : s.cur c = Pc.cur ⟨th c, f :: st⟩) : (f.next s c ok).Good th s c f := by
  cases f with
  | schedTop | schedLevel level | forkWait p np | forkUnwait p np | waitLoop p | notify chan lk =>
    exact ⟨hfits.next rfl, rfl, trivial⟩
  | schedScan level start idx | peek i => exact ⟨hfits.next rfl, rfl, rfl, _, rfl, fun _ => id⟩
  | schedTest level start idx =>
    exact ite_good
      (fun h => ⟨hfits.next rfl, rfl, rfl, fun hm => ⟨hm, h.1⟩⟩)
      fun _ => ⟨hfits.next rfl, rfl, rfl, id⟩
  | dispatch level idx =>
    refine ⟨hfits.next rfl, .inr ⟨_, _, rfl, rfl, ?_⟩⟩
    rintro ⟨hs, hst⟩
    obtain ⟨hoff, hr⟩ := hs.off (by simp [hst])
    rw [Rests, hst] at hr
    exact ⟨⟨rfl, hoff, hr⟩, hst ▸ .dispatch _, .inl ⟨rfl, by simp [hst]⟩⟩
  | remember level idx | sleepRelease p chan lk | exitUnwait p | waitKilled p =>
    exact ⟨hfits.next rfl, rfl, rfl, id⟩
  | bind level idx =>
    refine ⟨hfits.sched rfl, rfl, ⟨rfl, id⟩, ?_, _, rfl, rfl, rfl⟩
    rintro q ⟨⟩
    rfl
  | switchTo level idx => exact ⟨hfits.sched rfl, rfl, rfl, _, rfl⟩
  | back level idx => exact ⟨hfits.sched rfl, rfl, ⟨rfl, id⟩, by simp, _, rfl, rfl, rfl⟩
  | drop level idx => exact (Frame.seeking_nextLevel level).unlock_good hfits rfl rfl rfl rfl
  | schedSkip level start idx =>
    refine Frame.Seeking.unlock_good ?_ hfits rfl rfl rfl rfl
    split
    · exact Frame.seeking_nextLevel level
    · exact ⟨rfl, rfl, rfl, rfl, rfl⟩
  | yield | sleep chan lk =>
    exact withProc_good rfl hcur fun p hp =>
      ⟨.one (Frame.fits_proc hp rfl rfl) rfl rfl, rfl, rfl, _, rfl, fun _ h => h.own hp⟩
  | yieldSet p =>
    refine ⟨hfits.next rfl, .inr ⟨_, _, rfl, rfl, ?_⟩⟩
    rintro ⟨hst, hth⟩
    exact ⟨⟨hth, _, rfl, rfl⟩, hst ▸ .yield, .inl ⟨rfl, by simp [hst]⟩⟩
  | yieldSched p | exitSched p | sleepSched p chan lk =>
    exact ⟨p, hfits.thread rfl, rfl, rfl, Frame.fits_proc rfl rfl rfl, rfl, rfl⟩
  | yieldRelease p | forkret p => exact ⟨.nil _ rfl, rfl, rfl, _, rfl, Meets.settled⟩
  | sleepChan p chan lk =>
    refine ⟨hfits.next rfl, .inr ⟨_, _, rfl, rfl, ?_⟩⟩
    rintro ⟨hst, hth⟩
    exact ⟨⟨hst, hth, rfl⟩, .same _ _, .inl ⟨rfl, id⟩⟩
  | sleepState p chan lk =>
    refine ⟨hfits.next rfl, .inr ⟨_, _, rfl, rfl, ?_⟩⟩
    rintro ⟨hst, hth, hchan⟩
    exact ⟨⟨hth, _, _, rfl, hchan⟩, hst ▸ .sleep _ _, .inl ⟨rfl, by simp [hst]⟩⟩
  | sleepTidy p chan lk =>
    refine ⟨hfits.next rfl, .inr ⟨_, _, rfl, rfl, ?_⟩⟩
    rintro ⟨hst, hth⟩
    exact ⟨⟨hst, hth⟩, .same _ _, .inl ⟨rfl, id⟩⟩
  | sleepUnlock p chan lk => exact ⟨hfits.next rfl, rfl, rfl, _, rfl, Meets.settled⟩
  | sleepLock p chan lk | waitDone p | notifyRelease chan lk => exact ⟨.nil _ rfl, rfl, trivial⟩
  | await chan lk =>
    refine withProc_good rfl hcur fun p hp => ?_
    split
    · exact ⟨.nil _ rfl, rfl, trivial⟩
    · exact ⟨.two (Frame.fits_any rfl rfl) hfits rfl rfl rfl, rfl, trivial⟩
  | wakeup chan i =>
    rw [Frame.next]
    refine forProc_good (fun p => ite_good (fun _ => ?_) fun _ => ?_) ?_
    · exact ⟨hfits.next rfl, rfl, trivial⟩
    · exact ⟨hfits.next rfl, rfl, rfl, _, rfl, fun _ => id⟩
    · exact ⟨.nil _ rfl, rfl, trivial⟩
  | wakeupTest chan i =>
    refine ite_good (fun h => ?_)
      fun _ => ⟨hfits.next rfl, rfl, rfl, id⟩
    refine ⟨hfits.next rfl, .inr ⟨_, _, rfl, rfl, fun hm => ?_⟩⟩
    exact ⟨Settled.woken h.1 hm, h.1 ▸ .wakeup _, .inl ⟨rfl, by simp [h.1]⟩⟩
  | wakeupRelease chan i | forkSkip p np | waitSkip p j | waitAbort p j | waitReap p j
  | boostRelease i =>
    exact ⟨hfits.next rfl, rfl, rfl, _, rfl, id⟩
  | kill pid i | boost i | allocproc p i =>
    rw [Frame.next]
    refine forProc_good (fun p => ?_) ?_
    · exact ⟨hfits.next rfl, rfl, rfl, _, rfl, fun _ => id⟩
    · exact ⟨.nil _ rfl, rfl, trivial⟩
  | killTest pid i =>
    refine ite_good (fun _ => ?_)
      fun _ => ⟨hfits.next rfl, rfl, rfl, id⟩
    refine ⟨hfits.next rfl, .inr ⟨_, _, rfl, rfl, fun hm => ?_⟩⟩
    by_cases h : (s.slot i).state = .sleeping
    · simp only [if_pos h]
      exact ⟨Settled.woken h hm, h ▸ .kill _, .inl ⟨rfl, by simp [h]⟩⟩
    · simp only [if_neg h]
      exact ⟨Settled.congr ⟨rfl, rfl⟩ hm, .same _ _, .inl ⟨rfl, id⟩⟩
  | killRelease pid i found =>
    cases found with
    | true => exact ⟨.nil _ rfl, rfl, rfl, _, rfl, id⟩
    | false => exact ⟨hfits.next rfl, rfl, rfl, _, rfl, id⟩
  | setkilled =>
    exact withProc_good rfl hcur fun p hp =>
      ⟨.one (Frame.fits_proc hp rfl rfl) rfl rfl, rfl, rfl, _, rfl, fun _ => id⟩
  | setkilledSet p | boostTest i => exact ⟨hfits.next rfl, .inl ⟨⟨rfl, rfl⟩, rfl, rfl, id⟩⟩
  | setkilledRelease p | forkFail p np | forkDone p np | peekRelease i =>
    exact ⟨.nil _ rfl, rfl, rfl, _, rfl, id⟩
  | fork | wait =>
    exact withProc_good rfl hcur fun p hp =>
      ⟨.one (Frame.fits_proc hp rfl rfl) rfl rfl, rfl, trivial⟩
  | forkTest p np =>
    exact ite_good
      (fun h => ⟨hfits.next rfl, rfl, rfl, fun hm => ⟨hm, h⟩⟩)
      fun _ => ⟨hfits.next rfl, rfl, rfl, id⟩
  | forkFound p np => exact ⟨hfits.next rfl, rfl, rfl, rfl, p, rfl⟩
  | forkAlloc p np =>
    exact ite_good
      (fun _ => ⟨hfits.next rfl, rfl, rfl, rfl⟩)
      fun _ => ⟨hfits.next rfl, rfl, rfl, id⟩
  | forkCopy p np =>
    exact ite_good
      (fun _ => ⟨hfits.next rfl, rfl, rfl, id⟩)
      fun _ => ⟨hfits.next rfl, rfl, rfl,
        fun hm => ⟨hm.2, (hm.1.off (by simp [hm.2])).1⟩⟩
  | forkFree p np =>
    refine ⟨hfits.next rfl, .inr ⟨_, _, rfl, rfl, fun hm => ?_⟩⟩
    exact ⟨.inr ⟨hm.2, trivial⟩, hm.1 ▸ .abandon _, .inr ⟨rfl, rfl⟩⟩
  | forkRelease p np => exact ⟨hfits.next rfl, rfl, rfl, _, rfl, fun hm => hm.1⟩
  | forkParent p np => exact ⟨hfits.next rfl, .inl ⟨⟨rfl, rfl⟩, rfl, trivial⟩⟩
  | forkLock p np => exact ⟨hfits.next rfl, rfl, rfl, _, rfl, fun hu h => ⟨h, hu np rfl⟩⟩
  | forkRun p np =>
    refine ⟨hfits.next rfl, .inr ⟨_, _, rfl, rfl, ?_⟩⟩
    rintro ⟨hs, hst⟩
    obtain ⟨hoff, hr⟩ := hs.off (by simp [hst])
    rw [Rests, hst] at hr
    exact ⟨.inr ⟨hoff, _, hr, rfl⟩, hst ▸ .run _, .inr ⟨rfl, rfl⟩⟩
  | exit =>
    exact withProc_good rfl hcur fun p hp => ite_good (fun _ => trivial)
      fun _ => ⟨.one (Frame.fits_proc hp rfl rfl) rfl rfl, rfl, trivial⟩
  | exitReparent p j =>
    rw [Frame.next]
    refine forProc_good (fun pp => ite_good (fun _ => ?_) fun _ => ?_) ?_
    · exact ⟨.two (Frame.fits_any rfl rfl) (hfits.of_same rfl rfl) rfl rfl rfl,
        .inl ⟨⟨rfl, rfl⟩, rfl, trivial⟩⟩
    · exact ⟨hfits.next rfl, rfl, trivial⟩
    · exact ⟨hfits.next rfl, rfl, trivial⟩
  | exitWake p | notifySet chan lk =>
    exact ⟨.two (Frame.fits_any rfl rfl) (hfits.of_same rfl rfl) rfl rfl rfl, rfl, trivial⟩
  | exitLock p =>
    exact ⟨hfits.next rfl, rfl, rfl, _, rfl,
      fun _ h => h.own (hfits.thread rfl)⟩
  | exitZombie p =>
    refine ⟨hfits.next rfl, .inr ⟨_, _, rfl, rfl, ?_⟩⟩
    rintro ⟨hst, hth⟩
    exact ⟨⟨hth, trivial⟩, hst ▸ .exit, .inl ⟨rfl, by simp [hst]⟩⟩
  | exited p => trivial
  | waitScan p j havekids =>
    rw [Frame.next]
    refine forProc_good (fun pp => ite_good (fun _ => ?_) fun _ => ?_) ?_
    · exact ⟨hfits.next rfl, rfl, rfl, _, rfl, fun _ => id⟩
    · exact ⟨hfits.next rfl, rfl, trivial⟩
    · exact ⟨hfits.next rfl, rfl, trivial⟩
  | waitTest p j =>
    exact ite_good
      (fun h => ite_good
        (fun _ => ⟨hfits.next rfl, rfl, rfl, fun hm => ⟨hm, h⟩⟩)
        fun _ => ⟨hfits.next rfl, rfl, rfl, id⟩)
      fun _ => ⟨hfits.next rfl, rfl, rfl, id⟩
  | waitFree p j =>
    refine ⟨hfits.next rfl, .inr ⟨_, _, rfl, rfl, ?_⟩⟩
    rintro ⟨hs, hst⟩
    exact ⟨.inr ⟨(hs.off (by simp [hst])).1, trivial⟩, hst ▸ .reap _, .inl ⟨rfl, by simp [hst]⟩⟩
  | waitKids p havekids =>
    exact ite_good
      (fun _ => ⟨hfits.next rfl, rfl, rfl, _, rfl, fun _ => id⟩)
      fun _ => ⟨hfits.next rfl, rfl, trivial⟩
  | waitUnlock p killed =>
    cases killed with
    | true => exact ⟨hfits.next rfl, rfl, rfl, _, rfl, id⟩
    | false =>
      exact ⟨.two (Frame.fits_any rfl rfl) (hfits.of_same rfl rfl) rfl rfl rfl, rfl, rfl, _, rfl,
        id⟩

end Good

end Smp

end Xv6
