import Xv6.Smp.Steps

/-!
# The states of processes

What the table of `Smp.Hold` says about a process whose lock is free, in every configuration that is
reached. It runs if and only if it is the current process of exactly one CPU. If it sleeps, its
context is in the call of `sleep` that was made with its channel. If it is dead, no CPU has it, and
none will until `allocproc` takes the entry again.
-/

namespace Xv6

namespace Smp

variable {κ ℓ χ : Type}

/-! ### Dead processes -/

section Dead

variable {cfg cfg' : Cfg κ ℓ χ} {c : κ} {f : Frame ℓ χ} {p : Fin nproc}

theorem Transition.dead {e e' : Slot χ} (h : Transition p f e.state e'.state)
    (hf : ∀ q, f ≠ .forkFound q p) (hd : e.Dead) : e'.Dead := by
  generalize hs : e.state = st at h
  generalize hs' : e'.state = st' at h
  unfold Slot.Dead at hd ⊢
  rw [hs] at hd
  rw [hs']
  cases h <;> simp_all

/-- A dead process that no CPU has. -/
structure Machine.Buried (s : Machine κ ℓ χ) (p : Fin nproc) : Prop where
  slot : (s.slot p).Dead
  cur : ∀ c, s.cur c ≠ some p

/-- A CPU is about to take the entry of a process for a new one. -/
def Reallocates (cfg : Cfg κ ℓ χ) (c : κ) (p : Fin nproc) : Prop :=
  ∃ q st, (cfg.pc c).stack = .forkFound q p :: st

/-- A CPU is about to dispatch a process. -/
def Dispatches (cfg : Cfg κ ℓ χ) (c : κ) (p : Fin nproc) : Prop :=
  ∃ level st, (cfg.pc c).stack = .dispatch level p :: st

variable [DecidableEq κ] [DecidableEq ℓ] [DecidableEq χ]

/-- **A dead process stays off the CPUs**, as long as its entry is not taken again. -/
theorem Machine.Buried.step (hb : cfg.shared.Buried p) (h : Inv cfg) (hnot : ¬Reallocates cfg c p)
    (hstep : cpus.Step c cfg cfg') : cfg'.shared.Buried p := by
  have heff := h.effect hstep
  refine ⟨?_, fun d hd => ?_⟩
  · rcases heff.state p with hsame | ⟨f, st, hst, htr⟩
    · rw [Slot.Dead, hsame]
      exact hb.slot
    · exact htr.dead (fun q hf => hnot ⟨q, st, by rw [hst, hf]⟩) hb.slot
  · rcases heff.cur d p hd with hcur | hrun
    · exact hb.cur d hcur
    · have hdead := hb.slot
      simp [Slot.Dead, hrun] at hdead

theorem Machine.Buried.runs (hb : cfg.shared.Buried p) (h : Inv cfg)
    (hruns : cpus.Runs (fun c cfg => ¬Reallocates cfg c p) cfg cfg') :
    Inv cfg' ∧ cfg'.shared.Buried p :=
  hruns.invariant (I := fun cfg => Inv cfg ∧ cfg.shared.Buried p) ⟨h, hb⟩
    fun _ _ _ hI hnot hstep => ⟨hI.1.step hstep, hI.2.step hI.1 hnot hstep⟩

omit [DecidableEq κ] [DecidableEq ℓ] [DecidableEq χ] in
theorem Machine.Buried.not_dispatches (hb : cfg.shared.Buried p) (h : Inv cfg) (c : κ) :
    ¬Dispatches cfg c p := by
  rintro ⟨level, st, hst⟩
  obtain ⟨-, hrun⟩ := h.taken c p (.known .runnable) (by rw [Pc.hold, hst]; rfl)
  have := hb.slot
  simp [Slot.Dead, hrun] at this

end Dead

/-! ### Processes whose lock is free -/

section Free

variable {cfg : Cfg κ ℓ χ} {p : Fin nproc} (h : Inv cfg)
  (hfree : cfg.shared.holder (.proc p) = none)
include h hfree

/-- The CPUs that have a process are those that are in its thread, or hold its lock. -/
theorem Inv.cur_iff (c : κ) : cfg.shared.cur c = some p ↔ threads cfg c = .proc p := by
  rw [h.cur c, threads]
  unfold Pc.cur
  cases ht : (cfg.pc c).thread with
  | proc q => simp
  | sched =>
    refine ⟨fun hb => ?_, fun hs => by simp at hs⟩
    change topBound (cfg.pc c).stack = some p at hb
    obtain ⟨σ, hσ⟩ : ∃ σ, (cfg.pc c).hold = some (p, σ) := by
      unfold Pc.hold
      cases hst : (cfg.pc c).stack with
      | nil => simp [hst, topBound] at hb
      | cons f st =>
        rw [hst] at hb
        exact Frame.hold_of_bound hb
    have := (h.hold c p).mpr ⟨σ, hσ⟩
    simp [hfree] at this

theorem Inv.running_iff :
    (cfg.shared.slot p).state = .running ↔ ∃! c, cfg.shared.cur c = some p := by
  simp only [h.cur_iff hfree]
  constructor
  · intro hrun
    rcases h.free p hfree with ⟨-, c, hc⟩ | ⟨-, hr⟩
    · exact ⟨c, hc, fun d hd => h.alone d c p hd hc⟩
    · rw [Rests, hrun] at hr
      exact hr.elim
  · rintro ⟨c, hc, -⟩
    exact (h.free p hfree).running hc

theorem Inv.sleeping (hst : (cfg.shared.slot p).state = .sleeping) :
    ∃ chan lk st, (cfg.shared.slot p).chan = some chan ∧
      cfg.shared.context p = .sleepTidy p chan lk :: st := by
  obtain ⟨-, hr⟩ := (h.free p hfree).off (by simp [hst])
  rw [Rests, hst] at hr
  obtain ⟨chan, lk, htop, hchan⟩ := hr
  obtain ⟨st, hst⟩ := List.head?_eq_some_iff.mp htop
  exact ⟨chan, lk, st, hchan, hst⟩

theorem Inv.buried (hdead : (cfg.shared.slot p).Dead) : cfg.shared.Buried p := by
  refine ⟨hdead, fun c hc => ?_⟩
  have hrun := (h.free p hfree).running ((h.cur_iff hfree c).mp hc)
  simp [Slot.Dead, hrun] at hdead

end Free

/-- **The states of processes.** For any number of CPUs and in every configuration that is reached,
a process whose lock is free runs if and only if it is the current process of exactly one CPU. If it
sleeps, it does so on the channel that it has called `sleep` with. If it is dead, it is no CPU's
current process, and until its entry is taken again it becomes none and is not dispatched. -/
theorem process_states [DecidableEq κ] [DecidableEq ℓ] [DecidableEq χ] {cfg : Cfg κ ℓ χ}
    (h : Reached cfg) (p : Fin nproc) (hfree : cfg.shared.holder (.proc p) = none) :
    ((cfg.shared.slot p).state = .running ↔ ∃! c, cfg.shared.cur c = some p) ∧
    ((cfg.shared.slot p).state = .sleeping → ∃ chan lk st,
      (cfg.shared.slot p).chan = some chan ∧
        cfg.shared.context p = .sleepTidy p chan lk :: st) ∧
    ((cfg.shared.slot p).state = .zombie ∨ (cfg.shared.slot p).state = .unused →
      (∀ c, cfg.shared.cur c ≠ some p) ∧
      ∀ cfg', cpus.Runs (fun c cfg => ¬Reallocates cfg c p) cfg cfg' →
        ∀ c, cfg'.shared.cur c ≠ some p ∧ ¬Dispatches cfg' c p) := by
  have hinv := h.inv
  refine ⟨hinv.running_iff hfree, hinv.sleeping hfree, fun hdead => ?_⟩
  have hb := hinv.buried hfree hdead
  refine ⟨hb.cur, fun cfg' hruns c => ?_⟩
  obtain ⟨hinv', hb'⟩ := hb.runs hinv hruns
  exact ⟨hb'.cur c, hb'.not_dispatches hinv' c⟩

/-! ### Two CPUs -/

instance neZero2 : NeZero 2 := ⟨by decide⟩

/-- Two CPUs and a first process, in the entry that the schedulers look at first. -/
def twoCpus : Cfg (Fin 2) Unit Unit where
  shared :=
    { slot := fun p =>
        ⟨if p = ⟨1, one_lt_nproc⟩ then .runnable else .unused, none, false, 1, none, 0⟩
      nextpid := 2
      initproc := some ⟨1, one_lt_nproc⟩
      holder := fun _ => none
      held := fun _ => []
      cur := fun _ => none
      context := fun p => if p = ⟨1, one_lt_nproc⟩ then [.forkret ⟨1, one_lt_nproc⟩] else []
      schedContext := fun _ => []
      lastIdx := fun _ _ => ⟨0, nproc_pos⟩
      cond := fun _ _ => false
      tests := fun _ => 0 }
  pc := fun _ => ⟨.sched, [.schedTop]⟩

theorem starts_twoCpus : Starts twoCpus := by
  refine ⟨fun _ => rfl, fun _ => rfl, fun _ => rfl, fun _ => rfl, fun _ _ => rfl,
    ⟨1, by decide⟩, rfl, rfl, rfl, fun q hq => ?_⟩
  simp [twoCpus, hq]

section Scripts

variable {κ ℓ χ : Type} [DecidableEq κ] [DecidableEq ℓ] [DecidableEq χ] {c : κ} {cfg : Cfg κ ℓ χ}

/-- CPU `c` does something, unless it would panic. -/
def act (c : κ) (x : Pc ℓ χ → Prog (Machine κ ℓ χ) (Pc ℓ χ)) (cfg : Cfg κ ℓ χ) : Cfg κ ℓ χ :=
  match x (cfg.pc c) cfg.shared with
  | .ok (π, s) => cfg.move c π s
  | .error _ => cfg

/-- The next statement, if there is one. -/
def frameStep (c : κ) (π : Pc ℓ χ) : Prog (Machine κ ℓ χ) (Pc ℓ χ) :=
  match π.stack with
  | [] => pure π
  | f :: st => f.step c π.thread st true

theorem runs_act {x : Pc ℓ χ → Prog (Machine κ ℓ χ) (Pc ℓ χ)}
    (h : Moves c (cfg.pc c) (x (cfg.pc c))) :
    cpus.Runs (fun _ _ => True) cfg (act c x cfg) := by
  unfold act
  split
  · rename_i π s hrun
    exact .single ⟨c, trivial, .mk h hrun⟩
  · exact .refl

theorem runs_frames (n : ℕ) :
    cpus.Runs (fun _ _ => True) cfg (act c (Prog.solo (frameStep c) n) cfg) := by
  unfold act
  split
  · rename_i π s hrun
    refine Threads.runs_solo (fun π => ?_) n hrun
    obtain ⟨t, st⟩ := π
    cases st with
    | nil => exact .inr rfl
    | cons f st => exact .inl (.frame t f st true)
  · exact .refl

end Scripts

/-- CPU 0 has dispatched the first process, which has returned from `forkret`. -/
def dispatched : Cfg (Fin 2) Unit Unit := act 0 (Prog.solo (frameStep 0) 9) twoCpus

theorem reached_dispatched : Reached dispatched := ⟨_, starts_twoCpus, runs_frames 9⟩

/-- The first process runs on one of two CPUs, and the other entries are no CPU's process. -/
theorem process_states_two : (dispatched.shared.slot ⟨1, by decide⟩).state = .running ∧
    (∃! c, dispatched.shared.cur c = some ⟨1, by decide⟩) ∧
    ∀ c, dispatched.shared.cur c ≠ some ⟨0, by decide⟩ :=
  ⟨rfl, (process_states reached_dispatched _ rfl).1.mp rfl,
    ((process_states reached_dispatched _ rfl).2.2 (.inr rfl)).1⟩

end Smp

end Xv6
