import Xv6.Smp.States

/-!
# No wakeup is lost

A process that has found its condition false calls `sleep` with the lock that protects the
condition. Between the release of that lock and the moment it is marked as sleeping it holds its own
lock only, and a wakeup that looks at it too early would miss it for good. It cannot, because
`wakeup` takes the lock of every process it looks at, and whoever calls it holds the other lock: a
process that is on its way into `sleep` got there before that lock was taken.

So the invariant is about the table that `wakeup` goes through. As long as the caller holds the lock
`lk`, no process that it has passed is asleep on `chan`, or on its way there, in a call of `sleep`
with `lk`. Nobody can start on this way meanwhile.

What the caller did to the condition plays no part.
-/

namespace Xv6

open Threads Prog

namespace Smp

variable {κ ℓ χ : Type}

/-! ### Processes that are asleep -/

/-- A process in `sleep` that has released the lock of its condition, and whether it has come to
`sched`. -/
def Frame.nap : Frame ℓ χ → Option (Fin nproc × Chan χ × CondLock ℓ × Bool)
  | .sleepChan p chan lk => some (p, chan, lk, false)
  | .sleepState p chan lk => some (p, chan, lk, false)
  | .sleepSched p chan lk => some (p, chan, lk, false)
  | .sleepTidy p chan lk => some (p, chan, lk, true)
  | _ => none

/-- A process in a call of `sleep(chan, lk)` that sleeps, or will without looking again. -/
def Asleep (cfg : Cfg κ ℓ χ) (q : Fin nproc) (chan : Chan χ) (lk : CondLock ℓ) : Prop :=
  ∃ f st b, HasStack cfg q (f :: st) ∧ f.nap = some (q, chan, lk, b) ∧
    (b = true → (cfg.shared.slot q).state = .sleeping)

section Asleep

variable {cfg cfg' : Cfg κ ℓ χ} {c : κ} {q : Fin nproc} {chan : Chan χ} {lk : CondLock ℓ}
  {f g : Frame ℓ χ} {s : Machine κ ℓ χ}

/-- A frame of this part of `sleep` holds the lock of the process. -/
theorem Frame.hold_of_nap {b : Bool} (h : f.nap = some (q, chan, lk, b)) :
    ∃ σ, f.hold = some (q, σ) := by
  cases f <;> cases h <;> exact ⟨_, rfl⟩

/-- The statement that marks a process as sleeping comes before `sched`. -/
theorem Inv.not_tidy (h : Inv cfg) {st st' : List (Frame ℓ χ)} {chan' : Chan χ} {lk' : CondLock ℓ}
    (hc : (cfg.pc c).stack = .sleepState q chan' lk' :: st')
    (hst : HasStack cfg q (f :: st)) : f.nap ≠ some (q, chan, lk, true) := by
  have hm := h.taken c q (.dozing chan') (by rw [Pc.hold, hc]; rfl)
  have hself : HasStack cfg q (.sleepState q chan' lk' :: st') := by
    refine .inl ⟨c, ?_⟩
    rw [← hc, ← hm.2.1]
    rfl
  have := (List.cons.inj (h.hasStack_unique hst hself)).1
  rw [this]
  simp [Frame.nap]

variable [DecidableEq χ]

/-- The way into `sched` starts where the lock is released. -/
theorem Frame.nap_of_next {ok b : Bool} (hg : g ∈ (f.next s c ok).frames)
    (hnap : g.nap = some (q, chan, lk, b)) :
    f = .sleepRelease q chan lk ∨ f.nap = some (q, chan, lk, false) := by
  cases f
  case sleepRelease =>
    cases List.mem_singleton.mp hg
    cases hnap
    exact .inl rfl
  case sleepChan | sleepState | sleepSched =>
    cases List.mem_singleton.mp hg
    cases hnap
    exact .inr rfl
  case drop | schedSkip =>
    simp only [Frame.next, Instr.frames, Frame.nextLevel, List.mem_singleton] at hg
    subst hg
    split_ifs at hnap <;> cases hnap
  -- no other statement leads into this part of `sleep`
  all_goals
    simp only [Frame.next, withProc, forProc] at hg
    (repeat' split at hg) <;>
      simp only [Instr.frames, List.mem_cons, List.not_mem_nil, or_false] at hg
  all_goals
    rcases hg with rfl | rfl <;> cases hnap

variable [DecidableEq κ] [DecidableEq ℓ]

/-- **The only way to fall asleep** in `sleep(chan, lk)` is to release `lk`. -/
theorem Asleep.of_step (h : Inv cfg) (hstep : cpus.Step c cfg cfg')
    (ha : Asleep cfg' q chan lk) : Asleep cfg q chan lk ∨
      (∃ st, (cfg.pc c).stack = .sleepRelease q chan lk :: st) ∧
        cfg.shared.holder (.cond lk) = some c := by
  have heff := h.effect hstep
  obtain ⟨f, st, b, hst, hnap, hslp⟩ := ha
  have hlocked := Frame.hold_of_nap hnap
  generalize hfs : f :: st = fs at hst
  cases heff.stack q fs hst with
  | same hst =>
    subst hfs
    refine .inl ⟨f, st, b, hst, hnap, fun hb => ?_⟩
    rcases heff.state q with hsame | ⟨f', st', hst', htr⟩
    · exact hsame.symm.trans (hslp hb)
    · rw [hslp hb] at htr
      generalize hs : (cfg.shared.slot q).state = σ at htr
      cases htr with
      | same => rfl
      | sleep chan' lk' =>
        subst hb
        exact absurd hnap (h.not_tidy hst' hst)
  | @frame f' st' ok hpc hunlock htest =>
    have hok := h.stack c
    rw [hpc] at hok
    obtain ⟨σ, hσ⟩ := hlocked
    have hmem := hok.mem_top (by simp [hσ]) hfs
    rcases Frame.nap_of_next hmem hnap with rfl | hnap'
    · exact .inr ⟨⟨st', by rw [hpc]⟩, hunlock _ _ rfl⟩
    · exact .inl ⟨f', st', false, .inl ⟨c, hpc⟩, hnap', by simp⟩
  | call hpc hf | handler ht hheld hf =>
    cases (List.cons.inj hfs).1
    cases hf <;> cases hnap
  | start hst =>
    cases (List.cons.inj hfs).1
    cases hnap

end Asleep

/-! ### The scan -/

/-- How far a call of `wakeup(chan)` has come: the processes before this one have been looked at. -/
def Frame.scan : Frame ℓ χ → Option (Chan χ × ℕ)
  | .wakeup (some chan) i => some (chan, i)
  | .wakeupTest (some chan) i => some (chan, i)
  | .wakeupRelease (some chan) i => some (chan, i + 1)
  | _ => none

/-- CPU `j` is in a call of `wakeup(chan)`, made from a thread `t` with stack `st`. -/
def InWakeup (cfg : Cfg κ ℓ χ) (j : κ) (chan : Chan χ) (t : Thread) (st : List (Frame ℓ χ)) :
    Prop :=
  ∃ f i, cfg.pc j = ⟨t, f :: st⟩ ∧ f.scan = some (chan, i)

/-- The first `m` processes are not asleep, except for the one that the call is made by. -/
def Passed (cfg : Cfg κ ℓ χ) (t : Thread) (chan : Chan χ) (lk : CondLock ℓ) (m : ℕ) : Prop :=
  ∀ q : Fin nproc, (q : ℕ) < m → t ≠ .proc q → ¬Asleep cfg q chan lk

/-- CPU `j` is in the call, holds `lk`, and those it has passed are awake. -/
structure Scanning (cfg : Cfg κ ℓ χ) (j : κ) (chan : Chan χ) (lk : CondLock ℓ) (t : Thread)
    (st : List (Frame ℓ χ)) (m : ℕ) : Prop where
  pc : ∃ f, cfg.pc j = ⟨t, f :: st⟩ ∧ f.scan = some (chan, m)
  lock : cfg.shared.holder (.cond lk) = some j
  passed : Passed cfg t chan lk m

section Scan

variable {cfg cfg' : Cfg κ ℓ χ} {c j : κ} {q : Fin nproc} {chan : Chan χ} {lk : CondLock ℓ}
  {t : Thread} {f : Frame ℓ χ} {st : List (Frame ℓ χ)} {m : ℕ}

/-- A process that `wakeup` has looked at is awake when its lock is about to be released. -/
theorem Inv.awake (h : Inv cfg) (hpc : cfg.pc j = ⟨t, .wakeupRelease (some chan) q :: st⟩)
    (hq : ¬((cfg.shared.slot q).state = .sleeping ∧ (cfg.shared.slot q).chan = some chan)) :
    ¬Asleep cfg q chan lk := by
  rintro ⟨f, st', b, hst, hnap, hslp⟩
  have hmine : (cfg.pc j).hold = some (q, .calm) := by rw [hpc]; rfl
  have hholder := (h.hold j q).mpr ⟨_, hmine⟩
  rcases hst with ⟨d, hd⟩ | ⟨hoff, hctx⟩
  · obtain ⟨σ, hσ⟩ := Frame.hold_of_nap hnap
    have hd' := (h.hold d q).mpr ⟨σ, by rw [hd]; exact hσ⟩
    rw [hholder] at hd'
    cases hd'
    rw [hpc] at hd
    cases hd
    cases hnap
  · have htop : (cfg.shared.context q).head? = some f := by rw [hctx]; rfl
    have hres := (h.context q).top f htop
    have hb : f = .sleepTidy q chan lk ∧ b = true := by
      cases f <;> cases hnap <;> cases hres
      exact ⟨rfl, rfl⟩
    have hst := hslp hb.2
    obtain ⟨-, hr⟩ := Settled.off (h.taken j q _ hmine) (by simp [hst])
    rw [Rests, hst] at hr
    obtain ⟨chan', lk', htop', hchan⟩ := hr
    rw [htop, hb.1] at htop'
    cases htop'
    exact hq ⟨hst, hchan⟩

variable [DecidableEq κ] [DecidableEq ℓ] [DecidableEq χ]

/-- Those that have been passed stay awake while the caller holds the lock. -/
theorem Scanning.passed_step (hs : Scanning cfg j chan lk t st m) (h : Inv cfg)
    (hstep : cpus.Step c cfg cfg') : Passed cfg' t chan lk m := by
  intro q hq ht ha
  rcases ha.of_step h hstep with ha | ⟨⟨st', hst'⟩, hc⟩
  · exact hs.passed q hq ht ha
  · rw [hs.lock] at hc
    cases hc
    obtain ⟨f, hpc, hscan⟩ := hs.pc
    rw [hpc] at hst'
    cases (List.cons.inj hst').1
    cases hscan

theorem Scanning.step_other (hs : Scanning cfg j chan lk t st m) (h : Inv cfg) (hc : c ≠ j)
    (hstep : cpus.Step c cfg cfg') : Scanning cfg' j chan lk t st m := by
  refine ⟨?_, ?_, hs.passed_step h hstep⟩
  · cases hstep with
    | mk hact hrun =>
      rw [Config.move_pc_of_ne _ _ _ hc.symm]
      exact hs.pc
  · rcases (h.effect hstep).holder (.cond lk) with hsame | ⟨hnone, -⟩ | ⟨hmine, -⟩
    · exact hsame.trans hs.lock
    · rw [hs.lock] at hnone
      cases hnone
    · rw [hs.lock] at hmine
      exact absurd (Option.some.inj hmine).symm hc

/-- What a step of the caller must bring along. -/
def ScanStep (cfg : Cfg κ ℓ χ) (j : κ) (chan : Chan χ) (lk : CondLock ℓ) (t : Thread)
    (st : List (Frame ℓ χ)) (m : ℕ) (π : Pc ℓ χ) (s : Machine κ ℓ χ) : Prop :=
  s.holder (.cond lk) = cfg.shared.holder (.cond lk) ∧
    ((∃ f m', π = ⟨t, f :: st⟩ ∧ f.scan = some (chan, m') ∧ (m' = m ∨ m' = m + 1 ∧
      ∀ q : Fin nproc, (q : ℕ) = m → t ≠ .proc q → Inv (cfg.move j π s) →
        ¬Asleep (cfg.move j π s) q chan lk)) ∨
      π = ⟨t, st⟩ ∧ nproc ≤ m)

theorem Scanning.next (hs : Scanning cfg j chan lk t st m) (h : Inv cfg)
    (hpc : cfg.pc j = ⟨t, f :: st⟩) (hscan : f.scan = some (chan, m)) (ok : Bool) :
    wp (f.step j t st ok) (ScanStep cfg j chan lk t st m) (fun _ => True) cfg.shared := by
  rw [Frame.step, wp_bind, wp_get]
  have hcur : ∀ q, cfg.shared.cur j = some q → f.bound = none → t = .proc q := by
    intro q hq hb
    rw [h.cur j, hpc] at hq
    unfold Pc.cur at hq
    cases t with
    | sched =>
      rw [show topBound (f :: st) = none from hb] at hq
      cases hq
    | proc p => rw [Option.some.inj hq]
  cases f with
  | wakeup chan' i =>
    cases chan' with
    | none => cases hscan
    | some chan' =>
      cases hscan
      simp only [Frame.next, forProc]
      split
      · rename_i hi
        split
        · rename_i hq
          refine ⟨rfl, .inl ⟨_, _, rfl, rfl, .inr ⟨rfl, fun q hqi ht => ?_⟩⟩⟩
          have hqi : q = ⟨m, hi⟩ := Fin.ext hqi
          exact absurd (hcur q (hqi ▸ hq) rfl) ht
        · simp only [Instr.exec, wp_bind, wp_get]
          split
          · split
            · trivial
            · exact ⟨rfl, .inl ⟨_, _, rfl, rfl, .inl rfl⟩⟩
          · exact ⟨by simp [Machine.take], .inl ⟨_, _, rfl, rfl, .inl rfl⟩⟩
      · exact ⟨rfl, .inr ⟨rfl, by omega⟩⟩
  | wakeupTest chan' i =>
    cases chan' with
    | none => cases hscan
    | some chan' =>
      cases hscan
      simp only [Frame.next]
      split
      · refine ⟨rfl, .inl ⟨_, _, rfl, rfl, .inr ⟨rfl, fun q hqi ht hinv => ?_⟩⟩⟩
        have hqi : q = i := Fin.ext hqi
        subst hqi
        refine hinv.awake (Config.move_pc_self _ _ _ _) ?_
        simp [Machine.setSlot]
      · rename_i hnot
        refine ⟨rfl, .inl ⟨_, _, rfl, rfl, .inr ⟨rfl, fun q hqi ht hinv => ?_⟩⟩⟩
        have hqi : q = i := Fin.ext hqi
        subst hqi
        exact hinv.awake (Config.move_pc_self _ _ _ _) hnot
  | wakeupRelease chan' i =>
    cases chan' with
    | none => cases hscan
    | some chan' =>
      cases hscan
      simp only [Frame.next, Instr.exec, wp_bind, wp_get]
      split
      · exact ⟨by simp [Machine.give], .inl ⟨_, _, rfl, rfl, .inl rfl⟩⟩
      · trivial
  | _ => cases hscan

/-- **A step of the caller**: the scan goes on, or is over. -/
theorem Scanning.step_self (hs : Scanning cfg j chan lk t st m) (h : Inv cfg)
    (hstep : cpus.Step j cfg cfg') : (∃ m', Scanning cfg' j chan lk t st m') ∨
      cfg'.pc j = ⟨t, st⟩ ∧ Passed cfg' t chan lk nproc := by
  have hpassed := hs.passed_step h hstep
  have hinv := h.step hstep
  obtain ⟨f, hpc, hscan⟩ := hs.pc
  cases hstep with
  | @mk x π s hact hrun =>
    suffices hw : wp x (ScanStep cfg j chan lk t st m) (fun _ => True) cfg.shared by
      obtain ⟨hlock, ⟨g, m', rfl, hg, hm⟩ | ⟨rfl, hm⟩⟩ := (wp_of_ok hrun).mp hw
      · refine .inl ⟨m', ⟨g, Config.move_pc_self _ _ _ _, hg⟩, hlock.trans hs.lock, ?_⟩
        rcases hm with rfl | ⟨rfl, hnew⟩
        · exact hpassed
        · intro q hq ht
          rcases Nat.lt_succ_iff_lt_or_eq.mp hq with hq | hq
          · exact hpassed q hq ht
          · exact hnew q hq ht hinv
      · exact .inr ⟨Config.move_pc_self _ _ _ _, fun q hq => hpassed q (by omega)⟩
    rw [hpc] at hact
    generalize hπ : (⟨t, f :: st⟩ : Pc ℓ χ) = π₀ at hact
    cases hact with
    | frame t' f' st' ok =>
      cases hπ
      exact hs.next h hpc hscan ok
    | interrupt hf =>
      subst hπ
      simp only [interrupt, wp_bind, wp_get]
      split
      · rename_i hheld
        have hmem := h.held (.cond lk) j hs.lock
        rw [List.eq_nil_of_length_eq_zero hheld] at hmem
        cases hmem
      · exact ⟨rfl, .inl ⟨f, m, rfl, hscan, .inl rfl⟩⟩
    | _ => cases hπ

/-- **The whole call.** When it has returned, no other process is asleep. -/
theorem Scanning.runs (hs : Scanning cfg j chan lk t st m) (h : Inv cfg)
    (hruns : cpus.Runs (fun _ cfg => InWakeup cfg j chan t st) cfg cfg')
    (hret : cfg'.pc j = ⟨t, st⟩) : Passed cfg' t chan lk nproc := by
  have hI : Inv cfg' ∧ ((∃ m, Scanning cfg' j chan lk t st m) ∨
      cfg'.pc j = ⟨t, st⟩ ∧ Passed cfg' t chan lk nproc) := by
    refine hruns.invariant (I := fun cfg => Inv cfg ∧ ((∃ m, Scanning cfg j chan lk t st m) ∨
      cfg.pc j = ⟨t, st⟩ ∧ Passed cfg t chan lk nproc)) ⟨h, .inl ⟨m, hs⟩⟩ ?_
    rintro c cfg₁ cfg₂ ⟨hinv, ⟨m', hs'⟩ | ⟨hdone, -⟩⟩ ⟨f, i, hpc, -⟩ hstep
    · refine ⟨hinv.step hstep, ?_⟩
      by_cases hc : c = j
      · subst hc
        exact hs'.step_self hinv hstep
      · exact .inl ⟨m', hs'.step_other hinv hc hstep⟩
    · rw [hpc] at hdone
      simp at hdone
  obtain ⟨-, ⟨m', hs'⟩ | ⟨-, hpassed⟩⟩ := hI
  · obtain ⟨f, hpc, -⟩ := hs'.pc
    rw [hpc] at hret
    simp at hret
  · exact hpassed

end Scan

/-! ### The sleeper -/

/-- A process that is in no state where its entry may be freed. -/
def Slot.Live (e : Slot χ) : Prop :=
  e.state = .running ∨ e.state = .runnable ∨ e.state = .sleeping

/-- The frames that can be on top of a loop around `sleep(chan, lk)`: those of this call, and those
of interrupt handlers. -/
def Frame.Drowsy (chan : Chan χ) (lk : CondLock ℓ) : Frame ℓ χ → Prop
  | .sleep chan' lk' | .sleepRelease _ chan' lk' | .sleepChan _ chan' lk' => chan' = chan ∧ lk' = lk
  | .sleepState _ chan' lk' | .sleepSched _ chan' lk' => chan' = chan ∧ lk' = lk
  | .sleepTidy _ chan' lk' | .sleepUnlock _ chan' lk' => chan' = chan ∧ lk' = lk
  | .sleepLock _ chan' lk' => chan' = chan ∧ lk' = lk
  | .yield | .yieldSet _ | .yieldSched _ | .yieldRelease _ => True
  | .notify _ _ | .notifySet _ _ | .notifyRelease _ _ => True
  | .wakeup _ _ | .wakeupTest _ _ | .wakeupRelease _ _ => True
  | .boost _ | .boostTest _ | .boostRelease _ => True
  | _ => False

/-- The frame of a loop around `sleep` in process `q`, where the condition is tested. -/
inductive Frame.Tests (q : Fin nproc) : Frame ℓ χ → Prop where
  | await (chan : Chan χ) (lk : CondLock ℓ) : Tests q (.await chan lk)
  | wait : Tests q (.waitLoop q)

/-- A process in the loop that has not tested its condition since the `n`-th time. -/
structure Waiting (cfg : Cfg κ ℓ χ) (q : Fin nproc) (chan : Chan χ) (lk : CondLock ℓ) (n : ℕ) :
    Prop where
  tests : cfg.shared.tests q = n
  live : (cfg.shared.slot q).Live
  stack : ∃ fs g st, HasStack cfg q (fs ++ g :: st) ∧ g.Tests q ∧ ∀ f ∈ fs, f.Drowsy chan lk

section Sleeper

variable {cfg cfg' : Cfg κ ℓ χ} {c : κ} {q : Fin nproc} {chan : Chan χ} {lk : CondLock ℓ}
  {f g : Frame ℓ χ} {s : Machine κ ℓ χ} {n : ℕ}

theorem Frame.IsHandler.drowsy {t : Thread} (hf : f.IsHandler t) : f.Drowsy chan lk := by
  cases hf <;> trivial

theorem Transition.live {e e' : Slot χ} (h : Transition q f e.state e'.state)
    (hf : f ≠ .exitZombie q) (hl : e.Live) : e'.Live := by
  generalize hs : e.state = st at h
  generalize hs' : e'.state = st' at h
  unfold Slot.Live at hl ⊢
  rw [hs] at hl
  rw [hs']
  cases h <;> simp_all

variable [DecidableEq χ]

theorem Frame.Tests.next (hf : f.Tests q) (hcur : s.cur c = some q) (ok : Bool) :
    ∃ fs, f.next s c ok = .test q fs := by
  cases hf with
  | await chan lk => exact ⟨_, by simp only [Frame.next, withProc, hcur]; rfl⟩
  | wait => exact ⟨_, rfl⟩

/-- Such a call does nothing else until it returns. -/
theorem Frame.Drowsy.next (hf : f.Drowsy chan lk) {ok : Bool}
    (hg : g ∈ (f.next s c ok).frames) : g.Drowsy chan lk := by
  cases f
  case sleep =>
    simp only [Frame.next, withProc] at hg
    split at hg
    · cases hg
    · cases List.mem_singleton.mp hg
      exact hf
  case sleepRelease | sleepChan | sleepState | sleepSched | sleepTidy | sleepUnlock =>
    cases List.mem_singleton.mp hg
    exact hf
  case sleepLock | yieldRelease | notifyRelease => cases hg
  case yieldSet | yieldSched | notify | wakeupRelease | boostTest | boostRelease =>
    cases List.mem_singleton.mp hg
    trivial
  case yield | wakeup | wakeupTest | notifySet | boost =>
    simp only [Frame.next, withProc, forProc] at hg
    (repeat' split at hg) <;>
      simp only [Instr.frames, List.mem_cons, List.not_mem_nil, or_false] at hg
    all_goals rcases hg with rfl | rfl <;> trivial
  all_goals exact hf.elim

variable [DecidableEq κ] [DecidableEq ℓ]

/-- **A process that has not tested its condition again is still in the same call.** -/
theorem Waiting.step (hw : Waiting cfg q chan lk n) (h : Inv cfg) (hstep : cpus.Step c cfg cfg') :
    n < cfg'.shared.tests q ∨ Waiting cfg' q chan lk n := by
  have heff := h.effect hstep
  obtain ⟨fs, g₀, st, hst, hg₀, hfs⟩ := hw.stack
  rcases (heff.tests q).lt_or_eq with hlt | heq
  · exact .inl (hw.tests ▸ hlt)
  refine .inr ⟨heq.symm.trans hw.tests, ?_, ?_⟩
  · rcases heff.state q with hsame | ⟨f, st', hst', htr⟩
    · rw [Slot.Live, hsame]
      exact hw.live
    · refine htr.live ?_ hw.live
      rintro rfl
      have hm := h.taken c q .own (by rw [Pc.hold, hst']; rfl)
      have hself : HasStack cfg q (.exitZombie q :: st') := .inl ⟨c, by rw [← hst', ← hm.2]; rfl⟩
      have heq := h.hasStack_unique hst hself
      cases fs with
      | nil =>
        cases (List.cons.inj heq).1
        cases hg₀
      | cons g fs =>
        have := hfs g (by simp)
        cases (List.cons.inj heq).1
        exact this
  · obtain ⟨st', hst'⟩ := exists_hasStack cfg' q
    cases heff.stack q st' hst' with
    | same hsame =>
      have := h.hasStack_unique hsame hst
      exact ⟨fs, g₀, st, this ▸ hst', hg₀, hfs⟩
    | @frame f st₁ ok hpc hunlock htest =>
      have heq' := h.hasStack_unique (.inl ⟨c, hpc⟩) hst
      cases fs with
      | nil =>
        cases heq'
        have hcur : cfg.shared.cur c = some q := by rw [h.cur c, hpc]; rfl
        obtain ⟨fs', hfs'⟩ := hg₀.next hcur ok
        exact absurd heq (htest q fs' hfs').ne
      | cons f' fs =>
        cases heq'
        refine ⟨_ ++ fs, g₀, st, by rw [List.append_assoc]; exact hst', hg₀, fun g hg => ?_⟩
        rcases List.mem_append.mp hg with hg | hg
        · exact (hfs _ (by simp)).next hg
        · exact hfs g (List.mem_cons_of_mem _ hg)
    | call hpc hf =>
      have := h.hasStack_unique (.inl ⟨c, hpc⟩) hst
      simp at this
    | @handler f ht hheld hf =>
      have heq' := h.hasStack_unique (.inl ⟨c, by rw [← ht]; rfl⟩) hst
      refine ⟨f :: fs, g₀, st, by rw [List.cons_append, ← heq']; exact hst', hg₀, fun g hg => ?_⟩
      rcases List.mem_cons.mp hg with rfl | hg
      · exact hf.drowsy
      · exact hfs g hg
    | start hused =>
      have := hw.live
      simp [Slot.Live, hused] at this

theorem Waiting.runs (hw : Waiting cfg q chan lk n) (h : Inv cfg)
    {P : κ → Cfg κ ℓ χ → Prop} (hruns : cpus.Runs P cfg cfg') :
    n < cfg'.shared.tests q ∨ Waiting cfg' q chan lk n := by
  have hI : Inv cfg' ∧ (n < cfg'.shared.tests q ∨ Waiting cfg' q chan lk n) := by
    refine hruns.invariant (I := fun cfg => Inv cfg ∧ (n < cfg.shared.tests q ∨
      Waiting cfg q chan lk n)) ⟨h, .inr hw⟩ ?_
    rintro c cfg₁ cfg₂ ⟨hinv, hlt | hw⟩ - hstep
    · exact ⟨hinv.step hstep, .inl (hlt.trans_le ((hinv.effect hstep).tests q))⟩
    · exact ⟨hinv.step hstep, hw.step hinv hstep⟩
  exact hI.2

omit [DecidableEq χ] [DecidableEq κ] [DecidableEq ℓ] in
/-- A sleeping process is in `sleep`, on the channel that its entry has. -/
theorem Inv.asleep (h : Inv cfg) (hst : (cfg.shared.slot q).state = .sleeping) :
    ∃ chan' lk' f st b, (cfg.shared.slot q).chan = some chan' ∧ HasStack cfg q (f :: st) ∧
      f.nap = some (q, chan', lk', b) := by
  have hoff : Settled (threads cfg) q (cfg.shared.context q).head? (cfg.shared.slot q) →
      ∃ chan' lk' f st b, (cfg.shared.slot q).chan = some chan' ∧ HasStack cfg q (f :: st) ∧
        f.nap = some (q, chan', lk', b) := by
    intro hs
    obtain ⟨hoff, hr⟩ := hs.off (by simp [hst])
    rw [Rests, hst] at hr
    obtain ⟨chan', lk', htop, hchan⟩ := hr
    obtain ⟨st, hst⟩ := List.head?_eq_some_iff.mp htop
    exact ⟨chan', lk', _, st, true, hchan, .inr ⟨hoff, hst⟩, rfl⟩
  cases hh : cfg.shared.holder (.proc q) with
  | none => exact hoff (h.free q hh)
  | some d =>
    obtain ⟨σ, hσ⟩ := (h.hold d q).mp hh
    have hm := h.taken d q σ hσ
    cases σ with
    | calm => exact hoff hm
    | known st => exact hoff hm.1
    | own | dozing chan' | picked | making => simp [hm.1] at hst
    | leaving f' =>
      have hr := hm.2
      rw [Rests, hst] at hr
      obtain ⟨chan', lk', htop, hchan⟩ := hr
      cases htop
      obtain ⟨f, st, hf, hnap⟩ : ∃ f st, (cfg.pc d).stack = f :: st ∧
          f.nap = some (q, chan', lk', false) := by
        unfold Pc.hold at hσ
        cases hst : (cfg.pc d).stack with
        | nil => simp [hst, topHold] at hσ
        | cons f st =>
          refine ⟨f, st, rfl, ?_⟩
          rw [hst] at hσ
          cases f <;> cases hσ
          rfl
      exact ⟨chan', lk', f, st, false, hchan, .inl ⟨d, by rw [← hf, ← hm.1]; rfl⟩, hnap⟩

omit [DecidableEq χ] [DecidableEq κ] [DecidableEq ℓ] in
/-- A process that is still in the call and sleeps on the channel is asleep in this call. -/
theorem Waiting.asleep (hw : Waiting cfg q chan lk n) (h : Inv cfg)
    (hst : (cfg.shared.slot q).state = .sleeping) : Asleep cfg q chan lk := by
  obtain ⟨chan', lk', f, st, b, -, hf, hnap⟩ := h.asleep hst
  obtain ⟨fs, g₀, st', hst', hg₀, hfs⟩ := hw.stack
  have heq := h.hasStack_unique hf hst'
  have hdrowsy : f.Drowsy chan lk := by
    cases fs with
    | nil =>
      cases heq
      cases hg₀ <;> cases hnap
    | cons g fs =>
      cases heq
      exact hfs f (by simp)
  refine ⟨f, st, b, hf, ?_, fun _ => hst⟩
  cases f <;> cases hnap <;> rw [← hdrowsy.1, ← hdrowsy.2] <;> rfl

omit [DecidableEq χ] [DecidableEq κ] [DecidableEq ℓ] in
/-- A process that is on a CPU and has not taken its own lock runs. -/
theorem Inv.running_of_on (h : Inv cfg) (hc : threads cfg c = .proc q)
    (hnone : (cfg.pc c).hold = none) : (cfg.shared.slot q).state = .running := by
  have hnot : ∀ d σ, (cfg.pc d).hold = some (q, σ) → threads cfg d ≠ .proc q := by
    intro d σ hσ hd
    rw [h.alone d c q hd hc, hnone] at hσ
    cases hσ
  cases hh : cfg.shared.holder (.proc q) with
  | none => exact (h.free q hh).running hc
  | some d =>
    obtain ⟨σ, hσ⟩ := (h.hold d q).mp hh
    have hm := h.taken d q σ hσ
    cases σ with
    | calm => exact Settled.running hm hc
    | known st => exact hm.1.running hc
    | own => exact hm.1
    | dozing chan' => exact hm.1
    | leaving f' => exact absurd hm.1 (hnot d _ hσ)
    | picked => exact hm.1
    | making => exact absurd hc (hm.2 c)

/-- **No wakeup is lost.** A process has tested its condition, found it false and calls
`sleep(chan, lk)`. After that, `wakeup(chan)` is called from another thread on a CPU that holds
`lk`. When this call has returned, the process does not sleep on `chan`, unless it has tested its
condition again. -/
theorem no_lost_wakeup {cfg₀ cfg₁ cfg₂ : Cfg κ ℓ χ} (h₀ : Reached cfg₀) {st : List (Frame ℓ χ)}
    (hg : g.Tests q) (hsleep : cfg₀.pc c = ⟨.proc q, .sleep chan lk :: g :: st⟩)
    (hruns : cpus.Runs (fun _ _ => True) cfg₀ cfg₁) {j : κ} {t : Thread} {st' : List (Frame ℓ χ)}
    (ht : t ≠ .proc q) (hcall : cfg₁.pc j = ⟨t, .wakeup (some chan) 0 :: st'⟩)
    (hlk : cfg₁.shared.holder (.cond lk) = some j)
    (hscan : cpus.Runs (fun _ cfg => InWakeup cfg j chan t st') cfg₁ cfg₂)
    (hret : cfg₂.pc j = ⟨t, st'⟩) :
    (cfg₂.shared.slot q).state = .sleeping ∧ (cfg₂.shared.slot q).chan = some chan →
      cfg₀.shared.tests q < cfg₂.shared.tests q := by
  rintro ⟨hst, -⟩
  have hinv₀ := h₀.inv
  have hinv₁ := hruns.invariant hinv₀ fun c _ _ hinv _ hstep => hinv.step hstep
  have hinv₂ := hscan.invariant hinv₁ fun c _ _ hinv _ hstep => hinv.step hstep
  have hw₀ : Waiting cfg₀ q chan lk (cfg₀.shared.tests q) := by
    have hrun := hinv₀.running_of_on (by rw [threads, hsleep]) (by rw [hsleep]; rfl)
    exact ⟨rfl, .inl hrun, [.sleep chan lk], g, st, .inl ⟨c, hsleep⟩, hg, by simp [Frame.Drowsy]⟩
  have hpassed : Passed cfg₂ t chan lk nproc :=
    Scanning.runs (m := 0) ⟨⟨_, hcall, rfl⟩, hlk, fun q hq => absurd hq (Nat.not_lt_zero _)⟩
      hinv₁ hscan hret
  have hall : cpus.Runs (fun _ _ => True) cfg₀ cfg₂ :=
    hruns.trans (hscan.mono fun _ _ _ => trivial)
  rcases hw₀.runs hinv₀ hall with hlt | hw₂
  · exact hlt
  · exact absurd (hw₂.asleep hinv₂ hst) (hpassed q q.isLt ht)

end Sleeper

/-! ### A wakeup between two CPUs -/

section Undisturbed

variable [DecidableEq κ] [DecidableEq ℓ] [DecidableEq χ] {j : κ} {chan : Chan χ} {t : Thread}
  {st : List (Frame ℓ χ)}

theorem step_inWakeup {cfg : Cfg κ ℓ χ} {f : Frame ℓ χ} {i : ℕ}
    {Q : Pc ℓ χ → Machine κ ℓ χ → Prop} (hpc : cfg.pc j = ⟨t, f :: st⟩)
    (hf : f.scan = some (chan, i))
    (hw : wp (f.step j t st true) Q (fun _ => False) cfg.shared) :
    ∃ cfg', cpus.Runs (fun _ cfg => InWakeup cfg j chan t st) cfg cfg' ∧
      Q (cfg'.pc j) cfg'.shared := by
  obtain ⟨π, s, hrun, hQ⟩ := exists_of_wp hw
  refine ⟨cfg.move j π s, .single ⟨j, ⟨f, i, hpc, hf⟩, .mk ?_ hrun⟩, ?_⟩
  · rw [hpc]
    exact .frame t f st true
  · rwa [Config.move_pc_self]

theorem wakeup_one {cfg : Cfg κ ℓ χ} {i : Fin nproc}
    (hpc : cfg.pc j = ⟨t, .wakeup (some chan) i :: st⟩) (hcur : cfg.shared.cur j = none)
    (hfree : ∀ p, cfg.shared.holder (.proc p) = none) :
    ∃ cfg', cpus.Runs (fun _ cfg => InWakeup cfg j chan t st) cfg cfg' ∧
      cfg'.pc j = ⟨t, .wakeup (some chan) (i + 1) :: st⟩ ∧ cfg'.shared.cur j = none ∧
      (∀ p, cfg'.shared.holder (.proc p) = none) ∧ cfg'.shared.tests = cfg.shared.tests := by
  obtain ⟨cfg₁, hrun₁, hpc₁, hs₁⟩ := step_inWakeup (Q := fun π s =>
      π = ⟨t, .wakeupTest (some chan) i :: st⟩ ∧ s = cfg.shared.take j (.proc i)) hpc rfl (by
    rw [Frame.step, wp_bind, wp_get, Frame.next, forProc, dif_pos i.isLt,
      if_neg (by simp [hcur]), Instr.exec, wp_bind, wp_get]
    simp only [hfree]
    exact ⟨rfl, rfl⟩)
  obtain ⟨cfg₂, hrun₂, hpc₂, hcur₂, hholder₂, htests₂⟩ := step_inWakeup
      (Q := fun π s => π = ⟨t, .wakeupRelease (some chan) i :: st⟩ ∧
        s.cur = cfg₁.shared.cur ∧ s.holder = cfg₁.shared.holder ∧
        s.tests = cfg₁.shared.tests) hpc₁ rfl (by
    rw [Frame.step, wp_bind, wp_get, Frame.next]
    split <;> exact ⟨rfl, rfl, rfl, rfl⟩)
  have hmine : cfg₂.shared.holder (.proc i) = some j := by
    rw [hholder₂, hs₁]
    simp [Machine.take]
  obtain ⟨cfg₃, hrun₃, hpc₃, hs₃⟩ := step_inWakeup (Q := fun π s =>
      π = ⟨t, .wakeup (some chan) (i + 1) :: st⟩ ∧ s = cfg₂.shared.give j (.proc i)) hpc₂ rfl (by
    rw [Frame.step, wp_bind, wp_get, Frame.next, Instr.exec, wp_bind, wp_get,
      if_pos hmine]
    exact ⟨rfl, rfl⟩)
  refine ⟨cfg₃, (hrun₁.trans hrun₂).trans hrun₃, hpc₃, ?_, fun p => ?_, ?_⟩
  · rw [hs₃, Machine.give, hcur₂, hs₁]
    exact hcur
  · rw [hs₃]
    by_cases hp : p = i
    · subst hp
      simp [Machine.give]
    · simp [Machine.give, hp, hholder₂, hs₁, Machine.take, hfree]
  · rw [hs₃, Machine.give, htests₂, hs₁]
    rfl

/-- A call of `wakeup` that is not disturbed returns, if no process is locked. -/
theorem wakeup_returns : ∀ (n i : ℕ) {cfg : Cfg κ ℓ χ}, i + n = nproc →
    cfg.pc j = ⟨t, .wakeup (some chan) i :: st⟩ → cfg.shared.cur j = none →
    (∀ p, cfg.shared.holder (.proc p) = none) →
    ∃ cfg', cpus.Runs (fun _ cfg => InWakeup cfg j chan t st) cfg cfg' ∧ cfg'.pc j = ⟨t, st⟩ ∧
      cfg'.shared.tests = cfg.shared.tests := by
  intro n
  induction n with
  | zero =>
    intro i cfg hi hpc hcur hfree
    obtain ⟨cfg', hrun, hpc', hs⟩ := step_inWakeup (Q := fun π s =>
        π = ⟨t, st⟩ ∧ s = cfg.shared) hpc rfl (by
      rw [Frame.step, wp_bind, wp_get, Frame.next, forProc, dif_neg (by omega)]
      exact ⟨rfl, rfl⟩)
    exact ⟨cfg', hrun, hpc', by rw [hs]⟩
  | succ n ih =>
    intro i cfg hi hpc hcur hfree
    obtain ⟨cfg₁, hrun₁, hpc₁, hcur₁, hfree₁, htests₁⟩ :=
      wakeup_one (i := ⟨i, by omega⟩) hpc hcur hfree
    obtain ⟨cfg₂, hrun₂, hpc₂, htests₂⟩ := ih (i + 1) (by omega) hpc₁ hcur₁ hfree₁
    exact ⟨cfg₂, hrun₁.trans hrun₂, hpc₂, htests₂.trans htests₁⟩

end Undisturbed

/-- The first process has tested its condition on CPU 0, holding the lock. -/
def tested : Cfg (Fin 2) Unit Unit :=
  act 0 (Prog.solo (frameStep 0) 1)
    (act 0 (fun _ => pure ⟨.proc ⟨1, one_lt_nproc⟩, [.await (.other ()) (.other ())]⟩)
      (act 0 (fun π => takeLock 0 π (.other ())) dispatched))

/-- It has gone to sleep, and an interrupt handler on CPU 1 has come to `wakeup`. -/
def notified : Cfg (Fin 2) Unit Unit :=
  act 1 (Prog.solo (frameStep 1) 2)
    (act 1 (fun π => interrupt 1 π (.notify (.other ()) (.other ())))
      (act 0 (Prog.solo (frameStep 0) 7) tested))

theorem reached_tested : Reached tested := by
  obtain ⟨cfg, hstart, hruns⟩ := reached_dispatched
  refine ⟨cfg, hstart, ((hruns.trans (runs_act ?_)).trans (runs_act ?_)).trans (runs_frames 1)⟩
  · exact .lock ⟨1, by decide⟩ (.other ())
  · exact .call ⟨1, by decide⟩ (.await _ _)

theorem runs_notified : cpus.Runs (fun _ _ => True) tested notified := by
  refine ((runs_frames 7).trans (runs_act ?_)).trans (runs_frames 2)
  exact .interrupt (.notify _ _ _)

/-- The sleeper is awake when the handler's call of `wakeup` returns. -/
theorem no_lost_wakeup_two : ∃ cfg : Cfg (Fin 2) Unit Unit,
    cpus.Runs (fun _ _ => True) tested cfg ∧
    (notified.shared.slot ⟨1, by decide⟩).state = .sleeping ∧
    ¬((cfg.shared.slot ⟨1, by decide⟩).state = .sleeping ∧
      (cfg.shared.slot ⟨1, by decide⟩).chan = some (.other ())) := by
  have hpc : notified.pc 1 = ⟨.sched, [.wakeup (some (.other ())) 0,
    .notifyRelease (.other ()) (.other ()), .schedTop]⟩ := rfl
  obtain ⟨cfg, hscan, hret, htests⟩ := wakeup_returns nproc 0 (by decide) hpc rfl (by decide)
  refine ⟨cfg, runs_notified.trans (hscan.mono fun _ _ _ => trivial), rfl, fun hst => ?_⟩
  have hsleep : tested.pc 0 = ⟨.proc ⟨1, by decide⟩,
    [.sleep (.other ()) (.other ()), .await (.other ()) (.other ())]⟩ := rfl
  have hlk : notified.shared.holder (.cond (.other ())) = some 1 := rfl
  have hlt := no_lost_wakeup reached_tested (.await _ _) hsleep runs_notified (by decide) rfl hlk
    hscan hret hst
  rw [htests] at hlt
  exact absurd hlt (by decide)

end Smp

end Xv6
