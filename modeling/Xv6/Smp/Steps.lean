import Xv6.Smp.Inv

/-!
# What a step does

Every step keeps the invariant, whichever CPU takes it. What a step can do to a process is said here
once and for all: which state it may go to, what becomes of its stack, of the locks, and of
`c->proc`. Nothing later looks at the statements again, except for the few it is about.
-/

namespace Xv6

open Threads Prog Function

namespace Smp

variable {κ ℓ χ : Type}

/-! ### The start -/

theorem Starts.inv {cfg : Cfg κ ℓ χ} (h : Starts cfg) : Inv cfg := by
  have hth : ∀ c, threads cfg c = .sched := fun c => by rw [threads, h.pc]
  have hoff : ∀ p, Off (threads cfg) p := fun p c => by simp [hth]
  have hhold : ∀ c, (cfg.pc c).hold = none := fun c => by
    rw [h.pc]
    rfl
  obtain ⟨p₀, -, hst₀, hctx₀, hrest⟩ := h.init
  have hctx : ∀ p, ContextOk p (cfg.shared.context p) ∧ makings (cfg.shared.context p) = [] := by
    intro p
    by_cases hp : p = p₀
    · subst hp
      rw [hctx₀]
      exact ⟨contextOk_forkret p, rfl⟩
    · rw [(hrest p hp).2]
      exact ⟨⟨⟨by simp, by simp⟩, by simp⟩, rfl⟩
  have hmk : ∀ p st, HasStack cfg p st → makings st = [] := by
    rintro p st (⟨c, hc⟩ | ⟨-, hst⟩)
    · rw [h.pc] at hc
      simp at hc
    · exact hst ▸ (hctx p).2
  refine ⟨fun l c hl => by simp [h.holder] at hl, fun c p => by simp [h.holder, hhold],
    fun c => ?_, fun c d p hc => by simp [hth] at hc, fun c p hc => by simp [hth] at hc,
    fun c => ?_, fun p => (hctx p).1, fun p _ => .inr ⟨hoff p, ?_⟩,
    fun c p σ hσ => by simp [hhold] at hσ, fun p st hst np hnp => ?_, fun p st hst => ?_,
    fun p p' st st' hst _ np hnp => ?_⟩
  · rw [h.cur, h.pc]
    rfl
  · rw [hth, h.pc]
    refine ⟨?_, by simp⟩
    simp [Frame.Fits, Frame.me]
  · by_cases hp : p = p₀
    · subst hp
      rw [Rests, hst₀, hctx₀]
      exact ⟨_, rfl, rfl⟩
    · rw [Rests, (hrest p hp).1]
      trivial
  · simp [hmk p st hst] at hnp
  · simp [hmk p st hst]
  · simp [hmk p st hst] at hnp

/-! ### Every step -/

section Steps

variable {cfg : Cfg κ ℓ χ} {c : κ} {t : Thread} {f : Frame ℓ χ} {st : List (Frame ℓ χ)}

theorem Frame.IsCall.fresh (hf : f.IsCall) :
    f.me = none ∧ f.scheduling = false ∧ f.hold = none ∧ f.making = none := by
  cases hf <;> exact ⟨rfl, rfl, rfl, rfl⟩

theorem Frame.IsHandler.fresh (hf : f.IsHandler t) :
    f.me = none ∧ f.scheduling = false ∧ f.hold = none ∧ f.making = none := by
  cases hf <;> exact ⟨rfl, rfl, rfl, rfl⟩

variable [DecidableEq κ]

theorem Inv.push_one (h : Inv cfg) (hnone : (cfg.pc c).hold = none)
    (hf : f.me = none ∧ f.scheduling = false ∧ f.hold = none ∧ f.making = none) :
    Inv (cfg.move c ⟨(cfg.pc c).thread, f :: (cfg.pc c).stack⟩ cfg.shared) := by
  change Inv (cfg.move c ⟨(cfg.pc c).thread, [f] ++ (cfg.pc c).stack⟩ cfg.shared)
  refine h.push hnone ?_ ?_ ?_ ⟨fun _ => ⟨rfl, rfl⟩, rfl, rfl, rfl, fun _ => rfl, id⟩
  · simpa using Frame.fits_any hf.1 hf.2.1
  · simpa using hf.2.2.1
  · simp [makings, hf.2.2.2]

theorem Inv.idle (h : Inv cfg) {p : Fin nproc} (hpc : cfg.pc c = ⟨.proc p, []⟩)
    {s : Machine κ ℓ χ} (hs : cfg.shared.Alike s) : Inv (cfg.move c ⟨.proc p, []⟩ s) := by
  have hnone : (cfg.pc c).hold = none := by rw [hpc]; rfl
  have hinv : Inv (cfg.move c ⟨(cfg.pc c).thread, [] ++ (cfg.pc c).stack⟩ s) :=
    h.push hnone (by simp) (by simp) rfl hs
  rwa [hpc] at hinv

variable [DecidableEq ℓ] [DecidableEq χ]

/-- **Good statements keep the invariant.** -/
theorem Inv.exec (h : Inv cfg) (hpc : cfg.pc c = ⟨t, f :: st⟩) {i : Instr ℓ χ}
    (hg : i.Good (threads cfg) cfg.shared c f) :
    wp (i.exec c t f st) (fun π s => Inv (cfg.move c π s)) (fun _ => True) cfg.shared := by
  have hstay : Inv (cfg.move c ⟨t, f :: st⟩ cfg.shared) := by
    rw [← hpc]
    simpa [Config.move] using h
  cases i with
  | goto fs | test p fs | remember level idx fs | signal lk chan b fs =>
    exact h.quiet hpc hg ⟨fun _ => ⟨rfl, rfl⟩, rfl, rfl, rfl, fun _ => rfl, id⟩
  | lock l fs =>
    simp only [Instr.exec, wp_bind, wp_get]
    split
    · split
      · trivial
      · exact hstay
    · rename_i hfree
      simp only [wp_bind, wp_modify, wp_pure]
      cases l with
      | proc p => exact h.lock hpc hg hfree
      | cond lk =>
        exact h.quiet hpc hg ⟨fun _ => ⟨rfl, rfl⟩, rfl, rfl, rfl,
          fun p => by simp [Machine.take], fun hheld => Machine.Held.take hheld c _⟩
  | unlock l fs =>
    simp only [Instr.exec, wp_bind, wp_get]
    split
    · simp only [wp_bind, wp_modify, wp_pure]
      cases l with
      | proc p => exact h.unlock hpc hg
      | cond lk =>
        exact h.quiet hpc hg ⟨fun _ => ⟨rfl, rfl⟩, rfl, rfl, rfl,
          fun p => by simp [Machine.give], fun hheld => Machine.Held.give hheld c _⟩
    · trivial
  | set p g fs => exact h.set hpc hg
  | alloc p fs =>
    refine h.alloc hpc hg ?_ _
    rfl
  | start p fs => exact h.start hpc hg
  | sched f' =>
    simp only [Instr.exec, wp_bind, wp_get]
    split
    · trivial
    · rename_i p hp
      split_ifs
      · trivial
      · trivial
      · trivial
      · exact h.sched_step hpc hg hp
  | setCur p fs => exact h.setCur hpc hg
  | resume p fs => exact h.resume_step hpc hg
  | panic msg => trivial

omit [DecidableEq κ] [DecidableEq ℓ] in
theorem Inv.next_good (h : Inv cfg) (hpc : cfg.pc c = ⟨t, f :: st⟩) (ok : Bool) :
    (f.next cfg.shared c ok).Good (threads cfg) cfg.shared c f := by
  have ht : threads cfg c = t := by rw [threads, hpc]
  have hok := h.stackOk hpc
  rw [← ht] at hok
  have hcur : cfg.shared.cur c = Pc.cur ⟨threads cfg c, f :: st⟩ := by rw [h.cur c, hpc, ht]
  exact Frame.next_good ok (hok.fits f (by simp)) hcur

theorem Inv.step (h : Inv cfg) {cfg' : Cfg κ ℓ χ} (hstep : cpus.Step c cfg cfg') : Inv cfg' := by
  cases hstep with
  | @mk x π s hact hrun =>
    suffices hw : wp x (fun π s => Inv (cfg.move c π s)) (fun _ => True) cfg.shared from
      (wp_of_ok hrun).mp hw
    generalize hpc : cfg.pc c = π₀ at hact
    cases hact with
    | frame t f st ok =>
      rw [Frame.step, wp_bind, wp_get]
      exact h.exec hpc (h.next_good hpc ok)
    | call p hf =>
      have := h.push_one (c := c) (by rw [hpc]; rfl) hf.fresh
      rwa [hpc] at this
    | lock p lk =>
      simp only [takeLock, wp_bind, wp_get]
      split
      · split
        · trivial
        · exact h.idle hpc ⟨fun _ => ⟨rfl, rfl⟩, rfl, rfl, rfl, fun _ => rfl, id⟩
      · exact h.idle hpc ⟨fun _ => ⟨rfl, rfl⟩, rfl, rfl, rfl, fun q => by simp [Machine.take],
          fun hheld => Machine.Held.take hheld c _⟩
    | unlock p lk =>
      simp only [dropLock, wp_bind, wp_get]
      split
      · exact h.idle hpc ⟨fun _ => ⟨rfl, rfl⟩, rfl, rfl, rfl, fun q => by simp [Machine.give],
          fun hheld => Machine.Held.give hheld c _⟩
      · trivial
    | touch p cond =>
      exact h.idle hpc ⟨fun _ => ⟨rfl, rfl⟩, rfl, rfl, rfl, fun _ => rfl, id⟩
    | demote p level =>
      refine h.idle hpc ⟨fun q => ?_, rfl, rfl, rfl, fun _ => rfl, id⟩
      by_cases hq : q = p
      · subst hq
        simp [Machine.setSlot, Slot.Alike]
      · simp [Machine.setSlot, Slot.Alike, hq]
    | interrupt hf =>
      simp only [interrupt, wp_bind, wp_get]
      split
      · rename_i hheld
        have := h.push_one (h.hold_none hheld) hf.fresh
        rwa [hpc] at this
      · rw [wp_pure, ← hpc]
        simpa [Config.move] using h

/-- **The invariant holds in every configuration that is reached.** -/
theorem Reached.inv (h : Reached cfg) : Inv cfg := by
  obtain ⟨cfg₀, hstart, hruns⟩ := h
  exact hruns.invariant hstart.inv fun c _ _ hinv _ hstep => hinv.step hstep

end Steps

/-! ### Effects -/

/-- The frames that a statement puts in the place of its own. -/
def Instr.frames : Instr ℓ χ → List (Frame ℓ χ)
  | .goto fs | .lock _ fs | .unlock _ fs | .set _ _ fs | .alloc _ fs | .start _ fs => fs
  | .remember _ _ fs | .setCur _ fs | .resume _ fs | .test _ fs | .signal _ _ _ fs => fs
  | .sched f => [f]
  | .panic _ => []

section Effects

variable [DecidableEq χ]

/-- What a step of CPU `c` from `cfg` can make of the stack of process `q`, if `n` tests have been
made after it. -/
inductive StackStep (cfg : Cfg κ ℓ χ) (c : κ) (n : Fin nproc → ℕ) (q : Fin nproc) :
    List (Frame ℓ χ) → Prop where
  /-- Nothing. -/
  | same {st : List (Frame ℓ χ)} (h : HasStack cfg q st) : StackStep cfg c n q st
  /-- The process takes a step itself. -/
  | frame {f : Frame ℓ χ} {st : List (Frame ℓ χ)} (ok : Bool) (hpc : cfg.pc c = ⟨.proc q, f :: st⟩)
    (hunlock : ∀ l fs, f.next cfg.shared c ok = .unlock l fs → cfg.shared.holder l = some c)
    (htest : ∀ p fs, f.next cfg.shared c ok = .test p fs → cfg.shared.tests p < n p) :
    StackStep cfg c n q ((f.next cfg.shared c ok).frames ++ st)
  | call {f : Frame ℓ χ} (hpc : cfg.pc c = ⟨.proc q, []⟩) (hf : f.IsCall) : StackStep cfg c n q [f]
  | handler {f : Frame ℓ χ} (ht : threads cfg c = .proc q) (hheld : (cfg.shared.held c).length = 0)
    (hf : f.IsHandler (.proc q)) : StackStep cfg c n q (f :: (cfg.pc c).stack)
  /-- It is made anew. -/
  | start (hst : (cfg.shared.slot q).state = .used) : StackStep cfg c n q [.forkret q]

/-- CPU `c` takes or drops locks. -/
def Relocks (c : κ) (m m' : Lock ℓ → Option κ) : Prop :=
  ∀ l, m' l = m l ∨ m l = none ∧ m' l = some c ∨ m l = some c ∧ m' l = none

/-- **What a step of CPU `c` can do.** -/
structure Effect (cfg : Cfg κ ℓ χ) (c : κ) (cfg' : Cfg κ ℓ χ) : Prop where
  state : ∀ q, (cfg'.shared.slot q).state = (cfg.shared.slot q).state ∨
    ∃ f st, (cfg.pc c).stack = f :: st ∧
      Transition q f (cfg.shared.slot q).state (cfg'.shared.slot q).state
  cur : ∀ d q, cfg'.shared.cur d = some q →
    cfg.shared.cur d = some q ∨ (cfg.shared.slot q).state = .running
  holder : Relocks c cfg.shared.holder cfg'.shared.holder
  tests : ∀ q, cfg.shared.tests q ≤ cfg'.shared.tests q
  stack : ∀ q st, HasStack cfg' q st → StackStep cfg c cfg'.shared.tests q st

end Effects

section Effect

variable {cfg cfg' : Cfg κ ℓ χ} {c : κ} {t : Thread} {f : Frame ℓ χ} {st fs : List (Frame ℓ χ)}
  {π : Pc ℓ χ} {s : Machine κ ℓ χ}

theorem Inv.hasStack_unique (h : Inv cfg) {q : Fin nproc} {st st' : List (Frame ℓ χ)}
    (hst : HasStack cfg q st) (hst' : HasStack cfg q st') : st = st' := by
  rcases hst with ⟨c, hc⟩ | ⟨hoff, hst⟩
  · rcases hst' with ⟨d, hd⟩ | ⟨hoff, -⟩
    · have hcd := h.alone c d q (by rw [threads, hc]) (by rw [threads, hd])
      subst hcd
      rw [hc] at hd
      exact (Pc.mk.inj hd).2
    · exact absurd (by rw [threads, hc]) (hoff c)
  · rcases hst' with ⟨d, hd⟩ | ⟨-, hst'⟩
    · exact absurd (by rw [threads, hd]) (hoff d)
    · exact hst.symm.trans hst'

theorem exists_hasStack (cfg : Cfg κ ℓ χ) (q : Fin nproc) : ∃ st, HasStack cfg q st := by
  by_cases h : ∃ c, threads cfg c = .proc q
  · obtain ⟨c, hc⟩ := h
    refine ⟨(cfg.pc c).stack, .inl ⟨c, ?_⟩⟩
    rw [← hc]
    rfl
  · exact ⟨_, .inr ⟨fun c hc => h ⟨c, hc⟩, rfl⟩⟩

variable [DecidableEq κ]

theorem hasStack_move (ht : π.thread = threads cfg c)
    (hctx : s.context = cfg.shared.context) {q : Fin nproc}
    (hst : HasStack (cfg.move c π s) q st) :
    HasStack cfg q st ∨ threads cfg c = .proc q ∧ st = π.stack := by
  rcases hst with ⟨d, hd⟩ | ⟨hoff, hst⟩
  · by_cases hdc : d = c
    · subst hdc
      rw [Config.move_pc_self] at hd
      refine .inr ⟨?_, ?_⟩
      · rw [← ht, hd]
      · rw [hd]
    · rw [Config.move_pc_of_ne _ _ _ hdc] at hd
      exact .inl (.inl ⟨d, hd⟩)
  · rw [threads_move ht] at hoff
    exact .inl (.inr ⟨hoff, by rw [← hctx]; exact hst⟩)

omit [DecidableEq κ] in
theorem Effect.refl [DecidableEq χ] (cfg : Cfg κ ℓ χ) (c : κ) : Effect cfg c cfg :=
  ⟨fun _ => .inl rfl, fun _ _ h => .inl h, fun _ => .inl rfl, fun _ => le_rfl, fun _ _ h => .same h⟩

variable [DecidableEq χ]

theorem effect_frame (hpc : cfg.pc c = ⟨t, f :: st⟩) (ok : Bool)
    (hfs : fs = (f.next cfg.shared c ok).frames) (hctx : s.context = cfg.shared.context)
    (hstate : ∀ q, (s.slot q).state = (cfg.shared.slot q).state ∨
      Transition q f (cfg.shared.slot q).state (s.slot q).state)
    (hcur : ∀ d q, s.cur d = some q →
      cfg.shared.cur d = some q ∨ (cfg.shared.slot q).state = .running)
    (hholder : Relocks c cfg.shared.holder s.holder)
    (htests : ∀ q, cfg.shared.tests q ≤ s.tests q)
    (hunlock : ∀ l fs, f.next cfg.shared c ok = .unlock l fs → cfg.shared.holder l = some c)
    (htest : ∀ p fs, f.next cfg.shared c ok = .test p fs → cfg.shared.tests p < s.tests p) :
    Effect cfg c (cfg.move c ⟨t, fs ++ st⟩ s) := by
  refine ⟨fun q => ?_, hcur, hholder, htests, fun q st' hst' => ?_⟩
  · refine (hstate q).imp_right fun htr => ⟨f, st, by rw [hpc], htr⟩
  · rcases hasStack_move (by rw [threads, hpc]) hctx hst' with hst' | ⟨ht, rfl⟩
    · exact .same hst'
    · rw [threads, hpc] at ht
      have ht : t = .proc q := ht
      subst ht hfs
      exact .frame ok hpc hunlock htest

theorem effect_idle {p : Fin nproc} (hpc : cfg.pc c = ⟨.proc p, []⟩)
    (hctx : s.context = cfg.shared.context)
    (hstate : ∀ q, (s.slot q).state = (cfg.shared.slot q).state) (hcur : s.cur = cfg.shared.cur)
    (hholder : Relocks c cfg.shared.holder s.holder)
    (htests : s.tests = cfg.shared.tests) : Effect cfg c (cfg.move c ⟨.proc p, []⟩ s) := by
  refine ⟨fun q => .inl (hstate q), fun d q hd => .inl (by rw [← hcur]; exact hd), hholder,
    fun q => by rw [Config.move_shared, htests], fun q st' hst' => .same ?_⟩
  rcases hasStack_move (by rw [threads, hpc]) hctx hst' with hst' | ⟨ht, rfl⟩
  · exact hst'
  · rw [threads, hpc, Thread.proc.injEq] at ht
    subst ht
    exact .inl ⟨c, hpc⟩

variable [DecidableEq ℓ]

omit [DecidableEq κ] [DecidableEq χ] in
theorem Relocks.update {m : Lock ℓ → Option κ} {l : Lock ℓ} {x : Option κ}
    (h : m l = none ∧ x = some c ∨ m l = some c ∧ x = none) : Relocks c m (update m l x) := by
  intro l'
  by_cases hl : l' = l
  · rw [hl, update_self]
    exact .inr h
  · exact .inl (update_of_ne hl ..)

omit [DecidableEq κ] [DecidableEq χ] [DecidableEq ℓ] in
theorem Inv.thread_of_sched (h : Inv cfg) {f' : Frame ℓ χ} {p : Fin nproc}
    (hg : Instr.Good (threads cfg) cfg.shared c f (.sched f')) (hcur : cfg.shared.cur c = some p) :
    threads cfg c = .proc p := by
  obtain ⟨q, hq, -⟩ := hg
  rw [h.cur c] at hcur
  unfold Pc.cur at hcur
  rw [threads] at hq ⊢
  rw [hq] at hcur ⊢
  rw [Option.some.inj hcur]

theorem Inv.exec_effect (h : Inv cfg) (hpc : cfg.pc c = ⟨t, f :: st⟩) (ok : Bool) {i : Instr ℓ χ}
    (hi : f.next cfg.shared c ok = i) (hg : i.Good (threads cfg) cfg.shared c f) :
    wp (i.exec c t f st) (fun π s => Effect cfg c (cfg.move c π s)) (fun _ => True)
      cfg.shared := by
  have hstay : Effect cfg c (cfg.move c ⟨t, f :: st⟩ cfg.shared) := by
    rw [← hpc]
    simpa [Config.move] using Effect.refl cfg c
  have hframes : i.frames = (f.next cfg.shared c ok).frames := by rw [hi]
  have hhold : ∀ q σ, f.hold = some (q, σ) →
      Meets (threads cfg) c q (cfg.shared.context q).head? (cfg.shared.slot q) σ :=
    fun q σ hσ => h.taken c q σ (by rw [hpc]; exact hσ)
  cases i with
  | goto fs | remember level idx fs | signal lk chan b fs =>
    exact effect_frame hpc ok hframes rfl (fun _ => .inl rfl) (fun _ _ h => .inl h)
      (fun _ => .inl rfl) (fun _ => le_rfl) (by simp [hi]) (by simp [hi])
  | lock l fs =>
    simp only [Instr.exec, wp_bind, wp_get]
    split
    · split
      · trivial
      · exact hstay
    · rename_i hfree
      exact effect_frame hpc ok hframes rfl (fun _ => .inl rfl) (fun _ _ h => .inl h)
        (Relocks.update (.inl ⟨hfree, rfl⟩)) (fun _ => le_rfl) (by simp [hi]) (by simp [hi])
  | unlock l fs =>
    simp only [Instr.exec, wp_bind, wp_get]
    split
    · rename_i hmine
      refine effect_frame hpc ok hframes rfl (fun _ => .inl rfl) (fun _ _ h => .inl h)
        (Relocks.update (.inr ⟨hmine, rfl⟩)) (fun _ => le_rfl) ?_ (by simp [hi])
      rintro l' fs' hl'
      rw [hi] at hl'
      cases hl'
      exact hmine
    · trivial
  | set p g fs =>
    refine effect_frame hpc ok hframes rfl (fun q => ?_) (fun _ _ h => .inl h)
      (fun _ => .inl rfl) (fun _ => le_rfl) (by simp [hi]) (by simp [hi])
    by_cases hq : q = p
    · subst hq
      rcases hg.2 with ⟨halike, -⟩ | ⟨σ, σ', hσ, -, hstep⟩
      · exact .inl (by simpa [Machine.setSlot] using halike.1)
      · exact .inr (by simpa [Machine.setSlot] using (hstep (hhold q σ hσ)).2.1)
    · exact .inl (by simp [Machine.setSlot, hq])
  | alloc p fs =>
    obtain ⟨-, hσ, -, -, q', rfl⟩ := hg
    refine effect_frame hpc ok hframes rfl (fun q => ?_) (fun _ _ h => .inl h)
      (fun _ => .inl rfl) (fun _ => le_rfl) (by simp [hi]) (by simp [hi])
    by_cases hq : q = p
    · subst hq
      have hst := (hhold q _ hσ).2
      refine .inr ?_
      simp only [Machine.setSlot, Function.update_self]
      rw [hst]
      exact .alloc q'
    · exact .inl (by simp [Machine.setSlot, hq])
  | start p fs =>
    obtain ⟨-, hσ, -⟩ := hg
    refine ⟨fun _ => .inl rfl, fun _ _ h => .inl h, fun _ => .inl rfl, fun _ => le_rfl,
      fun q st' hst' => ?_⟩
    by_cases hq : q = p
    · subst hq
      obtain ⟨hst, hoff⟩ := hhold q _ hσ
      rcases hst' with ⟨d, hd⟩ | ⟨-, hst'⟩
      · refine absurd ?_ (hoff d)
        have hth : threads (cfg.move c ⟨t, fs ++ st⟩ (cfg.shared.setContext q [.forkret q])) =
            threads cfg := threads_move (by rw [threads, hpc])
        rw [← hth, threads, hd]
      · have hst' : [Frame.forkret q] = st' := by simpa [Machine.setContext] using hst'
        exact hst' ▸ .start hst
    · refine (effect_frame (s := cfg.shared) hpc ok hframes rfl (fun _ => .inl rfl)
        (fun _ _ h => .inl h) (fun _ => .inl rfl) (fun _ => le_rfl) (by simp [hi])
        (by simp [hi])).stack q st' (hst'.imp_right fun hp => ⟨hp.1, ?_⟩)
      simpa [Machine.setContext, hq] using hp.2
  | sched f' =>
    simp only [Instr.exec, wp_bind, wp_get]
    split
    · trivial
    · rename_i p hp
      split_ifs
      · trivial
      · trivial
      · trivial
      · refine ⟨fun _ => .inl rfl, fun _ _ h => .inl h, fun _ => .inl rfl, fun _ => le_rfl,
          fun q st' hst' => ?_⟩
        have ht := h.thread_of_sched hg hp
        have htp : t = .proc p := by rw [← ht, threads, hpc]
        subst htp
        rcases hst' with ⟨d, hd⟩ | ⟨hoff, hst'⟩
        · have hdc : d ≠ c := by
            rintro rfl
            simp at hd
          rw [Config.move_pc_of_ne _ _ _ hdc] at hd
          exact .same (.inl ⟨d, hd⟩)
        · by_cases hq : q = p
          · subst hq
            have hst' : f' :: st = st' := by simpa [Machine.setContext] using hst'
            have := StackStep.frame (n := cfg.shared.tests) ok hpc (by simp [hi]) (by simp [hi])
            rw [hi] at this
            exact hst' ▸ this
          · refine .same (.inr ⟨fun d hd => ?_, by simpa [Machine.setContext, hq] using hst'⟩)
            by_cases hdc : d = c
            · subst hdc
              rw [ht] at hd
              exact hq (Thread.proc.inj hd).symm
            · refine hoff d ?_
              rwa [threads, Config.move_pc_of_ne _ _ _ hdc]
  | setCur p fs =>
    obtain ⟨-, -, -, hpick, -⟩ := hg
    refine effect_frame hpc ok hframes rfl (fun _ => .inl rfl) (fun d q hd => ?_)
      (fun _ => .inl rfl) (fun _ => le_rfl) (by simp [hi]) (by simp [hi])
    by_cases hdc : d = c
    · subst hdc
      exact .inr (hhold q _ (hpick q (by simpa [Machine.setCur] using hd))).1
    · exact .inl (by simpa [Machine.setCur, hdc] using hd)
  | resume p fs =>
    refine ⟨fun _ => .inl rfl, fun _ _ h => .inl h, fun _ => .inl rfl, fun _ => le_rfl,
      fun q st' hst' => .same ?_⟩
    obtain ⟨ht, hσ, -⟩ := hg
    obtain ⟨-, hoff, -⟩ := hhold p _ hσ
    rcases hst' with ⟨d, hd⟩ | ⟨hoff', hst'⟩
    · by_cases hdc : d = c
      · subst hdc
        rw [Config.move_pc_self, Pc.mk.injEq, Thread.proc.injEq] at hd
        obtain ⟨rfl, hst'⟩ := hd
        exact .inr ⟨hoff, hst'⟩
      · rw [Config.move_pc_of_ne _ _ _ hdc] at hd
        exact .inl ⟨d, hd⟩
    · refine .inr ⟨fun d hd => ?_, hst'⟩
      by_cases hdc : d = c
      · subst hdc
        simp [ht] at hd
      · refine hoff' d ?_
        rwa [threads, Config.move_pc_of_ne _ _ _ hdc]
  | test p fs =>
    refine effect_frame hpc ok hframes rfl (fun _ => .inl rfl) (fun _ _ h => .inl h)
      (fun _ => .inl rfl) (fun q => ?_) (by simp [hi]) ?_
    · by_cases hq : q = p
      · subst hq
        simp
      · simp [hq]
    · rintro p' fs' hp'
      rw [hi] at hp'
      cases hp'
      simp
  | panic msg => trivial

/-- **Every step does no more than this.** -/
theorem Inv.effect (h : Inv cfg) (hstep : cpus.Step c cfg cfg') : Effect cfg c cfg' := by
  cases hstep with
  | @mk x π s hact hrun =>
    suffices hw : wp x (fun π s => Effect cfg c (cfg.move c π s)) (fun _ => True)
        cfg.shared from (wp_of_ok hrun).mp hw
    generalize hpc : cfg.pc c = π₀ at hact
    cases hact with
    | frame t f st ok =>
      rw [Frame.step, wp_bind, wp_get]
      exact h.exec_effect hpc ok rfl (h.next_good hpc ok)
    | call p hf =>
      refine ⟨fun _ => .inl rfl, fun _ _ h => .inl h, fun _ => .inl rfl, fun _ => le_rfl,
        fun q st' hst' => ?_⟩
      rcases hasStack_move (by rw [threads, hpc]) rfl hst' with hst' | ⟨ht, rfl⟩
      · exact .same hst'
      · rw [threads, hpc, Thread.proc.injEq] at ht
        subst ht
        exact .call hpc hf
    | lock p lk =>
      simp only [takeLock, wp_bind, wp_get]
      split
      · split
        · trivial
        · exact effect_idle hpc rfl (fun _ => rfl) rfl (fun _ => .inl rfl) rfl
      · rename_i hfree
        exact effect_idle hpc rfl (fun _ => rfl) rfl (Relocks.update (.inl ⟨hfree, rfl⟩)) rfl
    | unlock p lk =>
      simp only [dropLock, wp_bind, wp_get]
      split
      · rename_i hmine
        exact effect_idle hpc rfl (fun _ => rfl) rfl (Relocks.update (.inr ⟨hmine, rfl⟩)) rfl
      · trivial
    | touch p cond => exact effect_idle hpc rfl (fun _ => rfl) rfl (fun _ => .inl rfl) rfl
    | demote p level =>
      refine effect_idle hpc rfl (fun q => ?_) rfl (fun _ => .inl rfl) rfl
      by_cases hq : q = p
      · subst hq
        simp [Machine.setSlot]
      · simp [Machine.setSlot, hq]
    | interrupt hf =>
      simp only [interrupt, wp_bind, wp_get]
      split
      · rename_i hheld
        refine ⟨fun _ => .inl rfl, fun _ _ h => .inl h, fun _ => .inl rfl, fun _ => le_rfl,
          fun q st' hst' => ?_⟩
        rcases hasStack_move (by rw [threads, hpc]) rfl hst' with hst' | ⟨ht, rfl⟩
        · exact .same hst'
        · have hq : π₀.thread = .proc q := by rwa [threads, hpc] at ht
          rw [hq] at hf
          rw [← hpc]
          exact .handler ht hheld hf
      · rw [wp_pure, ← hpc]
        simpa [Config.move] using Effect.refl cfg c

end Effect

end Smp

end Xv6
