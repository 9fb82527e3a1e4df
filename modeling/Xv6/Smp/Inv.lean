import Xv6.Smp.Hold

/-!
# Good statements keep the table right

The table of `Smp.Hold` is right for every CPU. With it come the facts that relate the CPUs to each
other: a thread is on one CPU at most, `c->proc` is what the code makes of it, and the scheduler of
a CPU in a process waits where it switched to that process.

A new process is in nobody's hands between the two times that `kfork` takes its lock. That it is
still `USED` the second time needs an argument of its own. Nothing but the call that is making it
takes a process out of this state.

There are three kinds of statements. Most stay with the process they hold, and only the entry of
that one changes. Some take or give up a lock. Two of them switch, and change the place of the
process they hold.
-/

namespace Xv6

open Threads Function

namespace Smp

variable {κ ℓ χ : Type}

/-! ### The invariant -/

/-- The frames of a stack are of its thread, and only the one on top holds the lock of a process. -/
structure StackOk (t : Thread) (st : List (Frame ℓ χ)) : Prop where
  fits : ∀ f ∈ st, f.Fits t
  tail : ∀ f ∈ st.tail, f.hold = none

/-- The same for a stack that is put aside. Its process can go on at the frame on top. -/
structure ContextOk (p : Fin nproc) (st : List (Frame ℓ χ)) : Prop
    extends StackOk (.proc p) st where
  top : ∀ f, st.head? = some f → f.resumes = some p

/-- What a CPU holds. -/
def Pc.hold (π : Pc ℓ χ) : Option (Fin nproc × Stance ℓ χ) := topHold π.stack

/-- The threads that the CPUs are in. -/
def threads (cfg : Cfg κ ℓ χ) (c : κ) : Thread := (cfg.pc c).thread

/-- The stack of a process, on its CPU or put aside. -/
def HasStack (cfg : Cfg κ ℓ χ) (p : Fin nproc) (st : List (Frame ℓ χ)) : Prop :=
  (∃ c, cfg.pc c = ⟨.proc p, st⟩) ∨ Off (threads cfg) p ∧ cfg.shared.context p = st

/-- **The invariant.** -/
structure Inv (cfg : Cfg κ ℓ χ) : Prop where
  held : ∀ l c, cfg.shared.holder l = some c → l ∈ cfg.shared.held c
  hold : ∀ c p, cfg.shared.holder (.proc p) = some c ↔ ∃ σ, (cfg.pc c).hold = some (p, σ)
  cur : ∀ c, cfg.shared.cur c = (cfg.pc c).cur
  alone : ∀ c d p, threads cfg c = .proc p → threads cfg d = .proc p → c = d
  sched : ∀ c p, threads cfg c = .proc p → StackOk .sched (cfg.shared.schedContext c) ∧
    ∃ level st, cfg.shared.schedContext c = .back level p :: st
  stack : ∀ c, StackOk (threads cfg c) (cfg.pc c).stack
  context : ∀ p, ContextOk p (cfg.shared.context p)
  free : ∀ p, cfg.shared.holder (.proc p) = none →
    Settled (threads cfg) p (cfg.shared.context p).head? (cfg.shared.slot p)
  taken : ∀ c p σ, (cfg.pc c).hold = some (p, σ) →
    Meets (threads cfg) c p (cfg.shared.context p).head? (cfg.shared.slot p) σ
  used : ∀ p st, HasStack cfg p st → ∀ np ∈ makings st, (cfg.shared.slot np).state = .used
  nodup : ∀ p st, HasStack cfg p st → (makings st).Nodup
  apart : ∀ p p' st st', HasStack cfg p st → HasStack cfg p' st' →
    ∀ np ∈ makings st, np ∈ makings st' → p = p'

/-! ### Stacks -/

section Stacks

variable {t : Thread} {f : Frame ℓ χ} {fs st : List (Frame ℓ χ)}

theorem contextOk_forkret (p : Fin nproc) : ContextOk p [(.forkret p : Frame ℓ χ)] := by
  refine ⟨⟨by simpa using Frame.fits_proc rfl rfl rfl, by simp⟩, ?_⟩
  rintro f ⟨⟩
  rfl

theorem topHold_append (hst : ∀ g ∈ st, g.hold = none) : topHold (fs ++ st) = topHold fs := by
  cases fs with
  | nil =>
    cases st with
    | nil => rfl
    | cons g st => exact hst g (by simp)
  | cons g fs => rfl

theorem Frame.bound_of_hold (h : f.hold = none) : f.bound = none := by
  cases f <;> first | rfl | simp [Frame.hold] at h

theorem Frame.hold_of_bound {p : Fin nproc} (h : f.bound = some p) : ∃ σ, f.hold = some (p, σ) := by
  cases f <;> simp_all [Frame.bound, Frame.hold]

theorem Frame.hold_of_resumes {p : Fin nproc} (h : f.resumes = some p) :
    f.hold = some (p, .own) := by
  cases f <;> simp_all [Frame.resumes, Frame.hold]

theorem topHold_none (hst : ∀ g ∈ st, g.hold = none) : topHold st = none := by
  rw [← List.nil_append st, topHold_append hst]
  rfl

theorem topBound_append (hst : ∀ g ∈ st, g.hold = none) : topBound (fs ++ st) = topBound fs := by
  cases fs with
  | nil =>
    cases st with
    | nil => rfl
    | cons g st => exact Frame.bound_of_hold (hst g (by simp))
  | cons g fs => rfl

theorem topBound_none (hst : ∀ g ∈ st, g.hold = none) : topBound st = none := by
  rw [← List.nil_append st, topBound_append hst]
  rfl

theorem makings_append : makings (fs ++ st) = makings fs ++ makings st := by
  simp [makings]

theorem makings_cons : makings (f :: st) = f.making.toList ++ makings st := by
  cases h : f.making <;> simp [makings, h]

theorem Frame.making_of_me (h : f.me = none) : f.making = none := by
  cases f <;> first | rfl | simp [Frame.me] at h

theorem StackOk.makings_sched (h : StackOk .sched st) : makings st = [] := by
  unfold makings
  rw [List.filterMap_eq_nil_iff]
  exact fun f hf => Frame.making_of_me (h.fits f hf)

theorem StackOk.below (h : StackOk t (f :: st)) : ∀ g ∈ st, g.hold = none := h.tail

/-- A frame on top that holds a lock is one of those that have been put there. -/
theorem StackOk.mem_top {g : Frame ℓ χ} {st' : List (Frame ℓ χ)} (h : StackOk t (f :: st))
    (hg : g.hold ≠ none) (hst : g :: st' = fs ++ st) : g ∈ fs := by
  cases fs with
  | nil => exact absurd (h.below g (by rw [← List.nil_append st, ← hst]; simp)) hg
  | cons g' fs =>
    rw [(List.cons.inj hst).1]
    simp

theorem StackOk.replace (h : StackOk t (f :: st)) (hfs : Follows t f fs) :
    StackOk t (fs ++ st) := by
  refine ⟨fun g hg => ?_, fun g hg => ?_⟩
  · rcases List.mem_append.mp hg with hg | hg
    · exact hfs.fits g hg
    · exact h.fits g (List.mem_cons_of_mem _ hg)
  · cases fs with
    | nil => exact h.tail g (List.mem_of_mem_tail hg)
    | cons g₀ fs =>
      rcases List.mem_append.mp hg with hg | hg
      · exact hfs.tail g hg
      · exact h.tail g hg

end Stacks

/-! ### A CPU goes on in its thread -/

variable [DecidableEq κ]

/-- What a step must bring along when the CPU stays in its thread. -/
structure Stays (cfg : Cfg κ ℓ χ) (c : κ) (π : Pc ℓ χ) (s : Machine κ ℓ χ) : Prop where
  thread : π.thread = threads cfg c
  stack : StackOk π.thread π.stack
  held : ∀ l d, s.holder l = some d → l ∈ s.held d
  hold : ∀ p, s.holder (.proc p) = some c ↔ ∃ σ, π.hold = some (p, σ)
  cur : s.cur = update cfg.shared.cur c π.cur
  sched : s.schedContext = cfg.shared.schedContext
  context : ∀ p, s.context p = cfg.shared.context p ∨
    ContextOk p (s.context p) ∧ makings (s.context p) = []
  others : ∀ p d, d ≠ c → (s.holder (.proc p) = some d ↔ cfg.shared.holder (.proc p) = some d)
  alike : ∀ p d, d ≠ c → cfg.shared.holder (.proc p) = some d →
    (cfg.shared.slot p).Alike (s.slot p) ∧ s.context p = cfg.shared.context p
  free : ∀ p, s.holder (.proc p) = none →
    Settled (threads cfg) p (s.context p).head? (s.slot p)
  taken : ∀ p σ, π.hold = some (p, σ) →
    Meets (threads cfg) c p (s.context p).head? (s.slot p) σ
  used : ∀ np, (cfg.shared.slot np).state = .used →
    (s.slot np).state = .used ∨ np ∈ makings (cfg.pc c).stack ∧ np ∉ makings π.stack
  made : ∀ np ∈ makings π.stack, np ∈ makings (cfg.pc c).stack ∨
    (cfg.shared.slot np).state ≠ .used ∧ (s.slot np).state = .used
  nodup : (makings π.stack).Nodup

section Stays

variable {cfg : Cfg κ ℓ χ} {c : κ} {π : Pc ℓ χ} {s : Machine κ ℓ χ}

theorem threads_move (ht : π.thread = threads cfg c) :
    threads (cfg.move c π s) = threads cfg := by
  funext d
  by_cases hd : d = c
  · subst hd
    simp [threads, ht]
  · simp [threads, Config.move_pc_of_ne _ _ _ hd]

section Stays

variable (h : Inv cfg) (hs : Stays cfg c π s)
include h hs

/-- The stacks after a step: that of the thread that moved, and those of the others. -/
theorem Stays.hasStack {p : Fin nproc} {st : List (Frame ℓ χ)}
    (hst : HasStack (cfg.move c π s) p st) :
    (threads cfg c = .proc p ∧ st = π.stack) ∨ threads cfg c ≠ .proc p ∧
      (HasStack cfg p st ∨ makings st = []) := by
  rcases hst with ⟨d, hd⟩ | ⟨hoff, hst⟩
  · by_cases hdc : d = c
    · subst hdc
      rw [Config.move_pc_self] at hd
      refine .inl ⟨?_, ?_⟩
      · rw [← hs.thread, hd]
      · rw [hd]
    · rw [Config.move_pc_of_ne _ _ _ hdc] at hd
      by_cases hc : threads cfg c = .proc p
      · exact absurd (h.alone d c p (by rw [threads, hd]) hc) hdc
      · exact .inr ⟨hc, .inl (.inl ⟨d, hd⟩)⟩
  · rw [threads_move hs.thread] at hoff
    refine .inr ⟨hoff c, ?_⟩
    rcases hs.context p with hsame | ⟨-, hnone⟩
    · exact .inl (.inr ⟨hoff, hsame.symm.trans hst⟩)
    · exact .inr (by rw [← hst]; exact hnone)

/-- The processes that others are making stay as they are. -/
theorem Stays.used_other {p np : Fin nproc} {st : List (Frame ℓ χ)}
    (hc : threads cfg c ≠ .proc p) (hst : HasStack cfg p st) (hnp : np ∈ makings st) :
    np ∉ makings (cfg.pc c).stack ∧ (s.slot np).state = .used := by
  have hnot : np ∉ makings (cfg.pc c).stack := by
    intro hmem
    cases ht : threads cfg c with
    | sched =>
      have hok := h.stack c
      rw [ht] at hok
      simp [hok.makings_sched] at hmem
    | proc q =>
      have hq : HasStack cfg q (cfg.pc c).stack := .inl ⟨c, by rw [← ht]; rfl⟩
      exact hc (by rw [ht, h.apart p q st _ hst hq np hnp hmem])
  refine ⟨hnot, ?_⟩
  exact (hs.used np (h.used p st hst np hnp)).resolve_right fun hr => hnot hr.1

theorem Stays.notMem_other {p np : Fin nproc} {st : List (Frame ℓ χ)}
    (hc : threads cfg c ≠ .proc p) (hst : HasStack cfg p st) (hnp : np ∈ makings π.stack) :
    np ∉ makings st := by
  intro hmem
  rcases hs.made np hnp with hold | ⟨hnew, -⟩
  · exact (hs.used_other h hc hst hmem).1 hold
  · exact hnew (h.used p st hst np hmem)

theorem Stays.used_self {p np : Fin nproc} (hc : threads cfg c = .proc p)
    (hnp : np ∈ makings π.stack) : (s.slot np).state = .used := by
  rcases hs.made np hnp with hold | ⟨-, hnew⟩
  · have hst : HasStack cfg p (cfg.pc c).stack := .inl ⟨c, by rw [← hc]; rfl⟩
    exact (hs.used np (h.used p _ hst np hold)).resolve_right fun hr => hr.2 hnp
  · exact hnew

/-- **Steps within a thread keep the invariant.** -/
theorem Inv.stays : Inv (cfg.move c π s) := by
  have hth := threads_move (s := s) hs.thread
  refine ⟨hs.held, ?_, ?_, ?_, ?_, ?_, ?_, ?_, ?_, ?_, ?_, ?_⟩
  · intro d p
    by_cases hd : d = c
    · subst hd
      rw [Config.move_pc_self]
      exact hs.hold p
    · rw [Config.move_pc_of_ne _ _ _ hd]
      exact (hs.others p d hd).trans (h.hold d p)
  · intro d
    rw [Config.move_shared, hs.cur]
    by_cases hd : d = c
    · subst hd
      simp
    · rw [update_of_ne hd, Config.move_pc_of_ne _ _ _ hd, h.cur d]
  · rw [hth]
    exact h.alone
  · rw [hth, Config.move_shared, hs.sched]
    exact h.sched
  · intro d
    rw [hth]
    by_cases hd : d = c
    · subst hd
      rw [Config.move_pc_self, ← hs.thread]
      exact hs.stack
    · rw [Config.move_pc_of_ne _ _ _ hd]
      exact h.stack d
  · intro p
    rcases hs.context p with hsame | ⟨hok, -⟩
    · rw [Config.move_shared, hsame]
      exact h.context p
    · exact hok
  · intro p hp
    rw [hth]
    exact hs.free p hp
  · intro d p σ hp
    rw [hth]
    by_cases hd : d = c
    · subst hd
      rw [Config.move_pc_self] at hp
      exact hs.taken p σ hp
    · rw [Config.move_pc_of_ne _ _ _ hd] at hp
      obtain ⟨halike, hctx⟩ := hs.alike p d hd ((h.hold d p).mpr ⟨σ, hp⟩)
      rw [Config.move_shared, hctx]
      exact (h.taken d p σ hp).congr halike
  · intro p st hst np hnp
    rcases hs.hasStack h hst with ⟨hc, rfl⟩ | ⟨hc, hst | hnone⟩
    · exact hs.used_self h hc hnp
    · exact (hs.used_other h hc hst hnp).2
    · simp [hnone] at hnp
  · intro p st hst
    rcases hs.hasStack h hst with ⟨hc, rfl⟩ | ⟨hc, hst | hnone⟩
    · exact hs.nodup
    · exact h.nodup p st hst
    · simp [hnone]
  · intro p p' st st' hst hst' np hnp hnp'
    rcases hs.hasStack h hst with ⟨hc, rfl⟩ | ⟨hc, hst | hnone⟩
    · rcases hs.hasStack h hst' with ⟨hc', rfl⟩ | ⟨hc', hst' | hnone'⟩
      · exact Thread.proc.inj (hc.symm.trans hc')
      · exact absurd hnp' (hs.notMem_other h hc' hst' hnp)
      · simp [hnone'] at hnp'
    · rcases hs.hasStack h hst' with ⟨hc', rfl⟩ | ⟨hc', hst' | hnone'⟩
      · exact absurd hnp (hs.notMem_other h hc hst hnp')
      · exact h.apart p p' st st' hst hst' np hnp hnp'
      · simp [hnone'] at hnp'
    · simp [hnone] at hnp

end Stays

end Stays

/-! ### Statements that stay with their process -/

/-- What a statement must bring along when the CPU stays in its thread and holds the lock of the
same process as before, if any. -/
structure Within (cfg : Cfg κ ℓ χ) (c : κ) (t : Thread) (f : Frame ℓ χ) (st fs : List (Frame ℓ χ))
    (s : Machine κ ℓ χ) : Prop where
  stack : StackOk t (fs ++ st)
  held : ∀ l d, s.holder l = some d → l ∈ s.held d
  holder : ∀ p, s.holder (.proc p) = cfg.shared.holder (.proc p)
  cur : s.cur = update cfg.shared.cur c (Pc.cur ⟨t, fs ++ st⟩)
  sched : s.schedContext = cfg.shared.schedContext
  context : ∀ p, s.context p = cfg.shared.context p ∨
    ContextOk p (s.context p) ∧ makings (s.context p) = []
  alike : ∀ p, (∀ σ, f.hold ≠ some (p, σ)) →
    (cfg.shared.slot p).Alike (s.slot p) ∧ s.context p = cfg.shared.context p
  keeps : ∀ p, (∃ σ, topHold fs = some (p, σ)) ↔ ∃ σ, f.hold = some (p, σ)
  passes : ∀ p σ σ', f.hold = some (p, σ) → topHold fs = some (p, σ') →
    Meets (threads cfg) c p (cfg.shared.context p).head? (cfg.shared.slot p) σ →
    Meets (threads cfg) c p (s.context p).head? (s.slot p) σ'
  used : ∀ np, (cfg.shared.slot np).state = .used →
    (s.slot np).state = .used ∨ f.making = some np ∧ makings fs = []
  made : makings fs = [] ∨ makings fs = f.making.toList ∨ ∃ np, makings fs = [np] ∧
    (cfg.shared.slot np).state ≠ .used ∧ (s.slot np).state = .used

section Within

variable {cfg : Cfg κ ℓ χ} {c : κ} {t : Thread} {f : Frame ℓ χ} {st fs : List (Frame ℓ χ)}
  {s : Machine κ ℓ χ} (h : Inv cfg) (hpc : cfg.pc c = ⟨t, f :: st⟩)

include h hpc

omit [DecidableEq κ] in
theorem Inv.stackOk : StackOk t (f :: st) := by
  have hok := h.stack c
  rwa [threads, hpc] at hok

omit [DecidableEq κ] in
theorem Inv.stack_follows (hf : Follows (threads cfg c) f fs) : StackOk t (fs ++ st) := by
  rw [threads, hpc] at hf
  exact (h.stackOk hpc).replace hf

omit [DecidableEq κ] in
theorem Inv.making :
    (f.making.toList ++ makings st).Nodup ∧
      ∀ np ∈ f.making.toList ++ makings st, (cfg.shared.slot np).state = .used := by
  rw [← makings_cons]
  cases t with
  | sched => simp [(h.stackOk hpc).makings_sched]
  | proc p => exact ⟨h.nodup p _ (.inl ⟨c, hpc⟩), h.used p _ (.inl ⟨c, hpc⟩)⟩

/-- **Statements that stay with their process keep the invariant.** -/
theorem Inv.within (hw : Within cfg c t f st fs s) :
    Inv (cfg.move c ⟨t, fs ++ st⟩ s) := by
  have hhold : ∀ fs, Pc.hold ⟨t, fs ++ st⟩ = topHold fs := fun fs =>
    topHold_append (h.stackOk hpc).below
  have hmine : (cfg.pc c).hold = f.hold := by rw [hpc]; rfl
  obtain ⟨hnodup, hused⟩ := h.making hpc
  refine h.stays ⟨by rw [threads, hpc], hw.stack, hw.held, fun p => ?_, hw.cur, hw.sched,
    hw.context, fun p d _ => by rw [hw.holder], fun p d hd hp => ?_, fun p hp => ?_,
    fun p σ' hp => ?_, fun np hnp => ?_, fun np hnp => ?_, ?_⟩
  · rw [hw.holder, h.hold c p, hhold, hmine]
    exact (hw.keeps p).symm
  · refine hw.alike p fun σ hσ => hd ?_
    have hc := (h.hold c p).mpr ⟨σ, hmine.trans hσ⟩
    exact Option.some.inj (hp.symm.trans hc)
  · rw [hw.holder] at hp
    have hfree : ∀ σ, f.hold ≠ some (p, σ) := by
      intro σ hσ
      have hc := (h.hold c p).mpr ⟨σ, hmine.trans hσ⟩
      rw [hp] at hc
      exact absurd hc (by simp)
    obtain ⟨halike, hctx⟩ := hw.alike p hfree
    rw [hctx]
    exact (h.free p hp).congr halike
  · rw [hhold] at hp
    obtain ⟨σ, hσ⟩ := (hw.keeps p).mp ⟨σ', hp⟩
    exact hw.passes p σ σ' hσ hp (h.taken c p σ (hmine.trans hσ))
  · refine (hw.used np hnp).imp_right fun ⟨hf, hnone⟩ => ?_
    rw [hf] at hnodup
    rw [hpc, makings_cons, makings_append, hf, hnone]
    exact ⟨by simp, (List.nodup_cons.mp hnodup).1⟩
  · rw [hpc]
    rw [makings_append] at hnp
    rw [makings_cons]
    rcases List.mem_append.mp hnp with hnp | hnp
    · rcases hw.made with hnone | hsame | ⟨np', hnew, hnot, hnow⟩
      · simp [hnone] at hnp
      · exact .inl (List.mem_append_left _ (hsame ▸ hnp))
      · simp only [hnew, List.mem_singleton] at hnp
        exact .inr (hnp ▸ ⟨hnot, hnow⟩)
    · exact .inl (List.mem_append_right _ hnp)
  · rw [makings_append]
    rcases hw.made with hnone | hsame | ⟨np', hnew, hnot, -⟩
    · rw [hnone]
      exact hnodup.of_append_right
    · rw [hsame]
      exact hnodup
    · rw [hnew]
      refine List.nodup_cons.mpr ⟨fun hmem => hnot ?_, hnodup.of_append_right⟩
      exact hused np' (List.mem_append_right _ hmem)

end Within

/-! ### The statements -/

section Exec

variable {cfg : Cfg κ ℓ χ} {c : κ} {t : Thread} {f : Frame ℓ χ} {st fs : List (Frame ℓ χ)}
  {s : Machine κ ℓ χ}

/-- Nothing that the invariant speaks of has changed, except for other locks. -/
structure Machine.Alike (s s' : Machine κ ℓ χ) : Prop where
  slot : ∀ p, (s.slot p).Alike (s'.slot p)
  context : s'.context = s.context
  schedContext : s'.schedContext = s.schedContext
  cur : s'.cur = s.cur
  holder : ∀ p, s'.holder (.proc p) = s.holder (.proc p)
  held : (∀ l d, s.holder l = some d → l ∈ s.held d) → ∀ l d, s'.holder l = some d → l ∈ s'.held d

section Frame

variable (h : Inv cfg) (hpc : cfg.pc c = ⟨t, f :: st⟩) {p : Fin nproc}

include h hpc

theorem Inv.cur_follows (hf : Follows (threads cfg c) f fs) :
    cfg.shared.cur = update cfg.shared.cur c (Pc.cur ⟨t, fs ++ st⟩) := by
  rw [eq_comm, update_eq_self_iff, h.cur c, hpc]
  unfold Pc.cur
  cases t with
  | proc p => rfl
  | sched =>
    change topBound (fs ++ st) = f.bound
    rw [topBound_append (h.stackOk hpc).below, hf.bound, hf.unbound]

theorem Inv.quiet (hq : Quiet (threads cfg) cfg.shared c f fs) (hs : cfg.shared.Alike s) :
    Inv (cfg.move c ⟨t, fs ++ st⟩ s) := by
  refine h.within hpc ⟨h.stack_follows hpc hq.follows, hs.held h.held, hs.holder, ?_, hs.schedContext,
    fun p => .inl (by rw [hs.context]), fun p _ => ⟨hs.slot p, by rw [hs.context]⟩,
    hq.passes.keeps, fun p σ σ' hσ hσ' hm => ?_, fun np hnp => .inl ((hs.slot np).1.trans hnp),
    .inr (.inl hq.makings)⟩
  · rw [hs.cur]
    exact h.cur_follows hpc hq.follows
  · rw [hs.context]
    exact (hq.passes.meets hσ hσ' hm).congr (hs.slot p)

/-- Statements that change the process whose lock is held. -/
theorem Inv.edit {σ σ' : Stance ℓ χ} (hfol : Follows (threads cfg c) f fs) (hσ : f.hold = some (p, σ))
    (hσ' : topHold fs = some (p, σ')) (hslot : ∀ q, q ≠ p → s.slot q = cfg.shared.slot q)
    (hctx : ∀ q, q ≠ p → s.context q = cfg.shared.context q)
    (hctxp : s.context p = cfg.shared.context p ∨
      ContextOk p (s.context p) ∧ makings (s.context p) = [])
    (hholder : s.holder = cfg.shared.holder) (hheld : s.held = cfg.shared.held)
    (hcur : s.cur = cfg.shared.cur) (hsched : s.schedContext = cfg.shared.schedContext)
    (hm : Meets (threads cfg) c p (s.context p).head? (s.slot p) σ')
    (hused : (cfg.shared.slot p).state = .used →
      (s.slot p).state = .used ∨ f.making = some p ∧ makings fs = [])
    (hmade : makings fs = [] ∨ makings fs = f.making.toList ∨ makings fs = [p] ∧
      (cfg.shared.slot p).state ≠ .used ∧ (s.slot p).state = .used) :
    Inv (cfg.move c ⟨t, fs ++ st⟩ s) := by
  refine h.within hpc ⟨h.stack_follows hpc hfol, by rw [hholder, hheld]; exact h.held,
    fun q => by rw [hholder], ?_, hsched, fun q => ?_, fun q hq => ?_, fun q => ?_,
    fun q τ τ' hτ hτ' _ => ?_, fun np hnp => ?_, ?_⟩
  · rw [hcur]
    exact h.cur_follows hpc hfol
  · by_cases hq : q = p
    · exact hq ▸ hctxp
    · exact .inl (hctx q hq)
  · have hqp : q ≠ p := fun hqp => hq σ (hqp ▸ hσ)
    rw [hslot q hqp]
    exact ⟨⟨rfl, rfl⟩, hctx q hqp⟩
  · simp [hσ, hσ']
  · rw [hσ, Option.some.injEq, Prod.mk.injEq] at hτ
    rw [hσ', Option.some.injEq, Prod.mk.injEq] at hτ'
    rw [← hτ.1, ← hτ'.2]
    exact hm
  · by_cases hq : np = p
    · subst hq
      exact hused hnp
    · rw [hslot np hq]
      exact .inl hnp
  · rcases hmade with h | h | ⟨h, h'⟩
    · exact .inl h
    · exact .inr (.inl h)
    · exact .inr (.inr ⟨p, h, h'⟩)

theorem Inv.set {g : Slot χ → Slot χ} (hg : Instr.Good (threads cfg) cfg.shared c f (.set p g fs)) :
    Inv (cfg.move c ⟨t, fs ++ st⟩ (cfg.shared.setSlot p g)) := by
  obtain ⟨hfol, ⟨halike, hmk, hpass⟩ | ⟨σ, σ', hσ, hσ', hstep⟩⟩ := hg
  · refine h.quiet hpc ⟨hfol, hmk, hpass⟩ ⟨fun q => ?_, rfl, rfl, rfl, fun _ => rfl, fun h => h⟩
    by_cases hq : q = p
    · subst hq
      simpa [Machine.setSlot] using halike
    · simp [Machine.setSlot, hq, Slot.Alike]
  · obtain ⟨hm, -, hmk⟩ := hstep (h.taken c p σ (by rw [hpc]; exact hσ))
    refine h.edit hpc hfol hσ hσ' (fun q hq => by simp [Machine.setSlot, hq]) (fun _ _ => rfl)
      (.inl rfl) rfl rfl rfl rfl (by simpa [Machine.setSlot] using hm) (fun hu => ?_) ?_
    · rcases hmk with ⟨-, hkeep⟩ | ⟨hnone, hmk⟩
      · exact .inl (by simpa [Machine.setSlot] using hkeep hu)
      · exact .inr ⟨hmk, hnone⟩
    · rcases hmk with ⟨hsame, -⟩ | ⟨hnone, -⟩
      · exact .inr (.inl hsame)
      · exact .inl hnone

theorem Inv.alloc {g : Slot χ → Slot χ}
    (hg : Instr.Good (threads cfg) cfg.shared c f (.alloc p fs))
    (hused : (g (cfg.shared.slot p)).state = .used) (n : ℤ) :
    Inv (cfg.move c ⟨t, fs ++ st⟩ { cfg.shared.setSlot p g with nextpid := n }) := by
  obtain ⟨hfol, hσ, hσ', hmk, -⟩ := hg
  have hm := h.taken c p _ (by rw [hpc]; exact hσ)
  have hoff := (hm.1.off (by simp [hm.2])).1
  have hnow : ((cfg.shared.setSlot p g).slot p).state = .used := by
    simpa [Machine.setSlot] using hused
  refine h.edit hpc hfol hσ hσ' (fun q hq => by simp [Machine.setSlot, hq]) (fun _ _ => rfl)
    (.inl rfl) rfl rfl rfl rfl ⟨hnow, hoff⟩ (fun _ => .inl hnow)
    (.inr (.inr ⟨hmk, by simp [hm.2], hnow⟩))

theorem Inv.start (hg : Instr.Good (threads cfg) cfg.shared c f (.start p fs)) :
    Inv (cfg.move c ⟨t, fs ++ st⟩ (cfg.shared.setContext p [.forkret p])) := by
  obtain ⟨hfol, hσ, hσ', hmk⟩ := hg
  obtain ⟨hst, hoff⟩ := h.taken c p _ (by rw [hpc]; exact hσ)
  have hctx : (cfg.shared.setContext p [.forkret p]).context p = [.forkret p] := by
    simp [Machine.setContext]
  refine h.edit hpc hfol hσ hσ' (fun _ _ => rfl) (fun q hq => by simp [Machine.setContext, hq])
    (.inr ?_) rfl rfl rfl rfl ?_ (fun hu => .inl hu) (.inr (.inl hmk))
  · rw [hctx]
    exact ⟨contextOk_forkret p, rfl⟩
  · rw [hctx]
    refine ⟨.inr ⟨hoff, ?_⟩, hst⟩
    change Rests p _ (cfg.shared.slot p)
    rw [Rests, hst]
    rfl

theorem Inv.setCur {p : Option (Fin nproc)}
    (hg : Instr.Good (threads cfg) cfg.shared c f (.setCur p fs)) :
    Inv (cfg.move c ⟨t, fs ++ st⟩ (cfg.shared.setCur c p)) := by
  obtain ⟨hsched, hmk, hpass, -, g, rfl, hme, hb⟩ := hg
  have hok := h.stackOk hpc
  rw [threads, hpc] at hsched
  subst hsched
  refine h.within hpc ⟨⟨?_, hok.tail⟩, h.held, fun _ => rfl, ?_, rfl, fun _ => .inl rfl,
    fun _ _ => ⟨⟨rfl, rfl⟩, rfl⟩, hpass.keeps, fun q σ σ' hσ hσ' hm => hpass.meets hσ hσ' hm,
    fun np hnp => .inl hnp, .inr (.inl hmk)⟩
  · intro g' hg'
    rcases List.mem_cons.mp hg' with rfl | hg'
    · exact hme
    · exact hok.fits g' (List.mem_cons_of_mem _ hg')
  · change update cfg.shared.cur c p = _
    rw [← hb]
    rfl

end Frame

/-- A thread that holds no process's lock calls something. -/
theorem Inv.push (h : Inv cfg) (hnone : (cfg.pc c).hold = none)
    (hfits : ∀ g ∈ fs, g.Fits (threads cfg c)) (hhold : ∀ g ∈ fs, g.hold = none)
    (hmk : makings fs = []) (hs : cfg.shared.Alike s) :
    Inv (cfg.move c ⟨(cfg.pc c).thread, fs ++ (cfg.pc c).stack⟩ s) := by
  have hok := h.stack c
  have hall : ∀ g ∈ fs ++ (cfg.pc c).stack, g.hold = none := by
    intro g hg
    rcases List.mem_append.mp hg with hg | hg
    · exact hhold g hg
    · cases hst : (cfg.pc c).stack with
      | nil => simp [hst] at hg
      | cons f st =>
        rw [hst] at hg hok
        rcases List.mem_cons.mp hg with rfl | hg
        · rwa [Pc.hold, hst] at hnone
        · exact hok.below g hg
  have htop : Pc.hold ⟨(cfg.pc c).thread, fs ++ (cfg.pc c).stack⟩ = none :=
    topHold_none hall
  have hmkst : makings (fs ++ (cfg.pc c).stack) = makings (cfg.pc c).stack := by
    rw [makings_append, hmk, List.nil_append]
  have hfree : ∀ p, cfg.shared.holder (.proc p) ≠ some c := by
    intro p hp
    obtain ⟨σ, hσ⟩ := (h.hold c p).mp hp
    simp [hnone] at hσ
  refine h.stays ⟨rfl, ⟨fun g hg => ?_, fun g hg => hall g (List.mem_of_mem_tail hg)⟩,
    hs.held h.held, fun p => ?_, ?_, hs.schedContext, fun p => .inl (by rw [hs.context]),
    fun p d _ => by rw [hs.holder], fun p d _ _ => ⟨hs.slot p, by rw [hs.context]⟩,
    fun p hp => ?_, fun p σ hσ => ?_, fun np hnp => .inl ((hs.slot np).1.trans hnp),
    fun np hnp => .inl (hmkst ▸ hnp), ?_⟩
  · rcases List.mem_append.mp hg with hg | hg
    · exact hfits g hg
    · exact hok.fits g hg
  · rw [hs.holder, htop]
    simpa using hfree p
  · rw [hs.cur, eq_comm, update_eq_self_iff, h.cur c]
    unfold Pc.cur
    cases (cfg.pc c).thread with
    | proc p => rfl
    | sched =>
      change topBound (fs ++ (cfg.pc c).stack) = topBound (cfg.pc c).stack
      rw [topBound_none hall, topBound_none fun g hg => hall g (List.mem_append_right _ hg)]
  · rw [hs.holder] at hp
    rw [hs.context]
    exact (h.free p hp).congr (hs.slot p)
  · rw [htop] at hσ
    simp at hσ
  · change (makings (fs ++ (cfg.pc c).stack)).Nodup
    rw [hmkst]
    cases ht : (cfg.pc c).thread with
    | sched =>
      rw [threads, ht] at hok
      simp [hok.makings_sched]
    | proc p => exact h.nodup p _ (.inl ⟨c, by rw [← ht]⟩)

omit [DecidableEq κ] in
theorem Inv.hold_none (h : Inv cfg) (hheld : (cfg.shared.held c).length = 0) :
    (cfg.pc c).hold = none := by
  cases hh : (cfg.pc c).hold with
  | none => rfl
  | some x =>
    obtain ⟨p, σ⟩ := x
    have hmem := h.held (.proc p) c ((h.hold c p).mpr ⟨σ, hh⟩)
    rw [List.eq_nil_of_length_eq_zero hheld] at hmem
    simp at hmem

variable [DecidableEq ℓ]

/-- Locks that are held are on the list of their holder. -/
def Machine.Held (s : Machine κ ℓ χ) : Prop := ∀ l d, s.holder l = some d → l ∈ s.held d

theorem Machine.Held.take (h : s.Held) (c : κ) (l : Lock ℓ) : (s.take c l).Held := by
  intro l' d hd
  by_cases hl : l' = l
  · subst hl
    have hdc : c = d := by simpa [Machine.take] using hd
    subst hdc
    simp [Machine.take]
  · have hold := h l' d (by simpa [Machine.take, hl] using hd)
    by_cases hdc : d = c
    · subst hdc
      simp [Machine.take, hold]
    · simpa [Machine.take, hdc] using hold

theorem Machine.Held.give (h : s.Held) (c : κ) (l : Lock ℓ) : (s.give c l).Held := by
  intro l' d hd
  by_cases hl : l' = l
  · subst hl
    simp [Machine.give] at hd
  · have hold := h l' d (by simpa [Machine.give, hl] using hd)
    by_cases hdc : d = c
    · subst hdc
      simpa [Machine.give, List.mem_erase_of_ne hl] using hold
    · simpa [Machine.give, hdc] using hold

theorem Inv.lock (h : Inv cfg) (hpc : cfg.pc c = ⟨t, f :: st⟩) {p : Fin nproc}
    (hg : Instr.Good (threads cfg) cfg.shared c f (.lock (.proc p) fs))
    (hfree : cfg.shared.holder (.proc p) = none) :
    Inv (cfg.move c ⟨t, fs ++ st⟩ (cfg.shared.take c (.proc p))) := by
  obtain ⟨hfol, hmk, hnone, σ, hσ, hm⟩ := hg
  have ht : threads cfg c = t := by rw [threads, hpc]
  have hbelow := (h.stackOk hpc).below
  have hmine : (cfg.pc c).hold = none := by rw [hpc]; exact hnone
  have hhold : Pc.hold ⟨t, fs ++ st⟩ = some (p, σ) := (topHold_append hbelow).trans hσ
  have hmkst : makings (fs ++ st) = makings (cfg.pc c).stack := by
    rw [hpc, makings_append, makings_cons, hmk]
  obtain ⟨hnodup, hused⟩ := h.making hpc
  have hother : ∀ q, q ≠ p → cfg.shared.holder (.proc q) ≠ some c := by
    intro q _ hc
    obtain ⟨τ, hτ⟩ := (h.hold c q).mp hc
    simp [hmine] at hτ
  refine h.stays ⟨ht.symm, h.stack_follows hpc hfol, ?_, fun q => ?_, h.cur_follows hpc hfol, rfl,
    fun _ => .inl rfl, fun q d hd => ?_, fun q d _ _ => ⟨⟨rfl, rfl⟩, rfl⟩, fun q hq => ?_,
    fun q τ hτ => ?_, fun np hnp => .inl hnp, fun np hnp => .inl (hmkst ▸ hnp), ?_⟩
  · exact Machine.Held.take h.held c _
  · by_cases hq : q = p
    · subst hq
      simp [Machine.take, hhold]
    · simp [Machine.take, hhold, hq, hother q hq, Ne.symm hq]
  · by_cases hq : q = p
    · subst hq
      simp [Machine.take, hfree, Ne.symm hd]
    · simp [Machine.take, hq]
  · by_cases hqp : q = p
    · subst hqp
      simp [Machine.take] at hq
    · exact h.free q (by simpa [Machine.take, hqp] using hq)
  · rw [hhold, Option.some.injEq, Prod.mk.injEq] at hτ
    rw [← hτ.1, ← hτ.2]
    exact hm (fun np hnp => hused np (by simp [hnp])) (h.free p hfree)
  · rw [makings_append, hmk]
    exact hnodup

theorem Inv.unlock (h : Inv cfg) (hpc : cfg.pc c = ⟨t, f :: st⟩) {p : Fin nproc}
    (hg : Instr.Good (threads cfg) cfg.shared c f (.unlock (.proc p) fs)) :
    Inv (cfg.move c ⟨t, fs ++ st⟩ (cfg.shared.give c (.proc p))) := by
  obtain ⟨hfol, hmk, hnone, σ, hσ, hm⟩ := hg
  have ht : threads cfg c = t := by rw [threads, hpc]
  have hbelow := (h.stackOk hpc).below
  have hmine : (cfg.pc c).hold = some (p, σ) := by rw [hpc]; exact hσ
  have hholder : cfg.shared.holder (.proc p) = some c := (h.hold c p).mpr ⟨σ, hmine⟩
  have hhold : Pc.hold ⟨t, fs ++ st⟩ = none := (topHold_append hbelow).trans hnone
  have hmkst : makings (fs ++ st) = makings (cfg.pc c).stack := by
    rw [hpc, makings_append, makings_cons, hmk]
  have hother : ∀ q, q ≠ p → cfg.shared.holder (.proc q) ≠ some c := by
    intro q hq hc
    obtain ⟨τ, hτ⟩ := (h.hold c q).mp hc
    rw [hmine, Option.some.injEq, Prod.mk.injEq] at hτ
    exact hq hτ.1.symm
  refine h.stays ⟨ht.symm, h.stack_follows hpc hfol, ?_, fun q => ?_, h.cur_follows hpc hfol, rfl,
    fun _ => .inl rfl, fun q d hd => ?_, fun q d _ _ => ⟨⟨rfl, rfl⟩, rfl⟩, fun q hq => ?_,
    fun q τ hτ => ?_, fun np hnp => .inl hnp, fun np hnp => .inl (hmkst ▸ hnp), ?_⟩
  · exact Machine.Held.give h.held c _
  · by_cases hq : q = p
    · subst hq
      simp [Machine.give, hhold]
    · simp [Machine.give, hhold, hq, hother q hq]
  · by_cases hq : q = p
    · subst hq
      simp [Machine.give, hholder, Ne.symm hd]
    · simp [Machine.give, hq]
  · by_cases hqp : q = p
    · subst hqp
      exact hm (h.taken c q σ hmine)
    · exact h.free q (by simpa [Machine.give, hqp] using hq)
  · simp [hhold] at hτ
  · rw [makings_append, hmk]
    exact (h.making hpc).1

end Exec

/-! ### Switching -/

section Switch

variable {cfg : Cfg κ ℓ χ} {c : κ} {π : Pc ℓ χ} {s : Machine κ ℓ χ} {p : Fin nproc}

/-- What a switch must bring along: only the process that is held changes its place. -/
structure Switches (cfg : Cfg κ ℓ χ) (c : κ) (π : Pc ℓ χ) (s : Machine κ ℓ χ) (p : Fin nproc) :
    Prop where
  before : ∃ σ, (cfg.pc c).hold = some (p, σ)
  threads : ∀ q, q ≠ p → π.thread ≠ .proc q ∧ threads cfg c ≠ .proc q
  stack : StackOk π.thread π.stack
  held : s.held = cfg.shared.held
  holder : s.holder = cfg.shared.holder
  slot : s.slot = cfg.shared.slot
  cur : s.cur = cfg.shared.cur ∧ cfg.shared.cur c = π.cur
  sched : ∀ d, d ≠ c → s.schedContext d = cfg.shared.schedContext d
  mine : π.thread = .proc p → Off (Smp.threads cfg) p ∧ StackOk .sched (s.schedContext c) ∧
    ∃ level st, s.schedContext c = .back level p :: st
  others : ∀ q, q ≠ p → s.context q = cfg.shared.context q
  context : ContextOk p (s.context p)
  after : ∃ σ, π.hold = some (p, σ) ∧
    Meets (Smp.threads (cfg.move c π s)) c p (s.context p).head? (s.slot p) σ
  makes : ∀ st, HasStack (cfg.move c π s) p st → ∃ st', HasStack cfg p st' ∧
    makings st' = makings st

theorem Switches.threads_iff (hs : Switches cfg c π s p) {q : Fin nproc} (hq : q ≠ p) (d : κ) :
    Smp.threads (cfg.move c π s) d = .proc q ↔ Smp.threads cfg d = .proc q := by
  by_cases hd : d = c
  · subst hd
    have hπ := (hs.threads q hq).1
    simp [Smp.threads, hπ]
    exact (hs.threads q hq).2
  · simp [Smp.threads, Config.move_pc_of_ne _ _ _ hd]

theorem Switches.hasStack (hs : Switches cfg c π s p) {q : Fin nproc} {st : List (Frame ℓ χ)}
    (h : HasStack (cfg.move c π s) q st) :
    ∃ st', HasStack cfg q st' ∧ makings st' = makings st := by
  by_cases hq : q = p
  · subst hq
    exact hs.makes st h
  · refine ⟨st, ?_, rfl⟩
    rcases h with ⟨d, hd⟩ | ⟨hoff, hst⟩
    · have hdc : d ≠ c := by
        rintro rfl
        rw [Config.move_pc_self] at hd
        exact (hs.threads q hq).1 (by rw [hd])
      rw [Config.move_pc_of_ne _ _ _ hdc] at hd
      exact .inl ⟨d, hd⟩
    · refine .inr ⟨fun d hd => hoff d ((hs.threads_iff hq d).mpr hd), ?_⟩
      rw [← hs.others q hq]
      exact hst

theorem Inv.switches (h : Inv cfg) (hs : Switches cfg c π s p) : Inv (cfg.move c π s) := by
  obtain ⟨σ₀, hσ₀⟩ := hs.before
  obtain ⟨σ, hσ, hmeets⟩ := hs.after
  have hp : cfg.shared.holder (.proc p) = some c := (h.hold c p).mpr ⟨σ₀, hσ₀⟩
  refine ⟨?_, fun d q => ?_, fun d => ?_, fun d e q hd he => ?_, fun d q hd => ?_, fun d => ?_,
    fun q => ?_, fun q hq => ?_, fun d q τ hτ => ?_, fun q st hst np hnp => ?_,
    fun q st hst => ?_, fun q q' st st' hst hst' np hnp hnp' => ?_⟩
  · rw [Config.move_shared, hs.holder, hs.held]
    exact h.held
  · rw [Config.move_shared, hs.holder]
    by_cases hd : d = c
    · subst hd
      rw [Config.move_pc_self, h.hold, hσ, hσ₀]
      simp
    · rw [Config.move_pc_of_ne _ _ _ hd]
      exact h.hold d q
  · rw [Config.move_shared, hs.cur.1]
    by_cases hd : d = c
    · subst hd
      rw [Config.move_pc_self]
      exact hs.cur.2
    · rw [Config.move_pc_of_ne _ _ _ hd]
      exact h.cur d
  · by_cases hq : q = p
    · subst hq
      by_cases hπ : π.thread = .proc q
      · have hc : ∀ d, Smp.threads (cfg.move c π s) d = .proc q → d = c := fun d hd => by
          by_contra hne
          refine (hs.mine hπ).1 d ?_
          rwa [Smp.threads, Config.move_pc_of_ne _ _ _ hne] at hd
        rw [hc d hd, hc e he]
      · have hc : ∀ d, Smp.threads (cfg.move c π s) d = .proc q → Smp.threads cfg d = .proc q := by
          intro d hd
          have hne : d ≠ c := by
            rintro rfl
            exact hπ (by rwa [Smp.threads, Config.move_pc_self] at hd)
          rwa [Smp.threads, Config.move_pc_of_ne _ _ _ hne] at hd
        exact h.alone d e q (hc d hd) (hc e he)
    · exact h.alone d e q ((hs.threads_iff hq d).mp hd) ((hs.threads_iff hq e).mp he)
  · rw [Config.move_shared]
    by_cases hdc : d = c
    · subst hdc
      rw [Smp.threads, Config.move_pc_self] at hd
      have hq : q = p := by
        by_contra hq
        exact (hs.threads q hq).1 hd
      subst hq
      exact (hs.mine hd).2
    · rw [Smp.threads, Config.move_pc_of_ne _ _ _ hdc] at hd
      rw [hs.sched d hdc]
      exact h.sched d q hd
  · by_cases hd : d = c
    · subst hd
      simpa [Smp.threads] using hs.stack
    · simpa [Smp.threads, Config.move_pc_of_ne _ _ _ hd] using h.stack d
  · by_cases hq : q = p
    · subst hq
      exact hs.context
    · rw [Config.move_shared, hs.others q hq]
      exact h.context q
  · rw [Config.move_shared, hs.holder] at hq
    have hqp : q ≠ p := by
      rintro rfl
      rw [hp] at hq
      exact absurd hq (by simp)
    rw [Config.move_shared, hs.others q hqp, hs.slot]
    exact (h.free q hq).of_threads (hs.threads_iff hqp)
  · by_cases hd : d = c
    · subst hd
      rw [Config.move_pc_self, hσ, Option.some.injEq, Prod.mk.injEq] at hτ
      rw [← hτ.1, ← hτ.2]
      exact hmeets
    · rw [Config.move_pc_of_ne _ _ _ hd] at hτ
      have hqp : q ≠ p := by
        rintro rfl
        have hq := (h.hold d q).mpr ⟨τ, hτ⟩
        rw [hp] at hq
        exact hd (Option.some.inj hq).symm
      rw [Config.move_shared, hs.others q hqp, hs.slot]
      exact (h.taken d q τ hτ).of_threads (hs.threads_iff hqp)
  · obtain ⟨st', hst', hmk⟩ := hs.hasStack hst
    rw [Config.move_shared, hs.slot]
    exact h.used q st' hst' np (hmk ▸ hnp)
  · obtain ⟨st', hst', hmk⟩ := hs.hasStack hst
    exact hmk ▸ h.nodup q st' hst'
  · obtain ⟨st₁, hst₁, hmk₁⟩ := hs.hasStack hst
    obtain ⟨st₂, hst₂, hmk₂⟩ := hs.hasStack hst'
    exact h.apart q q' st₁ st₂ hst₁ hst₂ np (hmk₁ ▸ hnp) (hmk₂ ▸ hnp')

variable {t : Thread} {f f' : Frame ℓ χ} {st fs : List (Frame ℓ χ)}

/-- **`sched`.** The process leaves the CPU with a context that fits its state. -/
theorem Inv.sched_step (h : Inv cfg) (hpc : cfg.pc c = ⟨t, f :: st⟩)
    (hg : Instr.Good (threads cfg) cfg.shared c f (.sched f')) (hcur : cfg.shared.cur c = some p) :
    Inv (cfg.move c ⟨.sched, cfg.shared.schedContext c⟩ (cfg.shared.setContext p (f' :: st))) := by
  obtain ⟨q, hq, hσ, hres, hfits, hmk, hmk'⟩ := hg
  have hqp : q = p := by
    rw [h.cur c] at hcur
    unfold Pc.cur at hcur
    rw [threads] at hq
    rw [hq] at hcur
    exact Option.some.inj hcur
  subst hqp
  obtain ⟨hback, level, rest, hrest⟩ := h.sched c q hq
  have ht : t = .proc q := by
    rw [← hq, threads, hpc]
  subst ht
  have hok := h.stackOk hpc
  have hm := h.taken c q _ (by rw [hpc]; exact hσ)
  have hctx : (cfg.shared.setContext q (f' :: st)).context q = f' :: st := by
    simp [Machine.setContext]
  have hoff : Off (threads (cfg.move c ⟨.sched, cfg.shared.schedContext c⟩
      (cfg.shared.setContext q (f' :: st)))) q := by
    intro d hd
    by_cases hdc : d = c
    · subst hdc
      simp [threads] at hd
    · rw [threads, Config.move_pc_of_ne _ _ _ hdc] at hd
      exact hdc (h.alone d c q hd hq)
  refine h.switches (p := q) ⟨⟨_, by rw [hpc]; exact hσ⟩, fun q' hq' => ⟨by simp, ?_⟩, hback, rfl,
    rfl, rfl, ⟨rfl, ?_⟩, fun _ _ => rfl, by simp, fun q' hq' => by simp [Machine.setContext, hq'],
    ?_, ⟨.calm, ?_, ?_⟩, fun st' hst' => ?_⟩
  · rw [hq]
    exact fun heq => hq' (Thread.proc.inj heq).symm
  · rw [hcur, hrest]
    rfl
  · rw [hctx]
    refine ⟨⟨fun g hg => ?_, hok.tail⟩, fun g hg => ?_⟩
    · rcases List.mem_cons.mp hg with rfl | hg
      · exact hfits
      · exact hok.fits g (List.mem_cons_of_mem _ hg)
    · rw [← Option.some.inj hg]
      exact hres
  · rw [hrest]
    rfl
  · rw [hctx]
    exact .inr ⟨hoff, hm.2⟩
  · rcases hst' with ⟨d, hd⟩ | ⟨-, hst'⟩
    · exact absurd (by rw [threads, hd]) (hoff d)
    · refine ⟨f :: st, .inl ⟨c, hpc⟩, ?_⟩
      rw [Config.move_shared, hctx] at hst'
      rw [← hst', makings_cons, makings_cons, hmk, hmk']

/-- **`swtch` in the scheduler.** The process it has picked goes on where it was. -/
theorem Inv.resume_step (h : Inv cfg) (hpc : cfg.pc c = ⟨t, f :: st⟩)
    (hg : Instr.Good (threads cfg) cfg.shared c f (.resume p fs)) :
    Inv (cfg.move c ⟨.proc p, cfg.shared.context p⟩
      { cfg.shared with
        schedContext := update cfg.shared.schedContext c (fs ++ st) }) := by
  obtain ⟨ht, hσ, hb, level, rfl⟩ := hg
  have ht' : t = .sched := by
    rw [← ht, threads, hpc]
  subst ht'
  have hok := h.stackOk hpc
  obtain ⟨hst, hoff, g, hg, hgown⟩ := h.taken c p _ (by rw [hpc]; exact hσ)
  refine h.switches (p := p) ⟨⟨_, by rw [hpc]; exact hσ⟩, fun q hq => ⟨?_, by simp [ht]⟩,
    (h.context p).toStackOk, rfl, rfl, rfl, ⟨rfl, ?_⟩, fun d hd => by simp [hd],
    fun _ => ⟨hoff, ?_, ?_⟩, fun _ _ => rfl, h.context p, ⟨.own, ?_, hst, by simp [threads]⟩,
    fun st' hst' => ?_⟩
  · simpa using Ne.symm hq
  · rw [h.cur c, hpc]
    exact hb
  · simp only [update_self]
    refine ⟨fun g hg => ?_, hok.tail⟩
    rcases List.mem_cons.mp hg with rfl | hg
    · rfl
    · exact hok.fits g (List.mem_cons_of_mem _ hg)
  · exact ⟨level, st, by simp⟩
  · rw [Pc.hold, topHold, hg]
    exact Frame.hold_of_resumes hgown
  · rcases hst' with ⟨d, hd⟩ | ⟨hoff', -⟩
    · by_cases hdc : d = c
      · subst hdc
        rw [Config.move_pc_self, Pc.mk.injEq] at hd
        exact ⟨_, .inr ⟨hoff, hd.2⟩, rfl⟩
      · rw [Config.move_pc_of_ne _ _ _ hdc] at hd
        exact absurd (by rw [threads, hd]) (hoff d)
    · exact absurd (by simp [threads]) (hoff' c)

end Switch

end Smp

end Xv6
