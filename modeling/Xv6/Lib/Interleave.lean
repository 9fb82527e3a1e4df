import Mathlib.Logic.Relation
import Xv6.Lib.Prog

/-!
# Interleaved programs

Several threads share a state. A thread is a control point, and what it does from there in one go
is a program over the shared state that returns the next control point. A run of the system is any
interleaving of such steps; a step that panics stops the machine and is the end of the run.

Which programs a thread may run from a control point is a relation, so that a thread can choose,
say, the address it touches. A run can be restricted by a condition on the thread that moves and
the configuration it moves in. This is how "the property holds as long as no step is taken in that
window" is said.
-/

namespace Xv6

open Function

/-- Threads `ι` with control points `π` over a shared state `σ`: what a thread may do next. -/
def Threads (ι σ π : Type) : Type := ι → π → Prog σ π → Prop

namespace Threads

variable {ι σ π : Type}

/-- The shared state, and where every thread stands. -/
structure Config (ι σ π : Type) where
  shared : σ
  pc : ι → π

variable [DecidableEq ι]

/-- Thread `i` moves to `p` and leaves the shared state `s`. -/
def Config.move (c : Config ι σ π) (i : ι) (p : π) (s : σ) : Config ι σ π :=
  ⟨s, update c.pc i p⟩

@[simp] theorem Config.move_shared (c : Config ι σ π) (i : ι) (p : π) (s : σ) :
    (c.move i p s).shared = s := rfl

@[simp] theorem Config.move_pc_self (c : Config ι σ π) (i : ι) (p : π) (s : σ) :
    (c.move i p s).pc i = p := by
  simp [move]

theorem Config.move_pc_of_ne (c : Config ι σ π) {i j : ι} (p : π) (s : σ) (h : j ≠ i) :
    (c.move i p s).pc j = c.pc j := by
  simp [move, h]

@[simp] theorem Config.move_move (c : Config ι σ π) (i : ι) (p q : π) (s t : σ) :
    (c.move i p s).move i q t = c.move i q t := by
  simp [move]

/-- One step of thread `i`. -/
inductive Step (m : Threads ι σ π) (i : ι) (c : Config ι σ π) : Config ι σ π → Prop where
  | mk {x : Prog σ π} {p : π} {s : σ} (hact : m i (c.pc i) x)
      (hrun : x c.shared = .ok (p, s)) : Step m i c (c.move i p s)

/-- Thread `i` runs `x`, and `I` holds when it has moved. -/
def Maintains (I : σ → (ι → π) → Prop) (pc : ι → π) (i : ι) (x : Prog σ π) (s : σ) : Prop :=
  Prog.wp x (fun q s' => I s' (update pc i q)) (fun _ => True) s

/-- **What a step keeps**: it is enough to look at what the thread may run. -/
theorem Step.maintains {m : Threads ι σ π} {i : ι} {c c' : Config ι σ π}
    {I : σ → (ι → π) → Prop} (h : m.Step i c c')
    (hact : ∀ x, m i (c.pc i) x → Maintains I c.pc i x c.shared) : I c'.shared c'.pc := by
  obtain ⟨hm, hrun⟩ := h
  exact (Prog.wp_of_ok hrun).mp (hact _ hm)

/-- `c'` is reached from `c` by steps that all meet the condition `P`. -/
def Runs (m : Threads ι σ π) (P : ι → Config ι σ π → Prop) :
    Config ι σ π → Config ι σ π → Prop :=
  Relation.ReflTransGen fun c c' => ∃ i, P i c ∧ m.Step i c c'

section Runs

variable {m : Threads ι σ π} {P : ι → Config ι σ π → Prop} {c c' : Config ι σ π}

/-- **Invariants.** -/
theorem Runs.invariant {I : Config ι σ π → Prop} (h : m.Runs P c c') (hstart : I c)
    (hstep : ∀ i c₁ c₂, I c₁ → P i c₁ → m.Step i c₁ c₂ → I c₂) : I c' := by
  induction h with
  | refl => exact hstart
  | tail _ hlast ih =>
    obtain ⟨i, hP, hs⟩ := hlast
    exact hstep i _ _ ih hP hs

theorem Runs.snoc {i : ι} {x : Prog σ π} {p q : π} {s : σ} (h : m.Runs P c c')
    (hpc : c'.pc i = p) (hact : m i p x) (hP : P i c') (hx : x c'.shared = .ok (q, s)) :
    m.Runs P c (c'.move i q s) := by
  subst hpc
  exact h.tail ⟨i, hP, .mk hact hx⟩

/-- A run that meets a condition meets a weaker one. -/
theorem Runs.mono {P' : ι → Config ι σ π → Prop} (h : m.Runs P c c')
    (hP : ∀ i c, P i c → P' i c) : m.Runs P' c c' :=
  Relation.ReflTransGen.mono (fun _ _ ⟨i, hi, hs⟩ => ⟨i, hP i _ hi, hs⟩) _ _ h

end Runs

end Threads

namespace Prog

variable {σ π : Type}

/-- A thread that takes `n` steps and is not disturbed. -/
def solo (step : π → Prog σ π) : ℕ → π → Prog σ π
  | 0, p => pure p
  | n + 1, p => do
    let q ← step p
    solo step n q

end Prog

/-- A thread that is not disturbed, as a run of the system. -/
theorem Threads.runs_solo {ι σ π : Type} [DecidableEq ι] {m : Threads ι σ π} {i : ι}
    {step : π → Prog σ π} (hstep : ∀ p, m i p (step p) ∨ step p = pure p) :
    ∀ (n : ℕ) {c : Config ι σ π} {q : π} {s : σ},
      Prog.solo step n (c.pc i) c.shared = .ok (q, s) →
      m.Runs (fun _ _ => True) c (c.move i q s) := by
  intro n
  induction n with
  | zero =>
    rintro c q s ⟨⟩
    rw [Config.move, update_eq_self]
    exact .refl
  | succ n ih =>
    intro c q s hrun
    obtain ⟨p, s₁, hfirst, hrest⟩ := Prog.bind_ok_iff.mp hrun
    have hmore := ih (c := c.move i p s₁) (by
      rw [Config.move_pc_self]
      exact hrest)
    rw [Config.move_move] at hmore
    rcases hstep (c.pc i) with hact | hpure
    · exact .head ⟨i, trivial, .mk hact hfirst⟩ hmore
    · rw [hpure] at hfirst
      cases hfirst
      rw [Config.move, update_eq_self] at hmore
      simpa [Config.move] using hmore

end Xv6
