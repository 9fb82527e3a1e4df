import Xv6.Fault

/-!
# The choice of a victim

What the scan of `clock_evict` can do: it clears reference bits, moves the hand, and picks a frame
that is in use. If no frame is in use the scan goes around the table twice and changes nothing at
all, the hand included.
-/

namespace Xv6

open Prog Function

/-- Two frame tables that differ in reference bits only. -/
def SameFrames (ft ft' : Fin maxFrames → FrameEntry) : Prop :=
  ∀ i, ft' i = { ft i with refBit := (ft' i).refBit }

theorem SameFrames.refl (ft : Fin maxFrames → FrameEntry) : SameFrames ft ft := fun _ => rfl

section SameFrames

variable {ft ft' : Fin maxFrames → FrameEntry} (h : SameFrames ft ft') (i : Fin maxFrames)

include h

theorem SameFrames.used : (ft' i).used = (ft i).used := by rw [h i]

theorem SameFrames.pid : (ft' i).pid = (ft i).pid := by rw [h i]

theorem SameFrames.va : (ft' i).va = (ft i).va := by rw [h i]

theorem SameFrames.pa : (ft' i).pa = (ft i).pa := by rw [h i]

theorem SameFrames.clear :
    SameFrames ft (update ft' i { ft' i with refBit := false }) := by
  intro j
  by_cases hj : j = i
  · subst hj
    rw [update_self, h j]
  · rw [update_of_ne hj]
    exact h j

end SameFrames

/-- What holds during the scan of a table. -/
structure ScanOk (ft : Fin maxFrames → FrameEntry) (s : Scan) : Prop where
  frames : SameFrames ft s.ftable
  hand : s.clockHand < maxFrames
  victim : ∀ i, s.victim = some i → (ft i).used = true

section Scan

variable {levelOf : ℤ → ℤ} {ft : Fin maxFrames → FrameEntry} {s : Scan}

theorem clockPass_ok (pass : ℕ) (h : ScanOk ft s) : ScanOk ft (clockPass levelOf pass s).1 := by
  have hhand : (s.clockHand + 1) % maxFrames < maxFrames := Nat.mod_lt _ (by decide)
  simp only [clockPass]
  split_ifs with hu hr hl
  · exact ⟨h.frames, hhand, h.victim⟩
  · exact ⟨h.frames.clear _, hhand, h.victim⟩
  · refine ⟨h.frames, hhand, fun i hi => ?_⟩
    rw [← Option.some.inj hi, ← h.frames.used]
    simpa using hu
  · exact ⟨h.frames, hhand, h.victim⟩

/-- **A scan** of any length, from any pass on. -/
theorem clockScan_ok : ∀ (n pass : ℕ) {s : Scan}, ScanOk ft s → ScanOk ft (clockScan levelOf n pass s)
  | 0, _, _, h => h
  | n + 1, pass, s, h => by
    have hstep : ScanOk ft (clockPass levelOf pass s).1 := clockPass_ok pass h
    rw [clockScan]
    split
    · next s' heq => rw [heq] at hstep; exact hstep
    · next s' heq => rw [heq] at hstep; exact clockScan_ok n (pass + 1) hstep

theorem clockScan_idle (hnone : ∀ i, (ft i).used = false) (v : Option (Fin maxFrames)) (l : ℤ) :
    ∀ (n pass hand : ℕ), hand < maxFrames → clockScan levelOf n pass ⟨ft, hand, v, l⟩
      = ⟨ft, (hand + n) % maxFrames, v, l⟩
  | 0, _, hand, h => by rw [clockScan, Nat.add_zero, Nat.mod_eq_of_lt h]
  | n + 1, pass, hand, _ => by
    have hpass : clockPass levelOf pass ⟨ft, hand, v, l⟩
        = (⟨ft, (hand + 1) % maxFrames, v, l⟩, false) := by
      simp only [clockPass, hnone, Bool.not_false, if_true]
    rw [clockScan, hpass]
    simp only
    rw [clockScan_idle hnone v l n (pass + 1) _ (Nat.mod_lt _ (by decide)), Nat.mod_add_mod,
      Nat.add_assoc, Nat.add_comm 1 n]

end Scan

section Loop

variable (levelOf : ℤ → ℤ) {ft : Fin maxFrames → FrameEntry} {hand : ℕ} (hhand : hand < maxFrames)

include hhand

/-- **The scan of `clock_evict`.** -/
theorem clockLoop_ok : ScanOk ft (clockLoop levelOf ft hand) :=
  clockScan_ok _ _ ⟨.refl ft, hhand, fun _ h => by simp at h⟩

/-- Twice around an unused table is a full turn of the hand. -/
theorem clockLoop_idle (hnone : ∀ i, (ft i).used = false) :
    clockLoop levelOf ft hand = ⟨ft, hand, none, -1⟩ := by
  rw [clockLoop, clockScan_idle hnone none (-1) _ _ _ hhand]
  have hturn : (hand + 2 * maxFrames) % maxFrames = hand := by
    rw [Nat.add_mul_mod_self_right, Nat.mod_eq_of_lt hhand]
  rw [hturn]

theorem clockVictim_used {i : Fin maxFrames}
    (h : clockVictim (clockLoop levelOf ft hand) = some i) : (ft i).used = true := by
  have hok : ScanOk ft (clockLoop levelOf ft hand) := clockLoop_ok levelOf hhand
  unfold clockVictim at h
  split at h
  · next j hj => exact Option.some.inj h ▸ hok.victim j hj
  · rw [← hok.frames.used]
    exact Table.of_first (p := fun i => ((clockLoop levelOf ft hand).ftable i).used) h

theorem clockVictim_eq_none :
    clockVictim (clockLoop levelOf ft hand) = none ↔ ∀ i, (ft i).used = false := by
  have hok : ScanOk ft (clockLoop levelOf ft hand) := clockLoop_ok levelOf hhand
  constructor
  · intro h i
    unfold clockVictim at h
    split at h
    · exact absurd h (by simp)
    · rw [← hok.frames.used]
      exact Table.first_eq_none.mp h i
  · intro h
    rw [clockLoop_idle levelOf hhand h]
    exact Table.first_eq_none.mpr h

end Loop

/-- The frame-table entry that `clock_evict` would choose. -/
def Kernel.victim (k : Kernel) : Option (Fin maxFrames) :=
  clockVictim (clockLoop (mlfqLevelOf k) k.vm.ftable k.vm.clockHand)

theorem Kernel.victim_eq_none {k : Kernel} (h : k.vm.clockHand < maxFrames) :
    k.victim = none ↔ ∀ i, (k.vm.ftable i).used = false :=
  clockVictim_eq_none _ h

theorem Kernel.victim_used {k : Kernel} (h : k.vm.clockHand < maxFrames) {i : Fin maxFrames}
    (hi : k.victim = some i) : (k.vm.ftable i).used = true :=
  clockVictim_used _ h hi

/-- **The first critical section of `clock_evict`.** The victim's entry is free afterwards; the
others keep everything but their reference bits. -/
theorem clockSelect_spec {k : Kernel} (h : k.vm.clockHand < maxFrames) {E : String → Prop}
    {Q : Option FrameEntry → Kernel → Prop}
    (hnone : k.victim = none → Q none k)
    (hsome : ∀ i ft hand, k.victim = some i → SameFrames k.vm.ftable ft → hand < maxFrames →
      Q (some (ft i))
        (k.setVm { k.vm with ftable := update ft i .free, clockHand := hand })) :
    wp clockSelect Q E k := by
  have hok : ScanOk k.vm.ftable (clockLoop (mlfqLevelOf k) k.vm.ftable k.vm.clockHand) :=
    clockLoop_ok (mlfqLevelOf k) h
  simp only [clockSelect, wp_bind, wp_get]
  rw [← Kernel.victim]
  cases hv : k.victim with
  | none =>
    have hidle := clockLoop_idle (mlfqLevelOf k) h ((Kernel.victim_eq_none h).mp hv)
    simp only [wp_bind, wp_modify, wp_pure, hidle]
    exact hnone hv
  | some i =>
    simp only [wp_bind, wp_modify, wp_pure]
    exact hsome i _ _ hv hok.frames hok.hand

/-! ### What the clock sees -/

/-- What the clock sees of the paging state. -/
def Vm.frames (v : Vm) : (Fin maxFrames → FrameEntry) × ℕ := (v.ftable, v.clockHand)

/-- What the clock sees of the kernel. -/
def Kernel.frames (k : Kernel) : (Fin maxFrames → FrameEntry) × ℕ := k.vm.frames

section Frames

variable {α : Type}

theorem leaves_frames {x : Prog Vm α} (h : Leaves Vm.frames x) : Leaves Kernel.frames (onVm x) :=
  fun k => wp_onVm.mpr (h k.vm)

theorem leaves_frames_onKmem (x : Prog Kmem α) : Leaves Kernel.frames (onVm (onKmem x)) :=
  leaves_frames (leaves_zoom (fun _ _ => rfl) x)

theorem leaves_frames_swapOut (page : ℕ) (pid : ℤ) (va : ℕ) :
    Leaves Kernel.frames (onVm (swapOut page pid va)) :=
  leaves_frames (leaves_swapOut (fun _ _ _ => rfl) page pid va)

end Frames

end Xv6
