import Mathlib.Data.Int.ConditionallyCompleteOrder
import Mathlib.Data.List.MinMax
import Xv6.Clock
import Xv6.Lib.Around

/-!
# The victim of the scan

Which frame `clock_evict` takes. The scan goes around the frame table twice. The first turn clears
every reference bit, and among the frames that it finds with a clear bit it remembers the first one
of the highest level. The second turn stops at the first frame in use, whatever was remembered: all
bits are clear by then, and a victim is known.

So the second turn looks at one frame only, `f`. If its level is higher than those of the frames
that were not accessed recently then `f` is the victim, although it may have been accessed recently.
And if all frames were accessed recently then `f` is the victim, although its level need not be the
highest.
-/

namespace Xv6

open Around Prog Function

section Scan

variable (levelOf : ℤ → ℤ) (ft : Fin maxFrames → FrameEntry)

/-- The level of the owner of a frame. -/
def frameLevel (i : Fin maxFrames) : ℤ := levelOf (ft i).pid

/-- The frames in use that were not accessed recently, in the order of a list. -/
def unreferenced (l : List (Fin maxFrames)) : List (Fin maxFrames) :=
  l.filter fun i => (ft i).used && !(ft i).refBit

/-- The table with the reference bits of the frames of a list cleared. -/
def clearRefs (l : List (Fin maxFrames)) : Fin maxFrames → FrameEntry := fun i =>
  if i ∈ l ∧ (ft i).used = true then { ft i with refBit := false } else ft i

/-- The level that goes with a victim; -1 goes with none. -/
def victimLevel (v : Option (Fin maxFrames)) : ℤ := v.elim (-1) (frameLevel levelOf ft)

/-- The variables of the scan in the first turn, after the frames of a list. -/
noncomputable def firstTurn (l : List (Fin maxFrames)) (a : Fin maxFrames) : Scan where
  ftable := clearRefs ft l
  clockHand := a
  victim := (unreferenced ft l).argmax (frameLevel levelOf ft)
  level := victimLevel levelOf ft ((unreferenced ft l).argmax (frameLevel levelOf ft))

/-- The victim: the first frame of the highest level that was not accessed recently, or `f` if there
is none, or if the level of `f` is higher. -/
noncomputable def clockChoice (f : Fin maxFrames) (S : List (Fin maxFrames)) : Fin maxFrames :=
  match S.argmax (frameLevel levelOf ft) with
  | none => f
  | some v => if frameLevel levelOf ft v < frameLevel levelOf ft f then f else v

variable {levelOf ft} {a f : Fin maxFrames} {l : List (Fin maxFrames)}

theorem handIdx_val (a : Fin maxFrames) : handIdx a = a := by
  apply Fin.ext
  exact Nat.mod_eq_of_lt a.isLt

theorem clearRefs_nil : clearRefs ft [] = ft := by
  funext i
  simp [clearRefs]

theorem clearRefs_of_notMem {i : Fin maxFrames} (h : i ∉ l) : clearRefs ft l i = ft i := by
  simp [clearRefs, h]

theorem clearRefs_used (i : Fin maxFrames) : (clearRefs ft l i).used = (ft i).used := by
  unfold clearRefs
  split_ifs <;> rfl

theorem clearRefs_pid (i : Fin maxFrames) : (clearRefs ft l i).pid = (ft i).pid := by
  unfold clearRefs
  split_ifs <;> rfl

/-- A frame that is not in use, or whose bit is clear already. -/
theorem clearRefs_concat_of_eq (h : (ft a).used = true → (ft a).refBit = false) :
    clearRefs ft (l ++ [a]) = clearRefs ft l := by
  funext i
  unfold clearRefs
  by_cases hi : i = a
  · subst hi
    by_cases hu : (ft i).used = true
    · have hself : ({ ft i with refBit := false } : FrameEntry) = ft i := by
        rw [← h hu]
      rw [if_pos ⟨List.mem_append_right l List.mem_cons_self, hu⟩, hself, ite_self]
    · simp [hu]
  · simp [hi]

theorem clearRefs_concat (hu : (ft a).used = true) :
    clearRefs ft (l ++ [a]) = update (clearRefs ft l) a { ft a with refBit := false } := by
  funext i
  by_cases hi : i = a
  · subst hi
    rw [update_self]
    simp [clearRefs, hu]
  · rw [update_of_ne hi]
    simp [clearRefs, hi]

theorem unreferenced_concat : unreferenced ft (l ++ [a])
    = if (ft a).used && !(ft a).refBit then unreferenced ft l ++ [a] else unreferenced ft l := by
  rw [unreferenced, List.filter_append, List.filter_cons, List.filter_nil]
  split_ifs
  · rfl
  · rw [List.append_nil]
    rfl

section Levels

variable (hlevel : ∀ i, (ft i).used = true → 0 ≤ frameLevel levelOf ft i)

include hlevel

/-- **One pass of the first turn.** -/
theorem clockPass_firstTurn (ha : a ∉ l) {pass : ℕ} (hpass : pass < maxFrames) :
    clockPass levelOf pass (firstTurn levelOf ft l a)
      = (firstTurn levelOf ft (l ++ [a]) (next a), false) := by
  have hentry : clearRefs ft l a = ft a := clearRefs_of_notMem ha
  have hstop : decide (maxFrames ≤ pass) = false := decide_eq_false (not_le.mpr hpass)
  simp only [clockPass, firstTurn, handIdx_val, hentry, unreferenced_concat, hstop]
  cases hu : (ft a).used with
  | false =>
    rw [clearRefs_concat_of_eq fun h => by cases hu.symm.trans h]
    simp [next]
  | true =>
    cases hr : (ft a).refBit with
    | true =>
      rw [clearRefs_concat hu]
      simp [next, hu]
    | false =>
      rw [clearRefs_concat_of_eq fun _ => hr]
      have hnonneg : (-1 : ℤ) < levelOf (ft a).pid :=
        lt_of_lt_of_le (by decide) (hlevel a hu)
      simp only [Bool.not_false, Bool.and_self, if_true, List.argmax_concat]
      cases hbest : (unreferenced ft l).argmax (frameLevel levelOf ft) with
      | none => simp [victimLevel, frameLevel, hnonneg, next]
      | some v =>
        by_cases hlt : frameLevel levelOf ft v < frameLevel levelOf ft a
        · have hlt' : levelOf (ft v).pid < levelOf (ft a).pid := hlt
          simp [victimLevel, frameLevel, hlt', next]
        · have hlt' : ¬levelOf (ft v).pid < levelOf (ft a).pid := hlt
          simp [victimLevel, frameLevel, hlt', next]

/-- **The first turn.** -/
theorem clockScan_firstTurn {m : List (Fin maxFrames)} : ∀ {l : List (Fin maxFrames)}
    {a b : Fin maxFrames} (pass n : ℕ), Walk a m b → (l ++ m).Nodup → pass + m.length ≤ maxFrames →
    clockScan levelOf (m.length + n) pass (firstTurn levelOf ft l a)
      = clockScan levelOf n (pass + m.length) (firstTurn levelOf ft (l ++ m) b) := by
  induction m with
  | nil =>
    intro l a b pass n hwalk _ _
    rw [show a = b from hwalk]
    simp
  | cons x m ih =>
    intro l a b pass n hwalk hnodup hpass
    obtain ⟨rfl, hwalk⟩ := hwalk
    have hx : x ∉ l := fun hmem => (List.nodup_append.mp hnodup).2.2 x hmem x (by simp) rfl
    rw [List.length_cons] at hpass
    have hmore := ih (l := l ++ [x]) (pass + 1) n hwalk (by simpa using hnodup)
      (by omega)
    rw [List.length_cons, show m.length + 1 + n = m.length + n + 1 by omega, clockScan,
      clockPass_firstTurn hlevel hx (by omega)]
    simp only
    rw [hmore, show pass + 1 + m.length = pass + (m.length + 1) by omega, List.append_assoc,
      List.singleton_append]

/-- **The second turn** stops at the first frame in use. -/
theorem clockScan_secondTurn {v : Option (Fin maxFrames)} {m : List (Fin maxFrames)} :
    ∀ {a b : Fin maxFrames} (pass n : ℕ), Walk a m b → maxFrames ≤ pass → m.length ≤ n →
    m.find? (fun i => (ft i).used) = some f →
    (∀ i, (clearRefs ft l i).used = true → (clearRefs ft l i).refBit = false) →
    ∃ lvl, clockScan levelOf n pass ⟨clearRefs ft l, a, v, victimLevel levelOf ft v⟩
      = ⟨clearRefs ft l, next f,
          if victimLevel levelOf ft v < frameLevel levelOf ft f then some f else v, lvl⟩ := by
  induction m with
  | nil =>
    intro a b pass n _ _ _ hfind
    exact absurd hfind (by simp)
  | cons x m ih =>
    intro a b pass n hwalk hpass hn hfind hclear
    obtain ⟨rfl, hwalk⟩ := hwalk
    rw [List.length_cons] at hn
    obtain ⟨n, rfl⟩ : ∃ n', n = n' + 1 := ⟨n - 1, by omega⟩
    rw [clockScan]
    rw [List.find?_cons] at hfind
    cases hu : (ft x).used with
    | false =>
      rw [hu] at hfind
      have hstep : clockPass levelOf pass ⟨clearRefs ft l, x, v, victimLevel levelOf ft v⟩
          = (⟨clearRefs ft l, next x, v, victimLevel levelOf ft v⟩, false) := by
        simp [clockPass, handIdx_val, clearRefs_used, hu, next]
      rw [hstep]
      exact ih _ _ hwalk (by omega) (by omega) hfind hclear
    | true =>
      rw [hu] at hfind
      obtain rfl : x = f := Option.some.inj hfind
      have hbit : (clearRefs ft l x).refBit = false :=
        hclear x (by rw [clearRefs_used, hu])
      have hnonneg : (-1 : ℤ) < levelOf (ft x).pid :=
        lt_of_lt_of_le (by decide) (hlevel x hu)
      have hstop : decide (maxFrames ≤ pass) = true := decide_eq_true hpass
      by_cases hlt : victimLevel levelOf ft v < levelOf (ft x).pid
      · refine ⟨levelOf (ft x).pid, ?_⟩
        simp [clockPass, handIdx_val, clearRefs_used, clearRefs_pid, hu, hbit, next, hlt, hstop,
          frameLevel]
      · -- a victim is known, since its level is not -1
        obtain ⟨w, rfl⟩ : ∃ w, v = some w := by
          refine Option.ne_none_iff_exists'.mp fun hv => ?_
          rw [hv] at hlt
          exact hlt hnonneg
        refine ⟨victimLevel levelOf ft (some w), ?_⟩
        simp [clockPass, handIdx_val, clearRefs_used, clearRefs_pid, hu, hbit, next, hlt, hstop,
          frameLevel]

variable (levelOf) in
/-- **The outcome of the scan.** -/
theorem clockLoop_eq (hf : (turn a).find? (fun i => (ft i).used) = some f) :
    ∃ lvl, clockLoop levelOf ft a = ⟨clearRefs ft (turn a), next f,
      some (clockChoice levelOf ft f (unreferenced ft (turn a))), lvl⟩ := by
  have hstart : (⟨ft, a, none, -1⟩ : Scan) = firstTurn levelOf ft [] a := by
    rw [firstTurn, clearRefs_nil]
    rfl
  have hlen : (turn a).length = maxFrames := length_turn a
  have hfirst := clockScan_firstTurn (l := []) hlevel 0 maxFrames (walk_turn a)
    (nodup_turn a) (by rw [hlen, Nat.zero_add])
  have hclear : ∀ i, (clearRefs ft (turn a) i).used = true →
      (clearRefs ft (turn a) i).refBit = false := by
    intro i hu
    rw [clearRefs_used] at hu
    simp [clearRefs, hu, mem_turn]
  obtain ⟨lvl, hsecond⟩ := clockScan_secondTurn (l := turn a)
    (v := (unreferenced ft (turn a)).argmax (frameLevel levelOf ft)) hlevel maxFrames maxFrames
    (walk_turn a) le_rfl hlen.le hf hclear
  refine ⟨lvl, ?_⟩
  rw [clockLoop, Nat.two_mul, hstart]
  rw [hlen, Nat.zero_add, List.nil_append] at hfirst
  rw [hfirst, firstTurn, hsecond, clockChoice]
  cases hbest : (unreferenced ft (turn a)).argmax (frameLevel levelOf ft) with
  | none =>
    have hu : (ft f).used = true := List.find?_some (p := fun i => (ft i).used) hf
    have hnonneg : (-1 : ℤ) < frameLevel levelOf ft f := lt_of_lt_of_le (by decide) (hlevel f hu)
    rw [victimLevel, Option.elim_none, if_pos hnonneg]
  | some v =>
    rw [victimLevel, Option.elim_some]
    by_cases hlt : frameLevel levelOf ft v < frameLevel levelOf ft f
    · simp only [if_pos hlt]
    · simp only [if_neg hlt]

end Levels

theorem argmax_of_mem {v : Fin maxFrames} {S : List (Fin maxFrames)}
    (h : S.argmax (frameLevel levelOf ft) = some v) :
    v ∈ S ∧ ∀ s ∈ S, frameLevel levelOf ft s ≤ frameLevel levelOf ft v :=
  ⟨List.argmax_mem h, fun _ hs => List.le_of_mem_argmax hs h⟩

theorem clockChoice_of_lt {S : List (Fin maxFrames)}
    (h : ∀ s ∈ S, frameLevel levelOf ft s < frameLevel levelOf ft f) :
    clockChoice levelOf ft f S = f := by
  unfold clockChoice
  cases hbest : S.argmax (frameLevel levelOf ft) with
  | none => rfl
  | some v => exact if_pos (h v (argmax_of_mem hbest).1)

theorem argmax_of_le {S : List (Fin maxFrames)}
    (h : ∃ s ∈ S, frameLevel levelOf ft f ≤ frameLevel levelOf ft s) :
    S.argmax (frameLevel levelOf ft) = some (clockChoice levelOf ft f S) := by
  obtain ⟨s, hs, hle⟩ := h
  unfold clockChoice
  cases hbest : S.argmax (frameLevel levelOf ft) with
  | none =>
    rw [List.argmax_eq_none.mp hbest] at hs
    exact absurd hs List.not_mem_nil
  | some v =>
    exact congrArg some (if_neg (not_lt.mpr (hle.trans ((argmax_of_mem hbest).2 s hs)))).symm

theorem mem_unreferenced {i : Fin maxFrames} :
    i ∈ unreferenced ft (turn a) ↔ (ft i).used = true ∧ (ft i).refBit = false := by
  simp [unreferenced, mem_turn]

end Scan

/-! ### `clock_evict` -/

/-- The frame table in circular order, from the hand on. -/
def Kernel.fromHand (k : Kernel) : List (Fin maxFrames) := turn (handIdx k.vm.clockHand)

/-- The level of the owner of a frame. -/
def Kernel.levelAt (k : Kernel) : Fin maxFrames → ℤ := frameLevel (mlfqLevelOf k) k.vm.ftable

/-- The frames in use that were not accessed recently, in circular order from the hand on. -/
def Kernel.unreferenced (k : Kernel) : List (Fin maxFrames) :=
  Xv6.unreferenced k.vm.ftable k.fromHand

/-- **The outcome of the scan**: `f` is the first frame in use and `v` is the victim. The scan finds
the victim itself, without the search for any frame in use that follows it. `List.argmax` is the
first element of the highest level. -/
structure Kernel.Outcome (k : Kernel) (f v : Fin maxFrames) (k' : Kernel) : Prop where
  first : k.fromHand.find? (fun i => (k.vm.ftable i).used) = some f
  found : (clockLoop (mlfqLevelOf k) k.vm.ftable k.vm.clockHand).victim = some v
  choice : (∀ s ∈ k.unreferenced, k.levelAt s < k.levelAt f) ∧ v = f ∨
    (∃ s ∈ k.unreferenced, k.levelAt f ≤ k.levelAt s) ∧ k.unreferenced.argmax k.levelAt = some v
  hand : k'.vm.clockHand = (f + 1) % maxFrames
  evicted : k'.vm.ftable v = .free
  survivors : ∀ i, i ≠ v → (k.vm.ftable i).used = true →
    k'.vm.ftable i = { k.vm.ftable i with refBit := false }
  unused : ∀ i, (k.vm.ftable i).used = false → k'.vm.ftable i = k.vm.ftable i

section Evict

variable {k k' : Kernel} {f v : Fin maxFrames} {α : Type}

theorem Kernel.Outcome.congr {k₁ : Kernel} (h : k.Outcome f v k₁) (heq : k'.frames = k₁.frames) :
    k.Outcome f v k' := by
  obtain ⟨hft, hhand⟩ := Prod.mk.inj heq
  exact ⟨h.first, h.found, h.choice, hhand.trans h.hand, hft ▸ h.evicted, hft ▸ h.survivors,
    hft ▸ h.unused⟩

theorem wp_kfree_ne_zero (pa : ℕ) (s : Kmem) :
    wp (kfree pa) (fun _ _ => pa ≠ 0) (fun _ => True) s := by
  rw [kfree, wp_bind, wp_get]
  split_ifs with hbad
  · trivial
  · have hkend := s.sym.kernbase_le_kend
    have hbase : 0 < kernbase := by decide
    rintro rfl
    exact hbad (Or.inr (Or.inl (by omega)))

/-- What `clock_evict` does after its first critical section: it leaves the frame table and the hand
alone, and if it returns then not 0. -/
theorem clockEvict_of_select {saved : FrameEntry} {k₁ : Kernel}
    (hselect : clockSelect k = .ok (some saved, k₁)) :
    wp clockEvict (fun r k' => r ≠ 0 ∧ k'.frames = k₁.frames) (fun _ => True) k := by
  rw [clockEvict, wp_bind, wp_of_ok hselect]
  refine wp_seq (leaves_frames_swapOut saved.pa saved.pid saved.va k₁) fun slot k₂ h₂ => ?_
  cases slot with
  | none => trivial
  | some slot =>
    refine wp_seq (leaves_evictRewrite leaves_frames_onKmem
      (fun _ => leaves_modify fun _ => rfl) saved slot k₂) fun _ k₃ h₃ => ?_
    rw [wp_bind]
    have hfree : wp (onVm (onKmem (kfree saved.pa))) (fun _ _ => saved.pa ≠ 0)
        (fun _ => True) k₃ := by
      rw [wp_onVm, wp_onKmem]
      exact wp_kfree_ne_zero saved.pa _
    refine wp_mono (wp_and hfree (leaves_frames_onKmem _ k₃)) ?_ fun _ _ => trivial
    rintro _ k₄ ⟨hne, h₄⟩
    exact ⟨hne, h₄.trans (h₃.trans h₂)⟩

section Outcome

variable (hhand : k.vm.clockHand < maxFrames)
  (hlevel : ∀ i, (k.vm.ftable i).used = true → 0 ≤ k.levelAt i)

include hhand hlevel

/-- **The first critical section.** -/
theorem clockSelect_outcome (hf : k.fromHand.find? (fun i => (k.vm.ftable i).used) = some f) :
    ∃ v saved k₁, clockSelect k = .ok (some saved, k₁) ∧ k.Outcome f v k₁ := by
  have hidx : (handIdx k.vm.clockHand : ℕ) = k.vm.clockHand := Nat.mod_eq_of_lt hhand
  obtain ⟨lvl, hloop⟩ := clockLoop_eq (mlfqLevelOf k) hlevel hf
  rw [hidx] at hloop
  set v : Fin maxFrames := clockChoice (mlfqLevelOf k) k.vm.ftable f k.unreferenced with hv
  have hselect : clockSelect k = .ok (some (clearRefs k.vm.ftable k.fromHand v),
      k.setVm { k.vm with
        ftable := update (clearRefs k.vm.ftable k.fromHand) v .free
        clockHand := next f }) := by
    refine bind_ok_iff.mpr ⟨k, k, rfl, ?_⟩
    dsimp only
    rw [hloop]
    rfl
  refine ⟨v, _, _, hselect, hf, by rw [hloop]; rfl, ?_, rfl, ?_, fun i hi hu => ?_, fun i hu => ?_⟩
  · by_cases hlt : ∀ s ∈ k.unreferenced, k.levelAt s < k.levelAt f
    · exact Or.inl ⟨hlt, clockChoice_of_lt hlt⟩
    · push Not at hlt
      exact Or.inr ⟨hlt, argmax_of_le hlt⟩
  · exact update_self v _ (clearRefs k.vm.ftable k.fromHand)
  · have hclear : clearRefs k.vm.ftable k.fromHand i = { k.vm.ftable i with refBit := false } :=
      if_pos ⟨mem_turn _ i, hu⟩
    exact (update_of_ne hi _ _).trans hclear
  · have hclear : clearRefs k.vm.ftable k.fromHand i = k.vm.ftable i :=
      if_neg fun h => absurd (hu.symm.trans h.2) Bool.false_ne_true
    have hvu : (k.vm.ftable v).used = true := by
      refine (clockLoop_ok (mlfqLevelOf k) hhand).victim v ?_
      rw [hloop]
      rfl
    have hi : i ≠ v := by
      rintro rfl
      nomatch hu.symm.trans hvu
    exact (update_of_ne hi _ _).trans hclear

/-- **The outcome of `clock_evict`**, for every frame table, hand and levels. It returns 0 iff no
frame is in use; otherwise its first critical section, which always comes to an end, decides on the
victim, and what follows touches neither the frame table nor the hand. -/
theorem Kernel.clock_outcome :
    ((∃ k', clockEvict k = .ok (0, k')) ↔ ∀ i, (k.vm.ftable i).used = false) ∧
    ((∃ i, (k.vm.ftable i).used = true) → ∃ f v saved k₁,
      clockSelect k = .ok (some saved, k₁) ∧ k.Outcome f v k₁ ∧
      ∀ r k', clockEvict k = .ok (r, k') → k.Outcome f v k') := by
  have hsome : (∃ i, (k.vm.ftable i).used = true) → ∃ f v saved k₁,
      clockSelect k = .ok (some saved, k₁) ∧ k.Outcome f v k₁ := by
    rintro ⟨i, hi⟩
    obtain ⟨f, hf⟩ : ∃ f, k.fromHand.find? (fun i => (k.vm.ftable i).used) = some f :=
      Option.isSome_iff_exists.mp (List.find?_isSome.mpr ⟨i, mem_turn _ i, hi⟩)
    obtain ⟨v, saved, k₁, hselect, hout⟩ := clockSelect_outcome hhand hlevel hf
    exact ⟨f, v, saved, k₁, hselect, hout⟩
  refine ⟨⟨?_, fun hnone => ⟨k, ?_⟩⟩, fun hused => ?_⟩
  · rintro ⟨k', hrun⟩
    by_contra hused
    obtain ⟨i, hi⟩ := not_forall.mp hused
    obtain ⟨f, v, saved, k₁, hselect, -⟩ := hsome ⟨i, Bool.eq_true_of_not_eq_false hi⟩
    exact (wp_ok (clockEvict_of_select hselect) hrun).1 rfl
  · have hwp : wp clockEvict (fun r k' => r = 0 ∧ k' = k) (fun _ => False) k := by
      rw [clockEvict, wp_bind]
      refine clockSelect_spec hhand (fun _ => ⟨rfl, rfl⟩) fun i ft hand hv => ?_
      exact absurd ((Kernel.victim_eq_none hhand).mpr hnone) (by rw [hv]; simp)
    obtain ⟨r, k', hrun, rfl, rfl⟩ := exists_of_wp hwp
    exact hrun
  · obtain ⟨f, v, saved, k₁, hselect, hout⟩ := hsome hused
    exact ⟨f, v, saved, k₁, hselect, hout, fun r k' hrun =>
      hout.congr (wp_ok (clockEvict_of_select hselect) hrun).2⟩

end Outcome

end Evict

/-! ### Second chances -/

/-- The victim that the replacement policy asks for: one that was not accessed recently, if there is
any, and of the highest level among those; of the highest level of all otherwise. -/
structure FairVictim (levelOf : ℤ → ℤ) (ft : Fin maxFrames → FrameEntry) (v : Fin maxFrames) :
    Prop where
  secondChance : (∃ i, (ft i).used = true ∧ (ft i).refBit = false) →
    (ft v).used = true ∧ (ft v).refBit = false ∧ ∀ i, (ft i).used = true → (ft i).refBit = false →
      levelOf (ft i).pid ≤ levelOf (ft v).pid
  highest : (∀ i, (ft i).used = true → (ft i).refBit = true) →
    ∀ i, (ft i).used = true → levelOf (ft i).pid ≤ levelOf (ft v).pid

section Fair

variable {levelOf : ℤ → ℤ} {ft : Fin maxFrames → FrameEntry} {a f v : Fin maxFrames}

/-- **The victim is the one that the policy asks for** iff the first frame in use from the hand on
does not have a higher level than all frames that were not accessed recently, and has the highest
level if there are none. -/
theorem clock_second_chance (hlevel : ∀ i, (ft i).used = true → 0 ≤ levelOf (ft i).pid)
    (hf : (turn a).find? (fun i => (ft i).used) = some f)
    (hv : clockVictim (clockLoop levelOf ft a) = some v) :
    FairVictim levelOf ft v ↔
      ((∃ i, (ft i).used = true ∧ (ft i).refBit = false) →
        ∃ i, (ft i).used = true ∧ (ft i).refBit = false ∧
          levelOf (ft f).pid ≤ levelOf (ft i).pid) ∧
      ((∀ i, (ft i).used = true → (ft i).refBit = true) →
        ∀ i, (ft i).used = true → levelOf (ft i).pid ≤ levelOf (ft f).pid) := by
  have hfused : (ft f).used = true := List.find?_some (p := fun i => (ft i).used) hf
  obtain ⟨lvl, hloop⟩ := clockLoop_eq levelOf hlevel hf
  rw [hloop] at hv
  obtain rfl : clockChoice levelOf ft f (unreferenced ft (turn a)) = v := Option.some.inj hv
  by_cases hS : ∃ i, (ft i).used = true ∧ (ft i).refBit = false
  · have hsome : ¬∀ i, (ft i).used = true → (ft i).refBit = true := by
      obtain ⟨i, hu, hr⟩ := hS
      intro hall
      nomatch (hr.symm.trans (hall i hu))
    constructor
    · rintro ⟨hchance, -⟩
      refine ⟨fun _ => ?_, fun hall => absurd hall hsome⟩
      obtain ⟨hu, hr, hbest⟩ := hchance hS
      by_contra hnone
      push Not at hnone
      -- the level of `f` is the higher one, so `f` is the victim
      have hlt : ∀ s ∈ unreferenced ft (turn a), frameLevel levelOf ft s < frameLevel levelOf ft f :=
        fun s hs => hnone s (mem_unreferenced.mp hs).1 (mem_unreferenced.mp hs).2
      rw [clockChoice_of_lt hlt] at hu hr
      exact lt_irrefl _ (hnone f hu hr)
    · rintro ⟨hle, -⟩
      refine ⟨fun _ => ?_, fun hall => absurd hall hsome⟩
      obtain ⟨i, hu, hr, hi⟩ := hle hS
      have hmax := argmax_of_mem (argmax_of_le (f := f)
        (S := unreferenced ft (turn a)) ⟨i, mem_unreferenced.mpr ⟨hu, hr⟩, hi⟩)
      obtain ⟨hvu, hvr⟩ := mem_unreferenced.mp hmax.1
      exact ⟨hvu, hvr, fun j hju hjr => hmax.2 j (mem_unreferenced.mpr ⟨hju, hjr⟩)⟩
  · have hempty : ∀ s ∈ unreferenced ft (turn a),
        frameLevel levelOf ft s < frameLevel levelOf ft f :=
      fun s hs => absurd ⟨s, mem_unreferenced.mp hs⟩ hS
    rw [clockChoice_of_lt hempty]
    constructor
    · rintro ⟨-, hhigh⟩
      exact ⟨fun h => absurd h hS, hhigh⟩
    · rintro ⟨-, hhigh⟩
      exact ⟨fun h => absurd h hS, hhigh⟩

end Fair

/-! ### Two frames -/

/-- The first entry of the frame table. -/
def firstFrame : Fin maxFrames := ⟨0, by decide⟩

/-- Two frames in use: the first one was accessed recently and belongs to process 1, the second one
was not and belongs to process 2. -/
def twoFrames (i : Fin maxFrames) : FrameEntry :=
  if i = firstFrame then ⟨true, 1, 0, kernbase, true, -1⟩
  else if i = next firstFrame then ⟨true, 2, 0, kernbase + pgsize, false, -1⟩
  else .free

/-- Process 1 is at level 3, all others are at level 0. -/
def twoLevels (pid : ℤ) : ℤ := if pid = 1 then 3 else 0

theorem twoLevels_nonneg (pid : ℤ) : 0 ≤ twoLevels pid := by
  unfold twoLevels
  split_ifs <;> decide

theorem twoFrames_first :
    (turn firstFrame).find? (fun i => (twoFrames i).used) = some firstFrame := by
  rw [turn_eq, List.find?_cons]
  rfl

/-- If both processes are at the same level the second frame is taken, as it should be. -/
theorem clock_second_chance_two : ∃ v,
    clockVictim (clockLoop (fun _ => 0) twoFrames firstFrame) = some v ∧
    FairVictim (fun _ => 0) twoFrames v := by
  obtain ⟨lvl, hloop⟩ := clockLoop_eq (fun _ => 0) (fun _ _ => le_rfl) twoFrames_first
  have hv : clockVictim (clockLoop (fun _ => 0) twoFrames firstFrame) = some (clockChoice
      (fun _ => 0) twoFrames firstFrame (unreferenced twoFrames (turn firstFrame))) := by
    rw [hloop]
    rfl
  refine ⟨_, hv, (clock_second_chance (fun _ _ => le_rfl) twoFrames_first hv).mpr
    ⟨fun _ => ⟨next firstFrame, by decide, by decide, le_rfl⟩, fun _ _ _ => le_rfl⟩⟩

/-- **A frame that was accessed recently is evicted** although there is one that was not: the second
turn comes to it first, and its level is the higher one. -/
theorem referenced_frame_evicted : ¬∀ (levelOf : ℤ → ℤ) (ft : Fin maxFrames → FrameEntry)
    (a v : Fin maxFrames), (∀ pid, 0 ≤ levelOf pid) →
    clockVictim (clockLoop levelOf ft a) = some v → FairVictim levelOf ft v := by
  intro hall
  obtain ⟨lvl, hloop⟩ := clockLoop_eq twoLevels (fun _ _ => twoLevels_nonneg _)
    twoFrames_first
  have hlt : ∀ s ∈ unreferenced twoFrames (turn firstFrame),
      frameLevel twoLevels twoFrames s < frameLevel twoLevels twoFrames firstFrame := by
    have hdec : ∀ i, (twoFrames i).used = true → (twoFrames i).refBit = false →
        frameLevel twoLevels twoFrames i < frameLevel twoLevels twoFrames firstFrame := by
      decide
    exact fun s hs => hdec s (mem_unreferenced.mp hs).1 (mem_unreferenced.mp hs).2
  have hv : clockVictim (clockLoop twoLevels twoFrames firstFrame) = some firstFrame := by
    rw [hloop, clockChoice_of_lt hlt]
    rfl
  have hchance := (hall _ _ _ _ twoLevels_nonneg hv).secondChance
    ⟨next firstFrame, by decide, by decide⟩
  exact absurd hchance.2.1 (by decide)

/-- A kernel with these two frames. -/
def Kernel.twoFrames : Kernel where
  vm :=
    { kmem := ⟨.small, fun _ => fill 0, [], false⟩
      ftable := Xv6.twoFrames
      clockHand := 0
      swapArea := fun _ => ⟨false, -1, 0, fill 0⟩
      lost := false
      uncounted := fun _ => 0 }
  proc := fun _ => .empty
  nextpid := 1
  initproc := none
  file := fun _ => ⟨.none, 0, false, false, 0⟩
  pipe := fun _ => ⟨false, false⟩
  bootPages := 0
  created := 0

theorem clock_outcome_two : (¬∃ k', clockEvict Kernel.twoFrames = .ok (0, k')) ∧
    ∃ f v saved k₁, clockSelect Kernel.twoFrames = .ok (some saved, k₁) ∧
      Kernel.twoFrames.Outcome f v k₁ := by
  have hlevel : ∀ i, (Kernel.twoFrames.vm.ftable i).used = true →
      0 ≤ Kernel.twoFrames.levelAt i := by
    intro i _
    change 0 ≤ (findProc Kernel.twoFrames _).elim 0 fun i => (Kernel.twoFrames.proc i).mlfqLevel
    cases findProc Kernel.twoFrames _ with
    | none => exact le_rfl
    | some i => exact le_rfl
  obtain ⟨hzero, hout⟩ := Kernel.clock_outcome (k := Kernel.twoFrames) (by decide) hlevel
  refine ⟨fun h => ?_, ?_⟩
  · exact absurd (hzero.mp h firstFrame) (by decide)
  · obtain ⟨f, v, saved, k₁, hselect, hk₁, -⟩ := hout ⟨firstFrame, by decide⟩
    exact ⟨f, v, saved, k₁, hselect, hk₁⟩

end Xv6
