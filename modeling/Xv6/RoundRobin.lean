import Xv6.Lib.Around
import Xv6.Sched

/-!
# Round robin

Within a level the scheduler goes around the process table: the scan of a level starts after the
process that was run last at that level and takes the first one that is runnable. So as long as the
same processes are runnable at the level whenever it is scanned, they are run in turn.

What the other CPUs, the interrupts and the running processes do to the process table in the
meantime does not matter, and is not restricted here. All that is asked is what a scan of the level
finds.
-/

namespace Xv6

open Around

theorem scanTable_eq (task : Fin nproc → Task) (l : Fin 4) {m : List (Fin nproc)} :
    ∀ {a b : Fin nproc}, Walk a m b →
      scanTable task l m.length a = m.find? fun i => decide ((task i).ReadyAt l) := by
  induction m with
  | nil => intro a b _; rfl
  | cons x m ih =>
    rintro a b ⟨rfl, hwalk⟩
    rw [List.length_cons, scanTable, List.find?_cons, ← ih hwalk]
    by_cases hready : (task x).ReadyAt l
    · rw [decide_eq_true hready]
      exact if_pos hready
    · rw [decide_eq_false hready]
      exact if_neg hready

/-- **The scan of a level** goes once around the table. -/
theorem scanLevel_eq (c : Cpu) (l : Fin 4) :
    c.scanLevel l = (members (fun i => decide ((c.task i).ReadyAt l)) (c.lastIdx l)).head? := by
  have hscan := scanTable_eq c.task l (walk_turn (next (c.lastIdx l)))
  rw [length_turn] at hscan
  rw [members, List.head?_filter]
  exact hscan

/-! ### Runs -/

/-- A dispatch: the CPU just before it, and what it has found. -/
structure Dispatch where
  cpu : Cpu
  level : Fin 4
  proc : Fin nproc

/-- **A step of a CPU in its scheduler.** Between its own steps the process table changes in any
way. -/
inductive Cpu.Move (c : Cpu) : Option Dispatch → Cpu → Prop where
  | dispatch {l : Fin 4} {i : Fin nproc} (hidle : c.running = none) (h : c.pick = some (l, i)) :
      Move c (some ⟨c, l, i⟩) (c.dispatch l i)
  | rewind (hidle : c.running = none) (h : c.pick = none) : Move c none { c with level := 0 }
  | back : Move c none { c with running := none }
  | others (task : Fin nproc → Task) : Move c none { c with task := task }

/-- A run, with the dispatches that were made in it. -/
inductive Cpu.Run : Cpu → List Dispatch → Cpu → Prop where
  | refl (c : Cpu) : Run c [] c
  | head {c c₁ c' : Cpu} {d : Option Dispatch} {ds : List Dispatch} (hmove : c.Move d c₁)
      (hrest : Run c₁ ds c') : Run c (d.toList ++ ds) c'

/-- The processes that were run at a level, in order. -/
def visitsAt (l : Fin 4) (ds : List Dispatch) : List (Fin nproc) :=
  (ds.filter (·.level = l)).map (·.proc)

/-- The processes that a scan of the level would find are those of `S`. -/
def Dispatch.Offers (d : Dispatch) (S : Finset (Fin nproc)) : Prop :=
  ∀ i, (d.cpu.task i).ReadyAt d.level ↔ i ∈ S

section Rounds

variable {l : Fin 4} {S : Finset (Fin nproc)}

/-- The members of a set in circular order, from the entry after `a` on. -/
def slotOrder (S : Finset (Fin nproc)) (a : Fin nproc) : List (Fin nproc) :=
  members (fun i => decide (i ∈ S)) a

theorem nodup_slotOrder (a : Fin nproc) : (slotOrder S a).Nodup := (nodup_turn _).filter _

theorem toFinset_slotOrder (a : Fin nproc) : (slotOrder S a).toFinset = S := by
  ext i
  simp [slotOrder, members, mem_turn]

theorem length_slotOrder (a : Fin nproc) : (slotOrder S a).length = S.card := by
  rw [← List.toFinset_card_of_nodup (nodup_slotOrder a), toFinset_slotOrder]

/-- A dispatch at a level runs the next member of the set. -/
theorem head_slotOrder {c : Cpu} {i : Fin nproc} (h : c.pick = some (l, i))
    (hS : Dispatch.Offers ⟨c, l, i⟩ S) : (slotOrder S (c.lastIdx l)).head? = some i := by
  have hscan := scanLevel_of_pick h
  have hsame : (fun i => decide ((c.task i).ReadyAt l)) = fun i => decide (i ∈ S) := by
    funext j
    exact decide_eq_decide.mpr (hS j)
  rw [scanLevel_eq, hsame] at hscan
  exact hscan

/-- **A run** goes round and round the set. -/
theorem Cpu.Run.rounds {c c' : Cpu} {ds : List Dispatch} (h : c.Run ds c')
    (hS : ∀ d ∈ ds, d.level = l → d.Offers S) :
    Rounds (slotOrder S (c.lastIdx l)) (visitsAt l ds) := by
  induction h with
  | refl c => exact rounds_nil
  | @head c c₁ c' d ds hmove hrest ih =>
    have hrounds := ih fun d hd => hS d (List.mem_append_right _ hd)
    cases hmove with
    | @dispatch m i hidle hpick =>
      by_cases hm : m = l
      · subst hm
        have hhead := head_slotOrder hpick (hS _ (by simp) rfl)
        have hlast : (c.dispatch m i).lastIdx m = i := by simp [Cpu.dispatch]
        rw [hlast, slotOrder, members_of_head hhead] at hrounds
        have hvisits : visitsAt m ([⟨c, m, i⟩] ++ ds) = i :: visitsAt m ds := by
          simp [visitsAt]
        rw [Option.toList_some, hvisits]
        exact hrounds.cons hhead
      · have hlast : (c.dispatch m i).lastIdx l = c.lastIdx l := by
          simp [Cpu.dispatch, Ne.symm hm]
        have hvisits : visitsAt l ([⟨c, m, i⟩] ++ ds) = visitsAt l ds := by
          simp [visitsAt, hm]
        rw [hlast] at hrounds
        rw [Option.toList_some, hvisits]
        exact hrounds
    | rewind => exact hrounds
    | back => exact hrounds
    | others => exact hrounds

/-- **Round robin inside a level.** In a run in which every scan of the level that ends in a dispatch
finds the processes of `S` runnable there, and no others, the dispatches at the level go through `S`
in the order of the slots, in a circle, from the slot after `last_idx` on. So any `S.card` dispatches
at the level that follow one another run every member of `S` once. -/
theorem Cpu.Run.round_robin {c c' : Cpu} {ds : List Dispatch} (h : c.Run ds c')
    (hS : ∀ d ∈ ds, d.level = l → d.Offers S) :
    (∀ k < (visitsAt l ds).length,
      (visitsAt l ds)[k]? = (slotOrder S (c.lastIdx l))[k % S.card]?) ∧
    ∀ k, k + S.card ≤ (visitsAt l ds).length →
      (((visitsAt l ds).drop k).take S.card).Nodup ∧
        (((visitsAt l ds).drop k).take S.card).toFinset = S := by
  have hrounds := h.rounds hS
  have hlen : (slotOrder S (c.lastIdx l)).length = S.card := length_slotOrder _
  refine ⟨fun k hk => ?_, fun k hk => ?_⟩
  · rw [← hlen]
    exact hrounds k hk
  · rw [← hlen] at hk ⊢
    rw [hrounds.window hk, List.nodup_rotate]
    refine ⟨nodup_slotOrder _, Eq.trans ?_ (toFinset_slotOrder (c.lastIdx l))⟩
    exact List.toFinset_eq_of_perm _ _ (List.rotate_perm _ _)

end Rounds

/-- Two processes, both runnable at level 0. -/
def Cpu.pair : Cpu where
  task i := if i = firstProc ∨ i = secondProc then .fresh .runnable else .fresh .unused
  lastIdx _ := firstProc
  level := 0
  running := none

/-- Later, when the second process has run and both are runnable again. -/
def Cpu.pairAgain : Cpu :=
  { Cpu.pair.dispatch 0 secondProc with task := Cpu.pair.task, running := none }

theorem pair_picks : Cpu.pair.pick = some (0, secondProc) := by
  decide +kernel

theorem pairAgain_picks : Cpu.pairAgain.pick = none ∧
    ({ Cpu.pairAgain with level := 0 } : Cpu).pick = some (0, firstProc) := by
  constructor
  · decide +kernel
  · decide +kernel

theorem pair_ready (i : Fin nproc) :
    (Cpu.pair.task i).ReadyAt 0 ↔ i ∈ ({firstProc, secondProc} : Finset (Fin nproc)) := by
  revert i
  decide

theorem round_robin_pair : ∃ ds c', Cpu.pair.Run ds c' ∧
    visitsAt 0 ds = [secondProc, firstProc] ∧ (visitsAt 0 ds).Nodup ∧
    (visitsAt 0 ds).toFinset = {firstProc, secondProc} := by
  have hrun : Cpu.pair.Run
      [⟨Cpu.pair, 0, secondProc⟩, ⟨{ Cpu.pairAgain with level := 0 }, 0, firstProc⟩]
      (({ Cpu.pairAgain with level := 0 } : Cpu).dispatch 0 firstProc) :=
    .head (.dispatch rfl pair_picks) (.head .back (.head (.others Cpu.pair.task)
      (.head (.rewind rfl pairAgain_picks.1) (.head (.dispatch rfl pairAgain_picks.2) (.refl _)))))
  have hvisits := (hrun.round_robin (l := 0) (S := {firstProc, secondProc}) (by
    intro d hd _
    simp only [List.mem_cons, List.not_mem_nil, or_false] at hd
    rcases hd with rfl | rfl
    · exact pair_ready
    · exact pair_ready)).2 0 (by decide)
  exact ⟨_, _, hrun, rfl, hvisits⟩

end Xv6
