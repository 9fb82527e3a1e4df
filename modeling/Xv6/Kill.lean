import Xv6.Family

/-!
# Killing and process numbers

`kkill`, `sys_getvmstats` and `sys_getmlfqinfo` look for a process number in the whole process
table. An unused entry has the number 0, which no process has, so a lookup goes wrong for this one
number: it finds an entry that is not in use. For `kkill` the consequence is not harmless. The entry
stays marked, `allocproc` does not reset the mark, and the next process made there starts killed.
-/

namespace Xv6

open Prog

/-! ### The lookups -/

/-- The integers of a structure in memory. -/
def structBytes (fields : List ℤ) : List Byte := fields.flatMap intBytes

/-- `struct vmstats`. -/
def VmStats.bytes (s : VmStats) : List Byte :=
  structBytes [s.pageFaults, s.pagesEvicted, s.pagesSwappedIn, s.pagesSwappedOut, s.residentPages]

/-- `struct mlfqinfo`. -/
def mlfqInfoBytes (level : ℤ) (t : Task) : List Byte :=
  structBytes ([level] ++ (List.finRange 4).map t.ticksPerLevel ++ [t.timesScheduled, t.syscount])

/-- The common part of the two system calls: find the process and copy something about it out. -/
def copyInfo (me : Fin nproc) (pid : ℤ) (infoAddr : ℕ) (info : Kernel → Fin nproc → List Byte) :
    Prog Kernel ℤ := do
  let k ← Prog.get
  match findProc k pid with
  | none => return -1
  | some target => do
    if ← copyout me (addrOf (k.proc me).pagetable) infoAddr (info k target) then return 0
    else return -1

/-- The `getvmstats` system call. -/
def sysGetvmstats (me : Fin nproc) (pid : ℤ) (infoAddr : ℕ) : Prog Kernel ℤ :=
  copyInfo me pid infoAddr fun k target => (k.proc target).stats.bytes

/-- The `getmlfqinfo` system call. The accounting of the scheduler is not part of the state. -/
def sysGetmlfqinfo (task : Fin nproc → Task) (me : Fin nproc) (pid : ℤ) (infoAddr : ℕ) :
    Prog Kernel ℤ :=
  copyInfo me pid infoAddr fun k target => mlfqInfoBytes (k.proc target).mlfqLevel (task target)

/-- Some process in use has the number. -/
def HasPid (k : Kernel) (pid : ℤ) : Prop :=
  ∃ i, (k.proc i).state ≠ .unused ∧ (k.proc i).pid = pid

/-- The lookups find a process exactly if one in use has the number. Otherwise they return -1 and
nothing changes. -/
structure LookupsSound (k : Kernel) (pid : ℤ) : Prop where
  finds : (findProc k pid).isSome ↔ HasPid k pid
  kills : HasPid k pid → ∃ k', kkill pid k = .ok (true, k')
  kill_fails : ¬HasPid k pid → kkill pid k = .ok (false, k)
  vmstats_fails : ¬HasPid k pid → ∀ me infoAddr, sysGetvmstats me pid infoAddr k = .ok (-1, k)
  mlfqinfo_fails : ¬HasPid k pid → ∀ task me infoAddr,
    sysGetmlfqinfo task me pid infoAddr k = .ok (-1, k)

section Lookup

variable {extra : Multiset ℕ} {k : Kernel} {pid : ℤ}

theorem findProc_isSome : (findProc k pid).isSome ↔ ∃ i, (k.proc i).pid = pid := by
  rw [Option.isSome_iff_ne_none, Ne, findProc, Table.first_eq_none]
  simp

theorem copyInfo_of_none (h : findProc k pid = none) (me : Fin nproc) (infoAddr : ℕ)
    (info : Kernel → Fin nproc → List Byte) : copyInfo me pid infoAddr info k = .ok (-1, k) := by
  change (match findProc k pid with
    | none => (pure (-1) : Prog Kernel ℤ)
    | some target => _) k = _
  rw [h]
  rfl

theorem kkill_of_none (h : findProc k pid = none) : kkill pid k = .ok (false, k) := by
  change (match findProc k pid with
    | none => (pure false : Prog Kernel Bool)
    | some i => _) k = _
  rw [h]
  rfl

theorem kkill_of_some {i : Fin nproc} (h : findProc k pid = some i) :
    kkill pid k = .ok (true, k.setProc i { k.proc i with
      killed := true
      state := if (k.proc i).state = .sleeping then .runnable else (k.proc i).state }) := by
  change (match findProc k pid with
    | none => (pure false : Prog Kernel Bool)
    | some i => _) k = _
  rw [h]
  rfl

/-- A number is found in an unused entry only if it is 0. -/
theorem KInv.hasPid_iff (h : KInv extra k) :
    ((findProc k pid).isSome ↔ HasPid k pid) ↔ pid ≠ 0 ∨ ∀ i, (k.proc i).state ≠ .unused := by
  rw [findProc_isSome]
  constructor
  · rintro hiff
    by_contra hnot
    obtain ⟨rfl, i, hi⟩ : pid = 0 ∧ ∃ i, (k.proc i).state = .unused := by
      simpa using hnot
    obtain ⟨j, hj, hzero⟩ := hiff.mp ⟨i, (h.unused i hi).1⟩
    exact (h.live j hj).1.ne' hzero
  · intro hcond
    refine ⟨fun ⟨i, hi⟩ => ⟨i, fun hun => ?_, hi⟩, fun ⟨i, hi⟩ => ⟨i, hi.2⟩⟩
    rcases hcond with hne | hall
    · exact hne (hi.symm.trans (h.unused i hun).1)
    · exact hall i hun

theorem LookupsSound.of_finds (hfinds : (findProc k pid).isSome ↔ HasPid k pid) :
    LookupsSound k pid := by
  have hnone : ¬HasPid k pid → findProc k pid = none := fun hno =>
    Option.not_isSome_iff_eq_none.mp (fun hs => hno (hfinds.mp hs))
  refine ⟨hfinds, fun hp => ?_, fun hno => kkill_of_none (hnone hno),
    fun hno me infoAddr => copyInfo_of_none (hnone hno) me infoAddr _,
    fun hno task me infoAddr => copyInfo_of_none (hnone hno) me infoAddr _⟩
  obtain ⟨i, hi⟩ := Option.isSome_iff_exists.mp (hfinds.mpr hp)
  exact ⟨_, kkill_of_some hi⟩

/-- **The lookups concern live processes**, for every number but 0. -/
theorem KInv.lookupsSound_iff (h : KInv extra k) :
    LookupsSound k pid ↔ pid ≠ 0 ∨ ∀ i, (k.proc i).state ≠ .unused :=
  ⟨fun hs => h.hasPid_iff.mp hs.finds, fun hc => .of_finds (h.hasPid_iff.mpr hc)⟩

end Lookup

/-! ### Who is killed -/

/-- Entries that are not in use are not marked as killed. -/
def NoneWaiting (k : Kernel) : Prop := ∀ i, (k.proc i).state = .unused → (k.proc i).killed = false

/-- The step is a fault of process `i`, or a `kill` of its number. -/
def Op.Kills (k : Kernel) (i : Fin nproc) : Op → Prop
  | load me va => me = i ∧ permits k.vm (addrOf (k.proc me).pagetable) va .load = false
  | store me va _ => me = i ∧ permits k.vm (addrOf (k.proc me).pagetable) va .store = false
  | kill _ pid => pid = (k.proc i).pid
  | _ => False

/-- What is killed after the step was in use before it, with the same number, and was killed already
or is killed by the step. -/
def KillsRightly (op : Op) (k k' : Kernel) : Prop :=
  ∀ i, (k'.proc i).killed = true → (k.proc i).state ≠ .unused ∧
    (k'.proc i).pid = (k.proc i).pid ∧ ((k.proc i).killed = true ∨ op.Kills k i)

/-- A `kill` names a process, or there is no unused entry to be found. -/
def Op.Aims (k : Kernel) : Op → Prop
  | kill _ pid => pid ≠ 0 ∨ ∀ i, (k.proc i).state ≠ .unused
  | _ => True

section Step

variable {extra : Multiset ℕ} {k k' : Kernel} {me : Fin nproc} {op : Op}

section Waiting

variable (h : NoneWaiting k) (op)
include h

/-- Nobody is killed by a step after which only those are killed that were before. -/
theorem NoneWaiting.spared
    (hm : ∀ i, (k'.proc i).killed = true →
      (k.proc i).killed = true ∧ (k'.proc i).pid = (k.proc i).pid) : KillsRightly op k k' := by
  intro i hi
  obtain ⟨hkilled, hpid⟩ := hm i hi
  refine ⟨fun hun => ?_, hpid, Or.inl hkilled⟩
  rw [h i hun] at hkilled
  nomatch hkilled

theorem NoneWaiting.of_family (hf : k'.family = k.family) : KillsRightly op k k' := by
  refine h.spared op fun i hi => ?_
  have hmark : (k'.proc i).mark = (k.proc i).mark := congrArg (Family.mark · i) hf
  exact ⟨(congrArg Mark.killed hmark).symm.trans hi, congrArg Mark.pid hmark⟩

/-- One entry got a new mark, and the mark does not say killed. -/
theorem NoneWaiting.of_set {i : Fin nproc} {m : Mark} (hf : k'.family = k.family.set i m)
    (hok : m.killed = true → (k.proc i).killed = true ∧ m.pid = (k.proc i).pid) :
    KillsRightly op k k' := by
  refine h.spared op fun j hj => ?_
  have hmark : (k'.proc j).mark = (k.family.set i m).mark j := congrArg (Family.mark · j) hf
  by_cases hji : j = i
  · rw [hji, Family.set_mark_self] at hmark
    rw [hji] at hj ⊢
    obtain ⟨hkilled, hpid⟩ := hok ((congrArg Mark.killed hmark).symm.trans hj)
    exact ⟨hkilled, (congrArg Mark.pid hmark).trans hpid⟩
  · rw [Family.set_mark_of_ne _ _ hji] at hmark
    exact ⟨(congrArg Mark.killed hmark).symm.trans hj, congrArg Mark.pid hmark⟩

theorem NoneWaiting.cleared {i : Fin nproc} (hf : k'.family = k.family.set i .free) :
    KillsRightly op k k' :=
  h.of_set op hf nofun

theorem NoneWaiting.unborn (hu : Unborn k k') : KillsRightly op k k' := by
  rw [Unborn] at hu
  cases hfirst : k.firstUnused with
  | none =>
    rw [hfirst] at hu
    exact h.of_family op hu
  | some i =>
    rw [hfirst] at hu
    exact h.cleared op hu

end Waiting

theorem Born.not_killed {state : ProcState} {i : Fin nproc} (hb : Born state k i k')
    (h : NoneWaiting k) : (k'.proc i).killed = false := by
  have hmark : (k'.proc i).mark = (k.family.set i _).mark i := congrArg (Family.mark · i) hb.2
  rw [Family.set_mark_self] at hmark
  exact (congrArg Mark.killed hmark).trans (h i (state_of_firstUnused hb.1))

/-- No number has changed, and nobody but `me` was killed. -/
def Spares (me : Fin nproc) (k k' : Kernel) : Prop :=
  ∀ i, (k'.proc i).pid = (k.proc i).pid ∧ (i ≠ me → (k'.proc i).killed = (k.proc i).killed)

theorem Spares.trans {k'' : Kernel} (h : Spares me k k') (h' : Spares me k' k'') :
    Spares me k k'' := fun i =>
  ⟨(h' i).1.trans (h i).1, fun hi => ((h' i).2 hi).trans ((h i).2 hi)⟩

theorem Spares.of_set {m : Mark} (hf : k'.family = k.family.set me m)
    (hpid : m.pid = (k.proc me).pid) : Spares me k k' := by
  intro i
  have hmark : (k'.proc i).mark = (k.family.set me m).mark i := congrArg (Family.mark · i) hf
  by_cases hi : i = me
  · rw [hi, Family.set_mark_self] at hmark
    exact ⟨hi ▸ (congrArg Mark.pid hmark).trans hpid, fun hne => absurd hi hne⟩
  · rw [Family.set_mark_of_ne _ _ hi] at hmark
    exact ⟨congrArg Mark.pid hmark, fun _ => congrArg Mark.killed hmark⟩

theorem kexit_kills (status : ℤ) (k : Kernel) :
    wp (kexit me status) (fun _ k' => ∀ i, (k'.proc i).pid = (k.proc i).pid ∧
      (k'.proc i).killed = (k.proc i).killed) (fun _ => True) k := by
  refine wp_imp (kexit_family me status k) fun _ k' hk i => ?_
  have horphan : ((k.family.orphaned me).mark i).pid = (k.proc i).pid ∧
      ((k.family.orphaned me).mark i).killed = (k.proc i).killed := by
    rw [Family.orphaned]
    dsimp only
    split_ifs <;> exact ⟨rfl, rfl⟩
  have hmark : (k'.proc i).mark = _ := congrArg (Family.mark · i) hk.2
  by_cases hi : i = me
  · rw [hi, Family.set_mark_self] at hmark
    rw [hi] at horphan ⊢
    exact ⟨(congrArg Mark.pid hmark).trans horphan.1,
      (congrArg Mark.killed hmark).trans horphan.2⟩
  · rw [Family.set_mark_of_ne _ _ hi] at hmark
    exact ⟨(congrArg Mark.pid hmark).trans horphan.1,
      (congrArg Mark.killed hmark).trans horphan.2⟩

/-- A fault kills nobody but the process that takes it. -/
theorem usertrapFault_spares (va : ℕ) (k : Kernel) :
    wp (usertrapFault me va) (fun _ k' => Spares me k k') (fun _ => True) k := by
  have hexit : ∀ k₁ : Kernel, Spares me k k₁ →
      wp (do
        let k ← Prog.get
        if (k.proc me).killed then kexit me (-1)) (fun _ k' => Spares me k k')
        (fun _ => True) k₁ := by
    intro k₁ h₁
    rw [wp_bind, wp_get]
    split_ifs
    · exact wp_imp (kexit_kills (-1) k₁) fun _ k₂ h₂ =>
        h₁.trans fun i => ⟨(h₂ i).1, fun _ => (h₂ i).2⟩
    · exact h₁
  rw [usertrapFault, wp_bind, wp_get]
  refine wp_seq (vmfault_leaves Kernel.family_aside.ofNotes
    (fun _ _ _ => onVm_leaves Kernel.family_aside _) _ va k) fun ok k₁ h₁ => ?_
  have hsame : Spares me k k₁ := .of_set (h₁.trans (Family.set_self k.family me).symm) rfl
  cases ok with
  | true => exact hexit k₁ hsame
  | false =>
    rw [if_neg Bool.false_ne_true, wp_bind, setkilled, wp_updateProc]
    have hf := Kernel.family_setProc k₁ me { k₁.proc me with killed := true }
    exact hexit _ (hsame.trans (.of_set hf rfl))

theorem NoneWaiting.fault (h : NoneWaiting k) (hme : (k.proc me).state = .running) (va : ℕ)
    (hop : op.Kills k me) :
    wp (usertrapFault me va) (fun _ k' => KillsRightly op k k') (fun _ => True) k := by
  refine wp_imp (usertrapFault_spares va k) fun _ k' hk i hi => ?_
  obtain ⟨hpid, hkilled⟩ := hk i
  by_cases heq : i = me
  · rw [heq] at hpid ⊢
    rw [hme]
    exact ⟨by decide, hpid, Or.inr hop⟩
  · rw [hkilled heq] at hi
    refine ⟨fun hun => ?_, hpid, Or.inl hi⟩
    rw [h i hun] at hi
    nomatch hi

theorem KInv.kkill_rightly (hinv : KInv extra k) (h : NoneWaiting k) {pid : ℤ}
    (haim : (Op.kill me pid).Aims k) :
    wp (kkill pid) (fun _ k' => KillsRightly (.kill me pid) k k') (fun _ => True) k := by
  cases hfind : findProc k pid with
  | none => exact (wp_of_ok (kkill_of_none hfind)).mpr (h.of_family _ rfl)
  | some i =>
    refine (wp_of_ok (kkill_of_some hfind)).mpr fun j hj => ?_
    have hpid : (k.proc i).pid = pid := by
      simpa using Table.of_first hfind
    by_cases hji : j = i
    · rw [hji, Kernel.setProc_proc_self]
      refine ⟨fun hun => ?_, rfl, Or.inr hpid.symm⟩
      rcases haim with hne | hall
      · exact hne (hpid.symm.trans (hinv.unused i hun).1)
      · exact hall i hun
    · rw [Kernel.setProc_proc_of_ne _ _ hji] at hj ⊢
      refine ⟨fun hun => ?_, rfl, Or.inl hj⟩
      rw [h j hun] at hj
      nomatch hj

/-- **A step kills only whom it should**, if no unused entry is marked and the step does not mark
one. -/
theorem KInv.run_killsRightly (hinv : KInv extra k) (h : NoneWaiting k) (hen : op.Enabled k)
    (haim : op.Aims k) :
    wp op.run (fun _ k' => KillsRightly op k k') (fun _ => True) k := by
  have hquiet : ∀ {α : Type} {x : Prog Kernel α}, Leaves Kernel.family x →
      wp (do
        let _ ← x) (fun _ k' => KillsRightly op k k') (fun _ => True) k := fun hx => by
    exact wp_seq (hx k) fun _ _ hm => h.of_family op hm
  cases op with
  | load me va =>
    rw [Op.run, userLoad, wp_bind, wp_get]
    split_ifs with hp
    · exact h.of_family _ rfl
    · exact h.fault hen va ⟨rfl, Bool.eq_false_iff.mpr hp⟩
  | store me va b =>
    rw [Op.run, userStore, wp_bind, wp_get]
    dsimp only
    split_ifs with hp
    · exact wp_imp (onVm_leaves Kernel.family_aside _ k) fun _ _ hm => h.of_family _ hm
    · exact h.fault hen va ⟨rfl, Bool.eq_false_iff.mpr hp⟩
  | sbrk me n eager => exact hquiet (sysSbrk_leaves Kernel.family_aside n eager)
  | fork me =>
    rw [Op.run]
    refine wp_seq (kfork_family me k) fun _ k' hk => ?_
    rcases hk with ⟨-, hun⟩ | ⟨i, hfirst, hborn⟩
    · exact h.unborn _ hun
    · refine h.of_set _ hborn fun hkilled => ?_
      cases ((h i (state_of_firstUnused hfirst)).symm.trans hkilled)
  | exec me fs path uargv => exact hquiet (sysExec_leaves Kernel.family_aside fs path uargv)
  | exit me status =>
    exact wp_imp (kexit_kills status k) fun _ k' hk =>
      h.spared _ fun i hi => ⟨(hk i).2.symm.trans hi, (hk i).1⟩
  | wait me addr =>
    rw [Op.run]
    refine wp_seq (kwait_family me addr k) fun r k' hk => ?_
    cases r with
    | sleep =>
      rw [wp_pure, hk]
      exact h.of_family _ rfl
    | ret r =>
      rcases hk with ⟨j, -, hreap⟩ | ⟨-, hsame⟩
      · exact h.cleared _ hreap.family
      · exact h.of_family _ hsame
  | kill me pid =>
    rw [Op.run]
    exact wp_seq (hinv.kkill_rightly h haim) fun _ _ hk => hk
  | copyout me dstva src =>
    rw [Op.run, wp_bind, wp_get]
    exact hquiet (copyoutFrom_leaves Kernel.family_aside _ _ _ _)
  | copyin me srcva len =>
    rw [Op.run, wp_bind, wp_get]
    exact hquiet (copyinFrom_leaves Kernel.family_aside _ _ _ _)
  | pipe me fdarray => exact hquiet (sysPipe_family fdarray)
  | dup me fd => exact hquiet (sysDup_family fd)
  | close me fd => exact hquiet (sysClose_family fd)
  | openFile me device readable writable => exact hquiet (sysOpen_family device readable writable)
  | schedule p state level =>
    rw [Op.run, wp_updateProc]
    exact h.of_set _ (Kernel.family_setProc k p _) fun hkilled => ⟨hkilled, rfl⟩

theorem KillsRightly.noneWaiting (hk : KillsRightly op k k') (h : KInv extra k)
    (h' : KInv extra k') : NoneWaiting k' := by
  intro i hun
  by_contra hkilled
  obtain ⟨huse, hpid, -⟩ := hk i (Bool.eq_true_of_not_eq_false hkilled)
  rw [(h'.unused i hun).1] at hpid
  exact (h.live i huse).1.ne hpid

end Step

/-! ### Runs -/

theorem boot_killed {b : Boot} {k : Kernel} (hboot : boot b b.start = .ok ((), k))
    (j : Fin nproc) : (k.proc j).killed = false := by
  obtain ⟨i, root, n, hk⟩ := booted_of_boot hboot
  by_cases hj : j = i
  · rw [hj, hk.killed]
  · rw [hk.others j hj]
    rfl

variable {b : Boot} {k : Kernel}

/-- In a run that marks no unused entry there is none. -/
theorem Reaches.noneWaiting (h : Reaches b (fun op k => op.Aims k) k) : NoneWaiting k := by
  induction h with
  | boot hboot => exact fun i _ => boot_killed hboot i
  | step h hen haim hrun hpids ih =>
    have hinv := h.reachable.ok.inv
    have hinv' := (h.reachable.ok.step hen hrun hpids).ok.inv
    exact (wp_ok (hinv.run_killsRightly ih hen haim) hrun).noneWaiting hinv hinv'

/-- **Lookups and kills concern live processes**, as long as nobody asks for number 0 while there is
an unused entry: the lookups are sound exactly then, and in a run without such a `kill` a new
process is not killed and is killed later only by its own fault or a `kill` of its number. -/
theorem lookups_and_kills (b : Boot) :
    (∀ k, Reachable b k → ∀ pid,
      LookupsSound k pid ↔ pid ≠ 0 ∨ ∀ i, (k.proc i).state ≠ .unused) ∧
    ∀ k, Reaches b (fun op k => op.Aims k) k →
      (∀ i k', allocproc k = .ok (some i, k') → (k'.proc i).killed = false) ∧
      ∀ op k', op.Enabled k → op.Aims k → op.run k = .ok ((), k') → KillsRightly op k k' := by
  refine ⟨fun k h pid => h.ok.inv.lookupsSound_iff, fun k h => ⟨fun i k' hrun => ?_,
    fun op k' hen haim hrun => ?_⟩⟩
  · rcases wp_ok (allocproc_family k) hrun with ⟨hnone, -⟩ | ⟨j, hj, hborn⟩
    · nomatch hnone
    · rw [Option.some.inj hj]
      exact hborn.not_killed h.noneWaiting
  · have hstep := h.reachable.ok.inv.run_killsRightly h.noneWaiting hen haim
    exact (wp_of_ok hrun).mp hstep

theorem lookups_and_kills_small : ∃ k k' me, Reaches .small (fun op k => op.Aims k) k ∧
    LookupsSound k 1 ∧ (Op.kill me 1).run k = .ok ((), k') ∧ KillsRightly (.kill me 1) k k' := by
  obtain ⟨me, root, k, hboot, hb, -⟩ := Boot.small_boots
  have hreach : Reaches .small (fun op k => op.Aims k) k := .boot hboot
  have hone : (1 : ℤ) ≠ 0 := by decide
  have hsound := ((lookups_and_kills .small).1 k hreach.reachable 1).mpr (Or.inl hone)
  obtain ⟨k', hk'⟩ := hsound.kills ⟨me, by rw [hb.state]; decide, hb.pid⟩
  have hrun : (Op.kill me 1).run k = .ok ((), k') := bind_ok_iff.mpr ⟨true, k', hk', rfl⟩
  exact ⟨k, k', me, hreach, hsound, hrun,
    ((lookups_and_kills .small).2 k hreach).2 _ k' hb.state (Or.inl hone) hrun⟩

/-! ### The failing run -/

/-- `kill(0)` marks an unused entry and changes nothing else. -/
theorem Filled.kill_zero {perm : Pte} {pg : Page} {me : Fin nproc} {root n : ℕ}
    (h : Filled perm pg me root n k) :
    ∃ i, k.firstUnused = some i ∧
      kkill 0 k = .ok (true, k.setProc i { k.proc i with killed := true }) ∧
      Filled perm pg me root n (k.setProc i { k.proc i with killed := true }) := by
  have hsame : ∀ i, ((k.proc i).pid == 0) = ((k.proc i).state == .unused) := by
    intro i
    by_cases hi : (k.proc i).state = .unused
    · simp [(h.ok.inv.unused i hi).1, hi]
    · simp [(h.ok.inv.live i hi).1.ne', hi]
  have : Nontrivial (Fin nproc) := inferInstanceAs (Nontrivial (Fin 64))
  obtain ⟨j, hj⟩ : ∃ j, j ≠ me := exists_ne me
  obtain ⟨i, hi⟩ := Option.ne_none_iff_exists'.mp (Table.first_ne_none
    (p := fun j => (k.proc j).state == .unused) (i := j) (by simp [h.others j hj]))
  have hun : (k.proc i).state = .unused := state_of_firstUnused hi
  have hfind : findProc k 0 = some i := (Table.first_congr hsame).trans hi
  have hkill := kkill_of_some hfind
  rw [hun, if_neg (by decide), ← hun] at hkill
  have hne : me ≠ i := fun heq => by
    rw [← heq, h.state] at hun
    exact absurd hun (by decide)
  have hme := Kernel.setProc_proc_of_ne k { k.proc i with killed := true } hne
  have hsp := wp_ok (kkill_spec (E := fun _ => True) h.ok.inv 0) hkill
  refine ⟨i, hi, hkill, ⟨hsp.inv, ?_⟩, ?_, ?_, ?_, ?_, ?_, ?_, fun j hj => ?_, h.created,
    h.touched, h.swapped, h.untouched, h.registered, h.frames, h.slots, h.free⟩
  · exact fun j hj => by
      have hcore := hsp.core j
      rw [hcore.pagetable, hcore.trapframe]
      exact h.ok.complete j fun hu => hj (hcore.unused.mpr hu)
  · rw [hme, h.state]
  · rw [hme, h.pagetable]
  · rw [hme, h.sz]
  · rw [hme, h.pid]
  · rw [hme, h.killed]
  · rw [hme]
    exact h.ofile
  · exact (hsp.core j).unused.mpr (h.others j hj)

/-- **A child is born killed.** The number 0 is found although no process has it, and after
`kill(0)` the next process that is made is killed. -/
theorem forked_child_killed :
    (∃ k, Reachable .small k ∧ ¬LookupsSound k 0) ∧
    ∃ k k' me i, Reachable .small k ∧ (Op.fork me).Enabled k ∧
      (Op.fork me).run k = .ok ((), k') ∧ (k.proc i).state = .unused ∧
      (k'.proc i).state = .runnable ∧ (k'.proc i).killed = true := by
  obtain ⟨me, root, k, hreach, hf⟩ := filled_by_loads (n := 0) (by decide)
  obtain ⟨i, hfirst, hkill, hf₁⟩ := hf.kill_zero
  have hun := state_of_firstUnused hfirst
  refine ⟨⟨k, hreach.reachable, fun hs => ?_⟩, ?_⟩
  · rcases hf.ok.inv.lookupsSound_iff.mp hs with hne | hall
    · exact hne rfl
    · exact hall i hun
  · generalize hk₁ : k.setProc i { k.proc i with killed := true } = k₁ at hkill hf₁
    have hreach₁ : Reachable .small k₁ := .step hreach.reachable
      (show (Op.kill me 0).Enabled k from hf.state) (bind_ok_iff.mpr ⟨true, k₁, hkill, rfl⟩)
      (by rw [hf₁.created]; decide)
    obtain ⟨k₂, hrun, -⟩ := hf₁.fork (by decide)
    rcases wp_ok (kfork_family me k₁) hrun with ⟨hr, -⟩ | ⟨j, hj, hborn⟩
    · exact absurd hr (by decide)
    · have hstate : ∀ l, (k₁.proc l).state = (k.proc l).state := fun l => by
        rw [← hk₁]
        by_cases hl : l = i
        · rw [hl, Kernel.setProc_proc_self]
        · rw [Kernel.setProc_proc_of_ne _ _ hl]
      obtain rfl : i = j := by
        rw [Kernel.firstUnused] at hj hfirst
        simp only [hstate] at hj
        exact Option.some.inj (hfirst.symm.trans hj)
      have hmark : (k₂.proc i).mark = (k₁.family.set i _).mark i :=
        congrArg (Family.mark · i) hborn
      rw [Family.set_mark_self] at hmark
      refine ⟨k₁, k₂, me, i, hreach₁, hf₁.state, bind_ok_iff.mpr ⟨2, k₂, hrun, rfl⟩,
        (hstate i).trans hun, congrArg Mark.state hmark, (congrArg Mark.killed hmark).trans ?_⟩
      change (k₁.proc i).killed = true
      rw [← hk₁, Kernel.setProc_proc_self]

end Xv6
