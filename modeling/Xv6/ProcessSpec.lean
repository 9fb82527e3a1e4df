import Xv6.CopySpec
import Xv6.FileSpec

/-!
# Processes keep the invariant

Creating, growing, forking and reaping processes. Each of them replaces one entry of the process
table together with the space that belongs to it (`KInv.replace`), and the failure of any allocation
on the way leaves the invariant intact.
-/

namespace Xv6

open Ledger Prog Multiset

variable {extra : Multiset ℕ} {k k' k₁ : Kernel} {me i np : Fin nproc} {root : ℕ} {E : String → Prop}

/-! ### Replacing a process -/

/-- The space of a process record. -/
def Proc.space (p : Proc) (sym : Symbols) : Option Space :=
  p.pagetable.map fun root =>
    ⟨root, p.pid, pagesOf p.sz, tframePte (addrOf p.trapframe), trampPte sym⟩

theorem procSpace_eq (k : Kernel) (i : Fin nproc) :
    procSpace k i = (k.proc i).space k.vm.kmem.sym := rfl

/-- What the invariant says of a process on its own. -/
structure ProcOk (p : Proc) (v : Vm) (created : ℕ) : Prop where
  unused : p.state = .unused → p.pid = 0 ∧ p.sz = 0 ∧ p.pagetable = none ∧ p.trapframe = none
  live : p.state ≠ .unused → 0 < p.pid ∧ p.pid ≤ created
  size : p.sz ≤ trapframeVa
  sound : p.stats.Sound
  swapped : ∀ root, p.pagetable = some root →
    p.stats.pagesSwappedIn + swapCount v.kmem.mem root - p.stats.pagesSwappedOut ≤ 0
  resident : p.pid ≠ 0 → p.stats.residentPages = tally v p.pid

theorem KInv.procOk (h : KInv extra k) (i : Fin nproc) : ProcOk (k.proc i) k.vm k.created where
  unused := h.unused i
  live := h.live i
  size := h.size i
  sound := h.books.sound i
  swapped := h.books.swapped i
  resident := h.books.resident i

theorem spaces_replace (k : Kernel) (i : Fin nproc) (p : Proc) {v : Vm}
    (hsym : v.kmem.sym = k.vm.kmem.sym) :
    spaces ((k.setVm v).setProc i p) = ofOption (p.space v.kmem.sym) + otherSpaces k i := by
  rw [spaces_eq _ i, procSpace_eq, Kernel.setProc_proc_self]
  congr 1
  refine otherSpaces_congr fun j hj => procSpace_congr hsym ?_ ?_ ?_ ?_
  all_goals rw [Kernel.setProc_proc_of_ne _ _ hj, Kernel.setVm_proc]

theorem held_replace (k : Kernel) (i : Fin nproc) (p : Proc) (v : Vm) :
    held ((k.setVm v).setProc i p)
      = k.bootPages + (ofOption p.trapframe + otherTrapframes k i) + (pipePages k).val := by
  have hframes : otherTrapframes ((k.setVm v).setProc i p) i = otherTrapframes k i :=
    otherTrapframes_congr fun j hj => by
      rw [Kernel.setProc_proc_of_ne _ _ hj, Kernel.setVm_proc]
  rw [held, trapframes_eq _ i, Kernel.setProc_proc_self, hframes]
  rfl

/-- **Replacing a process and its space.** -/
theorem KInv.replace {extra' : Multiset ℕ} (h : KInv extra k) {p : Proc} {v : Vm}
    (hok : ProcOk p v k.created)
    (hpid : p.state ≠ .unused → ∀ j, j ≠ i → (k.proc j).pid ≠ p.pid)
    (hkeep : Keeps (otherSpaces k i) k.vm v)
    (hvm : VmInv (ofOption (p.space v.kmem.sym) + otherSpaces k i)
      (extra' + (k.bootPages + (ofOption p.trapframe + otherTrapframes k i) + (pipePages k).val)) v) :
    KInv extra' ((k.setVm v).setProc i p) := by
  obtain ⟨k', hk'⟩ : ∃ k', k' = (k.setVm v).setProc i p := ⟨_, rfl⟩
  have hself : k'.proc i = p := by rw [hk', Kernel.setProc_proc_self]
  have hother : ∀ j, j ≠ i → k'.proc j = k.proc j := fun j hj => by
    rw [hk', Kernel.setProc_proc_of_ne _ _ hj, Kernel.setVm_proc]
  have hv : k'.vm = v := by rw [hk']; rfl
  have hcreated : k'.created = k.created := by rw [hk']; rfl
  have hspaces : spaces k' = ofOption (p.space v.kmem.sym) + otherSpaces k i := by
    rw [hk']
    exact spaces_replace k i p hkeep.sym
  have hheld := hk' ▸ held_replace k i p v
  have hprocs : ∀ j, ProcOk (k'.proc j) v k.created := by
    intro j
    by_cases hj : j = i
    · rw [hj, hself]
      exact hok
    · rw [hother j hj]
      have hold := h.procOk j
      refine ⟨hold.unused, hold.live, hold.size, hold.sound, fun root hroot => ?_, fun hne => ?_⟩
      · have hcount : swapCount v.kmem.mem root = swapCount k.vm.kmem.mem root :=
          swapCount_congr fun u hu => (hkeep.same _ (spaceOf_mem_others hj hroot) u hu).1
        rw [hcount]
        exact hold.swapped root hroot
      · rw [hkeep.tally]
        exact hold.resident hne
  rw [← hk']
  refine ⟨?_, fun j => (hprocs j).unused, ?_, fun j => (hprocs j).size, fun a b ha hab => ?_, ?_,
    h.files.congr (by rw [hk']; rfl) (by rw [hk']; rfl), fun j => (hprocs j).sound, ?_, ?_, ?_⟩
  · rw [hspaces, hheld, hv]
    exact hvm
  · rw [hcreated]
    exact fun j => (hprocs j).live
  · by_cases hai : a = i
    · by_contra hne
      have hbi : b ≠ i := fun hbi => hne (hai.trans hbi.symm)
      rw [hai, hself] at ha hab
      rw [hother b hbi] at hab
      exact hpid ha b hbi hab.symm
    · rw [hother a hai] at ha hab
      by_cases hbi : b = i
      · rw [hbi, hself] at hab
        by_cases hp : p.state = .unused
        · rw [(hok.unused hp).1] at hab
          exact absurd hab (h.live a ha).1.ne'
        · exact absurd hab (hpid hp a hai)
      · rw [hother b hbi] at hab
        exact h.pids a b ha hab
  · rw [hcreated]
    have hnext : k'.nextpid = k.nextpid := by rw [hk']; rfl
    rw [hnext]
    exact h.nextpid
  · intro j root hroot
    rw [Kernel.debt, hv]
    exact (hprocs j).swapped root hroot
  · rw [hv]
    exact fun j => (hprocs j).resident
  · rw [hv, hkeep.tally, hcreated]
    exact h.books.fresh

/-! ### Freeing a process -/

/-- Taking the trapframe of a process out of the held pages. -/
theorem held_split (k : Kernel) (i : Fin nproc) :
    held k = ofOption (k.proc i).trapframe
      + (k.bootPages + otherTrapframes k i + (pipePages k).val) := by
  rw [held, trapframes_eq k i]
  abel

/-- **`freeproc`** gives back everything a process has. -/
theorem freeproc_spec (h : KInv extra k) {Q : Unit → Kernel → Prop}
    (hQ : ∀ v, KInv extra ((k.setVm v).setProc i (k.proc i).cleared) →
      Keeps (otherSpaces k i) k.vm v → Roomier k.vm v →
      Untouched (otherSpaces k i)
        (extra + (k.bootPages + otherTrapframes k i + (pipePages k).val)) k.vm v →
      Q () ((k.setVm v).setProc i (k.proc i).cleared)) :
    wp (freeproc i) Q E k := by
  obtain ⟨rest, hrest⟩ : ∃ rest, rest = extra + (k.bootPages + otherTrapframes k i
      + (pipePages k).val) := ⟨_, rfl⟩
  rw [← hrest] at hQ
  have hheld : extra + held k = ofOption (k.proc i).trapframe + rest := by
    rw [held_split k i, hrest]
    abel
  have hsub : ∀ q ∈ otherSpaces k i, q ∈ spaces k := fun q hq =>
    spaces_eq k i ▸ mem_add.mpr (Or.inr hq)
  -- what is left to show when both the trapframe and the page table are gone
  have hdone : ∀ v, VmInv (otherSpaces k i) rest v → Keeps (otherSpaces k i) k.vm v →
      Roomier k.vm v → Untouched (otherSpaces k i) rest k.vm v →
      Q () ((k.setVm v).setProc i (k.proc i).cleared) := by
    intro v hv hkeep hroom hmem
    refine hQ v (h.replace ⟨fun _ => ⟨rfl, rfl, rfl, rfl⟩, fun hne => absurd rfl hne,
      Nat.zero_le _, h.books.sound i, fun root hroot => ?_, fun hne => absurd rfl hne⟩
      (fun hne => absurd rfl hne) hkeep ?_) hkeep hroom hmem
    · nomatch hroot
    · have hno : ofOption (Proc.space (k.proc i).cleared v.kmem.sym) = 0 := rfl
      have hnotf : ofOption (k.proc i).cleared.trapframe = 0 := rfl
      rw [hno, hnotf, zero_add, zero_add, ← hrest]
      exact hv
  -- the second half, from a state in which the trapframe is gone
  have hsecond : ∀ v, VmInv (spaces k) rest v → Keeps (spaces k) k.vm v → Roomier k.vm v →
      Untouched (spaces k) rest k.vm v →
      wp (do
        freePagetable (k.proc i).sz (k.proc i).pagetable
        updateProc i Proc.cleared) Q E (k.setVm v) := by
    intro v hv hkeep hroom hmem
    have hkeep' : Keeps (otherSpaces k i) k.vm v := hkeep.mono hsub
    have hmem' : Untouched (otherSpaces k i) rest k.vm v := hmem.mono hsub fun _ hy => hy
    rw [wp_bind]
    cases hroot : (k.proc i).pagetable with
    | none =>
      rw [spaces_eq k i, procSpace, hroot, Option.map_none, ofOption_none, zero_add] at hv
      exact hdone v hv hkeep' hroom hmem'
    | some root =>
      rw [spaces_cons hroot] at hv
      have hbeyond := (hv.spaces _ (mem_cons_self _ _)).beyond
      rw [freePagetable, wp_onVm]
      exact wp_imp (procFreepagetable_spec hv (h.size i) hbeyond) fun _ v₂ hf =>
        hdone v₂ hf.inv (hkeep'.trans hf.keeps) (Nat.le_trans hroom hf.room) (hmem'.trans hf.memory)
  rw [freeproc, wp_bind, wp_get, wp_bind]
  have hvm := h.vm
  rw [hheld] at hvm
  cases htf : (k.proc i).trapframe with
  | none =>
    rw [htf, ofOption_none, zero_add] at hvm
    exact hsecond k.vm hvm (.refl _ _) (Nat.le_refl _) (.refl _ _ _)
  | some tf =>
    rw [htf, ofOption_some, singleton_add] at hvm
    rw [freeTrapframe, wp_onVm]
    refine wp_kfree hvm fun v hv hkeep hlen _ _ _ hmem => hsecond v hv hkeep ?_ hmem
    rw [Roomier, hlen]
    exact Nat.le_succ _

/-! ### Making a process -/

/-- Before they wrap, process numbers are counted. -/
theorem KInv.nextpid_eq (h : KInv extra k) (hlt : k.created + 1 < 2 ^ 31) :
    k.nextpid = k.created + 1 := by
  rw [h.nextpid, int32]
  omega

theorem KInv.allocpid (h : KInv extra k) :
    KInv extra { k with nextpid := int32 (k.nextpid + 1), created := k.created + 1 } where
  vm := h.vm
  unused := h.unused
  live i hi := ⟨(h.live i hi).1, (h.live i hi).2.trans (by push_cast; omega)⟩
  size := h.size
  pids := h.pids
  nextpid := by
    rw [h.nextpid, int32, int32, int32]
    push_cast
    omega
  files := h.files.congr rfl rfl
  books := ⟨h.books.sound, h.books.swapped, h.books.resident, fun pid hpid =>
    h.books.fresh pid (lt_trans (by push_cast; omega) hpid)⟩

/-- The entry `i` of the process table before a process is made of it. -/
theorem KInv.otherSpaces_unused (h : KInv extra k) (hi : (k.proc i).state = .unused) :
    otherSpaces k i = spaces k := by
  rw [spaces_eq k i, procSpace, (h.unused i hi).2.2.1, Option.map_none, ofOption_none, zero_add]

/-- A process that was just made, with page table `root` and trapframe `tf`. -/
def Proc.made (p : Proc) (pid : ℤ) (tf root : Option ℕ) : Proc :=
  { p with
    pid := pid, state := .used, mlfqLevel := 0, stats := .zero, trapframe := tf, pagetable := root }

/-- The kernel while `allocproc` makes a process at `i`. -/
def Kernel.making (k : Kernel) (i : Fin nproc) (v : Vm) (tf root : Option ℕ) : Kernel :=
  ({ k with nextpid := int32 (k.nextpid + 1), created := k.created + 1 }.setVm v).setProc i
    ((k.proc i).made (k.created + 1) tf root)

theorem Kernel.making_proc_self (k : Kernel) (i : Fin nproc) (v : Vm) (tf root : Option ℕ) :
    (k.making i v tf root).proc i = (k.proc i).made (k.created + 1) tf root :=
  Kernel.setProc_proc_self _ _ _

theorem Kernel.making_proc_of_ne (k : Kernel) {i j : Fin nproc} (hj : j ≠ i) (v : Vm)
    (tf root : Option ℕ) : (k.making i v tf root).proc j = k.proc j :=
  Kernel.setProc_proc_of_ne _ _ hj

/-- `allocproc` stores a trapframe or a page table. -/
theorem wp_making {v v' : Vm} {tf root : Option ℕ} (tf' root' : Option ℕ) {f : Proc → Proc}
    (hf : f ((k.proc i).made (k.created + 1) tf root)
      = (k.proc i).made (k.created + 1) tf' root') {Q : Unit → Kernel → Prop}
    (hQ : Q () (k.making i v' tf' root')) :
    wp (updateProc i f) Q E ((k.making i v tf root).setVm v') := by
  rw [wp_updateProc, Kernel.setVm_proc, Kernel.making_proc_self, hf, Kernel.making,
    Kernel.setProc_setVm, Kernel.setProc_setProc, Kernel.setVm_setVm]
  exact hQ

section Making

variable (h : KInv extra k) (hi : (k.proc i).state = .unused)

include h hi

theorem KInv.held_making (v : Vm) (tf root : Option ℕ) :
    held (k.making i v tf root) = ofOption tf + held k := by
  have hold : trapframes k = otherTrapframes k i := by
    rw [trapframes_eq k i, (h.unused i hi).2.2.2, ofOption_none, zero_add]
  rw [Kernel.making, held_replace, held, hold]
  change k.bootPages + (ofOption tf + otherTrapframes k i) + (pipePages k).val = _
  abel

/-- The invariant holds at every stage of making a process. -/
theorem KInv.making {v : Vm} {tf root : Option ℕ} (hkeep : Keeps (spaces k) k.vm v)
    (habs : ∀ r, root = some r → ∀ u < userPages, lookup v.kmem.mem r u = 0#64)
    (hv : VmInv (ofOption (((k.proc i).made (k.created + 1) tf root).space v.kmem.sym) + spaces k)
      (extra + (ofOption tf + held k)) v) : KInv extra (k.making i v tf root) := by
  have h₁ := h.allocpid
  have hother := h.otherSpaces_unused hi
  refine h₁.replace ⟨fun hh => absurd hh (by simp [Proc.made]), fun _ => ⟨?_, le_rfl⟩, ?_,
    ⟨rfl, le_rfl⟩, fun r hr => ?_, fun _ => ?_⟩ (fun _ j _ hj => ?_) (hother ▸ hkeep) ?_
  · change (0 : ℤ) < k.created + 1
    omega
  · change (k.proc i).sz ≤ trapframeVa
    rw [(h.unused i hi).2.1]
    exact Nat.zero_le _
  · have hzero : swapCount v.kmem.mem r = 0 :=
      Finset.sum_eq_zero fun u hu => by
        rw [habs r hr u (mem_below.mp hu), Pte.has_zero, Bool.toNat_false]
    change (0 : ℤ) + swapCount v.kmem.mem r - 0 ≤ 0
    rw [hzero]
    decide
  · change (0 : ℤ) = tally v (k.created + 1)
    rw [hkeep.tally]
    exact (h.books.fresh _ (by omega)).symm
  · have hle := h.pid_le j
    change (k.proc j).pid = k.created + 1 at hj
    omega
  · have hheld := h.held_making hi v tf root
    rw [Kernel.making, held_replace] at hheld
    rw [hheld]
    change VmInv (_ + otherSpaces k i) _ v
    rw [hother]
    exact hv

end Making

/-- The result of `allocproc`. -/
structure Made (extra : Multiset ℕ) (i : Fin nproc) (tf root : ℕ) (k k' : Kernel) : Prop where
  inv : KInv extra k'
  old : (k.proc i).state = .unused
  proc : k'.proc i = (k.proc i).made (k.created + 1) (some tf) (some root)
  others : ∀ j, j ≠ i → k'.proc j = k.proc j
  keeps : Keeps (spaces k) k.vm k'.vm
  absent : ∀ u < userPages, lookup k'.vm.kmem.mem root u = 0#64
  created : k'.created = k.created + 1
  file : k'.file = k.file
  pipe : k'.pipe = k.pipe
  initproc : k'.initproc = k.initproc
  free : k.freePages ≤ k'.freePages + 6

/-- What is left of a process that was being made: nothing. Its entry is unused again, no page that
somebody owns has been written, and no file was opened or closed. -/
structure Undone (extra : Multiset ℕ) (k k' : Kernel) : Prop where
  inv : KInv extra k'
  procs : ∀ j, k'.proc j = k.proc j ∨ (k.proc j).state = .unused ∧ (k'.proc j).state = .unused
  memory : Untouched (spaces k) (extra + held k) k.vm k'.vm
  keeps : Keeps (spaces k) k.vm k'.vm
  file : k'.file = k.file
  pipe : k'.pipe = k.pipe
  boot : k'.bootPages = k.bootPages

theorem Undone.refl (h : KInv extra k) : Undone extra k k :=
  ⟨h, fun _ => Or.inl rfl, .refl _ _ _, .refl _ _, rfl, rfl, rfl⟩

theorem Undone.complete (h : Undone extra k k') (hc : Complete k) : Complete k' := by
  intro i hi
  rcases h.procs i with heq | ⟨-, hun⟩
  · rw [heq] at hi ⊢
    exact hc i hi
  · exact absurd hun hi

section Others

variable (h : KInv extra k) (hi : (k.proc i).state = .unused)
  (hothers : ∀ j, j ≠ i → k₁.proc j = k.proc j)

include h hi hothers

/-- The spaces of the others, while a process is made at `i`. -/
theorem KInv.otherSpaces_eq (hsym : k₁.vm.kmem.sym = k.vm.kmem.sym) :
    otherSpaces k₁ i = spaces k := by
  rw [← h.otherSpaces_unused hi]
  refine otherSpaces_congr fun j hj => ?_
  have heq := hothers j hj
  exact procSpace_congr hsym (by rw [heq]) (by rw [heq]) (by rw [heq]) (by rw [heq])

theorem KInv.held_eq (hfile : k₁.file = k.file) (hboot : k₁.bootPages = k.bootPages) :
    k₁.bootPages + otherTrapframes k₁ i + (pipePages k₁).val = held k := by
  have htf : otherTrapframes k₁ i = otherTrapframes k i :=
    otherTrapframes_congr fun j hj => by rw [hothers j hj]
  have hpipes : pipePages k₁ = pipePages k :=
    pipePages_congr fun f => ⟨by rw [hfile], by rw [hfile]⟩
  rw [held, trapframes_eq k i, (h.unused i hi).2.2.2, ofOption_none, zero_add, hboot, htf, hpipes]

end Others

/-- Giving up on the process at `i`, whose entry was unused. -/
theorem Undone.of_freeproc {v : Vm} (h : KInv extra k) (hi : (k.proc i).state = .unused)
    (hothers : ∀ j, j ≠ i → k₁.proc j = k.proc j)
    (hmem : Untouched (spaces k) (extra + held k) k.vm k₁.vm)
    (hkeep : Keeps (spaces k) k.vm k₁.vm) (hfile : k₁.file = k.file) (hpipe : k₁.pipe = k.pipe)
    (hboot : k₁.bootPages = k.bootPages)
    (hinv : KInv extra ((k₁.setVm v).setProc i (k₁.proc i).cleared))
    (hkeep' : Keeps (otherSpaces k₁ i) k₁.vm v)
    (hmem' : Untouched (otherSpaces k₁ i)
      (extra + (k₁.bootPages + otherTrapframes k₁ i + (pipePages k₁).val)) k₁.vm v) :
    Undone extra k ((k₁.setVm v).setProc i (k₁.proc i).cleared) := by
  rw [h.otherSpaces_eq hi hothers hkeep.sym] at hkeep' hmem'
  rw [h.held_eq hi hothers hfile hboot] at hmem'
  refine ⟨hinv, fun j => ?_, hmem.trans hmem', hkeep.trans hkeep', hfile, hpipe, hboot⟩
  by_cases hj : j = i
  · rw [hj, Kernel.setProc_proc_self]
    exact Or.inr ⟨hi, rfl⟩
  · rw [Kernel.setProc_proc_of_ne _ _ hj, Kernel.setVm_proc, hothers j hj]
    exact Or.inl rfl

/-- What making a process leaves as it is. -/
structure Spared (extra : Multiset ℕ) (k k' : Kernel) : Prop where
  boot : k'.bootPages = k.bootPages
  ftable : k'.vm.ftable = k.vm.ftable
  memory : Untouched (spaces k) (extra + held k) k.vm k'.vm
  free : k.vm.kmem.freelist ≠ []

theorem making_undo {v : Vm} {tf : Option ℕ} (h : KInv extra k)
    (hi : (k.proc i).state = .unused) (h₁ : KInv extra (k.making i v tf none))
    (hkeep : Keeps (spaces k) k.vm v) (hmem : Untouched (spaces k) (extra + held k) k.vm v)
    (hshort : k.freePages < 6) {Q : Option (Fin nproc) → Kernel → Prop}
    (hfail : ∀ k', Undone extra k k' → k.freePages < 6 → Q none k') :
    wp (do
      freeproc i
      return none) Q E (k.making i v tf none) := by
  have hothers : ∀ j, j ≠ i → (k.making i v tf none).proc j = k.proc j :=
    fun j hj => Kernel.making_proc_of_ne _ hj _ _ _
  rw [wp_bind]
  refine freeproc_spec h₁ fun v' hinv' hkeep' _ hmem' => ?_
  rw [wp_pure]
  exact hfail _ (.of_freeproc h hi hothers hmem hkeep rfl rfl rfl hinv' hkeep' hmem') hshort

theorem allocproc_spec (h : KInv extra k) (hlt : k.created + 1 < 2 ^ 31)
    {Q : Option (Fin nproc) → Kernel → Prop}
    (hfull : (∀ i, (k.proc i).state ≠ .unused) → Q none k)
    (hfail : ∀ k', Undone extra k k' → k.freePages < 6 → Q none k')
    (hsome : ∀ i tf root k', Made extra i tf root k k' → Spared extra k k' → Q (some i) k') :
    wp allocproc Q E k := by
  rw [allocproc, wp_bind, wp_get]
  cases hi : Table.first fun i => (k.proc i).state == .unused with
  | none => exact hfull fun i => by simpa using Table.first_eq_none.mp hi i
  | some i =>
    have hun : (k.proc i).state = .unused := by simpa using Table.of_first hi
    obtain ⟨-, hsz, hnoroot, hnotf⟩ := h.unused i hun
    have hnone : ∀ (v : Vm) r, (none : Option ℕ) = some r →
        ∀ u < userPages, lookup v.kmem.mem r u = 0#64 :=
      fun _ r hr => nomatch hr
    -- the entry has a process number and nothing else
    have hstart : ({ k with nextpid := int32 (k.nextpid + 1), created := k.created + 1 } :
        Kernel).setProc i
        { k.proc i with pid := k.nextpid, state := .used, mlfqLevel := 0, stats := .zero }
        = k.making i k.vm none none := by
      have hrec : ({ k.proc i with
          pid := k.nextpid, state := .used, mlfqLevel := 0, stats := .zero } : Proc)
          = (k.proc i).made (k.created + 1) none none := by
        simp [Proc.made, h.nextpid_eq hlt, hnotf, hnoroot]
      rw [hrec]
      rfl
    have h₀ : KInv extra (k.making i k.vm none none) := by
      refine h.making hun (.refl _ _) (hnone _) ?_
      rw [ofOption_none, zero_add]
      exact (zero_add (spaces k)).symm ▸ h.vm
    rw [wp_bind, allocpid, wp_bind, wp_get, wp_bind, wp_modify,
      wp_pure, wp_bind, wp_updateProc, hstart, wp_bind, wp_onVm]
    refine wp_kalloc h.vm (fun hnil => ?_) fun tf v₁ hv₁ hkeep₁ hx hlen₁ hft₁ _ _ hmem₁ => ?_
    · rw [wp_bind]
      refine wp_making none none rfl ?_
      refine making_undo h hun h₀ (.refl _ _) (.refl _ _ _) ?_ hfail
      rw [Kernel.freePages, hnil]
      exact Nat.zero_lt_succ 5
    have hinhand : ∀ {S : Multiset Space} {v : Vm}, VmInv S (tf ::ₘ (extra + held k)) v →
        VmInv S (extra + (ofOption (some tf) + held k)) v := by
      intro S v hv
      rw [ofOption_some, singleton_add, add_cons]
      exact hv
    rw [wp_bind]
    refine wp_making (some tf) none rfl ?_
    rw [wp_bind, wp_onVm]
    refine wp_imp (procPagetable_spec hv₁ tf) fun r v₂ hr => ?_
    obtain ⟨hkeep₂, hmem₂, hr⟩ := hr
    rw [wp_bind]
    refine wp_making (some tf) r rfl ?_
    have hkeep := hkeep₁.trans hkeep₂
    have hmem := hmem₁.trans hmem₂.rest
    cases r with
    | none =>
      obtain ⟨hv₂, hshort⟩ := hr
      refine making_undo h hun (h.making hun hkeep (hnone _) ?_) hkeep hmem ?_ hfail
      · exact (zero_add (spaces k)).symm ▸ hinhand hv₂
      · rw [Kernel.freePages]
        omega
    | some root =>
      obtain ⟨hv₂, hft₂, hroom⟩ := hr
      have habs : ∀ u < userPages, lookup v₂.kmem.mem root u = 0#64 := fun u hu =>
        (hv₂.spaces _ (mem_cons_self _ _)).beyond u (Nat.zero_le u) hu
      refine hsome i tf root _ ⟨h.making hun hkeep (fun r hr u hu => ?_) ?_, hun,
        Kernel.making_proc_self _ _ _ _ _, fun j hj => Kernel.making_proc_of_ne _ hj _ _ _, hkeep,
        habs, rfl, rfl, rfl, rfl, ?_⟩
        ⟨rfl, hft₂.trans hft₁, hmem, List.ne_nil_of_mem hx⟩
      · rw [← Option.some.inj hr]
        exact habs u hu
      · have hspace : ((k.proc i).made (k.created + 1) (some tf) (some root)).space v₂.kmem.sym
            = some ⟨root, k.created + 1, 0, tframePte tf, trampPte v₁.kmem.sym⟩ := by
          change some (⟨root, _, pagesOf (k.proc i).sz, _, trampPte v₂.kmem.sym⟩ : Space) = _
          rw [hsz, hkeep₂.sym]
          rfl
        rw [hspace, ofOption_some, singleton_add]
        refine hinhand (hv₂.relabel le_rfl fun q hq => ?_)
        obtain ⟨j, hj⟩ := mem_spaces.mp hq
        obtain ⟨r, -, rfl⟩ := procSpace_eq_some.mp hj
        have := h.pid_le j
        change (k.proc j).pid ≠ k.created + 1
        omega
      · change k.vm.kmem.freelist.length ≤ v₂.kmem.freelist.length + 6
        omega

/-! ### Growing -/

section Resize

variable {root : ℕ} {v : Vm} {sz : ℕ}

section Size

variable (h : KInv extra k) (hsz : sz ≤ trapframeVa) (hkeep : Keeps (otherSpaces k me) k.vm v)
  (hv : VmInv ({ spaceOf k me root with npages := pagesOf sz } ::ₘ otherSpaces k me)
    (extra + held k) v)
include h hsz hkeep hv

/-- A process is given another page table and size. -/
theorem KInv.exchange {old : ℕ} (hroot : (k.proc me).pagetable = some old)
    (hswap : swapCount v.kmem.mem root ≤ swapCount k.vm.kmem.mem old) :
    KInv extra ((k.setVm v).setProc me { k.proc me with pagetable := some root, sz := sz }) := by
  have hin := h.in_use hroot
  have hold := h.procOk me
  refine h.replace ⟨fun hun => absurd hun hin, hold.live, hsz, hold.sound, fun r hr => ?_,
    fun hne => ?_⟩ (fun _ j hj heq => hj (h.pids me j hin heq.symm).symm) hkeep ?_
  · obtain rfl : root = r := Option.some.inj hr
    have := hold.swapped old hroot
    change (k.proc me).stats.pagesSwappedIn + _ - (k.proc me).stats.pagesSwappedOut ≤ 0
    omega
  · rw [hkeep.tally]
    exact hold.resident hne
  · have hspace : ({ k.proc me with pagetable := some root, sz := sz } : Proc).space v.kmem.sym
        = some { spaceOf k me root with npages := pagesOf sz } := by
      rw [hkeep.sym]
      rfl
    rw [hspace, ofOption_some, singleton_add]
    rw [held, trapframes_eq k me] at hv
    exact hv

/-- A process is given another size, and its pages follow. -/
theorem KInv.resize (hroot : (k.proc me).pagetable = some root)
    (hswap : swapCount v.kmem.mem root ≤ swapCount k.vm.kmem.mem root) :
    KInv extra ((k.setVm v).setProc me { k.proc me with sz := sz }) := by
  have hnew := h.exchange hsz hkeep hv hroot hswap
  rwa [← hroot] at hnew

end Size

theorem KInv.resize_same (h : KInv extra k) (hroot : (k.proc me).pagetable = some root)
    (hkeep : Keeps (otherSpaces k me) k.vm v)
    (hswap : swapCount v.kmem.mem root ≤ swapCount k.vm.kmem.mem root)
    (hv : VmInv (spaceOf k me root ::ₘ otherSpaces k me) (extra + held k) v) :
    KInv extra (k.setVm v) := by
  have hsame := h.resize (h.size me) hkeep hv hroot hswap
  have heq : (k.setVm v).setProc me { k.proc me with sz := (k.proc me).sz } = k.setVm v := by
    rw [Kernel.setProc]
    change { k.setVm v with proc := Function.update k.proc me (k.proc me) } = _
    rw [Function.update_eq_self]
    rfl
  rwa [heq] at hsame

theorem Complete.resize (hc : Complete k) (me : Fin nproc) (v : Vm) (sz : ℕ) :
    Complete ((k.setVm v).setProc me { k.proc me with sz := sz }) := by
  intro i hi
  by_cases him : i = me
  · rw [him, Kernel.setProc_proc_self] at hi ⊢
    exact hc me hi
  · rw [Kernel.setProc_proc_of_ne _ _ him] at hi ⊢
    exact hc i hi

theorem Trimmed.swapCount_le {sp : Space} {R : Multiset Space} {held : Multiset ℕ} {P : ℕ → Prop}
    {v v' : Vm} (h : Trimmed sp R held P v v') :
    swapCount v'.kmem.mem sp.root ≤ swapCount v.kmem.mem sp.root := by
  refine Xv6.swapCount_le fun u hu hs => ?_
  by_cases hP : P u
  · rw [h.absent u hu hP, Pte.has_zero] at hs
    nomatch hs
  · rw [← (h.rest u hu hP).1]
    exact hs

theorem Grown.swapCount_le {sp : Space} {R : Multiset Space} {held : Multiset ℕ} {perm : Pte}
    {lo hi : ℕ} {v v' : Vm} (h : Grown sp R held perm lo hi v v') (hperm : LeafPerm perm) :
    swapCount v'.kmem.mem sp.root ≤ swapCount v.kmem.mem sp.root := by
  refine Xv6.swapCount_le fun u hu hs => ?_
  by_cases hin : lo ≤ u ∧ u < hi
  · obtain ⟨x, -, hx⟩ := h.mapped u hin.1 hin.2
    rw [hx, (hperm.resident x).unswapped] at hs
    nomatch hs
  · rw [← (h.rest u hu hin).1]
    exact hs

end Resize

theorem leafPerm_grow : LeafPerm (pteR ||| pteU ||| pteW) :=
  ⟨by decide, by decide, by decide⟩

theorem pagesOf_mono {a b : ℕ} (h : a ≤ b) : pagesOf a ≤ pagesOf b := by
  simp only [pagesOf]
  omega

/-- What a call of `growproc` leaves that fails: the process is the same, and so is every leaf of
its page table. A page that was free is free again, or it has become a page-table page. -/
structure Ungrown (root : ℕ) (k k' : Kernel) : Prop where
  proc : k'.proc = k.proc
  leaves : ∀ vpn < maxVpn, lookup k'.vm.kmem.mem root vpn = lookup k.vm.kmem.mem root vpn
  pages : (k'.vm.kmem.freelist : Multiset ℕ) + tables k'.vm.kmem.mem root
    = k.vm.kmem.freelist + tables k.vm.kmem.mem root

namespace Ungrown

theorem refl (root : ℕ) (k : Kernel) : Ungrown root k k := ⟨rfl, fun _ _ => rfl, rfl⟩

/-- A page of the free list that was used for data is on the free list again. -/
theorem freed (h : Ungrown root k k') {x : ℕ} (hx : x ∈ k.vm.kmem.freelist) :
    x ∈ k'.vm.kmem.freelist ∨ x ∈ tables k'.vm.kmem.mem root := by
  have hmem : x ∈ (k'.vm.kmem.freelist : Multiset ℕ) + tables k'.vm.kmem.mem root := by
    rw [h.pages]
    exact mem_add.mpr (Or.inl (mem_coe.mpr hx))
  exact (mem_add.mp hmem).imp mem_coe.mp id

end Ungrown

/-- All the leaves of a space, when its user pages are the same. -/
theorem SpaceOk.lookup_eq {sp : Space} {v v' : Vm} (h : SpaceOk v sp) (h' : SpaceOk v' sp)
    (hsame : ∀ u < userPages, lookup v'.kmem.mem sp.root u = lookup v.kmem.mem sp.root u) :
    ∀ u < maxVpn, lookup v'.kmem.mem sp.root u = lookup v.kmem.mem sp.root u := by
  intro u hu
  by_cases huser : u < userPages
  · exact hsame u huser
  have htop : u = userPages ∨ u = userPages + 1 := by
    rw [userPages_eq] at huser ⊢
    rw [maxVpn] at hu
    omega
  rcases htop with rfl | rfl
  · rw [h.tframe, h'.tframe]
  · rw [h.tramp, h'.tramp]

/-- A space whose leaves are the same has traded free pages for page-table pages. -/
theorem Untouched.traded {sp : Space} {R : Multiset Space} {held : Multiset ℕ} {v v' : Vm}
    (hR : Untouched R held v v') (h : VmInv (sp ::ₘ R) held v) (h' : VmInv (sp ::ₘ R) held v')
    (hsym : v'.kmem.sym = v.kmem.sym)
    (hsame : ∀ u < userPages, lookup v'.kmem.mem sp.root u = lookup v.kmem.mem sp.root u) :
    (v'.kmem.freelist : Multiset ℕ) + tables v'.kmem.mem sp.root
      = v.kmem.freelist + tables v.kmem.mem sp.root := by
  have hframes : frames v'.kmem.mem sp.root = frames v.kmem.mem sp.root := frames_congr hsame
  have hothers : R.map (footprint v'.kmem.mem) = R.map (footprint v.kmem.mem) :=
    map_congr rfl fun q hq => hR.footprint_eq hq
  have hpages := h'.pages
  rw [hsym, ← h.pages, map_cons, map_cons, sum_cons, sum_cons,
    hothers, footprint, footprint, hframes] at hpages
  refine add_right_cancel
    (b := frames v.kmem.mem sp.root + held + (R.map (footprint v.kmem.mem)).sum) ?_
  calc _ = (v'.kmem.freelist : Multiset ℕ) + held + (tables v'.kmem.mem sp.root
          + frames v.kmem.mem sp.root + (R.map (footprint v.kmem.mem)).sum) := by abel
    _ = _ := hpages
    _ = _ := by abel

/-- The same user pages, with other page-table pages. -/
theorem Ungrown.of_same {sp : Space} {R : Multiset Space} {held : Multiset ℕ} {v' : Vm}
    (h : VmInv (sp ::ₘ R) held k.vm) (h' : VmInv (sp ::ₘ R) held v')
    (hR : Untouched R held k.vm v') (hsym : v'.kmem.sym = k.vm.kmem.sym)
    (hsame : ∀ u < userPages, lookup v'.kmem.mem sp.root u = lookup k.vm.kmem.mem sp.root u) :
    Ungrown sp.root k (k.setVm v') where
  proc := rfl
  leaves := SpaceOk.lookup_eq (h.spaces sp (mem_cons_self sp R))
    (h'.spaces sp (mem_cons_self sp R)) hsame
  pages := hR.traded h h' hsym hsame

section Sbrk

variable {root : ℕ} (h : KInv extra k) (hc : Complete k) (hroot : (k.proc me).pagetable = some root)

include h hc hroot

/-- **`growproc`** cannot panic, and undoes what it did when it fails. -/
theorem growproc_spec (n : ℤ) {Q : Bool → Kernel → Prop}
    (hQ : ∀ r k', KInv extra k' → Complete k' → Keeps (otherSpaces k me) k.vm k'.vm →
      (r = false → Ungrown root k k') → Q r k') :
    wp (growproc me n) Q E k := by
  have haddr : addrOf (k.proc me).pagetable = root := by rw [hroot]; rfl
  have hvm := h.vm
  rw [spaces_cons hroot] at hvm
  have hbeyond := (hvm.spaces _ (mem_cons_self _ _)).beyond
  rw [growproc, wp_bind, wp_get]
  dsimp only
  rw [haddr]
  by_cases hpos : 0 < n
  · rw [if_pos hpos]
    by_cases htop : trapframeVa < addInt (k.proc me).sz n
    · rw [if_pos htop]
      exact hQ _ _ h hc (.refl _ _) fun _ => .refl root k
    rw [if_neg htop, wp_bind, wp_onVm]
    have hnew : addInt (k.proc me).sz n ≤ trapframeVa := Nat.le_of_not_lt htop
    by_cases hlt : addInt (k.proc me).sz n < (k.proc me).sz
    · refine uvmalloc_of_lt hlt ?_
      rw [if_neg (by omega), wp_bind, wp_updateProc]
      exact hQ _ _ (h.resize (h.size me) (.refl _ _) hvm hroot le_rfl) (hc.resize me _ _)
        (.refl _ _) nofun
    have hle := Nat.le_of_not_lt hlt
    have hup : VmInv ({ spaceOf k me root with npages := pagesOf (addInt (k.proc me).sz n) }
        ::ₘ otherSpaces k me) (extra + held k) k.vm :=
      hvm.resize (pagesOf_le hnew) fun u hu hu' => hbeyond u ((pagesOf_mono hle).trans hu) hu'
    have habs : ∀ u, pagesOf (k.proc me).sz ≤ u → u < pagesOf (addInt (k.proc me).sz n) →
        lookup k.vm.kmem.mem root u = 0#64 :=
      fun u hu hu' => hbeyond u hu (hu'.trans_le (pagesOf_le hnew))
    refine wp_imp (uvmalloc_spec hup leafPerm_grow (h.size me) hle ?_ habs) fun r v hr => ?_
    · have := pagesOf_mono hle
      change pagesOf (k.proc me).sz + _ ≤ pagesOf _
      omega
    obtain ⟨hmem, hr⟩ := hr
    rcases hr with ⟨rfl, -, hgrown, -⟩ | ⟨rfl, htrim, -⟩
    · by_cases hzero : addInt (k.proc me).sz n = 0
      · rw [if_pos hzero]
        have hsz : (k.proc me).sz = 0 := by omega
        refine hQ _ _ (h.resize_same hroot hgrown.keeps
          (hgrown.swapCount_le leafPerm_grow) ?_) (fun i hi => hc i hi) hgrown.keeps
          fun _ => .of_same hup hgrown.inv hmem hgrown.keeps.sym fun u hu => ?_
        · have hinv := hgrown.inv
          rw [hzero, ← hsz] at hinv
          exact hinv
        · refine (hgrown.rest u hu fun hin => ?_).1
          have hlast := hin.2
          rw [hzero] at hlast
          exact absurd hlast (Nat.not_lt_zero u)
      · rw [if_neg hzero, wp_bind, wp_updateProc]
        exact hQ _ _ (h.resize hnew hgrown.keeps hgrown.inv hroot
          (hgrown.swapCount_le leafPerm_grow)) (hc.resize me v _) hgrown.keeps nofun
    · rw [if_pos rfl]
      refine hQ _ _ (h.resize_same hroot htrim.keeps htrim.swapCount_le ?_) (fun i hi => hc i hi)
        htrim.keeps fun _ => .of_same hup htrim.inv hmem htrim.keeps.sym fun u hu => ?_
      · refine htrim.inv.resize (n := pagesOf (k.proc me).sz) (pagesOf_le (h.size me))
          fun u hu hu' => ?_
        by_cases hlast : u < pagesOf (addInt (k.proc me).sz n)
        · exact htrim.absent u hu' ⟨hu, hlast⟩
        · exact (htrim.inv.spaces _ (mem_cons_self _ _)).beyond u (Nat.le_of_not_lt hlast) hu'
      · by_cases hin : pagesOf (k.proc me).sz ≤ u ∧ u < pagesOf (addInt (k.proc me).sz n)
        · exact (htrim.absent u hu hin).trans (habs u hin.1 hin.2).symm
        · exact (htrim.rest u hu hin).1
  rw [if_neg hpos]
  by_cases hneg : n < 0
  · rw [if_pos hneg, wp_bind, wp_onVm]
    refine wp_imp (uvmdealloc_spec hvm (h.size me)) ?_
    rintro _ v ⟨rfl, htrim⟩
    rw [wp_bind, wp_updateProc]
    have hmin : min (k.proc me).sz (addInt (k.proc me).sz n) ≤ trapframeVa :=
      (Nat.min_le_left _ _).trans (h.size me)
    refine hQ _ _ (h.resize hmin htrim.keeps ?_ hroot htrim.swapCount_le) (hc.resize me v _)
      htrim.keeps nofun
    refine htrim.inv.resize (pagesOf_le hmin) fun u hu hu' => ?_
    by_cases hold : pagesOf (k.proc me).sz ≤ u
    · exact (htrim.inv.spaces _ (mem_cons_self _ _)).beyond u hold hu'
    · refine htrim.absent u hu' ⟨?_, Nat.lt_of_not_le hold⟩
      rcases Nat.le_total (k.proc me).sz (addInt (k.proc me).sz n) with hmle | hmle
      · rw [Nat.min_eq_left hmle] at hu
        exact absurd hu hold
      · rwa [Nat.min_eq_right hmle] at hu
  · rw [if_neg hneg]
    exact hQ _ _ h hc (.refl _ _) nofun

/-- **`sbrk`** cannot panic. -/
theorem sysSbrk_spec (n : ℤ) (eager : Bool) {Q : Option ℕ → Kernel → Prop}
    (hQ : ∀ r k', KInv extra k' → Complete k' → Keeps (otherSpaces k me) k.vm k'.vm →
      (eager = false → 0 ≤ n → k'.vm = k.vm) → Q r k') :
    wp (sysSbrk me n eager) Q E k := by
  rw [sysSbrk, wp_bind, wp_get]
  dsimp only
  by_cases hgrow : (eager || decide (n < 0)) = true
  · rw [if_pos hgrow, wp_bind]
    refine growproc_spec h hc hroot n fun r k' h' hc' hkeep _ => ?_
    have hno : eager = false → 0 ≤ n → k'.vm = k.vm := fun he hn => by
      rw [he, Bool.false_or, decide_eq_true_eq] at hgrow
      exact absurd hn (not_le.mpr hgrow)
    cases r
    · exact hQ _ _ h' hc' hkeep hno
    · exact hQ _ _ h' hc' hkeep hno
  rw [if_neg hgrow]
  split_ifs with hlt htop
  · exact hQ _ _ h hc (.refl _ _) fun _ _ => rfl
  · exact hQ _ _ h hc (.refl _ _) fun _ _ => rfl
  · rw [wp_bind, wp_updateProc]
    have hvm := h.vm
    rw [spaces_cons hroot] at hvm
    have hnew : addInt (k.proc me).sz n ≤ trapframeVa := Nat.le_of_not_lt htop
    refine hQ _ _ (h.resize hnew (.refl _ _) ?_ hroot le_rfl) (hc.resize me k.vm _) (.refl _ _)
      fun _ _ => rfl
    refine hvm.resize (pagesOf_le hnew) fun u hu hu' =>
      (hvm.spaces _ (mem_cons_self _ _)).beyond u ((pagesOf_mono ?_).trans hu) hu'
    exact Nat.le_of_not_lt hlt

end Sbrk

/-! ### `fork` -/

theorem KInv.writeHeld (h : KInv extra k) {x : ℕ} (hx : x ∈ held k) (pg : Page) :
    KInv extra (k.setVm (k.vm.setKmem (k.vm.kmem.setPage x pg))) ∧
      Keeps (spaces k) k.vm (k.vm.setKmem (k.vm.kmem.setPage x pg)) := by
  have hx' : x ∈ extra + held k := mem_add.mpr (Or.inr hx)
  have hkeep := h.vm.keeps_write hx' pg
  refine ⟨h.regive ⟨rfl, rfl, rfl, rfl, rfl, hkeep.sameNotes⟩ hkeep (h.files.congr rfl rfl) ?_, hkeep⟩
  exact h.vm.write hx' pg

theorem wp_writeHeld (h : KInv extra k) {x : ℕ} (hx : x ∈ held k) {g : Kmem → Page}
    {Q : Unit → Kernel → Prop}
    (hQ : ∀ v, KInv extra (k.setVm v) → Keeps (spaces k) k.vm v →
      v.kmem.freelist = k.vm.kmem.freelist → v.ftable = k.vm.ftable → Q () (k.setVm v)) :
    wp (onVm (onKmem (Prog.modify fun s => s.setPage x (g s)))) Q E k := by
  rw [wp_onVm, wp_onKmem, wp_modify]
  obtain ⟨hinv, hkeep⟩ := h.writeHeld hx (g k.vm.kmem)
  exact hQ _ hinv hkeep rfl rfl

theorem mem_held_trapframe {tf : ℕ} (htf : (k.proc i).trapframe = some tf) : tf ∈ held k := by
  rw [held_split k i, htf, ofOption_some, singleton_add]
  exact mem_cons_self _ _

/-- Fields of a process that the invariant does not read. -/
theorem KInv.setProc (h : KInv extra k) {p : Proc} (hp : SameCore (k.proc i) p) :
    KInv extra (k.setProc i p) :=
  h.congr rfl hp.setProc rfl rfl rfl rfl (h.files.congr rfl rfl)

/-- A change of the open files and of fields of `i` that the invariant does not read. -/
structure Dressed (extra : Multiset ℕ) (i : Fin nproc) (k k' : Kernel) : Prop where
  inv : KInv extra k'
  core : ∀ j, SameCore (k.proc j) (k'.proc j)
  others : ∀ j, j ≠ i → k'.proc j = k.proc j
  vm : k'.vm = k.vm
  created : k'.created = k.created
  initproc : k'.initproc = k.initproc

theorem SameCore.trans {p p' p'' : Proc} (h : SameCore p p') (h' : SameCore p' p'') :
    SameCore p p'' :=
  ⟨h'.pid.trans h.pid, h'.sz.trans h.sz, h'.pagetable.trans h.pagetable,
    h'.trapframe.trans h.trapframe, h'.stats.trans h.stats, h'.unused.trans h.unused⟩

theorem Dressed.refl (h : KInv extra k) : Dressed extra i k k :=
  ⟨h, fun _ => .refl _, fun _ _ => rfl, rfl, rfl, rfl⟩

theorem Dressed.trans {k'' : Kernel} (h : Dressed extra i k k') (h' : Dressed extra i k' k'') :
    Dressed extra i k k'' :=
  ⟨h'.inv, fun j => (h.core j).trans (h'.core j), fun j hj => (h'.others j hj).trans (h.others j hj),
    h'.vm.trans h.vm, h'.created.trans h.created, h'.initproc.trans h.initproc⟩

theorem Dressed.setProc (h : KInv extra k) {p : Proc} (hp : SameCore (k.proc i) p) :
    Dressed extra i k (k.setProc i p) :=
  ⟨h.setProc hp, hp.setProc, fun _ hj => Kernel.setProc_proc_of_ne _ _ hj, rfl, rfl, rfl⟩

theorem dupFiles_spec (h : KInv extra k) (hne : me ≠ np)
    (hE : ∀ fd f, (k.proc me).ofile fd = some f → E "filedup") :
    wp (dupFiles me np) (fun _ k' => Dressed extra np k k') E k := by
  refine wp_forEach (fun _ k' => Dressed extra np k k') (fun fd rest k' hk' => ?_) (.refl h)
  rw [wp_bind, wp_get, hk'.others me hne]
  cases hfd : (k.proc me).ofile fd with
  | none => exact hk'
  | some f =>
    rw [wp_bind]
    refine filedup_spec hk'.inv (hE fd f hfd) fun k₁ h₁ hs₁ hvm₁ => ?_
    have hstep : Dressed extra np k' k₁ :=
      ⟨h₁, fun j => hs₁.proc ▸ .refl _, fun j _ => by rw [hs₁.proc], hvm₁, hs₁.created, hs₁.initproc⟩
    exact (hk'.trans hstep).trans (.setProc h₁ ⟨rfl, rfl, rfl, rfl, rfl, Iff.rfl⟩)

theorem Copied.swapCount_le {op sp : Space} {R : Multiset Space} {held : Multiset ℕ} {lo hi : ℕ}
    {v v' : Vm} (h : Copied op sp R held lo hi v v') (hop : SpaceOk v op) :
    swapCount v'.kmem.mem sp.root ≤ swapCount v.kmem.mem sp.root := by
  refine Xv6.swapCount_le fun u hu hs => ?_
  by_cases hin : lo ≤ u ∧ u < hi
  · cases hval : (lookup v.kmem.mem op.root u).has pteV with
    | true =>
      obtain ⟨⟨x, -, hx⟩, -⟩ := h.copied u hin.1 hin.2 hval
      rw [hx, (((hop.leaf u hu).resident hval).leafPerm.resident x).unswapped] at hs
      nomatch hs
    | false =>
      rw [h.skipped u hin.1 hin.2 hval, Pte.has_zero] at hs
      nomatch hs
  · rw [← (h.rest u hu hin).1]
    exact hs

/-- **What a successful `fork` did.** The pages of the parent that were resident are copied, and
the others are absent in the child. -/
structure Forked (extra : Multiset ℕ) (me np : Fin nproc) (root root' : ℕ) (k k' : Kernel) :
    Prop where
  inv : KInv extra k'
  old : (k.proc np).state = .unused
  others : ∀ j, j ≠ np → k'.proc j = k.proc j
  pagetable : (k'.proc np).pagetable = some root'
  trapframe : ∃ tf, (k'.proc np).trapframe = some tf
  sz : (k'.proc np).sz = (k.proc me).sz
  pid : (k'.proc np).pid = k.created + 1
  state : (k'.proc np).state = .runnable
  keeps : Keeps (spaces k) k.vm k'.vm
  copied : ∀ u < userPages, (lookup k.vm.kmem.mem root u).has pteV = true →
    (∃ x, PageAddr x ∧
      lookup k'.vm.kmem.mem root' u = mkPte x (pteFlags (lookup k.vm.kmem.mem root u))) ∧
    logical k'.vm root' u = logical k.vm root u
  skipped : ∀ u < userPages, (lookup k.vm.kmem.mem root u).has pteV = false →
    lookup k'.vm.kmem.mem root' u = 0#64
  created : k'.created = k.created + 1
  initproc : k'.initproc = k.initproc
  free : k.freePages ≤ k'.freePages + 6 + 3 * pagesOf (k.proc me).sz

/-- A new process with a copied space, dressed up, is a fork. -/
theorem Made.forked {root tf root' : ℕ} {k₁ k₂ k' : Kernel} {v₂ v₄ : Vm}
    (hmade : Made extra np tf root' k k₁) (h : KInv extra k)
    (hroot : (k.proc me).pagetable = some root)
    (hcop : Copied (spaceOf k₁ me root)
      { spaceOf k₁ np root' with npages := pagesOf (k.proc me).sz } (otherSpaces k₁ np)
      (extra + held k₁) 0 (pagesOf (k.proc me).sz) k₁.vm v₂)
    (hkeep : Keeps (spaces k₂) v₂ v₄)
    (hk₂ : k₂ = (k₁.setVm v₂).setProc np { k₁.proc np with sz := (k.proc me).sz })
    (hlast : Dressed extra np (k₂.setVm v₄) k') (hstate : (k'.proc np).state = .runnable)
    (hfree : k₁.freePages ≤ v₄.kmem.freelist.length + 3 * pagesOf (k.proc me).sz) :
    Forked extra me np root root' k k' := by
  have hvm : k'.vm = v₄ := hlast.vm
  have hnp : k₂.proc np = { k₁.proc np with sz := (k.proc me).sz } := by
    rw [hk₂, Kernel.setProc_proc_self]
  have hcore := hlast.core np
  rw [Kernel.setVm_proc, hnp, hmade.proc] at hcore
  have hother : ∀ j, j ≠ np → k₂.proc j = k₁.proc j := fun j hj => by
    rw [hk₂, Kernel.setProc_proc_of_ne _ _ hj, Kernel.setVm_proc]
  have hspaces₂ : spaces k₂ = { spaceOf k₁ np root' with npages := pagesOf (k.proc me).sz }
      ::ₘ otherSpaces k₁ np := by
    have hspace : ({ k₁.proc np with sz := (k.proc me).sz } : Proc).space v₂.kmem.sym
        = some { spaceOf k₁ np root' with npages := pagesOf (k.proc me).sz } := by
      rw [Proc.space]
      change (k₁.proc np).pagetable.map _ = _
      rw [hmade.proc, spaceOf, hcop.keeps.sym, hmade.proc]
      rfl
    rw [hk₂, spaces_replace k₁ np _ hcop.keeps.sym, hspace, ofOption_some, singleton_add]
  have hnew : ∀ u < userPages, KeepsAt v₂ k'.vm root' u := fun u hu => by
    rw [hvm]
    exact hkeep.same { spaceOf k₁ np root' with npages := pagesOf (k.proc me).sz }
      (hspaces₂ ▸ mem_cons_self _ _) u hu
  have hsub : ∀ q ∈ spaces k, q ∈ otherSpaces k₁ np := by
    intro q hq
    obtain ⟨j, hj⟩ := mem_spaces.mp hq
    have hjn : j ≠ np := fun heq => by
      obtain ⟨r, hr, -⟩ := procSpace_eq_some.mp hj
      exact h.in_use hr (heq ▸ hmade.old)
    refine mem_otherSpaces.mpr ⟨j, hjn, ?_⟩
    have hp := hmade.others j hjn
    rw [procSpace_congr hmade.keeps.sym (by rw [hp]) (by rw [hp]) (by rw [hp]) (by rw [hp])]
    exact hj
  have hkeeps : Keeps (spaces k) k.vm k'.vm := by
    rw [hvm]
    refine (hmade.keeps.trans (hcop.keeps.mono hsub)).trans (hkeep.mono fun q hq => ?_)
    rw [hspaces₂]
    exact mem_cons_of_mem (hsub q hq)
  have hpar : ∀ u < userPages, KeepsAt k.vm k₁.vm root u :=
    hmade.keeps.same _ (spaceOf_mem hroot)
  have hbeyond : ∀ u, pagesOf (k.proc me).sz ≤ u → u < userPages →
      lookup k.vm.kmem.mem root u = 0#64 := by
    have hvm := h.vm
    rw [spaces_cons hroot] at hvm
    exact (hvm.spaces _ (mem_cons_self _ _)).beyond
  refine ⟨hlast.inv, hmade.old, fun j hj => ?_, hcore.pagetable, ⟨tf, hcore.trapframe⟩, hcore.sz,
    hcore.pid, hstate, hkeeps, fun u hu hval => ?_, fun u hu hval => ?_, ?_, ?_, ?_⟩
  · rw [hlast.others j hj, Kernel.setVm_proc, hother j hj, hmade.others j hj]
  · have hlt : u < pagesOf (k.proc me).sz := by
      by_contra hge
      rw [hbeyond u (Nat.le_of_not_lt hge) hu, Pte.has_zero] at hval
      cases hval
    have hval₁ := hval
    rw [← (hpar u hu).1] at hval₁
    obtain ⟨hentry, hdata⟩ := hcop.copied u (Nat.zero_le u) hlt hval₁
    rw [(hnew u hu).1, (hnew u hu).2, ← (hpar u hu).1, ← (hpar u hu).2]
    exact ⟨hentry, hdata⟩
  · rw [(hnew u hu).1]
    by_cases hlt : u < pagesOf (k.proc me).sz
    · rw [← (hpar u hu).1] at hval
      exact hcop.skipped u (Nat.zero_le u) hlt hval
    · exact (hcop.rest u hu fun hin => hlt hin.2).1.trans (hmade.absent u hu)
  · rw [hlast.created, hk₂]
    exact hmade.created
  · rw [hlast.initproc, hk₂]
    exact hmade.initproc
  · have hmore := hmade.free
    have hlen : k'.freePages = v₄.kmem.freelist.length := by rw [Kernel.freePages, hvm]
    omega

/-- Giving up on a new process whose space has been emptied. -/
theorem Made.undo {root tf n : ℕ} {v : Vm} (hmade : Made extra np tf root k k₁)
    (hspared : Spared extra k k₁) (h : KInv extra k)
    (hmem : Untouched (otherSpaces k₁ np) (extra + held k₁) k₁.vm v)
    (htrim : Trimmed { spaceOf k₁ np root with npages := n } (otherSpaces k₁ np)
      (extra + held k₁) (fun _ => True) k₁.vm v) {α : Type} {r : α} {Q : α → Kernel → Prop}
    (hQ : ∀ k', Undone extra k k' → Q r k') :
    wp (do
      freeproc np
      return r) Q E (k₁.setVm v) := by
  have hroot : (k₁.proc np).pagetable = some root := by rw [hmade.proc]; rfl
  have hspaces := h.otherSpaces_eq hmade.old hmade.others hmade.keeps.sym
  have hheld := h.held_eq hmade.old hmade.others hmade.file hspared.boot
  rw [wp_bind]
  refine freeproc_spec (hmade.inv.resize_same hroot htrim.keeps htrim.swapCount_le
    (htrim.inv.resize (pagesOf_le (hmade.inv.size np)) fun u _ hu => htrim.absent u hu trivial))
    fun v₃ h₃ hkeep₃ _ hmem₃ => hQ _ ?_
  refine Undone.of_freeproc h hmade.old hmade.others ?_ (hmade.keeps.trans (hspaces ▸ htrim.keeps))
    hmade.file hmade.pipe hspared.boot h₃ hkeep₃ hmem₃
  refine hspared.memory.trans (hmem.mono (fun q hq => hspaces ▸ hq) fun y hy => ?_)
  rw [held_split k₁ np, hheld]
  exact (mem_add.mp hy).elim (fun hy => mem_add.mpr (Or.inl hy)) fun hy =>
    mem_add.mpr (Or.inr (mem_add.mpr (Or.inr hy)))

section Fork

variable (h : KInv extra k) (hlt : k.created + 1 < 2 ^ 31)
  (hroot : (k.proc me).pagetable = some root)
  (hE : ∀ fd f, (k.proc me).ofile fd = some f → E "filedup")
include h hlt hroot hE

/-- The first part of **`fork`**. -/
theorem forkMake_spec {Q : Option (Fin nproc × ℤ) → Kernel → Prop} (hfail : ∀ k', Undone extra k k' →
      (∀ i, (k.proc i).state ≠ .unused) ∨ k.freePages < 6 + 3 * pagesOf (k.proc me).sz → Q none k')
    (hdone : ∀ np root' k', Forked extra me np root root' k (k'.setProc np
        { k'.proc np with parent := some me, state := .runnable }) →
      k'.vm.ftable = k.vm.ftable → Q (some (np, k.created + 1)) k') :
    wp (forkMake me) Q E k := by
  rw [forkMake, wp_bind]
  refine allocproc_spec h hlt (fun hfull => hfail k (.refl h) (Or.inl hfull))
    (fun k' hun hshort => hfail k' hun (Or.inr (lt_of_lt_of_le hshort (by omega))))
    fun np tf root' k₁ hmade hspared => ?_
  have hne : me ≠ np := fun heq => h.in_use hroot (heq ▸ hmade.old)
  have hme : k₁.proc me = k.proc me := hmade.others me hne
  have hroot₁ : (k₁.proc np).pagetable = some root' := by rw [hmade.proc]; rfl
  have hszme : (k.proc me).sz ≤ trapframeVa := h.size me
  rw [wp_bind, wp_get]
  dsimp only
  rw [wp_bind, wp_onVm, hme, hroot, hroot₁]
  have hvm₁ := hmade.inv.vm
  rw [spaces_cons hroot₁] at hvm₁
  have hup : VmInv ({ spaceOf k₁ np root' with npages := pagesOf (k.proc me).sz }
      ::ₘ otherSpaces k₁ np) (extra + held k₁) k₁.vm :=
    hvm₁.resize (pagesOf_le hszme) fun u _ hu => hmade.absent u hu
  have hop : spaceOf k₁ me root ∈ otherSpaces k₁ np :=
    spaceOf_mem_others hne (by rw [hme]; exact hroot)
  refine wp_imp (uvmcopy_spec hop hup le_rfl hmade.absent) fun ok v₂ ⟨hmem₂, hok⟩ => ?_
  cases ok with
  | false =>
    rw [if_neg Bool.false_ne_true] at hok ⊢
    obtain ⟨htrim, hshort⟩ := hok
    refine hmade.undo hspared h hmem₂ htrim fun k' hun => hfail k' hun (Or.inr ?_)
    have := hmade.free
    rw [Kernel.freePages, Kernel.freePages] at this
    rw [Kernel.freePages]
    omega
  | true =>
    rw [if_pos rfl] at hok ⊢
    obtain ⟨hcop, hft₂, hcost⟩ := hok
    have hopok : SpaceOk k₁.vm (spaceOf k₁ me root) :=
      hvm₁.spaces _ (mem_cons_of_mem hop)
    have h₂ := hmade.inv.resize hszme hcop.keeps hcop.inv hroot₁ (hcop.swapCount_le hopok)
    rw [wp_bind, wp_updateProc, Kernel.setVm_proc]
    obtain ⟨k₂, hk₂⟩ : ∃ k₂, k₂ = (k₁.setVm v₂).setProc np
      { k₁.proc np with sz := (k.proc me).sz } := ⟨_, rfl⟩
    rw [← hk₂] at h₂ ⊢
    have hvm₂ : k₂.vm = v₂ := by rw [hk₂]; rfl
    have hnp₂ : k₂.proc np = { k₁.proc np with sz := (k.proc me).sz } := by
      rw [hk₂, Kernel.setProc_proc_self]
    have hroot₂ : (k₂.proc np).pagetable = some root' := by rw [hnp₂]; exact hroot₁
    have htf₂ : (k₂.proc np).trapframe = some tf := by rw [hnp₂, hmade.proc]; rfl
    have htf : addrOf (k₁.proc np).trapframe = tf := by rw [hmade.proc]; rfl
    -- the registers
    rw [wp_bind, htf]
    refine wp_writeHeld h₂ (mem_held_trapframe htf₂) fun v₃ h₃ hkeep₃ hfree₃ hft₃ => ?_
    rw [wp_bind]
    refine wp_writeHeld h₃ (mem_held_trapframe (i := np) htf₂) fun v₄ h₄ hkeep₄ hfree₄ hft₄ => ?_
    rw [Kernel.setVm_setVm] at h₄ ⊢
    have hkeep₂₄ : Keeps (spaces k₂) v₂ v₄ := by
      rw [hvm₂] at hkeep₃
      refine hkeep₃.trans (hkeep₄.mono fun q hq => ?_)
      rw [spaces_setVm (by rw [hvm₂]; exact hkeep₃.sym)]
      exact hq
    rw [wp_bind]
    have hme₂ : (k₂.setVm v₄).proc me = k.proc me := by
      rw [Kernel.setVm_proc, hk₂, Kernel.setProc_proc_of_ne _ _ hne, Kernel.setVm_proc, hme]
    refine wp_imp (dupFiles_spec h₄ hne (by rw [hme₂]; exact hE)) fun _ k₅ h₅ => ?_
    rw [wp_pure]
    have hused : (k₅.proc np).state ≠ .unused := fun hun => by
      have := (h₅.core np).unused.mp hun
      rw [Kernel.setVm_proc, hnp₂, hmade.proc] at this
      exact absurd this (by simp [Proc.made])
    have h₆ : Dressed extra np (k₂.setVm v₄) (k₅.setProc np
        { k₅.proc np with parent := some me, state := .runnable }) :=
      h₅.trans (.setProc h₅.inv ⟨rfl, rfl, rfl, rfl, rfl,
        fun hun => absurd hun (by simp), fun hun => absurd hun hused⟩)
    have hpid : (k₁.proc np).pid = k.created + 1 := by rw [hmade.proc]; rfl
    rw [hpid]
    refine hdone np root' _ (hmade.forked h hroot hcop hkeep₂₄ ?_ h₆ ?_ ?_) ?_
    · exact hk₂
    · rw [Kernel.setProc_proc_self]
    · have hsame : v₄.kmem.freelist = v₂.kmem.freelist :=
        hfree₄.trans (hfree₃.trans (by rw [hvm₂]))
      rw [Kernel.freePages, hsame]
      exact hcost
    · rw [h₅.vm, Kernel.setVm_vm, hft₄, Kernel.setVm_vm, hft₃, hvm₂, hft₂, hspared.ftable]

theorem kfork_spec {Q : ℤ → Kernel → Prop}
    (hfail : ∀ k', Undone extra k k' →
      (∀ i, (k.proc i).state ≠ .unused) ∨ k.freePages < 6 + 3 * pagesOf (k.proc me).sz → Q (-1) k')
    (hdone : ∀ np root' k', Forked extra me np root root' k k' → k'.vm.ftable = k.vm.ftable →
      Q (k.created + 1) k') :
    wp (kfork me) Q E k := by
  rw [kfork, wp_bind]
  refine forkMake_spec h hlt hroot hE hfail fun np root' k' hf hft => ?_
  dsimp only [forkAdopt, forkStart]
  rw [wp_bind, wp_updateProc, wp_bind, wp_updateProc, wp_pure, Kernel.setProc_proc_self,
    Kernel.setProc_setProc]
  exact hdone np root' _ hf hft

end Fork

/-- Duplicating the open files changes the two tables and nothing else. -/
theorem leaves_dupFiles {β : Type} {o : Kernel → β} (hproc : ∀ k i p, o (k.setProc i p) = o k)
    (hfile : ∀ k f x, o (k.setFile f x) = o k) (me np : Fin nproc) :
    Leaves o (dupFiles me np) := by
  refine leaves_forEach (fun fd => leaves_get fun k => ?_) _
  cases (k.proc me).ofile fd with
  | none => exact leaves_pure ()
  | some f =>
    refine leaves_bind (leaves_get fun k' => ?_) fun _ =>
      leaves_modify fun _ => hproc _ _ _
    split_ifs
    · exact leaves_panic _
    · exact leaves_modify fun _ => hfile _ _ _

theorem Forked.complete {root root' : ℕ} (hf : Forked extra me np root root' k k')
    (hc : Complete k) : Complete k' := by
  intro i hi
  by_cases hin : i = np
  · rw [hin]
    exact ⟨⟨root', hf.pagetable⟩, hf.trapframe⟩
  · rw [hf.others i hin] at hi ⊢
    exact hc i hi

/-! ### What is counted -/

/-- Every frame that is registered for a process in use has been counted as resident. -/
def Kernel.Exact (k : Kernel) : Prop :=
  ∀ i, (k.proc i).state ≠ .unused → k.vm.uncounted (k.proc i).pid = 0

/-- No slot is lost, and when `C` holds every frame is still counted. -/
structure Tidy (C : Prop) (k k' : Kernel) : Prop where
  lost : k'.vm.lost = k.vm.lost
  counted : C → k.Exact → k'.Exact

section Tidy

variable {C C' : Prop}

theorem Tidy.refl (C : Prop) (k : Kernel) : Tidy C k k := ⟨rfl, fun _ h => h⟩

theorem Tidy.trans {k'' : Kernel} (h : Tidy C k k') (hC : C → C') (h' : Tidy C' k' k'') :
    Tidy C k k'' :=
  ⟨h'.lost.trans h.lost, fun hc hx => h'.counted (hC hc) (h.counted hc hx)⟩

section Same

variable (hc : Complete k) (hp : ∀ i, (k'.proc i).state ≠ .unused →
  (k.proc i).state ≠ .unused ∧ (k'.proc i).pid = (k.proc i).pid)
include hc hp

/-- Processes keep their numbers, and nothing is noted about those that are still in use. -/
theorem Tidy.of_same (hlost : k'.vm.lost = k.vm.lost)
    (hun : C → ∀ i root, (k'.proc i).state ≠ .unused → (k.proc i).pagetable = some root →
      k'.vm.uncounted (k.proc i).pid = k.vm.uncounted (k.proc i).pid) : Tidy C k k' := by
  refine ⟨hlost, fun hC h i hi => ?_⟩
  obtain ⟨hlive, hpid⟩ := hp i hi
  obtain ⟨⟨root, hroot⟩, -⟩ := hc i hlive
  rw [hpid, hun hC i root hi hroot]
  exact h i hlive

theorem Tidy.of_notes (hn : SameNotes (spaces k) k.vm k'.vm) : Tidy C k k' :=
  .of_same hc hp hn.lost fun _ _ _ _ hroot => hn.uncounted _ (spaceOf_mem hroot)

/-- Frames of a process that has none cannot be dropped. -/
theorem Tidy.of_keeps (hkeep : Keeps (otherSpaces k me) k.vm k'.vm) :
    Tidy (frameCount k.vm (k.proc me).pid = 0) k k' := by
  refine .of_same hc hp hkeep.lost fun h0 i root _ hroot => ?_
  by_cases him : i = me
  · have hle := hkeep.sameNotes.frameCount_le (k.proc me).pid
    have htally := congrFun hkeep.tally (k.proc me).pid
    rw [tally, tally] at htally
    rw [him]
    omega
  · exact hkeep.uncounted _ (spaceOf_mem_others him hroot)

end Same

theorem Tidy.of_paged (h : Paged k k') (hc : Complete k) (hn : SameNotes (spaces k) k.vm k'.vm) :
    Tidy C k k' :=
  .of_notes hc (fun i hi => ⟨h.state i ▸ hi, h.pid i⟩) hn

end Tidy

/-- Those pages of a process that meet a range of addresses are resident. -/
def Kernel.Backed (k : Kernel) (me : Fin nproc) (va len : ℕ) : Prop :=
  Xv6.Backed k.vm.kmem.mem (addrOf (k.proc me).pagetable) (pagesOf (k.proc me).sz) va len

theorem Kernel.Backed.congr {root va len : ℕ} (hb : k.Backed me va len)
    (hroot : (k.proc me).pagetable = some root) (hsz : (k.proc me).sz ≤ trapframeVa)
    (hn : SameNotes (spaces k) k.vm k'.vm) (hroot' : (k'.proc me).pagetable = (k.proc me).pagetable)
    (hsz' : (k'.proc me).sz = (k.proc me).sz) : k'.Backed me va len := by
  intro a hlo hhi hu
  rw [hsz'] at hu
  have hval := hb a hlo hhi hu
  rw [hroot] at hval
  rw [hroot', hroot]
  exact (congrArg (Pte.has · pteV)
    (hn.entry _ (spaceOf_mem hroot) _ (hu.trans_le (pagesOf_le hsz)))).trans hval

/-! ### `exit` and `wait` -/

/-- The invariant holds again and no process changed in what it reads. -/
structure SameProcs (extra : Multiset ℕ) (k k' : Kernel) : Prop where
  inv : KInv extra k'
  core : ∀ j, SameCore (k.proc j) (k'.proc j)
  created : k'.created = k.created
  initproc : k'.initproc = k.initproc
  notes : SameNotes (spaces k) k.vm k'.vm

theorem SameProcs.refl (h : KInv extra k) : SameProcs extra k k :=
  ⟨h, fun _ => .refl _, rfl, rfl, .refl _ _⟩

theorem SameProcs.spaces_eq (h : SameProcs extra k k') : spaces k' = spaces k :=
  spaces_congr fun j => procSpace_congr h.notes.sym (h.core j).pid (h.core j).sz
    (h.core j).pagetable (h.core j).trapframe

theorem SameProcs.trans {k'' : Kernel} (h : SameProcs extra k k') (h' : SameProcs extra k' k'') :
    SameProcs extra k k'' :=
  ⟨h'.inv, fun j => (h.core j).trans (h'.core j), h'.created.trans h.created,
    h'.initproc.trans h.initproc, h.notes.trans (h.spaces_eq ▸ h'.notes)⟩

theorem SameProcs.ofFileStep (h : KInv extra k') (hs : FileStep k k') : SameProcs extra k k' :=
  ⟨h, fun j => by rw [hs.proc]; exact .refl _, hs.created, hs.initproc, hs.notes⟩

theorem SameProcs.setProc (h : KInv extra k) {p : Proc} (hp : SameCore (k.proc i) p) :
    SameProcs extra k (k.setProc i p) :=
  ⟨h.setProc hp, hp.setProc, rfl, rfl, .refl _ _⟩

theorem SameProcs.tidy {C : Prop} (h : SameProcs extra k k') (hc : Complete k) : Tidy C k k' :=
  .of_notes hc (fun i hi => ⟨fun hun => hi ((h.core i).unused.mpr hun), (h.core i).pid⟩) h.notes

theorem SameProcs.complete (h : SameProcs extra k k') (hc : Complete k) : Complete k' :=
  hc.congr h.core

section Exit

variable (h : KInv extra k)
include h

theorem fdclear_spec (fd : Fin nofile) :
    wp (fdclear me fd) (fun _ k' => SameProcs extra k k') E k :=
  SameProcs.setProc h ⟨rfl, rfl, rfl, rfl, rfl, Iff.rfl⟩

theorem closeFiles_spec (hE : E "fileclose") :
    wp (closeFiles me) (fun _ k' => SameProcs extra k k') E k := by
  refine wp_forEach (fun _ k' => SameProcs extra k k') (fun fd rest k' hk' => ?_) (.refl h)
  rw [wp_bind, wp_get]
  cases (k'.proc me).ofile fd with
  | none => exact hk'
  | some f =>
    rw [wp_bind]
    refine fileclose_spec hk'.inv hE fun k₁ h₁ hs₁ => ?_
    exact wp_imp (fdclear_spec h₁ fd) fun _ k₂ h₂ =>
      (hk'.trans (.ofFileStep h₁ hs₁)).trans h₂

theorem reparent_spec :
    wp (reparent me) (fun _ k' => SameProcs extra k k') E k := by
  rw [reparent, wp_modify]
  have hcore : ∀ j, SameCore (k.proc j)
      (if (k.proc j).parent = some me then { k.proc j with parent := k.initproc } else k.proc j) := by
    intro j
    split_ifs
    · exact ⟨rfl, rfl, rfl, rfl, rfl, Iff.rfl⟩
    · exact .refl _
  exact ⟨h.congr rfl hcore rfl rfl rfl rfl (h.files.congr rfl rfl), hcore, rfl, rfl,
    .refl _ _⟩

theorem kexit_spec (hme : (k.proc me).state ≠ .unused)
    (hE : E "fileclose") (hinit : k.initproc = some me → E "init exiting") (status : ℤ) :
    wp (kexit me status) (fun _ k' => SameProcs extra k k') E k := by
  rw [kexit, wp_bind, wp_get]
  by_cases hi : k.initproc = some me
  · rw [if_pos hi]
    exact hinit hi
  · rw [if_neg hi]
    refine wp_seq (closeFiles_spec h hE) fun _ k₁ h₁ => ?_
    refine wp_seq (reparent_spec h₁.inv) fun _ k₂ h₂ => ?_
    have h₁₂ := h₁.trans h₂
    refine h₁₂.trans (.setProc h₂.inv ⟨rfl, rfl, rfl, rfl, rfl, fun hun => ?_, fun hun => ?_⟩)
    · exact absurd hun (by simp)
    · exact absurd ((h₁₂.core me).unused.mp hun) hme

theorem KInv.serviced {root : ℕ} (hroot : (k.proc me).pagetable = some root)
    (hs : Serviced (spaceOf k me root ::ₘ otherSpaces k me) (extra + held k) k k') :
    KInv extra k' := by
  rw [← spaces_cons hroot] at hs
  exact h.paged hs.paged hs.sym hs.inv hs.booked

theorem kwait_spec {root : ℕ} (hc : Complete k)
    (hroot : (k.proc me).pagetable = some root) (hE : E "clock_evict: swap full") (addr : ℕ) :
    wp (kwait me addr) (fun _ k' => KInv extra k' ∧ Complete k' ∧
      (addr = 0 ∨ k.Backed me addr 4 → Tidy True k k')) E k := by
  have hfree : ∀ {k' : Kernel} {j : Fin nproc} {pid : ℤ}, KInv extra k' → Complete k' →
      (addr = 0 ∨ k.Backed me addr 4 → Tidy True k k') →
      wp (do
        freeproc j
        return WaitResult.ret pid) (fun _ k'' => KInv extra k'' ∧ Complete k'' ∧
          (addr = 0 ∨ k.Backed me addr 4 → Tidy True k k'')) E k' := by
    intro k' j pid h' hc' ht
    rw [wp_bind]
    refine freeproc_spec h' fun v hv hkeep _ _ => ?_
    have hne : ∀ i, (((k'.setVm v).setProc j (k'.proc j).cleared).proc i).state ≠ .unused →
        i ≠ j ∧ ((k'.setVm v).setProc j (k'.proc j).cleared).proc i = k'.proc i := by
      intro i hi
      have hij : i ≠ j := by
        rintro rfl
        rw [Kernel.setProc_proc_self] at hi
        exact hi rfl
      exact ⟨hij, Kernel.setProc_proc_of_ne _ _ hij⟩
    refine ⟨hv, fun i hi => ?_, fun hb => (ht hb).trans id (.of_same hc' (fun i hi => ?_) hkeep.lost
      fun _ i root hi hroot => hkeep.uncounted _ (spaceOf_mem_others (hne i hi).1 hroot))⟩
    · have hi' := hi
      rw [(hne i hi).2] at hi' ⊢
      exact hc' i hi'
    · have hi' := hi
      rw [(hne i hi).2] at hi' ⊢
      exact ⟨hi', rfl⟩
  have haddr : addrOf (k.proc me).pagetable = root := by rw [hroot]; rfl
  rw [kwait, wp_bind, wp_get]
  dsimp only
  cases Table.first fun j => (k.proc j).parent == some me && (k.proc j).state == .zombie with
  | none =>
    dsimp only
    split_ifs
    · exact ⟨h, hc, fun _ => .refl _ k⟩
    · exact ⟨h, hc, fun _ => .refl _ k⟩
  | some j =>
    dsimp only
    rw [haddr]
    by_cases h0 : addr = 0
    · rw [if_pos h0]
      exact hfree h hc fun _ => .refl _ k
    · rw [if_neg h0]
      refine wp_seq (copyout_spec (h.faulting hroot) hE addr _) fun ok k₁ ⟨hs, hn⟩ => ?_
      have h₁ := h.serviced hroot hs
      have hc₁ := hc.paged hs.paged
      have ht : addr = 0 ∨ k.Backed me addr 4 → Tidy True k k₁ := fun hb => by
        rw [Kernel.Backed, haddr] at hb
        exact .of_paged hs.paged hc (spaces_cons hroot ▸ hn (hb.resolve_left h0))
      cases ok with
      | true => exact hfree h₁ hc₁ ht
      | false => exact ⟨h₁, hc₁, ht⟩

theorem setkilled_spec :
    wp (setkilled me) (fun _ k' => SameProcs extra k k') E k :=
  SameProcs.setProc h ⟨rfl, rfl, rfl, rfl, rfl, Iff.rfl⟩

theorem kkill_spec (pid : ℤ) :
    wp (kkill pid) (fun _ k' => SameProcs extra k k') E k := by
  rw [kkill, wp_bind, wp_get]
  cases findProc k pid with
  | none => exact .refl h
  | some i =>
    refine SameProcs.setProc h ⟨rfl, rfl, rfl, rfl, rfl, ?_⟩
    dsimp only
    split_ifs with hs
    · simp [hs]
    · exact Iff.rfl

end Exit

end Xv6
