import Xv6.ExecSpec
import Xv6.Aside

/-!
# Every step keeps the invariant

The steps of the machine one by one, then boot, then every reachable state. Each step comes with
the panics it may end in; all others, such as those of `uvmunmap` and `freewalk`, are ruled out by
the invariant.
-/

namespace Xv6

open Ledger Prog

variable {extra : Multiset ℕ} {k k' : Kernel} {me : Fin nproc} {E : String → Prop}
  {root tf va : ℕ}

/-! ### Memory accesses -/

/-- An access that is denied is to a page that lacks a flag. -/
theorem not_all_of_denied {v : Vm} {a : Access} (hmax : va < maxva)
    (hdeny : permits v root va a = false) :
    ¬((lookup v.kmem.mem root (va / pgsize)).has pteV = true ∧
      (lookup v.kmem.mem root (va / pgsize)).has pteR = true ∧
      (lookup v.kmem.mem root (va / pgsize)).has pteW = true ∧
      (lookup v.kmem.mem root (va / pgsize)).has pteU = true) := by
  rintro ⟨hV, hR, hW, hU⟩
  have hflag : (lookup v.kmem.mem root (va / pgsize)).has a.flag = true := by
    cases a
    · exact hR
    · exact hW
  simp [permits, hmax, hV, hU, hflag] at hdeny

/-- **A fault of user code**, at any address. -/
theorem vmfault_denied {sp : Space} {R : Multiset Space} {held : Multiset ℕ}
    (h : Faulting sp R held me k) {a : Access} (hdeny : permits k.vm sp.root va a = false)
    {Q : Bool → Kernel → Prop} (hQ : FaultPost sp R held me va k Q E) :
    wp (vmfault me sp.root va) Q E k := by
  by_cases hmax : va < maxva
  · exact vmfault_spec h (not_all_of_denied hmax hdeny) hQ
  · have hsz := h.bound
    have htop : trapframeVa + pgsize ≤ maxva := by decide
    have hpg : pgsize = 4096 := rfl
    have hle : (k.proc me).sz ≤ pgrounddown va := by
      rw [pgrounddown_eq]
      omega
    exact vmfault_range hle (hQ.range hle)

theorem lost_ofNotes : OfNotes fun k : Kernel => k.vm.lost :=
  ⟨fun _ _ h => congrArg Prod.fst h, fun _ _ _ _ => rfl⟩

/-- A fault on a page that is not swapped out changes nothing that is noted. -/
theorem vmfault_unswapped (hbound : (k.proc me).sz ≤ trapframeVa)
    (hs : (lookup k.vm.kmem.mem root (va / pgsize)).has pteSwapped = false) :
    wp (vmfault me root va) (fun _ k' => k'.vm.notes = k.vm.notes) (fun _ => True) k := by
  have hlazy : Leaves (fun k : Kernel => k.vm.notes) (vmfaultLazy me root (va / pgsize * pgsize)) :=
    vmfaultLazy_leaves ⟨fun _ _ h => h, fun _ _ _ _ => rfl⟩ _ _
  rw [vmfault, wp_bind, wp_get]
  dsimp only
  rw [pgrounddown]
  split_ifs with hva
  · rfl
  rw [wp_bind, wp_onVm, wp_onKmem]
  have hv : va / pgsize < userPages := by
    have htop := userPages_mul_pgsize
    simp only [pgsize] at hva htop ⊢
    omega
  refine walk_spec (lt_maxVpn hv) ?_
  cases hl : leafTable k.vm.kmem.mem root (pathOf (va / pgsize)) with
  | none => exact hlazy k
  | some t =>
    rw [lookup_of_some hl] at hs
    simp only [Option.map_some, wp_bind, wp_onVm, wp_onKmem, wp_readPte, Vm.setKmem_self,
      Kernel.setVm_self, hs, Bool.and_false, Bool.false_eq_true, if_false]
    exact hlazy k

theorem Calling.vmfault (h : Calling extra me k) (hroot : (k.proc me).pagetable = some root)
    {a : Access} (hdeny : permits k.vm root va a = false) (hfull : E "clock_evict: swap full")
    (hremap : E "mappages: remap") :
    wp (vmfault me root va) (fun _ k' => Calling extra me k' ∧
      Tidy ((lookup k.vm.kmem.mem root (va / pgsize)).has pteSwapped = false) k k') E k := by
  have hspec : wp (Xv6.vmfault me root va) (fun _ k' => Calling extra me k' ∧ Paged k k') E k :=
    vmfault_denied (h.inv.faulting hroot) hdeny ⟨fun _ _ _ _ => hfull, fun _ _ _ => hremap,
      fun _ => ⟨h, .refl k⟩, fun _ _ _ => ⟨h, .refl k⟩,
      fun _ _ _ hr => ⟨h.serviced hroot hr.serviced, hr.paged⟩,
      fun _ _ _ _ hp => ⟨h.serviced hroot hp.serviced, hp.serviced.paged⟩⟩
  by_cases hs : (lookup k.vm.kmem.mem root (va / pgsize)).has pteSwapped = false
  · refine wp_mono (wp_and hspec (vmfault_unswapped (h.inv.size me) hs)) ?_ fun _ he => he.1
    rintro _ k' ⟨⟨h', hp⟩, hnotes⟩
    exact ⟨h', .of_same h.complete (fun i hi => ⟨hp.state i ▸ hi, hp.pid i⟩)
      (congrArg Prod.fst hnotes) fun _ i _ _ _ =>
        congrFun (congrArg Prod.snd hnotes) _⟩
  · have hadd : ∀ pa pid va, Leaves Vm.lost (frametableAddUncounted pa pid va) := fun _ _ _ =>
      leaves_bind (leaves_frametableAdd (fun _ _ _ => rfl) _ _ _) fun _ => leaves_modify fun _ => rfl
    have hleave : Leaves _ (Xv6.vmfault me root va) := vmfault_leaves lost_ofNotes
      (fun pa pid va k => wp_onVm.mpr (hadd pa pid va k.vm)) root va
    refine wp_mono (wp_and hspec (hleave k)) ?_ fun _ he => he.1
    exact fun _ k' ⟨⟨h', _⟩, hlost⟩ => ⟨h', hlost, fun hs' => absurd hs' hs⟩

theorem Calling.sameProcs (h : Calling extra me k) (hs : SameProcs extra k k') :
    Calling extra me k' :=
  ⟨hs.inv, hs.complete h.complete, fun hun => h.live ((hs.core me).unused.mp hun)⟩

/-- The page of an address is not swapped out. -/
def Kernel.Unswapped (k : Kernel) (me : Fin nproc) (va : ℕ) : Prop :=
  (lookup k.vm.kmem.mem (addrOf (k.proc me).pagetable) (va / pgsize)).has pteSwapped = false

/-- A permitted access is to a page of the process. -/
theorem Faulting.of_permits {sp : Space} {R : Multiset Space} {held : Multiset ℕ} {a : Access}
    (h : Faulting sp R held me k) (hp : permits k.vm sp.root va a = true) :
    va / pgsize < sp.npages ∧ (lookup k.vm.kmem.mem sp.root (va / pgsize)).has pteV = true := by
  simp only [permits, Bool.and_eq_true, decide_eq_true_eq] at hp
  obtain ⟨⟨⟨hmax, hV⟩, hU⟩, -⟩ := hp
  have hv : va / pgsize < maxVpn := by
    have hmul : maxVpn * pgsize = maxva := by decide
    exact Nat.div_lt_of_lt_mul (by rw [Nat.mul_comm, hmul]; exact hmax)
  have hpage : userPage (lookup k.vm.kmem.mem sp.root (va / pgsize))
      = some (pte2pa (lookup k.vm.kmem.mem sp.root (va / pgsize))) := by
    rw [userPage, if_pos ⟨hV, hU⟩]
  exact ⟨(h.of_userPage hv hpage).1, hV⟩

section Trap

variable (h : Calling extra me k)
  (hE : ∀ e ∈ ["clock_evict: swap full", "mappages: remap", "fileclose", "init exiting"], E e)
include h hE

/-- **A trap** of user code that was denied an access. -/
theorem usertrapFault_spec (hroot : (k.proc me).pagetable = some root) {a : Access}
    (hdeny : permits k.vm root va a = false) :
    wp (usertrapFault me va) (fun _ k' => Calling extra me k' ∧
      Tidy ((lookup k.vm.kmem.mem root (va / pgsize)).has pteSwapped = false) k k') E k := by
  have haddr : addrOf (k.proc me).pagetable = root := by rw [hroot]; rfl
  have hexit : ∀ {C : Prop} {k' : Kernel}, Calling extra me k' ∧ Tidy C k k' →
      wp (do
        let k ← Prog.get
        if (k.proc me).killed then kexit me (-1))
        (fun _ k' => Calling extra me k' ∧ Tidy C k k') E k' := by
    intro C k' h'
    rw [wp_bind, wp_get]
    split_ifs
    · exact wp_imp (kexit_spec h'.1.inv h'.1.live (hE _ (by simp)) (fun _ => hE _ (by simp)) _)
        fun _ _ hs => ⟨h'.1.sameProcs hs, h'.2.trans id (hs.tidy h'.1.complete)⟩
    · exact h'
  rw [usertrapFault, wp_bind, wp_get, haddr]
  refine wp_seq (h.vmfault hroot hdeny (hE _ (by simp)) (hE _ (by simp))) fun ok k₁ h₁ => ?_
  cases ok with
  | true => exact hexit h₁
  | false =>
    rw [if_neg Bool.false_ne_true]
    exact wp_seq (setkilled_spec h₁.1.inv) fun _ k₂ hs =>
      hexit ⟨h₁.1.sameProcs hs, h₁.2.trans id (hs.tidy h₁.1.complete)⟩

theorem userLoad_spec :
    wp (userLoad me va) (fun _ k' => Calling extra me k' ∧ Tidy (k.Unswapped me va) k k') E k := by
  obtain ⟨root, tf, hroot, -⟩ := h.memory
  have haddr : addrOf (k.proc me).pagetable = root := by rw [hroot]; rfl
  rw [userLoad, wp_bind, wp_get, Kernel.Unswapped, haddr]
  split_ifs with hp
  · exact ⟨h, .refl _ k⟩
  · exact usertrapFault_spec h hE hroot (Bool.eq_false_of_not_eq_true hp)

theorem userStore_spec (b : Byte) :
    wp (userStore me va b) (fun _ k' => Calling extra me k' ∧ Tidy (k.Unswapped me va) k k')
      E k := by
  obtain ⟨root, tf, hroot, -⟩ := h.memory
  have haddr : addrOf (k.proc me).pagetable = root := by rw [hroot]; rfl
  rw [userStore, wp_bind, wp_get, Kernel.Unswapped]
  dsimp only
  rw [haddr]
  split_ifs with hp
  · have hf := h.inv.faulting hroot
    obtain ⟨hn, hval⟩ := hf.of_permits hp
    exact copyoutMove_spec hf.inv (Multiset.mem_cons_self _ _) (hf.user hn) hval fun k' hs hn =>
      ⟨h.serviced hroot hs, .of_paged hs.paged h.complete (spaces_cons hroot ▸ hn)⟩
  · exact usertrapFault_spec h hE hroot (Bool.eq_false_of_not_eq_true hp)

end Trap

/-! ### System calls on files -/

theorem fdalloc_spec (h : KInv extra k) (f : Fin nfile) :
    wp (fdalloc me f) (fun _ k' => SameProcs extra k k' ∧ k'.file = k.file) E k := by
  rw [fdalloc, wp_bind, wp_get]
  cases Table.first fun fd => ((k.proc me).ofile fd).isNone with
  | none => exact ⟨.refl h, rfl⟩
  | some fd =>
    rw [wp_bind, wp_updateProc, wp_pure]
    exact ⟨.setProc h ⟨rfl, rfl, rfl, rfl, rfl, Iff.rfl⟩, rfl⟩

theorem fileclose_same (h : KInv extra k) (hE : E "fileclose") (f : Fin nfile) :
    wp (fileclose f) (fun _ k' => SameProcs extra k k') E k :=
  fileclose_spec h hE fun _ h' hs => .ofFileStep h' hs

theorem Calling.copyout (h : Calling extra me k) (hE : E "clock_evict: swap full") (dstva : ℕ)
    (src : List Byte) :
    wp (copyout me (addrOf (k.proc me).pagetable) dstva src) (fun _ k' => Calling extra me k' ∧
      Paged k k' ∧ (k.Backed me dstva src.length → SameNotes (spaces k) k.vm k'.vm)) E k := by
  obtain ⟨root, tf, hroot, -⟩ := h.memory
  rw [Kernel.Backed, hroot, spaces_cons hroot]
  exact wp_imp (copyout_spec (h.inv.faulting hroot) hE dstva src) fun _ k' hs =>
    ⟨h.serviced hroot hs.1, hs.1.paged, hs.2⟩

theorem closeBoth_spec (h : KInv extra k) (hE : E "fileclose") (rf wf : Fin nfile)
    {r : Bool} :
    wp (do
      fileclose rf
      fileclose wf
      return r) (fun _ k' => SameProcs extra k k') E k := by
  refine wp_seq (fileclose_same h hE rf) fun _ k₁ h₁ => ?_
  rw [wp_bind]
  exact wp_imp (fileclose_same h₁.inv hE wf) fun _ k₂ h₂ => h₁.trans h₂

theorem sysPipe_spec (h : Calling extra me k) (hclose : E "fileclose")
    (hfull : E "clock_evict: swap full") {fdarray : ℕ} {B : Prop}
    (hB : B → k.Backed me fdarray 4 ∧ k.Backed me (u64 (fdarray + 4)) 4) :
    wp (sysPipe me fdarray) (fun _ k' => Calling extra me k' ∧ (B → Tidy True k k')) E k := by
  obtain ⟨root, -, hroot, -⟩ := h.memory
  have hsame : ∀ {k' : Kernel}, SameProcs extra k k' → Calling extra me k' ∧ (B → Tidy True k k') :=
    fun hs => ⟨h.sameProcs hs, fun _ => hs.tidy h.complete⟩
  rw [sysPipe, wp_bind]
  refine pipealloc_spec h.inv hclose fun r k₁ h₁ hs₁ => ?_
  have hk₁ : SameProcs extra k k₁ := .ofFileStep h₁ hs₁
  rcases r with _ | ⟨rf, wf⟩
  · exact hsame hk₁
  dsimp only
  refine wp_seq (fdalloc_spec hk₁.inv rf) fun r₂ k₂ h₂ => ?_
  have hk₂ := hk₁.trans h₂.1
  cases r₂ with
  | none => exact wp_imp (closeBoth_spec hk₂.inv hclose rf wf) fun _ _ hs => hsame (hk₂.trans hs)
  | some fd0 =>
    dsimp only
    refine wp_seq (fdalloc_spec hk₂.inv wf) fun r₃ k₃ h₃ => ?_
    have hk₃ := hk₂.trans h₃.1
    cases r₃ with
    | none =>
      dsimp only
      exact wp_seq (fdclear_spec hk₃.inv fd0) fun _ k₄ h₄ =>
        wp_imp (closeBoth_spec h₄.inv hclose rf wf) fun _ _ hs => hsame ((hk₃.trans h₄).trans hs)
    | some fd1 =>
      have hundo : ∀ {k₄ : Kernel}, Calling extra me k₄ → (B → Tidy True k k₄) →
          wp (do
            fdclear me fd0
            fdclear me fd1
            fileclose rf
            fileclose wf
            return false) (fun _ k' => Calling extra me k' ∧ (B → Tidy True k k')) E k₄ := by
        intro k₄ h₄ ht
        refine wp_seq (fdclear_spec h₄.inv fd0) fun _ k₅ h₅ => ?_
        refine wp_seq (fdclear_spec h₅.inv fd1) fun _ k₆ h₆ => ?_
        refine wp_imp (closeBoth_spec h₆.inv hclose rf wf) fun _ _ hs => ?_
        have hall := (h₅.trans h₆).trans hs
        exact ⟨h₄.sameProcs hall, fun hb => (ht hb).trans id (hall.tidy h₄.complete)⟩
      dsimp only
      rw [wp_bind, wp_get]
      have hc₃ := h.sameProcs hk₃
      refine wp_seq (hc₃.copyout hfull fdarray _) fun ok k₄ ⟨h₄, hp₄, hn₄⟩ => ?_
      -- entries are the same up to here, and then as long as the pages are resident
      have hcore := hk₃.core me
      have hb₃ : B → SameNotes (spaces k₃) k₃.vm k₄.vm := fun hb =>
        hn₄ ((hB hb).1.congr hroot (h.inv.size me) hk₃.notes hcore.pagetable hcore.sz)
      have ht₄ : B → Tidy True k k₄ := fun hb =>
        (hk₃.tidy h.complete).trans id (.of_paged hp₄ hc₃.complete (hb₃ hb))
      cases ok with
      | false => exact hundo h₄ ht₄
      | true =>
        rw [if_pos rfl, wp_bind, ← hp₄.pagetable me]
        refine wp_imp (h₄.copyout hfull _ _) fun ok k₅ ⟨h₅, hp₅, hn₅⟩ => ?_
        have ht₅ : B → Tidy True k k₅ := fun hb =>
          (ht₄ hb).trans id (.of_paged hp₅ h₄.complete (hn₅ ((hB hb).2.congr hroot
            (h.inv.size me) (hk₃.notes.trans (hk₃.spaces_eq ▸ hb₃ hb))
            ((hp₄.pagetable me).trans hcore.pagetable) ((hp₄.sz me).trans hcore.sz))))
        cases ok with
        | false => exact hundo h₅ ht₅
        | true => exact ⟨h₅, ht₅⟩

theorem sysDup_spec (h : KInv extra k) (hE : E "filedup") (fd : Fin nofile) :
    wp (sysDup me fd) (fun _ k' => SameProcs extra k k') E k := by
  rw [sysDup, wp_bind, wp_get]
  cases (k.proc me).ofile fd with
  | none => exact .refl h
  | some f =>
    dsimp only
    refine wp_seq (fdalloc_spec h f) fun r k₁ h₁ => ?_
    cases r with
    | none => exact h₁.1
    | some fd' =>
      dsimp only
      rw [wp_bind]
      exact filedup_spec h₁.1.inv hE fun k₂ h₂ hs₂ _ => h₁.1.trans (.ofFileStep h₂ hs₂)

theorem sysClose_spec (h : KInv extra k) (hE : E "fileclose") (fd : Fin nofile) :
    wp (sysClose me fd) (fun _ k' => SameProcs extra k k') E k := by
  rw [sysClose, wp_bind, wp_get]
  cases (k.proc me).ofile fd with
  | none => exact .refl h
  | some f =>
    dsimp only
    refine wp_seq (fdclear_spec h fd) fun _ k₁ h₁ => ?_
    rw [wp_bind]
    exact wp_imp (fileclose_same h₁.inv hE f) fun _ k₂ h₂ => h₁.trans h₂

theorem sysOpen_spec (h : KInv extra k) (hE : E "fileclose")
    (device readable writable : Bool) :
    wp (sysOpen me device readable writable) (fun _ k' => SameProcs extra k k') E k := by
  rw [sysOpen, wp_bind]
  refine filealloc_spec h (.refl h) fun f k₁ h₁ hs₁ _ _ _ _ href htype => ?_
  have hk₁ : SameProcs extra k k₁ := .ofFileStep h₁ hs₁
  dsimp only
  refine wp_seq (fdalloc_spec h₁ f) ?_
  rintro (_ | fd) k₂ ⟨hs₂, hfile⟩
  · dsimp only
    rw [wp_bind]
    exact wp_imp (fileclose_same hs₂.inv hE f) fun _ k₃ h₃ => (hk₁.trans hs₂).trans h₃
  · dsimp only
    rw [wp_bind, updateFile, wp_modify, wp_pure]
    refine (hk₁.trans hs₂).trans (.ofFileStep (hs₂.inv.setFile (fun href' => ?_) (Or.inr ⟨?_, ?_⟩))
      (Kernel.fileStep_setFile _ _ _))
    · rw [hfile, href] at href'
      exact absurd href' Nat.one_ne_zero
    · rw [hfile, htype]
      decide
    · cases device
      · exact FileType.noConfusion
      · exact FileType.noConfusion

/-! ### Steps -/

/-- The invariant between steps. -/
structure KOk (k : Kernel) : Prop where
  inv : KInv 0 k
  complete : Complete k

theorem KOk.calling (h : KOk k) (hme : (k.proc me).state = .running) : Calling 0 me k :=
  ⟨h.inv, h.complete, by rw [hme]; exact ProcState.noConfusion⟩

theorem Calling.ok (h : Calling 0 me k) : KOk k := ⟨h.inv, h.complete⟩

/-- How a step may stop the machine. What `exec`, `exit`, `close` and `open` do in the file system is
not part of these steps, and its panics are not listed. -/
def Op.panics : Op → List String
  | load _ _ | store _ _ _ =>
    ["clock_evict: swap full", "mappages: remap", "fileclose", "init exiting"]
  | sbrk _ _ _ | kill _ _ | schedule _ _ _ => []
  | fork _ | dup _ _ => ["filedup"]
  | exec _ _ _ _ | wait _ _ | copyout _ _ _ | copyin _ _ _ => ["clock_evict: swap full"]
  | exit _ _ => ["fileclose", "init exiting"]
  | pipe _ _ => ["clock_evict: swap full", "fileclose"]
  | close _ _ | openFile _ _ _ _ => ["fileclose"]

theorem ProcState.Live.ne_unused {s : ProcState} (h : s.Live) : s ≠ .unused := by
  rcases h with rfl | rfl | rfl <;> exact ProcState.noConfusion

/-- The system call finds the pages resident that it copies to or from. -/
def Op.Backed (k : Kernel) : Op → Prop
  | copyout me dstva src => k.Backed me dstva src.length
  | copyin me srcva len => k.Backed me srcva len
  | wait me addr => addr = 0 ∨ k.Backed me addr 4
  | pipe me fdarray => k.Backed me fdarray 4 ∧ k.Backed me (u64 (fdarray + 4)) 4
  | exec me _ _ uargv => ∀ i < maxarg, k.Backed me (u64 (uargv + 8 * i)) 8
  | _ => True

/-- The step neither swaps a page in nor unmaps a page that has a frame. -/
def Op.Counts (k : Kernel) : Op → Prop
  | load me va | store me va _ => k.Unswapped me va
  | sbrk me n eager => eager = false ∧ 0 ≤ n ∨ frameCount k.vm (k.proc me).pid = 0
  | exec me _ _ _ => frameCount k.vm (k.proc me).pid = 0
  | _ => True

/-- What a step does: it keeps the invariant, and if it finds its pages resident it keeps the
accounts. -/
structure Op.Done (op : Op) (k k' : Kernel) : Prop where
  ok : KOk k'
  tidy : op.Backed k → Tidy (op.Counts k) k k'

theorem SameProcs.done {op : Op} (hs : SameProcs 0 k k') (h : KOk k) : op.Done k k' :=
  ⟨⟨hs.inv, hs.complete h.complete⟩, fun _ => hs.tidy h.complete⟩

/-- No frame is registered for a process number that has not been given out. -/
theorem KInv.frameCount_fresh (h : KInv extra k) {pid : ℤ} (hpid : k.created < pid) :
    frameCount k.vm pid = 0 := by
  refine Table.count_eq_zero.mpr fun f => Bool.eq_false_of_not_eq_true fun hf => ?_
  rw [Bool.and_eq_true, beq_iff_eq] at hf
  obtain ⟨sp, hsp, u, hd⟩ := h.vm.entries f hf.1
  obtain ⟨j, hj⟩ := mem_spaces.mp hsp
  obtain ⟨r, -, rfl⟩ := procSpace_eq_some.mp hj
  have hle := h.pid_le j
  have hown : (k.vm.ftable f).pid = (k.proc j).pid := hd.pid
  omega

theorem Forked.tidy {np : Fin nproc} {root' : ℕ} {C : Prop} (hf : Forked extra me np root root' k k')
    (h : KInv extra k) (hc : Complete k) : Tidy C k k' := by
  refine ⟨hf.keeps.lost, fun _ hx i hi => ?_⟩
  by_cases hin : i = np
  · have hfresh := h.books.fresh (k.created + 1) (lt_add_one _)
    have htally := congrFun hf.keeps.tally (k.created + 1)
    have hle := hf.keeps.sameNotes.frameCount_le (k.created + 1)
    rw [h.frameCount_fresh (lt_add_one _)] at hle
    rw [← htally, tally] at hfresh
    rw [hin, hf.pid]
    omega
  · rw [hf.others i hin] at hi ⊢
    obtain ⟨⟨r, hr⟩, -⟩ := hc i hi
    exact (hf.keeps.uncounted _ (spaceOf_mem hr)).trans (hx i hi)

/-- **A step keeps the invariant**, or ends in one of its panics. -/
theorem Op.run_spec {op : Op} (h : KOk k) (hen : op.Enabled k)
    (hpid : ∀ me, op = .fork me → k.created + 1 < 2 ^ 31) :
    wp op.run (fun _ k' => op.Done k k') (· ∈ op.panics) k := by
  cases op with
  | load me va =>
    exact wp_imp (userLoad_spec (h.calling hen) fun _ => id) fun _ _ h' => ⟨h'.1.ok, fun _ => h'.2⟩
  | store me va b =>
    exact wp_imp (userStore_spec (h.calling hen) (fun _ => id) b) fun _ _ h' =>
      ⟨h'.1.ok, fun _ => h'.2⟩
  | sbrk me n eager =>
    obtain ⟨root, tf, hroot, -⟩ := (h.calling hen).memory
    rw [run]
    have hspec : wp (sysSbrk me n eager) (fun _ k' => KOk k' ∧
        Keeps (otherSpaces k me) k.vm k'.vm ∧ (eager = false → 0 ≤ n → k'.vm = k.vm))
        (· ∈ panics (.sbrk me n eager)) k :=
      sysSbrk_spec h.inv h.complete hroot n eager fun _ _ h' hc' hk hv => ⟨⟨h', hc'⟩, hk, hv⟩
    refine wp_seq (wp_mono (wp_and hspec (sysSbrk_leaves Kernel.marks_aside n eager k))
      (fun _ _ h' => h') fun _ he => he.1) fun _ k' ⟨⟨hok, hkeep, hvm⟩, hmarks⟩ => ⟨hok, fun _ => ?_⟩
    have hp : ∀ i, (k'.proc i).state ≠ .unused →
        (k.proc i).state ≠ .unused ∧ (k'.proc i).pid = (k.proc i).pid := fun i hi =>
      ⟨fun hun => hi ((congrArg Mark.state (congrFun hmarks i)).trans hun),
        congrArg Mark.pid (congrFun hmarks i)⟩
    refine ⟨hkeep.lost, fun hc hx => ?_⟩
    rcases hc with ⟨he, hn⟩ | h0
    · exact (Tidy.of_same h.complete hp hkeep.lost fun _ _ _ _ _ => by rw [hvm he hn]).counted
        trivial hx
    · exact (Tidy.of_keeps h.complete hp hkeep).counted h0 hx
  | fork me =>
    obtain ⟨root, tf, hroot, -⟩ := (h.calling hen).memory
    rw [run, wp_bind]
    refine kfork_spec h.inv (hpid me rfl) hroot (by simp [panics])
      (fun k' hun _ => ⟨⟨hun.inv, hun.complete h.complete⟩, fun _ => ?_⟩)
      fun _ _ _ hf _ => ⟨⟨hf.inv, hf.complete h.complete⟩, fun _ => hf.tidy h.inv h.complete⟩
    refine .of_notes h.complete (fun i hi => ?_) hun.keeps.sameNotes
    rcases hun.procs i with heq | ⟨-, hno⟩
    · rw [heq] at hi ⊢
      exact ⟨hi, rfl⟩
    · exact absurd hno hi
  | exec me fs path uargv =>
    rw [run]
    exact wp_seq (sysExec_spec (h.calling hen) (by simp [panics]) fs path id)
      fun _ _ h' => ⟨h'.1.ok, h'.2⟩
  | exit me status =>
    exact wp_imp (kexit_spec h.inv (h.calling hen).live (by simp [panics])
      (fun _ => by simp [panics]) status) fun _ _ hs => hs.done h
  | wait me addr =>
    obtain ⟨root, tf, hroot, -⟩ := (h.calling hen).memory
    rw [run]
    exact wp_seq (kwait_spec h.inv h.complete hroot (by simp [panics]) addr)
      fun _ _ h' => ⟨⟨h'.1, h'.2.1⟩, h'.2.2⟩
  | kill me pid =>
    rw [run]
    exact wp_seq (kkill_spec h.inv pid) fun _ _ hs => hs.done h
  | copyout me dstva src =>
    rw [run, wp_bind, wp_get]
    exact wp_seq ((h.calling hen).copyout (by simp [panics]) dstva src)
      fun _ _ h' => ⟨h'.1.ok, fun hb => .of_paged h'.2.1 h.complete (h'.2.2 hb)⟩
  | copyin me srcva len =>
    have hc := h.calling hen
    obtain ⟨root, tf, hroot, -⟩ := hc.memory
    rw [run, wp_bind, wp_get, wp_bind, hroot]
    refine wp_imp (copyin_spec (h.inv.faulting hroot) (by simp [panics]) srcva len)
      fun _ k' hs => ⟨(hc.serviced hroot hs.1).ok, fun hb => ?_⟩
    rw [Op.Backed, Kernel.Backed, hroot] at hb
    rw [hs.2 hb]
    exact .refl _ k
  | pipe me fdarray =>
    rw [run]
    exact wp_seq (sysPipe_spec (h.calling hen) (by simp [panics]) (by simp [panics]) id)
      fun _ _ h' => ⟨h'.1.ok, h'.2⟩
  | dup me fd =>
    rw [run]
    exact wp_seq (sysDup_spec h.inv (by simp [panics]) fd) fun _ _ hs => hs.done h
  | close me fd =>
    rw [run]
    exact wp_seq (sysClose_spec h.inv (by simp [panics]) fd) fun _ _ hs => hs.done h
  | openFile me device readable writable =>
    rw [run]
    exact wp_seq (sysOpen_spec h.inv (by simp [panics]) device readable writable)
      fun _ _ hs => hs.done h
  | schedule p state level =>
    obtain ⟨hold, hnew⟩ := hen
    have hcore : SameCore (k.proc p) { k.proc p with state := state, mlfqLevel := (level : ℕ) } :=
      ⟨rfl, rfl, rfl, rfl, rfl, fun hun => absurd hun hnew.ne_unused,
        fun hun => absurd hun hold.ne_unused⟩
    exact (SameProcs.setProc h.inv hcore).done h

/-! ### Process numbers

Only `allocpid` gives out a process number, and it does so once in a `fork`. -/

theorem leaves_onVm {α : Type} (x : Prog Vm α) : Leaves Kernel.created (onVm x) :=
  leaves_zoom (fun _ _ => rfl) x

theorem leaves_updateProc (i : Fin nproc) (f : Proc → Proc) :
    Leaves Kernel.created (updateProc i f) :=
  leaves_modify fun _ => rfl

theorem leaves_freeproc (i : Fin nproc) : Leaves Kernel.created (freeproc i) := by
  refine leaves_get fun k => leaves_bind ?_ fun _ =>
    leaves_bind ?_ fun _ => leaves_updateProc _ _
  · cases (k.proc i).trapframe
    · exact leaves_pure ()
    · exact leaves_onVm _
  · cases (k.proc i).pagetable
    · exact leaves_pure ()
    · exact leaves_onVm _

theorem allocproc_created (k : Kernel) :
    wp allocproc (fun r k' => (r = none ∧ k' = k) ∨ k'.created = k.created + 1)
      (fun _ => True) k := by
  rw [allocproc, wp_bind, wp_get]
  cases Table.first fun i => (k.proc i).state == .unused with
  | none => exact Or.inl ⟨rfl, rfl⟩
  | some i =>
    dsimp only
    rw [wp_bind, allocpid, wp_bind, wp_get, wp_bind, wp_modify,
      wp_pure]
    have hgive : ∀ {r : Option (Fin nproc)}, Leaves Kernel.created (do
        freeproc i
        return r) := (leaves_freeproc i).ret
    refine wp_imp (leaves_bind (leaves_updateProc _ _) (fun _ =>
      leaves_bind (leaves_onVm _) fun tf => leaves_bind (leaves_updateProc _ _)
        fun _ => ?_) _) fun r k' hk' => Or.inr hk'
    cases tf with
    | none => exact hgive
    | some tf =>
      refine leaves_bind (leaves_onVm _) fun pagetable =>
        leaves_bind (leaves_updateProc _ _) fun _ => ?_
      cases pagetable with
      | none => exact hgive
      | some root => exact leaves_pure _

/-- `fork` gives out a process number, unless the process table is full. -/
theorem kfork_created (me : Fin nproc) (k : Kernel) :
    wp (kfork me) (fun r k' => r = -1 ∧ k' = k ∨ k'.created = k.created + 1)
      (fun _ => True) k := by
  rw [kfork, forkMake, bind_assoc]
  refine wp_seq (allocproc_created k) ?_
  rintro (_ | np) k₁ (⟨hr, hk₁⟩ | hk₁)
  · exact Or.inl ⟨rfl, hk₁⟩
  · exact Or.inr hk₁
  · cases hr
  · refine wp_imp (leaves_bind (o := Kernel.created) (leaves_get fun k₂ => leaves_bind
      (leaves_onVm _) fun ok => leaves_ite ?_ (leaves_freeproc np).ret) (fun r => ?_) k₁)
      fun _ k' hk' => Or.inr (hk'.trans hk₁)
    · exact leaves_bind (leaves_updateProc _ _) fun _ =>
        leaves_bind (leaves_onVm _) fun _ => leaves_bind (leaves_onVm _) fun _ =>
        (leaves_dupFiles (fun _ _ _ => rfl) (fun _ _ _ => rfl) _ _).ret
    · cases r with
      | none => exact leaves_pure _
      | some r => exact leaves_bind (leaves_updateProc _ _) fun _ => (leaves_updateProc _ _).ret

/-- A step from a state with the invariant leads to one, if process numbers did not run out. -/
theorem KOk.step {op : Op} (h : KOk k) (hen : op.Enabled k) (hrun : op.run k = .ok ((), k'))
    (hpids : k'.created < 2 ^ 31) : op.Done k k' := by
  by_cases hpid : ∀ me, op = .fork me → k.created + 1 < 2 ^ 31
  · have hdone := wp_ok (Op.run_spec h hen hpid) hrun
    exact hdone
  · obtain ⟨me, rfl, hlast⟩ : ∃ me, op = .fork me ∧ ¬k.created + 1 < 2 ^ 31 := by
      simpa using hpid
    have hfork : wp (Op.run (.fork me)) (fun _ k' => k' = k ∨ k'.created = k.created + 1)
        (fun _ => True) k := by
      rw [Op.run]
      exact wp_seq (kfork_created me k) fun _ _ hk => hk.imp_left And.right
    rcases wp_ok hfork hrun with rfl | hcreated
    · exact ⟨h, fun _ => .refl _ _⟩
    · omega

end Xv6
