import Xv6.SystemSpec

/-!
# Boot

The machine starts with zeroed tables, puts every page on the free list, takes what the kernel
needs for itself, and makes one process that replaces itself by `/init`.
-/

namespace Xv6

open Ledger Prog Multiset

variable {b : Boot} {k k' : Kernel} {i : Fin nproc} {E : String → Prop}

/-! ### The free list -/

theorem Boot.kinv_start {s : Kmem} (hsym : s.sym = b.sym) (hre : s.refreed = false)
    (hF : (s.freelist : Multiset ℕ) = physPages b.sym) :
    KInv 0 (b.start.setVm (b.start.vm.setKmem s)) := by
  obtain ⟨k, hk⟩ : ∃ k, k = b.start.setVm (b.start.vm.setKmem s) := ⟨_, rfl⟩
  have hproc : k.proc = fun _ => .empty := by rw [hk]; rfl
  have hspaces : spaces k = 0 := by
    refine Finset.sum_eq_zero fun i _ => ?_
    rw [procSpace, hproc]
    rfl
  have hheld : held k = 0 := by
    have hpipes : pipePages k = ∅ := by
      rw [Finset.eq_empty_iff_forall_notMem]
      intro pi hpi
      obtain ⟨f, hf, -⟩ := mem_pipePages.mp hpi
      rw [hk] at hf
      exact FileType.noConfusion hf
    have htf : trapframes k = 0 := by
      refine Finset.sum_eq_zero fun i _ => ?_
      rw [hproc]
      rfl
    rw [held, htf, hpipes, hk]
    rfl
  have hunused : ∀ i, (k.proc i).state = .unused := fun i => by rw [hproc]; rfl
  have hframes : ∀ i, (k.vm.ftable i).used = false := fun i => by rw [hk]; rfl
  have hslots : ∀ i, (k.vm.swapArea i).used = false := fun i => by rw [hk]; rfl
  have htype : ∀ f, (k.file f).type ≠ .pipe := fun f => by rw [hk]; exact FileType.noConfusion
  rw [← hk]
  refine ⟨?_, fun i _ => ?_, fun i hi => absurd (hunused i) hi, fun i => ?_,
    fun i j hi _ => absurd (hunused i) hi, ?_, ⟨fun f _ => ?_, fun f hf => absurd hf (htype f),
    fun f _ hf => absurd hf (htype f), fun f hf => absurd hf (htype f)⟩, ⟨fun i => ?_,
    fun i root hroot => ?_, fun i hi => ?_, fun pid _ => ?_⟩⟩
  · rw [hspaces, hheld]
    refine ⟨by rw [hk]; exact hre, ?_, fun sp hsp => absurd hsp (notMem_zero sp),
      fun sp hsp => absurd hsp (notMem_zero sp), fun i hi => ?_, fun i _ hi => ?_,
      by rw [hk]; exact Nat.zero_lt_succ _, fun _ slot hs => ?_⟩
    · rw [Multiset.map_zero, Multiset.sum_zero, add_zero, add_zero, add_zero, hk]
      change (s.freelist : Multiset ℕ) = physPages s.sym
      rw [hF, hsym]
    · rw [hframes i] at hi
      cases hi
    · rw [hframes i] at hi
      cases hi
    · rw [hslots slot] at hs
      cases hs
  · rw [hproc]
    exact ⟨rfl, rfl, rfl, rfl⟩
  · rw [hproc]
    exact Nat.zero_le _
  · have hone : int32 ((0 : ℕ) + 1) = 1 := by decide
    rw [hk]
    exact hone.symm
  · rw [hk]
    rfl
  · rw [hproc]
    exact ⟨rfl, le_rfl⟩
  · rw [hproc] at hroot
    cases hroot
  · rw [hproc] at hi
    exact absurd rfl hi
  · have hcount : frameCount k.vm pid = 0 :=
      Table.count_eq_zero.mpr fun i => by rw [hframes i, Bool.false_and]
    rw [tally, hcount, hk]
    rfl

/-! ### Before the first process -/

/-- Nothing was paged yet: the frame table and the swap area are empty. -/
structure Calm (v : Vm) : Prop where
  frames : ∀ i, (v.ftable i).used = false
  slots : ∀ i, (v.swapArea i).used = false
  lost : v.lost = false

theorem Keeps.calm {S : Multiset Space} {v v' : Vm} (h : Keeps S v v') (hc : Calm v) : Calm v' where
  frames i := Bool.eq_false_of_not_eq_true fun hi => by
    rw [h.frames i hi, hc.frames i] at hi
    nomatch hi
  slots i := Bool.eq_false_of_not_eq_true fun hi => by
    rw [h.slots i hi, hc.slots i] at hi
    nomatch hi
  lost := h.lost.trans hc.lost

/-- The kernel before the first process. -/
structure Blank (k : Kernel) : Prop where
  inv : KInv 0 k
  proc : ∀ i, k.proc i = .empty
  created : k.created = 0
  calm : Calm k.vm

theorem KInv.keepPage {pa : ℕ} (h : KInv {pa} k) :
    KInv 0 { k with bootPages := pa ::ₘ k.bootPages } where
  vm := by
    have hheld : held { k with bootPages := pa ::ₘ k.bootPages } = {pa} + held k := by
      rw [held, held, singleton_add, ← cons_add, ← cons_add]
      rfl
    rw [zero_add, hheld]
    exact h.vm
  unused := h.unused
  live := h.live
  size := h.size
  pids := h.pids
  nextpid := h.nextpid
  files := h.files.congr rfl rfl
  books := ⟨h.books.sound, h.books.swapped, h.books.resident, h.books.fresh⟩

theorem takePages_spec : ∀ (n : ℕ) {k : Kernel}, Blank k → (k.freePages < n → E "kalloc") →
    wp (takePages n) (fun _ k' => Blank k' ∧ k.freePages = k'.freePages + n ∧
      k'.vm.kmem.sym = k.vm.kmem.sym) E k := by
  intro n
  induction n with
  | zero => intro k h _; exact ⟨h, rfl, rfl⟩
  | succ n ih =>
    intro k h hE
    rw [takePages, wp_bind, wp_onVm]
    refine wp_kalloc h.inv.vm (fun hnil => hE ?_) fun pa v hv hkeep _ hlen _ _ _ _ => ?_
    · rw [Kernel.freePages, hnil]
      exact Nat.succ_pos n
    · rw [zero_add] at hv
      have h₁ : KInv {pa} (k.setVm v) :=
        h.inv.regive ⟨rfl, rfl, rfl, rfl, rfl, hkeep.sameNotes⟩ hkeep (h.inv.files.congr rfl rfl)
          (by rw [singleton_add]; exact hv)
      have h₂ : Blank { k.setVm v with bootPages := pa ::ₘ k.bootPages } :=
        ⟨h₁.keepPage, h.proc, h.created, hkeep.calm h.calm⟩
      dsimp only
      rw [wp_bind, wp_modify]
      have hfree : k.freePages = v.kmem.freelist.length + 1 := hlen
      refine wp_imp (ih h₂ fun hlt => hE ?_) fun _ k' hk' =>
        ⟨hk'.1, ?_, hk'.2.2.trans hkeep.sym⟩
      · change v.kmem.freelist.length < n at hlt
        omega
      · have := hk'.2.1
        change v.kmem.freelist.length = _ at this
        omega

theorem kinit_blank (b : Boot) :
    wp (onVm (onKmem kinit)) (fun _ k => Blank k ∧ k.freePages = pageCount b.sym ∧
      k.vm.kmem.sym = b.sym) E b.start := by
  rw [wp_onVm, wp_onKmem]
  refine wp_imp (kinit_spec rfl) ?_
  rintro - s ⟨hsym, hre, hF⟩
  refine ⟨⟨Boot.kinv_start hsym hre hF, fun _ => rfl, rfl, fun _ => rfl, fun _ => rfl, rfl⟩, ?_,
    hsym⟩
  have hcard := congrArg Multiset.card hF
  rw [coe_card, card_physPages] at hcard
  exact hcard

/-! ### The first process -/

/-- The first process, at entry `i` of the process table. -/
structure First (i : Fin nproc) (k : Kernel) : Prop where
  ok : KOk k
  live : (k.proc i).state ≠ .unused
  pid : (k.proc i).pid = 1
  killed : (k.proc i).killed = false
  ofile : ∀ fd, (k.proc i).ofile fd = none
  stats : (k.proc i).stats = .zero
  others : ∀ j, j ≠ i → k.proc j = .empty
  created : k.created = 1
  initproc : k.initproc = some i
  calm : Calm k.vm

/-- **The state in which `/init` starts.** Its image ends with a guard page `n` and a stack page. -/
structure Booted (i : Fin nproc) (root n : ℕ) (k : Kernel) : Prop extends First i k where
  state : (k.proc i).state = .running
  pagetable : (k.proc i).pagetable = some root
  sz : (k.proc i).sz = (n + 2) * pgsize
  mapped : ∀ u < n + 2, (lookup k.vm.kmem.mem root u).has pteV = true
  guard : (lookup k.vm.kmem.mem root n).has pteU = false

theorem userinit_spec (h : Blank k) (hE : k.freePages < 6 → E "kerneltrap")
    {Q : Fin nproc → Kernel → Prop}
    (hQ : ∀ i k', First i k' → k'.vm.kmem.sym = k.vm.kmem.sym →
      k.freePages ≤ k'.freePages + 6 → Q i k') :
    wp userinit Q E k := by
  have hlt : k.created + 1 < 2 ^ 31 := by rw [h.created]; decide
  rw [userinit, wp_bind]
  refine allocproc_spec h.inv hlt (fun hfull => ?_) (fun k' _ hshort => ?_)
    fun i tf root k₁ hmade _ => ?_
  · exact absurd (congrArg Proc.state (h.proc ⟨0, by decide⟩)) (hfull ⟨0, by decide⟩)
  · exact hE hshort
  · dsimp only
    rw [wp_bind, wp_modify, wp_bind, wp_updateProc, wp_pure]
    have hp : k₁.proc i = Proc.empty.made 1 (some tf) (some root) := by
      rw [hmade.proc, h.proc, h.created]
      rfl
    have hinv : KInv 0 { k₁ with initproc := some i } :=
      hmade.inv.congr rfl (fun _ => .refl _) rfl rfl rfl rfl (hmade.inv.files.congr rfl rfl)
    have hcore : SameCore (k₁.proc i) { k₁.proc i with state := .runnable } := by
      refine ⟨rfl, rfl, rfl, rfl, rfl, fun hun => absurd hun ProcState.noConfusion, fun hun => ?_⟩
      rw [hp] at hun
      exact absurd hun ProcState.noConfusion
    have hother : ∀ j, j ≠ i → ((({ k₁ with initproc := some i } : Kernel).setProc i
        { k₁.proc i with state := .runnable }).proc j) = .empty := fun j hj => by
      rw [Kernel.setProc_proc_of_ne _ _ hj]
      change k₁.proc j = _
      rw [hmade.others j hj, h.proc]
    refine hQ i _ ⟨⟨hinv.setProc hcore, fun j hj => ?_⟩, ?_, ?_, ?_, fun _ => ?_, ?_, hother, ?_, rfl,
      hmade.keeps.calm h.calm⟩ hmade.keeps.sym hmade.free
    · by_cases hji : j = i
      · rw [hji, Kernel.setProc_proc_self, hp]
        exact ⟨⟨root, rfl⟩, tf, rfl⟩
      · rw [hother j hji] at hj
        exact absurd rfl hj
    · rw [Kernel.setProc_proc_self]
      exact ProcState.noConfusion
    · rw [Kernel.setProc_proc_self, hp]
      rfl
    · rw [Kernel.setProc_proc_self, hp]
      rfl
    · rw [Kernel.setProc_proc_self, hp]
      rfl
    · rw [Kernel.setProc_proc_self, hp]
      rfl
    · change k₁.created = 1
      rw [hmade.created, h.created]

theorem forkret_spec {init : List Byte} (h : First i k)
    (hE : (Segmentless init → k.freePages < 11) → E "exec") {Q : Unit → Kernel → Prop}
    (hQ : ∀ root n k', Booted i root n k' → k'.vm.kmem.sym = k.vm.kmem.sym →
      (Segmentless init → n = 0 ∧ k.freePages ≤ k'.freePages + 11) → Q () k') :
    wp (forkret i init) Q E k := by
  have hcore : SameCore (k.proc i) { k.proc i with state := .running } :=
    ⟨rfl, rfl, rfl, rfl, rfl, fun hun => absurd hun ProcState.noConfusion,
      fun hun => absurd hun h.live⟩
  obtain ⟨k₁, hk₁⟩ : ∃ k₁, k₁ = k.setProc i { k.proc i with state := .running } := ⟨_, rfl⟩
  have h₁ : Calling 0 i k₁ := by
    rw [hk₁]
    refine ⟨h.ok.inv.setProc hcore, h.ok.complete.congr hcore.setProc, ?_⟩
    rw [Kernel.setProc_proc_self]
    exact ProcState.noConfusion
  have hp₁ : k₁.proc i = { k.proc i with state := .running } := by
    rw [hk₁, Kernel.setProc_proc_self]
  have hother₁ : ∀ j, j ≠ i → k₁.proc j = .empty := fun j hj => by
    rw [hk₁, Kernel.setProc_proc_of_ne _ _ hj, h.others j hj]
  obtain ⟨root, tf, hroot, htf⟩ := h₁.memory
  have hargs : ∀ s ∈ [initPath], s.length < pgsize := by
    intro s hs
    rw [List.mem_singleton.mp hs]
    decide
  have hfile : ∀ {f : List Byte}, some init = some f → Segmentless f → Segmentless init :=
    fun hf hb => Option.some.inj hf ▸ hb
  rw [forkret, wp_bind, wp_updateProc, ← hk₁, wp_bind]
  refine kexec_spec h₁.inv hroot htf hargs (fun k' _ hwhy => hE fun hs => ?_)
    fun root' n k₂ he hfree => ?_
  · have := hwhy ⟨init, rfl, hs⟩
    have hfree : k₁.freePages = k.freePages := by rw [hk₁]; rfl
    rw [hfree] at this
    rcases this with h11 | h2 | h3
    · exact h11
    · exact absurd h2 (by decide)
    · exact absurd h3 (by decide)
  have h₂ := h₁.execed he
  have htf₂ : (k₂.proc i).trapframe = some tf := by
    rw [he.proc]
    exact htf
  dsimp only
  rw [wp_bind, wp_get, htf₂]
  refine wp_setReg h₂.inv.vm (mem_add.mpr (Or.inr (mem_held_trapframe htf₂)))
    fun v hv hkeep hF _ _ => ?_
  have hroot₂ : (k₂.proc i).pagetable = some root' := by rw [he.proc]
  have hlook : ∀ u < userPages, lookup v.kmem.mem root' u = lookup k₂.vm.kmem.mem root' u :=
    fun u hu => (hkeep.same _ (spaceOf_mem hroot₂) u hu).1
  have hfits : n + 2 ≤ userPages := by
    have := pagesOf_le (he.inv.size i)
    rw [he.proc] at this
    change pagesOf ((n + 2) * pgsize) ≤ userPages at this
    rwa [pagesOf_mul] at this
  refine hQ root' n _ ⟨⟨(h₂.regive hkeep hv).ok, h₂.live, ?_, ?_, ?_, ?_, fun j hj => ?_, ?_, ?_,
    hkeep.calm (he.keeps.calm ?_)⟩, ?_, hroot₂, ?_, fun u hu => ?_, ?_⟩
    (hkeep.sym.trans (he.keeps.sym.trans (by rw [hk₁]; rfl))) fun hs => ?_
  · change (k₂.proc i).pid = 1
    rw [he.proc, hp₁]
    exact h.pid
  · change (k₂.proc i).killed = false
    rw [he.proc, hp₁]
    exact h.killed
  · change ∀ fd, (k₂.proc i).ofile fd = none
    rw [he.proc, hp₁]
    exact h.ofile
  · change (k₂.proc i).stats = .zero
    rw [he.proc, hp₁]
    exact h.stats
  · change k₂.proc j = .empty
    rw [he.others j hj, hother₁ j hj]
  · change k₂.created = 1
    rw [he.created, hk₁]
    exact h.created
  · change k₂.initproc = some i
    rw [he.initproc, hk₁]
    exact h.initproc
  · rw [hk₁]
    exact h.calm
  · change (k₂.proc i).state = .running
    rw [he.proc, hp₁]
  · change (k₂.proc i).sz = _
    rw [he.proc]
  · change (lookup v.kmem.mem root' u).has pteV = true
    rw [hlook u (hu.trans_le hfits)]
    exact he.mapped u hu
  · change (lookup v.kmem.mem root' n).has pteU = false
    rw [hlook n (by omega)]
    exact he.guard
  · obtain ⟨hn, hle⟩ := hfree ⟨init, rfl, hs⟩
    refine ⟨hn, ?_⟩
    have hsame : k₁.freePages = k.freePages := by rw [hk₁]; rfl
    rw [hsame] at hle
    change k.freePages ≤ v.kmem.freelist.length + 11
    rw [hF]
    exact hle

/-- **Boot.** It can panic only for lack of memory or because of `/init`. -/
theorem boot_spec (b : Boot)
    (hE : (Segmentless b.init → pageCount b.sym < b.taken + 17) → ∀ e, E e)
    {Q : Unit → Kernel → Prop}
    (hQ : ∀ i root n k, Booted i root n k → k.vm.kmem.sym = b.sym →
      (Segmentless b.init → n = 0 ∧ pageCount b.sym ≤ k.freePages + b.taken + 17) → Q () k) :
    wp (boot b) Q E b.start := by
  rw [boot]
  refine wp_seq (kinit_blank b) ?_
  rintro - k₁ ⟨h₁, hfree₁, hsym₁⟩
  refine wp_seq (takePages_spec b.taken h₁ fun hlt => hE (fun _ => by omega) _) ?_
  rintro - k₂ ⟨h₂, hfree₂, hsym₂⟩
  rw [wp_bind]
  refine userinit_spec h₂ (fun hlt => hE (fun _ => by omega) _) fun i k₃ h₃ hsym₃ hfree₃ => ?_
  refine forkret_spec h₃ (fun hwhy => hE (fun hs => ?_) _) fun root n k₄ h₄ hsym₄ hfree₄ =>
    hQ i root n k₄ h₄ (hsym₄.trans (hsym₃.trans (hsym₂.trans hsym₁))) fun hs => ?_
  · have := hwhy hs
    omega
  · obtain ⟨hn, hle⟩ := hfree₄ hs
    exact ⟨hn, by omega⟩

theorem booted_of_boot (hboot : boot b b.start = .ok ((), k)) : ∃ i root n, Booted i root n k :=
  (wp_of_ok (Q := fun _ k => ∃ i root n, Booted i root n k) (E := fun _ => True) hboot).mp
    (boot_spec b (fun _ _ => trivial) fun i root n _ hb _ _ => ⟨i, root, n, hb⟩)

/-! ### A machine

The smallest machine that boots: its `/init` is an ELF header. -/

/-- A machine whose `/init` has no segments. -/
def Boot.small : Boot where
  sym := .small
  mem := fun _ => fill 0
  taken := 100
  init := [0x7F, 0x45, 0x4C, 0x46] ++ List.replicate 60 0

/-- A machine with enough memory and an `/init` without segments boots. -/
theorem boot_of_segmentless (b : Boot) (hinit : Segmentless b.init)
    (hmem : b.taken + 17 ≤ pageCount b.sym) :
    ∃ i root k, boot b b.start = .ok ((), k) ∧ Booted i root 0 k ∧ k.vm.kmem.sym = b.sym ∧
      pageCount b.sym ≤ k.freePages + b.taken + 17 := by
  have hspec : wp (boot b) (fun _ k => ∃ i root, Booted i root 0 k ∧ k.vm.kmem.sym = b.sym ∧
      pageCount b.sym ≤ k.freePages + b.taken + 17) (fun _ => False) b.start := by
    refine boot_spec b (fun hwhy => ?_) fun i root n k hb hsym hfree => ?_
    · exact absurd (hwhy hinit) (Nat.not_lt.mpr hmem)
    · obtain ⟨rfl, hle⟩ := hfree hinit
      exact ⟨i, root, hb, hsym, hle⟩
  obtain ⟨_, k, hrun, i, root, hb, hfree⟩ := exists_of_wp hspec
  exact ⟨i, root, k, hrun, hb, hfree⟩

theorem Boot.small_segmentless : Segmentless Boot.small.init :=
  ⟨by decide +kernel, by decide +kernel, by decide +kernel⟩

theorem Boot.small_boots : ∃ i root k, boot .small Boot.small.start = .ok ((), k) ∧
    Booted i root 0 k ∧ 32000 ≤ k.freePages := by
  have hcount : pageCount Boot.small.sym = 32766 := by decide +kernel
  have htaken : Boot.small.taken = 100 := rfl
  obtain ⟨i, root, k, hrun, hb, -, hfree⟩ :=
    boot_of_segmentless .small Boot.small_segmentless (by rw [hcount, htaken]; omega)
  rw [hcount, htaken] at hfree
  exact ⟨i, root, k, hrun, hb, by omega⟩

/-! ### Reachable states -/

/-- **Every reachable state satisfies the invariant.** -/
theorem Reachable.ok (h : Reachable b k) : KOk k := by
  induction h with
  | boot hboot =>
    obtain ⟨i, root, n, hb⟩ := booted_of_boot hboot
    exact hb.ok
  | step _ hen hrun hpids ih => exact (ih.step hen hrun hpids).ok

/-- What holds after boot and is kept by every step that meets the condition. -/
theorem Reaches.invariant {P : Op → Kernel → Prop} {I : Kernel → Prop} (h : Reaches b P k)
    (hboot : ∀ i root n k, Booted i root n k → I k)
    (hstep : ∀ op k k', P op k → op.Done k k' → I k → I k') : I k := by
  induction h with
  | boot h =>
    obtain ⟨i, root, n, hb⟩ := booted_of_boot h
    exact hboot i root n _ hb
  | step h hen hop hrun hpids ih =>
    exact hstep _ _ _ hop (h.reachable.ok.step hen hrun hpids) ih

end Xv6
