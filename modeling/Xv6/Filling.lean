import Xv6.Safety
import Xv6.CopyData

/-!
# Filling memory

The first process asks for a thousand pages and touches them one after the other, either by loading
from them or by having the kernel write to them. The frame table fills up with the first 128
pages, and every further page sends one to the swap area, until that is full too.

These runs are where the concrete states of this development come from: states with pages swapped
out, with the frame table full, and with every swap slot in use.
-/

namespace Xv6

open Prog

/-- How many pages the process asks for. -/
def fillPages : ℕ := 1000

/-- The first process has touched `n` pages above its stack. They were mapped with `perm` and
contain `pg`, wherever they are now. -/
structure Filled (perm : Pte) (pg : Page) (i : Fin nproc) (root n : ℕ) (k : Kernel) : Prop where
  ok : KOk k
  state : (k.proc i).state = .running
  pagetable : (k.proc i).pagetable = some root
  sz : (k.proc i).sz = fillPages * pgsize
  pid : (k.proc i).pid = 1
  killed : (k.proc i).killed = false
  ofile : ∀ fd, (k.proc i).ofile fd = none
  others : ∀ j, j ≠ i → (k.proc j).state = .unused
  created : k.created = 1
  touched : ∀ u < n, logical k.vm root (u + 2) = pg ∧
    ((∃ x, PageAddr x ∧ lookup k.vm.kmem.mem root (u + 2) = mkPte x perm) ∨
      (lookup k.vm.kmem.mem root (u + 2)).has pteSwapped = true)
  swapped : maxFrames < n → ∃ u < n, (lookup k.vm.kmem.mem root (u + 2)).has pteSwapped = true
  untouched : ∀ u, n + 2 ≤ u → u < fillPages → lookup k.vm.kmem.mem root u = 0#64
  registered : ∀ p ∈ k.vm.registered, 2 * pgsize ≤ p.2
  frames : k.framesUsed = min n maxFrames
  slots : k.slotsUsed = n - maxFrames
  free : 32000 ≤ k.freePages + 3 * n

variable {perm : Pte} {pg : Page} {i : Fin nproc} {root n x : ℕ} {k k' : Kernel}

/-! ### One more page -/

/-- A page was touched. -/
structure Touched (perm : Pte) (pg : Page) (i : Fin nproc) (root vpn : ℕ) (k k' : Kernel) :
    Prop where
  serviced : Serviced (spaceOf k i root ::ₘ otherSpaces k i) (0 + held k) k k'
  entry : ∃ x, PageAddr x ∧ lookup k'.vm.kmem.mem root vpn = mkPte x perm
  data : logical k'.vm root vpn = pg
  rest : ∀ u < userPages, u ≠ vpn → SameAt k.vm k'.vm root u
  gone : ∀ u < userPages, u ≠ vpn →
    (lookup k'.vm.kmem.mem root u = lookup k.vm.kmem.mem root u ↔
      ¬k.Evicts (lookup k.vm.kmem.mem root u))
  registered : k'.vm.registered ⊆ insert ((k.proc i).pid, vpn * pgsize) k.vm.registered
  frames : k'.framesUsed = k.framesUsed + if k.MustEvict then 0 else 1
  slots : k'.slotsUsed = k.slotsUsed + if k.MustEvict then 1 else 0
  free : k.freePages ≤ k'.freePages + 3

theorem PagedIn.touched {vpn : ℕ}
    (h : PagedIn (spaceOf k i root) (otherSpaces k i) (0 + held k) x vpn perm pg 0 k k') :
    Touched perm pg i root vpn k k' where
  serviced := h.serviced
  entry := ⟨x, h.addr, h.entry⟩
  data := h.data
  rest := h.rest
  gone := h.goneHere
  registered := h.registered
  frames := h.frames
  slots := h.slots
  free := by
    have hfree := h.free
    have hmiss := missing_le k.vm.kmem.mem (spaceOf k i root).root vpn
    split_ifs at hfree <;> omega

namespace Filled

variable (h : Filled perm pg i root n k)

include h

theorem faulting : Faulting (spaceOf k i root) (otherSpaces k i) (0 + held k) i k :=
  h.ok.inv.faulting h.pagetable

omit h in
theorem user {u : ℕ} (hu : u < fillPages) : u < userPages :=
  hu.trans (by decide)

theorem mustEvict (hn : n ≤ 640) : k.MustEvict ↔ maxFrames ≤ n := by
  have hfr := h.frames
  have hfree := h.free
  rw [Kernel.MustEvict, hfr]
  omega

/-- With the frame table full, the page of the victim is swapped out. -/
theorem victim_swapped (hn : n ≤ 640) (hfull : maxFrames ≤ n)
    (ht : Touched perm pg i root (n + 2) k k') :
    ∃ f u, u < n ∧ (k.vm.ftable f).used = true ∧ LiveMapping k (k.vm.ftable f) i root ∧
      (k.vm.ftable f).va / pgsize = u + 2 ∧
      (lookup k'.vm.kmem.mem root (u + 2)).has pteSwapped = true := by
  have hmust := (h.mustEvict hn).mpr hfull
  have hpages : fillPages = 1000 := rfl
  obtain ⟨f, hf⟩ : ∃ f, k.victim = some f := by
    refine Option.ne_none_iff_exists'.mp fun hv => ?_
    rw [Kernel.victim_eq_none h.ok.inv.vm.hand] at hv
    have hzero : k.framesUsed = 0 := Table.count_eq_zero.mpr hv
    rw [h.frames, min_eq_right hfull] at hzero
    exact absurd hzero (by decide)
  have hused := Kernel.victim_used h.ok.inv.vm.hand hf
  obtain ⟨j, root', hm⟩ := h.ok.inv.liveMapping hused
  obtain rfl : j = i := by
    by_contra hj
    exact hm.live (h.others j hj)
  obtain rfl : root' = root := Option.some.inj (hm.pagetable.symm.trans h.pagetable)
  obtain ⟨w, hw⟩ : ∃ w, w = (k.vm.ftable f).va / pgsize := ⟨_, rfl⟩
  have hvalid := hm.valid
  have hpa := hm.pa
  rw [← hw] at hvalid hpa
  -- the victim is one of the pages that were touched
  have hlow : 2 ≤ w := by
    have hreg := h.registered ((k.vm.ftable f).pid, (k.vm.ftable f).va) ⟨f, hused, rfl, rfl⟩
    rw [hw]
    exact (Nat.le_div_iff_mul_le (by decide)).mpr hreg
  have hhigh : w < n + 2 := by
    by_contra hge
    have habs : lookup k.vm.kmem.mem root' w = 0#64 := by
      rcases lt_or_ge w fillPages with hlt | hle
      · exact h.untouched w (not_lt.mp hge) hlt
      · refine (h.ok.inv.spaceOk h.pagetable).beyond w ?_ ?_
        · change pagesOf (k.proc j).sz ≤ w
          rwa [h.sz, pagesOf_mul]
        · rw [hw]
          exact Nat.div_lt_of_lt_mul (by rw [Nat.mul_comm, userPages_mul_pgsize]; exact hm.below)
    rw [habs, Pte.has_zero] at hvalid
    nomatch hvalid
  obtain ⟨u, rfl⟩ : ∃ u, w = u + 2 := ⟨w - 2, by omega⟩
  have huser : u + 2 < userPages := user (by omega)
  have hne : u + 2 ≠ n + 2 := by omega
  have hchange : ¬lookup k'.vm.kmem.mem root' (u + 2) = lookup k.vm.kmem.mem root' (u + 2) := by
    rw [ht.gone _ huser hne, not_not]
    exact ⟨hmust, hvalid, f, hf, hpa⟩
  obtain ⟨slot, hs⟩ := ((ht.rest _ huser hne).2.resolve_left hchange).slot
  refine ⟨f, u, by omega, hused, hm, hw.symm, ?_⟩
  rw [hs]
  exact Pte.has_swappedPte_pteSwapped slot

/-- **Touching one more page.** -/
theorem next (hn : n < 640) (ht : Touched perm pg i root (n + 2) k k') :
    Filled perm pg i root (n + 1) k' := by
  have hpaged := ht.serviced.paged
  have hmust := h.mustEvict hn.le
  have hpages : fillPages = 1000 := rfl
  have hcalling := (h.ok.calling h.state).serviced h.pagetable ht.serviced
  refine ⟨hcalling.ok, ?_, ?_, ?_, ?_, ?_, ?_, ?_, ?_, ?_, fun hlt => ?_, ?_, ?_, ?_, ?_, ?_⟩
  · rw [hpaged.state, h.state]
  · rw [hpaged.pagetable, h.pagetable]
  · rw [hpaged.sz, h.sz]
  · rw [hpaged.pid, h.pid]
  · rw [hpaged.proc]
    exact h.killed
  · rw [hpaged.proc]
    exact h.ofile
  · intro j hj
    rw [hpaged.state, h.others j hj]
  · rw [hpaged.rest.2.1, h.created]
  · intro u hu
    rcases (Nat.lt_succ_iff.mp hu).lt_or_eq with hlt | rfl
    · obtain ⟨hdata, hplace⟩ := h.touched u hlt
      obtain ⟨hsame, hentry⟩ := ht.rest (u + 2) (user (by omega)) (by omega)
      refine ⟨hsame.trans hdata, ?_⟩
      rcases hentry with heq | hout
      · rw [heq]
        exact hplace
      · obtain ⟨slot, hs⟩ := hout.slot
        rw [hs]
        exact Or.inr (Pte.has_swappedPte_pteSwapped slot)
    · exact ⟨ht.data, Or.inl ht.entry⟩
  · obtain ⟨-, u, hu, -, -, -, hs⟩ := h.victim_swapped hn.le (by omega) ht
    exact ⟨u, by omega, hs⟩
  · intro u hlow hhigh
    have habs := h.untouched u (by omega) hhigh
    rw [(ht.rest u (user hhigh) (by omega)).entry_of fun hh => ?_, habs]
    rw [habs, Pte.has_zero] at hh
    nomatch hh.1
  · intro p hp
    rcases ht.registered hp with rfl | hp
    · exact Nat.mul_le_mul_right pgsize (Nat.le_add_left 2 n)
    · exact h.registered p hp
  · rw [ht.frames, h.frames]
    split_ifs with hm
    · rw [hmust] at hm
      omega
    · rw [hmust] at hm
      omega
  · rw [ht.slots, h.slots]
    split_ifs with hm
    · rw [hmust] at hm
      omega
    · rw [hmust] at hm
      omega
  · have hfree := h.free
    have hfree' := ht.free
    omega

theorem canPageIn (hn : n < 640) (vpn : ℕ) : CanPageIn k root vpn := by
  have hfree := h.free
  have hmiss := missing_le k.vm.kmem.mem root vpn
  refine ⟨fun hm => ?_, ?_⟩
  · rw [h.mustEvict hn.le] at hm
    rw [h.frames, h.slots]
    have hf : maxFrames = 128 := rfl
    have hs : maxSwapSlots = 512 := rfl
    omega
  · split_ifs <;> omega

theorem absent (hn : n < 640) : lookup k.vm.kmem.mem root (n + 2) = 0#64 :=
  h.untouched (n + 2) le_rfl (by rw [fillPages]; omega)

/-- With frames for all of them, the pages that were touched are resident. -/
theorem resident (hn : n ≤ maxFrames) {u : ℕ} (hu : u < n) :
    (lookup k.vm.kmem.mem root (u + 2)).has pteV = true := by
  obtain ⟨-, ⟨x, -, hx⟩ | hs⟩ := h.touched u hu
  · rw [hx]
    exact Pte.has_mkPte_pteV _ _
  · have hpages : n < fillPages - 2 := hn.trans_lt (by decide)
    obtain ⟨-, -, s, -, hused, -⟩ :=
      h.ok.inv.ownsSlot h.pagetable (lt_maxVpn (user (by omega))) hs
    have hzero := h.slots
    rw [Nat.sub_eq_zero_of_le hn, Kernel.slotsUsed, Table.count_eq_zero] at hzero
    cases hused.symm.trans (hzero s)

theorem below_sz (hn : n < 640) {u : ℕ} (hu : u ≤ n) : (u + 2) * pgsize < (k.proc i).sz := by
  rw [h.sz, fillPages]
  exact Nat.mul_lt_mul_of_pos_right (by omega) (by decide)

end Filled

/-! ### The start -/

theorem addInt_fill : addInt (2 * pgsize) (998 * pgsize) = fillPages * pgsize := by decide +kernel

/-- **The start of a run**: the first process asks for memory. -/
theorem Booted.filled (h : Booted i root 0 k) (hfree : 32000 ≤ k.freePages) (perm : Pte)
    (pg : Page) :
    ∃ k', (Op.sbrk i (998 * pgsize) false).run k = .ok ((), k') ∧ Filled perm pg i root 0 k' ∧
      (k'.proc i).stats = .zero := by
  have hsz : (k.proc i).sz = 2 * pgsize := h.sz
  obtain ⟨k', hk'⟩ : ∃ k', k' = k.setProc i { k.proc i with sz := fillPages * pgsize } := ⟨_, rfl⟩
  have hself : k'.proc i = { k.proc i with sz := fillPages * pgsize } := by
    rw [hk', Kernel.setProc_proc_self]
  have hvm : k'.vm = k.vm := by rw [hk']; rfl
  have hrun : sysSbrk i (998 * pgsize) false k = .ok (some (2 * pgsize), k') := by
    have hwp : wp (sysSbrk i (998 * pgsize) false)
        (fun r s => r = some (2 * pgsize) ∧ s = k') (fun _ => False) k := by
      rw [sysSbrk, wp_bind, wp_get]
      dsimp only
      rw [hsz, addInt_fill, if_neg (by decide), if_neg (by decide +kernel),
        if_neg (by decide +kernel), wp_bind, wp_updateProc, wp_pure, hsz, addInt_fill]
      exact ⟨rfl, hk'.symm⟩
    obtain ⟨r, s, hrun, rfl, rfl⟩ := exists_of_wp hwp
    exact hrun
  have hok : KOk k' := wp_ok (sysSbrk_spec (E := fun _ => True) h.ok.inv h.ok.complete
    h.pagetable _ _ fun _ _ h' hc' _ _ => KOk.mk h' hc') hrun
  refine ⟨k', ?_, ⟨hok, ?_, ?_, ?_, ?_, ?_, ?_, ?_, ?_, ?_, ?_, ?_, ?_, ?_, ?_, ?_⟩, ?_⟩
  · change (do
      let _ ← sysSbrk i (998 * pgsize) false : Prog Kernel Unit) k = _
    exact bind_ok_iff.mpr ⟨_, _, hrun, rfl⟩
  · rw [hself]; exact h.state
  · rw [hself]; exact h.pagetable
  · rw [hself]
  · rw [hself]; exact h.pid
  · rw [hself]; exact h.killed
  · rw [hself]; exact h.ofile
  · intro j hj
    rw [hk', Kernel.setProc_proc_of_ne _ _ hj, h.others j hj]
    rfl
  · rw [hk']
    exact h.created
  · exact fun u hu => absurd hu (Nat.not_lt_zero u)
  · exact fun hlt => absurd hlt (Nat.not_lt_zero _)
  · intro u hlow hhigh
    rw [hvm]
    refine (h.ok.inv.spaceOk h.pagetable).beyond u ?_ (Filled.user hhigh)
    change pagesOf (k.proc i).sz ≤ u
    rw [hsz, pagesOf_mul]
    omega
  · rintro p ⟨f, hf, -⟩
    rw [hvm, h.calm.frames f] at hf
    cases hf
  · rw [Kernel.framesUsed, hvm]
    exact Table.count_eq_zero.mpr h.calm.frames
  · rw [Kernel.slotsUsed, hvm]
    exact Table.count_eq_zero.mpr h.calm.slots
  · rw [Kernel.freePages, hvm]
    exact hfree
  · rw [hself]; exact h.stats

/-- **A run**: touching page after page, as long as there is room. -/
theorem filled_of_step {P : Op → Kernel → Prop}
    (hsbrk : ∀ {i root k}, Booted i root 0 k → P (.sbrk i (998 * pgsize) false) k)
    (hstep : ∀ {i root n k}, Filled perm pg i root n k → n < 640 →
      ∃ (op : Op) (k' : Kernel), op.Enabled k ∧ P op k ∧ op.run k = .ok ((), k') ∧
        Filled perm pg i root (n + 1) k') :
    ∀ n ≤ 640, ∃ i root k, Reaches .small P k ∧ Filled perm pg i root n k := by
  intro n
  induction n with
  | zero =>
    intro _
    obtain ⟨i, root, k, hboot, hb, hfree⟩ := Boot.small_boots
    obtain ⟨k', hrun, hf, -⟩ := hb.filled hfree perm pg
    have hreach : k'.created < 2 ^ 31 → Reaches .small P k' :=
      Reaches.step (.boot hboot) (show (Op.sbrk i (998 * pgsize) false).Enabled k from hb.state)
        (hsbrk hb) hrun
    refine ⟨i, root, k', hreach ?_, hf⟩
    rw [hf.created]
    decide
  | succ n ih =>
    intro hn
    obtain ⟨i, root, k, hreach, hf⟩ := ih (by omega)
    obtain ⟨op, k', hen, hop, hrun, hf'⟩ := hstep hf (by omega)
    refine ⟨i, root, k', .step hreach hen hop hrun ?_, hf'⟩
    rw [hf'.created]
    decide

/-! ### Loads -/

/-- The flags of a page that a fault has brought in. -/
def faultPerm : Pte := pteW ||| pteR ||| pteX ||| pteU

section
variable (h : Filled perm pg i root n k) (hn : n < 640) {u : ℕ} (hu : u ≤ n)
  (hinvalid : (lookup k.vm.kmem.mem root (u + 2)).has pteV = false)
include h hn hu hinvalid

/-- A fault on one of the pages brings it in. -/
theorem Filled.fault_in {va : ℕ} (hva : va / pgsize = u + 2) :
    wp (vmfault i root va) (fun r k' => r = true ∧
      ∃ x, FaultedIn (spaceOf k i root) (otherSpaces k i) (0 + held k) x (u + 2) k k')
      (fun _ => False) k :=
  vmfault_pagedIn h.faulting va hva.symm (h.below_sz hn hu) hinvalid (h.canPageIn hn _)
    fun x _ hp => ⟨rfl, x, hp⟩

/-- A load from one of the pages brings it in. -/
theorem Filled.load_in :
    wp (Op.load i ((u + 2) * pgsize)).run (fun _ k' =>
      ∃ x, FaultedIn (spaceOf k i root) (otherSpaces k i) (0 + held k) x (u + 2) k k')
      (fun _ => False) k := by
  have haddr : addrOf (k.proc i).pagetable = root := by rw [h.pagetable]; rfl
  have hdiv : (u + 2) * pgsize / pgsize = u + 2 := Nat.mul_div_cancel _ (by decide)
  have hdeny : permits k.vm root ((u + 2) * pgsize) .load = false := by
    simp [permits, hdiv, hinvalid]
  change wp (userLoad i ((u + 2) * pgsize)) _ _ k
  rw [userLoad, wp_bind, wp_get, haddr, hdeny, if_neg Bool.false_ne_true, usertrapFault,
    wp_bind, wp_get, haddr, wp_bind]
  refine wp_imp (h.fault_in hn hu hinvalid hdiv) ?_
  rintro _ k' ⟨rfl, x, hp⟩
  rw [if_pos rfl, wp_bind, wp_get, hp.paged.proc, h.killed, if_neg Bool.false_ne_true]
  exact ⟨x, hp⟩

end

/-- **The next load** brings in one more page. -/
theorem Filled.load (h : Filled faultPerm (fill 0) i root n k) (hn : n < 640) :
    wp (Op.load i ((n + 2) * pgsize)).run
      (fun _ k' => Filled faultPerm (fill 0) i root (n + 1) k') (fun _ => False) k := by
  have habs := h.absent hn
  refine wp_imp (h.load_in hn le_rfl (by rw [habs, Pte.has_zero])) ?_
  rintro _ k' ⟨x, hp⟩
  change PagedIn _ _ _ x (n + 2) _ (logical k.vm root (n + 2))
    ((lookup k.vm.kmem.mem root (n + 2)).has pteSwapped).toNat k k' at hp
  rw [logical, habs, contents_lazy (Pte.has_zero _) (Pte.has_zero _), Pte.has_zero] at hp
  exact h.next hn hp.touched

/-- A lazy `sbrk`, or a memory access of user code. -/
def Op.Touches : Op → Prop
  | load _ _ | store _ _ _ => True
  | sbrk _ n eager => 0 ≤ n ∧ eager = false
  | _ => False

theorem filled_by_loads {n : ℕ} (hn : n ≤ 640) :
    ∃ i root k, Reaches .small (fun op _ => op.Touches) k ∧
      Filled faultPerm (fill 0) i root n k :=
  filled_of_step (fun _ => ⟨by decide, rfl⟩) (fun hf hn => by
    obtain ⟨_, k', hrun, hf'⟩ := exists_of_wp (hf.load hn)
    exact ⟨.load _ _, k', hf.state, trivial, hrun, hf'⟩) n hn

/-! ### Copies -/

/-- The flags of a page that a copy of the kernel has brought in. -/
def copyPerm : Pte := pteW ||| pteU ||| pteR

/-- A page with one byte that is not zero. -/
def markedPage : Page := writeBytes (fill 0) 0 [1]

theorem Touched.store {k₂ : Kernel} {pg₂ : Page} {vpn : ℕ} (h : Touched perm pg i root vpn k k')
    (hs : Stored (spaceOf k i root) (otherSpaces k i) (0 + held k) vpn pg₂ k' k₂)
    (hft : k₂.vm.ftable = k'.vm.ftable) (harea : k₂.vm.swapArea = k'.vm.swapArea)
    (hfree : k₂.freePages = k'.freePages) : Touched perm pg₂ i root vpn k k₂ where
  serviced := h.serviced.trans hs.serviced
  entry := by
    obtain ⟨x, hx, hentry⟩ := h.entry
    exact ⟨x, hx, hs.entry.trans hentry⟩
  data := hs.data
  rest u hu hne := (h.rest u hu hne).trans (hs.rest u hu hne).sameAt
  gone u hu hne := by
    rw [← h.gone u hu hne, show lookup k₂.vm.kmem.mem root u = _ from (hs.rest u hu hne).1]
    exact Iff.rfl
  registered := by
    rw [Vm.registered, hft]
    exact h.registered
  frames := (Kernel.framesUsed_congr hft).trans h.frames
  slots := (Kernel.slotsUsed_congr harea).trans h.slots
  free := by
    rw [hfree]
    exact h.free

/-- **The next copy** brings in one more page and writes a byte to it. -/
theorem Filled.copyout (h : Filled copyPerm markedPage i root n k) (hn : n < 640) :
    wp (Op.copyout i ((n + 2) * pgsize) [1]).run
      (fun _ k' => Touched copyPerm markedPage i root (n + 2) k k' ∧
        (n < maxFrames → k'.proc = k.proc)) (fun _ => False) k := by
  have haddr : addrOf (k.proc i).pagetable = root := by rw [h.pagetable]; rfl
  have hdiv : (n + 2) * pgsize / pgsize = n + 2 := Nat.mul_div_cancel _ (by decide)
  have hmod : (n + 2) * pgsize % pgsize = 0 := Nat.mul_mod_left _ _
  have hround : pgrounddown ((n + 2) * pgsize) = (n + 2) * pgsize := by rw [pgrounddown, hdiv]
  have hv : n + 2 < userPages := user (by rw [fillPages]; omega)
  have hinvalid : (lookup k.vm.kmem.mem root (n + 2)).has pteV = false := by
    rw [h.absent hn, Pte.has_zero]
  change wp (do
    let k ← Prog.get
    let _ ← Xv6.copyout i (addrOf (k.proc i).pagetable) ((n + 2) * pgsize) [1]) _ _ k
  rw [wp_bind, wp_get, haddr, wp_bind, Xv6.copyout]
  change wp (copyoutFrom i root (0 + 1) ((n + 2) * pgsize) [1]) _ _ k
  rw [copyoutFrom]
  dsimp only
  rw [List.isEmpty_cons, if_neg Bool.false_ne_true, hround,
    if_neg (not_maxva_le (lt_maxVpn hv)), wp_bind]
  refine copyFrame_pagedIn h.faulting (h.below_sz hn le_rfl) hinvalid (h.canPageIn hn _)
    fun x k' hp hcalm => ?_
  have hentry : lookup k'.vm.kmem.mem root (n + 2) = mkPte x copyPerm := hp.entry
  have hvalid : (lookup k'.vm.kmem.mem root (n + 2)).has pteV = true := by
    rw [hentry]
    exact Pte.has_mkPte_pteV _ _
  have hwrite : (lookup k'.vm.kmem.mem root (n + 2)).has pteW = true := by
    rw [hentry, Pte.has_mkPte _ _ (by decide)]
    rfl
  have hframe : pte2pa (lookup k'.vm.kmem.mem root (n + 2)) = x := by
    rw [hentry]
    exact pte2pa_mkPte hp.addr leafPerm_copy.flags
  have hpage : k'.vm.kmem.mem x = fill 0 := by
    have hdata : logical k'.vm root (n + 2) = fill 0 := hp.data
    rwa [logical, contents_valid hvalid, hframe] at hdata
  have hst := Stored.of_write hp.inv hv hvalid markedPage
  rw [show pte2pa (lookup k'.vm.kmem.mem (spaceOf k i root).root (n + 2)) = x from hframe] at hst
  refine wp_copyoutCheck hv hvalid ?_
  rw [hwrite, if_pos rfl, Nat.sub_self, wp_bind, copyoutMove, wp_onVm, wp_onKmem,
    wp_modify, hpage]
  refine ⟨hp.touched.store hst rfl rfl rfl, fun hlt => ?_⟩
  exact hcalm fun hm => absurd ((h.mustEvict hn.le).mp hm) (not_le.mpr hlt)

/-- A run of one `sbrk` and system calls that write to memory. -/
theorem filled_by_copies {n : ℕ} (hn : n ≤ 640) :
    ∃ i root k, Reachable .small k ∧ Filled copyPerm markedPage i root n k := by
  obtain ⟨i, root, k, hreach, hf⟩ := filled_of_step (P := fun _ _ => True) (fun _ => trivial)
    (fun hf hn => by
      obtain ⟨_, k', hrun, ht, -⟩ := exists_of_wp (hf.copyout hn)
      exact ⟨.copyout _ _ _, k', hf.state, trivial, hrun, hf.next hn ht⟩) n hn
  exact ⟨i, root, k, hreach.reachable, hf⟩

end Xv6
