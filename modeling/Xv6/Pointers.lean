import Xv6.Filling

/-!
# System-call pointers

A system call hands addresses and lengths of the process to `copyin`, `copyout` and `copyinstr`, and
they may be any 64-bit numbers. Here the three loops are run with the wrapping arithmetic of the
machine, and every access that they make to a user frame is recorded, with the state of the kernel
at that moment.

The loops wrap only at the end of the address space, where nothing is mapped: `walkaddr` refuses
addresses from `MAXVA` on before it walks, and `vmfault_alloc` refuses addresses beyond the size of
the process. So the wrapping loops are the loops without wrapping, and what they touch are pages of
the process that user code may access.
-/

namespace Xv6

open Prog Multiset

/-- An access of the kernel to `len` bytes of a user frame. -/
structure FrameAccess where
  /-- The state at that moment. -/
  kernel : Kernel
  /-- The user address of the first byte. -/
  va : ℕ
  /-- The frame. -/
  frame : ℕ
  /-- Where in the frame the access begins. -/
  off : ℕ
  len : ℕ

/-- The kernel, and the accesses that were made. -/
structure Traced where
  kernel : Kernel
  trace : List FrameAccess

/-- The kernel, as a part. -/
def Traced.kernelPart : Prog.Part Traced Kernel where
  get := Traced.kernel
  put t k := { t with kernel := k }

/-- Run code that is not traced. -/
def untraced {α : Type} (x : Prog Kernel α) : Prog Traced α := zoom Traced.kernelPart x

theorem wp_untraced {α : Type} {x : Prog Kernel α} {Q : α → Traced → Prop} {E : String → Prop}
    {t : Traced} :
    wp (untraced x) Q E t ↔ wp x (fun a k => Q a { t with kernel := k }) E t.kernel :=
  wp_zoom Traced.kernelPart

/-- Record an access. -/
def record (va frame off len : ℕ) : Prog Traced Unit :=
  Prog.modify fun t => { t with trace := t.trace ++ [⟨t.kernel, va, frame, off, len⟩] }

/-! ### The loops -/

/-- `copyin`. The loop would go on when the fuel is used up, so that this is told apart from the
end. -/
def copyinTraced (me : Fin nproc) (pagetable : ℕ) :
    ℕ → ℕ → ℕ → Prog Traced (Option (List Byte))
  | fuel, srcva, len =>
    if len = 0 then return some []
    else
      match fuel with
      | 0 => Prog.panic "out of fuel"
      | fuel + 1 => do
        let va0 := pgrounddown srcva
        match ← untraced (copyFrame me pagetable va0) with
        | none => return none
        | some pa0 => do
          let n := min (pgsize - (srcva - va0)) len
          record srcva pa0 (srcva - va0) n
          let bytes ← untraced (copyinMove pa0 (srcva - va0) n)
          match ← copyinTraced me pagetable fuel (u64 (va0 + pgsize)) (len - n) with
          | none => return none
          | some rest => return some (bytes ++ rest)

/-- `copyout`. -/
def copyoutTraced (me : Fin nproc) (pagetable : ℕ) : ℕ → ℕ → List Byte → Prog Traced Bool
  | fuel, dstva, src =>
    if src.isEmpty then return true
    else
      match fuel with
      | 0 => Prog.panic "out of fuel"
      | fuel + 1 =>
        let va0 := pgrounddown dstva
        if maxva ≤ va0 then return false
        else do
          match ← untraced (copyFrame me pagetable va0) with
          | none => return false
          | some pa0 =>
            match ← untraced (onVm (onKmem (walk pagetable va0 false))) with
            | none => Prog.panic "kerneltrap"
            | some pte => do
              let e ← untraced (onVm (onKmem (readPte pte)))
              if !e.has pteW then return false
              else do
                let n := min (pgsize - (dstva - va0)) src.length
                record dstva pa0 (dstva - va0) n
                untraced (copyoutMove pa0 (dstva - va0) (src.take n))
                copyoutTraced me pagetable fuel (u64 (va0 + pgsize)) (src.drop n)

/-- The inner loop of `copyinstr`: what it writes, and whether it has seen the null. -/
def copyinstrPage : List Byte → List Byte × Bool
  | [] => ([], false)
  | c :: rest =>
    if c = 0 then ([0], true)
    else
      let (written, gotNull) := copyinstrPage rest
      (c :: written, gotNull)

/-- `copyinstr`: what it writes to the kernel's buffer, and whether it returns 0. -/
def copyinstrTraced (pagetable : ℕ) : ℕ → ℕ → ℕ → Prog Traced (List Byte × Bool)
  | fuel, srcva, max =>
    if max = 0 then return ([], false)
    else
      match fuel with
      | 0 => Prog.panic "out of fuel"
      | fuel + 1 => do
        let va0 := pgrounddown srcva
        match ← untraced (onVm (onKmem (walkaddr pagetable va0))) with
        | none => return ([], false)
        | some pa0 => do
          let n := min (pgsize - (srcva - va0)) max
          let bytes ← untraced (copyinMove pa0 (srcva - va0) n)
          let (written, gotNull) := copyinstrPage bytes
          record srcva pa0 (srcva - va0) written.length
          if gotNull then return (written, true)
          else do
            let (more, gotNull) ← copyinstrTraced pagetable fuel (u64 (va0 + pgsize)) (max - n)
            return (written ++ more, gotNull)

/-! ### Safe accesses -/

/-- Process `me` with page table `root` is running in a kernel that is as it should be. -/
structure Ready (me : Fin nproc) (root : ℕ) (k : Kernel) : Prop where
  inv : KInv 0 k
  pagetable : (k.proc me).pagetable = some root

/-- Page `vpn` of the process is in a frame, and user code may access it. -/
structure Granted (me : Fin nproc) (root vpn frame : ℕ) (k : Kernel) : Prop where
  below : vpn * pgsize < (k.proc me).sz
  valid : (lookup k.vm.kmem.mem root vpn).has pteV = true
  user : (lookup k.vm.kmem.mem root vpn).has pteU = true
  frame : pte2pa (lookup k.vm.kmem.mem root vpn) = frame

/-- **A safe access**: at that moment the frame is mapped at the page, below the size of the process,
with the flags that user code needs, and the access stays in the page. In particular the frame is
not a trapframe, not the trampoline and not that of a guard page. -/
structure FrameAccess.Safe (me : Fin nproc) (root : ℕ) (write : Bool) (a : FrameAccess) : Prop where
  granted : Granted me root (a.va / pgsize) a.frame a.kernel
  writable : write = true → (lookup a.kernel.vm.kmem.mem root (a.va / pgsize)).has pteW = true
  off : a.off = a.va % pgsize
  within : a.off + a.len ≤ pgsize
  trapframe : ∀ i tf, (a.kernel.proc i).trapframe = some tf → a.frame ≠ tf
  trampoline : a.frame ≠ a.kernel.vm.kmem.sym.trampoline
  guard : ∀ u < userPages, (lookup a.kernel.vm.kmem.mem root u).has pteV = true →
    (lookup a.kernel.vm.kmem.mem root u).has pteU = false →
      pte2pa (lookup a.kernel.vm.kmem.mem root u) ≠ a.frame

section Ready

variable {me : Fin nproc} {root vpn frame : ℕ} {k k' : Kernel}

theorem Ready.faulting (h : Ready me root k) :
    Faulting (spaceOf k me root) (otherSpaces k me) (0 + held k) me k :=
  h.inv.faulting h.pagetable

theorem Ready.serviced (h : Ready me root k)
    (hs : Serviced (spaceOf k me root ::ₘ otherSpaces k me) (0 + held k) k k') :
    Ready me root k' := by
  rw [← spaces_cons h.pagetable] at hs
  refine ⟨h.inv.paged hs.paged hs.sym hs.inv hs.booked, ?_⟩
  rw [hs.paged.pagetable]
  exact h.pagetable

/-- A page below the size of a process is one of its pages. -/
theorem lt_pagesOf {sz : ℕ} (h : vpn * pgsize < sz) : vpn < pagesOf sz := by
  rw [pgsize] at h
  rw [pagesOf]
  omega

theorem mul_pgsize_lt {sz : ℕ} (h : vpn < pagesOf sz) : vpn * pgsize < sz := by
  rw [pagesOf] at h
  rw [pgsize]
  omega

/-- **What the flags of a page exclude.** -/
theorem KInv.safe {a : FrameAccess} (h : Ready me root a.kernel)
    (hg : Granted me root (a.va / pgsize) a.frame a.kernel) {write : Bool}
    (hw : write = true → (lookup a.kernel.vm.kmem.mem root (a.va / pgsize)).has pteW = true)
    (hoff : a.off = a.va % pgsize) (hlen : a.off + a.len ≤ pgsize) : a.Safe me root write := by
  have hf := h.faulting
  have hinv := hf.inv
  have hself := mem_cons_self (spaceOf a.kernel me root) (otherSpaces a.kernel me)
  have huser : a.va / pgsize < userPages :=
    (lt_pagesOf hg.below).trans_le (pagesOf_le (h.inv.size me))
  have hfoot := VmInv.mem_footprint_of_valid (q := spaceOf a.kernel me root) huser hg.valid
  rw [show pte2pa (lookup a.kernel.vm.kmem.mem (spaceOf a.kernel me root).root (a.va / pgsize))
    = a.frame from hg.frame] at hfoot
  refine ⟨hg, hw, hoff, hlen, fun i tf htf heq => ?_, fun heq => ?_, fun u hu hval hU heq => ?_⟩
  · -- trapframes are held by the kernel and are part of no space
    have hheld : tf ∈ 0 + held a.kernel := by
      rw [zero_add, held]
      refine mem_add.mpr (Or.inl (mem_add.mpr (Or.inr ?_)))
      rw [trapframes, mem_sum]
      exact ⟨i, Ledger.mem_all i, by rw [htf]; exact mem_singleton_self tf⟩
    rw [heq] at hfoot
    exact hinv.held_notMem_footprint hheld hself hfoot
  · -- the trampoline is a page of the kernel's text
    have hmanaged := hinv.footprint_managed hself hfoot
    have hkend := (mem_physPages.mp hmanaged).2.1
    have htramp := a.kernel.vm.kmem.sym.trampoline_lt_kend
    rw [pgsize] at htramp
    omega
  · have huv : u = a.va / pgsize :=
      hinv.frame_inj hself hu huser hval hg.valid (heq.trans hg.frame.symm)
    rw [huv, hg.user] at hU
    cases hU.symm

/-- **The frame of a page**, for a copy. -/
theorem Ready.copyFrame (h : Ready me root k) :
    wp (copyFrame me root (vpn * pgsize))
      (fun r k' => Ready me root k' ∧ ∀ x, r = some x → Granted me root vpn x k')
      (fun e => e = "clock_evict: swap full") k := by
  have hf := h.faulting
  have hno : ∀ {k' : Kernel}, Ready me root k' →
      Ready me root k' ∧ ∀ x : ℕ, none = some x → Granted me root vpn x k' :=
    fun hr => ⟨hr, fun x hx => nomatch hx⟩
  refine copyFrame_spec (Q := fun r k' => Ready me root k' ∧ ∀ x, r = some x →
    Granted me root vpn x k') hf (fun hn hval hU => ?_) (fun _ => hno h) ⟨fun _ _ _ _ _ => rfl,
    fun _ _ _ _ => hno h, fun _ _ k' hr => hno (h.serviced hr.serviced),
    fun hn _ x k' hp _ => ?_⟩
  · refine ⟨h, fun x hx => ⟨mul_pgsize_lt hn, hval, hU, Option.some.inj hx⟩⟩
  · refine ⟨h.serviced hp.serviced, fun y hy => ?_⟩
    obtain rfl : x = y := Option.some.inj hy
    have hentry : lookup k'.vm.kmem.mem root vpn = mkPte x (pteW ||| pteU ||| pteR) := hp.entry
    refine ⟨?_, ?_, ?_, ?_⟩
    · rw [hp.paged.sz]
      exact mul_pgsize_lt hn
    · rw [hentry]
      exact Pte.has_mkPte_pteV _ _
    · rw [hentry, Pte.has_mkPte _ _ (by decide)]
      decide
    · rw [hentry]
      exact pte2pa_mkPte hp.addr leafPerm_copy.flags

/-! ### One iteration -/

/-- The next page of the address space, if this one is below the size of the process. -/
theorem Granted.next (h : Ready me root k) (hg : Granted me root vpn frame k) :
    u64 (vpn * pgsize + pgsize) = vpn * pgsize + pgsize := by
  have hsz := h.inv.size me
  have hlt := hg.below
  have htop : trapframeVa < 2 ^ 64 - pgsize := by decide
  exact Nat.mod_eq_of_lt (by omega)

theorem sub_pgrounddown (va : ℕ) : va - va / pgsize * pgsize = va % pgsize := by
  rw [Nat.mod_eq_sub_mul_div, Nat.mul_comm]

/-- The state after a part of a copy that began in `t`: every access since then is safe. -/
structure Contained (me : Fin nproc) (root : ℕ) (write : Bool) (t t' : Traced) : Prop where
  ready : Ready me root t'.kernel
  safe : ∀ a ∈ t'.trace, a ∈ t.trace ∨ a.Safe me root write

variable {write : Bool} {t t₁ t' : Traced}

theorem Contained.refl (h : Ready me root t.kernel) : Contained me root write t t :=
  ⟨h, fun _ ha => Or.inl ha⟩

theorem Contained.trans (h : Contained me root write t t₁) (h' : Contained me root write t₁ t') :
    Contained me root write t t' := by
  refine ⟨h'.ready, fun a ha => ?_⟩
  rcases h'.safe a ha with hold | hnew
  · exact h.safe a hold
  · exact Or.inr hnew

theorem Contained.kernel (h : Contained me root write t t₁) (hk : Ready me root k') :
    Contained me root write t { t₁ with kernel := k' } :=
  ⟨hk, h.safe⟩

/-- **An access that is recorded.** -/
theorem Contained.record {va n : ℕ} (h : Ready me root t.kernel)
    (hg : Granted me root (va / pgsize) frame t.kernel)
    (hw : write = true → (lookup t.kernel.vm.kmem.mem root (va / pgsize)).has pteW = true)
    (hn : va % pgsize + n ≤ pgsize) :
    Contained me root write t
      { t with trace := t.trace ++ [⟨t.kernel, va, frame, va % pgsize, n⟩] } := by
  refine ⟨h, fun a ha => ?_⟩
  rcases List.mem_append.mp ha with hold | hnew
  · exact Or.inl hold
  · rw [List.mem_singleton.mp hnew]
    exact Or.inr (KInv.safe h hg hw rfl hn)

end Ready

section Loops

variable {me : Fin nproc} {root : ℕ}

/-- **`copyin`** ends, every access is safe, and the result is that of the loop without wrapping. -/
theorem copyinTraced_spec : ∀ (fuel va len : ℕ) {t : Traced}, Ready me root t.kernel → len ≤ fuel →
    wp (copyinTraced me root fuel va len)
      (fun r t' => Contained me root false t t' ∧
        copyinFrom me root fuel va len t.kernel = .ok (r, t'.kernel))
      (fun e => e = "clock_evict: swap full" ∧
        copyinFrom me root fuel va len t.kernel = .error e) t := by
  intro fuel
  induction fuel with
  | zero =>
    intro va len t h hlen
    rw [copyinTraced, if_pos (by omega)]
    exact ⟨.refl h, rfl⟩
  | succ fuel ih =>
    intro va len t h hlen
    rw [copyinTraced, copyinFrom]
    by_cases hzero : len = 0
    · rw [if_pos hzero, if_pos hzero]
      exact ⟨.refl h, rfl⟩
    rw [if_neg hzero, if_neg hzero]
    dsimp only
    rw [pgrounddown, wp_bind, wp_untraced]
    refine wp_mono (wp_and h.copyFrame (wp_self _ _)) ?_ ?_
    · rintro (_ | pa0) k₁ ⟨⟨h₁, hg⟩, hrun⟩
      · rw [bind_of_ok hrun]
        exact ⟨(Contained.refl h).kernel h₁, rfl⟩
      have hgrant := hg pa0 rfl
      have hmod : va % pgsize < pgsize := Nat.mod_lt _ (by decide)
      rw [bind_of_ok hrun]
      dsimp only
      rw [hgrant.next h₁, sub_pgrounddown]
      set n : ℕ := min (pgsize - va % pgsize) len with hn
      have hrecord : Contained me root false { t with kernel := k₁ } _ :=
        Contained.record (n := n) h₁ hgrant (by rintro ⟨⟩) (by omega)
      have hpast : Contained me root false t _ := ((Contained.refl h).kernel h₁).trans hrecord
      rw [Xv6.record, wp_bind, wp_modify, wp_bind, wp_untraced, copyinMove,
        wp_bind, wp_get, wp_pure, wp_bind, bind_of_ok rfl]
      refine wp_mono (ih _ _ hrecord.ready (by omega)) ?_ ?_
      · rintro (_ | rest) t₂ ⟨hc, hrest⟩
        · exact ⟨hpast.trans hc, bind_of_ok hrest⟩
        · exact ⟨hpast.trans hc, bind_of_ok hrest⟩
      · rintro e ⟨he, hrest⟩
        exact ⟨he, bind_of_error hrest⟩
    · rintro e ⟨he, hrun⟩
      rw [bind_of_error hrun]
      exact ⟨he, rfl⟩

/-- The check of `copyout` reads the entry of a page that is mapped. -/
theorem walk_readPte {vpn : ℕ} {k : Kernel} (hv : vpn < userPages)
    (hval : (lookup k.vm.kmem.mem root vpn).has pteV = true) :
    ∃ pte, onVm (onKmem (walk root (vpn * pgsize) false)) k = .ok (some pte, k) ∧
      onVm (onKmem (readPte pte)) k = .ok (lookup k.vm.kmem.mem root vpn, k) := by
  obtain ⟨l, hl⟩ := exists_leafTable_of_valid hval
  refine ⟨⟨l, slotOf vpn⟩, ?_, ?_⟩
  · have hwp : wp (onVm (onKmem (walk root (vpn * pgsize) false)))
        (fun r k' => r = some ⟨l, slotOf vpn⟩ ∧ k' = k) (fun _ => False) k := by
      rw [wp_onVm, wp_onKmem]
      refine walk_spec (lt_maxVpn hv) ?_
      rw [hl]
      exact ⟨rfl, rfl⟩
    obtain ⟨r, k', hrun, rfl, rfl⟩ := exists_of_wp hwp
    exact hrun
  · have hwp : wp (onVm (onKmem (readPte ⟨l, slotOf vpn⟩)))
        (fun e k' => e = lookup k.vm.kmem.mem root vpn ∧ k' = k) (fun _ => False) k := by
      rw [wp_onVm, wp_onKmem, wp_readPte, lookup_of_some hl]
      exact ⟨rfl, rfl⟩
    obtain ⟨e, k', hrun, rfl, rfl⟩ := exists_of_wp hwp
    exact hrun

/-- **`copyout`** ends, every access is safe and to a page that user code may write, and the result
is that of the loop without wrapping. -/
theorem copyoutTraced_spec : ∀ (fuel va : ℕ) (src : List Byte) {t : Traced},
    Ready me root t.kernel → src.length ≤ fuel →
    wp (copyoutTraced me root fuel va src)
      (fun r t' => Contained me root true t t' ∧
        copyoutFrom me root fuel va src t.kernel = .ok (r, t'.kernel))
      (fun e => e = "clock_evict: swap full" ∧
        copyoutFrom me root fuel va src t.kernel = .error e) t := by
  intro fuel
  induction fuel with
  | zero =>
    intro va src t h hlen
    have hnil : src = [] := List.length_eq_zero_iff.mp (by omega)
    subst hnil
    exact ⟨.refl h, rfl⟩
  | succ fuel ih =>
    intro va src t h hlen
    rw [copyoutTraced, copyoutFrom]
    by_cases hzero : src.isEmpty = true
    · rw [if_pos hzero, if_pos hzero]
      exact ⟨.refl h, rfl⟩
    rw [if_neg hzero, if_neg hzero]
    dsimp only
    by_cases hmax : maxva ≤ pgrounddown va
    · rw [if_pos hmax, if_pos hmax]
      exact ⟨.refl h, rfl⟩
    rw [if_neg hmax, if_neg hmax, pgrounddown, wp_bind, wp_untraced]
    have hpos : 0 < src.length := List.length_pos_iff.mpr fun hnil => hzero (by rw [hnil]; rfl)
    refine wp_mono (wp_and h.copyFrame (wp_self _ _)) ?_ ?_
    · rintro (_ | pa0) k₁ ⟨⟨h₁, hg⟩, hrun⟩
      · rw [bind_of_ok hrun]
        exact ⟨(Contained.refl h).kernel h₁, rfl⟩
      have hgrant := hg pa0 rfl
      have hmod : va % pgsize < pgsize := Nat.mod_lt _ (by decide)
      have huser : va / pgsize < userPages :=
        (lt_pagesOf hgrant.below).trans_le (pagesOf_le (h₁.inv.size me))
      obtain ⟨pte, hwalk, hread⟩ := walk_readPte huser hgrant.valid
      have hpast : Contained me root true t { t with kernel := k₁ } := (Contained.refl h).kernel h₁
      rw [bind_of_ok hrun]
      dsimp only
      rw [wp_bind, wp_untraced, wp_of_ok hwalk, bind_of_ok hwalk]
      dsimp only
      rw [wp_bind, wp_untraced, wp_of_ok hread, bind_of_ok hread]
      cases hW : (lookup k₁.vm.kmem.mem root (va / pgsize)).has pteW with
      | false => exact ⟨hpast, rfl⟩
      | true =>
        rw [Bool.not_true, if_neg Bool.false_ne_true, if_neg Bool.false_ne_true,
          hgrant.next h₁, sub_pgrounddown]
        set n : ℕ := min (pgsize - va % pgsize) src.length with hn
        have hrecord : Contained me root true { t with kernel := k₁ } _ :=
          Contained.record (n := n) h₁ hgrant (fun _ => hW) (by omega)
        rw [Xv6.record, wp_bind, wp_modify, wp_bind, wp_untraced]
        have hmove : wp (copyoutMove pa0 (va % pgsize) (src.take n))
            (fun _ k' => Ready me root k') (fun _ => False) k₁ := by
          rw [← hgrant.frame]
          exact copyoutMove_spec h₁.faulting.inv (mem_cons_self _ _) huser hgrant.valid
            fun k' hs _ => h₁.serviced hs
        refine wp_mono (wp_and hmove (wp_self _ _)) ?_ fun e he => he.1.elim
        rintro _ k₂ ⟨h₂, hmoved⟩
        rw [bind_of_ok hmoved]
        refine wp_mono (ih _ _ h₂ ?_) ?_ fun e he => he
        · rw [List.length_drop]
          omega
        · rintro r t₃ ⟨hc, hrest⟩
          exact ⟨hpast.trans ((hrecord.kernel h₂).trans hc), hrest⟩
    · rintro e ⟨he, hrun⟩
      rw [bind_of_error hrun]
      exact ⟨he, rfl⟩

/-- `walkaddr` finds pages that user code may access, and only those. -/
theorem Ready.walkaddr {k : Kernel} (h : Ready me root k) (vpn : ℕ) :
    wp (onVm (onKmem (walkaddr root (vpn * pgsize))))
      (fun r k' => k' = k ∧ ∀ x, r = some x → Granted me root vpn x k) (fun _ => False) k := by
  rw [wp_onVm, wp_onKmem]
  rcases lt_maxVpn_or vpn with hv | hva
  · refine walkaddr_spec hv ⟨rfl, fun x hx => ?_⟩
    obtain ⟨hn, hval, hU, hframe⟩ := h.faulting.of_userPage hv hx
    exact ⟨mul_pgsize_lt hn, hval, hU, hframe⟩
  · rw [walkaddr_of_maxva_le hva]
    exact ⟨rfl, fun x hx => nomatch hx⟩

theorem copyinstrPage_of_mem : ∀ {bytes : List Byte}, bytes.contains 0 = true →
    copyinstrPage bytes = (bytes.takeWhile (· != 0) ++ [0], true)
  | [], h => absurd h (by simp)
  | c :: rest, h => by
    by_cases hc : c = 0
    · simp [copyinstrPage, hc]
    · have hrest : rest.contains 0 = true := by
        rw [List.contains_iff_mem] at h ⊢
        exact (List.mem_cons.mp h).resolve_left fun heq => hc heq.symm
      have hkeep : (c != 0) = true := bne_iff_ne.mpr hc
      rw [copyinstrPage, if_neg hc, copyinstrPage_of_mem hrest,
        List.takeWhile_cons_of_pos (p := fun x => x != 0) hkeep]
      rfl

theorem copyinstrPage_of_notMem : ∀ {bytes : List Byte}, ¬bytes.contains 0 = true →
    copyinstrPage bytes = (bytes, false)
  | [], _ => rfl
  | c :: rest, h => by
    have hc : c ≠ 0 := by
      rintro rfl
      exact h (List.contains_iff_mem.mpr List.mem_cons_self)
    have hrest : ¬rest.contains 0 = true := fun hr => h (by
      rw [List.contains_iff_mem] at hr ⊢
      exact List.mem_cons_of_mem _ hr)
    rw [copyinstrPage, if_neg hc, copyinstrPage_of_notMem hrest]

/-- **`copyinstr`** ends without a panic, every access is safe, it writes at most `max` bytes, and
the result is that of the loop without wrapping. -/
theorem copyinstrTraced_spec : ∀ (fuel va max : ℕ) {t : Traced}, Ready me root t.kernel →
    max ≤ fuel →
    wp (copyinstrTraced root fuel va max)
      (fun r t' => Contained me root false t t' ∧ r.1.length ≤ max ∧
        (r.2 = true → ∃ s, r.1 = s ++ [0]) ∧ t'.kernel = t.kernel ∧
        copyinstrFrom root fuel va max t.kernel
          = .ok (if r.2 then some r.1.dropLast else none, t.kernel))
      (fun _ => False) t := by
  intro fuel
  induction fuel with
  | zero =>
    intro va max t h hlen
    rw [copyinstrTraced, if_pos (by omega)]
    exact ⟨.refl h, Nat.zero_le _, nofun, rfl, rfl⟩
  | succ fuel ih =>
    intro va max t h hlen
    have hfail : Contained me root false t t ∧ ([] : List Byte).length ≤ max ∧
        (false = true → ∃ s, ([] : List Byte) = s ++ [0]) ∧ t.kernel = t.kernel :=
      ⟨.refl h, Nat.zero_le _, nofun, rfl⟩
    rw [copyinstrTraced, copyinstrFrom]
    by_cases hzero : max = 0
    · rw [if_pos hzero, if_pos hzero]
      exact ⟨hfail.1, hfail.2.1, hfail.2.2.1, rfl, rfl⟩
    rw [if_neg hzero, if_neg hzero]
    dsimp only
    rw [pgrounddown, wp_bind, wp_untraced]
    refine wp_mono (wp_and (h.walkaddr (va / pgsize)) (wp_self _ _)) ?_
      fun e he => he.1.elim
    rintro (_ | pa0) k₁ ⟨⟨rfl, hg⟩, hrun⟩
    · rw [bind_of_ok hrun]
      exact ⟨hfail.1, hfail.2.1, hfail.2.2.1, rfl, rfl⟩
    have hgrant := hg pa0 rfl
    have hmod : va % pgsize < pgsize := Nat.mod_lt _ (by decide)
    rw [bind_of_ok hrun]
    dsimp only
    rw [hgrant.next h, sub_pgrounddown]
    set n : ℕ := min (pgsize - va % pgsize) max with hn
    rw [wp_bind, wp_untraced, copyinMove, wp_bind, wp_get, wp_pure,
      bind_of_ok rfl]
    set bytes : List Byte := readBytes (t.kernel.vm.kmem.mem pa0) (va % pgsize) n with hbytes
    have hlength : bytes.length = n := length_readBytes _ _ _
    by_cases hnull : bytes.contains 0 = true
    · rw [copyinstrPage_of_mem hnull, if_pos hnull]
      dsimp only
      have hshort := length_takeWhile_lt hnull
      have hwritten : (bytes.takeWhile (· != 0) ++ [0]).length ≤ n := by
        rw [List.length_append, List.length_singleton]
        omega
      have hrecord : Contained me root false t _ := Contained.record h hgrant
        (nofun)
        (show va % pgsize + (bytes.takeWhile (· != 0) ++ [0]).length ≤ pgsize by omega)
      rw [Xv6.record, wp_bind, wp_modify, if_pos rfl]
      refine ⟨hrecord, hwritten.trans (min_le_right _ _), fun _ => ⟨_, rfl⟩, rfl, ?_⟩
      rw [if_pos rfl, List.dropLast_concat]
      rfl
    · rw [copyinstrPage_of_notMem hnull, if_neg hnull]
      dsimp only
      have hrecord : Contained me root false t _ := Contained.record h hgrant
        (nofun)
        (show va % pgsize + bytes.length ≤ pgsize by omega)
      rw [Xv6.record, wp_bind, wp_modify, if_neg Bool.false_ne_true]
      refine wp_seq (ih _ _ hrecord.ready (by omega)) ?_
      rintro ⟨more, gotNull⟩ t₂ ⟨hc, hmore, hends, hsame, hrest⟩
      refine ⟨hrecord.trans hc, ?_, fun hyes => ?_, hsame, ?_⟩
      · rw [List.length_append]
        omega
      · obtain ⟨s, hs⟩ := hends hyes
        exact ⟨bytes ++ s, by rw [hs, List.append_assoc]⟩
      · rw [bind_of_ok hrest]
        cases gotNull with
        | false => rfl
        | true =>
          obtain ⟨s, hs⟩ := hends rfl
          dsimp only at hs ⊢
          rw [hs, if_pos rfl, if_pos rfl, ← List.append_assoc, List.dropLast_concat,
            List.dropLast_concat]
          rfl

end Loops

/-! ### Reachable states -/

section Reachable

variable {b : Boot} {k : Kernel} {me : Fin nproc} {root : ℕ}

theorem Reachable.ready (h : Reachable b k) (hroot : (k.proc me).pagetable = some root) :
    Ready me root k := ⟨h.ok.inv, hroot⟩

/-- **System-call pointers are contained.** From every reachable state and for all 64-bit addresses
and lengths, the copies come to an end, unless an eviction finds the swap area full; every access
is safe at the moment it is made; and the results are those of the loops that do not wrap. -/
theorem Reachable.pointers_contained (h : Reachable b k)
    (hroot : (k.proc me).pagetable = some root) (va len : ℕ) :
    (wp (copyinTraced me root len va len)
      (fun r t => (∀ a ∈ t.trace, a.Safe me root false) ∧
        copyin me root va len k = .ok (r, t.kernel))
      (fun e => e = "clock_evict: swap full") ⟨k, []⟩) ∧
    (∀ src : List Byte, src.length = len →
      wp (copyoutTraced me root len va src)
        (fun r t => (∀ a ∈ t.trace, a.Safe me root true) ∧
          copyout me root va src k = .ok (r, t.kernel))
        (fun e => e = "clock_evict: swap full") ⟨k, []⟩) ∧
    wp (copyinstrTraced root len va len)
      (fun r t => (∀ a ∈ t.trace, a.Safe me root false) ∧ r.1.length ≤ len ∧ t.kernel = k ∧
        copyinstr root va len k = .ok (if r.2 then some r.1.dropLast else none, k))
      (fun _ => False) ⟨k, []⟩ := by
  have hready := h.ready hroot
  have hsafe : ∀ {write : Bool} {t : Traced}, Contained me root write ⟨k, []⟩ t →
      ∀ a ∈ t.trace, a.Safe me root write := by
    intro write t hc a ha
    rcases hc.safe a ha with hold | hnew
    · exact absurd hold List.not_mem_nil
    · exact hnew
  refine ⟨?_, fun src hsrc => ?_, ?_⟩
  · exact wp_mono (copyinTraced_spec len va len hready le_rfl)
      (fun r t ht => ⟨hsafe ht.1, ht.2⟩) fun e he => he.1
  · subst hsrc
    exact wp_mono (copyoutTraced_spec _ va src hready le_rfl)
      (fun r t ht => ⟨hsafe ht.1, ht.2⟩) fun e he => he.1
  · exact wp_imp (copyinstrTraced_spec len va len hready le_rfl)
      fun r t ht => ⟨hsafe ht.1, ht.2.1, ht.2.2.2⟩

end Reachable

/-- Copies to and from a page that is resident, and a string in the range that begins at the last
byte of the address space and wraps around all of it. -/
theorem pointers_contained_small : ∃ k me root, Reachable .small k ∧
    (lookup k.vm.kmem.mem root 2).has pteV = true ∧
    wp (copyinTraced me root 9 (2 * pgsize) 9)
      (fun r t => (∀ a ∈ t.trace, a.Safe me root false) ∧
        copyin me root (2 * pgsize) 9 k = .ok (r, t.kernel))
      (fun e => e = "clock_evict: swap full") ⟨k, []⟩ ∧
    wp (copyoutTraced me root 9 (2 * pgsize) (List.replicate 9 7))
      (fun r t => (∀ a ∈ t.trace, a.Safe me root true) ∧
        copyout me root (2 * pgsize) (List.replicate 9 7) k = .ok (r, t.kernel))
      (fun e => e = "clock_evict: swap full") ⟨k, []⟩ ∧
    wp (copyinstrTraced root (2 ^ 64 - 1) (2 ^ 64 - 1) (2 ^ 64 - 1))
      (fun r t => (∀ a ∈ t.trace, a.Safe me root false) ∧ r.1.length ≤ 2 ^ 64 - 1 ∧ t.kernel = k ∧
        copyinstr root (2 ^ 64 - 1) (2 ^ 64 - 1) k
          = .ok (if r.2 then some r.1.dropLast else none, k))
      (fun _ => False) ⟨k, []⟩ := by
  obtain ⟨me, root, k, hreach, hf⟩ := filled_by_copies (n := 1) (by decide)
  obtain ⟨hin, hout, -⟩ := Reachable.pointers_contained hreach hf.pagetable (2 * pgsize) 9
  exact ⟨k, me, root, hreach, hf.resident (by decide) Nat.one_pos, hin, hout _ rfl,
    (Reachable.pointers_contained hreach hf.pagetable (2 ^ 64 - 1) (2 ^ 64 - 1)).2.2⟩

end Xv6
