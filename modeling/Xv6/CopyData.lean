import Xv6.CopySpec

/-!
# What a copy delivers

The specification of the copies so far says what they keep. Here is what they deliver, byte by byte,
as a condition on the state in which the copy starts.

A copy goes page by page. A page that is not resident is brought in by `vmfault_alloc`, which
always maps zeros. So the kernel sees a page of the process as it is if the page is resident, and
zeros otherwise. For a page that was never touched that is right; for a page that is swapped out it
is right only if the bytes that matter happen to be zero. `CopyinExact` and `CopyoutExact` follow a
copy through its iterations and say at each of them what has to hold. A page that is resident when
the copy starts may be swapped out when the copy gets there, so the condition has to be read along
the run.
-/

namespace Xv6

open Prog

variable {R : Multiset Space} {sp : Space} {held : Multiset ℕ} {k k₁ k' : Kernel} {me : Fin nproc}
  {vpn x : ℕ}

/-! ### Memory by addresses -/

/-- The byte of a process at an address. -/
def logicalByte (v : Vm) (root a : ℕ) : Byte := byteAt (logical v root (a / pgsize)) (a % pgsize)

/-- The bytes of a process from `va` on. -/
def logicalBytes (v : Vm) (root va len : ℕ) : List Byte :=
  (List.range len).map fun j => logicalByte v root (va + j)

theorem length_logicalBytes (v : Vm) (root va len : ℕ) :
    (logicalBytes v root va len).length = len := by
  rw [logicalBytes, List.length_map, List.length_range]

theorem logicalBytes_add (v : Vm) (root va m n : ℕ) :
    logicalBytes v root va (m + n) = logicalBytes v root va m ++ logicalBytes v root (va + m) n := by
  rw [logicalBytes, List.range_add, List.map_append, List.map_map]
  congr 1
  refine List.map_congr_left fun j _ => ?_
  rw [Function.comp_apply, Nat.add_assoc]

theorem logicalBytes_page (v : Vm) (root : ℕ) {va n : ℕ} (h : va % pgsize + n ≤ pgsize) :
    logicalBytes v root va n = readBytes (logical v root (va / pgsize)) (va % pgsize) n := by
  refine List.map_congr_left fun j hj => ?_
  rw [List.mem_range] at hj
  have hpos : 0 < pgsize := by decide
  have hsum : va + j = va / pgsize * pgsize + (va % pgsize + j) := by
    rw [← Nat.add_assoc, Nat.mul_comm, Nat.div_add_mod]
  have hlt : va % pgsize + j < pgsize := by omega
  have hdiv : (va + j) / pgsize = va / pgsize := by
    rw [hsum, Nat.mul_comm, Nat.mul_add_div hpos, Nat.div_eq_of_lt hlt, Nat.add_zero]
  have hmod : (va + j) % pgsize = va % pgsize + j := by
    rw [hsum, Nat.mul_comm, Nat.mul_add_mod, Nat.mod_eq_of_lt hlt]
  rw [logicalByte, hdiv, hmod]

theorem byteAt_fill (b : Byte) {i : ℕ} (hi : i < pgsize) : byteAt (fill b) i = b := by
  rw [byteAt, dif_pos (by exact hi), fill]

theorem byteAt_writeBytes (pg : Page) (off : ℕ) (bs : List Byte) {i : ℕ} (hi : i < pgsize) :
    byteAt (writeBytes pg off bs) i
      = if off ≤ i ∧ i < off + bs.length then bs.getD (i - off) 0 else byteAt pg i := by
  have hi' : i < 8 * 512 := hi
  rw [byteAt, byteAt, dif_pos hi', dif_pos hi', writeBytes]

/-! ### The page the kernel sees -/

/-- The kernel can get at a page. -/
def CanSee (k : Kernel) (root vpn : ℕ) : Prop :=
  (lookup k.vm.kmem.mem root vpn).has pteV = true ∨ CanPageIn k root vpn

/-- The page as the kernel sees it: zeros if it is not resident. -/
def seen (v : Vm) (root vpn : ℕ) : Page :=
  if (lookup v.kmem.mem root vpn).has pteV then logical v root vpn else fill 0

theorem seen_eq_logical {v : Vm} {root : ℕ}
    (h : (lookup v.kmem.mem root vpn).has pteSwapped = false) :
    seen v root vpn = logical v root vpn := by
  rw [seen]
  split_ifs with hval
  · rfl
  · rw [logical, contents, if_neg hval, h, if_neg Bool.false_ne_true]

theorem seen_of_swapped {v : Vm} {root : ℕ}
    (h : (lookup v.kmem.mem root vpn).has pteV = false) : seen v root vpn = fill 0 := by
  rw [seen, h, if_neg Bool.false_ne_true]

/-- The frame `x` of page `vpn` was found. -/
structure Found (sp : Space) (R : Multiset Space) (held : Multiset ℕ) (vpn x : ℕ) (k k' : Kernel) :
    Prop where
  serviced : Serviced (sp ::ₘ R) held k k'
  valid : (lookup k'.vm.kmem.mem sp.root vpn).has pteV = true
  frame : pte2pa (lookup k'.vm.kmem.mem sp.root vpn) = x
  write : (lookup k.vm.kmem.mem sp.root vpn).has pteV = true ∧ k' = k ∨
    (lookup k'.vm.kmem.mem sp.root vpn).has pteW = true
  data : logical k'.vm sp.root vpn = seen k.vm sp.root vpn
  rest : ∀ u < userPages, u ≠ vpn → SameAt k.vm k'.vm sp.root u
  others : ∀ q ∈ R, ∀ u < userPages, SameAt k.vm k'.vm q.root u

/-- **The frame of a page**, or why there is none. -/
theorem copyFrame_found (h : Faulting sp R held me k) (hsz : vpn * pgsize < (k.proc me).sz)
    (hU : (lookup k.vm.kmem.mem sp.root vpn).has pteV = true →
      (lookup k.vm.kmem.mem sp.root vpn).has pteU = true) :
    wp (copyFrame me sp.root (vpn * pgsize))
      (fun r k' => match r with
        | some x => CanSee k sp.root vpn ∧ Found sp R held vpn x k k'
        | none => ¬CanSee k sp.root vpn)
      (fun _ => ¬CanSee k sp.root vpn) k := by
  have hinvalid : ∀ {P : Prop}, (lookup k.vm.kmem.mem sp.root vpn).has pteV = false →
      (lookup k.vm.kmem.mem sp.root vpn).has pteV = true → P := by
    intro P hf ht
    rw [hf] at ht
    nomatch ht
  refine copyFrame_spec h (fun hn hval _ => ?_) (fun hnone => ?_)
    ⟨fun hn hval hmust _ hslot => ?_, fun hn hval hF hv => ?_, fun hn habs k' hr => ?_,
    fun hn hval x k' hp _ => ?_⟩
  · refine ⟨Or.inl hval, Serviced.refl h.inv, hval, rfl, Or.inl ⟨hval, rfl⟩, ?_,
      fun u _ _ => ⟨rfl, Or.inl rfl⟩, fun q _ u _ => ⟨rfl, Or.inl rfl⟩⟩
    rw [seen, if_pos hval]
  · rcases hnone with hle | ⟨hval, hu⟩
    · exact absurd hsz (not_lt.mpr hle)
    · rw [hU hval] at hu
      nomatch hu.symm
  · rintro (hv | hc)
    · exact hinvalid hval hv
    · exact slotsUsed_of_freeSlot hslot (hc.1 hmust).2
  · rintro (hv' | hc)
    · exact hinvalid hval hv'
    · exact not_canPageIn_of_dry h hF hv vpn hc
  · rintro (hv | hc)
    · rw [habs, Pte.has_zero] at hv
      nomatch hv
    · exact absurd hc.2 (not_le.mpr hr.short)
  · have hentry := hp.entry
    refine ⟨Or.inr hp.canPageIn, hp.serviced, ?_, ?_, Or.inr ?_, ?_, hp.rest, hp.others⟩
    · rw [hentry]
      exact Pte.has_mkPte_pteV _ _
    · rw [hentry, pte2pa_mkPte hp.addr leafPerm_copy.flags]
    · rw [hentry, Pte.has_mkPte _ _ (by decide)]
      rfl
    · rw [hp.data, seen_of_swapped hval]

/-! ### Ranges -/

/-- How many of `len` bytes from `va` on are on the page of `va`. -/
def onPage (va len : ℕ) : ℕ := min (pgsize - va % pgsize) len

theorem mod_add_onPage_le (va len : ℕ) : va % pgsize + onPage va len ≤ pgsize := by
  have hlt : va % pgsize < pgsize := Nat.mod_lt _ (by decide)
  rw [onPage]
  omega

theorem onPage_pos (va : ℕ) {len : ℕ} (hlen : len ≠ 0) : 0 < onPage va len := by
  have hlt : va % pgsize < pgsize := Nat.mod_lt _ (by decide)
  rw [onPage]
  omega

theorem onPage_le (va len : ℕ) : onPage va len ≤ len := min_le_right _ _

/-- A range that goes beyond a page goes on at the next page. -/
theorem add_onPage {va len : ℕ} (hlen : onPage va len < len) :
    va + onPage va len = pgrounddown va + pgsize := by
  have hlt : va % pgsize < pgsize := Nat.mod_lt _ (by decide)
  have hva : va = pgrounddown va + va % pgsize := by
    rw [pgrounddown, Nat.mul_comm, Nat.div_add_mod]
  rw [onPage] at *
  omega

theorem next_page_div (va : ℕ) : (pgrounddown va + pgsize) / pgsize = va / pgsize + 1 := by
  rw [pgrounddown, ← Nat.succ_mul, Nat.mul_div_cancel _ (by decide)]

/-- Page `u` meets the range. -/
def Meets (va len u : ℕ) : Prop := va / pgsize ≤ u ∧ u * pgsize < va + len

theorem Meets.user {va len u : ℕ} (h : Meets va len u) (hbound : va + len ≤ trapframeVa) :
    u < userPages := by
  have hlt : u * pgsize < userPages * pgsize := by
    rw [userPages_mul_pgsize]
    exact h.2.trans_le hbound
  exact Nat.lt_of_mul_lt_mul_right hlt

theorem meets_first {len : ℕ} (va : ℕ) (hlen : len ≠ 0) : Meets va len (va / pgsize) :=
  ⟨le_rfl, (Nat.div_mul_le_self va pgsize).trans_lt (by omega)⟩

theorem Meets.of_rest {va len u : ℕ}
    (h : Meets (pgrounddown va + pgsize) (len - onPage va len) u) :
    va / pgsize < u ∧ Meets va len u := by
  obtain ⟨hlow, hhigh⟩ := h
  rw [next_page_div] at hlow
  refine ⟨hlow, (Nat.le_succ _).trans hlow, ?_⟩
  rcases (onPage_le va len).lt_or_eq with hlt | heq
  · have := add_onPage hlt
    omega
  · rw [heq, Nat.sub_self, Nat.add_zero, pgrounddown, ← Nat.succ_mul] at hhigh
    exact absurd (Nat.lt_of_mul_lt_mul_right hhigh) (not_lt.mpr hlow)

/-- The pages of a range that are mapped have a flag. -/
def Grants (v : Vm) (root va len : ℕ) (flag : Pte) : Prop :=
  ∀ u, Meets va len u → (lookup v.kmem.mem root u).has pteV = true →
    (lookup v.kmem.mem root u).has flag = true

/-- Paging does not change the flags of a page that stays mapped. -/
theorem Grants.rest {v v' : Vm} {root va len : ℕ} {flag : Pte} (h : Grants v root va len flag)
    (hbound : va + len ≤ trapframeVa)
    (hrest : ∀ u < userPages, u ≠ va / pgsize → SameAt v v' root u) :
    Grants v' root (pgrounddown va + pgsize) (len - onPage va len) flag := by
  intro u hu hval
  obtain ⟨hlt, hm⟩ := hu.of_rest
  rcases (hrest u (hm.user hbound) hlt.ne').2 with heq | hout
  · rw [heq] at hval ⊢
    exact h u hm hval
  · obtain ⟨slot, hs⟩ := hout.slot
    rw [hs, Pte.has_swappedPte_pteV] at hval
    nomatch hval

theorem logicalBytes_congr {v v' : Vm} {root va len : ℕ}
    (h : ∀ u, Meets va len u → logical v' root u = logical v root u) :
    logicalBytes v' root va len = logicalBytes v root va len := by
  refine List.map_congr_left fun j hj => ?_
  rw [List.mem_range] at hj
  have hle : (va + j) / pgsize * pgsize ≤ va + j := Nat.div_mul_le_self _ _
  rw [logicalByte, logicalByte, h _ ⟨Nat.div_le_div_right (Nat.le_add_right _ _), by omega⟩]

/-- The bytes of the rest of a range are those after the first page. -/
theorem logicalBytes_rest (v : Vm) (root va len : ℕ) :
    logicalBytes v root (va + onPage va len) (len - onPage va len)
      = logicalBytes v root (pgrounddown va + pgsize) (len - onPage va len) := by
  rcases (onPage_le va len).lt_or_eq with hlt | heq
  · rw [add_onPage hlt]
  · rw [heq, Nat.sub_self]
    rfl

/-! ### `copyin` -/

/-- The conditions along a run of `copyin`: the kernel can get at every page, and a page that is
swapped out when its turn comes has zeros where it is read. -/
def CopyinExact (me : Fin nproc) (root : ℕ) : ℕ → ℕ → ℕ → Kernel → Prop
  | 0, _, _, _ => True
  | fuel + 1, va, len, k => len = 0 ∨
    CanSee k root (va / pgsize) ∧
    ((lookup k.vm.kmem.mem root (va / pgsize)).has pteSwapped = true →
      ∀ j < onPage va len, logicalByte k.vm root (va + j) = 0) ∧
    ∀ x k₁, copyFrame me root (pgrounddown va) k = .ok (some x, k₁) →
      CopyinExact me root fuel (pgrounddown va + pgsize)
        (len - onPage va len) k₁

theorem Faulting.invalid_of_swapped (h : Faulting sp R held me k) (hn : vpn < sp.npages)
    (hs : (lookup k.vm.kmem.mem sp.root vpn).has pteSwapped = true) :
    (lookup k.vm.kmem.mem sp.root vpn).has pteV = false := by
  by_contra hval
  have hres := (h.leaf hn).resident (Bool.of_not_eq_false hval)
  rw [hres.unswapped] at hs
  nomatch hs

/-- What the kernel reads from a page is right unless the page is swapped out and not zero. -/
theorem readBytes_seen_iff (h : Faulting sp R held me k) {va n : ℕ} (hn : va / pgsize < sp.npages)
    (hfit : va % pgsize + n ≤ pgsize) :
    readBytes (seen k.vm sp.root (va / pgsize)) (va % pgsize) n
        = logicalBytes k.vm sp.root va n ↔
      ((lookup k.vm.kmem.mem sp.root (va / pgsize)).has pteSwapped = true →
        ∀ j < n, logicalByte k.vm sp.root (va + j) = 0) := by
  cases hs : (lookup k.vm.kmem.mem sp.root (va / pgsize)).has pteSwapped with
  | false =>
    refine iff_of_true ?_ nofun
    rw [seen_eq_logical hs, logicalBytes_page k.vm sp.root hfit]
  | true =>
    rw [seen_of_swapped (h.invalid_of_swapped hn hs), readBytes, logicalBytes, List.map_inj_left,
      imp_iff_right (Eq.refl true)]
    refine forall_congr' fun j => ?_
    rw [List.mem_range]
    refine imp_congr_right fun hj => ?_
    rw [byteAt_fill 0 (by omega), eq_comm]

theorem wp_prepend_iff {y : Prog Kernel (Option (List Byte))} {bytes a b : List Byte}
    (hlen : bytes.length = a.length) :
    wp y (fun r s => wp (match r with
        | none => (pure none : Prog Kernel (Option (List Byte)))
        | some rest => pure (some (bytes ++ rest)))
        (fun r _ => r = some (a ++ b)) (fun _ => False) s) (fun _ => False) k ↔
      bytes = a ∧ wp y (fun r _ => r = some b) (fun _ => False) k := by
  cases hy : y k with
  | error e => rw [wp_of_error hy, wp_of_error hy, and_false]
  | ok r =>
    obtain ⟨r, s⟩ := r
    rw [wp_of_ok hy, wp_of_ok hy]
    cases r with
    | none =>
      rw [wp_pure]
      exact iff_of_false (Option.some_ne_none _).symm fun hh => (Option.some_ne_none _).symm hh.2
    | some rest =>
      rw [wp_pure, Option.some_inj, Option.some_inj]
      constructor
      · exact fun hh => List.append_inj hh hlen
      · rintro ⟨rfl, rfl⟩
        rfl

theorem copyinFrom_iff (fuel : ℕ) : ∀ (va len : ℕ) {k : Kernel}, Faulting sp R held me k →
    len ≤ fuel → (len ≠ 0 → va + len ≤ (k.proc me).sz) → Grants k.vm sp.root va len pteU →
    (wp (copyinFrom me sp.root fuel va len)
        (fun r _ => r = some (logicalBytes k.vm sp.root va len)) (fun _ => False) k ↔
      CopyinExact me sp.root fuel va len k) := by
  induction fuel with
  | zero =>
    intro va len k h hlen _ _
    obtain rfl : len = 0 := Nat.le_zero.mp hlen
    exact iff_of_true rfl trivial
  | succ fuel ih =>
    intro va len k h hlen hsz hacc
    rw [copyinFrom, CopyinExact]
    by_cases hzero : len = 0
    · subst hzero
      exact iff_of_true rfl (Or.inl rfl)
    replace hsz := hsz hzero
    have hbound := hsz.trans h.bound
    have hfirst := meets_first va hzero
    have hpage : va / pgsize < sp.npages := h.page_lt (not_le.mpr (hfirst.2.trans_le hsz))
    have hoff : va - pgrounddown va = va % pgsize := by
      rw [pgrounddown, Nat.mod_eq_sub_mul_div, Nat.mul_comm]
    rw [if_neg hzero, or_iff_right hzero, wp_bind]
    have hspec := copyFrame_found h (hfirst.2.trans_le hsz) (hacc _ hfirst)
    change wp (copyFrame me sp.root (pgrounddown va)) _ _ _ at hspec
    cases hrun : copyFrame me sp.root (pgrounddown va) k with
    | error e =>
      have hno : ¬CanSee k sp.root (va / pgsize) := wp_error hspec hrun
      rw [wp_of_error hrun]
      exact iff_of_false id fun hh => hno hh.1
    | ok r =>
      obtain ⟨r, k₁⟩ := r
      rw [wp_of_ok hrun]
      have hr := wp_ok hspec hrun
      cases r with
      | none =>
        exact iff_of_false (fun hh => Option.some_ne_none _ hh.symm) fun hh => hr hh.1
      | some x =>
        obtain ⟨hsee, hf⟩ := hr
        have hread : k₁.vm.kmem.mem x = seen k.vm sp.root (va / pgsize) := by
          rw [← hf.data, logical, contents_valid hf.valid, hf.frame]
        have hsame : ∀ u, Meets (pgrounddown va + pgsize) (len - onPage va len) u →
            logical k₁.vm sp.root u = logical k.vm sp.root u := fun u hu =>
          (hf.rest u (hu.of_rest.2.user hbound) hu.of_rest.1.ne').1
        simp only [copyinMove, wp_bind, wp_get, wp_pure, hoff, hread]
        have hsplit := logicalBytes_add k.vm sp.root va (onPage va len) (len - onPage va len)
        rw [Nat.add_sub_cancel' (onPage_le va len), logicalBytes_rest, ← logicalBytes_congr hsame]
          at hsplit
        rw [hsplit]
        refine (wp_prepend_iff ?_).trans ?_
        · rw [length_readBytes, length_logicalBytes]
          rfl
        have hrest := ih (pgrounddown va + pgsize) (len - onPage va len) (h.serviced hf.serviced)
          ?_ ?_ (hacc.rest hbound hf.rest)
        · change _ = logicalBytes k.vm sp.root va (onPage va len) ∧ wp (copyinFrom me sp.root fuel
            (pgrounddown va + pgsize) (len - onPage va len)) _ _ _ ↔ _
          rw [hrest, and_iff_right hsee]
          refine and_congr (readBytes_seen_iff h hpage (mod_add_onPage_le va len)) ?_
          constructor
          · rintro hnext x' k₁' heq
            cases heq
            exact hnext
          · exact fun hnext => hnext x k₁ rfl
        · have := onPage_pos va hzero
          omega
        · intro hmore
          have hnext := @add_onPage va _ (Nat.lt_of_sub_ne_zero hmore)
          rw [hf.serviced.paged.sz]
          omega

/-- **`copyin`** delivers the logical bytes of the range iff every iteration does. -/
theorem copyin_iff (h : Faulting sp R held me k) {va len : ℕ} (hsz : va + len ≤ (k.proc me).sz)
    (hacc : Grants k.vm sp.root va len pteU) :
    wp (copyin me sp.root va len)
        (fun r _ => r = some (logicalBytes k.vm sp.root va len)) (fun _ => False) k ↔
      CopyinExact me sp.root len va len k :=
  copyinFrom_iff len va len h le_rfl (fun _ => hsz) hacc

/-! ### `copyout` -/

/-- The conditions along a run of `copyout`: the kernel can get at every page, and a page that is
swapped out when its turn comes has zeros wherever it is not written. -/
def CopyoutExact (me : Fin nproc) (root : ℕ) : ℕ → ℕ → List Byte → Kernel → Prop
  | 0, _, _, _ => True
  | fuel + 1, va, src, k => src = [] ∨
    CanSee k root (va / pgsize) ∧
    ((lookup k.vm.kmem.mem root (va / pgsize)).has pteSwapped = true →
      ∀ a, a / pgsize = va / pgsize → ¬(va ≤ a ∧ a < va + onPage va src.length) →
        logicalByte k.vm root a = 0) ∧
    ∀ x k₁ k₂, copyFrame me root (pgrounddown va) k = .ok (some x, k₁) →
      copyoutMove x (va % pgsize) (src.take (onPage va src.length)) k₁ = .ok ((), k₂) →
      CopyoutExact me root fuel (pgrounddown va + pgsize) (src.drop (onPage va src.length)) k₂

/-- The memory of a process has changed exactly at the bytes from `va` on, which are now `src`. -/
def Written (v v' : Vm) (root va : ℕ) (src : List Byte) : Prop :=
  ∀ a < trapframeVa, logicalByte v' root a
    = if va ≤ a ∧ a < va + src.length then src.getD (a - va) 0 else logicalByte v root a

/-- Page `vpn` was overwritten, and nothing else changed. -/
structure Stored (sp : Space) (R : Multiset Space) (held : Multiset ℕ) (vpn : ℕ) (pg : Page)
    (k k' : Kernel) : Prop where
  serviced : Serviced (sp ::ₘ R) held k k'
  entry : lookup k'.vm.kmem.mem sp.root vpn = lookup k.vm.kmem.mem sp.root vpn
  data : logical k'.vm sp.root vpn = pg
  rest : ∀ u < userPages, u ≠ vpn → KeepsAt k.vm k'.vm sp.root u
  others : ∀ q ∈ R, ∀ u < userPages, KeepsAt k.vm k'.vm q.root u

theorem Stored.of_write (h : VmInv (sp ::ₘ R) held k.vm) (hv : vpn < userPages)
    (hval : (lookup k.vm.kmem.mem sp.root vpn).has pteV = true) (pg : Page) :
    Stored sp R held vpn pg k (k.setVm (k.vm.setKmem
      (k.vm.kmem.setPage (pte2pa (lookup k.vm.kmem.mem sp.root vpn)) pg))) := by
  have hsp : sp ∈ sp ::ₘ R := Multiset.mem_cons_self sp R
  have hlook : ∀ u, lookup (k.vm.kmem.setPage (pte2pa (lookup k.vm.kmem.mem sp.root vpn)) pg).mem
      sp.root u = lookup k.vm.kmem.mem sp.root u := fun u =>
    congrFun (lookup_congr (update_agree (h.frame_notMem_tables hsp hv hval) pg)) u
  refine ⟨(Serviced.writeFrame h hsp hv hval pg).1, hlook vpn, ?_, fun u hu hne => ?_,
    fun q hq u hu => (h.keeps_frame hv hval pg).same q hq u hu⟩
  · change contents _ (lookup (k.vm.kmem.setPage _ pg).mem sp.root vpn) = pg
    rw [hlook, contents_valid hval]
    exact Kmem.setPage_mem_self _ _ _
  · refine (h.spaces sp hsp).keepsAt hu (hlook u) (fun hval' => ?_) fun _ _ => rfl
    refine Function.update_of_ne (fun heq => hne ?_) _ _
    exact h.frame_inj hsp hu hv hval' hval heq

/-- The memory the process sees after `copyout` has written one page. -/
theorem Stored.data_of_found (hf : Found sp R held vpn x k k₁) {off : ℕ} {src : List Byte}
    (hs : Stored sp R held vpn (writeBytes (k₁.vm.kmem.mem x) off src) k₁ k') :
    logical k'.vm sp.root vpn = writeBytes (seen k.vm sp.root vpn) off src := by
  rw [hs.data, ← hf.data, logical, contents_valid hf.valid, hf.frame]

theorem Stored.rest_of_found (hf : Found sp R held vpn x k k₁) {pg : Page}
    (hs : Stored sp R held vpn pg k₁ k') :
    ∀ u < userPages, u ≠ vpn → SameAt k.vm k'.vm sp.root u :=
  fun u hu hne => (hf.rest u hu hne).trans (hs.rest u hu hne).sameAt

/-- One iteration of `copyout` to a page that may be written. -/
theorem copyoutFrom_next (fuel : ℕ) {va : ℕ} {src : List Byte} (hne : src ≠ [])
    (hv : va / pgsize < userPages)
    (hrun : copyFrame me sp.root (pgrounddown va) k = .ok (some x, k₁))
    (hf : Found sp R held (va / pgsize) x k k₁)
    (hW : (lookup k₁.vm.kmem.mem sp.root (va / pgsize)).has pteW = true) :
    ∃ k₂, copyoutMove x (va % pgsize) (src.take (onPage va src.length)) k₁ = .ok ((), k₂) ∧
      Stored sp R held (va / pgsize) (writeBytes (k₁.vm.kmem.mem x) (va % pgsize)
        (src.take (onPage va src.length))) k₁ k₂ ∧
      copyoutFrom me sp.root (fuel + 1) va src k
        = copyoutFrom me sp.root fuel (pgrounddown va + pgsize)
          (src.drop (onPage va src.length)) k₂ := by
  have hempty : src.isEmpty = false := by
    rw [List.isEmpty_eq_false_iff]
    exact hne
  have hoff : va - pgrounddown va = va % pgsize := by
    rw [pgrounddown, Nat.mod_eq_sub_mul_div, Nat.mul_comm]
  obtain ⟨k₂, hk₂⟩ : ∃ k₂, k₂ = k₁.setVm (k₁.vm.setKmem (k₁.vm.kmem.setPage x
    (writeBytes (k₁.vm.kmem.mem x) (va % pgsize) (src.take (onPage va src.length))))) := ⟨_, rfl⟩
  have hmove : copyoutMove x (va % pgsize) (src.take (onPage va src.length)) k₁ = .ok ((), k₂) := by
    rw [hk₂]
    rfl
  refine ⟨k₂, hmove, ?_, eq_of_wp ?_⟩
  · have hst := Stored.of_write hf.serviced.inv hv hf.valid (writeBytes (k₁.vm.kmem.mem x)
      (va % pgsize) (src.take (onPage va src.length)))
    rw [hf.frame, ← hk₂] at hst
    exact hst
  · rw [copyoutFrom]
    dsimp only
    have hmax : ¬maxva ≤ pgrounddown va := not_maxva_le (lt_maxVpn hv)
    rw [hempty, if_neg Bool.false_ne_true, if_neg hmax, wp_bind, wp_of_ok hrun]
    refine wp_copyoutCheck hv hf.valid ?_
    rw [hW, if_pos rfl, hoff, wp_bind]
    exact (wp_of_ok hmove).mpr (wp_self _ k₂)

/-- A copy does not change what lies before its range, nor other processes. -/
structure Ahead (sp : Space) (R : Multiset Space) (va : ℕ) (k k' : Kernel) : Prop where
  below : ∀ u < userPages, u < va / pgsize → logical k'.vm sp.root u = logical k.vm sp.root u
  others : ∀ q ∈ R, ∀ u < userPages, logical k'.vm q.root u = logical k.vm q.root u

section Copyout

variable {fuel va : ℕ} {src : List Byte}

/-- What an iteration of `copyout` leaves for the next one. -/
theorem Found.next (h : Faulting sp R held me k) (hf : Found sp R held (va / pgsize) x k k₁)
    {pg : Page} (hs : Stored sp R held (va / pgsize) pg k₁ k')
    (hsz : va + src.length ≤ (k.proc me).sz)
    {flag : Pte} (hg : Grants k.vm sp.root va src.length flag) :
    Faulting sp R held me k' ∧
      (src.drop (onPage va src.length) ≠ [] → pgrounddown va + pgsize
        + (src.drop (onPage va src.length)).length ≤ (k'.proc me).sz) ∧
      Grants k'.vm sp.root (pgrounddown va + pgsize)
        (src.drop (onPage va src.length)).length flag := by
  have hserv := hf.serviced.trans hs.serviced
  refine ⟨h.serviced hserv, fun hmore => ?_, ?_⟩
  · rw [hserv.paged.sz, List.length_drop]
    have hlt : onPage va src.length < src.length := by
      refine Nat.lt_of_not_le fun hle => hmore ?_
      exact List.drop_eq_nil_of_le hle
    have := add_onPage hlt
    omega
  · rw [List.length_drop]
    exact hg.rest (hsz.trans h.bound) (hs.rest_of_found hf)

/-- The page that an iteration has found may be written. -/
theorem Found.writable (hf : Found sp R held vpn x k k₁)
    (hW : (lookup k.vm.kmem.mem sp.root vpn).has pteV = true →
      (lookup k.vm.kmem.mem sp.root vpn).has pteW = true) :
    (lookup k₁.vm.kmem.mem sp.root vpn).has pteW = true := by
  rcases hf.write with ⟨hval, rfl⟩ | hw
  · exact hW hval
  · exact hw

section Iteration

variable (h : Faulting sp R held me k) (hsz : va + src.length ≤ (k.proc me).sz)
  (hU : Grants k.vm sp.root va src.length pteU) (hW : Grants k.vm sp.root va src.length pteW)

include h hsz hU hW

/-- An iteration of `copyout` fails for want of memory, or it writes its page. -/
theorem copyoutFrom_cases (fuel : ℕ) (hne : src ≠ []) :
    (¬CanSee k sp.root (va / pgsize) ∧
      ∀ k', copyoutFrom me sp.root (fuel + 1) va src k ≠ .ok (true, k')) ∨
    CanSee k sp.root (va / pgsize) ∧ ∃ x k₁ k₂,
      copyFrame me sp.root (pgrounddown va) k = .ok (some x, k₁) ∧
      copyoutMove x (va % pgsize) (src.take (onPage va src.length)) k₁ = .ok ((), k₂) ∧
      Found sp R held (va / pgsize) x k k₁ ∧
      Stored sp R held (va / pgsize) (writeBytes (k₁.vm.kmem.mem x) (va % pgsize)
        (src.take (onPage va src.length))) k₁ k₂ ∧
      copyoutFrom me sp.root (fuel + 1) va src k
        = copyoutFrom me sp.root fuel (pgrounddown va + pgsize)
          (src.drop (onPage va src.length)) k₂ := by
  have hlen : src.length ≠ 0 := fun h0 => hne (List.length_eq_zero_iff.mp h0)
  have hfirst := meets_first va hlen
  have hv := hfirst.user (hsz.trans h.bound)
  have hspec := copyFrame_found h (hfirst.2.trans_le hsz) (hU _ hfirst)
  change wp (copyFrame me sp.root (pgrounddown va)) _ _ _ at hspec
  have hempty : src.isEmpty = false := by
    rw [List.isEmpty_eq_false_iff]
    exact hne
  have hmax : ¬maxva ≤ pgrounddown va := not_maxva_le (lt_maxVpn hv)
  -- without a frame the loop ends here, and not well
  have hfail : ∀ {Q : Bool → Kernel → Prop} {E : String → Prop},
      wp (copyFrame me sp.root (pgrounddown va)) (fun r k' => r = none ∧ Q false k') E k →
      wp (copyoutFrom me sp.root (fuel + 1) va src) Q E k := by
    intro Q E hQ
    rw [copyoutFrom]
    dsimp only
    rw [hempty, if_neg Bool.false_ne_true, if_neg hmax]
    refine wp_seq hQ ?_
    rintro _ k' ⟨rfl, hq⟩
    exact hq
  cases hrun : copyFrame me sp.root (pgrounddown va) k with
  | error e =>
    refine Or.inl ⟨wp_error hspec hrun, fun k' hok => ?_⟩
    exact wp_ok (hfail (Q := fun _ _ => False) (E := fun _ => True)
      ((wp_of_error hrun).mpr trivial)) hok
  | ok r =>
    obtain ⟨r, k₁⟩ := r
    have hr := wp_ok hspec hrun
    cases r with
    | none =>
      refine Or.inl ⟨hr, fun k' hok => ?_⟩
      have hq := wp_ok (hfail (Q := fun r _ => r = false) (E := fun _ => True)
        ((wp_of_ok hrun).mpr ⟨rfl, rfl⟩)) hok
      cases hq.symm
    | some x =>
      obtain ⟨hsee, hf⟩ := hr
      obtain ⟨k₂, hmove, hs, heq⟩ := copyoutFrom_next fuel hne hv hrun hf
        (hf.writable (hW _ hfirst))
      exact Or.inr ⟨hsee, x, k₁, k₂, rfl, hmove, hf, hs, heq⟩

end Iteration

/-- **Frame of `copyout`.** A copy that succeeds changes no page before its range and no other
process. -/
theorem copyoutFrom_ahead (fuel : ℕ) : ∀ (va : ℕ) (src : List Byte) {k k' : Kernel},
    Faulting sp R held me k → (src ≠ [] → va + src.length ≤ (k.proc me).sz) →
    Grants k.vm sp.root va src.length pteU → Grants k.vm sp.root va src.length pteW →
    copyoutFrom me sp.root fuel va src k = .ok (true, k') → Ahead sp R va k k' := by
  induction fuel with
  | zero =>
    intro va src k k' _ _ _ _ hrun
    cases hrun
    exact ⟨fun _ _ _ => rfl, fun _ _ _ _ => rfl⟩
  | succ fuel ih =>
    intro va src k k' h hsz hU hW hrun
    by_cases hne : src = []
    · subst hne
      cases hrun
      exact ⟨fun _ _ _ => rfl, fun _ _ _ _ => rfl⟩
    replace hsz := hsz hne
    obtain ⟨-, hno⟩ | ⟨-, x, k₁, k₂, -, -, hf, hs, heq⟩ :=
      copyoutFrom_cases h hsz hU hW fuel hne
    · exact absurd hrun (hno k')
    · rw [heq] at hrun
      obtain ⟨h₂, hsz₂, hU₂⟩ := hf.next h hs hsz hU
      have hW₂ := (hf.next h hs hsz hW).2.2
      obtain ⟨hbelow, hothers⟩ := ih _ _ h₂ hsz₂ hU₂ hW₂ hrun
      refine ⟨fun u hu hlt => ?_, fun q hq u hu => ?_⟩
      · rw [hbelow u hu (by rw [next_page_div]; omega)]
        exact (hs.rest_of_found hf u hu hlt.ne).1
      · rw [hothers q hq u hu, (hs.others q hq u hu).2]
        exact (hf.others q hq u hu).1

/-- An address is before the next page iff it is on the page or below. -/
theorem lt_next_page {a va : ℕ} : a < pgrounddown va + pgsize ↔ a / pgsize ≤ va / pgsize := by
  rw [pgrounddown, ← Nat.succ_mul, ← Nat.div_lt_iff_lt_mul (by decide), Nat.lt_succ_iff]

/-- On its own page a range is what `onPage` says. -/
theorem lt_onPage {a va len : ℕ} (ha : a / pgsize = va / pgsize) :
    a < va + onPage va len ↔ a < va + len := by
  have hlt : a < pgrounddown va + pgsize := lt_next_page.mpr ha.le
  rcases (onPage_le va len).lt_or_eq with h | h
  · have := add_onPage h
    omega
  · rw [h]

theorem inRange_rest {a va len : ℕ} (ha : a / pgsize ≠ va / pgsize) :
    (va ≤ a ∧ a < va + len) ↔
      (pgrounddown va + pgsize ≤ a ∧ a < pgrounddown va + pgsize + (len - onPage va len)) := by
  have hva : va < pgrounddown va + pgsize := lt_next_page.mpr le_rfl
  have hle := onPage_le va len
  rcases lt_or_ge a (pgrounddown va + pgsize) with hlt | hge
  · have hdiv := lt_next_page.mp hlt
    have hbelow : a < va := by
      refine Nat.lt_of_not_le fun hle' => ha (le_antisymm hdiv (Nat.div_le_div_right hle'))
    omega
  · rcases hle.lt_or_eq with h | h
    · have := add_onPage h
      omega
    · have := mod_add_onPage_le va len
      have hsum : va = pgrounddown va + va % pgsize := by
        rw [pgrounddown, Nat.mul_comm, Nat.div_add_mod]
      omega

theorem getD_take {l : List Byte} {n j : ℕ} (h : j < n) : (l.take n).getD j 0 = l.getD j 0 := by
  rw [List.getD_eq_getElem?_getD, List.getD_eq_getElem?_getD, List.getElem?_take_of_lt h]

theorem getD_drop (l : List Byte) (n j : ℕ) : (l.drop n).getD j 0 = l.getD (n + j) 0 := by
  rw [List.getD_eq_getElem?_getD, List.getD_eq_getElem?_getD, List.getElem?_drop]

/-- **Writing page by page.** A whole range is written iff its first page is, and the rest. -/
theorem written_iff {v v₂ v' : Vm} {root : ℕ} (hv : va / pgsize < userPages)
    (hdata : logical v₂ root (va / pgsize)
      = writeBytes (seen v root (va / pgsize)) (va % pgsize) (src.take (onPage va src.length)))
    (hrest : ∀ u < userPages, u ≠ va / pgsize → logical v₂ root u = logical v root u)
    (hbelow : ∀ u < userPages, u < (pgrounddown va + pgsize) / pgsize →
      logical v' root u = logical v₂ root u) :
    Written v v' root va src ↔
      (∀ a, a / pgsize = va / pgsize → ¬(va ≤ a ∧ a < va + onPage va src.length) →
        byteAt (seen v root (va / pgsize)) (a % pgsize) = logicalByte v root a) ∧
      Written v₂ v' root (pgrounddown va + pgsize) (src.drop (onPage va src.length)) := by
  rw [next_page_div] at hbelow
  have hmod : ∀ a, a % pgsize < pgsize := fun a => Nat.mod_lt _ (by decide)
  -- the first page at the end
  have hpage : ∀ a, a / pgsize = va / pgsize → logicalByte v' root a
      = if va ≤ a ∧ a < va + onPage va src.length then src.getD (a - va) 0
        else byteAt (seen v root (va / pgsize)) (a % pgsize) := by
    intro a ha
    have hsum := Nat.div_add_mod a pgsize
    have hsum' := Nat.div_add_mod va pgsize
    rw [ha] at hsum
    rw [logicalByte, ha, hbelow _ hv (Nat.lt_succ_self _), hdata, byteAt_writeBytes _ _ _ (hmod a),
      List.length_take, min_eq_left (onPage_le _ _)]
    have hcond : (va % pgsize ≤ a % pgsize ∧ a % pgsize < va % pgsize + onPage va src.length) ↔
        (va ≤ a ∧ a < va + onPage va src.length) := by omega
    by_cases hin : va ≤ a ∧ a < va + onPage va src.length
    · have hidx : a % pgsize - va % pgsize = a - va := by omega
      rw [if_pos hin, if_pos (hcond.mpr hin), getD_take (by omega), hidx]
    · rw [if_neg hin, if_neg (mt hcond.mp hin)]
  -- the other pages
  have hother : ∀ a < trapframeVa, a / pgsize ≠ va / pgsize →
      (if va ≤ a ∧ a < va + src.length then src.getD (a - va) 0 else logicalByte v root a)
        = if pgrounddown va + pgsize ≤ a ∧ a < pgrounddown va + pgsize
            + (src.drop (onPage va src.length)).length
          then (src.drop (onPage va src.length)).getD (a - (pgrounddown va + pgsize)) 0
          else logicalByte v₂ root a := by
    intro a hlt ha
    have hu : a / pgsize < userPages :=
      Nat.div_lt_of_lt_mul (by rw [Nat.mul_comm, userPages_mul_pgsize]; exact hlt)
    have hcond := @inRange_rest a va src.length ha
    rw [List.length_drop]
    by_cases hin : va ≤ a ∧ a < va + src.length
    · have hin' := hcond.mp hin
      have hnext := @add_onPage va src.length (by omega)
      have hidx : onPage va src.length + (a - (pgrounddown va + pgsize)) = a - va := by omega
      rw [if_pos hin, if_pos hin', getD_drop, hidx]
    · rw [if_neg hin, if_neg (mt hcond.mpr hin), logicalByte, logicalByte, hrest _ hu ha]
  have hlow : ∀ a, a / pgsize = va / pgsize → ¬pgrounddown va + pgsize ≤ a := fun a ha =>
    not_le.mpr (lt_next_page.mpr ha.le)
  have htop : ∀ a, a / pgsize = va / pgsize → a < trapframeVa := by
    intro a ha
    rw [← userPages_mul_pgsize, ← Nat.div_lt_iff_lt_mul (by decide), ha]
    exact hv
  constructor
  · intro hw
    refine ⟨fun a ha hout => ?_, fun a hlt => ?_⟩
    · have heq := hw a (htop a ha)
      rw [hpage a ha, if_neg hout, if_neg (by rw [← lt_onPage ha]; exact hout)] at heq
      exact heq
    · by_cases ha : a / pgsize = va / pgsize
      · rw [if_neg fun hh => hlow a ha hh.1, logicalByte, logicalByte, ha,
          hbelow _ hv (Nat.lt_succ_self _)]
      · rw [hw a hlt, hother a hlt ha]
  · rintro ⟨hfirst, hw⟩ a hlt
    by_cases ha : a / pgsize = va / pgsize
    · rw [hpage a ha]
      by_cases hin : va ≤ a ∧ a < va + onPage va src.length
      · rw [if_pos hin, if_pos ⟨hin.1, (lt_onPage ha).mp hin.2⟩]
      · rw [if_neg hin, if_neg (by rw [← lt_onPage ha]; exact hin)]
        exact hfirst a ha hin
    · rw [hw a hlt, hother a hlt ha]

/-- What the kernel leaves on a page is right unless the page is swapped out and not zero. -/
theorem byteAt_seen_iff (h : Faulting sp R held me k) (hn : vpn < sp.npages) (P : ℕ → Prop) :
    (∀ a, a / pgsize = vpn → ¬P a →
      byteAt (seen k.vm sp.root vpn) (a % pgsize) = logicalByte k.vm sp.root a) ↔
    ((lookup k.vm.kmem.mem sp.root vpn).has pteSwapped = true →
      ∀ a, a / pgsize = vpn → ¬P a → logicalByte k.vm sp.root a = 0) := by
  cases hs : (lookup k.vm.kmem.mem sp.root vpn).has pteSwapped with
  | false =>
    refine iff_of_true (fun a ha _ => ?_) nofun
    rw [seen_eq_logical hs, logicalByte, ha]
  | true =>
    rw [seen_of_swapped (h.invalid_of_swapped hn hs), imp_iff_right (Eq.refl true)]
    refine forall_congr' fun a => imp_congr_right fun _ => imp_congr_right fun _ => ?_
    rw [byteAt_fill 0 (Nat.mod_lt _ (by decide)), eq_comm]

theorem copyoutFrom_iff (fuel : ℕ) : ∀ (va : ℕ) (src : List Byte) {k : Kernel},
    Faulting sp R held me k → src.length ≤ fuel →
    (src ≠ [] → va + src.length ≤ (k.proc me).sz) →
    Grants k.vm sp.root va src.length pteU → Grants k.vm sp.root va src.length pteW →
    ((∃ k', copyoutFrom me sp.root fuel va src k = .ok (true, k') ∧
        Written k.vm k'.vm sp.root va src ∧
        ∀ q ∈ R, ∀ u < userPages, logical k'.vm q.root u = logical k.vm q.root u) ↔
      CopyoutExact me sp.root fuel va src k) := by
  have hdone : ∀ (va : ℕ) (k : Kernel), Written k.vm k.vm sp.root va [] := fun va k a _ => by
    rw [List.length_nil, if_neg (by omega)]
  induction fuel with
  | zero =>
    intro va src k h hlen _ _ _
    obtain rfl : src = [] := List.length_eq_zero_iff.mp (Nat.le_zero.mp hlen)
    exact iff_of_true ⟨k, rfl, hdone va k, fun _ _ _ _ => rfl⟩ trivial
  | succ fuel ih =>
    intro va src k h hlen hsz hU hW
    rw [CopyoutExact]
    by_cases hne : src = []
    · subst hne
      exact iff_of_true ⟨k, rfl, hdone va k, fun _ _ _ _ => rfl⟩ (Or.inl rfl)
    replace hsz := hsz hne
    have hlen0 : src.length ≠ 0 := fun h0 => hne (List.length_eq_zero_iff.mp h0)
    have hfirst := meets_first va hlen0
    have hv := hfirst.user (hsz.trans h.bound)
    have hpage : va / pgsize < sp.npages := h.page_lt (not_le.mpr (hfirst.2.trans_le hsz))
    rw [or_iff_right hne]
    obtain ⟨hno, hbad⟩ | ⟨hsee, x, k₁, k₂, hrun, hmove, hf, hs, heq⟩ :=
      copyoutFrom_cases h hsz hU hW fuel hne
    · exact iff_of_false (fun ⟨k', hrun, _⟩ => hbad k' hrun) fun hh => hno hh.1
    obtain ⟨h₂, hsz₂, hU₂⟩ := hf.next h hs hsz hU
    have hW₂ := (hf.next h hs hsz hW).2.2
    have hpos := onPage_pos va hlen0
    have hrest := ih _ _ h₂ (by rw [List.length_drop]; omega) hsz₂ hU₂ hW₂
    rw [heq, and_iff_right hsee, ← byteAt_seen_iff h hpage]
    have hnext : (∀ x' k₁' k₂', copyFrame me sp.root (pgrounddown va) k = .ok (some x', k₁') →
        copyoutMove x' (va % pgsize) (src.take (onPage va src.length)) k₁' = .ok ((), k₂') →
        CopyoutExact me sp.root fuel (pgrounddown va + pgsize)
          (src.drop (onPage va src.length)) k₂') ↔
        CopyoutExact me sp.root fuel (pgrounddown va + pgsize)
          (src.drop (onPage va src.length)) k₂ := by
      constructor
      · exact fun hh => hh x k₁ k₂ hrun hmove
      · rintro hh x' k₁' k₂' hrun' hmove'
        rw [hrun] at hrun'
        cases hrun'
        rw [hmove] at hmove'
        cases hmove'
        exact hh
    rw [hnext, ← hrest, ← exists_and_left]
    refine exists_congr fun k' => ?_
    refine Iff.trans (and_congr_right fun hok => ?_) and_left_comm
    have hahead := copyoutFrom_ahead fuel _ _ h₂ hsz₂ hU₂ hW₂ hok
    rw [← and_assoc, written_iff hv (hs.data_of_found hf)
      (fun u hu hne => (hs.rest_of_found hf u hu hne).1) hahead.below]
    refine and_congr_right fun _ => ?_
    -- other processes are the same in any case
    refine iff_of_true (fun q hq u hu => ?_) hahead.others
    rw [hahead.others q hq u hu, (hs.others q hq u hu).2]
    exact (hf.others q hq u hu).1

/-- **`copyout`** replaces exactly the range in logical memory iff every iteration does. -/
theorem copyout_iff (h : Faulting sp R held me k) (hsz : va + src.length ≤ (k.proc me).sz)
    (hU : Grants k.vm sp.root va src.length pteU) (hW : Grants k.vm sp.root va src.length pteW) :
    (∃ k', copyout me sp.root va src k = .ok (true, k') ∧ Written k.vm k'.vm sp.root va src ∧
        ∀ q ∈ R, ∀ u < userPages, logical k'.vm q.root u = logical k.vm q.root u) ↔
      CopyoutExact me sp.root src.length va src k :=
  copyoutFrom_iff src.length va src h le_rfl (fun _ => hsz) hU hW

end Copyout

end Xv6
