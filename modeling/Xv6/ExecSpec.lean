import Xv6.Exec
import Xv6.ProcessSpec

/-!
# `exec` keeps the invariant

While `exec` builds a new image there is one more space than there are processes. It belongs to no
process yet, so its pages are not in the frame table and are never evicted: nothing that the
process or the kernel does in between can take them away. That is why `loadseg` finds every page
it asks for and why the copies to the new stack neither fault nor fail.

The image is bounded by the memory there is, whatever the program headers ask for, and so it ends
far below the trapframe.
-/

namespace Xv6

open Ledger Prog
open Multiset hiding bind_assoc

variable {extra : Multiset ℕ} {k k' : Kernel} {me : Fin nproc} {E : String → Prop}
  {root tf sz vpn : ℕ} {v v' : Vm}

/-! ### Images -/

/-- The space that `exec` builds. It belongs to no process. -/
def imageSpace (root tf : ℕ) (sym : Symbols) : Space :=
  ⟨root, 0, userPages, tframePte tf, trampPte sym⟩

/-- An image of size `sz` under construction, next to the spaces of the processes of `k`. -/
structure Image (extra : Multiset ℕ) (k : Kernel) (root tf sz : ℕ) (v : Vm) : Prop where
  inv : VmInv (imageSpace root tf k.vm.kmem.sym ::ₘ spaces k) (extra + held k) v
  keeps : Keeps (spaces k) k.vm v
  memory : Untouched (spaces k) (extra + held k) k.vm v
  fits : pagesOf sz ≤ userPages
  mapped : ∀ u < pagesOf sz, (lookup v.kmem.mem root u).has pteV = true
  absent : ∀ u, pagesOf sz ≤ u → u < userPages → lookup v.kmem.mem root u = 0#64

namespace Image

variable (h : Image extra k root tf sz v)

include h

/-- The image and the free pages together fit in memory. -/
theorem room : pagesOf sz + v.kmem.freelist.length ≤ 32768 :=
  h.inv.mapped_add_free_le (mem_cons_self _ _) h.fits h.mapped

theorem le_trapframeVa : sz ≤ trapframeVa := by
  have hfits := h.fits
  have htop : userPages * pgsize = trapframeVa := userPages_mul_pgsize
  simp only [pagesOf, pgsize] at hfits htop
  omega

/-- Writing a page of an image does not change the page table. -/
theorem lookup_writeFrame (hv : vpn < pagesOf sz) (pg : Page) :
    lookup (v.setKmem (v.kmem.setPage (pte2pa (lookup v.kmem.mem root vpn)) pg)).kmem.mem root
      = lookup v.kmem.mem root :=
  lookup_congr (update_agree (h.inv.frame_notMem_tables (mem_cons_self _ _)
    (hv.trans_le h.fits) (h.mapped vpn hv)) pg)

theorem writeFrame (hv : vpn < pagesOf sz) (pg : Page) :
    Image extra k root tf sz
      (v.setKmem (v.kmem.setPage (pte2pa (lookup v.kmem.mem root vpn)) pg)) := by
  have hu : vpn < userPages := hv.trans_le h.fits
  have hinv : VmInv (imageSpace root tf k.vm.kmem.sym ::ₘ spaces k) (extra + held k)
      (k.setVm v).vm := h.inv
  have hs := (Serviced.writeFrame hinv (mem_cons_self _ _) hu (h.mapped vpn hv) pg).1
  have hlook := h.lookup_writeFrame hv pg
  refine ⟨hs.inv, h.keeps.trans (h.inv.keeps_frame hu (h.mapped vpn hv) pg),
    h.memory.trans (h.inv.untouched_frame hu (h.mapped vpn hv) pg), h.fits, ?_, ?_⟩
  · rw [hlook]
    exact h.mapped
  · rw [hlook]
    exact h.absent

end Image

/-! ### Loading segments -/

/-- An image all of whose pages user code may access. -/
structure UserImage (extra : Multiset ℕ) (k : Kernel) (root tf sz : ℕ) (v : Vm) : Prop
    extends Image extra k root tf sz v where
  user : ∀ u < pagesOf sz, (lookup v.kmem.mem root u).has pteU = true

theorem UserImage.copyoutMove (h : UserImage extra k root tf sz v) (hv : vpn < pagesOf sz)
    {off : ℕ} {src : List Byte} {Q : Unit → Kernel → Prop}
    (hQ : ∀ v', UserImage extra k root tf sz v' → Q () (k.setVm v')) :
    wp (copyoutMove (pte2pa (lookup v.kmem.mem root vpn)) off src) Q E (k.setVm v) := by
  rw [Xv6.copyoutMove, wp_onVm, wp_onKmem, wp_modify]
  refine hQ _ ⟨h.toImage.writeFrame hv _, ?_⟩
  rw [Kernel.setVm_vm, h.toImage.lookup_writeFrame hv]
  exact h.user

/-- **`loadseg`** finds every page it asks for. -/
theorem loadsegFrom_spec {b : ℕ} {file : List Byte} {offset filesz : ℕ} :
    ∀ (n c : ℕ) {v : Vm}, UserImage extra k root tf sz v → b + c + n ≤ pagesOf sz →
    wp (loadsegFrom root (b * pgsize) file offset filesz n (c * pgsize))
      (fun _ k' => ∃ v', k' = k.setVm v' ∧ UserImage extra k root tf sz v') E (k.setVm v) := by
  intro n
  induction n with
  | zero => intro c v h _; exact ⟨v, rfl, h⟩
  | succ n ih =>
    intro c v h hn
    have hlt : b + c < pagesOf sz := by omega
    have hva : b * pgsize + c * pgsize = (b + c) * pgsize := (Nat.add_mul _ _ _).symm
    have hpage : userPage (lookup v.kmem.mem root (b + c))
        = some (pte2pa (lookup v.kmem.mem root (b + c))) := by
      rw [userPage, if_pos ⟨h.mapped _ hlt, h.user _ hlt⟩]
    rw [loadsegFrom, wp_bind, wp_onVm, wp_onKmem, hva]
    refine walkaddr_spec (lt_maxVpn (hlt.trans_le h.fits)) ?_
    rw [Kernel.setVm_vm, hpage]
    dsimp only
    rw [wp_bind]
    refine h.copyoutMove hlt fun v' h' => ?_
    split_ifs
    · exact ⟨v', rfl, h'⟩
    · have hnext : c * pgsize + pgsize = (c + 1) * pgsize := (Nat.succ_mul _ _).symm
      rw [hnext]
      exact ih (c + 1) h' (by omega)

theorem leNat_lt (bs : List Byte) : leNat bs < 256 ^ bs.length := by
  induction bs with
  | nil => exact Nat.one_pos
  | cons b bs ih =>
    have hb : b.toNat < 256 := b.isLt
    have hcons : leNat (b :: bs) = b.toNat + 256 * leNat bs := rfl
    rw [hcons, List.length_cons, Nat.pow_succ]
    omega

theorem field_lt (bs : List Byte) (off n : ℕ) : field bs off n < 256 ^ n :=
  (leNat_lt _).trans_le (Nat.pow_le_pow_right (by decide) (by simp))

/-- Whatever the flags of a segment, its pages are readable user pages. -/
theorem leafPerm_flags2perm (flags : ℕ) : LeafPerm (pteR ||| pteU ||| flags2perm flags) := by
  rw [flags2perm]
  split_ifs <;> exact ⟨by decide, by decide, by decide⟩

theorem UserImage.grown (h : UserImage extra k root tf sz v) {newsz : ℕ} {perm : Pte}
    (hle : sz ≤ newsz) (hfits : pagesOf newsz ≤ userPages)
    (hg : Grown (imageSpace root tf k.vm.kmem.sym) (spaces k) (extra + held k)
      (pteR ||| pteU ||| perm) (pagesOf sz) (pagesOf newsz) v v')
    (hm : Untouched (spaces k) (extra + held k) v v') :
    UserImage extra k root tf newsz v' := by
  have hnew : ∀ u < pagesOf newsz, (lookup v'.kmem.mem root u).has pteV = true ∧
      (lookup v'.kmem.mem root u).has pteU = true := by
    intro u hu
    by_cases hlt : u < pagesOf sz
    · have hsame := (hg.rest u (hu.trans_le hfits) fun hin => absurd hin.1 (Nat.not_le.mpr hlt)).1
      change lookup v'.kmem.mem root u = lookup v.kmem.mem root u at hsame
      rw [hsame]
      exact ⟨h.mapped u hlt, h.user u hlt⟩
    · obtain ⟨x, -, hx⟩ := hg.mapped u (Nat.le_of_not_lt hlt) hu
      change lookup v'.kmem.mem root u = _ at hx
      have hU : pteU.has pteU = true := by decide
      rw [hx, Pte.has_mkPte_pteV, Pte.has_mkPte _ _ (by decide), Pte.has_or, Pte.has_or, hU,
        Bool.or_true, Bool.true_or, Bool.true_or]
      exact ⟨rfl, rfl⟩
  refine ⟨⟨hg.inv, h.keeps.trans hg.keeps, h.memory.trans hm, hfits, fun u hu => (hnew u hu).1,
    fun u hu hu' => ?_⟩, fun u hu => (hnew u hu).2⟩
  have hsame := (hg.rest u hu' fun hin => absurd hin.2 (Nat.not_lt.mpr hu)).1
  exact hsame.trans (h.absent u ((pagesOf_mono hle).trans hu) hu')

theorem UserImage.trimmed (h : UserImage extra k root tf sz v)
    (ht : Trimmed (imageSpace root tf k.vm.kmem.sym) (spaces k) (extra + held k)
      (fun u => pagesOf sz ≤ u ∧ u < userPages) v v')
    (hm : Untouched (spaces k) (extra + held k) v v') : UserImage extra k root tf sz v' := by
  have hold : ∀ u < pagesOf sz, lookup v'.kmem.mem root u = lookup v.kmem.mem root u :=
    fun u hu => (ht.rest u (hu.trans_le h.fits) fun hin => absurd hin.1 (Nat.not_le.mpr hu)).1
  refine ⟨⟨ht.inv, h.keeps.trans ht.keeps, h.memory.trans hm, h.fits, fun u hu => ?_,
    fun u hu hu' => ht.absent u hu' ⟨hu, hu'⟩⟩, fun u hu => ?_⟩
  · rw [hold u hu]
    exact h.mapped u hu
  · rw [hold u hu]
    exact h.user u hu

theorem UserImage.uvmalloc (h : UserImage extra k root tf sz v) {newsz : ℕ} {perm : Pte}
    (hperm : LeafPerm (pteR ||| pteU ||| perm)) {Q : ℕ → Vm → Prop}
    (hlt : newsz < sz → Q sz v)
    (hfail : sz ≤ newsz → ∀ v', UserImage extra k root tf sz v' →
      v.kmem.freelist.length < 3 * (pagesOf newsz - pagesOf sz) → Q 0 v')
    (hok : sz ≤ newsz → ∀ v', UserImage extra k root tf newsz v' →
      Grown (imageSpace root tf k.vm.kmem.sym) (spaces k) (extra + held k)
        (pteR ||| pteU ||| perm) (pagesOf sz) (pagesOf newsz) v v' →
      v.kmem.freelist.length ≤ v'.kmem.freelist.length + 3 * (pagesOf newsz - pagesOf sz) →
      Q newsz v') :
    wp (uvmalloc root sz newsz perm) Q E v := by
  by_cases hle : sz ≤ newsz
  · have htop := h.toImage.le_trapframeVa
    have hroom : pagesOf sz + min (pagesOf newsz - pagesOf sz) v.kmem.freelist.length
        ≤ userPages := by
      have hfree := h.toImage.room
      have hbig : userPages = 2 ^ 26 - 2 := userPages_eq
      omega
    refine wp_imp (uvmalloc_spec h.inv hperm htop hle hroom h.absent) ?_
    rintro r v' ⟨hm, ⟨rfl, hfits, hg, hlen⟩ | ⟨rfl, ht, hlen⟩⟩
    · exact hok hle v' (h.grown hle hfits hg hm) hg hlen
    · exact hfail hle v' (h.trimmed ht hm) hlen
  · exact uvmalloc_of_lt (Nat.lt_of_not_le hle) (hlt (Nat.lt_of_not_le hle))

theorem execLoad_spec {file : List Byte} :
    ∀ (n off sz : ℕ) {v : Vm}, UserImage extra k root tf sz v →
    wp (execLoad root file n off sz)
      (fun r k' => ∃ v', k' = k.setVm v' ∧ UserImage extra k root tf r.1 v' ∧
        (n = 0 → r = (sz, true) ∧ v' = v)) E (k.setVm v) := by
  intro n
  induction n with
  | zero => intro off sz v h; exact ⟨v, rfl, h, fun _ => ⟨rfl, rfl⟩⟩
  | succ n ih =>
    intro off sz v h
    have hstop : ∀ {sz' : ℕ} {v' : Vm}, UserImage extra k root tf sz' v' →
        ∃ v'', k.setVm v' = k.setVm v'' ∧ UserImage extra k root tf sz' v'' ∧
          (n + 1 = 0 → (sz', false) = (sz, true) ∧ v'' = v) :=
      fun h' => ⟨_, rfl, h', fun h0 => absurd h0 (Nat.succ_ne_zero n)⟩
    have hnext : ∀ (off' : ℕ) {sz' : ℕ} {v' : Vm}, UserImage extra k root tf sz' v' →
        wp (execLoad root file n off' sz')
          (fun r k' => ∃ v'', k' = k.setVm v'' ∧ UserImage extra k root tf r.1 v'' ∧
            (n + 1 = 0 → r = (sz, true) ∧ v'' = v)) E (k.setVm v') := fun off' _ _ h' =>
      wp_imp (ih off' _ h') fun _ _ ⟨v'', hk, hi, _⟩ =>
        ⟨v'', hk, hi, fun h0 => absurd h0 (Nat.succ_ne_zero n)⟩
    rw [execLoad]
    generalize readi file off proghdrSize = ph
    refine wp_ite (fun _ => hstop h) fun _ => ?_
    refine wp_ite (fun _ => hnext _ h) fun _ => ?_
    refine wp_ite (fun _ => hstop h) fun hfile => ?_
    refine wp_ite (fun _ => hstop h) fun hwrap => ?_
    refine wp_ite (fun _ => hstop h) fun halign => ?_
    rw [wp_bind, wp_onVm]
    -- the segment ends at or below the new size
    have hsum : u64 (field ph 16 8 + field ph 40 8) = field ph 16 8 + field ph 40 8 := by
      have h1 := field_lt ph 16 8
      have h2 := field_lt ph 40 8
      simp only [u64] at hwrap ⊢
      omega
    have hdvd : pgsize ∣ field ph 16 8 := Nat.dvd_of_mod_eq_zero (not_not.mp halign)
    obtain ⟨b, hb⟩ : ∃ b, field ph 16 8 = b * pgsize :=
      ⟨field ph 16 8 / pgsize, (Nat.div_mul_cancel hdvd).symm⟩
    have hseg : ∀ {sz' : ℕ} {v' : Vm}, UserImage extra k root tf sz' v' →
        field ph 16 8 + field ph 40 8 ≤ sz' → ∀ {a b : Prog Kernel (ℕ × Bool)}
          {Q : ℕ × Bool → Kernel → Prop},
        (∀ v'', UserImage extra k root tf sz' v'' → wp a Q E (k.setVm v'')) →
        (∀ v'', UserImage extra k root tf sz' v'' → wp b Q E (k.setVm v'')) →
        wp (do
          if ← loadseg root (field ph 16 8) file (u32 (field ph 8 8)) (u32 (field ph 32 8)) then a
          else b) Q E (k.setVm v') := by
      intro sz' v' h' hle x y Q hx hy
      rw [wp_bind, loadseg, hb]
      have hpages : b + 0 + pagesOf (u32 (field ph 32 8)) ≤ pagesOf sz' := by
        have hu : u32 (field ph 32 8) ≤ field ph 32 8 := Nat.mod_le _ _
        simp only [pagesOf, pgsize] at hb ⊢
        omega
      have hzero : (0 : ℕ) = 0 * pgsize := (Nat.zero_mul _).symm
      rw [hzero]
      refine wp_imp (loadsegFrom_spec _ 0 h' hpages) ?_
      rintro ok k' ⟨v'', rfl, h''⟩
      cases ok with
      | true => exact hx v'' h''
      | false => exact hy v'' h''
    refine h.uvmalloc (leafPerm_flags2perm _) (fun hlt => ?_) (fun _ v' h' _ => ?_)
      fun hle v' h' _ _ => ?_
    · rw [if_neg (by omega)]
      exact hseg h (by omega) (fun v'' h'' => hnext _ h'') fun v'' h'' => hstop h''
    · rw [if_pos rfl]
      exact hstop h'
    · by_cases h0 : u64 (field ph 16 8 + field ph 40 8) = 0
      · have hsz : sz = u64 (field ph 16 8 + field ph 40 8) := by omega
        rw [if_pos h0]
        exact hstop (hsz ▸ h')
      · rw [if_neg h0]
        exact hseg h' hsum.ge (fun v'' h'' => hnext _ h'') fun v'' h'' => hstop h''

/-! ### The stack -/

/-- An image with its stack: a page `n` that user code may not access, and above it the one page of
the stack. -/
structure StackImage (extra : Multiset ℕ) (k : Kernel) (root tf n : ℕ) (v : Vm) : Prop
    extends Image extra k root tf ((n + 2) * pgsize) v where
  guard : (lookup v.kmem.mem root n).has pteU = false
  access : (lookup v.kmem.mem root (n + 1)).has pteU = true
  write : (lookup v.kmem.mem root (n + 1)).has pteW = true

section StackImage

variable {n : ℕ}

theorem StackImage.top_lt (h : StackImage extra k root tf n v) :
    n + 1 < pagesOf ((n + 2) * pgsize) ∧ n + 1 < userPages := by
  have hfits := h.fits
  rw [pagesOf_mul] at hfits ⊢
  omega

/-- The page of the stack. -/
def stackPage (root n : ℕ) (v : Vm) : Page := v.kmem.mem (pte2pa (lookup v.kmem.mem root (n + 1)))

/-- Write to the page of the stack. -/
def Vm.setStack (v : Vm) (root n : ℕ) (pg : Page) : Vm :=
  v.setKmem (v.kmem.setPage (pte2pa (lookup v.kmem.mem root (n + 1))) pg)

@[simp] theorem Vm.setStack_freelist (v : Vm) (pg : Page) :
    (v.setStack root n pg).kmem.freelist = v.kmem.freelist := rfl

@[simp] theorem Vm.setStack_swapArea (v : Vm) (pg : Page) :
    (v.setStack root n pg).swapArea = v.swapArea := rfl

section SetStack

variable (h : StackImage extra k root tf n v)

include h

theorem StackImage.lookup_setStack (pg : Page) :
    lookup (v.setStack root n pg).kmem.mem root = lookup v.kmem.mem root :=
  h.toImage.lookup_writeFrame h.top_lt.1 pg

theorem StackImage.setStack (pg : Page) : StackImage extra k root tf n (v.setStack root n pg) := by
  refine ⟨h.toImage.writeFrame h.top_lt.1 pg, ?_, ?_, ?_⟩
  · rw [h.lookup_setStack]
    exact h.guard
  · rw [h.lookup_setStack]
    exact h.access
  · rw [h.lookup_setStack]
    exact h.write

omit h in
theorem Vm.setStack_self : v.setStack root n (stackPage root n v) = v := by
  rw [Vm.setStack, stackPage, Kmem.setPage, Function.update_eq_self]
  rfl

theorem StackImage.stackPage_setStack (pg : Page) :
    stackPage root n (v.setStack root n pg) = pg := by
  rw [stackPage, h.lookup_setStack]
  exact Kmem.setPage_mem_self _ _ _

theorem StackImage.setStack_setStack (pg pg' : Page) :
    (v.setStack root n pg).setStack root n pg' = v.setStack root n pg' := by
  rw [Vm.setStack, h.lookup_setStack]
  simp only [Vm.setStack, Vm.setKmem, Kmem.setPage, Function.update_idem]

/-- **A copy to the new stack** neither faults nor fails, and it writes nothing else. -/
theorem StackImage.copyout {sp : ℕ} {src : List Byte}
    (hlo : (n + 1) * pgsize ≤ sp) (hne : src ≠ []) (hhi : sp + src.length ≤ (n + 2) * pgsize)
    {Q : Bool → Kernel → Prop}
    (hQ : Q true
      (k.setVm (v.setStack root n (writeBytes (stackPage root n v) (sp % pgsize) src)))) :
    wp (copyout me root sp src) Q E (k.setVm v) := by
  have hpos : 0 < src.length := List.length_pos_iff.mpr hne
  have hdiv : sp / pgsize = n + 1 := by
    simp only [pgsize] at hlo hhi ⊢
    omega
  have hfit : sp % pgsize + src.length ≤ pgsize := by
    simp only [pgsize] at hlo hhi ⊢
    omega
  obtain ⟨hlt, hu⟩ := h.top_lt
  refine copyout_resident (by rw [hdiv]; exact hu) ?_ ?_ ?_ hne hfit ?_
  · rw [hdiv]
    exact h.mapped _ hlt
  · rw [hdiv]
    exact h.access
  · rw [hdiv]
    exact h.write
  · rw [hdiv, Kernel.setVm_vm, Xv6.copyoutMove, wp_onVm, wp_onKmem, wp_modify]
    exact hQ

end SetStack

theorem subU64_of_le {x y : ℕ} (h : y ≤ x) (hx : x < 2 ^ 64) : subU64 x y = x - y := by
  rw [subU64, Nat.mod_eq_of_lt (h.trans_lt hx)]
  omega

/-- What the argument strings take on the stack, at most. -/
def argsSize (argv : List (List Byte)) : ℕ := (argv.map fun s => s.length + 16).sum

/-- The next multiple of 16. -/
def up16 (n : ℕ) : ℕ := (n + 15) / 16 * 16

/-- What the argument strings take on the stack. -/
def stringsSize (argv : List (List Byte)) : ℕ := (argv.map fun s => up16 (s.length + 1)).sum

theorem stringsSize_cons (s : List Byte) (rest : List (List Byte)) :
    stringsSize (s :: rest) = up16 (s.length + 1) + stringsSize rest := List.sum_cons

theorem stringsSize_le (argv : List (List Byte)) : stringsSize argv ≤ argsSize argv := by
  refine List.sum_le_sum fun s _ => ?_
  rw [up16]
  omega

theorem stringsSize_mod : ∀ argv : List (List Byte), stringsSize argv % 16 = 0
  | [] => rfl
  | s :: rest => by
    have hrest := stringsSize_mod rest
    rw [stringsSize_cons, up16]
    omega

/-- Where the argument strings are, from `top` downwards. -/
def argPtrs : ℕ → List (List Byte) → List ℕ
  | _, [] => []
  | top, s :: rest => (top - up16 (s.length + 1)) :: argPtrs (top - up16 (s.length + 1)) rest

theorem length_argPtrs : ∀ (top : ℕ) (argv : List (List Byte)),
    (argPtrs top argv).length = argv.length
  | _, [] => rfl
  | _, _ :: rest => congrArg Nat.succ (length_argPtrs _ rest)

/-- The page of the stack with the argument strings. -/
def putArgs : Page → ℕ → List (List Byte) → Page
  | pg, _, [] => pg
  | pg, top, s :: rest =>
    putArgs (writeBytes pg ((top - up16 (s.length + 1)) % pgsize) (s ++ [0]))
      (top - up16 (s.length + 1)) rest

theorem sub_mod_sixteen {sp len : ℕ} (hsp : sp % 16 = 0) (hle : len ≤ sp) :
    sp - len - (sp - len) % 16 = sp - up16 len := by
  rw [up16]
  omega

theorem up16_mod (n : ℕ) : up16 n % 16 = 0 := Nat.mul_mod_left _ _

theorem le_up16 (n : ℕ) : n ≤ up16 n := by
  rw [up16]
  omega

theorem up16_le (n : ℕ) : up16 n ≤ n + 15 := Nat.div_mul_le_self _ _

/-- There is room for the argument strings between the bottom of the stack and `sp`. -/
def ArgsFit (n sp : ℕ) (ustack : List ℕ) (argv : List (List Byte)) : Prop :=
  ustack.length + argv.length ≤ maxarg ∧ (n + 1) * pgsize + stringsSize argv ≤ sp

/-- **The argument strings** are copied, unless there are too many or they are too long. Only the
page of the stack is written. -/
theorem execArgs_spec : ∀ (argv : List (List Byte)) (sp : ℕ) (ustack : List ℕ) {v : Vm},
    StackImage extra k root tf n v → sp % 16 = 0 → (n + 1) * pgsize ≤ sp →
    sp ≤ (n + 2) * pgsize → (∀ s ∈ argv, s.length < pgsize) → ustack.length ≤ maxarg →
    wp (execArgs me root ((n + 1) * pgsize) argv sp ustack) (fun r k' =>
      ∃ pg, k' = k.setVm (v.setStack root n pg) ∧
        (ArgsFit n sp ustack argv ∧ pg = putArgs (stackPage root n v) sp argv ∧
            r = some (sp - stringsSize argv, ustack ++ argPtrs sp argv) ∨
          ¬ArgsFit n sp ustack argv ∧ r = none)) E (k.setVm v) := by
  intro argv
  induction argv with
  | nil =>
    intro sp ustack v h _ hlo _ _ hus
    have hnil : stringsSize [] = 0 := rfl
    have hself : k.setVm v = k.setVm (v.setStack root n (stackPage root n v)) := by
      rw [Vm.setStack_self]
    refine ⟨_, hself, Or.inl ⟨⟨hus, ?_⟩, rfl, ?_⟩⟩
    · rw [hnil, Nat.add_zero]
      exact hlo
    · rw [argPtrs, List.append_nil, hnil, Nat.sub_zero]
  | cons s rest ih =>
    intro sp ustack v h hsp hlo hhi hargs hus
    have hs : s.length < pgsize := hargs s List.mem_cons_self
    have hcost := stringsSize_cons s rest
    have hsmall : (n + 2) * pgsize < 2 ^ 64 := by
      have := h.toImage.le_trapframeVa
      have htop : trapframeVa < 2 ^ 64 := by decide
      omega
    have hbase : pgsize ≤ (n + 1) * pgsize := Nat.le_mul_of_pos_left _ (Nat.succ_pos n)
    have hround := le_up16 (s.length + 1)
    have hself : k.setVm v = k.setVm (v.setStack root n (stackPage root n v)) := by
      rw [Vm.setStack_self]
    rw [execArgs]
    by_cases hmax : maxarg ≤ ustack.length
    · rw [if_pos hmax]
      refine ⟨_, hself, Or.inr ⟨fun hfit => ?_, rfl⟩⟩
      have := hfit.1
      rw [List.length_cons] at this
      omega
    have hle : s.length + 1 ≤ sp := by omega
    rw [if_neg hmax]
    dsimp only
    rw [subU64_of_le hle (hhi.trans_lt hsmall), sub_mod_sixteen hsp hle, argPtrs, putArgs]
    have hmod := up16_mod (s.length + 1)
    obtain ⟨size, hsize⟩ : ∃ size, size = up16 (s.length + 1) := ⟨_, rfl⟩
    rw [← hsize] at hcost hround hmod ⊢
    by_cases hlow : sp - size < (n + 1) * pgsize
    · rw [if_pos hlow]
      refine ⟨_, hself, Or.inr ⟨fun hfit => ?_, rfl⟩⟩
      have := hfit.2
      omega
    rw [if_neg hlow, wp_bind]
    refine h.copyout (Nat.le_of_not_lt hlow) (by simp) ?_ ?_
    · rw [List.length_append, List.length_singleton]
      omega
    rw [if_pos rfl]
    have hnext := h.setStack
      (writeBytes (stackPage root n v) ((sp - size) % pgsize) (s ++ [0]))
    refine wp_imp (ih (sp - size) (ustack ++ [sp - size]) hnext (by omega)
      (Nat.le_of_not_lt hlow) (by omega) (fun s' hs' => hargs s' (List.mem_cons_of_mem _ hs'))
      (by rw [List.length_append, List.length_singleton]; omega)) ?_
    have hfit : ArgsFit n (sp - size) (ustack ++ [sp - size]) rest ↔
        ArgsFit n sp ustack (s :: rest) := by
      rw [ArgsFit, ArgsFit, hcost, List.length_append, List.length_singleton, List.length_cons]
      omega
    rintro r k' ⟨pg, rfl, hr⟩
    rw [hfit, h.stackPage_setStack] at hr
    refine ⟨pg, by rw [h.setStack_setStack], ?_⟩
    rcases hr with ⟨hyes, hpg, hres⟩ | hno
    · refine Or.inl ⟨hyes, hpg, ?_⟩
      rw [hres, hcost, List.append_assoc, List.singleton_append, Nat.sub_add_eq]
    · exact Or.inr hno

end StackImage

/-! ### Giving up, and the exchange of the images -/

/-- `exec` left the process as it was. -/
structure Unexeced (extra : Multiset ℕ) (k k' : Kernel) : Prop where
  inv : KInv extra k'
  same : ∃ v, k' = k.setVm v ∧ Keeps (spaces k) k.vm v
  memory : Untouched (spaces k) (extra + held k) k.vm k'.vm

theorem Unexeced.refl (h : KInv extra k) : Unexeced extra k k :=
  ⟨h, ⟨k.vm, rfl, .refl _ _⟩, .refl _ _ _⟩

/-- **The label `bad`.** -/
theorem execBad_spec (h : KInv extra k) (hi : Image extra k root tf sz v)
    {Q : Option ℕ → Kernel → Prop} (hQ : ∀ k', Unexeced extra k k' → Q none k') :
    wp (execBad root sz) Q E (k.setVm v) := by
  rw [execBad, wp_bind, wp_onVm]
  refine wp_imp (procFreepagetable_spec hi.inv hi.le_trapframeVa hi.absent) fun _ v' hf => ?_
  have hkeep := hi.keeps.trans hf.keeps
  refine hQ _ ⟨?_, ⟨v', rfl, hkeep⟩, hi.memory.trans hf.memory⟩
  exact h.regive ⟨rfl, rfl, rfl, rfl, rfl, hkeep.sameNotes⟩ hkeep (h.files.congr rfl rfl) hf.inv

/-- **What a successful `exec` did.** The image ends with a guard page `n` and a stack page. -/
structure Execed (extra : Multiset ℕ) (me : Fin nproc) (root n : ℕ) (k k' : Kernel) : Prop where
  inv : KInv extra k'
  proc : k'.proc me = { k.proc me with pagetable := some root, sz := (n + 2) * pgsize }
  others : ∀ j, j ≠ me → k'.proc j = k.proc j
  created : k'.created = k.created
  initproc : k'.initproc = k.initproc
  keeps : Keeps (otherSpaces k me) k.vm k'.vm
  /-- The pages of the old image are free. -/
  freed : ∀ old, (k.proc me).pagetable = some old →
    ∀ x ∈ footprint k.vm.kmem.mem (spaceOf k me old), x ∈ k'.vm.kmem.freelist
  /-- Its swap slots are free. -/
  slots : ∀ old, (k.proc me).pagetable = some old →
    SlotsFreed old (fun _ => True) k.vm k'.vm
  mapped : ∀ u < n + 2, (lookup k'.vm.kmem.mem root u).has pteV = true
  guard : (lookup k'.vm.kmem.mem root n).has pteU = false
  access : (lookup k'.vm.kmem.mem root (n + 1)).has pteU = true
  write : (lookup k'.vm.kmem.mem root (n + 1)).has pteW = true

/-- An image becomes the space of a process whose old space is gone. -/
theorem KInv.install (h : KInv extra k) {old : ℕ} (hroot : (k.proc me).pagetable = some old)
    (htf : (k.proc me).trapframe = some tf) (hsz : sz ≤ trapframeVa)
    (hv : VmInv (imageSpace root tf k.vm.kmem.sym ::ₘ otherSpaces k me) (extra + held k) v)
    (hkeep : Keeps (otherSpaces k me) k.vm v)
    (hmapped : ∀ u < pagesOf sz, (lookup v.kmem.mem root u).has pteV = true)
    (habsent : ∀ u, pagesOf sz ≤ u → u < userPages → lookup v.kmem.mem root u = 0#64) :
    KInv extra ((k.setVm v).setProc me { k.proc me with pagetable := some root, sz := sz }) := by
  have hok : SpaceOk v (imageSpace root tf k.vm.kmem.sym) :=
    hv.spaces _ (mem_cons_self _ _)
  have hcount : swapCount v.kmem.mem root = 0 := by
    refine Finset.sum_eq_zero fun u hu => ?_
    have hu' := mem_below.mp hu
    by_cases hlt : u < pagesOf sz
    · have hun : (lookup v.kmem.mem root u).has pteSwapped = false :=
        ((hok.leaf u hu').resident (hmapped u hlt)).unswapped
      rw [hun, Bool.toNat_false]
    · rw [habsent u (Nat.le_of_not_lt hlt) hu', Pte.has_zero, Bool.toNat_false]
  have hpid : ∀ q ∈ otherSpaces k me, q.pid ≠ (k.proc me).pid := by
    intro q hq heq
    obtain ⟨j, hj, hjq⟩ := mem_otherSpaces.mp hq
    obtain ⟨r, -, rfl⟩ := procSpace_eq_some.mp hjq
    exact hj (h.pids me j (h.in_use hroot) heq.symm).symm
  refine h.exchange hsz hkeep ?_ hroot (hcount.trans_le (Nat.zero_le _))
  have hmine := (hv.relabel le_rfl hpid).resize (pagesOf_le hsz) habsent
  rw [spaceOf, htf]
  exact hmine

/-- Setting a saved register while an image is under construction. -/
theorem wp_setReg {S : Multiset Space} {held : Multiset ℕ} {k : Kernel} (h : VmInv S held k.vm)
    (htf : tf ∈ held) {reg : Fin 512} {x : ℕ} {Q : Unit → Kernel → Prop}
    (hQ : ∀ v, VmInv S held v → Keeps S k.vm v → v.kmem.freelist = k.vm.kmem.freelist →
      (∀ q ∈ S, footprint v.kmem.mem q = footprint k.vm.kmem.mem q) →
      v.kmem.mem tf = setWord (k.vm.kmem.mem tf) reg (BitVec.ofNat 64 x) → Q () (k.setVm v)) :
    wp (onVm (onKmem (setReg tf reg x))) Q E k := by
  rw [wp_onVm, wp_onKmem, setReg, wp_writePte]
  exact hQ _ (h.write htf _) (h.keeps_write htf _) rfl
    (fun q hq => footprint_congr (update_agree (h.notMem_tables (Or.inr htf) hq) _))
    (Kmem.setPage_mem_self _ _ _)

/-- **How the new image starts**: its pages are as they were built, and its registers are set. -/
structure Started (root tf sp : ℕ) (v : Vm) (k' : Kernel) : Prop where
  image : ∀ u < userPages, KeepsAt v k'.vm root u
  a1 : entry k'.vm.kmem.mem tf regA1 = BitVec.ofNat 64 sp
  sp : entry k'.vm.kmem.mem tf regSp = BitVec.ofNat 64 sp

theorem execCommit_spec {old n sp entry argc : ℕ} (h : KInv extra k)
    (hroot : (k.proc me).pagetable = some old) (htf : (k.proc me).trapframe = some tf)
    (hi : StackImage extra k root tf n v) {Q : Option ℕ → Kernel → Prop}
    (hQ : ∀ k', Execed extra me root n k k' → Started root tf sp v k' →
      v.kmem.freelist.length ≤ k'.freePages → Q (some argc) k') :
    wp (execCommit me root ((n + 2) * pgsize) sp entry argc) Q E (k.setVm v) := by
  have htf' : addrOf ((k.setVm v).proc me).trapframe = tf := by
    rw [Kernel.setVm_proc, htf]
    rfl
  have hroot' : addrOf ((k.setVm v).proc me).pagetable = old := by
    rw [Kernel.setVm_proc, hroot]
    rfl
  have hmem : tf ∈ extra + held k := mem_add.mpr (Or.inr (mem_held_trapframe htf))
  rw [execCommit, wp_bind, wp_get]
  dsimp only
  rw [htf', hroot', wp_bind]
  refine wp_setReg hi.inv hmem fun v₁ hv₁ hkeep₁ hF₁ hprint₁ hreg₁ => ?_
  rw [wp_bind, wp_updateProc, wp_bind]
  refine wp_setReg hv₁ hmem fun v₂ hv₂ hkeep₂ hF₂ hprint₂ hreg₂ => ?_
  rw [wp_bind]
  refine wp_setReg hv₂ hmem fun v₃ hv₃ hkeep₃ hF₃ hprint₃ hreg₃ => ?_
  rw [wp_bind, wp_onVm]
  have hkeep₁₃ := hkeep₁.trans (hkeep₂.trans hkeep₃)
  -- up to here the old space is as it was
  have hold : spaceOf k me old ∈ spaces k := spaces_cons hroot ▸ mem_cons_self _ _
  have hprint : footprint v₃.kmem.mem (spaceOf k me old)
      = footprint k.vm.kmem.mem (spaceOf k me old) := by
    have hmine : spaceOf k me old ∈ imageSpace root tf k.vm.kmem.sym ::ₘ spaces k :=
      mem_cons_of_mem hold
    rw [← hi.memory.footprint_eq hold]
    exact (hprint₃ _ hmine).trans ((hprint₂ _ hmine).trans (hprint₁ _ hmine))
  have holdlook : ∀ u < userPages, lookup v₃.kmem.mem old u = lookup k.vm.kmem.mem old u :=
    fun u hu => (hkeep₁₃.same _ (mem_cons_of_mem hold) u hu).1.trans
      (hi.keeps.same _ hold u hu).1
  -- the old space is in front now
  rw [spaces_cons hroot, cons_swap] at hv₃
  have hbeyond := (hv₃.spaces _ (mem_cons_self _ _)).beyond
  refine wp_imp (procFreepagetable_spec hv₃ (h.size me) hbeyond) ?_
  rintro - v₄ ⟨hv₄, hkeep₄, hroom₄, hm₄, hslots₄⟩
  have hback := hm₄.gone hv₃ hv₄ hkeep₄.sym
  rw [hprint] at hback
  have himage : ∀ u < userPages, KeepsAt v v₄ root u := fun u hu =>
    (hkeep₁₃.same _ (mem_cons_self _ _) u hu).trans
      (hkeep₄.same _ (mem_cons_self _ _) u hu)
  have hlook : ∀ u < userPages, lookup v₄.kmem.mem root u = lookup v.kmem.mem root u :=
    fun u hu => (himage u hu).1
  -- the trapframe has the three registers, and freeing the old space does not write it
  have htframe : v₄.kmem.mem tf = setWord (setWord (setWord (v.kmem.mem tf) regA1
      (BitVec.ofNat 64 sp)) regEpc (BitVec.ofNat 64 entry)) regSp (BitVec.ofNat 64 sp) := by
    rw [hm₄ tf (mem_owned.mpr (Or.inl hmem)), hreg₃]
    change setWord (v₂.kmem.mem tf) _ _ = _
    rw [hreg₂]
    change setWord (setWord (v₁.kmem.mem tf) _ _) _ _ = _
    rw [hreg₁]
    rfl
  have hkeep : Keeps (otherSpaces k me) k.vm v₄ := by
    have hsub : ∀ q ∈ otherSpaces k me, q ∈ spaces k := fun q hq =>
      spaces_cons hroot ▸ mem_cons_of_mem hq
    refine ((hi.keeps.mono hsub).trans (hkeep₁₃.mono fun q hq => ?_)).trans
      hkeep₄.tail
    exact mem_cons_of_mem (hsub q hq)
  have hfits : n + 2 ≤ userPages := by
    have := hi.fits
    rwa [pagesOf_mul] at this
  have hmapped : ∀ u < n + 2, (lookup v₄.kmem.mem root u).has pteV = true := fun u hu => by
    rw [hlook u (hu.trans_le hfits)]
    exact hi.mapped u (by rwa [pagesOf_mul])
  refine hQ ((k.setVm v₄).setProc me
    { k.proc me with pagetable := some root, sz := (n + 2) * pgsize }) ⟨?_,
    Kernel.setProc_proc_self _ _ _, fun j hj => Kernel.setProc_proc_of_ne _ _ hj, rfl, rfl, hkeep,
    fun r hr x hx => ?_, fun r hr u _ hu slot hs => ?_, hmapped, ?_, ?_, ?_⟩
    ⟨himage, ?_, ?_⟩ ?_
  · refine h.install hroot htf hi.toImage.le_trapframeVa hv₄ hkeep ?_ ?_
    · rw [pagesOf_mul]
      exact hmapped
    · intro u hu hu'
      rw [hlook u hu']
      exact hi.absent u hu hu'
  · obtain rfl : old = r := Option.some.inj (hroot.symm.trans hr)
    have hfree : x ∈ (v₄.kmem.freelist : Multiset ℕ) := by
      rw [hback]
      exact mem_add.mpr (Or.inr hx)
    exact mem_coe.mp hfree
  · obtain rfl : old = r := Option.some.inj (hroot.symm.trans hr)
    exact hslots₄ u trivial hu slot ((holdlook u hu).trans hs)
  · change (lookup v₄.kmem.mem root n).has pteU = false
    rw [hlook n (by omega)]
    exact hi.guard
  · change (lookup v₄.kmem.mem root (n + 1)).has pteU = true
    rw [hlook (n + 1) (by omega)]
    exact hi.access
  · change (lookup v₄.kmem.mem root (n + 1)).has pteW = true
    rw [hlook (n + 1) (by omega)]
    exact hi.write
  · change Xv6.entry v₄.kmem.mem tf regA1 = _
    rw [Xv6.entry, htframe, word_setWord_of_ne _ _ (by decide), word_setWord_of_ne _ _ (by decide),
      word_setWord_self]
  · change Xv6.entry v₄.kmem.mem tf regSp = _
    rw [Xv6.entry, htframe, word_setWord_self]
  · change _ ≤ v₄.kmem.freelist.length
    refine le_trans (le_of_eq ?_) hroom₄
    rw [hF₃]
    change _ = v₂.kmem.freelist.length
    rw [hF₂]
    change _ = v₁.kmem.freelist.length
    rw [hF₁]
    rfl

theorem UserImage.roundup (h : UserImage extra k root tf sz v) :
    UserImage extra k root tf (pagesOf sz * pgsize) v := by
  have hpages := pagesOf_mul (pagesOf sz)
  refine ⟨⟨h.inv, h.keeps, h.memory, ?_, ?_, ?_⟩, ?_⟩
  · rw [hpages]
    exact h.fits
  · rw [hpages]
    exact h.mapped
  · rw [hpages]
    exact h.absent
  · rw [hpages]
    exact h.user

/-- The guard page is cleared and the image has its stack. -/
theorem UserImage.stack {n : ℕ} (h' : UserImage extra k root tf ((n + 2) * pgsize) v')
    (hg : Grown (imageSpace root tf k.vm.kmem.sym) (spaces k) (extra + held k)
      (pteR ||| pteU ||| pteW) n (n + 2) v v')
    {Q : Unit → Vm → Prop}
    (hQ : ∀ v'', StackImage extra k root tf n v'' → v''.kmem.freelist = v'.kmem.freelist →
      Q () v'') : wp (onKmem (uvmclear root (n * pgsize))) Q E v' := by
  have hfits := h'.fits
  have hmap := h'.mapped
  have habs := h'.absent
  rw [pagesOf_mul] at hfits hmap habs
  have hn : n < userPages := by omega
  have hspec := uvmclear_spec (E := E) h'.inv (le_refl (0 : ℤ)) hn (hmap n (by omega)) hn
  refine wp_imp hspec ?_
  rintro - v'' ⟨hv'', hkeep'', hm, hF'', hentry, hrest⟩
  change lookup v''.kmem.mem root n = lookup v'.kmem.mem root n &&& ~~~pteU at hentry
  have hother : ∀ u < userPages, u ≠ n →
      lookup v''.kmem.mem root u = lookup v'.kmem.mem root u := fun u hu hne => (hrest u hu hne).1
  obtain ⟨x, -, hx⟩ := hg.mapped (n + 1) (by omega) (by omega)
  change lookup v'.kmem.mem root (n + 1) = _ at hx
  refine hQ v'' ⟨⟨hv'', h'.keeps.trans hkeep'', h'.memory.trans hm, by rwa [pagesOf_mul],
    fun u hu => ?_, fun u hu hu' => ?_⟩, ?_, ?_, ?_⟩ hF''
  · rw [pagesOf_mul] at hu
    by_cases hun : u = n
    · rw [hun, hentry, Pte.has_clear (by decide)]
      exact hmap n (by omega)
    · rw [hother u (hu.trans_le hfits) hun]
      exact hmap u hu
  · rw [pagesOf_mul] at hu
    rw [hother u hu' (by omega)]
    exact habs u hu hu'
  · rw [hentry]
    exact Pte.has_clear_self _ _
  · rw [hother (n + 1) (by omega) (by omega), hx, Pte.has_mkPte _ _ (by decide)]
    decide
  · rw [hother (n + 1) (by omega) (by omega), hx, Pte.has_mkPte _ _ (by decide)]
    decide

theorem length_leBytes (n x : ℕ) : (leBytes n x).length = n := by
  simp [leBytes]

theorem length_flatMap_leBytes (n : ℕ) (us : List ℕ) :
    (us.flatMap (leBytes n)).length = n * us.length := by
  induction us with
  | nil => rfl
  | cons x us ih =>
    rw [List.flatMap_cons, List.length_append, length_leBytes, ih, List.length_cons, Nat.mul_succ,
      Nat.add_comm]

theorem length_argWords (top : ℕ) (argv : List (List Byte)) :
    ((argPtrs top argv ++ [0]).flatMap (leBytes 8)).length = 8 * (argv.length + 1) := by
  rw [length_flatMap_leBytes, List.length_append, length_argPtrs, List.length_singleton]

/-! ### The argument block -/

/-- What the argument block takes on the stack. -/
def blockSize (argv : List (List Byte)) : ℕ := stringsSize argv + up16 (8 * (argv.length + 1))

/-- The argument block fits in the one page of the stack. -/
def BlockFits (argv : List (List Byte)) : Prop := argv.length ≤ maxarg ∧ blockSize argv ≤ pgsize

/-- The page of the stack with the argument block. -/
def putBlock (pg : Page) (top : ℕ) (argv : List (List Byte)) : Page :=
  writeBytes (putArgs pg top argv) ((top - blockSize argv) % pgsize)
    ((argPtrs top argv ++ [0]).flatMap (leBytes 8))

/-- **The argument block** is written to the page of the stack if it fits there. Nothing else is
written, whether it fits or not. -/
theorem execBlock_spec {n : ℕ} {argv : List (List Byte)} (h : StackImage extra k root tf n v)
    (hargs : ∀ s ∈ argv, s.length < pgsize) :
    wp (execBlock me root ((n + 2) * pgsize) argv) (fun r k' =>
      ∃ pg, k' = k.setVm (v.setStack root n pg) ∧
        (BlockFits argv ∧ pg = putBlock (stackPage root n v) ((n + 2) * pgsize) argv ∧
            r = some ((n + 2) * pgsize - blockSize argv, argv.length) ∨
          ¬BlockFits argv ∧ r = none)) E (k.setVm v) := by
  have hsucc : (n + 2) * pgsize = (n + 1) * pgsize + pgsize := Nat.succ_mul _ _
  have hlow : pgsize ≤ (n + 1) * pgsize := Nat.le_mul_of_pos_left _ (Nat.succ_pos n)
  have hbase : (n + 2) * pgsize - pgsize = (n + 1) * pgsize := by omega
  have halign : (n + 2) * pgsize % 16 = 0 := by
    rw [Nat.mul_mod, show pgsize % 16 = 0 from rfl, Nat.mul_zero]
  have hbig : (n + 2) * pgsize < 2 ^ 64 :=
    h.toImage.le_trapframeVa.trans_lt (by decide)
  have hstrings : ArgsFit n ((n + 2) * pgsize) [] argv ↔
      argv.length ≤ maxarg ∧ stringsSize argv ≤ pgsize := by
    rw [ArgsFit, List.length_nil, Nat.zero_add, hsucc, Nat.add_le_add_iff_left]
  rw [execBlock]
  dsimp only
  rw [hbase]
  refine wp_seq (execArgs_spec argv ((n + 2) * pgsize) [] h halign
    (by omega) le_rfl hargs (Nat.zero_le _)) ?_
  rintro r k' ⟨pg, rfl, ⟨hfit, rfl, rfl⟩ | ⟨hno, rfl⟩⟩
  · rw [hstrings] at hfit
    dsimp only
    rw [List.nil_append, length_argPtrs]
    have hmaxarg : maxarg = 32 := rfl
    have hpg : pgsize = 4096 := rfl
    have hmod : ((n + 2) * pgsize - stringsSize argv) % 16 = 0 := by
      have := stringsSize_mod argv
      omega
    have hle : (argv.length + 1) * 8 ≤ (n + 2) * pgsize - stringsSize argv := by omega
    rw [subU64_of_le hle (by omega), sub_mod_sixteen hmod hle, Nat.mul_comm (argv.length + 1) 8,
      Nat.sub_sub, show stringsSize argv + up16 (8 * (argv.length + 1)) = blockSize argv from rfl]
    have hround := le_up16 (8 * (argv.length + 1))
    have hsum : blockSize argv = stringsSize argv + up16 (8 * (argv.length + 1)) := rfl
    by_cases hroom : (n + 2) * pgsize - blockSize argv < (n + 1) * pgsize
    · rw [if_pos hroom]
      refine ⟨_, rfl, Or.inr ⟨fun hyes => ?_, rfl⟩⟩
      have := hyes.2
      omega
    · have hsrc := length_argWords ((n + 2) * pgsize) argv
      rw [if_neg hroom, wp_bind]
      refine (h.setStack _).copyout (Nat.le_of_not_lt hroom) (fun hnil => ?_) (by omega) ?_
      · rw [hnil, List.length_nil] at hsrc
        omega
      · rw [if_pos rfl]
        refine ⟨_, ?_, Or.inl ⟨⟨hfit.1, by omega⟩, rfl, rfl⟩⟩
        rw [h.setStack_setStack, h.stackPage_setStack]
        rfl
  · refine ⟨pg, rfl, Or.inr ⟨fun hfit => hno (hstrings.mpr ⟨hfit.1, ?_⟩), rfl⟩⟩
    exact (Nat.le_add_right _ _).trans hfit.2

/-! ### The system call -/

/-- A program without segments: all that `exec` gives it is a stack. -/
structure Segmentless (file : List Byte) : Prop where
  length : (readi file 0 elfhdrSize).length = elfhdrSize
  magic : field (readi file 0 elfhdrSize) 0 4 = elfMagic
  phnum : field (readi file 0 elfhdrSize) 56 2 = 0

/-- **The stack and its guard page.** -/
theorem execGuard_spec (h : KInv extra k) (hi : UserImage extra k root tf sz v) :
    wp (execGuard root sz) (fun r k' => match r with
      | none => Unexeced extra k k' ∧ v.kmem.freelist.length < 6
      | some sz1 => sz1 = (pagesOf sz + 2) * pgsize ∧ ∃ v', k' = k.setVm v' ∧
          StackImage extra k root tf (pagesOf sz) v' ∧
          v.kmem.freelist.length ≤ v'.kmem.freelist.length + 6) E (k.setVm v) := by
  have hround : pgroundup sz = pagesOf sz * pgsize :=
    pgroundup_eq (le_maxva hi.toImage.le_trapframeVa)
  have hi' := hi.roundup
  rw [execGuard, hround]
  generalize pagesOf sz = n at hi' ⊢
  have htwo : n * pgsize + 2 * pgsize = (n + 2) * pgsize := (Nat.add_mul _ _ _).symm
  have hpos : (n + 2) * pgsize ≠ 0 := Nat.mul_ne_zero (Nat.succ_ne_zero _) (by decide)
  rw [htwo, wp_bind, wp_onVm]
  refine hi'.uvmalloc leafPerm_grow (fun hlt => ?_) (fun _ v₁ h₁ hshort => ?_)
    fun _ v₁ h₁ hg hlen => ?_
  · exact absurd hlt (Nat.not_lt.mpr (Nat.mul_le_mul_right _ (by omega)))
  · rw [if_pos rfl]
    refine execBad_spec h h₁.toImage fun k' hk' => ⟨hk', ?_⟩
    rw [pagesOf_mul, pagesOf_mul] at hshort
    omega
  have hguard : (n + 2) * pgsize - 2 * pgsize = n * pgsize := by
    rw [← Nat.sub_mul]
    rfl
  rw [if_neg hpos, wp_bind, wp_onVm, hguard]
  rw [pagesOf_mul, pagesOf_mul] at hg hlen
  refine h₁.stack hg fun v₂ h₂ hF₂ => ⟨rfl, v₂, rfl, h₂, ?_⟩
  rw [hF₂]
  omega

theorem execImage_spec {file : Option (List Byte)} (h : KInv extra k)
    (htf : (k.proc me).trapframe = some tf) :
    wp (execImage me file) (fun r k' => match r with
      | none => Unexeced extra k k' ∧
          ((∃ f, file = some f ∧ Segmentless f) → k.freePages < 11)
      | some (root, sz1, _) => ∃ n v, sz1 = (n + 2) * pgsize ∧ k' = k.setVm v ∧
          StackImage extra k root tf n v ∧ ((∃ f, file = some f ∧ Segmentless f) →
            n = 0 ∧ k.freePages ≤ v.kmem.freelist.length + 11)) E k := by
  cases file with
  | none => exact ⟨.refl h, fun ⟨f, hf, _⟩ => nomatch hf⟩
  | some file =>
    have hbare : ∀ {f : List Byte}, some file = some f → Segmentless f → Segmentless file :=
      fun hf hb => Option.some.inj hf ▸ hb
    rw [execImage]
    dsimp only
    refine wp_ite (fun hlen => ⟨.refl h, fun ⟨f, hf, hb⟩ => absurd (hbare hf hb).length hlen⟩)
      fun _ => ?_
    refine wp_ite (fun hmagic => ⟨.refl h, fun ⟨f, hf, hb⟩ => absurd (hbare hf hb).magic hmagic⟩)
      fun _ => ?_
    rw [wp_bind, wp_get, wp_bind, wp_onVm, htf]
    refine wp_imp (procPagetable_spec h.vm tf) fun r v₁ ⟨hkeep₁, hm₁, hr⟩ => ?_
    cases r with
    | none =>
      obtain ⟨hv₁, hshort⟩ := hr
      refine ⟨⟨h.regive ⟨rfl, rfl, rfl, rfl, rfl, hkeep₁.sameNotes⟩ hkeep₁
        (h.files.congr rfl rfl) hv₁, ⟨v₁, rfl, hkeep₁⟩, hm₁⟩, fun _ => ?_⟩
      rw [Kernel.freePages]
      omega
    | some root =>
      obtain ⟨hv₁, -, hroom⟩ := hr
      have habs : ∀ u < userPages, lookup v₁.kmem.mem root u = 0#64 := fun u hu =>
        (hv₁.spaces _ (mem_cons_self _ _)).beyond u (Nat.zero_le u) hu
      have himage : UserImage extra k root tf 0 v₁ :=
        ⟨⟨hv₁.resize le_rfl fun u hu hu' => absurd hu' (Nat.not_lt.mpr hu), hkeep₁, hm₁,
          Nat.zero_le _, fun u hu => absurd hu (Nat.not_lt_zero u), fun u _ hu => habs u hu⟩,
          fun u hu => absurd hu (Nat.not_lt_zero u)⟩
      dsimp only
      refine wp_seq (execLoad_spec _ _ 0 himage) ?_
      rintro ⟨sz, ok⟩ k' ⟨v₂, rfl, h₂, hzero⟩
      dsimp only
      cases ok with
      | false =>
        rw [if_neg Bool.false_ne_true, wp_bind]
        refine execBad_spec h h₂.toImage fun k' hk' => ⟨hk', fun ⟨f, hf, hb⟩ => ?_⟩
        exact absurd (Prod.mk.inj (hzero (hbare hf hb).phnum).1).2 Bool.false_ne_true
      | true =>
        rw [if_pos rfl]
        refine wp_seq (execGuard_spec h h₂) ?_
        rintro (_ | sz1) k₃ h₃
        · refine ⟨h₃.1, fun ⟨f, hf, hb⟩ => ?_⟩
          obtain ⟨-, rfl⟩ := hzero (hbare hf hb).phnum
          have := h₃.2
          rw [Kernel.freePages]
          omega
        · obtain ⟨hsz, v₃, rfl, hstack, hlen₃⟩ := h₃
          refine ⟨pagesOf sz, v₃, hsz, rfl, hstack, fun ⟨f, hf, hb⟩ => ?_⟩
          obtain ⟨heq, rfl⟩ := hzero (hbare hf hb).phnum
          obtain ⟨rfl, -⟩ := Prod.mk.inj heq
          refine ⟨rfl, ?_⟩
          rw [Kernel.freePages]
          omega

/-- **`exec` cannot panic.** Given a program without segments it fails only for lack of memory or
because of the arguments. -/
theorem kexec_spec {old : ℕ} {file : Option (List Byte)} {argv : List (List Byte)}
    (h : KInv extra k) (hroot : (k.proc me).pagetable = some old)
    (htf : (k.proc me).trapframe = some tf) (hargs : ∀ s ∈ argv, s.length < pgsize)
    {Q : Option ℕ → Kernel → Prop}
    (hbad : ∀ k', Unexeced extra k k' → ((∃ f, file = some f ∧ Segmentless f) →
      k.freePages < 11 ∨ maxarg < argv.length ∨
        pgsize < argsSize argv + 8 * (argv.length + 1) + 15) → Q none k')
    (hok : ∀ root n k', Execed extra me root n k k' →
      ((∃ f, file = some f ∧ Segmentless f) → n = 0 ∧ k.freePages ≤ k'.freePages + 11) →
      Q (some argv.length) k') :
    wp (kexec me file argv) Q E k := by
  rw [kexec]
  refine wp_seq (execImage_spec h htf) ?_
  rintro (_ | ⟨root, sz1, entry⟩) k₁ h₁
  · exact hbad k₁ h₁.1 fun hfile => Or.inl (h₁.2 hfile)
  obtain ⟨n, v, rfl, rfl, hstack, hbare⟩ := h₁
  dsimp only
  rw [execEnd]
  refine wp_seq (execBlock_spec hstack hargs) ?_
  rintro r k₂ ⟨pg, rfl, ⟨-, -, rfl⟩ | ⟨hno, rfl⟩⟩
  · refine execCommit_spec h hroot htf (hstack.setStack pg) fun k' hk' _ hfree => ?_
    refine hok root n k' hk' fun hfile => ?_
    obtain ⟨hn, hroom⟩ := hbare hfile
    rw [Vm.setStack_freelist] at hfree
    exact ⟨hn, by omega⟩
  · refine execBad_spec h (hstack.setStack pg).toImage fun k' hk' => ?_
    refine hbad k' hk' fun _ => Or.inr ?_
    by_contra hfits
    refine hno ⟨by omega, ?_⟩
    have hle := stringsSize_le argv
    have hround := up16_le (8 * (argv.length + 1))
    rw [blockSize]
    omega

/-- `me` may make system calls. -/
structure Calling (extra : Multiset ℕ) (me : Fin nproc) (k : Kernel) : Prop where
  inv : KInv extra k
  complete : Complete k
  live : (k.proc me).state ≠ .unused

theorem Calling.memory (h : Calling extra me k) :
    ∃ root tf, (k.proc me).pagetable = some root ∧ (k.proc me).trapframe = some tf := by
  obtain ⟨⟨root, hroot⟩, tf, htf⟩ := h.complete me h.live
  exact ⟨root, tf, hroot, htf⟩

theorem Calling.serviced (h : Calling extra me k) (hroot : (k.proc me).pagetable = some root)
    (hs : Serviced (spaceOf k me root ::ₘ otherSpaces k me) (extra + held k) k k') :
    Calling extra me k' :=
  ⟨h.inv.serviced hroot hs, h.complete.paged hs.paged, by rw [hs.paged.state]; exact h.live⟩

theorem Calling.regive {extra' : Multiset ℕ} (h : Calling extra me k)
    (hkeep : Keeps (spaces k) k.vm v) (hv : VmInv (spaces k) (extra' + held k) v) :
    Calling extra' me (k.setVm v) :=
  ⟨h.inv.regive ⟨rfl, rfl, rfl, rfl, rfl, hkeep.sameNotes⟩ hkeep (h.inv.files.congr rfl rfl) hv,
    h.complete, h.live⟩

theorem fetchaddr_spec (h : Calling extra me k) (hE : E "clock_evict: swap full") (addr : ℕ) :
    wp (fetchaddr me addr) (fun _ k' => Calling extra me k' ∧ (k.Backed me addr 8 → k' = k)) E k := by
  obtain ⟨root, tf, hroot, -⟩ := h.memory
  rw [fetchaddr, wp_bind, wp_get, Kernel.Backed]
  dsimp only
  rw [hroot]
  split_ifs
  · exact ⟨h, fun _ => rfl⟩
  · refine wp_seq (copyin_spec (h.inv.faulting hroot) hE addr 8) ?_
    rintro (_ | bytes) k' hs
    · exact ⟨h.serviced hroot hs.1, hs.2⟩
    · exact ⟨h.serviced hroot hs.1, hs.2⟩

/-- What fetching the arguments leaves. The pages are in hand, and each string fits in one. No page
is brought in when the pointers are on resident pages. -/
structure Fetched (extra : Multiset ℕ) (me : Fin nproc) (B : Prop) (k : Kernel)
    (r : List ℕ × Option (List (List Byte))) (k' : Kernel) : Prop where
  calling : Calling (r.1 + extra) me k'
  args : ∀ argv, r.2 = some argv → ∀ s ∈ argv, s.length < pgsize
  notes : B → SameNotes (spaces k) k.vm k'.vm ∧ k'.proc = k.proc

theorem fetchArgs_spec (hE : E "clock_evict: swap full") {uargv : ℕ} {B : Prop} :
    ∀ (n : ℕ) (pages : List ℕ) (argv : List (List Byte)) {k : Kernel},
    Calling (pages + extra) me k → (∀ s ∈ argv, s.length < pgsize) →
    (B → ∀ i < argv.length + n, k.Backed me (u64 (uargv + 8 * i)) 8) →
    wp (fetchArgs me uargv n pages argv) (Fetched extra me B k) E k := by
  intro n
  induction n with
  | zero =>
    exact fun pages argv k h hargs _ =>
      ⟨h, fun argv' hr => absurd hr.symm (by simp), fun _ => ⟨.refl _ _, rfl⟩⟩
  | succ n ih =>
    intro pages argv k h hargs hB
    obtain ⟨root, -, hroot, -⟩ := h.memory
    have hstop : ∀ {pages' : List ℕ} {k' : Kernel}, Calling (pages' + extra) me k' →
        (B → SameNotes (spaces k) k.vm k'.vm ∧ k'.proc = k.proc) →
        Fetched extra me B k (pages', none) k' :=
      fun h' hn => ⟨h', fun argv' hr => absurd hr.symm (by simp), hn⟩
    rw [fetchArgs]
    refine wp_seq (fetchaddr_spec h hE _) fun r k₁ ⟨h₁, hsame⟩ => ?_
    have hone : B → k₁ = k := fun hb => hsame (hB hb _ (by omega))
    have hn₁ : B → SameNotes (spaces k) k.vm k₁.vm ∧ k₁.proc = k.proc := fun hb => by
      rw [hone hb]
      exact ⟨.refl _ _, rfl⟩
    rcases r with _ | uarg
    · exact hstop h₁ hn₁
    dsimp only
    refine wp_ite (fun _ => ⟨h₁, fun argv' hr => Option.some.inj hr ▸ hargs, hn₁⟩) fun _ => ?_
    rw [wp_bind, wp_onVm]
    refine wp_kalloc h₁.inv.vm (fun _ => hstop h₁ hn₁) fun page v hv hkeep _ _ _ _ _ _ => ?_
    have hpages : ((pages ++ [page] : List ℕ) : Multiset ℕ) + extra = page ::ₘ (pages + extra) := by
      rw [← Multiset.coe_add, Multiset.coe_singleton, add_right_comm, ← singleton_add,
        add_comm]
    have h₂ : Calling ((pages ++ [page] : List ℕ) + extra) me (k₁.setVm v) := by
      rw [hpages]
      exact h₁.regive hkeep (by rw [cons_add]; exact hv)
    dsimp only
    rw [wp_bind, fetchstr, wp_bind, wp_get]
    refine wp_imp (copyinstr_spec _ _ _) ?_
    rintro (_ | str) k' ⟨rfl, hstr⟩
    · refine hstop h₂ fun hb => ?_
      rw [hone hb] at hkeep ⊢
      exact ⟨hkeep.sameNotes, rfl⟩
    dsimp only
    rw [wp_bind, copyoutMove, wp_onVm, wp_onKmem, wp_modify]
    have hmem : page ∈ ((pages ++ [page] : List ℕ) + extra) + held (k₁.setVm v) := by
      rw [hpages, cons_add]
      exact mem_cons_self _ _
    have hkeep₃ := h₂.inv.vm.keeps_write hmem
      (writeBytes ((k₁.setVm v).vm.kmem.mem page) 0 (str ++ [0]))
    have hn : B → SameNotes (spaces k) k.vm _ := fun hb => by
      obtain rfl := hone hb
      rw [spaces_setVm hkeep.sym] at hkeep₃
      exact hkeep.sameNotes.trans hkeep₃.sameNotes
    refine wp_imp (ih (pages ++ [page]) (argv ++ [str])
      (h₂.regive hkeep₃ (h₂.inv.vm.write hmem _)) (fun s hs => ?_) fun hb i hi => ?_)
      fun r k' hf => ⟨hf.calling, hf.args, fun hb => ?_⟩
    · rcases List.mem_append.mp hs with hs | hs
      · exact hargs s hs
      · rw [List.mem_singleton.mp hs]
        exact hstr str rfl
    · obtain rfl := hone hb
      rw [List.length_append, List.length_singleton] at hi
      exact (hB hb i (by omega)).congr hroot (h.inv.size me) (hn hb) rfl rfl
    · obtain rfl := hone hb
      have hn := hn hb
      obtain ⟨hn', hproc⟩ := hf.notes hb
      rw [Kernel.setVm_setVm, spaces_setVm hn.sym] at hn'
      exact ⟨hn.trans hn', hproc⟩

theorem Calling.unexeced (h : Calling extra me k) (hu : Unexeced extra k k') :
    Calling extra me k' := by
  obtain ⟨v, rfl, -⟩ := hu.same
  exact ⟨hu.inv, h.complete, h.live⟩

theorem Calling.execed {n : ℕ} (h : Calling extra me k) (he : Execed extra me root n k k') :
    Calling extra me k' := by
  refine ⟨he.inv, fun i hi => ?_, ?_⟩
  · by_cases him : i = me
    · rw [him, he.proc]
      exact ⟨⟨root, rfl⟩, (h.complete me h.live).2⟩
    · rw [he.others i him] at hi ⊢
      exact h.complete i hi
  · rw [he.proc]
    exact h.live

theorem freeArgs_spec {pages : List ℕ} {C : Prop} (h : Calling (pages + extra) me k) :
    wp (forEach pages fun page => onVm (onKmem (kfree page)))
      (fun _ k' => Calling extra me k' ∧ Tidy C k k') E k := by
  have hloop := wp_forEach (E := E)
    (fun (rest : List ℕ) k' => Calling (rest + extra) me k' ∧ Tidy C k k')
    (f := fun page => onVm (onKmem (kfree page))) (fun page rest k' h' => ?_) ⟨h, .refl C k⟩
  · refine wp_imp hloop fun _ k' h' => ?_
    rw [Multiset.coe_nil, zero_add] at h'
    exact h'
  · rw [wp_onVm]
    have hvm := h'.1.inv.vm
    rw [← cons_coe, cons_add, cons_add] at hvm
    exact wp_kfree hvm fun v hv hkeep _ _ _ _ _ => ⟨h'.1.regive hkeep hv,
      h'.2.trans id (.of_notes h'.1.complete (fun _ hi => ⟨hi, rfl⟩) hkeep.sameNotes)⟩

/-- **`exec`**, as a system call. -/
theorem sysExec_spec (h : Calling extra me k) (hE : E "clock_evict: swap full")
    (fs : List Byte → Option (List Byte)) (path : ℕ) {uargv : ℕ} {B : Prop}
    (hB : B → ∀ i < maxarg, k.Backed me (u64 (uargv + 8 * i)) 8) :
    wp (sysExec me fs path uargv) (fun _ k' => Calling extra me k' ∧
      (B → Tidy (frameCount k.vm (k.proc me).pid = 0) k k')) E k := by
  rw [sysExec, wp_bind, fetchstr, wp_bind, wp_get]
  refine wp_imp (copyinstr_spec _ _ _) ?_
  rintro (_ | str) k' ⟨rfl, -⟩
  · exact ⟨h, fun _ => .refl _ _⟩
  dsimp only
  have hnil : Calling ((([] : List ℕ) : Multiset ℕ) + extra) me k' := by
    rw [Multiset.coe_nil, zero_add]
    exact h
  refine wp_seq (fetchArgs_spec (B := B) hE maxarg [] [] hnil ?_ fun hb => ?_) ?_
  · exact fun s hs => absurd hs List.not_mem_nil
  · rw [List.length_nil, zero_add]
    exact hB hb
  · rintro ⟨pages, argv⟩ k₁ ⟨h₁, hargs, hnotes⟩
    have hfree : ∀ {ret : Option ℕ} {k₂ : Kernel}, Calling (pages + extra) me k₂ →
        Tidy (frameCount k₁.vm (k₁.proc me).pid = 0) k₁ k₂ →
        wp (do
          forEach pages fun page => onVm (onKmem (kfree page))
          return ret) (fun _ k₃ => Calling extra me k₃ ∧
            (B → Tidy (frameCount k'.vm (k'.proc me).pid = 0) k' k₃)) E k₂ := by
      intro ret k₂ h₂ ht
      rw [wp_bind]
      refine wp_imp (freeArgs_spec (C := True) h₂) fun _ k₃ h₃ => ⟨h₃.1, fun hb => ?_⟩
      obtain ⟨hn, hproc⟩ := hnotes hb
      refine ((Tidy.of_notes h.complete (fun i hi => ?_) hn).trans (fun h0 => ?_) ht).trans
        (fun _ => trivial) h₃.2
      · rw [hproc] at hi ⊢
        exact ⟨hi, rfl⟩
      · have := hn.frameCount_le (k'.proc me).pid
        rw [hproc]
        omega
    cases argv with
    | none => exact hfree h₁ (.refl _ _)
    | some argv =>
      dsimp only
      obtain ⟨root, tf, hroot, htf⟩ := h₁.memory
      rw [wp_bind]
      refine kexec_spec h₁.inv hroot htf (hargs argv rfl) (fun k₂ hu _ => ?_)
        fun root' n k₂ he _ => ?_
      · refine hfree (h₁.unexeced hu) ?_
        obtain ⟨v, rfl, hkeep⟩ := hu.same
        exact .of_notes h₁.complete (fun _ hi => ⟨hi, rfl⟩) hkeep.sameNotes
      · refine hfree (h₁.execed he) (.of_keeps h₁.complete (fun i hi => ?_) he.keeps)
        by_cases him : i = me
        · rw [him, he.proc]
          exact ⟨h₁.live, rfl⟩
        · rw [he.others i him] at hi ⊢
          exact ⟨hi, rfl⟩

end Xv6
