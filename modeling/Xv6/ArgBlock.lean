import Xv6.ExecSpec
import Xv6.CopyData
import Xv6.BootSpec

/-!
# The argument block of `exec`

The stack of a new program is one page. `exec` puts the argument strings at its top, one below the
other, each at a multiple of 16; below them it puts the array of pointers to the strings, ended by a
null pointer. The stack pointer is lowered by amounts that depend on the strings, and whether they
fit is found out afterwards. Here is where everything ends up, and that nothing is written outside
of the page, whether the block fits or not.

`execImage` and `execBlock` are the parts of `kexec` before and during this, so that one can say
what the second of them writes.
-/

namespace Xv6

open Prog

/-! ### Numbers in bytes -/

theorem leNat_leBytes : ∀ (n x : ℕ), leNat (leBytes n x) = x % 256 ^ n
  | 0, x => by
    rw [pow_zero, Nat.mod_one]
    rfl
  | n + 1, x => by
    have hstep : leBytes (n + 1) x = BitVec.ofNat 8 x :: leBytes n (x / 256) := by
      rw [leBytes, List.range_succ_eq_map, List.map_cons, List.map_map, pow_zero, Nat.div_one]
      refine congrArg _ (List.map_congr_left fun j _ => ?_)
      rw [Function.comp_apply, Nat.succ_eq_add_one, pow_succ', Nat.div_div_eq_div_mul]
    have hunfold : ∀ (b : Byte) (bs : List Byte), leNat (b :: bs) = b.toNat + 256 * leNat bs :=
      fun _ _ => rfl
    rw [hstep, hunfold, leNat_leBytes n, BitVec.toNat_ofNat, pow_succ' 256 n, Nat.mod_mul]

/-! ### Reading a page that was written -/

section Page

variable {pg : Page} {off off' len : ℕ} {bs : List Byte}

theorem getElem_readBytes (pg : Page) (off : ℕ) {n j : ℕ} (hj : j < (readBytes pg off n).length) :
    (readBytes pg off n)[j] = byteAt pg (off + j) := by
  simp only [readBytes, List.getElem_map, List.getElem_range]

theorem readBytes_writeBytes (pg : Page) (off : ℕ) (bs : List Byte)
    (h : off + bs.length ≤ pgsize) :
    readBytes (writeBytes pg off bs) off bs.length = bs := by
  refine List.ext_getElem (length_readBytes _ _ _) fun j hj hj' => ?_
  rw [getElem_readBytes, byteAt_writeBytes pg off bs (by omega : off + j < pgsize),
    if_pos (by omega), Nat.add_sub_cancel_left, List.getD_eq_getElem?_getD,
    List.getElem?_eq_getElem hj']
  rfl

theorem readBytes_writeBytes_of_disjoint (hfit : off + len ≤ pgsize)
    (h : off + len ≤ off' ∨ off' + bs.length ≤ off) :
    readBytes (writeBytes pg off' bs) off len = readBytes pg off len := by
  refine List.map_congr_left fun j hj => ?_
  rw [List.mem_range] at hj
  rw [byteAt_writeBytes pg off' bs (by omega : off + j < pgsize), if_neg (by omega)]

theorem readBytes_part (pg : Page) (off : ℕ) {i m n : ℕ} (h : i + m ≤ n) :
    readBytes pg (off + i) m = ((readBytes pg off n).drop i).take m := by
  refine List.ext_getElem ?_ fun j hj hj' => ?_
  · rw [List.length_take, List.length_drop, length_readBytes, length_readBytes]
    omega
  · rw [List.getElem_take, List.getElem_drop, getElem_readBytes, getElem_readBytes, Nat.add_assoc]

end Page

theorem take_drop_flatMap_leBytes : ∀ (us : List ℕ) (i : ℕ) {x : ℕ}, us[i]? = some x →
    ((us.flatMap (leBytes 8)).drop (8 * i)).take 8 = leBytes 8 x
  | [], i, x, h => absurd h.symm (by simp)
  | u :: us, 0, x, h => by
    obtain rfl : u = x := Option.some.inj h
    rw [List.flatMap_cons, Nat.mul_zero, List.drop_zero,
      List.take_append_of_le_length (length_leBytes 8 u).ge, List.take_of_length_le
      (length_leBytes 8 u).le]
  | u :: us, i + 1, x, h => by
    have hdrop : 8 * (i + 1) = (leBytes 8 u).length + 8 * i := by
      rw [length_leBytes]
      omega
    rw [List.flatMap_cons, hdrop, List.drop_length_add_append]
    exact take_drop_flatMap_leBytes us i h

/-! ### The layout -/

theorem blockSize_mod (argv : List (List Byte)) : blockSize argv % 16 = 0 := by
  have hstrings := stringsSize_mod argv
  have harray := up16_mod (8 * (argv.length + 1))
  rw [blockSize]
  omega

theorem le_blockSize (argv : List (List Byte)) :
    stringsSize argv + 8 * (argv.length + 1) ≤ blockSize argv :=
  Nat.add_le_add_left (le_up16 _) _

section Layout

variable {base : ℕ} (hbase : base % pgsize = 0)

include hbase

theorem mod_of_stack {a : ℕ} (hlo : base ≤ a) (hhi : a < base + pgsize) :
    a % pgsize = a - base := by
  rw [pgsize] at hbase hhi ⊢
  omega

/-- **The strings** leave what is above them and below them. -/
theorem readBytes_putArgs (argv : List (List Byte)) : ∀ {top : ℕ} {pg : Page},
    base + stringsSize argv ≤ top → top ≤ base + pgsize → ∀ {a len : ℕ},
    base ≤ a → a < base + pgsize → a + len ≤ base + pgsize →
    (top ≤ a ∨ a + len ≤ top - stringsSize argv) →
    readBytes (putArgs pg top argv) (a % pgsize) len = readBytes pg (a % pgsize) len := by
  induction argv with
  | nil =>
    intros
    rfl
  | cons s rest ih =>
    intro top pg hlo hhi a len hal hah hlen hapart
    have hcost := stringsSize_cons s rest
    have hround := le_up16 (s.length + 1)
    rw [putArgs, ih (by omega) (by omega) hal hah hlen (by omega)]
    have hmod := mod_of_stack hbase hal hah
    have hmod' : (top - up16 (s.length + 1)) % pgsize = top - up16 (s.length + 1) - base :=
      mod_of_stack hbase (by omega) (by omega)
    refine readBytes_writeBytes_of_disjoint (by omega) ?_
    rw [List.length_append, List.length_singleton]
    omega

/-- **Each string** is where its pointer says. -/
theorem putArgs_string (argv : List (List Byte)) : ∀ {top : ℕ} (pg : Page),
    base + stringsSize argv ≤ top → top ≤ base + pgsize →
    ∀ {i : ℕ} {s : List Byte} {p : ℕ}, argv[i]? = some s → (argPtrs top argv)[i]? = some p →
    top - stringsSize argv ≤ p ∧ p + (s.length + 1) ≤ top ∧
      readBytes (putArgs pg top argv) (p % pgsize) (s.length + 1) = s ++ [0] := by
  induction argv with
  | nil =>
    intro top pg _ _ i s p hs
    rw [List.getElem?_nil] at hs
    nomatch hs
  | cons s rest ih =>
    intro top pg hlo hhi i t p ht hp
    have hcost := stringsSize_cons s rest
    have hround := le_up16 (s.length + 1)
    rw [argPtrs] at hp
    rw [putArgs]
    cases i with
    | zero =>
      obtain rfl : s = t := Option.some.inj ht
      obtain rfl : top - up16 (s.length + 1) = p := Option.some.inj hp
      have hlen : (s ++ [0]).length = s.length + 1 := by
        rw [List.length_append, List.length_singleton]
      have hmod : (top - up16 (s.length + 1)) % pgsize = top - up16 (s.length + 1) - base :=
        mod_of_stack hbase (by omega) (by omega)
      have hread := readBytes_writeBytes pg ((top - up16 (s.length + 1)) % pgsize) (s ++ [0])
        (by omega)
      rw [hlen] at hread
      refine ⟨by omega, by omega, ?_⟩
      rw [readBytes_putArgs hbase rest (by omega) (by omega) (by omega) (by omega) (by omega)
        (Or.inl le_rfl), hread]
    | succ i =>
      rw [List.getElem?_cons_succ] at ht hp
      obtain ⟨hle, hge, hread⟩ := ih
        (writeBytes pg ((top - up16 (s.length + 1)) % pgsize) (s ++ [0]))
        (by omega) (by omega) ht hp
      exact ⟨by omega, by omega, hread⟩

/-- **The strings do not overlap**: each is below the ones before it. -/
theorem argPtrs_apart (argv : List (List Byte)) : ∀ {top : ℕ},
    base + stringsSize argv ≤ top → top ≤ base + pgsize →
    ∀ {i j : ℕ} {t : List Byte} {p q : ℕ}, i < j → argv[j]? = some t →
    (argPtrs top argv)[i]? = some p → (argPtrs top argv)[j]? = some q →
    q + (t.length + 1) ≤ p := by
  induction argv with
  | nil =>
    intro top _ _ i j t p q _ ht
    rw [List.getElem?_nil] at ht
    nomatch ht
  | cons s rest ih =>
    intro top hlo hhi i j t p q hij ht hp hq
    have hcost := stringsSize_cons s rest
    rw [argPtrs] at hp hq
    cases j with
    | zero => exact absurd hij (Nat.not_lt_zero i)
    | succ j =>
      rw [List.getElem?_cons_succ] at ht hq
      cases i with
      | zero =>
        obtain rfl : top - up16 (s.length + 1) = p := Option.some.inj hp
        exact (putArgs_string hbase rest (fill 0) (by omega) (by omega) ht hq).2.1
      | succ i =>
        rw [List.getElem?_cons_succ] at hp
        exact ih (by omega) (by omega) (Nat.lt_of_succ_lt_succ hij) ht hp hq

/-- **The array of pointers** is below the strings. -/
theorem putBlock_words {argv : List (List Byte)} {pg : Page} (hfit : blockSize argv ≤ pgsize) :
    readBytes (putBlock pg (base + pgsize) argv) ((base + pgsize - blockSize argv) % pgsize)
        (8 * (argv.length + 1))
      = (argPtrs (base + pgsize) argv ++ [0]).flatMap (leBytes 8) := by
  have hlen := length_argWords (base + pgsize) argv
  have hsize := le_blockSize argv
  have hmod : (base + pgsize - blockSize argv) % pgsize = base + pgsize - blockSize argv - base :=
    mod_of_stack hbase (by omega) (by omega)
  rw [putBlock, ← hlen]
  exact readBytes_writeBytes _ _ _ (by omega)

theorem putBlock_string {argv : List (List Byte)} (pg : Page) (hfit : blockSize argv ≤ pgsize)
    {i : ℕ} {s : List Byte} {p : ℕ} (hs : argv[i]? = some s)
    (hp : (argPtrs (base + pgsize) argv)[i]? = some p) :
    base + pgsize - blockSize argv + 8 * (argv.length + 1) ≤ p ∧
      p + (s.length + 1) ≤ base + pgsize ∧
      readBytes (putBlock pg (base + pgsize) argv) (p % pgsize) (s.length + 1) = s ++ [0] := by
  have hlen := length_argWords (base + pgsize) argv
  have hsize := le_blockSize argv
  obtain ⟨hle, hge, hread⟩ := putArgs_string hbase argv pg (by omega) le_rfl hs hp
  have hmod : (base + pgsize - blockSize argv) % pgsize = base + pgsize - blockSize argv - base :=
    mod_of_stack hbase (by omega) (by omega)
  have hmod' : p % pgsize = p - base := mod_of_stack hbase (by omega) (by omega)
  refine ⟨by omega, hge, ?_⟩
  rw [putBlock, readBytes_writeBytes_of_disjoint (by omega) (by omega), hread]

end Layout

/-! ### The new image -/

section Image

variable {extra : Multiset ℕ} {k : Kernel} {me : Fin nproc} {root tf n : ℕ} {v : Vm}

theorem StackImage.logical_stack (h : StackImage extra k root tf n v) :
    logical v root (n + 1) = stackPage root n v :=
  contents_valid (h.mapped _ h.top_lt.1)

/-- Writing the page of the stack leaves the other pages of the image. -/
theorem StackImage.logical_setStack (h : StackImage extra k root tf n v) (pg : Page) {u : ℕ}
    (hu : u < userPages) (hne : u ≠ n + 1) :
    logical (v.setStack root n pg) root u = logical v root u := by
  have hlook := congrFun (h.lookup_setStack pg) u
  obtain ⟨hlt, hn⟩ := h.top_lt
  rw [logical, logical, hlook]
  cases hval : (lookup v.kmem.mem root u).has pteV with
  | false =>
    rw [contents, contents, hval, if_neg Bool.false_ne_true, if_neg Bool.false_ne_true,
      Vm.setStack_swapArea]
  | true =>
    rw [contents_valid hval, contents_valid hval]
    refine Kmem.setPage_mem_of_ne _ _ fun heq => hne ?_
    exact h.inv.frame_inj (Multiset.mem_cons_self _ _) hu hn hval (h.mapped _ hlt) heq

end Image

/-- **An argument block that is well formed**, in the memory of process `me`, with its pointers. -/
structure ArgBlock (k : Kernel) (me : Fin nproc) (argv : List (List Byte)) (root sp : ℕ)
    (ptrs : List ℕ) : Prop where
  pagetable : (k.proc me).pagetable = some root
  aligned : sp % 16 = 0
  low : (k.proc me).sz - pgsize ≤ sp
  high : sp < (k.proc me).sz
  argc : ptrs.length = argv.length
  /-- The array of pointers. -/
  words : ∀ (i : ℕ) p, (ptrs ++ [0])[i]? = some p →
    leNat (logicalBytes k.vm root (sp + 8 * i) 8) = p
  /-- The strings, above the array and below the end of the stack. -/
  strings : ∀ (i : ℕ) s p, argv[i]? = some s → ptrs[i]? = some p →
    sp + 8 * (argv.length + 1) ≤ p ∧ p + (s.length + 1) ≤ (k.proc me).sz ∧
      logicalBytes k.vm root p (s.length + 1) = s ++ [0]
  apart : ∀ (i j : ℕ) t p q, i < j → argv[j]? = some t → ptrs[i]? = some p → ptrs[j]? = some q →
    q + (t.length + 1) ≤ p
  /-- The registers with which the program starts. -/
  registers : ∃ tf, (k.proc me).trapframe = some tf ∧
    entry k.vm.kmem.mem tf regA1 = BitVec.ofNat 64 sp ∧
    entry k.vm.kmem.mem tf regSp = BitVec.ofNat 64 sp
  /-- The program may read and write its stack. -/
  stack : (lookup k.vm.kmem.mem root (sp / pgsize)).has pteU = true ∧
    (lookup k.vm.kmem.mem root (sp / pgsize)).has pteW = true

/-- From `k₁` to `k₂` only the page of the stack of an image of size `sz1` was written. -/
structure StackOnly (root sz1 : ℕ) (k₁ k₂ : Kernel) : Prop where
  page : ∃ n pg, sz1 = (n + 2) * pgsize ∧ k₂ = k₁.setVm (k₁.vm.setStack root n pg)
  below : ∀ a < sz1 - pgsize, logicalByte k₂.vm root a = logicalByte k₁.vm root a

section Exec

variable {extra : Multiset ℕ} {k k' : Kernel} {me : Fin nproc} {root tf n : ℕ} {v : Vm}
  {argv : List (List Byte)}

theorem StackImage.stackOnly (h : StackImage extra k root tf n v) (pg : Page) :
    StackOnly root ((n + 2) * pgsize) (k.setVm v) (k.setVm (v.setStack root n pg)) := by
  have hfits := h.fits
  rw [pagesOf_mul] at hfits
  refine ⟨⟨n, pg, rfl, rfl⟩, fun a ha => ?_⟩
  have hpage : a / pgsize < n + 1 := by
    have hsucc : (n + 2) * pgsize = (n + 1) * pgsize + pgsize := Nat.succ_mul _ _
    exact Nat.div_lt_of_lt_mul (by rw [Nat.mul_comm]; omega)
  rw [logicalByte, logicalByte, Kernel.setVm_vm, Kernel.setVm_vm,
    h.logical_setStack pg (by omega) hpage.ne]

/-- **The argument block of a successful `exec`.** -/
theorem Execed.argBlock (he : Execed extra me root n k k')
    (htf : (k.proc me).trapframe = some tf) (hi : StackImage extra k root tf n v)
    (hfit : BlockFits argv)
    (hs : Started root tf ((n + 2) * pgsize - blockSize argv)
      (v.setStack root n (putBlock (stackPage root n v) ((n + 2) * pgsize) argv)) k') :
    ArgBlock k' me argv root ((n + 2) * pgsize - blockSize argv)
      (argPtrs ((n + 2) * pgsize) argv) := by
  obtain ⟨hlt, hu⟩ := hi.top_lt
  have hbase : (n + 1) * pgsize % pgsize = 0 := Nat.mul_mod_left _ _
  have hsucc : (n + 2) * pgsize = (n + 1) * pgsize + pgsize := Nat.succ_mul _ _
  have hsz : (k'.proc me).sz = (n + 2) * pgsize := by rw [he.proc]
  have hpage : logical k'.vm root (n + 1)
      = putBlock (stackPage root n v) ((n + 2) * pgsize) argv := by
    rw [(hs.image (n + 1) hu).2, (hi.setStack _).logical_stack, hi.stackPage_setStack]
  have hdiv : ∀ {a : ℕ}, (n + 1) * pgsize ≤ a → a < (n + 1) * pgsize + pgsize →
      a / pgsize = n + 1 := fun hlo hhi => by
    rw [pgsize] at hlo hhi ⊢
    omega
  -- reading on the page of the stack
  have hread : ∀ {a len : ℕ}, (n + 1) * pgsize ≤ a → a < (n + 1) * pgsize + pgsize →
      a + len ≤ (n + 1) * pgsize + pgsize → logicalBytes k'.vm root a len
        = readBytes (putBlock (stackPage root n v) ((n + 1) * pgsize + pgsize) argv)
            (a % pgsize) len := by
    intro a len hlo hhi hlen
    have hmod := mod_of_stack hbase hlo hhi
    rw [logicalBytes_page k'.vm root (by omega), hdiv hlo hhi, hpage, hsucc]
  have hsize := le_blockSize argv
  have hblock := hfit.2
  have hsmall : (n + 1) * pgsize + pgsize < 2 ^ 64 := by
    rw [← hsucc]
    exact hi.toImage.le_trapframeVa.trans_lt (by decide)
  have hstring : ∀ (i : ℕ) s p, argv[i]? = some s →
      (argPtrs ((n + 1) * pgsize + pgsize) argv)[i]? = some p → _ :=
    fun i s p => putBlock_string hbase (stackPage root n v) hblock
  rw [hsucc] at hs hsz ⊢
  refine ⟨by rw [he.proc], ?_, ?_, ?_, length_argPtrs _ _, fun i p hp => ?_,
    fun i s p hs' hp => ?_, fun i j t p q hij ht hp hq => ?_, ⟨tf, ?_, hs.a1, hs.sp⟩, ?_⟩
  · have hmod := blockSize_mod argv
    have halign : ((n + 1) * pgsize + pgsize) % 16 = 0 := by
      rw [← hsucc, Nat.mul_mod, show pgsize % 16 = 0 from rfl, Nat.mul_zero, Nat.zero_mod]
    omega
  · rw [hsz]
    omega
  · rw [hsz]
    omega
  · -- the words are parts of what was written as one array
    have hi' : i < argv.length + 1 := by
      have := (List.getElem?_eq_some_iff.mp hp).1
      rwa [List.length_append, length_argPtrs, List.length_singleton] at this
    have hsmall' : p < 256 ^ 8 := by
      rcases Nat.lt_or_ge i argv.length with hlti | hge
      · rw [List.getElem?_append_left (by rwa [length_argPtrs])] at hp
        have := (hstring i _ p (List.getElem?_eq_getElem hlti) hp).2.1
        omega
      · obtain rfl : i = argv.length := by omega
        rw [List.getElem?_append_right (length_argPtrs _ _).le, length_argPtrs, Nat.sub_self] at hp
        obtain rfl : 0 = p := Option.some.inj hp
        decide
    have hmod := mod_of_stack hbase
      (show (n + 1) * pgsize ≤ (n + 1) * pgsize + pgsize - blockSize argv by omega) (by omega)
    have hmod' := mod_of_stack hbase
      (show (n + 1) * pgsize ≤ (n + 1) * pgsize + pgsize - blockSize argv + 8 * i by omega)
      (by omega)
    rw [hread (by omega) (by omega) (by omega),
      show ((n + 1) * pgsize + pgsize - blockSize argv + 8 * i) % pgsize
        = ((n + 1) * pgsize + pgsize - blockSize argv) % pgsize + 8 * i by omega,
      readBytes_part _ _ (show 8 * i + 8 ≤ 8 * (argv.length + 1) by omega),
      putBlock_words hbase hblock, take_drop_flatMap_leBytes _ _ hp, leNat_leBytes,
      Nat.mod_eq_of_lt hsmall']
  · obtain ⟨hle, hge, hbytes⟩ := hstring i s p hs' hp
    rw [hsz]
    refine ⟨hle, hge, ?_⟩
    rw [hread (by omega) (by omega) hge, hbytes]
  · exact argPtrs_apart hbase argv (by omega) le_rfl hij ht hp hq
  · rw [he.proc]
    exact htf
  · rw [hdiv (by omega) (by omega)]
    exact ⟨he.access, he.write⟩

/-- **The argument block of `exec` is well formed.** From every reachable state, for every file and
all arguments, fewer than `MAXARG` and each shorter than a page, `exec` ends without a panic. If it
succeeds, it returns the number of arguments, and they are in the new memory as they should be. If
they do not fit in the page of the stack, it returns -1. However that is, once the image with its
stack is built, nothing is written below the stack. -/
theorem Reachable.arguments_well_formed {b : Boot} (h : Reachable b k)
    (hme : (k.proc me).state = .running) (file : Option (List Byte)) (argv : List (List Byte))
    (_hargc : argv.length < maxarg) (hargs : ∀ s ∈ argv, s.length < pgsize) :
    ∃ r k', kexec me file argv k = .ok (r, k') ∧
      (∀ argc, r = some argc → argc = argv.length ∧
        ∃ root sp ptrs, ArgBlock k' me argv root sp ptrs) ∧
      (pgsize < blockSize argv → r = none) ∧
      ∀ root sz1 entry k₁, execImage me file k = .ok (some (root, sz1, entry), k₁) →
        ∃ block k₂, execBlock me root sz1 argv k₁ = .ok (block, k₂) ∧ StackOnly root sz1 k₁ k₂ ∧
          (pgsize < blockSize argv → block = none) := by
  obtain ⟨hinv, hc⟩ := h.ok
  obtain ⟨⟨old, hroot⟩, tf, htf⟩ := hc me (by rw [hme]; exact ProcState.noConfusion)
  have hspec : wp (kexec me file argv) (fun r k' =>
      (∀ argc, r = some argc → argc = argv.length ∧
        ∃ root sp ptrs, ArgBlock k' me argv root sp ptrs) ∧
      (pgsize < blockSize argv → r = none)) (fun _ => False) k := by
    rw [kexec]
    refine wp_seq (execImage_spec hinv htf) ?_
    rintro (_ | ⟨root, sz1, entry⟩) k₁ h₁
    · exact ⟨fun argc hno => absurd hno.symm (Option.some_ne_none argc), fun _ => rfl⟩
    obtain ⟨n, v, rfl, rfl, hstack, -⟩ := h₁
    dsimp only
    rw [execEnd]
    refine wp_seq (execBlock_spec hstack hargs) ?_
    rintro r k₂ ⟨pg, rfl, ⟨hfit, rfl, rfl⟩ | ⟨-, rfl⟩⟩
    · refine execCommit_spec hinv hroot htf (hstack.setStack _) fun k' hk' hs _ => ⟨?_, ?_⟩
      · intro argc hargc
        obtain rfl : argv.length = argc := Option.some.inj hargc
        exact ⟨rfl, root, _, _, hk'.argBlock htf hstack hfit hs⟩
      · exact fun hbig => absurd hfit.2 (Nat.not_le.mpr hbig)
    · refine execBad_spec hinv (hstack.setStack pg).toImage fun k' _ => ?_
      exact ⟨fun argc hno => absurd hno.symm (Option.some_ne_none argc), fun _ => rfl⟩
  obtain ⟨r, k', hrun, hdone, hbig⟩ := exists_of_wp hspec
  refine ⟨r, k', hrun, hdone, hbig, fun root sz1 entry k₁ himage => ?_⟩
  have hbuilt : wp (execImage me file) _ (fun _ => False) k := execImage_spec hinv htf
  rw [wp_of_ok himage] at hbuilt
  obtain ⟨n, v, rfl, rfl, hstack, -⟩ := hbuilt
  obtain ⟨block, k₂, hblock, pg, rfl, hwhich⟩ := exists_of_wp
    (show wp (execBlock me root _ argv) _ (fun _ => False) _ from
      execBlock_spec hstack hargs)
  refine ⟨block, _, hblock, hstack.stackOnly pg, fun hlarge => ?_⟩
  rcases hwhich with ⟨hfit, -, -⟩ | ⟨-, hnone⟩
  · exact absurd hfit.2 (Nat.not_le.mpr hlarge)
  · exact hnone

end Exec

/-- The first process replaces itself by `/init` once more, with two arguments, and succeeds. -/
theorem arguments_well_formed_small : ∃ (k : Kernel) (me : Fin nproc) (k' : Kernel),
    Reachable .small k ∧
    kexec me (some Boot.small.init) [initPath, [0x2f]] k = .ok (some 2, k') ∧
    ∃ root sp ptrs, ArgBlock k' me [initPath, [0x2f]] root sp ptrs := by
  obtain ⟨me, root, k, hboot, hb, hfree⟩ := Boot.small_boots
  have hreach : Reachable .small k := .boot hboot
  obtain ⟨r, k', hrun, hdone, -⟩ := Reachable.arguments_well_formed hreach hb.state
    (some Boot.small.init) [initPath, [0x2f]] (by decide) (by decide)
  obtain ⟨hinv, hc⟩ := hreach.ok
  obtain ⟨⟨old, hroot⟩, tf, htf⟩ := hc me (by rw [hb.state]; exact ProcState.noConfusion)
  have hsucceeds : wp (kexec me (some Boot.small.init) [initPath, [0x2f]])
      (fun r _ => r = some 2) (fun _ => False) k := by
    refine kexec_spec hinv hroot htf (by decide) (fun k' _ hwhy => ?_) fun _ _ _ _ _ => rfl
    have hsizes : argsSize [initPath, [0x2f]] = 38 := by decide
    have := hwhy ⟨_, rfl, Boot.small_segmentless⟩
    rw [hsizes, maxarg, pgsize] at this
    simp only [List.length_cons, List.length_nil] at this
    omega
  rw [wp_of_ok hrun] at hsucceeds
  subst hsucceeds
  exact ⟨k, me, k', hreach, hrun, (hdone 2 rfl).2⟩

end Xv6
