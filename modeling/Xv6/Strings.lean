import Xv6.Pointers

/-!
# Strings of system calls

`copyinstr` against the memory of the process. A string of the process is what one reads byte by
byte up to a null, through pages that user code may access, wherever they are: in a frame, in the
swap area, or nowhere yet. `copyinstr` reads through pages that are in a frame only, since it asks
`walkaddr` and does nothing about a page that is not there. So it finds the string iff all of its
pages are resident.
-/

namespace Xv6

open Prog

/-! ### Strings in a memory -/

/-- The string at an address: the bytes before the first null, which is to be found within `max`
bytes. There is none if a byte before that is missing. -/
def cstring (f : ℕ → Option Byte) : ℕ → ℕ → Option (List Byte)
  | _, 0 => none
  | va, max + 1 =>
    match f va with
    | none => none
    | some c => if c = 0 then some [] else (cstring f (va + 1) max).map (c :: ·)

section Strings

variable {f g : ℕ → Option Byte} {va max : ℕ} {s : List Byte} {c : Byte}

theorem cstring_missing (h : f va = none) : cstring f va max = none := by
  cases max with
  | zero => rfl
  | succ max => rw [cstring, h]

theorem cstring_null (h : f va = some 0) : cstring f va (max + 1) = some [] := by
  rw [cstring, h]
  rfl

theorem cstring_cons (h : f va = some c) (hc : c ≠ 0) :
    cstring f va (max + 1) = (cstring f (va + 1) max).map (c :: ·) := by
  rw [cstring, h]
  exact if_neg hc

/-- Reading a stretch of bytes that are all there. -/
theorem cstring_add (f : ℕ → Option Byte) (max : ℕ) : ∀ (bytes : List Byte) (va : ℕ),
    (∀ j c, bytes[j]? = some c → f (va + j) = some c) →
    cstring f va (bytes.length + max)
      = if bytes.contains 0 then some (bytes.takeWhile (· != 0))
        else (cstring f (va + bytes.length) max).map (bytes ++ ·)
  | [], va, _ => by
    rw [List.length_nil, Nat.zero_add, Nat.add_zero, List.contains_nil, if_neg Bool.false_ne_true]
    exact Option.map_id.symm ▸ rfl
  | c :: bytes, va, h => by
    have hc : f va = some c := h 0 c rfl
    have hrest := cstring_add f max bytes (va + 1) fun j d hd => by
      rw [Nat.add_assoc, Nat.add_comm 1 j]
      exact h (j + 1) d hd
    rw [List.length_cons, Nat.add_right_comm]
    by_cases hzero : c = 0
    · subst hzero
      rw [cstring_null hc, if_pos (List.contains_iff_mem.mpr List.mem_cons_self)]
      rfl
    · have hkeep : (c != 0) = true := bne_iff_ne.mpr hzero
      have hmem : (c :: bytes).contains 0 = bytes.contains 0 := by
        rw [List.contains_cons, beq_eq_false_iff_ne.mpr (Ne.symm hzero), Bool.false_or]
      rw [cstring_cons hc hzero, hrest, hmem,
        List.takeWhile_cons_of_pos (p := fun x => x != 0) hkeep]
      split_ifs with hnull
      · rfl
      · rw [Option.map_map, Nat.add_assoc, Nat.add_comm 1]
        rfl

theorem cstring_present : ∀ {max va : ℕ} {s : List Byte}, cstring f va max = some s →
    ∀ j ≤ s.length, f (va + j) ≠ none
  | 0, _, _, h => nomatch h
  | max + 1, va, s, h => by
    intro j hj
    cases hf : f va with
    | none =>
      rw [cstring_missing hf] at h
      nomatch h
    | some c =>
      cases j with
      | zero =>
        rw [Nat.add_zero, hf]
        exact Option.some_ne_none c
      | succ j =>
        by_cases hc : c = 0
        · subst hc
          rw [cstring_null hf, Option.some_inj] at h
          subst h
          exact absurd hj (Nat.not_succ_le_zero j)
        · rw [cstring_cons hf hc, Option.map_eq_some_iff] at h
          obtain ⟨s', hs', rfl⟩ := h
          rw [← Nat.add_assoc, Nat.add_right_comm]
          exact cstring_present hs' j (Nat.le_of_succ_le_succ hj)

/-- **The string of a part of a memory**: it is that of the memory iff the string, if there is one,
is in that part. -/
theorem cstring_eq_iff (hfg : ∀ a, f a = none ∨ f a = g a) : ∀ {max va : ℕ},
    cstring f va max = cstring g va max ↔
      ∀ s, cstring g va max = some s → ∀ j ≤ s.length, f (va + j) ≠ none
  | 0, _ => iff_of_true rfl fun s hs => nomatch hs
  | max + 1, va => by
    constructor
    · intro heq s hs
      exact cstring_present (heq.trans hs)
    · intro h
      rcases hfg va with hf | hf
      · rw [cstring_missing hf]
        refine (Option.eq_none_iff_forall_ne_some.mpr fun s hs => ?_).symm
        exact h s hs 0 (Nat.zero_le _) hf
      · cases hg : g va with
        | none => rw [cstring_missing hg, cstring_missing (hf.trans hg)]
        | some c =>
          by_cases hc : c = 0
          · subst hc
            rw [cstring_null hg, cstring_null (hf.trans hg)]
          · rw [cstring_cons hg hc] at h ⊢
            rw [cstring_cons (hf.trans hg) hc]
            refine congrArg _ ((cstring_eq_iff hfg).mpr fun s hs j hj => ?_)
            rw [Nat.add_right_comm, Nat.add_assoc]
            exact h (c :: s) (by rw [hs]; rfl) (j + 1) (Nat.succ_le_succ hj)

end Strings

/-! ### The memory of a process -/

/-- User code may access page `vpn`, wherever it is: it is below the size of the process, and if it
is mapped then for the user. -/
def Accessible (k : Kernel) (me : Fin nproc) (root vpn : ℕ) : Prop :=
  vpn * pgsize < (k.proc me).sz ∧ ((lookup k.vm.kmem.mem root vpn).has pteV = true →
    (lookup k.vm.kmem.mem root vpn).has pteU = true)

instance (k : Kernel) (me : Fin nproc) (root vpn : ℕ) : Decidable (Accessible k me root vpn) :=
  inferInstanceAs (Decidable (_ ∧ _))

/-- The memory of a process: resident frame, swap slot, or zeros for a page that was never
touched. -/
def userByte (k : Kernel) (me : Fin nproc) (root a : ℕ) : Option Byte :=
  if Accessible k me root (a / pgsize) then some (logicalByte k.vm root a) else none

/-- The part of it that is in frames. -/
def residentByte (k : Kernel) (me : Fin nproc) (root a : ℕ) : Option Byte :=
  if (lookup k.vm.kmem.mem root (a / pgsize)).has pteV then userByte k me root a else none

/-- The string that a process has at an address. -/
def userString (k : Kernel) (me : Fin nproc) (root va max : ℕ) : Option (List Byte) :=
  cstring (userByte k me root) va max

section Memory

variable {k : Kernel} {me : Fin nproc} {root vpn va : ℕ}

theorem residentByte_or (a : ℕ) :
    residentByte k me root a = none ∨ residentByte k me root a = userByte k me root a := by
  rw [residentByte]
  split_ifs
  · exact Or.inr rfl
  · exact Or.inl rfl

theorem Ready.walkaddr_eq (h : Ready me root k) (vpn : ℕ) :
    onVm (onKmem (Xv6.walkaddr root (vpn * pgsize))) k
      = .ok (if Accessible k me root vpn ∧ (lookup k.vm.kmem.mem root vpn).has pteV = true then
          some (pte2pa (lookup k.vm.kmem.mem root vpn)) else none, k) := by
  obtain ⟨r, k', hrun, rfl, hg⟩ := exists_of_wp (h.walkaddr vpn)
  rw [hrun]
  cases r with
  | some x =>
    have hgrant := hg x rfl
    rw [if_pos ⟨⟨hgrant.below, fun _ => hgrant.user⟩, hgrant.valid⟩, hgrant.frame]
  | none =>
    rw [if_neg]
    rintro ⟨⟨hsz, hU⟩, hval⟩
    have hv : vpn < maxVpn :=
      lt_maxVpn ((lt_pagesOf hsz).trans_le (pagesOf_le (h.inv.size me)))
    have hfound : wp (onVm (onKmem (Xv6.walkaddr root (vpn * pgsize))))
        (fun r _ => r = userPage (lookup k'.vm.kmem.mem root vpn)) (fun _ => False) k' := by
      rw [wp_onVm, wp_onKmem]
      exact walkaddr_spec hv rfl
    rw [wp_of_ok hrun, userPage, if_pos ⟨hval, hU hval⟩] at hfound
    exact Option.some_ne_none _ hfound.symm

theorem residentByte_page {n : ℕ} (hacc : Accessible k me root (va / pgsize))
    (hval : (lookup k.vm.kmem.mem root (va / pgsize)).has pteV = true)
    (hfit : va % pgsize + n ≤ pgsize) {j : ℕ} {c : Byte}
    (hj : (readBytes (k.vm.kmem.mem (pte2pa (lookup k.vm.kmem.mem root (va / pgsize))))
      (va % pgsize) n)[j]? = some c) : residentByte k me root (va + j) = some c := by
  have hlt : j < n := by
    have := (List.getElem?_eq_some_iff.mp hj).1
    rwa [length_readBytes] at this
  have hpage : (va + j) / pgsize = va / pgsize := by
    rw [pgsize] at *
    omega
  rw [← contents_valid (v := k.vm) hval, ← logical, ← logicalBytes_page k.vm root hfit,
    logicalBytes, List.getElem?_map, List.getElem?_range hlt, Option.map_some] at hj
  rw [residentByte, userByte, hpage, if_pos hval, if_pos hacc]
  exact hj

theorem residentByte_eq_none
    (h : ¬(Accessible k me root (va / pgsize) ∧
      (lookup k.vm.kmem.mem root (va / pgsize)).has pteV = true)) :
    residentByte k me root va = none := by
  rw [residentByte, userByte]
  split_ifs with hval hacc
  · exact absurd ⟨hacc, hval⟩ h
  · rfl
  · rfl

/-- **`copyinstr` reads the resident part** of the memory. -/
theorem Ready.copyinstr_eq (h : Ready me root k) : ∀ (fuel va max : ℕ), max ≤ fuel →
    copyinstrFrom root fuel va max k = .ok (cstring (residentByte k me root) va max, k)
  | 0, va, max, hmax => by
    obtain rfl : max = 0 := Nat.le_zero.mp hmax
    rfl
  | fuel + 1, va, max, hmax => by
    rw [copyinstrFrom]
    by_cases hzero : max = 0
    · rw [if_pos hzero, hzero]
      rfl
    rw [if_neg hzero]
    dsimp only
    rw [pgrounddown, bind_of_ok (h.walkaddr_eq _)]
    split_ifs with hres
    · dsimp only
      rw [sub_pgrounddown, copyinMove, bind_assoc, bind_of_ok rfl, pure_bind,
        show min (pgsize - va % pgsize) max = onPage va max from rfl]
      set bytes : List Byte := readBytes
        (k.vm.kmem.mem (pte2pa (lookup k.vm.kmem.mem root (va / pgsize)))) (va % pgsize)
        (onPage va max) with hbytes
      have hlength : bytes.length = onPage va max := length_readBytes _ _ _
      have hsplit := cstring_add (residentByte k me root) (max - onPage va max) bytes va
        fun j c => residentByte_page hres.1 hres.2 (mod_add_onPage_le va max)
      have hle := onPage_le va max
      have hpos := onPage_pos va hzero
      rw [hlength, Nat.add_sub_cancel' hle] at hsplit
      rw [hsplit]
      split_ifs with hnull
      · rfl
      · have hnext : cstring (residentByte k me root) (va / pgsize * pgsize + pgsize)
            (max - onPage va max)
              = cstring (residentByte k me root) (va + onPage va max) (max - onPage va max) := by
          rcases hle.lt_or_eq with hlt | heq
          · rw [add_onPage hlt, pgrounddown]
          · rw [heq, Nat.sub_self]
            rfl
        rw [bind_of_ok (h.copyinstr_eq fuel _ _ (by omega)), hnext]
        cases cstring (residentByte k me root) (va + onPage va max) (max - onPage va max) with
        | none => rfl
        | some rest => rfl
    · rw [cstring_missing (residentByte_eq_none hres)]
      rfl

end Memory

/-! ### Reachable states -/

/-- What `copyinstr` should do: if the process has a string, return 0 with the string and its null
in the buffer, and otherwise return -1. -/
def StringFound (string : Option (List Byte)) (written : List Byte) (ok : Bool) : Prop :=
  match string with
  | some s => ok = true ∧ written = s ++ [0]
  | none => ok = false

/-- All pages of a string, up to that of its null, are resident. -/
def StringResident (k : Kernel) (root va : ℕ) (s : List Byte) : Prop :=
  ∀ j ≤ s.length, (lookup k.vm.kmem.mem root ((va + j) / pgsize)).has pteV = true

section Reachable

variable {b : Boot} {k : Kernel} {me : Fin nproc} {root : ℕ}

/-- The string of the resident part is that of the process iff it is resident. -/
theorem stringResident_iff (va max : ℕ) :
    cstring (residentByte k me root) va max = userString k me root va max ↔
      ∀ s, userString k me root va max = some s → StringResident k root va s := by
  rw [userString, cstring_eq_iff residentByte_or]
  refine forall_congr' fun s => imp_congr_right fun hs => forall_congr' fun j => ?_
  refine imp_congr_right fun hj => ?_
  rw [residentByte]
  split_ifs with hval
  · exact iff_of_true (cstring_present hs j hj) hval
  · exact iff_of_false (fun hne => hne rfl) hval

/-- What was found is what is to be found iff the strings are equal. -/
theorem stringFound_iff {found string : Option (List Byte)} {written : List Byte} {ok : Bool}
    (hends : ok = true → ∃ s, written = s ++ [0])
    (hfound : found = if ok then some written.dropLast else none) :
    StringFound string written ok ↔ found = string := by
  cases ok with
  | false =>
    rw [hfound, if_neg Bool.false_ne_true]
    cases string with
    | none => exact iff_of_true rfl rfl
    | some s =>
      exact iff_of_false (fun hh => nomatch hh.1) (Option.some_ne_none s).symm
  | true =>
    obtain ⟨w, rfl⟩ := hends rfl
    rw [hfound, if_pos rfl, List.dropLast_concat]
    cases string with
    | none =>
      exact iff_of_false (fun hh => nomatch hh.symm) (Option.some_ne_none w)
    | some s =>
      rw [Option.some_inj]
      constructor
      · exact fun hh => List.append_cancel_right hh.2
      · rintro rfl
        exact ⟨rfl, rfl⟩

/-- **Strings are found iff they are resident.** From every reachable state and at all addresses,
`copyinstr` writes at most `max` bytes and changes nothing; and it returns the string of the process
at that address exactly when there is none or all of its pages are resident. -/
theorem Reachable.strings_exact (h : Reachable b k) (hroot : (k.proc me).pagetable = some root)
    (va max : ℕ) :
    ∃ written ok t, copyinstrTraced root max va max ⟨k, []⟩ = .ok ((written, ok), t) ∧
      t.kernel = k ∧ written.length ≤ max ∧
      (StringFound (userString k me root va max) written ok ↔
        ∀ s, userString k me root va max = some s → StringResident k root va s) := by
  have hready := h.ready hroot
  obtain ⟨⟨written, ok⟩, t, hrun, -, hlen, hends, hsame, hfound⟩ :=
    exists_of_wp (copyinstrTraced_spec max va max (t := ⟨k, []⟩) hready le_rfl)
  rw [hready.copyinstr_eq max va max le_rfl, Except.ok.injEq, Prod.mk.injEq] at hfound
  refine ⟨written, ok, t, hrun, hsame, hlen, ?_⟩
  rw [stringFound_iff hends hfound.1, stringResident_iff]

end Reachable

/-! ### A string that is not resident -/

section Lazy

variable {i : Fin nproc} {root : ℕ} {k : Kernel}

/-- A page of zeros is an empty string. -/
theorem Filled.userString_zero {perm : Pte} {pg : Page} {n : ℕ} (hf : Filled perm pg i root n k)
    {u : ℕ} (hlt : u < fillPages) (hacc : (lookup k.vm.kmem.mem root u).has pteV = true →
      (lookup k.vm.kmem.mem root u).has pteU = true)
    (hzero : logical k.vm root u = fill 0) (max : ℕ) :
    userString k i root (u * pgsize) (max + 1) = some [] := by
  have hpage : u * pgsize / pgsize = u := Nat.mul_div_cancel _ (by decide)
  have hacc : Accessible k i root u := by
    refine ⟨?_, hacc⟩
    rw [hf.sz]
    exact Nat.mul_lt_mul_of_pos_right hlt (by decide)
  refine cstring_null ?_
  rw [userByte, hpage, if_pos hacc, logicalByte, hpage, hzero, Nat.mul_mod_left,
    byteAt_fill 0 (by decide)]

/-- A page that was never touched is an empty string. -/
theorem Filled.userString_untouched {perm : Pte} {pg : Page} {n : ℕ}
    (hf : Filled perm pg i root n k) {u : ℕ} (hu : n + 2 ≤ u) (hlt : u < fillPages) (max : ℕ) :
    userString k i root (u * pgsize) (max + 1) = some [] := by
  have hentry := hf.untouched u hu hlt
  refine hf.userString_zero hlt (fun hval => ?_) ?_ max
  · rw [hentry, Pte.has_zero] at hval
    cases hval
  · rw [logical, hentry, contents_lazy (Pte.has_zero _) (Pte.has_zero _)]

end Lazy

/-- A process that has touched one page above its stack: it finds the empty string that is there. -/
theorem strings_exact_touched : ∃ k me root t, Reachable .small k ∧
    copyinstrTraced root 16 (2 * pgsize) 16 ⟨k, []⟩ = .ok (([0], true), t) ∧ t.kernel = k ∧
    userString k me root (2 * pgsize) 16 = some [] := by
  obtain ⟨me, root, k, hreach, hf⟩ := filled_by_loads (n := 1) (by decide)
  have hval := hf.resident (by decide) Nat.one_pos
  have hstring : userString k me root (2 * pgsize) 16 = some [] := by
    refine hf.userString_zero (by decide) (fun _ => ?_) (hf.touched 0 Nat.one_pos).1 15
    obtain ⟨-, ⟨x, -, hx⟩ | hs⟩ := hf.touched 0 Nat.one_pos
    · rw [hx, Pte.has_mkPte _ _ (by decide)]
      rfl
    · cases ((hf.ok.inv.ownsSlot hf.pagetable (by decide) hs).invalid).symm.trans hval
  obtain ⟨written, ok, t, hrun, hsame, -, hiff⟩ :=
    Reachable.strings_exact hreach.reachable hf.pagetable (2 * pgsize) 16
  rw [hstring] at hiff
  obtain ⟨rfl, rfl⟩ := hiff.mpr fun s hs j hj => by
    obtain rfl := Option.some.inj hs
    obtain rfl := Nat.le_zero.mp hj
    exact hval
  exact ⟨k, me, root, t, hreach.reachable, hrun, hsame, hstring⟩

/-- **A string on a page that was not touched yet is not found**, with most of memory free. -/
theorem lazy_string_refused : ¬∀ (b : Boot) (k : Kernel) (me : Fin nproc) (root va max : ℕ),
    Reachable b k → (k.proc me).pagetable = some root → 3 ≤ k.freePages →
    ∃ written ok t, copyinstrTraced root max va max ⟨k, []⟩ = .ok ((written, ok), t) ∧
      StringFound (userString k me root va max) written ok := by
  intro hall
  obtain ⟨me, root, k, hreach, hf⟩ := filled_by_copies (n := 0) (Nat.zero_le _)
  have hfree := hf.free
  have hstring := hf.userString_untouched (u := 2) le_rfl (by decide) 15
  obtain ⟨written, ok, t, hrun, hfound⟩ :=
    hall .small k me root (2 * pgsize) 16 hreach hf.pagetable (by omega)
  have hready := hreach.ready hf.pagetable
  obtain ⟨⟨written', ok'⟩, t', hrun', -, -, hends, -, hsame⟩ :=
    exists_of_wp (copyinstrTraced_spec 16 (2 * pgsize) 16 (t := ⟨k, []⟩) hready le_rfl)
  rw [hrun, Except.ok.injEq, Prod.mk.injEq, Prod.mk.injEq] at hrun'
  obtain ⟨⟨rfl, rfl⟩, rfl⟩ := hrun'
  rw [hready.copyinstr_eq 16 (2 * pgsize) 16 le_rfl, Except.ok.injEq, Prod.mk.injEq] at hsame
  have hequal := (stringFound_iff hends hsame.1).mp hfound
  have hres := (stringResident_iff (2 * pgsize) 16).mp hequal [] hstring 0 le_rfl
  have hpage : (2 * pgsize + 0) / pgsize = 2 := by decide
  rw [hpage, hf.untouched 2 le_rfl (by decide), Pte.has_zero] at hres
  nomatch hres

end Xv6
