import Xv6.SpaceLife

/-!
# A page table is a finite map

What the functions on page tables do, for any tree of page-table pages and without the rest of the
paging state. The map of a tree is `lookup`, on the page numbers below `maxVpn`. `mappages` adds a
stretch of it, `uvmunmap` removes one, and `walk` changes the tree only where it means nothing.

The tree may be anything that is well formed. For `uvmunmap` with `do_free`, the pages that are
freed must not be pages of the tree itself: `kfree` overwrites them.
-/

namespace Xv6

open Prog

variable {root vpn : ℕ} {s : Kmem} {E : String → Prop}

/-! ### Mapping -/

/-- The map `f` with `k` pages from `vpn` on that refer to the pages from `pa` on. -/
def overlay (f : ℕ → Pte) (vpn pa : ℕ) (perm : Pte) (k u : ℕ) : Pte :=
  if vpn ≤ u ∧ u < vpn + k then mkPte (pa + (u - vpn) * pgsize) perm else f u

@[simp] theorem overlay_zero (f : ℕ → Pte) (vpn pa : ℕ) (perm : Pte) (u : ℕ) :
    overlay f vpn pa perm 0 u = f u := by
  rw [overlay, if_neg (by omega)]

theorem overlay_succ {f g : ℕ → Pte} {pa : ℕ} {perm : Pte} {k u : ℕ}
    (hself : u = vpn → g u = mkPte pa perm) (hother : u ≠ vpn → g u = f u) :
    overlay g (vpn + 1) (pa + pgsize) perm k u = overlay f vpn pa perm (k + 1) u := by
  by_cases hu : u = vpn
  · have hrest : overlay g (vpn + 1) (pa + pgsize) perm k u = g u := if_neg (by omega)
    rw [hrest, hself hu, overlay, if_pos (by omega), hu, Nat.sub_self, Nat.zero_mul, Nat.add_zero]
  · rw [overlay, overlay, hother hu]
    by_cases hin : vpn + 1 ≤ u ∧ u < vpn + 1 + k
    · have haddr : pa + pgsize + (u - (vpn + 1)) * pgsize = pa + (u - vpn) * pgsize := by
        have hsub : u - vpn = u - (vpn + 1) + 1 := by omega
        rw [hsub, Nat.add_mul, Nat.one_mul]
        omega
      rw [if_pos hin, if_pos (by omega), haddr]
    · rw [if_neg hin, if_neg (by omega)]

/-- What a call of `mappages` for `n + 1` pages has done: it has mapped `k` pages, which were not
mapped, and stopped early only because no memory is left. -/
structure Overlaid (root vpn pa : ℕ) (perm : Pte) (n : ℕ) (ok : Bool) (k : ℕ) (s s' : Kmem) :
    Prop where
  step : TreeStep root s s'
  count : if ok then k = n + 1 else k ≤ n ∧ s'.freelist = []
  unmapped : ∀ i < k, vpn + i < maxVpn ∧ (lookup s.mem root (vpn + i)).has pteV = false
  lookup_eq : ∀ u < maxVpn, lookup s'.mem root u = overlay (lookup s.mem root) vpn pa perm k u

/-- The pages can be mapped: they exist, and have no mapping. -/
def Mappable (root vpn n : ℕ) (s : Kmem) : Prop :=
  ∀ i ≤ n, vpn + i < maxVpn ∧ (lookup s.mem root (vpn + i)).has pteV = false

theorem mapPage_overlay (h : TreeReady root s) (pa : ℕ) (perm : Pte) :
    wp (mapPage root (vpn * pgsize) pa perm) (fun ok s' =>
      Overlaid root vpn pa perm 0 ok (if ok then 1 else 0) s s')
      (fun _ => ¬(vpn < maxVpn ∧ (lookup s.mem root vpn).has pteV = false)) s := by
  by_cases hv : vpn < maxVpn
  · cases hval : (lookup s.mem root vpn).has pteV with
    | true => exact mapPage_remap hv hval pa perm fun hfree => absurd hfree.2 (by simp)
    | false =>
      refine wp_imp (mapPage_spec h hv hval pa perm) ?_
      rintro ok s' ⟨hstep, hother, hself⟩
      cases ok with
      | true =>
        rw [if_pos rfl] at hself
        refine ⟨hstep, rfl, fun i hi => ?_, fun u hu => ?_⟩
        · obtain rfl : i = 0 := by rw [if_pos rfl] at hi; omega
          exact ⟨hv, hval⟩
        · rw [if_pos rfl, ← overlay_succ (g := lookup s'.mem root) (fun heq => heq ▸ hself.1)
            (hother u hu), overlay_zero]
      | false =>
        rw [if_neg Bool.false_ne_true] at hself
        refine ⟨hstep, ⟨le_rfl, hself.2.2⟩, fun i hi => absurd hi (by simp), fun u hu => ?_⟩
        rw [if_neg Bool.false_ne_true, overlay_zero]
        by_cases heq : u = vpn
        · rw [heq, hself.1]
        · exact hother u hu heq
  · have hpanic : maxva ≤ vpn * pgsize := by
      simp only [maxVpn] at hv
      simp only [maxva, pgsize]
      omega
    rw [mapPage, wp_bind, walk, if_pos hpanic, wp_panic]
    exact fun hfree => hv hfree.1

/-- **The loop of `mappages`.** -/
theorem mappagesFrom_overlay (perm : Pte) : ∀ (n : ℕ) {vpn pa : ℕ} {s : Kmem}, TreeReady root s →
    wp (mappagesFrom root (vpn * pgsize) pa perm n) (fun ok s' =>
      ∃ k, Overlaid root vpn pa perm n ok k s s') (fun _ => ¬Mappable root vpn n s) s := by
  intro n
  induction n with
  | zero =>
    intro vpn pa s h
    refine wp_mono (mapPage_overlay h pa perm) (fun ok s' hs' => ⟨_, hs'⟩) fun _ hbad hall =>
      hbad (hall 0 le_rfl)
  | succ n ih =>
    intro vpn pa s h
    rw [mappagesFrom, wp_bind]
    refine wp_mono (mapPage_overlay h pa perm) (fun ok s₁ hs₁ => ?_) fun _ hbad hall =>
      hbad (hall 0 (Nat.zero_le _))
    cases ok with
    | false =>
      exact ⟨0, hs₁.step, ⟨Nat.zero_le _, hs₁.count.2⟩, fun i hi => absurd hi (Nat.not_lt_zero i),
        hs₁.lookup_eq⟩
    | true =>
      have hone : ∀ u < maxVpn, lookup s₁.mem root u = overlay (lookup s.mem root) vpn pa perm 1 u :=
        hs₁.lookup_eq
      have hself : ∀ u < maxVpn, u = vpn → lookup s₁.mem root u = mkPte pa perm := by
        intro u hu heq
        rw [hone u hu, overlay, if_pos (by omega), heq, Nat.sub_self, Nat.zero_mul, Nat.add_zero]
      have hother : ∀ u < maxVpn, u ≠ vpn → lookup s₁.mem root u = lookup s.mem root u := by
        intro u hu hne
        rw [hone u hu, overlay, if_neg (by omega)]
      have hfirst := hs₁.unmapped 0 (by simp)
      have haddr : vpn * pgsize + pgsize = (vpn + 1) * pgsize := by rw [Nat.add_mul, Nat.one_mul]
      rw [if_pos rfl, haddr]
      refine wp_mono (ih (h.step hs₁.step)) (fun ok s₂ hs₂ => ?_) fun _ hbad hall =>
        hbad fun i hi => ?_
      · obtain ⟨k, hk⟩ := hs₂
        refine ⟨k + 1, hs₁.step.trans hk.step, ?_, fun i hi => ?_, fun u hu => ?_⟩
        · have hcount := hk.count
          cases ok with
          | true => exact congrArg (· + 1) hcount
          | false => exact ⟨Nat.succ_le_succ hcount.1, hcount.2⟩
        · cases i with
          | zero => exact hfirst
          | succ i =>
            have hnext := hk.unmapped i (by omega)
            rw [show vpn + 1 + i = vpn + (i + 1) by omega] at hnext
            rw [hother _ hnext.1 (by omega)] at hnext
            exact hnext
        · rw [hk.lookup_eq u hu]
          exact overlay_succ (hself u hu) (hother u hu)
      · have hnext := hall (i + 1) (by omega)
        rw [show vpn + (i + 1) = vpn + 1 + i by omega] at hnext
        rw [hother _ hnext.1 (by omega)]
        exact hnext

/-- **`mappages`** of `n + 1` pages. -/
theorem mappages_overlay (h : TreeReady root s) (vpn n pa : ℕ) (perm : Pte) :
    wp (mappages root (vpn * pgsize) ((n + 1) * pgsize) pa perm) (fun ok s' =>
      ∃ k, Overlaid root vpn pa perm n ok k s s') (fun _ => ¬Mappable root vpn n s) s := by
  have hva : vpn * pgsize % pgsize = 0 := Nat.mul_mod_left vpn pgsize
  have hsize : (n + 1) * pgsize % pgsize = 0 := Nat.mul_mod_left (n + 1) pgsize
  have hpos : (n + 1) * pgsize ≠ 0 := by
    simp only [pgsize]
    omega
  have hcount : (n + 1) * pgsize / pgsize - 1 = n := by
    rw [Nat.mul_div_cancel _ (by decide), Nat.add_sub_cancel]
  rw [mappages, if_neg (not_not.mpr hva), if_neg (not_not.mpr hsize), if_neg hpos, hcount]
  exact mappagesFrom_overlay perm n h

/-! ### Unmapping -/

/-- An entry that `uvmunmap` removes without a panic. -/
def Removable (sym : Symbols) (doFree : Bool) (e : Pte) : Prop :=
  e = 0#64 ∨ (e.has pteV = false ∧ e.has pteSwapped = true) ∨
    (e.has pteV = true ∧ pteFlags e ≠ pteV ∧ (doFree = true → pte2pa e ∈ physPages sym))

/-- The page `vpn` has been removed from the map of a tree. -/
structure Removed (root : ℕ) (gone : ℕ → Prop) (v v' : Vm) : Prop where
  tree : Tree v'.kmem.mem root
  sym : v'.kmem.sym = v.kmem.sym
  tables_eq : tables v'.kmem.mem root = tables v.kmem.mem root
  absent : ∀ u < maxVpn, gone u → lookup v'.kmem.mem root u = 0#64
  rest : ∀ u < maxVpn, ¬gone u → lookup v'.kmem.mem root u = lookup v.kmem.mem root u

variable {v v' : Vm} {doFree : Bool}

theorem Removed.ofSetLeaf (h : Tree v.kmem.mem root) (hv : vpn < maxVpn) {t : ℕ}
    (hl : leafTable v.kmem.mem root (pathOf vpn) = some t)
    (hk : v'.kmem = v.kmem.setPte ⟨t, slotOf vpn⟩ 0#64) : Removed root (· = vpn) v v' := by
  obtain ⟨hstep, hself, hother⟩ := setLeaf_step h hv hl 0#64
  refine ⟨?_, ?_, ?_, ?_, ?_⟩
  · rw [hk]
    exact hstep.tree
  · rw [hk]
    exact hstep.sym
  · rw [hk]
    exact h.tables_setLeaf hl
  · rintro u hu rfl
    rw [hk]
    exact hself
  · intro u hu hne
    rw [hk]
    exact hother u hu hne

/-- The page of the entry is freed, and the entry is cleared. -/
theorem Removed.ofFree (h : Tree v.kmem.mem root) (hv : vpn < maxVpn) {t pa : ℕ}
    (hl : leafTable v.kmem.mem root (pathOf vpn) = some t) (hpa : pa ∉ tables v.kmem.mem root)
    (hk : v'.kmem = ((v.kmem.setPage pa (fill 1)).push pa).setPte ⟨t, slotOf vpn⟩ 0#64) :
    Removed root (· = vpn) v v' := by
  have hagree : ∀ x ∈ tables v.kmem.mem root, (v.kmem.setPage pa (fill 1)).mem x = v.kmem.mem x :=
    update_agree hpa _
  have hmem : ((v.kmem.setPage pa (fill 1)).push pa).mem = (v.kmem.setPage pa (fill 1)).mem := rfl
  have htree : Tree ((v.kmem.setPage pa (fill 1)).push pa).mem root := by
    rw [hmem]
    exact h.congr hagree
  have hl' : leafTable ((v.kmem.setPage pa (fill 1)).push pa).mem root (pathOf vpn) = some t := by
    rw [hmem, leafTable_congr hagree]
    exact hl
  obtain ⟨hstep, hself, hother⟩ := setLeaf_step htree hv hl' 0#64
  refine ⟨?_, ?_, ?_, ?_, ?_⟩
  · rw [hk]
    exact hstep.tree
  · rw [hk]
    exact hstep.sym
  · rw [hk]
    exact (htree.tables_setLeaf hl').trans (tables_congr hagree)
  · rintro u hu rfl
    rw [hk]
    exact hself
  · intro u hu hne
    rw [hk, hother u hu hne, hmem, lookup_congr hagree]

theorem frametableRemove_kmem (pa : ℕ) :
    wp (frametableRemove pa) (fun _ v' => v'.kmem = v.kmem) E v := by
  rw [frametableRemove, wp_bind, wp_get]
  split
  · exact rfl
  · exact rfl

theorem swapFree_kmem (slot : ℕ) :
    wp (swapFree slot) (fun _ v' => v'.kmem = v.kmem) E v := by
  rw [swapFree]
  split
  · exact rfl
  · exact rfl

/-- A page that the allocator does not manage is the panic of `kfree`. -/
theorem kfree_bad {pa : ℕ} (h : pa ∉ physPages s.sym) {Q : Unit → Kmem → Prop} (hE : E "kfree") :
    wp (kfree pa) Q E s := by
  have hcheck : pa % pgsize ≠ 0 ∨ pa < s.sym.kend ∨ phystop ≤ pa := by
    rw [mem_physPages] at h
    simp only [pgsize]
    omega
  rw [kfree, wp_bind, wp_get, if_pos hcheck, wp_panic]
  exact hE

/-- **One iteration of `uvmunmap`.** -/
theorem unmapPage_erase (h : Tree v.kmem.mem root) (hv : vpn < maxVpn)
    (hown : doFree = true → (lookup v.kmem.mem root vpn).has pteV = true →
      pte2pa (lookup v.kmem.mem root vpn) ∉ tables v.kmem.mem root) :
    wp (unmapPage root (vpn * pgsize) doFree) (fun _ v' => Removed root (· = vpn) v v')
      (fun _ => ¬Removable v.kmem.sym doFree (lookup v.kmem.mem root vpn)) v := by
  have hstay : lookup v.kmem.mem root vpn = 0#64 → Removed root (· = vpn) v v := fun hzero =>
    ⟨h, rfl, rfl, fun u _ heq => heq ▸ hzero, fun _ _ _ => rfl⟩
  rw [unmapPage, wp_bind, wp_onKmem]
  refine walk_spec hv ?_
  cases hl : leafTable v.kmem.mem root (pathOf vpn) with
  | none => exact hstay (lookup_of_none hl)
  | some t =>
    simp only [Option.map_some, wp_bind, wp_onKmem, wp_readPte, Vm.setKmem_self,
      ← lookup_of_some hl]
    generalize he : lookup v.kmem.mem root vpn = e at hown ⊢
    cases hval : e.has pteV with
    | false =>
      rw [Bool.not_false, if_pos rfl]
      cases hsw : e.has pteSwapped with
      | true =>
        rw [if_pos rfl]
        refine wp_seq (swapFree_kmem _) fun _ v₁ hk => ?_
        rw [wp_onKmem, wp_writePte]
        exact Removed.ofSetLeaf h hv hl (by rw [Vm.setKmem_kmem, hk])
      | false =>
        rw [if_neg Bool.false_ne_true]
        by_cases hzero : e = 0#64
        · rw [if_pos hzero]
          exact hstay (he.trans hzero)
        · rw [if_neg hzero, wp_panic]
          rintro (hbad | ⟨-, hbad⟩ | ⟨hbad, -⟩)
          · exact hzero hbad
          · nomatch hsw.symm.trans hbad
          · nomatch hval.symm.trans hbad
    | true =>
      rw [Bool.not_true, if_neg Bool.false_ne_true]
      by_cases hleaf : pteFlags e = pteV
      · rw [if_pos hleaf, wp_panic]
        rintro (hbad | ⟨hbad, -⟩ | ⟨-, hbad, -⟩)
        · rw [hbad, Pte.has_zero] at hval
          nomatch hval
        · nomatch hbad.symm.trans hval
        · exact hbad hleaf
      rw [if_neg hleaf]
      cases doFree with
      | false =>
        rw [if_neg Bool.false_ne_true, wp_onKmem, wp_writePte]
        exact Removed.ofSetLeaf h hv hl rfl
      | true =>
        rw [if_pos rfl]
        refine wp_seq (frametableRemove_kmem _) fun _ v₁ hk => ?_
        rw [wp_bind, wp_onKmem]
        by_cases hpa : pte2pa e ∈ physPages v.kmem.sym
        · refine wp_imp (kfree_spec (by rw [hk]; exact hpa)) ?_
          rintro - k rfl
          rw [wp_onKmem, wp_writePte]
          exact Removed.ofFree h hv hl (hown rfl hval) (by rw [Vm.setKmem_kmem, Vm.setKmem_kmem, hk])
        · refine kfree_bad (by rw [hk]; exact hpa) ?_
          rintro (hbad | ⟨hbad, -⟩ | ⟨-, -, hbad⟩)
          · rw [hbad, Pte.has_zero] at hval
            nomatch hval
          · nomatch hbad.symm.trans hval
          · exact hpa (hbad rfl)

/-- The pages that are freed are not pages of the tree. -/
def FreesApart (root : ℕ) (doFree : Bool) (v : Vm) : Prop :=
  doFree = true → ∀ u < maxVpn, (lookup v.kmem.mem root u).has pteV = true →
    pte2pa (lookup v.kmem.mem root u) ∉ tables v.kmem.mem root

theorem Removed.freesApart {gone : ℕ → Prop} (h : Removed root gone v v')
    (hown : FreesApart root doFree v) : FreesApart root doFree v' := by
  intro hfree u hu hval
  by_cases hg : gone u
  · rw [h.absent u hu hg, Pte.has_zero] at hval
    nomatch hval
  · rw [h.rest u hu hg] at hval ⊢
    rw [h.tables_eq]
    exact hown hfree u hu hval

/-- **The loop of `uvmunmap`.** -/
theorem uvmunmapFrom_erase : ∀ (n : ℕ) {vpn : ℕ} {v : Vm}, Tree v.kmem.mem root →
    FreesApart root doFree v →
    wp (uvmunmapFrom root doFree (vpn * pgsize) n)
      (fun _ v' => Removed root (fun u => vpn ≤ u ∧ u < vpn + n) v v')
      (fun _ => ¬∀ i < n, vpn + i < maxVpn ∧
        Removable v.kmem.sym doFree (lookup v.kmem.mem root (vpn + i))) v := by
  intro n
  induction n with
  | zero =>
    intro vpn v h _
    rw [uvmunmapFrom, wp_pure]
    exact ⟨h, rfl, rfl, fun u _ hu => by omega, fun _ _ _ => rfl⟩
  | succ n ih =>
    intro vpn v h hown
    have haddr : vpn * pgsize + pgsize = (vpn + 1) * pgsize := by rw [Nat.add_mul, Nat.one_mul]
    rw [uvmunmapFrom, wp_bind, haddr]
    by_cases hv : vpn < maxVpn
    · refine wp_mono (unmapPage_erase h hv fun hfree hval => hown hfree vpn hv hval)
        (fun _ v₁ h₁ => ?_) fun _ hbad hall => hbad (hall 0 (Nat.succ_pos n)).2
      refine wp_mono (ih h₁.tree (h₁.freesApart hown)) (fun _ v₂ h₂ => ?_)
        fun _ hbad hall => hbad fun i hi => ?_
      · refine ⟨h₂.tree, h₂.sym.trans h₁.sym, h₂.tables_eq.trans h₁.tables_eq, fun u hu hg => ?_,
          fun u hu hg => ?_⟩
        · by_cases hlater : vpn + 1 ≤ u ∧ u < vpn + 1 + n
          · exact h₂.absent u hu hlater
          · rw [h₂.rest u hu hlater]
            exact h₁.absent u hu (by omega)
        · rw [h₂.rest u hu (by omega), h₁.rest u hu (by omega)]
      · have hnext := hall (i + 1) (by omega)
        rw [show vpn + (i + 1) = vpn + 1 + i by omega] at hnext
        rw [h₁.rest _ hnext.1 (by omega), h₁.sym]
        exact hnext
    · have hpanic : maxva ≤ vpn * pgsize := by
        simp only [maxVpn] at hv
        simp only [maxva, pgsize]
        omega
      rw [unmapPage, wp_bind, wp_onKmem, walk, if_pos hpanic, wp_panic]
      exact fun hall => hv (hall 0 (Nat.succ_pos n)).1

theorem uvmunmap_erase (h : Tree v.kmem.mem root) (hown : FreesApart root doFree v) (vpn n : ℕ) :
    wp (uvmunmap root (vpn * pgsize) n doFree)
      (fun _ v' => Removed root (fun u => vpn ≤ u ∧ u < vpn + n) v v')
      (fun _ => ¬∀ i < n, vpn + i < maxVpn ∧
        Removable v.kmem.sym doFree (lookup v.kmem.mem root (vpn + i))) v := by
  rw [uvmunmap, if_neg (not_not.mpr (Nat.mul_mod_left vpn pgsize))]
  exact uvmunmapFrom_erase n h hown

/-! ### The map -/

theorem pteFlags_mkPte {pa : ℕ} {perm : Pte} (h : PageAddr pa) (hperm : IsFlags perm) :
    pteFlags (mkPte pa perm) = perm ||| pteV := by
  have hflags : (perm ||| pteV).toNat < 1024 := or_lt_of_isFlags hperm isFlags_pteV
  refine BitVec.eq_of_toNat_eq ?_
  unfold pteFlags
  rw [BitVec.toNat_and, toNat_mkPte h hperm]
  change (_ &&& (2 ^ 10 - 1)) = _
  rw [Nat.and_two_pow_sub_one_eq_mod]
  omega

/-- What `walk` returns for another page is another entry. -/
theorem walk_ne (h : Tree s.mem root) (hv : vpn < maxVpn) {p : PtePtr} (hp : p.idx = slotOf vpn)
    (hl : leafTable s.mem root (pathOf vpn) = some p.page) {u : ℕ} (hu : u < maxVpn)
    (hne : u ≠ vpn) :
    wp (walk root (u * pgsize) false) (fun r _ => r ≠ some p) E s := by
  refine walk_spec hu fun hsame => ?_
  obtain ⟨t, ht, rfl⟩ := Option.map_eq_some_iff.mp hsame
  exact hne (eq_of_path_eq hu hv (h.leafTable_inj ht hl) hp)

/-- **A three-level page table is a finite map.** -/
theorem page_table_is_map (h : TreeReady root s) :
    -- `walk` finds the entry of a page, which no other page has, and changes no entry
    (∀ vpn < maxVpn, wp (walk root (vpn * pgsize) true) (fun r s' =>
      (∀ u < maxVpn, lookup s'.mem root u = lookup s.mem root u) ∧
      ∀ p, r = some p → s'.pte p = lookup s.mem root vpn ∧ ∀ u < maxVpn, u ≠ vpn →
        wp (walk root (u * pgsize) false) (fun r' _ => r' ≠ some p) (fun _ => False) s')
      (fun _ => False) s) ∧
    -- `mappages` maps all of the pages, or a first part of them if there is no memory
    (∀ vpn n pa perm, wp (mappages root (vpn * pgsize) ((n + 1) * pgsize) pa perm)
      (fun ok s' =>
        if ok then
          (∀ u < maxVpn, lookup s'.mem root u
            = overlay (lookup s.mem root) vpn pa perm (n + 1) u) ∧
          ∀ i ≤ n, PageAddr (pa + i * pgsize) → IsFlags perm →
            pte2pa (lookup s'.mem root (vpn + i)) = pa + i * pgsize ∧
            pteFlags (lookup s'.mem root (vpn + i)) = perm ||| pteV
        else s'.freelist = [] ∧ ∃ k ≤ n, ∀ u < maxVpn,
          lookup s'.mem root u = overlay (lookup s.mem root) vpn pa perm k u)
      (fun _ => ¬Mappable root vpn n s) s) ∧
    -- `uvmunmap` removes exactly its pages
    ∀ v : Vm, v.kmem = s → ∀ doFree, FreesApart root doFree v → ∀ vpn n, vpn + n ≤ maxVpn →
      wp (uvmunmap root (vpn * pgsize) n doFree) (fun _ v' => ∀ u < maxVpn,
        lookup v'.kmem.mem root u
          = if vpn ≤ u ∧ u < vpn + n then 0#64 else lookup s.mem root u)
      (fun _ => ¬∀ i < n, Removable s.sym doFree (lookup s.mem root (vpn + i))) v := by
  refine ⟨fun vpn hv => ?_, fun vpn n pa perm => ?_, fun v hk doFree hown vpn n hn => ?_⟩
  · refine wp_imp (walk_alloc_spec h hv) ?_
    rintro r s' ⟨hstep, hlook, hr⟩
    refine ⟨fun u _ => by rw [hlook], ?_⟩
    rintro p rfl
    obtain ⟨hidx, hleaf, -⟩ := hr
    refine ⟨?_, fun u hu hne => walk_ne hstep.tree hv hidx hleaf hu hne⟩
    rw [pte_eq_entry, hidx, ← lookup_of_some hleaf, hlook]
  · refine wp_imp (mappages_overlay h vpn n pa perm) ?_
    rintro ok s' ⟨k, hk⟩
    cases ok with
    | true =>
      obtain rfl : k = n + 1 := hk.count
      refine ⟨hk.lookup_eq, fun i hi hpa hperm => ?_⟩
      have hentry : lookup s'.mem root (vpn + i) = mkPte (pa + i * pgsize) perm := by
        rw [hk.lookup_eq _ (hk.unmapped i (by omega)).1, overlay, if_pos (by omega),
          Nat.add_sub_cancel_left]
      rw [hentry]
      exact ⟨pte2pa_mkPte hpa hperm, pteFlags_mkPte hpa hperm⟩
    | false => exact ⟨hk.count.2, k, hk.count.1, hk.lookup_eq⟩
  · subst hk
    refine wp_mono (uvmunmap_erase h.tree hown vpn n) (fun _ v' hv' u hu => ?_)
      fun _ hbad hall => hbad fun i hi => ⟨by omega, hall i hi⟩
    split_ifs with hin
    · exact hv'.absent u hu hin
    · exact hv'.rest u hu hin

/-- An empty page table, and two free pages. -/
def emptyTable : Kmem := ⟨.small, fun _ => fill 0, [2 * pgsize, 3 * pgsize], false⟩

theorem emptyTable_ready : TreeReady pgsize emptyTable := by
  have htables : tables emptyTable.mem pgsize = {pgsize} := tables_of_cleared rfl
  have haddr : ∀ x ∈ emptyTable.freelist, PageAddr x := by unfold PageAddr; decide
  refine ⟨Tree.of_cleared rfl, fun x hx => ?_, by decide, haddr⟩
  rw [htables, Multiset.mem_singleton]
  rintro rfl
  exact absurd hx (by decide)

/-- A page is mapped in it, which takes both free pages for tables, and unmapped again. -/
theorem page_table_is_map_one : ∃ s,
    mappages pgsize (5 * pgsize) ((0 + 1) * pgsize) (4 * pgsize) pteR emptyTable = .ok (true, s) ∧
    (∀ u < maxVpn, lookup s.mem pgsize u
      = overlay (lookup emptyTable.mem pgsize) 5 (4 * pgsize) pteR 1 u) ∧
    ∀ v : Vm, v.kmem = s → wp (uvmunmap pgsize (5 * pgsize) 1 false) (fun _ v' => ∀ u < maxVpn,
      lookup v'.kmem.mem pgsize u = if 5 ≤ u ∧ u < 6 then 0#64 else lookup s.mem pgsize u)
      (fun _ => False) v := by
  have hmapped : wp (mappages pgsize (5 * pgsize) ((0 + 1) * pgsize) (4 * pgsize) pteR)
      (fun ok s => ok = true ∧ (lookup s.mem pgsize 5).has pteV = true ∧
        pteFlags (lookup s.mem pgsize 5) ≠ pteV) (fun _ => False) emptyTable := by decide +kernel
  obtain ⟨_, s, hrun, rfl, hvalid, hflags⟩ := exists_of_wp hmapped
  have hlook := wp_ok ((page_table_is_map emptyTable_ready).2.1 5 0 (4 * pgsize) pteR) hrun
  obtain ⟨k, hk⟩ := wp_ok (mappages_overlay emptyTable_ready 5 0 (4 * pgsize) pteR) hrun
  refine ⟨s, hrun, (if_pos rfl ▸ hlook).1, fun v hv => ?_⟩
  refine wp_mono ((page_table_is_map (emptyTable_ready.step hk.step)).2.2 v hv false
    Bool.noConfusion 5 1 (by decide)) (fun _ _ => id) fun _ hbad => hbad fun i hi => ?_
  obtain rfl := Nat.lt_one_iff.mp hi
  exact Or.inr (Or.inr ⟨hvalid, hflags, Bool.noConfusion⟩)

end Xv6
