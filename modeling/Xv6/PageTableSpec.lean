import Xv6.PageTree

/-!
# What the page-table code does to a tree

One specification for each function of `PageTable.lean`, in terms of `lookup` and `tables`. All of
them share a frame: page-table code on `root` moves pages between the free list and the tree of
`root` and writes only to pages of these two. `TreeStep` says that once, and composes.
-/

namespace Xv6

open Ledger Prog Function Multiset

/-- Page-table code can run on `root`: its tree is well formed and shares no page with the free
list. -/
structure TreeReady (root : ℕ) (s : Kmem) : Prop where
  tree : Tree s.mem root
  apart : ∀ x ∈ s.freelist, x ∉ tables s.mem root
  free : s.freelist.Nodup
  addr : ∀ x ∈ s.freelist, PageAddr x

/-- What page-table code on `root` may do to memory. -/
structure TreeStep (root : ℕ) (s s' : Kmem) : Prop where
  sym : s'.sym = s.sym
  refreed : s'.refreed = s.refreed
  tree : Tree s'.mem root
  /-- Pages move from the free list to the tree. -/
  pages : tables s'.mem root + s'.freelist = tables s.mem root + s.freelist
  taken : s'.freelist <:+ s.freelist
  /-- Other pages keep their contents. -/
  frame : ∀ x, x ∉ tables s.mem root → x ∉ s.freelist → s'.mem x = s.mem x

namespace TreeStep

variable {root : ℕ} {s s₁ s₂ : Kmem}

theorem refl (h : Tree s.mem root) : TreeStep root s s where
  sym := rfl
  refreed := rfl
  tree := h
  pages := rfl
  taken := List.suffix_refl _
  frame _ _ _ := rfl

/-- The pages of the tree and of the free list are the same before and after. -/
theorem mem_iff (h : TreeStep root s s₁) (x : ℕ) :
    (x ∈ tables s₁.mem root ∨ x ∈ s₁.freelist) ↔ (x ∈ tables s.mem root ∨ x ∈ s.freelist) := by
  have := congrArg (x ∈ ·) h.pages
  simpa [mem_add] using this

theorem trans (h : TreeStep root s s₁) (h' : TreeStep root s₁ s₂) : TreeStep root s s₂ where
  sym := h'.sym.trans h.sym
  refreed := h'.refreed.trans h.refreed
  tree := h'.tree
  pages := h'.pages.trans h.pages
  taken := h'.taken.trans h.taken
  frame x hx hx' := by
    have hnot := (not_congr (h.mem_iff x)).mpr (by tauto)
    rw [h'.frame x (fun hh => hnot (Or.inl hh)) (fun hh => hnot (Or.inr hh)), h.frame x hx hx']

end TreeStep

theorem TreeReady.step {root : ℕ} {s s' : Kmem} (h : TreeReady root s) (hs : TreeStep root s s') :
    TreeReady root s' where
  tree := hs.tree
  apart := by
    have hnd : (tables s.mem root + (s.freelist : Multiset ℕ)).Nodup :=
      nodup_add.mpr ⟨h.tree.nodup, coe_nodup.mpr h.free,
        disjoint_right.mpr fun {x} hx => h.apart x (mem_coe.mp hx)⟩
    rw [← hs.pages] at hnd
    exact fun x hx => not_mem_of_mem_right hnd (mem_coe.mpr hx)
  free := hs.taken.sublist.nodup h.free
  addr x hx := h.addr x (hs.taken.subset hx)

/-! ### `walk` without allocation -/

variable {E : String → Prop} {root vpn t : ℕ} {s : Kmem} {i : Fin 512} {Q : Option ℕ → Kmem → Prop}

theorem not_maxva_le {vpn : ℕ} (hv : vpn < maxVpn) : ¬maxva ≤ vpn * pgsize := by
  simp only [maxVpn] at hv
  simp only [maxva, pgsize]
  omega

theorem pte_eq_entry (s : Kmem) (p : PtePtr) : s.pte p = entry s.mem p.page p.idx := by
  rw [Kmem.pte, entry]

theorem wp_readPte {p : PtePtr} {Q : Pte → Kmem → Prop} :
    wp (readPte p) Q E s ↔ Q (entry s.mem p.page p.idx) s := by
  rw [← pte_eq_entry]
  exact Iff.rfl

theorem wp_writePte {p : PtePtr} {e : Pte} {Q : Unit → Kmem → Prop} :
    wp (writePte p e) Q E s ↔ Q () (s.setPte p e) := Iff.rfl

theorem wp_walkLevel_false :
    wp (walkLevel false ⟨t, i⟩) Q E s ↔ Q (child s.mem t i) s := by
  rw [walkLevel, wp_bind, wp_readPte, child]
  by_cases hv : (entry s.mem t i).has pteV
  · simp [hv]
  · simp [hv]

theorem walk_spec (hv : vpn < maxVpn) {Q : Option PtePtr → Kmem → Prop}
    (hQ : Q ((leafTable s.mem root (pathOf vpn)).map fun t => ⟨t, slotOf vpn⟩) s) :
    wp (walk root (vpn * pgsize) false) Q E s := by
  rw [walk, if_neg (not_maxva_le hv), wp_bind, wp_walkLevel_false]
  rw [leafTable] at hQ
  cases hc : child s.mem root (px 2 (vpn * pgsize)) with
  | none =>
    rw [show child s.mem root (pathOf vpn).1 = none from hc] at hQ
    exact hQ
  | some t1 =>
    rw [show child s.mem root (pathOf vpn).1 = some t1 from hc, Option.bind_some] at hQ
    simp only [wp_bind]
    rw [wp_walkLevel_false]
    cases hc' : child s.mem t1 (px 1 (vpn * pgsize)) with
    | none =>
      rw [show child s.mem t1 (pathOf vpn).2 = none from hc'] at hQ
      exact hQ
    | some t0 =>
      rw [show child s.mem t1 (pathOf vpn).2 = some t0 from hc'] at hQ
      exact hQ

/-! ### `walk` with allocation -/

theorem names_table {x : ℕ} (hx : PageAddr x) : Names (pa2pte x ||| pteV) x where
  valid := by
    rw [Pte.has_or, show Pte.has pteV pteV = true from by decide, Bool.or_true]
  flags := by
    rw [Pte.has_or, pa2pte, Pte.has_shiftLeft (by decide)]
    decide
  addr := by
    have hmk : pte2pa (mkPte x 0#64) = x := pte2pa_mkPte hx (by decide)
    rwa [mkPte, BitVec.or_zero] at hmk

/-- How many page-table pages are missing on the way to a page number. -/
def missing (m : ℕ → Page) (root vpn : ℕ) : ℕ :=
  if (child m root (pathOf vpn).1).isNone then 2
  else if (leafTable m root (pathOf vpn)).isNone then 1 else 0

theorem missing_le (m : ℕ → Page) (root vpn : ℕ) : missing m root vpn ≤ 2 := by
  unfold missing
  split_ifs <;> omega

/-- Nothing is missing on the way to an entry that is not zero. -/
theorem missing_of_lookup_ne_zero {m : ℕ → Page} {vpn : ℕ} (h : lookup m root vpn ≠ 0#64) :
    missing m root vpn = 0 := by
  cases hl : leafTable m root (pathOf vpn) with
  | none => exact absurd (lookup_of_none hl) h
  | some t =>
    obtain ⟨c, hc, -⟩ := leafTable_eq_some.mp hl
    rw [missing, hc, hl]
    rfl

theorem missing_congr {m m' : ℕ → Page} (h : ∀ x ∈ tables m root, m' x = m x) (vpn : ℕ) :
    missing m' root vpn = missing m root vpn := by
  rw [missing, missing, leafTable_congr h, child_congr (h root (root_mem_tables m root))]

/-- The state in which `walk` has put the cleared page `x` below the entry `i` of `t`. -/
def Kmem.hang (s : Kmem) (t : ℕ) (i : Fin 512) (x : ℕ) (next : List ℕ) : Kmem :=
  ((s.setFree next).setPage x (fill 0)).setPte ⟨t, i⟩ (pa2pte x ||| pteV)

/-- One level of an allocating `walk`: the table is there, or there is no memory, or a new one is
hung below the entry. -/
theorem wp_walkLevel_true
    (hsome : ∀ t', child s.mem t i = some t' → Q (some t') s)
    (hnone : child s.mem t i = none → s.freelist = [] → Q none s)
    (hnew : ∀ x next, child s.mem t i = none → s.freelist = x :: next →
      Q (some x) (s.hang t i x next)) :
    wp (walkLevel true ⟨t, i⟩) Q E s := by
  rw [walkLevel, wp_bind, wp_readPte]
  by_cases hv : (entry s.mem t i).has pteV
  · have hc : child s.mem t i = some (pte2pa (entry s.mem t i)) := by rw [child, if_pos hv]
    simpa [hv] using hsome _ hc
  · have hc : child s.mem t i = none := by rw [child, if_neg hv]
    simp only [hv, if_false, if_true, wp_bind, Bool.false_eq_true]
    refine wp_imp kalloc_spec ?_
    rintro (_ | x) s₁ h
    · obtain ⟨hF, rfl⟩ := h
      exact hnone hc hF
    · obtain ⟨next, hF, rfl⟩ := h
      have hset : ((s.setFree next).setPage x (fill 5)).setPage x (fill 0)
          = (s.setFree next).setPage x (fill 0) := by
        simp [Kmem.setPage, update_idem]
      simp only [wp_bind, writePage, wp_modify, wp_writePte, wp_pure, hset]
      exact hnew x next hc hF

/-- Writing a page outside the tree does not touch the tree. -/
theorem update_agree {m : ℕ → Page} {x : ℕ} (hx : x ∉ tables m root) (pg : Page) :
    ∀ y ∈ tables m root, update m x pg y = m y := by
  intro y hy
  have hne : y ≠ x := by rintro rfl; exact hx hy
  exact update_of_ne hne _ _

section Hang

variable {x : ℕ} {next : List ℕ} (h : TreeReady root s) (hF : s.freelist = x :: next)

include h hF

/-- A page that is taken and cleared is not in the tree. -/
theorem TreeReady.cleared : x ∉ tables s.mem root ∧
    (∀ y ∈ tables s.mem root, update s.mem x (fill 0) y = s.mem y) ∧
    Tree (update s.mem x (fill 0)) root ∧ x ∉ tables (update s.mem x (fill 0)) root := by
  have hx := h.apart x (by simp [hF])
  have hag := update_agree hx (fill 0)
  exact ⟨hx, hag, h.tree.congr hag, by rwa [tables_congr hag]⟩

theorem TreeReady.names : Names (pa2pte x ||| pteV) x := names_table (h.addr x (by simp [hF]))

omit h in
/-- The frame of hanging a new table, given what it does to the pages of the tree. -/
theorem hang_step (ht : t ∈ tables s.mem root)
    (htree : Tree (s.hang t i x next).mem root)
    (htab : tables (s.hang t i x next).mem root = x ::ₘ tables s.mem root) :
    TreeStep root s (s.hang t i x next) where
  sym := rfl
  refreed := rfl
  tree := htree
  pages := by
    rw [htab, hF, ← cons_coe, cons_add, add_cons]
    rfl
  taken := by
    rw [hF]
    exact List.suffix_cons x next
  frame y hy hy' := by
    have hyt : y ≠ t := fun hyt => hy (hyt ▸ ht)
    have hyx : y ≠ x := fun hyx => hy' (by simp [hF, hyx])
    rw [Kmem.hang, Kmem.setPte, Kmem.setPage_mem_of_ne _ _ hyt, Kmem.setPage_mem_of_ne _ _ hyx,
      Kmem.setFree_mem]

theorem TreeReady.hang_middle (hc : child s.mem root i = none)
    (hi : (i : ℕ) < 256) :
    TreeStep root s (s.hang root i x next) ∧
      lookup (s.hang root i x next).mem root = lookup s.mem root ∧
      child (s.hang root i x next).mem root i = some x ∧
      child (s.hang root i x next).mem x = fun _ => none := by
  obtain ⟨hx, hag, htree, hx'⟩ := h.cleared hF
  have hn := h.names hF
  have hclear : update s.mem x (fill 0) x = fill 0 := update_self ..
  have hc' : child (update s.mem x (fill 0)) root i = none := by
    rwa [child_congr (hag root (root_mem_tables _ _))]
  have hxr : x ≠ root := fun hxr => hx (hxr ▸ root_mem_tables _ _)
  refine ⟨hang_step hF (root_mem_tables _ _) (htree.addMiddle hx' hclear hn hc' hi) ?_, ?_, ?_,
    ?_⟩
  · exact (htree.tables_addMiddle hx' hclear hn hc').trans (by rw [tables_congr hag])
  · exact (htree.lookup_addMiddle hx' hclear hn hc').trans (lookup_congr hag)
  · exact Tree.child_root_addMiddle_self hn
  · funext j
    exact child_of_cleared ((setEntry_of_ne hxr).trans hclear) j

theorem TreeReady.hang_bottom {p : Fin 512 × Fin 512}
    (ht : child s.mem root p.1 = some t) (hc : child s.mem t p.2 = none) :
    TreeStep root s (s.hang t p.2 x next) ∧
      lookup (s.hang t p.2 x next).mem root = lookup s.mem root ∧
      leafTable (s.hang t p.2 x next).mem root p = some x := by
  obtain ⟨hx, hag, htree, hx'⟩ := h.cleared hF
  have hn := h.names hF
  have hclear : update s.mem x (fill 0) x = fill 0 := update_self ..
  have ht' : child (update s.mem x (fill 0)) root p.1 = some t := by
    rwa [child_congr (hag root (root_mem_tables _ _))]
  have hc' : child (update s.mem x (fill 0)) t p.2 = none := by
    rwa [child_congr (hag t (mem_tables_of_child ht))]
  refine ⟨hang_step hF (mem_tables_of_child ht) (htree.addBottom hx' hn ht' hc') ?_, ?_, ?_⟩
  · exact (htree.tables_addBottom hn ht' hc').trans (by rw [tables_congr hag])
  · exact (htree.lookup_addBottom hx' hclear hn ht' hc').trans (lookup_congr hag)
  · exact htree.leafTable_addBottom_self hn ht'

end Hang

/-- **`walk` with allocation** changes no lookup. It fails exactly when there are fewer free pages
than missing tables. -/
theorem walk_alloc_spec (h : TreeReady root s) (hv : vpn < maxVpn) :
    wp (walk root (vpn * pgsize) true) (fun r s' => TreeStep root s s' ∧
      lookup s'.mem root = lookup s.mem root ∧
      match r with
      | none => s.freelist.length < missing s.mem root vpn ∧ s'.freelist = []
      | some pte => pte.idx = slotOf vpn ∧
          leafTable s'.mem root (pathOf vpn) = some pte.page ∧
          s.freelist.length = s'.freelist.length + missing s.mem root vpn) E s := by
  rw [walk, if_neg (not_maxva_le hv), wp_bind]
  refine wp_walkLevel_true (fun t1 hc => ?_) (fun hc hF => ?_) (fun x next hc hF => ?_)
  · have hc1 : child s.mem root (pathOf vpn).1 = some t1 := hc
    simp only [wp_bind]
    refine wp_walkLevel_true (fun t0 hc' => ?_) (fun hc' hF => ?_) (fun x next hc' hF => ?_)
    · have hl : leafTable s.mem root (pathOf vpn) = some t0 :=
        leafTable_eq_some.mpr ⟨t1, hc1, hc'⟩
      exact ⟨.refl h.tree, rfl, rfl, hl, by simp [missing, hc1, hl]⟩
    · have hl : leafTable s.mem root (pathOf vpn) = none := Tree.leafTable_none_of_child hc1 hc'
      exact ⟨.refl h.tree, rfl, by simp [missing, hc1, hl, hF], hF⟩
    · have hl : leafTable s.mem root (pathOf vpn) = none := Tree.leafTable_none_of_child hc1 hc'
      obtain ⟨hstep, hlook, hleaf⟩ := h.hang_bottom hF hc1 hc'
      refine ⟨hstep, hlook, rfl, hleaf, ?_⟩
      simp [missing, hc1, hl, hF, Kmem.hang, Kmem.setPte]
  · have hc1 : child s.mem root (pathOf vpn).1 = none := hc
    exact ⟨.refl h.tree, rfl, by simp [missing, hc1, hF], hF⟩
  · have hc1 : child s.mem root (pathOf vpn).1 = none := hc
    obtain ⟨hstep, hlook, hmid, hempty⟩ := h.hang_middle hF hc (pathOf_fst_lt hv)
    have hF' : (s.hang root (px 2 (vpn * pgsize)) x next).freelist = next := rfl
    simp only [wp_bind]
    refine wp_walkLevel_true (fun t0 hc' => ?_) (fun hc' hF₂ => ?_) (fun y next' hc' hF₂ => ?_)
    · rw [hempty] at hc'
      exact absurd hc' (by simp)
    · rw [hF'] at hF₂
      exact ⟨hstep, hlook, by simp [missing, hc1, hF, hF₂], hF₂⟩
    · obtain ⟨hstep', hlook', hleaf⟩ := (h.step hstep).hang_bottom hF₂
        (p := pathOf vpn) hmid hc'
      refine ⟨hstep.trans hstep', hlook'.trans hlook, rfl, hleaf, ?_⟩
      rw [hF'] at hF₂
      simp [missing, hc1, hF, hF₂, Kmem.hang, Kmem.setPte]

/-! ### Mapping and reading one page -/

theorem setLeaf_step (h : Tree s.mem root) (hv : vpn < maxVpn)
    (hl : leafTable s.mem root (pathOf vpn) = some t) (e : Pte) :
    TreeStep root s (s.setPte ⟨t, slotOf vpn⟩ e) ∧
      lookup (s.setPte ⟨t, slotOf vpn⟩ e).mem root vpn = e ∧
      ∀ u < maxVpn, u ≠ vpn →
        lookup (s.setPte ⟨t, slotOf vpn⟩ e).mem root u = lookup s.mem root u := by
  refine ⟨⟨rfl, rfl, h.setLeaf hl, ?_, List.suffix_refl _, ?_⟩, h.lookup_setLeaf_self hl,
    fun u hu hne => h.lookup_setLeaf_of_ne hl hv hu hne⟩
  · exact congrArg (· + _) (h.tables_setLeaf hl)
  · intro x hx _
    have hne : x ≠ t := by rintro rfl; exact hx (mem_tables_of_leafTable hl)
    exact Kmem.setPage_mem_of_ne _ _ hne

/-- **One iteration of `mappages`** on a page that is not mapped. -/
theorem mapPage_spec (h : TreeReady root s) (hv : vpn < maxVpn)
    (hfree : (lookup s.mem root vpn).has pteV = false) (pa : ℕ) (perm : Pte) :
    wp (mapPage root (vpn * pgsize) pa perm) (fun ok s' => TreeStep root s s' ∧
      (∀ u < maxVpn, u ≠ vpn → lookup s'.mem root u = lookup s.mem root u) ∧
      if ok then
        lookup s'.mem root vpn = mkPte pa perm ∧
          s.freelist.length = s'.freelist.length + missing s.mem root vpn
      else
        lookup s'.mem root vpn = lookup s.mem root vpn ∧
          s.freelist.length < missing s.mem root vpn ∧ s'.freelist = []) E s := by
  rw [mapPage]
  refine wp_seq (walk_alloc_spec h hv) ?_
  rintro (_ | ⟨t, i⟩) s₁ ⟨hstep, hlook, hr⟩
  · exact ⟨hstep, fun u _ _ => by rw [hlook], by rw [hlook], hr⟩
  · obtain ⟨rfl, hleaf, hlen⟩ := hr
    have hent : (entry s₁.mem t (slotOf vpn)).has pteV = false := by
      rw [← lookup_of_some hleaf, hlook]
      exact hfree
    simp only [wp_bind, wp_readPte, hent, Bool.false_eq_true, if_false, wp_writePte,
      wp_pure, if_true]
    obtain ⟨hstep', hself, hother⟩ := setLeaf_step hstep.tree hv hleaf (mkPte pa perm)
    exact ⟨hstep.trans hstep', fun u hu hne => by rw [hother u hu hne, hlook], hself, hlen⟩

/-- When the bottom table exists, `walk` finds the entry and needs no memory. -/
theorem walk_found (hv : vpn < maxVpn) (hl : leafTable s.mem root (pathOf vpn) = some t)
    {Q : Option PtePtr → Kmem → Prop} (hQ : Q (some ⟨t, slotOf vpn⟩) s) :
    wp (walk root (vpn * pgsize) true) Q E s := by
  obtain ⟨t1, hc, hc'⟩ := leafTable_eq_some.mp hl
  rw [walk, if_neg (not_maxva_le hv), wp_bind]
  refine wp_walkLevel_true (fun t' h1 => ?_) (fun h1 => ?_) (fun _ _ h1 => ?_)
  · obtain rfl : t1 = t' := Option.some.inj (hc.symm.trans h1)
    simp only [wp_bind]
    refine wp_walkLevel_true (fun t' h2 => ?_) (fun h2 => ?_) (fun _ _ h2 => ?_)
    · obtain rfl : t = t' := Option.some.inj (hc'.symm.trans h2)
      exact hQ
    · exact absurd (hc'.symm.trans h2) (by simp)
    · exact absurd (hc'.symm.trans h2) (by simp)
  · exact absurd (hc.symm.trans h1) (by simp)
  · exact absurd (hc.symm.trans h1) (by simp)

/-- A page that is mapped already is the panic of `mappages`. -/
theorem mapPage_remap (hv : vpn < maxVpn) (hmap : (lookup s.mem root vpn).has pteV = true)
    (pa : ℕ) (perm : Pte) {Q : Bool → Kmem → Prop} (hE : E "mappages: remap") :
    wp (mapPage root (vpn * pgsize) pa perm) Q E s := by
  cases hl : leafTable s.mem root (pathOf vpn) with
  | none =>
    rw [lookup_of_none hl, Pte.has_zero] at hmap
    nomatch hmap
  | some t =>
    rw [lookup_of_some hl] at hmap
    rw [mapPage, wp_bind]
    refine walk_found hv hl ?_
    simp only [wp_bind, wp_readPte, hmap, if_true, wp_panic]
    exact hE

theorem mappages_page (root vpn pa : ℕ) (perm : Pte) :
    mappages root (vpn * pgsize) pgsize pa perm = mapPage root (vpn * pgsize) pa perm := by
  have h1 : vpn * pgsize % pgsize = 0 := Nat.mul_mod_left vpn pgsize
  have h2 : pgsize % pgsize = 0 := Nat.mod_self pgsize
  have h3 : pgsize ≠ 0 := by decide
  have h4 : pgsize / pgsize - 1 = 0 := by decide
  rw [mappages, if_neg (not_not.mpr h1), if_neg (not_not.mpr h2), if_neg h3, h4, mappagesFrom]

/-- The frame of a page that user mode may access. -/
def userPage (e : Pte) : Option ℕ :=
  if e.has pteV = true ∧ e.has pteU = true then some (pte2pa e) else none

theorem walkaddr_spec (hv : vpn < maxVpn)
    (hQ : Q (userPage (lookup s.mem root vpn)) s) :
    wp (walkaddr root (vpn * pgsize)) Q E s := by
  rw [walkaddr, if_neg (not_maxva_le hv), wp_bind]
  refine walk_spec hv ?_
  cases hl : leafTable s.mem root (pathOf vpn) with
  | none =>
    rw [lookup_of_none hl] at hQ
    simpa [userPage] using hQ
  | some t =>
    rw [lookup_of_some hl] at hQ
    simp only [Option.map_some, wp_bind, wp_readPte]
    by_cases h1 : (entry s.mem t (slotOf vpn)).has pteV
    · by_cases h2 : (entry s.mem t (slotOf vpn)).has pteU
      · simpa [userPage, h1, h2] using hQ
      · simpa [userPage, h1, h2] using hQ
    · simpa [userPage, h1] using hQ

theorem walkaddr_of_maxva_le {va : ℕ} (h : maxva ≤ va) :
    wp (walkaddr root va) Q E s ↔ Q none s := by
  rw [walkaddr, if_pos h, wp_pure]

theorem ismapped_spec (hv : vpn < maxVpn) {Q : Bool → Kmem → Prop}
    (hQ : Q ((lookup s.mem root vpn).has pteV) s) :
    wp (ismapped root (vpn * pgsize)) Q E s := by
  rw [ismapped, wp_bind]
  refine walk_spec hv ?_
  cases hl : leafTable s.mem root (pathOf vpn) with
  | none =>
    rw [lookup_of_none hl] at hQ
    simpa using hQ
  | some t =>
    rw [lookup_of_some hl] at hQ
    simpa only [Option.map_some, wp_bind, wp_readPte, wp_pure] using hQ

end Xv6
