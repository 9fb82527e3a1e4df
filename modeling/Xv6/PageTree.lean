import Xv6.PageTable

/-!
# A page table as a tree of pages

What a page table in memory *is*: a root page, the middle pages its entries name, and the bottom
pages theirs name. `tables` collects these pages, and `lookup` reads the leaf entry of a virtual
page number off them, zero where the tree has no bottom page. The two together are everything the
rest of the kernel needs to know about a page table, and the lemmas of this file say how each
write the code makes changes them.

`Tree` is the well-formedness they need: no page is used twice in the tree, and entries that name
a lower table carry no permission bits.
-/

namespace Xv6

open Ledger Function Multiset

/-- Entry `i` of table `t`. -/
def entry (m : ℕ → Page) (t : ℕ) (i : Fin 512) : Pte := word (m t) i

/-- The lower-level table that entry `i` of table `t` names. -/
def child (m : ℕ → Page) (t : ℕ) (i : Fin 512) : Option ℕ :=
  if (entry m t i).has pteV then some (pte2pa (entry m t i)) else none

/-- The bottom table on a path of two indices. -/
def leafTable (m : ℕ → Page) (root : ℕ) (p : Fin 512 × Fin 512) : Option ℕ :=
  (child m root p.1).bind fun t => child m t p.2

/-- The path of a virtual page number to its bottom table. -/
def pathOf (vpn : ℕ) : Fin 512 × Fin 512 := (px 2 (vpn * pgsize), px 1 (vpn * pgsize))

/-- The index of a virtual page number in its bottom table. -/
def slotOf (vpn : ℕ) : Fin 512 := px 0 (vpn * pgsize)

/-- The leaf entry of a virtual page number, zero when there is no bottom table. -/
def lookup (m : ℕ → Page) (root vpn : ℕ) : Pte :=
  (leafTable m root (pathOf vpn)).elim 0#64 fun t => entry m t (slotOf vpn)

instance finite512 : Finite (Fin 512) := inferInstance

/-- The pages of the tree. -/
noncomputable def tables (m : ℕ → Page) (root : ℕ) : Multiset ℕ :=
  {root} + ∑ i ∈ all (Fin 512), ofOption (child m root i)
    + ∑ p ∈ all (Fin 512 × Fin 512), ofOption (leafTable m root p)

/-- How many page numbers a page table maps. -/
def maxVpn : ℕ := 2 ^ 26

/-- A well-formed tree of page-table pages. -/
structure Tree (m : ℕ → Page) (root : ℕ) : Prop where
  /-- No page occurs twice. -/
  nodup : (tables m root).Nodup
  /-- Addresses stay below `MAXVA`, so the upper half of the root is unused. -/
  upper : ∀ i : Fin 512, 256 ≤ (i : ℕ) → child m root i = none
  /-- Entries of the root that name a table have no permission bits. -/
  rootFlags : ∀ i, (entry m root i).has pteV = true →
    (entry m root i).has (pteR ||| pteW ||| pteX) = false
  /-- Entries of a middle table that name a table have no permission bits. -/
  middleFlags : ∀ i t, child m root i = some t → ∀ j, (entry m t j).has pteV = true →
    (entry m t j).has (pteR ||| pteW ||| pteX) = false

/-! ### Indices -/

theorem px_val (level vpn : ℕ) :
    (px level (vpn * pgsize) : ℕ) = vpn * 4096 / 2 ^ (12 + 9 * level) % 512 := by
  simp [px, Fin.ofNat, pgsize, Nat.shiftRight_eq_div_pow]

theorem pathOf_fst_val (vpn : ℕ) : ((pathOf vpn).1 : ℕ) = vpn / 262144 % 512 := by
  simp only [pathOf, px_val]
  omega

theorem pathOf_snd_val (vpn : ℕ) : ((pathOf vpn).2 : ℕ) = vpn / 512 % 512 := by
  simp only [pathOf, px_val]
  omega

theorem slotOf_val (vpn : ℕ) : (slotOf vpn : ℕ) = vpn % 512 := by
  simp only [slotOf, px_val]
  omega

theorem pathOf_fst_lt {vpn : ℕ} (h : vpn < maxVpn) : ((pathOf vpn).1 : ℕ) < 256 := by
  rw [pathOf_fst_val]
  simp only [maxVpn] at h
  omega

theorem eq_of_path_eq {a b : ℕ} (ha : a < maxVpn) (hb : b < maxVpn) (hp : pathOf a = pathOf b)
    (hs : slotOf a = slotOf b) : a = b := by
  have h1 : ((pathOf a).1 : ℕ) = (pathOf b).1 := by rw [hp]
  have h2 : ((pathOf a).2 : ℕ) = (pathOf b).2 := by rw [hp]
  have h3 : (slotOf a : ℕ) = slotOf b := by rw [hs]
  rw [pathOf_fst_val, pathOf_fst_val] at h1
  rw [pathOf_snd_val, pathOf_snd_val] at h2
  rw [slotOf_val, slotOf_val] at h3
  simp only [maxVpn] at ha hb
  omega

/-- Every leaf slot on a lower path belongs to a page number. -/
theorem exists_vpn {p : Fin 512 × Fin 512} (hp : (p.1 : ℕ) < 256) (k : Fin 512) :
    ∃ vpn < maxVpn, pathOf vpn = p ∧ slotOf vpn = k := by
  refine ⟨(p.1 : ℕ) * 262144 + (p.2 : ℕ) * 512 + k, ?_, ?_, ?_⟩
  · simp only [maxVpn]; omega
  · refine Prod.ext (Fin.ext ?_) (Fin.ext ?_)
    · rw [pathOf_fst_val]; omega
    · rw [pathOf_snd_val]; omega
  · refine Fin.ext ?_
    rw [slotOf_val]; omega

/-! ### The pages of a tree -/

variable {m m' : ℕ → Page} {root t : ℕ} {i : Fin 512} {p : Fin 512 × Fin 512}

theorem root_mem_tables (m : ℕ → Page) (root : ℕ) : root ∈ tables m root := by
  simp [tables]

theorem mem_tables_of_child (h : child m root i = some t) :
    t ∈ tables m root :=
  mem_add.mpr (Or.inl (mem_add.mpr (Or.inr
    (mem_sum_of_mem (mem_all i) (mem_ofOption.mpr h)))))

theorem mem_tables_of_leafTable
    (h : leafTable m root p = some t) : t ∈ tables m root :=
  mem_add.mpr (Or.inr (mem_sum_of_mem (mem_all p) (mem_ofOption.mpr h)))

theorem lookup_of_none {vpn : ℕ} (h : leafTable m root (pathOf vpn) = none) :
    lookup m root vpn = 0#64 := by
  rw [lookup, h, Option.elim_none]

theorem exists_leafTable_of_valid {vpn : ℕ} (h : (lookup m root vpn).has pteV = true) :
    ∃ t, leafTable m root (pathOf vpn) = some t := by
  refine Option.ne_none_iff_exists'.mp fun hl => ?_
  rw [lookup_of_none hl, Pte.has_zero] at h
  nomatch h

theorem lookup_of_some {vpn t : ℕ} (h : leafTable m root (pathOf vpn) = some t) :
    lookup m root vpn = entry m t (slotOf vpn) := by
  rw [lookup, h, Option.elim_some]

theorem leafTable_eq_some :
    leafTable m root p = some t ↔ ∃ t1, child m root p.1 = some t1 ∧ child m t1 p.2 = some t :=
  Option.bind_eq_some_iff

namespace Tree

variable (h : Tree m root)

include h

theorem child_ne_root (hc : child m root i = some t) : t ≠ root := by
  rintro rfl
  refine not_mem_of_mem_left (nodup_left h.nodup) (mem_singleton_self _) ?_
  exact mem_sum_of_mem (mem_all i) (mem_ofOption.mpr hc)

theorem leafTable_ne_root (hl : leafTable m root p = some t) :
    t ≠ root := by
  rintro rfl
  refine not_mem_of_mem_left h.nodup (mem_add.mpr (Or.inl
    (mem_singleton_self _))) ?_
  exact mem_sum_of_mem (mem_all p) (mem_ofOption.mpr hl)

theorem leafTable_ne_child {t t' : ℕ}
    (hl : leafTable m root p = some t) (hc : child m root i = some t') : t' ≠ t := by
  rintro rfl
  have hmem : t' ∈ ∑ i ∈ all (Fin 512), ofOption (child m root i) :=
    mem_sum_of_mem (mem_all i) (mem_ofOption.mpr hc)
  refine not_mem_of_mem_left h.nodup (mem_add.mpr (Or.inr hmem)) ?_
  exact mem_sum_of_mem (mem_all p) (mem_ofOption.mpr hl)

theorem child_inj {i j : Fin 512} (hi : child m root i = some t)
    (hj : child m root j = some t) : i = j :=
  eq_of_mem_sum (nodup_right (nodup_left h.nodup)) (mem_all i) (mem_all j)
    (mem_ofOption.mpr hi) (mem_ofOption.mpr hj)

theorem leafTable_inj {p q : Fin 512 × Fin 512} (hp : leafTable m root p = some t)
    (hq : leafTable m root q = some t) : p = q :=
  eq_of_mem_sum (nodup_right h.nodup) (mem_all p) (mem_all q)
    (mem_ofOption.mpr hp) (mem_ofOption.mpr hq)

end Tree

/-! ### A tree depends only on its own pages -/

theorem entry_congr (h : m' t = m t) : entry m' t = entry m t := by
  funext i
  simp only [entry, h]

theorem child_congr (h : m' t = m t) : child m' t = child m t := by
  funext i
  simp only [child, entry_congr h]

theorem leafTable_congr (h : ∀ x ∈ tables m root, m' x = m x) :
    leafTable m' root = leafTable m root := by
  funext p
  rw [leafTable, leafTable, child_congr (h root (root_mem_tables m root))]
  cases hc : child m root p.1 with
  | none => rw [Option.bind_none, Option.bind_none]
  | some t =>
    rw [Option.bind_some, Option.bind_some, child_congr (h t (mem_tables_of_child hc))]

theorem tables_congr (h : ∀ x ∈ tables m root, m' x = m x) : tables m' root = tables m root := by
  rw [tables, tables, child_congr (h root (root_mem_tables m root)), leafTable_congr h]

theorem lookup_congr (h : ∀ x ∈ tables m root, m' x = m x) : lookup m' root = lookup m root := by
  funext vpn
  cases hl : leafTable m root (pathOf vpn) with
  | none => rw [lookup_of_none hl, lookup_of_none (by rw [leafTable_congr h, hl])]
  | some t =>
    rw [lookup_of_some hl, lookup_of_some (by rw [leafTable_congr h, hl]),
      entry_congr (h t (mem_tables_of_leafTable hl))]

theorem Tree.congr (h : Tree m root) (heq : ∀ x ∈ tables m root, m' x = m x) : Tree m' root where
  nodup := by rw [tables_congr heq]; exact h.nodup
  upper := by
    rw [child_congr (heq root (root_mem_tables m root))]
    exact h.upper
  rootFlags := by
    rw [entry_congr (heq root (root_mem_tables m root))]
    exact h.rootFlags
  middleFlags := by
    intro i t hc
    rw [child_congr (heq root (root_mem_tables m root))] at hc
    rw [entry_congr (heq t (mem_tables_of_child hc))]
    exact h.middleFlags i t hc

/-! ### Writing entries -/

/-- The memory after `*pte = e`. -/
def setEntry (m : ℕ → Page) (t : ℕ) (i : Fin 512) (e : Pte) : ℕ → Page :=
  update m t (setWord (m t) i e)

theorem setEntry_of_ne {t x : ℕ} {e : Pte} (h : x ≠ t) :
    setEntry m t i e x = m x :=
  update_of_ne h _ _

@[simp] theorem entry_setEntry_self (m : ℕ → Page) (t : ℕ) (i : Fin 512) (e : Pte) :
    entry (setEntry m t i e) t i = e := by
  rw [entry, setEntry, update_self, word_setWord_self]

theorem entry_setEntry_of_ne {i j : Fin 512} {e : Pte} (h : j ≠ i) :
    entry (setEntry m t i e) t j = entry m t j := by
  rw [entry, setEntry, update_self, word_setWord_of_ne _ _ h, entry]

theorem child_setEntry_of_ne {t x : ℕ} {e : Pte} (h : x ≠ t) :
    child (setEntry m t i e) x = child m x :=
  child_congr (setEntry_of_ne h)

namespace Tree

variable (h : Tree m root)

include h

section SetLeaf

variable {vpn t : ℕ} {e : Pte} (hl : leafTable m root (pathOf vpn) = some t)

include hl

theorem child_root_setLeaf : child (setEntry m t (slotOf vpn) e) root = child m root :=
  child_setEntry_of_ne (h.leafTable_ne_root hl).symm

theorem leafTable_setLeaf :
    leafTable (setEntry m t (slotOf vpn) e) root = leafTable m root := by
  funext p
  rw [leafTable, leafTable, h.child_root_setLeaf hl]
  cases hc : child m root p.1 with
  | none => rw [Option.bind_none, Option.bind_none]
  | some t1 =>
    rw [Option.bind_some, Option.bind_some, child_setEntry_of_ne (h.leafTable_ne_child hl hc)]

theorem tables_setLeaf : tables (setEntry m t (slotOf vpn) e) root = tables m root := by
  rw [tables, tables, h.child_root_setLeaf hl, h.leafTable_setLeaf hl]

theorem lookup_setLeaf_self : lookup (setEntry m t (slotOf vpn) e) root vpn = e := by
  rw [lookup_of_some (by rw [h.leafTable_setLeaf hl, hl]), entry_setEntry_self]

theorem lookup_setLeaf_of_ne {vpn' : ℕ} (hv : vpn < maxVpn) (hv' : vpn' < maxVpn)
    (hne : vpn' ≠ vpn) :
    lookup (setEntry m t (slotOf vpn) e) root vpn' = lookup m root vpn' := by
  cases hl' : leafTable m root (pathOf vpn') with
  | none => rw [lookup_of_none hl', lookup_of_none (by rw [h.leafTable_setLeaf hl, hl'])]
  | some t' =>
    rw [lookup_of_some hl', lookup_of_some (by rw [h.leafTable_setLeaf hl, hl'])]
    by_cases htt : t' = t
    · subst htt
      -- one bottom table, so one path: the two pages differ in their index
      have hpath : pathOf vpn' = pathOf vpn := h.leafTable_inj hl' hl
      exact entry_setEntry_of_ne fun hs => hne (eq_of_path_eq hv' hv hpath hs)
    · rw [entry_congr (setEntry_of_ne htt)]

/-- **Writing a leaf entry** keeps the tree. -/
theorem setLeaf : Tree (setEntry m t (slotOf vpn) e) root where
  nodup := by rw [h.tables_setLeaf hl]; exact h.nodup
  upper := by rw [h.child_root_setLeaf hl]; exact h.upper
  rootFlags := by
    rw [entry_congr (setEntry_of_ne (h.leafTable_ne_root hl).symm)]
    exact h.rootFlags
  middleFlags := by
    intro i t1 hc
    rw [h.child_root_setLeaf hl] at hc
    rw [entry_congr (setEntry_of_ne (h.leafTable_ne_child hl hc))]
    exact h.middleFlags i t1 hc

end SetLeaf

end Tree

/-! ### Adding a cleared table

`walk` creates missing tables. The new page is cleared before the entry that names it is written,
so no lookup changes: where there was no bottom table there is now a bottom table of zeros. -/

/-- An entry that names the table `x` and nothing more. -/
structure Names (e : Pte) (x : ℕ) : Prop where
  valid : e.has pteV = true
  flags : e.has (pteR ||| pteW ||| pteX) = false
  addr : pte2pa e = x

theorem child_of_names {t x : ℕ} (h : Names (entry m t i) x) :
    child m t i = some x := by
  rw [child, if_pos h.valid, h.addr]

theorem entry_of_cleared {x : ℕ} (h : m x = fill 0) (i : Fin 512) : entry m x i = 0#64 := by
  rw [entry, h]
  exact word_zero i

theorem child_of_cleared {x : ℕ} (h : m x = fill 0) (i : Fin 512) : child m x i = none := by
  rw [child, entry_of_cleared h, Pte.has_zero, if_neg Bool.false_ne_true]

theorem leafTable_of_cleared (h : m root = fill 0) (p : Fin 512 × Fin 512) :
    leafTable m root p = none := by
  rw [leafTable, child_of_cleared h, Option.bind_none]

/-- A cleared page is a page table that maps nothing. -/
theorem lookup_of_cleared (h : m root = fill 0) (vpn : ℕ) : lookup m root vpn = 0#64 :=
  lookup_of_none (leafTable_of_cleared h _)

theorem tables_of_cleared (h : m root = fill 0) : tables m root = {root} := by
  simp [tables, child_of_cleared h, leafTable_of_cleared h]

theorem Tree.of_cleared (h : m root = fill 0) : Tree m root where
  nodup := by rw [tables_of_cleared h]; exact Multiset.nodup_singleton root
  upper i _ := child_of_cleared h i
  rootFlags i hi := by
    rw [entry_of_cleared h, Pte.has_zero] at hi
    nomatch hi
  middleFlags i t hc := by
    rw [child_of_cleared h] at hc
    exact absurd hc (by simp)

namespace Tree

variable (h : Tree m root) {x : ℕ} {e : Pte} (hx : x ∉ tables m root) (hclear : m x = fill 0)
  (he : Names e x)

include h hx hclear he

section Middle

variable {i : Fin 512} (hnone : child m root i = none)

omit h hx hclear in
theorem child_root_addMiddle_self : child (setEntry m root i e) root i = some x := by
  refine child_of_names ?_
  rw [entry_setEntry_self]
  exact he

omit h hx hclear he in
theorem child_root_addMiddle_of_ne {j : Fin 512} (hj : j ≠ i) :
    child (setEntry m root i e) root j = child m root j := by
  rw [child, child, entry_setEntry_of_ne hj]

include hnone

theorem leafTable_addMiddle : leafTable (setEntry m root i e) root = leafTable m root := by
  have hxr : x ≠ root := fun hxr => hx (hxr ▸ root_mem_tables m root)
  funext p
  rw [leafTable, leafTable]
  by_cases hp : p.1 = i
  · have hcl : setEntry m root i e x = fill 0 := (setEntry_of_ne hxr).trans hclear
    rw [hp, child_root_addMiddle_self he, hnone, Option.bind_some, Option.bind_none,
      child_of_cleared hcl]
  · rw [child_root_addMiddle_of_ne hp]
    cases hc : child m root p.1 with
    | none => rw [Option.bind_none, Option.bind_none]
    | some t =>
      rw [Option.bind_some, Option.bind_some, child_setEntry_of_ne (h.child_ne_root hc)]

theorem tables_addMiddle : tables (setEntry m root i e) root = x ::ₘ tables m root := by
  have hsum := sum_add_eq_of_agree (f := fun j => ofOption (child (setEntry m root i e) root j))
    (g := fun j => ofOption (child m root j)) (mem_all i) fun j _ hj => by
      rw [child_root_addMiddle_of_ne hj]
  rw [child_root_addMiddle_self he, hnone, ofOption_none, add_zero, ofOption_some] at hsum
  rw [tables, tables, h.leafTable_addMiddle hx hclear he hnone, hsum, ← singleton_add]
  abel

theorem lookup_addMiddle : lookup (setEntry m root i e) root = lookup m root := by
  funext vpn
  have hleaf := congrFun (h.leafTable_addMiddle hx hclear he hnone) (pathOf vpn)
  cases hl : leafTable m root (pathOf vpn) with
  | none => rw [lookup_of_none hl, lookup_of_none (hleaf.trans hl)]
  | some t =>
    rw [lookup_of_some hl, lookup_of_some (hleaf.trans hl),
      entry_congr (setEntry_of_ne (h.leafTable_ne_root hl))]

theorem addMiddle (hi : (i : ℕ) < 256) : Tree (setEntry m root i e) root where
  nodup := by
    rw [h.tables_addMiddle hx hclear he hnone]
    exact nodup_cons.mpr ⟨hx, h.nodup⟩
  upper := by
    intro j hj
    rw [child_root_addMiddle_of_ne (by rintro rfl; omega)]
    exact h.upper j hj
  rootFlags := by
    intro j
    by_cases hj : j = i
    · subst hj
      rw [entry_setEntry_self]
      exact fun _ => he.flags
    · rw [entry_setEntry_of_ne hj]
      exact h.rootFlags j
  middleFlags := by
    intro j t hc
    by_cases hj : j = i
    · subst hj
      rw [child_root_addMiddle_self he, Option.some.injEq] at hc
      subst hc
      have hxr : x ≠ root := fun hxr => hx (hxr ▸ root_mem_tables m root)
      intro k hk
      rw [entry_of_cleared ((setEntry_of_ne hxr).trans hclear), Pte.has_zero] at hk
      nomatch hk
    · rw [child_root_addMiddle_of_ne hj] at hc
      rw [entry_congr (setEntry_of_ne (h.child_ne_root hc))]
      exact h.middleFlags j t hc

end Middle

section Bottom

variable {p : Fin 512 × Fin 512} {t : ℕ} (ht : child m root p.1 = some t)
  (hnone : child m t p.2 = none)

omit hx hclear he in
include ht in
theorem child_root_addBottom : child (setEntry m t p.2 e) root = child m root :=
  child_setEntry_of_ne (h.child_ne_root ht).symm

omit hx hclear in
include ht in
theorem leafTable_addBottom_self : leafTable (setEntry m t p.2 e) root p = some x := by
  have hn : Names (entry (setEntry m t p.2 e) t p.2) x := by
    rw [entry_setEntry_self]
    exact he
  rw [leafTable, h.child_root_addBottom ht, ht, Option.bind_some, child_of_names hn]

omit hx hclear he in
include ht in
theorem leafTable_addBottom_of_ne {q : Fin 512 × Fin 512} (hq : q ≠ p) :
    leafTable (setEntry m t p.2 e) root q = leafTable m root q := by
  rw [leafTable, leafTable, h.child_root_addBottom ht]
  cases hc : child m root q.1 with
  | none => rw [Option.bind_none, Option.bind_none]
  | some t' =>
    rw [Option.bind_some, Option.bind_some]
    by_cases htt : t' = t
    · subst htt
      have h1 : q.1 = p.1 := h.child_inj hc ht
      have h2 : q.2 ≠ p.2 := fun h2 => hq (Prod.ext h1 h2)
      rw [child, child, entry_setEntry_of_ne h2]
    · rw [child_setEntry_of_ne htt]

include ht hnone

omit h hx hclear he in
theorem leafTable_none_of_child : leafTable m root p = none := by
  rw [leafTable, ht, Option.bind_some, hnone]

omit hx hclear in
theorem tables_addBottom : tables (setEntry m t p.2 e) root = x ::ₘ tables m root := by
  have hsum := sum_add_eq_of_agree (f := fun q => ofOption (leafTable (setEntry m t p.2 e) root q))
    (g := fun q => ofOption (leafTable m root q)) (mem_all p) fun q _ hq => by
      rw [h.leafTable_addBottom_of_ne ht hq]
  rw [h.leafTable_addBottom_self he ht, leafTable_none_of_child ht hnone, ofOption_none,
    add_zero, ofOption_some] at hsum
  rw [tables, tables, h.child_root_addBottom ht, hsum, ← singleton_add]
  abel

theorem lookup_addBottom : lookup (setEntry m t p.2 e) root = lookup m root := by
  funext vpn
  have hxt : x ≠ t := fun hxt => hx (hxt ▸ mem_tables_of_child ht)
  by_cases hq : pathOf vpn = p
  · have hself : leafTable (setEntry m t p.2 e) root (pathOf vpn) = some x := by
      rw [hq]
      exact h.leafTable_addBottom_self he ht
    have hnot : leafTable m root (pathOf vpn) = none := by
      rw [hq]
      exact leafTable_none_of_child ht hnone
    rw [lookup_of_some hself, lookup_of_none hnot,
      entry_of_cleared ((setEntry_of_ne hxt).trans hclear)]
  · have hleaf := h.leafTable_addBottom_of_ne (e := e) ht hq
    cases hl : leafTable m root (pathOf vpn) with
    | none => rw [lookup_of_none hl, lookup_of_none (hleaf.trans hl)]
    | some t' =>
      rw [lookup_of_some hl, lookup_of_some (hleaf.trans hl),
        entry_congr (setEntry_of_ne (h.leafTable_ne_child hl ht).symm)]

omit hclear in
theorem addBottom : Tree (setEntry m t p.2 e) root where
  nodup := by
    rw [h.tables_addBottom he ht hnone]
    exact nodup_cons.mpr ⟨hx, h.nodup⟩
  upper := by
    rw [h.child_root_addBottom ht]
    exact h.upper
  rootFlags := by
    rw [entry_congr (setEntry_of_ne (h.child_ne_root ht).symm)]
    exact h.rootFlags
  middleFlags := by
    intro i t' hc
    rw [h.child_root_addBottom ht] at hc
    by_cases htt : t' = t
    · subst htt
      intro j
      by_cases hj : j = p.2
      · subst hj
        rw [entry_setEntry_self]
        exact fun _ => he.flags
      · rw [entry_setEntry_of_ne hj]
        exact h.middleFlags i t' hc j
    · rw [entry_congr (setEntry_of_ne htt)]
      exact h.middleFlags i t' hc

end Bottom

end Tree

-- from here on trees are known by the lemmas above
attribute [irreducible] entry lookup

end Xv6
