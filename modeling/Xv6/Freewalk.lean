import Xv6.PageTableSpec

/-!
# Freeing a page table

`freewalk` recurses through the tables of a tree and frees each after its entries. It knows no
levels: it descends where an entry is valid and has no permission bits. So the specification is by
induction on a depth, about the pages `subtree` reaches, and only at the end is the tree of
`PageTree.lean` recognised as the subtree of depth three.
-/

namespace Xv6

open Ledger Prog Multiset

/-- The pages `freewalk` reaches from table `t` in `d` levels. -/
noncomputable def subtree (m : ℕ → Page) : ℕ → ℕ → Multiset ℕ
  | 0, _ => 0
  | d + 1, t => {t} + ∑ i ∈ all (Fin 512), (child m t i).elim 0 (subtree m d)

/-- Below `t` there are `d` levels of tables and no leaf. -/
def Bare (m : ℕ → Page) : ℕ → ℕ → Prop
  | 0, _ => False
  | d + 1, t => ∀ i t', child m t i = some t' →
      (entry m t i).has (pteR ||| pteW ||| pteX) = false ∧ Bare m d t'

variable {m m' : ℕ → Page} {E : String → Prop}

theorem mem_subtree_self (m : ℕ → Page) (d t : ℕ) : t ∈ subtree m (d + 1) t := by
  simp [subtree]

theorem mem_subtree_of_child {d t t' x : ℕ} {i : Fin 512} (hc : child m t i = some t')
    (hx : x ∈ subtree m d t') : x ∈ subtree m (d + 1) t := by
  rw [subtree]
  refine mem_add.mpr (Or.inr (mem_sum_of_mem (mem_all i) ?_))
  rw [hc]
  exact hx

theorem subtree_congr : ∀ {d t : ℕ}, (∀ x ∈ subtree m d t, m' x = m x) →
    subtree m' d t = subtree m d t := by
  intro d
  induction d with
  | zero => intro t _; rfl
  | succ d ih =>
    intro t h
    rw [subtree, subtree, child_congr (h t (mem_subtree_self m d t))]
    congr 1
    refine Finset.sum_congr rfl fun i _ => ?_
    cases hc : child m t i with
    | none => rw [Option.elim_none, Option.elim_none]
    | some t' =>
      rw [Option.elim_some, Option.elim_some]
      exact ih fun x hx => h x (mem_subtree_of_child hc hx)

theorem Bare.congr : ∀ {d t : ℕ}, Bare m d t → (∀ x ∈ subtree m d t, m' x = m x) →
    Bare m' d t := by
  intro d
  induction d with
  | zero => intro t h _; exact h
  | succ d ih =>
    intro t h heq i t' hc
    have ht := heq t (mem_subtree_self m d t)
    rw [child_congr ht] at hc
    obtain ⟨hflags, hbare⟩ := h i t' hc
    rw [entry_congr ht]
    exact ⟨hflags, ih hbare fun x hx => heq x (mem_subtree_of_child hc hx)⟩

/-- The sum over the indices of a table, in the order of the loop. -/
theorem sum_finRange {n : ℕ} (f : Fin n → Multiset ℕ) :
    ((List.finRange n).map f).sum = ∑ i ∈ all (Fin n), f i := by
  have hall : all (Fin n) = Finset.univ := by
    ext i
    simp
  rw [hall, Fin.sum_univ_def]

/-- What holds in the loop of `freewalk` while the entries of `rest` are still to be visited:
they are untouched, and so is everything below them. -/
structure FreeLoop (d t : ℕ) (s₀ : Kmem) (rest : List (Fin 512)) (s : Kmem) : Prop where
  sym : s.sym = s₀.sym
  refreed : s.refreed = s₀.refreed
  distinct : rest.Nodup
  entries : ∀ i ∈ rest, entry s.mem t i = entry s₀.mem t i
  below : ∀ i ∈ rest, ∀ t', child s₀.mem t i = some t' →
    ∀ x ∈ subtree s₀.mem d t', s.mem x = s₀.mem x
  frame : ∀ x, x ∉ subtree s₀.mem (d + 1) t → s.mem x = s₀.mem x
  pages : (s.freelist : Multiset ℕ)
      + (rest.map fun i => (child s₀.mem t i).elim 0 (subtree s₀.mem d)).sum
    = s₀.freelist + ∑ i ∈ all (Fin 512), (child s₀.mem t i).elim 0 (subtree s₀.mem d)

theorem freewalk_spec : ∀ {d t : ℕ} {s : Kmem}, Bare s.mem d t →
    (subtree s.mem d t + (s.freelist : Multiset ℕ)).Nodup →
    (∀ x ∈ subtree s.mem d t, x ∈ physPages s.sym) →
    wp (freewalk d t) (fun _ s' => s'.sym = s.sym ∧ s'.refreed = s.refreed ∧
      (s'.freelist : Multiset ℕ) = subtree s.mem d t + s.freelist ∧
      ∀ x, x ∉ subtree s.mem d t → s'.mem x = s.mem x) E s := by
  intro d
  induction d with
  | zero => intro t s h; exact h.elim
  | succ d ih =>
    intro t s hbare hnd hphys
    have ht : t ∈ subtree s.mem (d + 1) t := mem_subtree_self s.mem d t
    -- the page of the table is in none of its subtrees
    have hsub : ∀ i t', child s.mem t i = some t' → t ∉ subtree s.mem d t' := by
      intro i t' hc hmem
      have hnd' := nodup_left hnd
      rw [subtree] at hnd'
      refine not_mem_of_mem_left hnd' (mem_singleton_self t) ?_
      refine mem_sum_of_mem (mem_all i) ?_
      rw [hc]
      exact hmem
    have hstart : FreeLoop d t s (List.finRange 512) s :=
      ⟨rfl, rfl, List.nodup_finRange 512, fun _ _ => rfl, fun _ _ _ _ _ _ => rfl,
        fun _ _ => rfl, by rw [sum_finRange]⟩
    rw [freewalk, wp_bind]
    generalize List.finRange 512 = entries at hstart
    refine wp_imp (wp_forEach (FreeLoop d t s) ?_ hstart) ?_
    · rintro i rest s₁ ⟨hsym, hre, hdist, hent, hbel, hfr, hpg⟩
      obtain ⟨hi, hrest⟩ := List.nodup_cons.mp hdist
      have hent_i := hent i List.mem_cons_self
      rw [wp_bind, wp_readPte, hent_i]
      rw [List.map_cons, List.sum_cons] at hpg
      by_cases hv : (entry s.mem t i).has pteV = true
      · have hc : child s.mem t i = some (pte2pa (entry s.mem t i)) := by rw [child, if_pos hv]
        set t' := pte2pa (entry s.mem t i)
        obtain ⟨hflags, hbare'⟩ := hbare i t' hc
        rw [hc, Option.elim_some] at hpg
        have hag := hbel i List.mem_cons_self t' hc
        have hst := subtree_congr hag
        -- the subtree of entry `i` is still apart from the free list
        have hnd₁ : (subtree s₁.mem d t' + (s₁.freelist : Multiset ℕ)).Nodup := by
          have htot : (s.freelist + ∑ i ∈ all (Fin 512),
              (child s.mem t i).elim 0 (subtree s.mem d) : Multiset ℕ).Nodup := by
            rw [subtree, add_assoc, add_comm] at hnd
            rw [add_comm]
            refine nodup_left (b := {t}) ?_
            rwa [add_comm (∑ i ∈ all (Fin 512), _)] at hnd ⊢
          rw [← hpg, ← add_assoc] at htot
          rw [hst, add_comm]
          exact nodup_left htot
        have hphys₁ : ∀ x ∈ subtree s₁.mem d t', x ∈ physPages s₁.sym := by
          rw [hst, hsym]
          exact fun x hx => hphys x (mem_subtree_of_child hc hx)
        simp only [hv, hflags, Bool.not_false, Bool.and_true, if_true, wp_bind]
        refine wp_imp (ih (hbare'.congr hag) hnd₁ hphys₁) ?_
        rintro - s₂ ⟨hsym₂, hre₂, hF₂, hfr₂⟩
        rw [hst] at hF₂ hfr₂
        rw [wp_writePte]
        have htt : t ∉ subtree s.mem d t' := hsub i t' hc
        refine ⟨hsym₂.trans hsym, hre₂.trans hre, hrest, ?_, ?_, ?_, ?_⟩
        · intro j hj
          have hji : j ≠ i := by rintro rfl; exact hi hj
          rw [← hent j (List.mem_cons_of_mem _ hj), ← entry_congr (hfr₂ t htt)]
          exact entry_setEntry_of_ne hji
        · intro j hj t'' hc'' x hx
          have hxt : x ≠ t := by rintro rfl; exact hsub j t'' hc'' hx
          have hx' : x ∉ subtree s.mem d t' := by
            intro hx'
            have hnd' := nodup_left hnd
            rw [subtree] at hnd'
            have hji : j = i := eq_of_mem_sum (nodup_right hnd') (mem_all j) (mem_all i)
              (by rw [hc'']; exact hx) (by rw [hc]; exact hx')
            exact hi (hji ▸ hj)
          rw [Kmem.setPte, Kmem.setPage_mem_of_ne _ _ hxt, hfr₂ x hx',
            hbel j (List.mem_cons_of_mem _ hj) t'' hc'' x hx]
        · intro x hx
          have hxt : x ≠ t := by rintro rfl; exact hx ht
          have hx' : x ∉ subtree s.mem d t' := fun hx' => hx (mem_subtree_of_child hc hx')
          rw [Kmem.setPte, Kmem.setPage_mem_of_ne _ _ hxt, hfr₂ x hx', hfr x hx]
        · rw [← hpg]
          change (s₂.freelist : Multiset ℕ) + _ = _
          rw [hF₂]
          abel
      · have hc : child s.mem t i = none := by rw [child, if_neg hv]
        rw [hc, Option.elim_none, zero_add] at hpg
        simp only [hv, Bool.false_and, Bool.false_eq_true, if_false, wp_pure]
        exact ⟨hsym, hre, hrest, fun j hj => hent j (List.mem_cons_of_mem _ hj),
          fun j hj => hbel j (List.mem_cons_of_mem _ hj), hfr, hpg⟩
    · rintro - s₁ ⟨hsym, hre, -, -, -, hfr, hpg⟩
      rw [List.map_nil, List.sum_nil, add_zero] at hpg
      have hpt : t ∈ physPages s₁.sym := by
        rw [hsym]
        exact hphys t ht
      have hfresh : t ∉ s₁.freelist := by
        rw [subtree, add_assoc] at hnd
        have := not_mem_of_mem_left hnd (mem_singleton_self t)
        rw [add_comm, ← hpg] at this
        exact fun hmem => this (mem_coe.mpr hmem)
      refine wp_imp (kfree_spec hpt) ?_
      rintro - s₂ rfl
      refine ⟨hsym, (Kmem.push_refreed hfresh).trans hre, ?_, ?_⟩
      · rw [Kmem.push_freelist, Kmem.setPage_freelist, ← cons_coe, hpg, subtree,
          ← singleton_add]
        abel
      · intro x hx
        have hxt : x ≠ t := by rintro rfl; exact hx ht
        rw [Kmem.push_mem, Kmem.setPage_mem_of_ne _ _ hxt, hfr x hx]

/-! ### Page tables as subtrees -/

theorem sum_all_prod {α β : Type} [Finite α] [Finite β] (f : α × β → Multiset ℕ) :
    ∑ p ∈ all (α × β), f p = ∑ a ∈ all α, ∑ b ∈ all β, f (a, b) := by
  have hall : all (α × β) = all α ×ˢ all β := by
    ext p
    simp
  rw [hall, Finset.sum_product]

theorem subtree_one (m : ℕ → Page) (t : ℕ) : subtree m 1 t = {t} := by
  have hzero : ∀ i : Fin 512, (child m t i).elim 0 (subtree m 0) = 0 := by
    intro i
    cases child m t i <;> rfl
  rw [subtree, Finset.sum_congr rfl fun i _ => hzero i, Finset.sum_const_zero, add_zero]

theorem subtree_two (m : ℕ → Page) (t : ℕ) :
    subtree m 2 t = {t} + ∑ j ∈ all (Fin 512), ofOption (child m t j) := by
  rw [subtree]
  congr 1
  refine Finset.sum_congr rfl fun j _ => ?_
  cases child m t j with
  | none => rfl
  | some t0 => rw [Option.elim_some, subtree_one, ofOption_some]

/-- The tree of a page table is the subtree of depth three. -/
theorem tables_eq_subtree (m : ℕ → Page) (root : ℕ) : tables m root = subtree m 3 root := by
  rw [tables, subtree, sum_all_prod, add_assoc, ← Finset.sum_add_distrib]
  congr 1
  refine Finset.sum_congr rfl fun i _ => ?_
  cases hc : child m root i with
  | none =>
    have hnone : ∀ j, leafTable m root (i, j) = none := fun j => by
      rw [leafTable, hc, Option.bind_none]
    simp [hnone]
  | some t =>
    have hsome : ∀ j, leafTable m root (i, j) = child m t j := fun j => by
      rw [leafTable, hc, Option.bind_some]
    simp only [hsome, ofOption_some, Option.elim_some, subtree_two]

/-- A tree none of whose leaf entries is valid can be walked to the bottom. -/
theorem Tree.bare {root : ℕ} (h : Tree m root)
    (hleaf : ∀ vpn < maxVpn, (lookup m root vpn).has pteV = false) : Bare m 3 root := by
  intro i t1 hc
  refine ⟨h.rootFlags i ?_, fun j t0 hc' => ⟨h.middleFlags i t1 hc j ?_, fun k t' hk => ?_⟩⟩
  · by_contra hv
    rw [child, if_neg hv] at hc
    exact absurd hc (by simp)
  · by_contra hv
    rw [child, if_neg hv] at hc'
    exact absurd hc' (by simp)
  · have hi : (i : ℕ) < 256 := by
      by_contra hi
      rw [h.upper i (not_lt.mp hi)] at hc
      exact absurd hc (by simp)
    obtain ⟨vpn, hv, hpath, hslot⟩ := exists_vpn (p := (i, j)) hi k
    have hl : leafTable m root (pathOf vpn) = some t0 := by
      rw [hpath]
      exact leafTable_eq_some.mpr ⟨t1, hc, hc'⟩
    have hval := hleaf vpn hv
    rw [lookup_of_some hl, hslot] at hval
    rw [child, if_neg (by rw [hval]; exact Bool.false_ne_true)] at hk
    exact absurd hk (by simp)

end Xv6
