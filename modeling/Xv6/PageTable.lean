import Xv6.Kalloc

/-!
# Page tables

The part of `vm.c` that reads and builds page tables: `walk` and what is written on top of it. A
page table is a tree of physical pages; an entry is named by the page it is in and its index,
which is what a `pte_t *` of the code points to.

`freewalk` is recursive in the code with no bound. Here it takes a depth, and runs out of it only
on a table more than three levels deep; that this never happens is proved where trees are.
-/

namespace Xv6

/-- A `pte_t *`: an entry of a page-table page. -/
structure PtePtr where
  /-- The page-table page. -/
  page : ℕ
  /-- The index of the entry. -/
  idx : Fin 512
  deriving DecidableEq

/-- `*pte`. -/
def Kmem.pte (s : Kmem) (p : PtePtr) : Pte := word (s.mem p.page) p.idx

/-- `*pte = e`. -/
def Kmem.setPte (s : Kmem) (p : PtePtr) (e : Pte) : Kmem :=
  s.setPage p.page (setWord (s.mem p.page) p.idx e)

/-- `*pte`. -/
def readPte (p : PtePtr) : Prog Kmem Pte := do
  let s ← Prog.get
  return s.pte p

/-- `*pte = e`. -/
def writePte (p : PtePtr) (e : Pte) : Prog Kmem Unit := Prog.modify fun s => s.setPte p e

/-- One level of `walk`: the page-table page that the entry names, made if it may be. -/
def walkLevel (alloc : Bool) (pte : PtePtr) : Prog Kmem (Option ℕ) := do
  let e ← readPte pte
  if e.has pteV then return some (pte2pa e)
  else if alloc then
    match ← kalloc with
    | none => return none
    | some pagetable => do
      writePage pagetable (fill 0)
      writePte pte (pa2pte pagetable ||| pteV)
      return some pagetable
  else return none

/-- The address of the entry for `va`; `none` is the null pointer. With `alloc`, the page-table
pages on the way are created. -/
def walk (pagetable va : ℕ) (alloc : Bool) : Prog Kmem (Option PtePtr) :=
  if maxva ≤ va then Prog.panic "walk"
  else do
    match ← walkLevel alloc ⟨pagetable, px 2 va⟩ with
    | none => return none
    | some t1 =>
      match ← walkLevel alloc ⟨t1, px 1 va⟩ with
      | none => return none
      | some t0 => return some ⟨t0, px 0 va⟩

/-- The physical address of a user page; `none` is the code's 0. -/
def walkaddr (pagetable va : ℕ) : Prog Kmem (Option ℕ) :=
  if maxva ≤ va then return none
  else do
    match ← walk pagetable va false with
    | none => return none
    | some pte => do
      let e ← readPte pte
      if !e.has pteV then return none
      else if !e.has pteU then return none
      else return some (pte2pa e)

/-- One iteration of `mappages`; `false` is the code's `return -1`. -/
def mapPage (pagetable a pa : ℕ) (perm : Pte) : Prog Kmem Bool := do
  match ← walk pagetable a true with
  | none => return false
  | some pte => do
    let e ← readPte pte
    if e.has pteV then Prog.panic "mappages: remap"
    else do
      writePte pte (mkPte pa perm)
      return true

/-- The loop of `mappages`, with `n` pages to go after the current one. -/
def mappagesFrom (pagetable a pa : ℕ) (perm : Pte) : ℕ → Prog Kmem Bool
  | 0 => mapPage pagetable a pa perm
  | n + 1 => do
    if ← mapPage pagetable a pa perm then
      mappagesFrom pagetable (a + pgsize) (pa + pgsize) perm n
    else return false

/-- Create entries for the pages from `va` on that refer to the pages from `pa` on. `false` is the
code's `-1`: a page-table page could not be allocated. -/
def mappages (pagetable va size pa : ℕ) (perm : Pte) : Prog Kmem Bool :=
  if va % pgsize ≠ 0 then Prog.panic "mappages: va not aligned"
  else if size % pgsize ≠ 0 then Prog.panic "mappages: size not aligned"
  else if size = 0 then Prog.panic "mappages: size"
  else mappagesFrom pagetable va pa perm (size / pgsize - 1)

/-- Create an empty user page table. -/
def uvmcreate : Prog Kmem (Option ℕ) := do
  match ← kalloc with
  | none => return none
  | some pagetable => do
    writePage pagetable (fill 0)
    return some pagetable

/-- Mark an entry invalid for user access. -/
def uvmclear (pagetable va : ℕ) : Prog Kmem Unit := do
  match ← walk pagetable va false with
  | none => Prog.panic "uvmclear"
  | some pte => do
    let e ← readPte pte
    writePte pte (e &&& ~~~pteU)

/-- Whether `va` has a valid entry. -/
def ismapped (pagetable va : ℕ) : Prog Kmem Bool := do
  match ← walk pagetable va false with
  | none => return false
  | some pte => do
    let e ← readPte pte
    return e.has pteV

/-- Free the page-table pages below and including `pagetable`, at most `depth` levels. All leaf
mappings must already have been removed. -/
def freewalk : ℕ → ℕ → Prog Kmem Unit
  | 0, _ => Prog.panic "freewalk: depth"
  | depth + 1, pagetable => do
    -- there are 2^9 = 512 PTEs in a page table.
    Prog.forEach (List.finRange 512) fun i => do
      let pte ← readPte ⟨pagetable, i⟩
      if pte.has pteV && !pte.has (pteR ||| pteW ||| pteX) then do
        -- this PTE points to a lower-level page table.
        freewalk depth (pte2pa pte)
        writePte ⟨pagetable, i⟩ 0#64
      else if pte.has pteV then Prog.panic "freewalk: leaf"
      else return ()
    kfree pagetable

end Xv6
