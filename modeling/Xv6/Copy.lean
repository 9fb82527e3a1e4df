import Xv6.Fault

/-!
# Copies between kernel and user memory

`copyin`, `copyout` and `copyinstr` of `vm.c`. Each is a loop over the pages of a user range. Every
iteration moves at least one byte, so the number of bytes left bounds the number of iterations and
is used as the fuel of the recursion.
-/

namespace Xv6

/-! ### Bytes of a page -/

/-- The byte at an offset; the offset is in the page in every use. -/
def byteAt (pg : Page) (i : ℕ) : Byte := if h : i < 8 * 512 then pg ⟨i, h⟩ else 0

/-- The `n` bytes from `off` on. -/
def readBytes (pg : Page) (off n : ℕ) : List Byte := (List.range n).map fun j => byteAt pg (off + j)

/-- The page with `bs` written from `off` on. -/
def writeBytes (pg : Page) (off : ℕ) (bs : List Byte) : Page := fun i =>
  if off ≤ i ∧ i < off + bs.length then bs.getD (i - off) 0 else pg i

/-! ### One iteration -/

/-- The frame of a user page, brought in if it is not mapped; `none` is the code's 0. -/
def copyFrame (me : Fin nproc) (pagetable va0 : ℕ) : Prog Kernel (Option ℕ) := do
  match ← onVm (onKmem (walkaddr pagetable va0)) with
  | some pa0 => return some pa0
  | none => vmfaultAlloc me pagetable va0

/-- `memmove` to a user frame. -/
def copyoutMove (pa0 off : ℕ) (src : List Byte) : Prog Kernel Unit :=
  onVm (onKmem (Prog.modify fun s => s.setPage pa0 (writeBytes (s.mem pa0) off src)))

/-- `memmove` from a user frame. -/
def copyinMove (pa0 off n : ℕ) : Prog Kernel (List Byte) := do
  let k ← Prog.get
  return readBytes (k.vm.kmem.mem pa0) off n

/-! ### The loops -/

/-- The loop of `copyout`; `false` is the code's -1. -/
def copyoutFrom (me : Fin nproc) (pagetable : ℕ) : ℕ → ℕ → List Byte → Prog Kernel Bool
  | 0, _, _ => return true
  | fuel + 1, dstva, src =>
    if src.isEmpty then return true
    else
      let va0 := pgrounddown dstva
      if maxva ≤ va0 then return false
      else do
        match ← copyFrame me pagetable va0 with
        | none => return false
        | some pa0 =>
          match ← onVm (onKmem (walk pagetable va0 false)) with
          | none => Prog.panic "kerneltrap" -- a null pointer is dereferenced
          | some pte => do
            let e ← onVm (onKmem (readPte pte))
            -- forbid copyout over read-only user text pages.
            if !e.has pteW then return false
            else do
              let n := min (pgsize - (dstva - va0)) src.length
              copyoutMove pa0 (dstva - va0) (src.take n)
              copyoutFrom me pagetable fuel (va0 + pgsize) (src.drop n)

/-- Copy `src` to virtual address `dstva` of a page table. -/
def copyout (me : Fin nproc) (pagetable dstva : ℕ) (src : List Byte) : Prog Kernel Bool :=
  copyoutFrom me pagetable src.length dstva src

/-- The loop of `copyin`; `none` is the code's -1. -/
def copyinFrom (me : Fin nproc) (pagetable : ℕ) : ℕ → ℕ → ℕ → Prog Kernel (Option (List Byte))
  | 0, _, _ => return some []
  | fuel + 1, srcva, len =>
    if len = 0 then return some []
    else do
      let va0 := pgrounddown srcva
      match ← copyFrame me pagetable va0 with
      | none => return none
      | some pa0 => do
        let n := min (pgsize - (srcva - va0)) len
        let bytes ← copyinMove pa0 (srcva - va0) n
        match ← copyinFrom me pagetable fuel (va0 + pgsize) (len - n) with
        | none => return none
        | some rest => return some (bytes ++ rest)

/-- Copy `len` bytes from virtual address `srcva` of a page table. -/
def copyin (me : Fin nproc) (pagetable srcva len : ℕ) : Prog Kernel (Option (List Byte)) :=
  copyinFrom me pagetable len srcva len

/-- The loop of `copyinstr`. It does not bring pages in. -/
def copyinstrFrom (pagetable : ℕ) : ℕ → ℕ → ℕ → Prog Kernel (Option (List Byte))
  | 0, _, _ => return none
  | fuel + 1, srcva, max =>
    if max = 0 then return none
    else do
      let va0 := pgrounddown srcva
      match ← onVm (onKmem (walkaddr pagetable va0)) with
      | none => return none
      | some pa0 => do
        let n := min (pgsize - (srcva - va0)) max
        let bytes ← copyinMove pa0 (srcva - va0) n
        if bytes.contains 0 then return some (bytes.takeWhile (· != 0))
        else
          match ← copyinstrFrom pagetable fuel (va0 + pgsize) (max - n) with
          | none => return none
          | some rest => return some (bytes ++ rest)

/-- Copy a string from virtual address `srcva`, at most `max` bytes with its null. The null is not
part of the result. -/
def copyinstr (pagetable srcva max : ℕ) : Prog Kernel (Option (List Byte)) :=
  copyinstrFrom pagetable max srcva max

end Xv6
