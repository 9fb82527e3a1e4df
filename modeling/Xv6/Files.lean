import Xv6.Proc

/-!
# Open files and pipes

The reference counts of `file.c` and the life of a pipe from `pipe.c`. A pipe lives in a page of
its own, which is allocated by `pipealloc` and freed by `pipeclose` when both ends are closed. What
flows through a pipe is not modelled here, and the inodes behind the other kinds of file are not
either.
-/

namespace Xv6

/-- Change an open file. -/
def updateFile (f : Fin nfile) (g : File → File) : Prog Kernel Unit :=
  Prog.modify fun k => k.setFile f (g (k.file f))

/-- Allocate a file structure. -/
def filealloc : Prog Kernel (Option (Fin nfile)) := do
  let k ← Prog.get
  match Table.first fun f => (k.file f).ref == 0 with
  | none => return none
  | some f => do
    updateFile f fun x => { x with ref := 1 }
    return some f

/-- Increment the reference count of a file. -/
def filedup (f : Fin nfile) : Prog Kernel Unit := do
  let k ← Prog.get
  if (k.file f).ref < 1 then Prog.panic "filedup"
  else updateFile f fun x => { x with ref := x.ref + 1 }

/-- Close one end of a pipe, and free it when both are closed. -/
def pipeclose (pi : ℕ) (writable : Bool) : Prog Kernel Unit := do
  let k ← Prog.get
  let p := if writable then { k.pipe pi with writeopen := false }
    else { k.pipe pi with readopen := false }
  Prog.modify fun k => k.setPipe pi p
  if !p.readopen && !p.writeopen then onVm (onKmem (kfree pi))

/-- Close a file: decrement the reference count, close when it reaches 0. -/
def fileclose (f : Fin nfile) : Prog Kernel Unit := do
  let k ← Prog.get
  let ff := k.file f
  if ff.ref < 1 then Prog.panic "fileclose"
  else if 0 < ff.ref - 1 then updateFile f fun x => { x with ref := x.ref - 1 }
  else do
    updateFile f fun x => { x with ref := 0, type := .none }
    if ff.type = .pipe then pipeclose ff.pipe ff.writable

/-- What `pipealloc` does once it has two files and a page. -/
def pipeInit (f0 f1 : Fin nfile) (pi : ℕ) : Prog Kernel Unit := do
  Prog.modify fun k => k.setPipe pi ⟨true, true⟩
  updateFile f0 fun x => { x with type := .pipe, readable := true, writable := false, pipe := pi }
  updateFile f1 fun x => { x with type := .pipe, readable := false, writable := true, pipe := pi }

/-- Allocate a pipe and its two files; `none` is the code's -1. -/
def pipealloc : Prog Kernel (Option (Fin nfile × Fin nfile)) := do
  match ← filealloc with
  | none => return none
  | some f0 =>
    match ← filealloc with
    | none => do
      fileclose f0
      return none
    | some f1 =>
      match ← onVm (onKmem kalloc) with
      | none => do
        fileclose f0
        fileclose f1
        return none
      | some pi => do
        pipeInit f0 f1 pi
        return some (f0, f1)

/-- Give a file the first free descriptor of a process; `none` is the code's -1. -/
def fdalloc (me : Fin nproc) (f : Fin nfile) : Prog Kernel (Option (Fin nofile)) := do
  let k ← Prog.get
  match Table.first fun fd => ((k.proc me).ofile fd).isNone with
  | none => return none
  | some fd => do
    updateProc me fun p => { p with ofile := Function.update p.ofile fd (some f) }
    return some fd

/-- Clear a descriptor. -/
def fdclear (me : Fin nproc) (fd : Fin nofile) : Prog Kernel Unit :=
  updateProc me fun p => { p with ofile := Function.update p.ofile fd none }

end Xv6
