import Xv6.Invariant

/-!
# Open files and pipes keep the invariant

A pipe is live as long as a file refers to one of its ends. The page of a pipe is freed by the file
that closes the last open end, so it is freed once and never leaked.
-/

namespace Xv6

open Ledger Prog Function Multiset

variable {extra : Multiset ℕ} {k k' k'' : Kernel} {f g : Fin nfile} {me : Fin nproc}
  {E : String → Prop} {Q : Unit → Kernel → Prop}

/-- What the functions on files leave alone. -/
structure FileStep (k k' : Kernel) : Prop where
  proc : k'.proc = k.proc
  boot : k'.bootPages = k.bootPages
  created : k'.created = k.created
  nextpid : k'.nextpid = k.nextpid
  initproc : k'.initproc = k.initproc
  notes : SameNotes (spaces k) k.vm k'.vm

theorem FileStep.refl (k : Kernel) : FileStep k k := ⟨rfl, rfl, rfl, rfl, rfl, .refl _ _⟩

theorem FileStep.spaces_eq (h : FileStep k k') : spaces k' = spaces k :=
  spaces_congr fun i => procSpace_congr h.notes.sym (by rw [h.proc]) (by rw [h.proc])
    (by rw [h.proc]) (by rw [h.proc])

theorem FileStep.trans (h : FileStep k k') (h' : FileStep k' k'') : FileStep k k'' :=
  ⟨h'.proc.trans h.proc, h'.boot.trans h.boot, h'.created.trans h.created,
    h'.nextpid.trans h.nextpid, h'.initproc.trans h.initproc,
    h.notes.trans (h.spaces_eq ▸ h'.notes)⟩

theorem KInv.fileStep (h : KInv extra k) (hvm : k'.vm = k.vm) (hs : FileStep k k')
    (hpipes : pipePages k' = pipePages k) (hfiles : FilesOk k') : KInv extra k' :=
  h.congr hvm (fun _ => hs.proc ▸ SameCore.refl _) hs.boot hs.created hs.nextpid hpipes hfiles

@[simp] theorem Kernel.setFile_file_self (k : Kernel) (f : Fin nfile) (x : File) :
    (k.setFile f x).file f = x := by
  simp [Kernel.setFile]

theorem Kernel.setFile_file_of_ne (k : Kernel) (x : File) (h : g ≠ f) :
    (k.setFile f x).file g = k.file g := by
  simp [Kernel.setFile, h]

theorem Kernel.fileStep_setFile (k : Kernel) (f : Fin nfile) (x : File) :
    FileStep k (k.setFile f x) :=
  ⟨rfl, rfl, rfl, rfl, rfl, .refl _ _⟩

/-! ### Reference counts -/

/-- A file whose count changes, or that becomes something else than a pipe. -/
theorem KInv.setFile (h : KInv extra k) {x : File} (href : x.ref = 0 → x.type = .none)
    (hx : x.type = (k.file f).type ∧ x.pipe = (k.file f).pipe ∧ x.writable = (k.file f).writable ∨
      (k.file f).type ≠ .pipe ∧ x.type ≠ .pipe) : KInv extra (k.setFile f x) := by
  -- on pipes nothing changes
  have hsame : ∀ g, ((k.setFile f x).file g).type = .pipe ↔ (k.file g).type = .pipe := by
    intro g
    by_cases hg : g = f
    · subst hg
      rw [Kernel.setFile_file_self]
      rcases hx with ⟨ht, -⟩ | ⟨hn, hn'⟩
      · rw [ht]
      · exact iff_of_false hn' hn
    · rw [Kernel.setFile_file_of_ne _ _ hg]
  have hpipe : ∀ g, (k.file g).type = .pipe → ((k.setFile f x).file g).pipe = (k.file g).pipe ∧
      ((k.setFile f x).file g).writable = (k.file g).writable := by
    intro g hg
    by_cases hgf : g = f
    · subst hgf
      rw [Kernel.setFile_file_self]
      rcases hx with ⟨-, hp, hw⟩ | ⟨hn, -⟩
      · exact ⟨hp, hw⟩
      · exact absurd hg hn
    · rw [Kernel.setFile_file_of_ne _ _ hgf]
      exact ⟨rfl, rfl⟩
  refine h.fileStep rfl (k.fileStep_setFile f x) ?_ ⟨fun g hg => ?_, fun g hg => ?_,
    fun a b ha hb hab hw => ?_, fun g hg w hw => ?_⟩
  · ext pi
    simp only [mem_pipePages]
    refine exists_congr fun g => ?_
    rw [hsame]
    exact and_congr_right fun hg => by rw [(hpipe g hg).1]
  · by_cases hgf : g = f
    · subst hgf
      rw [Kernel.setFile_file_self] at hg ⊢
      exact href hg
    · rw [Kernel.setFile_file_of_ne _ _ hgf] at hg ⊢
      exact h.files.closed g hg
  · have hg' := (hsame g).mp hg
    rw [(hpipe g hg').1, (hpipe g hg').2]
    exact h.files.opened g hg'
  · have ha' := (hsame a).mp ha
    have hb' := (hsame b).mp hb
    rw [(hpipe a ha').1, (hpipe b hb').1] at hab
    rw [(hpipe a ha').2, (hpipe b hb').2] at hw
    exact h.files.unique a b ha' hb' hab hw
  · have hg' := (hsame g).mp hg
    rw [(hpipe g hg').1] at hw ⊢
    obtain ⟨e, he, hpe, hwe⟩ := h.files.backed g hg' w hw
    exact ⟨e, (hsame e).mpr he, (hpipe e he).1.trans hpe, (hpipe e he).2.trans hwe⟩

theorem filealloc_spec (h : KInv extra k) {Q : Option (Fin nfile) → Kernel → Prop}
    (hnone : Q none k)
    (hsome : ∀ f k', KInv extra k' → FileStep k k' → k'.vm = k.vm → k'.pipe = k.pipe →
      (∀ g, g ≠ f → k'.file g = k.file g) → (k.file f).ref = 0 → (k'.file f).ref = 1 →
      (k'.file f).type = .none → Q (some f) k') :
    wp filealloc Q E k := by
  rw [filealloc, wp_bind, wp_get]
  cases hf : Table.first fun f => (k.file f).ref == 0 with
  | none => exact hnone
  | some f =>
    have href : (k.file f).ref = 0 := by simpa using Table.of_first hf
    have htype := h.files.closed f href
    refine hsome f _ (h.setFile (f := f) (x := { k.file f with ref := 1 }) ?_ ?_)
      (k.fileStep_setFile f _) rfl rfl (fun g hg => Kernel.setFile_file_of_ne _ _ hg) href ?_ ?_
    · exact fun h1 => absurd h1 Nat.one_ne_zero
    · exact Or.inl ⟨rfl, rfl, rfl⟩
    · rw [Kernel.setFile_file_self]
    · rw [Kernel.setFile_file_self]
      exact htype

theorem filedup_spec (h : KInv extra k) (hE : E "filedup")
    (hQ : ∀ k', KInv extra k' → FileStep k k' → k'.vm = k.vm → Q () k') :
    wp (filedup f) Q E k := by
  rw [filedup, wp_bind, wp_get]
  split_ifs with href
  · exact hE
  · refine hQ _ (h.setFile (x := { k.file f with ref := (k.file f).ref + 1 }) ?_ ?_)
      (k.fileStep_setFile f _) rfl
    · exact fun h0 => absurd h0 (Nat.succ_ne_zero _)
    · exact Or.inl ⟨rfl, rfl, rfl⟩

/-! ### Closing -/

/-- A pipe with one end closed. -/
def Pipe.close (p : Pipe) (w : Bool) : Pipe :=
  if w then { p with writeopen := false } else { p with readopen := false }

theorem Pipe.isOpen_close (p : Pipe) (w w' : Bool) :
    (p.close w).isOpen w' = true ↔ p.isOpen w' = true ∧ w' ≠ w := by
  cases w <;> cases w' <;> simp [Pipe.close, Pipe.isOpen]

theorem Pipe.close_flags (p : Pipe) (w : Bool) :
    (!(p.close w).readopen && !(p.close w).writeopen) = !(p.close w).isOpen (!w) := by
  cases w <;> simp [Pipe.close, Pipe.isOpen]

/-- The last reference to an end of a pipe is gone. -/
def Kernel.closeEnd (k : Kernel) (f : Fin nfile) : Kernel :=
  (k.setFile f { k.file f with ref := 0, type := .none }).setPipe (k.file f).pipe
    ((k.pipe (k.file f).pipe).close (k.file f).writable)

theorem Kernel.fileStep_closeEnd (k : Kernel) (f : Fin nfile) : FileStep k (k.closeEnd f) :=
  ⟨rfl, rfl, rfl, rfl, rfl, .refl _ _⟩

section CloseEnd

theorem Kernel.closeEnd_file_self (k : Kernel) (f : Fin nfile) :
    ((k.closeEnd f).file f).type = .none := by
  change ((k.setFile f { k.file f with ref := 0, type := .none }).file f).type = _
  rw [Kernel.setFile_file_self]

theorem Kernel.closeEnd_file_of_ne (k : Kernel) (hg : g ≠ f) : (k.closeEnd f).file g = k.file g :=
  Kernel.setFile_file_of_ne k _ hg

theorem Kernel.closeEnd_pipe (k : Kernel) (f : Fin nfile) (y : ℕ) :
    (k.closeEnd f).pipe y = if y = (k.file f).pipe then (k.pipe y).close (k.file f).writable
      else k.pipe y := by
  change update k.pipe (k.file f).pipe _ y = _
  split_ifs with hy
  · rw [hy, update_self]
  · rw [update_of_ne hy]

/-- A file that still refers to a pipe is another one. -/
theorem Kernel.of_closeEnd (hg : ((k.closeEnd f).file g).type = .pipe) :
    g ≠ f ∧ (k.file g).type = .pipe := by
  have hgf : g ≠ f := by
    rintro rfl
    rw [Kernel.closeEnd_file_self] at hg
    exact absurd hg (by decide)
  rw [k.closeEnd_file_of_ne hgf] at hg
  exact ⟨hgf, hg⟩

variable (h : FilesOk k) (htype : (k.file f).type = .pipe)

include h htype

/-- Another file of the same pipe has the other end. -/
theorem FilesOk.other_end (hgf : g ≠ f) (hg : (k.file g).type = .pipe)
    (hgp : (k.file g).pipe = (k.file f).pipe) : (k.file g).writable ≠ (k.file f).writable :=
  fun hgw => hgf (h.unique g f hg htype hgp hgw)

theorem FilesOk.closeEnd : FilesOk (k.closeEnd f) := by
  refine ⟨fun g hg => ?_, fun g hg => ?_, fun a b ha hb hab hw => ?_, fun g hg w hw => ?_⟩
  · by_cases hgf : g = f
    · rw [hgf]
      exact k.closeEnd_file_self f
    · rw [k.closeEnd_file_of_ne hgf] at hg ⊢
      exact h.closed g hg
  · obtain ⟨hgf, hg'⟩ := Kernel.of_closeEnd hg
    rw [k.closeEnd_file_of_ne hgf, k.closeEnd_pipe]
    split_ifs with hgp
    · exact (Pipe.isOpen_close _ _ _).mpr ⟨h.opened g hg', h.other_end htype hgf hg' hgp⟩
    · exact h.opened g hg'
  · obtain ⟨haf, ha'⟩ := Kernel.of_closeEnd ha
    obtain ⟨hbf, hb'⟩ := Kernel.of_closeEnd hb
    rw [k.closeEnd_file_of_ne haf, k.closeEnd_file_of_ne hbf] at hab hw
    exact h.unique a b ha' hb' hab hw
  · obtain ⟨hgf, hg'⟩ := Kernel.of_closeEnd hg
    rw [k.closeEnd_file_of_ne hgf] at hw ⊢
    -- the file behind the flag is not the one that was closed
    have hflag : (k.pipe (k.file g).pipe).isOpen w = true ∧
        ((k.file g).pipe = (k.file f).pipe → w ≠ (k.file f).writable) := by
      rw [k.closeEnd_pipe] at hw
      split_ifs at hw with hgp
      · exact ⟨((Pipe.isOpen_close _ _ _).mp hw).1, fun _ => ((Pipe.isOpen_close _ _ _).mp hw).2⟩
      · exact ⟨hw, fun hgp' => absurd hgp' hgp⟩
    obtain ⟨e, he, hpe, hwe⟩ := h.backed g hg' w hflag.1
    have hef : e ≠ f := by
      rintro rfl
      exact hflag.2 hpe.symm hwe.symm
    refine ⟨e, ?_, ?_, ?_⟩
    all_goals rw [k.closeEnd_file_of_ne hef]
    · exact he
    · exact hpe
    · exact hwe

theorem FilesOk.pipePages_closeEnd (hopen : (k.pipe (k.file f).pipe).isOpen
    (!(k.file f).writable) = true) : pipePages (k.closeEnd f) = pipePages k := by
  obtain ⟨e, he, hpe, hwe⟩ := h.backed f htype _ hopen
  have hef : e ≠ f := by
    rintro rfl
    exact Bool.not_ne_self _ hwe.symm
  ext y
  rw [mem_pipePages, mem_pipePages]
  constructor
  · rintro ⟨g, hg, hgp⟩
    obtain ⟨hgf, hg'⟩ := Kernel.of_closeEnd hg
    exact ⟨g, hg', by rw [← hgp, k.closeEnd_file_of_ne hgf]⟩
  · rintro ⟨g, hg, rfl⟩
    by_cases hgf : g = f
    · exact ⟨e, by rw [k.closeEnd_file_of_ne hef, he], by rw [k.closeEnd_file_of_ne hef, hpe, hgf]⟩
    · exact ⟨g, by rw [k.closeEnd_file_of_ne hgf, hg], by rw [k.closeEnd_file_of_ne hgf]⟩

theorem FilesOk.pipePages_closeEnd_of_last (hlast : (k.pipe (k.file f).pipe).isOpen
    (!(k.file f).writable) = false) :
    (pipePages k).val = (k.file f).pipe ::ₘ (pipePages (k.closeEnd f)).val := by
  have hgone : (k.file f).pipe ∉ pipePages (k.closeEnd f) := by
    rw [mem_pipePages]
    rintro ⟨g, hg, hgp⟩
    obtain ⟨hgf, hg'⟩ := Kernel.of_closeEnd hg
    rw [k.closeEnd_file_of_ne hgf] at hgp
    have hwg : (k.file g).writable = !(k.file f).writable :=
      Bool.eq_not.mpr (h.other_end htype hgf hg' hgp)
    rw [← hgp, ← hwg, h.opened g hg'] at hlast
    nomatch hlast.symm
  have hinsert : pipePages k = insert (k.file f).pipe (pipePages (k.closeEnd f)) := by
    ext y
    rw [mem_pipePages, Finset.mem_insert, mem_pipePages]
    constructor
    · rintro ⟨g, hg, rfl⟩
      by_cases hgf : g = f
      · exact Or.inl (by rw [hgf])
      · exact Or.inr ⟨g, by rw [k.closeEnd_file_of_ne hgf, hg], by rw [k.closeEnd_file_of_ne hgf]⟩
    · rintro (rfl | ⟨g, hg, hgp⟩)
      · exact ⟨f, htype, rfl⟩
      · obtain ⟨hgf, hg'⟩ := Kernel.of_closeEnd hg
        exact ⟨g, hg', by rw [← hgp, k.closeEnd_file_of_ne hgf]⟩
  rw [hinsert, Finset.insert_val_of_notMem hgone]

end CloseEnd

/-- Pages move between the free list and the kernel's hand while everything else of the invariant
stays. -/
theorem KInv.regive {extra' : Multiset ℕ} (h : KInv extra k) (hs : FileStep k k')
    (hkeep : Keeps (spaces k) k.vm k'.vm) (hfiles : FilesOk k')
    (hvm : VmInv (spaces k) (extra' + held k') k'.vm) : KInv extra' k' := by
  refine ⟨?_, ?_, ?_, ?_, ?_, ?_, hfiles, ?_, fun i root hroot => ?_, ?_, ?_⟩
  · rw [hs.spaces_eq]
    exact hvm
  · rw [hs.proc]
    exact h.unused
  · rw [hs.proc, hs.created]
    exact h.live
  · rw [hs.proc]
    exact h.size
  · rw [hs.proc]
    exact h.pids
  · rw [hs.nextpid, hs.created]
    exact h.nextpid
  · rw [hs.proc]
    exact h.books.sound
  · rw [hs.proc] at hroot
    have hcount : swapCount k'.vm.kmem.mem root = swapCount k.vm.kmem.mem root :=
      swapCount_congr fun u hu => (hkeep.same _ (spaceOf_mem hroot) u hu).1
    rw [Kernel.debt, hs.proc, hcount]
    exact h.books.swapped i root hroot
  · rw [hs.proc, hkeep.tally]
    exact h.books.resident
  · rw [hs.created, hkeep.tally]
    exact h.books.fresh

/-- **Closing the last reference to an end of a pipe.** -/
theorem pipeclose_spec (h : KInv extra k) (htype : (k.file f).type = .pipe)
    (hQ : ∀ k', KInv extra k' → FileStep k k' → Q () k') :
    wp (pipeclose (k.file f).pipe (k.file f).writable) Q E
      (k.setFile f { k.file f with ref := 0, type := .none }) := by
  rw [pipeclose, wp_bind, wp_get, wp_bind, wp_modify]
  change wp (if (!((k.pipe (k.file f).pipe).close (k.file f).writable).readopen
      && !((k.pipe (k.file f).pipe).close (k.file f).writable).writeopen) = true
    then onVm (onKmem (kfree (k.file f).pipe)) else pure ()) Q E (k.closeEnd f)
  rw [Pipe.close_flags]
  have hstep := k.fileStep_closeEnd f
  have hfiles := h.files.closeEnd htype
  have hother : ((k.pipe (k.file f).pipe).close (k.file f).writable).isOpen (!(k.file f).writable)
      = (k.pipe (k.file f).pipe).isOpen (!(k.file f).writable) := by
    rw [Bool.eq_iff_iff, Pipe.isOpen_close]
    exact and_iff_left (Bool.not_ne_self _)
  rw [hother]
  cases hopen : (k.pipe (k.file f).pipe).isOpen (!(k.file f).writable) with
  | true =>
    rw [Bool.not_true, if_neg Bool.false_ne_true]
    exact hQ _ (h.fileStep rfl hstep (h.files.pipePages_closeEnd htype hopen) hfiles) hstep
  | false =>
    rw [Bool.not_false, if_pos rfl, wp_onVm]
    have hheld : extra + held k = (k.file f).pipe ::ₘ (extra + held (k.closeEnd f)) := by
      rw [held, h.files.pipePages_closeEnd_of_last htype hopen, held, add_cons,
        add_cons]
      rfl
    have hvm := h.vm
    rw [hheld] at hvm
    refine wp_kfree hvm fun v' h' hkeep _ _ _ _ _ => ?_
    have hs : FileStep k ((k.closeEnd f).setVm v') := ⟨rfl, rfl, rfl, rfl, rfl, hkeep.sameNotes⟩
    exact hQ _ (h.regive hs hkeep (hfiles.congr rfl rfl) h') hs

/-- **`fileclose`** keeps the invariant. -/
theorem fileclose_spec (h : KInv extra k) (hE : E "fileclose")
    (hQ : ∀ k', KInv extra k' → FileStep k k' → Q () k') : wp (fileclose f) Q E k := by
  rw [fileclose, wp_bind, wp_get]
  dsimp only
  split_ifs with href hmore htype
  · exact hE
  · refine hQ _ (h.setFile (x := { k.file f with ref := (k.file f).ref - 1 }) ?_ ?_)
      (k.fileStep_setFile f _)
    · exact fun h0 => absurd h0 (Nat.pos_iff_ne_zero.mp hmore)
    · exact Or.inl ⟨rfl, rfl, rfl⟩
  · rw [wp_bind]
    exact pipeclose_spec h htype hQ
  · rw [wp_bind]
    refine hQ _ (h.setFile (x := { k.file f with ref := 0, type := .none }) (fun _ => rfl) ?_)
      (k.fileStep_setFile f _)
    exact Or.inr ⟨htype, by simp⟩

/-! ### New pipes -/

section PipeInit

variable {f0 f1 : Fin nfile} {pi : ℕ}

/-- The state after `pipealloc` has initialized a pipe. -/
def Kernel.initPipe (k : Kernel) (f0 f1 : Fin nfile) (pi : ℕ) : Kernel :=
  ((k.setPipe pi ⟨true, true⟩).setFile f0
    { k.file f0 with type := .pipe, readable := true, writable := false, pipe := pi }).setFile f1
    { k.file f1 with type := .pipe, readable := false, writable := true, pipe := pi }

theorem wp_pipeInit (hne : f1 ≠ f0) :
    wp (pipeInit f0 f1 pi) Q E k ↔ Q () (k.initPipe f0 f1 pi) := by
  simp only [pipeInit, wp_bind, wp_modify, updateFile]
  rw [Kernel.setFile_file_of_ne _ _ hne]
  rfl

theorem Kernel.initPipe_file (k : Kernel) (hne : f1 ≠ f0) (pi : ℕ) (g : Fin nfile) :
    (k.initPipe f0 f1 pi).file g =
      if g = f1 then { k.file f1 with type := .pipe, readable := false, writable := true, pipe := pi }
      else if g = f0 then
        { k.file f0 with type := .pipe, readable := true, writable := false, pipe := pi }
      else k.file g := by
  rw [Kernel.initPipe]
  split_ifs with h1 h0
  · rw [h1, Kernel.setFile_file_self]
  · rw [h0, Kernel.setFile_file_of_ne _ _ (Ne.symm hne), Kernel.setFile_file_self]
  · rw [Kernel.setFile_file_of_ne _ _ h1, Kernel.setFile_file_of_ne _ _ h0]
    rfl

theorem Kernel.initPipe_pipe (k : Kernel) (f0 f1 : Fin nfile) (pi y : ℕ) :
    (k.initPipe f0 f1 pi).pipe y = if y = pi then ⟨true, true⟩ else k.pipe y := by
  change update k.pipe pi ⟨true, true⟩ y = _
  split_ifs with hy
  · rw [hy, update_self]
  · rw [update_of_ne hy]

/-- **A new pipe** takes its page from the kernel's hand. -/
theorem KInv.initPipe (h : KInv (pi ::ₘ extra) k) (hne : f1 ≠ f0)
    (h0 : (k.file f0).ref = 1 ∧ (k.file f0).type = .none)
    (h1 : (k.file f1).ref = 1 ∧ (k.file f1).type = .none) :
    KInv extra (k.initPipe f0 f1 pi) := by
  have hnew : pi ∉ pipePages k := by
    have hnd := nodup_right (nodup_left h.vm.nodup)
    rw [held] at hnd
    intro hmem
    rw [← add_assoc] at hnd
    refine not_mem_of_mem_left hnd ?_ hmem
    exact mem_add.mpr (Or.inl (mem_cons_self pi extra))
  have hfile := k.initPipe_file hne pi
  have hpipe := k.initPipe_pipe f0 f1 pi
  -- the files of old pipes are other files, of other pipes
  have hold : ∀ g, (k.file g).type = .pipe → g ≠ f1 ∧ g ≠ f0 ∧ (k.file g).pipe ≠ pi := by
    intro g hg
    refine ⟨?_, ?_, fun hgp => hnew (mem_pipePages.mpr ⟨g, hg, hgp⟩)⟩
    · rintro rfl
      rw [h1.2] at hg
      exact absurd hg (by decide)
    · rintro rfl
      rw [h0.2] at hg
      exact absurd hg (by decide)
  have hcases : ∀ g, ((k.initPipe f0 f1 pi).file g).type = .pipe →
      g = f1 ∨ g = f0 ∨ (g ≠ f1 ∧ g ≠ f0 ∧ (k.file g).type = .pipe) := by
    intro g hg
    by_cases hg1 : g = f1
    · exact Or.inl hg1
    · by_cases hg0 : g = f0
      · exact Or.inr (Or.inl hg0)
      · rw [hfile, if_neg hg1, if_neg hg0] at hg
        exact Or.inr (Or.inr ⟨hg1, hg0, hg⟩)
  have hat1 : (k.initPipe f0 f1 pi).file f1
      = { k.file f1 with type := .pipe, readable := false, writable := true, pipe := pi } := by
    rw [hfile, if_pos rfl]
  have hat0 : (k.initPipe f0 f1 pi).file f0
      = { k.file f0 with type := .pipe, readable := true, writable := false, pipe := pi } := by
    rw [hfile, if_neg (Ne.symm hne), if_pos rfl]
  have hat : ∀ g, (k.file g).type = .pipe → (k.initPipe f0 f1 pi).file g = k.file g := by
    intro g hg
    rw [hfile, if_neg (hold g hg).1, if_neg (hold g hg).2.1]
  have hpages : (pipePages (k.initPipe f0 f1 pi)).val = pi ::ₘ (pipePages k).val := by
    rw [← Finset.insert_val_of_notMem hnew]
    congr 1
    ext y
    rw [Finset.mem_insert, mem_pipePages, mem_pipePages]
    constructor
    · rintro ⟨g, hg, rfl⟩
      rcases hcases g hg with rfl | rfl | ⟨-, -, hg'⟩
      · exact Or.inl (by rw [hat1])
      · exact Or.inl (by rw [hat0])
      · exact Or.inr ⟨g, hg', by rw [hat g hg']⟩
    · rintro (rfl | ⟨g, hg, rfl⟩)
      · exact ⟨f1, by rw [hat1], by rw [hat1]⟩
      · exact ⟨g, by rw [hat g hg, hg], by rw [hat g hg]⟩
  have hfiles : FilesOk (k.initPipe f0 f1 pi) := by
    refine ⟨fun g hg => ?_, fun g hg => ?_, fun a b ha hb hab hw => ?_, fun g hg w hw => ?_⟩
    · by_cases hg1 : g = f1
      · rw [hg1, hat1] at hg
        exact absurd (h1.1.symm.trans hg) Nat.one_ne_zero
      · by_cases hg0 : g = f0
        · rw [hg0, hat0] at hg
          exact absurd (h0.1.symm.trans hg) Nat.one_ne_zero
        · rw [hfile, if_neg hg1, if_neg hg0] at hg ⊢
          exact h.files.closed g hg
    · rcases hcases g hg with rfl | rfl | ⟨-, -, hg'⟩
      · rw [hat1, hpipe, if_pos rfl]
        rfl
      · rw [hat0, hpipe, if_pos rfl]
        rfl
      · rw [hat g hg', hpipe, if_neg (hold g hg').2.2]
        exact h.files.opened g hg'
    · rcases hcases a ha with rfl | rfl | ⟨-, -, ha'⟩ <;>
        rcases hcases b hb with rfl | rfl | ⟨-, -, hb'⟩
      · rfl
      · rw [hat1, hat0] at hw
        exact absurd hw (by simp)
      · rw [hat1, hat b hb'] at hab
        exact absurd hab.symm (hold b hb').2.2
      · rw [hat1, hat0] at hw
        exact absurd hw (by simp)
      · rfl
      · rw [hat0, hat b hb'] at hab
        exact absurd hab.symm (hold b hb').2.2
      · rw [hat1, hat a ha'] at hab
        exact absurd hab (hold a ha').2.2
      · rw [hat0, hat a ha'] at hab
        exact absurd hab (hold a ha').2.2
      · rw [hat a ha', hat b hb'] at hab hw
        exact h.files.unique a b ha' hb' hab hw
    · have hends : ∀ w, ∃ e, ((k.initPipe f0 f1 pi).file e).type = .pipe ∧
          ((k.initPipe f0 f1 pi).file e).pipe = pi ∧
          ((k.initPipe f0 f1 pi).file e).writable = w := by
        rintro (_ | _)
        · exact ⟨f0, by rw [hat0], by rw [hat0], by rw [hat0]⟩
        · exact ⟨f1, by rw [hat1], by rw [hat1], by rw [hat1]⟩
      rcases hcases g hg with rfl | rfl | ⟨-, -, hg'⟩
      · rw [hat1]
        exact hends w
      · rw [hat0]
        exact hends w
      · rw [hat g hg', hpipe, if_neg (hold g hg').2.2] at hw
        obtain ⟨e, he, hpe, hwe⟩ := h.files.backed g hg' w hw
        refine ⟨e, ?_, ?_, ?_⟩
        all_goals rw [hat e he]
        · exact he
        · rw [hpe, hat g hg']
        · exact hwe
  refine h.regive ⟨rfl, rfl, rfl, rfl, rfl, .refl _ _⟩ (.refl _ _) hfiles ?_
  have hheld : extra + held (k.initPipe f0 f1 pi) = pi ::ₘ extra + held k := by
    rw [held, held, hpages, add_cons, add_cons, cons_add]
    rfl
  rw [hheld]
  exact h.vm

end PipeInit

/-- **`pipealloc`** keeps the invariant, also when it fails. -/
theorem pipealloc_spec (h : KInv extra k) (hE : E "fileclose")
    {Q : Option (Fin nfile × Fin nfile) → Kernel → Prop}
    (hQ : ∀ r k', KInv extra k' → FileStep k k' → Q r k') : wp pipealloc Q E k := by
  rw [pipealloc, wp_bind]
  refine filealloc_spec h (hQ _ _ h (.refl k)) fun f0 k₁ h₁ hs₁ _ _ _ _ hr₁ ht₁ => ?_
  rw [wp_bind]
  refine filealloc_spec h₁ ?_ fun f1 k₂ h₂ hs₂ _ _ hsame₂ hr₂ hr₂' ht₂ => ?_
  · rw [wp_bind]
    exact fileclose_spec h₁ hE fun k₂ h₂ hs₂ => hQ _ _ h₂ (hs₁.trans hs₂)
  have hs := hs₁.trans hs₂
  have hne : f1 ≠ f0 := by
    rintro rfl
    rw [hr₁] at hr₂
    exact absurd hr₂ Nat.one_ne_zero
  rw [wp_bind, wp_onVm]
  refine wp_kalloc h₂.vm (fun _ => ?_) fun pi v h₃ hkeep _ _ _ _ _ _ => ?_
  · rw [Kernel.setVm_self, wp_bind]
    refine fileclose_spec h₂ hE fun k₃ h₃ hs₃ => ?_
    rw [wp_bind]
    exact fileclose_spec h₃ hE fun k₄ h₄ hs₄ => hQ _ _ h₄ (hs.trans (hs₃.trans hs₄))
  · rw [wp_bind, wp_pipeInit hne]
    have hfile : (k₂.setVm v).file = k₂.file := rfl
    have hs₃ : FileStep k₂ (k₂.setVm v) := ⟨rfl, rfl, rfl, rfl, rfl, hkeep.sameNotes⟩
    have h₃' : KInv (pi ::ₘ extra) (k₂.setVm v) :=
      h₂.regive hs₃ hkeep (h₂.files.congr rfl rfl) (by rw [cons_add]; exact h₃)
    refine hQ _ _ (h₃'.initPipe hne ?_ ?_) (hs.trans (hs₃.trans ⟨rfl, rfl, rfl, rfl, rfl, .refl _ _⟩))
    · rw [hfile, hsame₂ f0 (Ne.symm hne)]
      exact ⟨hr₁, ht₁⟩
    · rw [hfile]
      exact ⟨hr₂', ht₂⟩

end Xv6
