import Xv6.Lib.Interleave
import Xv6.Lib.Ring
import Xv6.Proc

/-!
# The console

`consoleintr` and `consoleread` of `console.c`. Three counters run through one buffer: the interrupt
handler edits a line between `w` and `e`, and readers take what is between `r` and `w`. A call of
`consoleread` gives up `cons.lock` where it sleeps and where it returns, and only there; what it does
in between is one step here, and so is an interrupt.

What the console is for is said by a reference editor that has no buffer: a line that is being
edited and the list of all characters that have been committed. It is run beside the code, on the
same characters. Because the handler drops what does not fit, the editor has to know how many of the
committed characters have been read.

## Scope

Copies to user memory succeed here. Whether the reader is found killed is decided outside, each time
it would sleep. Every call of `consoleread` is a thread of its own, so that there may be any number
of them, one after the other or at the same time.
-/

namespace Xv6

open Threads Prog

/-- `INPUT_BUF_SIZE`. -/
def inputBufSize : ℕ := 128

instance : NeZero inputBufSize := ⟨by decide⟩

/-- `C(x)`, control-x. -/
def ctrl (x : Char) : Byte := BitVec.ofNat 8 (x.toNat - '@'.toNat)

/-- The delete key. -/
def deleteKey : Byte := 0x7f

/-- A newline. -/
def newline : Byte := 10

/-- A carriage return is stored as a newline. -/
def crToNl (c : Byte) : Byte := if c = 13 then newline else c

/-- A character that ends a line. -/
def EndsLine (c : Byte) : Prop := c = newline ∨ c = ctrl 'D'

instance (c : Byte) : Decidable (EndsLine c) := inferInstanceAs (Decidable (_ ∨ _))

/-! ### The reference -/

/-- A line editor: what has been committed, how much of that has been read, and the line that is
being edited. -/
structure Editor where
  committed : List Byte
  taken : ℕ
  line : List Byte

/-- The number of characters that have not been read. -/
def Editor.pending (ed : Editor) : ℕ := ed.committed.length - ed.taken + ed.line.length

/-- Commit the line. -/
def Editor.commit (ed : Editor) : Editor :=
  { ed with committed := ed.committed ++ ed.line, line := [] }

/-- **A key is typed.** -/
def Editor.type (ed : Editor) (c : Byte) : Editor :=
  if c = 0 ∨ c = ctrl 'P' then ed
  else if c = ctrl 'U' then { ed with line := [] }
  else if c = ctrl 'H' ∨ c = deleteKey then { ed with line := ed.line.dropLast }
  else if ed.pending < inputBufSize then
    let ed := { ed with line := ed.line ++ [crToNl c] }
    if EndsLine (crToNl c) ∨ ed.pending = inputBufSize then ed.commit else ed
  else ed

/-! ### The code -/

/-- `cons`, used by the calls `ι`. -/
structure Cons (ι : Type) where
  /-- `buf`, with `r` as its reader's counter and `e` as its writer's. -/
  ring : Ring Byte inputBufSize 32
  /-- `w`. -/
  w : BitVec 32
  /-- What has been sent to the UART. -/
  echoed : List Byte
  /-- The reference. No code reads this. -/
  editor : Editor
  /-- The characters that have been taken out of the buffer, with the call that did it. No code
  reads this. -/
  log : List (ι × Byte)

namespace Cons

variable {ι : Type}

/-- `r`. -/
def r (s : Cons ι) : BitVec 32 := s.ring.nread

/-- `e`. -/
def e (s : Cons ι) : BitVec 32 := s.ring.nwrite

/-- At boot everything is zero. -/
def boot (ι : Type) : Cons ι where
  ring := ⟨fun _ => 0, 0#32, 0#32⟩
  w := 0#32
  echoed := []
  editor := ⟨[], 0, []⟩
  log := []

/-- `consputc`. -/
def consputc (s : Cons ι) (c : Byte) : Cons ι := { s with echoed := s.echoed ++ [c] }

/-- `consputc(BACKSPACE)` overwrites with a space. -/
def consputcBackspace (s : Cons ι) : Cons ι := { s with echoed := s.echoed ++ [8, 32, 8] }

/-- `cons.e--`, with its echo. -/
def erase (s : Cons ι) : Cons ι := { s with ring := s.ring.unpush }.consputcBackspace

/-- The loop of control-U. At most `n` characters have not been committed. -/
def killLine : ℕ → Cons ι → Cons ι
  | 0, s => s
  | n + 1, s => if s.e ≠ s.w ∧ s.ring.last ≠ newline then killLine n s.erase else s

/-- `cons.buf[cons.e++ % INPUT_BUF_SIZE] = c`, with its echo. -/
def store (s : Cons ι) (c : Byte) : Cons ι :=
  let s := s.consputc c
  { s with ring := s.ring.push c }

/-- What `consoleintr` does to the buffer. -/
def intr (s : Cons ι) (c : Byte) : Cons ι :=
  if c = ctrl 'P' then s -- prints the process list
  else if c = ctrl 'U' then killLine (s.e - s.w).toNat s
  else if c = ctrl 'H' ∨ c = deleteKey then if s.e ≠ s.w then s.erase else s
  else if c ≠ 0 ∧ (s.e - s.r).toNat < inputBufSize then
    let s := s.store (crToNl c)
    if EndsLine (crToNl c) ∨ (s.e - s.r).toNat = inputBufSize then { s with w := s.e } else s
  else s

/-- A call has taken a character. -/
def note (s : Cons ι) (me : ι) (c : Byte) : Cons ι :=
  { s with
    log := s.log ++ [(me, c)]
    editor := { s.editor with taken := s.editor.taken + 1 } }

end Cons

/-- Where a call of `consoleread` stands. -/
inductive ConsPc where
  /-- Not yet made; or this thread is the interrupt handler. -/
  | idle
  /-- At the top of the loop with `n` bytes to go, holding the lock or about to. -/
  | read (n : ℕ)
  /-- Returned `r`, after `mark` characters in all had been taken from the buffer. -/
  | done (r : ℤ) (mark : ℕ)

section Calls

variable {ι : Type}

/-- The console interrupt handler, and the reference. -/
def consoleintr (c : Byte) : Prog (Cons ι) Unit :=
  Prog.modify fun s => { s.intr c with editor := s.editor.type c }

/-- Return from `consoleread`. -/
def consoleret (r : ℤ) : Prog (Cons ι) ConsPc := do
  let s ← Prog.get
  return .done r s.log.length

/-- The loop of `consoleread`, with `n` of `target` bytes to go. `killed` is what the process finds
when it would sleep. -/
def consolereadFrom (me : ι) (killed : Bool) (target : ℕ) : ℕ → Prog (Cons ι) ConsPc
  | 0 => consoleret target
  | n + 1 => do
    let s ← Prog.get
    if s.r = s.w then
      if killed then consoleret (-1) else return .read (n + 1)
    else do
      let c := s.ring.front
      Prog.modify fun s => { s with ring := s.ring.pop }
      if c = ctrl 'D' then do -- end-of-file
        if n + 1 < target then
          -- save ^D for next time
          Prog.modify fun s => { s with ring := s.ring.unpop }
        else Prog.modify fun s => s.note me c
        consoleret ((target : ℤ) - (n + 1))
      else do
        Prog.modify fun s => s.note me c
        if c = newline then consoleret ((target : ℤ) - n)
        else consolereadFrom me killed target n

/-- **What can happen next.** Thread `none` is the UART; a call `i` asks for `size i` bytes. A
negative size asks for nothing. -/
inductive consThreads (size : ι → ℤ) : Threads (Option ι) (Cons ι) ConsPc
  | intr {pc : ConsPc} (c : Byte) : consThreads size none pc (do consoleintr c; return pc)
  | enter {i : ι} : consThreads size (some i) .idle (return .read (size i).toNat)
  | read {i : ι} (n : ℕ) (killed : Bool) :
      consThreads size (some i) (.read n) (consolereadFrom i killed (size i).toNat n)

end Calls

/-! ### The buffer -/

namespace Cons

/-- The buffer holds what has been committed and not been read, and then the line. -/
structure Holds {ι : Type} (s : Cons ι) (committed line got : List Byte) : Prop where
  ring : s.ring.Carries (committed ++ line) got
  w : s.w = BitVec.ofNat 32 committed.length
  got : got <+: committed

theorem inputBufSize_dvd : inputBufSize ∣ 2 ^ 32 := ⟨2 ^ 25, by decide⟩

theorem inputBufSize_lt : inputBufSize < 2 ^ 32 := by decide

section Holds

variable {ι : Type} {s : Cons ι} {committed line got : List Byte}
  (h : s.Holds committed line got)

include h

/-- The window of the reader: how far `w` is from `r`. -/
theorem Holds.exists_unread : ∃ d ≤ inputBufSize, committed.length = got.length + d := by
  have hle := h.got.length_le
  have hroom := h.ring.room
  rw [List.length_append] at hroom
  exact ⟨committed.length - got.length, by omega, by omega⟩

theorem Holds.unread : (s.w - s.r).toNat = committed.length - got.length := by
  obtain ⟨d, hd, hlen⟩ := h.exists_unread
  have hlt := inputBufSize_lt
  have hsub : s.w - s.r = BitVec.ofNat 32 d := by
    rw [h.w, r, h.ring.nread, hlen, BitVec.ofNat_add, BitVec.add_comm, BitVec.add_sub_cancel]
  rw [hsub, BitVec.toNat_ofNat, Nat.mod_eq_of_lt (by omega)]
  omega

theorem Holds.distance : (s.e - s.r).toNat = committed.length - got.length + line.length := by
  have hdist := h.ring.distance inputBufSize_lt
  have hle := h.got.length_le
  rw [List.length_append] at hdist
  exact hdist.trans (by omega)

theorem Holds.editing : (s.e - s.w).toNat = line.length := by
  have hle := h.got.length_le
  have hroom := h.ring.room
  rw [List.length_append] at hroom
  have hlt := inputBufSize_lt
  have hsub : s.e - s.w = BitVec.ofNat 32 line.length := by
    rw [e, h.w, h.ring.nwrite, List.length_append, BitVec.ofNat_add, BitVec.add_comm,
      BitVec.add_sub_cancel]
  rw [hsub, BitVec.toNat_ofNat, Nat.mod_eq_of_lt (by omega)]

theorem Holds.room : committed.length - got.length + line.length ≤ inputBufSize := by
  have hroom := h.ring.room
  have hle := h.got.length_le
  rw [List.length_append] at hroom
  omega

theorem Holds.e_eq_w_iff : s.e = s.w ↔ line = [] := by
  have hsub : s.e = s.w ↔ (s.e - s.w).toNat = 0 := by
    rw [← BitVec.toNat_inj, BitVec.toNat_sub]
    have := s.e.isLt
    have := s.w.isLt
    omega
  rw [hsub, h.editing, List.length_eq_zero_iff]

theorem Holds.r_eq_w_iff : s.r = s.w ↔ committed.length = got.length := by
  have hle := h.got.length_le
  have hsub : s.r = s.w ↔ (s.w - s.r).toNat = 0 := by
    rw [← BitVec.toNat_inj, BitVec.toNat_sub]
    have := s.r.isLt
    have := s.w.isLt
    omega
  rw [hsub, h.unread]
  omega

/-- The last character of the line is the last one in the buffer. -/
theorem Holds.last_eq (hne : line ≠ []) : s.ring.last = line.getLast hne := by
  have hpos := List.length_pos_iff.mpr hne
  have hle := h.got.length_le
  rw [h.ring.last_eq inputBufSize_dvd (by rw [List.length_append]; omega),
    List.getLast_append_of_ne_nil _ hne]

/-- **Backspace.** -/
theorem Holds.erase (hne : line ≠ []) : s.erase.Holds committed line.dropLast got := by
  have hpos := List.length_pos_iff.mpr hne
  have hle := h.got.length_le
  refine ⟨?_, h.w, h.got⟩
  have hring := h.ring.unpush (by rw [List.length_append]; omega)
  rw [List.dropLast_append_of_ne_nil hne] at hring
  exact hring

/-- **A character that fits.** -/
theorem Holds.store (c : Byte) (hroom : (s.e - s.r).toNat < inputBufSize) :
    (s.store c).Holds committed (line ++ [c]) got := by
  refine ⟨?_, h.w, h.got⟩
  have hfull : s.ring.isFull = false := by
    rw [← Bool.not_eq_true, h.ring.isFull_iff inputBufSize_lt, List.length_append]
    rw [h.distance] at hroom
    have hle := h.got.length_le
    omega
  have hring := h.ring.push inputBufSize_dvd inputBufSize_lt hfull c
  rw [List.append_assoc] at hring
  exact hring

theorem Holds.commit : ({ s with w := s.e } : Cons ι).Holds (committed ++ line) [] got := by
  refine ⟨?_, h.ring.nwrite, h.got.trans (List.prefix_append _ _)⟩
  rw [List.append_nil]
  exact h.ring

end Holds

section Loops

variable {ι : Type} {committed got : List Byte}

/-- **Control-U** erases the line, which has no newline in it, and stops at `w`. -/
theorem Holds.killLine : ∀ {line : List Byte} {s : Cons ι}, s.Holds committed line got →
    newline ∉ line → (killLine line.length s).Holds committed [] got := by
  intro line
  induction hn : line.length generalizing line with
  | zero =>
    intro s h _
    rw [List.length_eq_zero_iff.mp hn] at h
    exact h
  | succ n ih =>
    intro s h hnl
    have hne : line ≠ [] := List.length_pos_iff.mp (by omega)
    have hlast : s.ring.last ≠ newline := by
      rw [h.last_eq hne]
      exact fun heq => hnl (heq ▸ List.getLast_mem hne)
    rw [Cons.killLine, if_pos ⟨fun heq => hne (h.e_eq_w_iff.mp heq), hlast⟩]
    exact ih (by rw [List.length_dropLast, hn, Nat.add_sub_cancel]) (h.erase hne)
      fun hmem => hnl (List.mem_of_mem_dropLast hmem)

variable {line : List Byte} {s : Cons ι}

theorem Holds.front_eq (h : s.Holds committed line got) (hne : s.r ≠ s.w) :
    committed[got.length]? = some s.ring.front := by
  have hle := h.got.length_le
  have hlt : got.length < committed.length :=
    lt_of_le_of_ne hle fun heq => hne (h.r_eq_w_iff.mpr heq.symm)
  rw [h.ring.front_eq inputBufSize_dvd (by rw [List.length_append]; omega),
    List.getElem_append_left hlt]
  exact List.getElem?_eq_getElem hlt

/-- **A reader takes a character.** -/
theorem Holds.take (h : s.Holds committed line got) (hne : s.r ≠ s.w) :
    ({ s with ring := s.ring.pop } : Cons ι).Holds committed line (got ++ [s.ring.front]) := by
  have hle := h.got.length_le
  have hlt : got.length < committed.length :=
    lt_of_le_of_ne hle fun heq => hne (h.r_eq_w_iff.mpr heq.symm)
  have hempty : s.ring.isEmpty = false := by
    rw [← Bool.not_eq_true, h.ring.isEmpty_iff inputBufSize_lt, List.length_append]
    omega
  refine ⟨h.ring.pop inputBufSize_dvd inputBufSize_lt hempty, h.w, ?_⟩
  have hfront := h.front_eq hne
  obtain ⟨rest, rfl⟩ := h.got
  cases rest with
  | nil => exact absurd hlt (by simp)
  | cons c rest =>
    have hc : c = s.ring.front := by simpa using hfront
    exact ⟨rest, by simp [hc]⟩

end Loops

/-! ### The handler -/

/-- **The code and the reference agree.** A line that is being edited has no end. -/
structure Ok {ι : Type} (s : Cons ι) : Prop where
  holds : s.Holds s.editor.committed s.editor.line (s.log.map Prod.snd)
  taken : s.editor.taken = s.log.length
  line : ∀ c ∈ s.editor.line, ¬EndsLine c

section Handler

variable {ι : Type} {s : Cons ι}

theorem Ok.pending (h : s.Ok) : (s.e - s.r).toNat = s.editor.pending := by
  rw [h.holds.distance, List.length_map, Editor.pending, h.taken]

theorem killLine_log (n : ℕ) (s : Cons ι) : (Cons.killLine n s).log = s.log := by
  induction n generalizing s with
  | zero => rfl
  | succ n ih =>
    rw [Cons.killLine]
    split_ifs
    · exact ih s.erase
    · rfl

theorem intr_log (s : Cons ι) (c : Byte) : (s.intr c).log = s.log := by
  unfold intr
  dsimp only
  split_ifs
  all_goals first
    | rfl
    | exact killLine_log _ s

theorem committed_type (ed : Editor) (c : Byte) : ed.committed <+: (ed.type c).committed := by
  unfold Editor.type
  dsimp only
  split_ifs
  all_goals first
    | exact List.prefix_rfl
    | exact List.prefix_append _ _

theorem taken_type (ed : Editor) (c : Byte) : (ed.type c).taken = ed.taken := by
  unfold Editor.type
  dsimp only
  split_ifs <;> rfl

/-- A character that is stored, by the code and by the reference. -/
theorem Ok.store (h : s.Ok) (c : Byte) (hroom : (s.e - s.r).toNat < inputBufSize)
    {s' : Cons ι} {ed : Editor}
    (hs : s' = if EndsLine c ∨ ((s.store c).e - (s.store c).r).toNat = inputBufSize then
      { s.store c with w := (s.store c).e } else s.store c)
    (hed : ed = if EndsLine c ∨
        ({ s.editor with line := s.editor.line ++ [c] } : Editor).pending = inputBufSize then
      ({ s.editor with line := s.editor.line ++ [c] } : Editor).commit
      else { s.editor with line := s.editor.line ++ [c] }) :
    s'.Holds ed.committed ed.line (s.log.map Prod.snd) ∧ ∀ c ∈ ed.line, ¬EndsLine c := by
  have hstore := h.holds.store c hroom
  have hpending : ((s.store c).e - (s.store c).r).toNat
      = ({ s.editor with line := s.editor.line ++ [c] } : Editor).pending := by
    rw [hstore.distance, Editor.pending, h.taken, List.length_map]
  rw [hpending] at hs
  by_cases hend : EndsLine c ∨
      ({ s.editor with line := s.editor.line ++ [c] } : Editor).pending = inputBufSize
  · rw [if_pos hend] at hs hed
    rw [hs, hed]
    exact ⟨hstore.commit, fun _ hc => absurd hc List.not_mem_nil⟩
  · rw [if_neg hend] at hs hed
    rw [hs, hed]
    refine ⟨hstore, fun d hd => ?_⟩
    rcases List.mem_append.mp hd with hd | hd
    · exact h.line d hd
    · rw [List.mem_singleton.mp hd]
      exact fun hc => hend (Or.inl hc)

/-- **An interrupt** does to the buffer what the reference does. -/
theorem Ok.intr (h : s.Ok) (c : Byte) :
    ({ s.intr c with editor := s.editor.type c } : Cons ι).Ok := by
  suffices hmain : (s.intr c).Holds (s.editor.type c).committed (s.editor.type c).line
      (s.log.map Prod.snd) ∧ ∀ d ∈ (s.editor.type c).line, ¬EndsLine d by
    refine ⟨?_, ?_, hmain.2⟩
    · have hholds := hmain.1
      rw [← intr_log s c] at hholds
      exact ⟨hholds.ring, hholds.w, hholds.got⟩
    · change (s.editor.type c).taken = (s.intr c).log.length
      rw [taken_type, intr_log, h.taken]
  have hsame : s.Holds s.editor.committed s.editor.line (s.log.map Prod.snd) ∧
      ∀ d ∈ s.editor.line, ¬EndsLine d := ⟨h.holds, h.line⟩
  unfold Cons.intr Editor.type
  by_cases hP : c = ctrl 'P'
  · rw [if_pos hP, if_pos (Or.inr hP)]
    exact hsame
  rw [if_neg hP]
  by_cases hzero : c = 0
  · subst hzero
    rw [if_pos (Or.inl rfl), if_neg (by decide), if_neg (by decide), if_neg fun hne => hne.1 rfl]
    exact hsame
  rw [if_neg (not_or.mpr ⟨hzero, hP⟩)]
  by_cases hU : c = ctrl 'U'
  · rw [if_pos hU, if_pos hU, h.holds.editing]
    exact ⟨h.holds.killLine fun hnl => h.line _ hnl (Or.inl rfl),
      fun _ hd => absurd hd List.not_mem_nil⟩
  rw [if_neg hU, if_neg hU]
  by_cases hH : c = ctrl 'H' ∨ c = deleteKey
  · rw [if_pos hH, if_pos hH]
    refine ⟨?_, fun d hd => h.line d (List.mem_of_mem_dropLast hd)⟩
    by_cases hline : s.editor.line = []
    · rw [if_neg (not_not.mpr (h.holds.e_eq_w_iff.mpr hline)), hline]
      have hholds := h.holds
      rw [hline] at hholds
      exact hholds
    · rw [if_pos fun heq => hline (h.holds.e_eq_w_iff.mp heq)]
      exact h.holds.erase hline
  rw [if_neg hH, if_neg hH, ← h.pending]
  by_cases hroom : (s.e - s.r).toNat < inputBufSize
  · rw [if_pos ⟨hzero, hroom⟩, if_pos hroom]
    exact h.store (crToNl c) hroom rfl rfl
  · rw [if_neg fun hand => hroom hand.2, if_neg hroom]
    exact hsame

end Handler

/-! ### Readers -/

section Readers

variable {ι : Type} [DecidableEq ι]

/-- What a call has taken from the buffer. -/
def bytes (s : Cons ι) (i : ι) : List Byte := (s.log.filter fun x => x.1 = i).map Prod.snd

theorem bytes_note_self (s : Cons ι) (me : ι) (c : Byte) :
    (s.note me c).bytes me = s.bytes me ++ [c] := by
  simp [bytes, note]

theorem bytes_note_of_ne (s : Cons ι) {me j : ι} (hj : j ≠ me) (c : Byte) :
    (s.note me c).bytes j = s.bytes j := by
  simp [bytes, note, Ne.symm hj]

/-- A step of call `me`: the reference has only been read from, and the other calls have taken
nothing. -/
structure ReadStep (me : ι) (s s' : Cons ι) : Prop where
  ok : s'.Ok
  committed : s'.editor.committed = s.editor.committed
  others : ∀ j, j ≠ me → s'.bytes j = s.bytes j

omit [DecidableEq ι] in
theorem Ok.untake {s : Cons ι} (h : s.Ok) :
    ({ s with ring := s.ring.pop.unpop } : Cons ι).Ok := by
  rw [Ring.unpop_pop]
  exact h

theorem Ok.take {s : Cons ι} (h : s.Ok) (hne : s.r ≠ s.w) (me : ι) :
    ReadStep me s (({ s with ring := s.ring.pop } : Cons ι).note me s.ring.front) := by
  refine ⟨⟨?_, ?_, h.line⟩, rfl, fun j hj => bytes_note_of_ne _ hj _⟩
  · have hholds := h.holds.take hne
    have hlog : (({ s with ring := s.ring.pop } : Cons ι).note me s.ring.front).log.map Prod.snd
        = s.log.map Prod.snd ++ [s.ring.front] := by
      simp [note]
    rw [← hlog] at hholds
    exact ⟨hholds.ring, hholds.w, hholds.got⟩
  · change s.editor.taken + 1 = (s.log ++ [(me, s.ring.front)]).length
    rw [h.taken, List.length_append, List.length_singleton]

theorem ReadStep.trans {me : ι} {s s' s'' : Cons ι} (h : ReadStep me s s')
    (h' : ReadStep me s' s'') : ReadStep me s s'' :=
  ⟨h'.ok, h'.committed.trans h.committed, fun j hj => (h'.others j hj).trans (h.others j hj)⟩

end Readers

end Cons

/-- **How a call for `size` bytes ends** that has taken `bytes` and returns `r`: at its count, after
a newline, before a control-D that is left where it is, or killed. A control-D that a call takes is
all that it takes, and it returns 0. At the time of the return `mark` characters had been taken in
all. -/
inductive ReadEnds (size : ℤ) (committed bytes : List Byte) : ℤ → ℕ → Prop where
  | count {mark : ℕ} (hopen : ∀ c ∈ bytes, ¬EndsLine c) (hlen : bytes.length = size.toNat) :
      ReadEnds size committed bytes bytes.length mark
  | line {mark : ℕ} {front : List Byte} (hopen : ∀ c ∈ front, ¬EndsLine c)
      (hbytes : bytes = front ++ [newline]) (hlen : bytes.length ≤ size.toNat) :
      ReadEnds size committed bytes bytes.length mark
  | beforeEof {mark : ℕ} (hne : bytes ≠ []) (hopen : ∀ c ∈ bytes, ¬EndsLine c)
      (hlen : bytes.length < size.toNat) (heof : committed[mark]? = some (ctrl 'D')) :
      ReadEnds size committed bytes bytes.length mark
  | eof {mark : ℕ} (hbytes : bytes = [ctrl 'D']) : ReadEnds size committed bytes 0 mark
  | killed {mark : ℕ} (hopen : ∀ c ∈ bytes, ¬EndsLine c) (hlen : bytes.length < size.toNat) :
      ReadEnds size committed bytes (-1) mark

/-- What is known of a call from where it stands. -/
def ConsPc.Fits (size : ℤ) (committed bytes : List Byte) : ConsPc → Prop
  | idle => bytes = []
  | read n => bytes.length + n = size.toNat ∧ ∀ c ∈ bytes, ¬EndsLine c
  | done r mark => ReadEnds size committed bytes r mark

section Steps

variable {ι : Type} [DecidableEq ι] {size : ι → ℤ}

/-- **The loop of `consoleread`.** -/
theorem consolereadFrom_spec (size : ι → ℤ) {me : ι} (killed : Bool) : ∀ {n : ℕ} {s : Cons ι}, s.Ok →
    (ConsPc.read n).Fits (size me) s.editor.committed (s.bytes me) →
    wp (consolereadFrom me killed (size me).toNat n) (fun pc s' => Cons.ReadStep me s s' ∧
      pc.Fits (size me) s'.editor.committed (s'.bytes me)) (fun _ => False) s := by
  intro n
  induction n with
  | zero =>
    rintro s h ⟨hlen, hopen⟩
    refine ⟨⟨h, rfl, fun _ _ => rfl⟩, ?_⟩
    rw [Nat.add_zero] at hlen
    rw [← hlen]
    exact .count hopen hlen
  | succ n ih =>
    rintro s h ⟨hlen, hopen⟩
    rw [consolereadFrom, wp_bind, wp_get]
    by_cases hempty : s.r = s.w
    · rw [if_pos hempty]
      cases killed with
      | true => exact ⟨⟨h, rfl, fun _ _ => rfl⟩, .killed hopen (by omega)⟩
      | false => exact ⟨⟨h, rfl, fun _ _ => rfl⟩, hlen, hopen⟩
    rw [if_neg hempty]
    dsimp only
    rw [wp_bind, wp_modify]
    have htake := h.take hempty me
    have hbytes := Cons.bytes_note_self ({ s with ring := s.ring.pop } : Cons ι) me s.ring.front
    change (Cons.note _ _ _).bytes me = s.bytes me ++ [s.ring.front] at hbytes
    by_cases heof : s.ring.front = ctrl 'D'
    · rw [if_pos heof]
      by_cases hmore : n + 1 < (size me).toNat
      · -- the character is put back
        rw [if_pos hmore, wp_bind, wp_modify]
        refine ⟨⟨h.untake, rfl, fun _ _ => rfl⟩, ?_⟩
        have hret : ((size me).toNat : ℤ) - (n + 1) = (s.bytes me).length := by
          rw [← hlen]
          push_cast
          omega
        have hnext := h.holds.front_eq hempty
        rw [heof, List.length_map] at hnext
        change ReadEnds (size me) s.editor.committed (s.bytes me) _ _
        rw [hret]
        exact .beforeEof (List.length_pos_iff.mp (by omega)) hopen (by omega) hnext
      · rw [if_neg hmore, wp_bind, wp_modify]
        refine ⟨htake, ?_⟩
        have hnil : s.bytes me = [] := List.length_eq_zero_iff.mp (by omega)
        have hret : ((size me).toNat : ℤ) - (n + 1) = 0 := by
          rw [← hlen, hnil]
          simp
        rw [hret]
        exact .eof (by rw [hbytes, hnil, heof]; rfl)
    · rw [if_neg heof, wp_bind, wp_modify]
      by_cases hnl : s.ring.front = newline
      · rw [if_pos hnl]
        refine ⟨htake, ?_⟩
        have hret : ((size me).toNat : ℤ) - n = ((s.bytes me ++ [s.ring.front]).length : ℕ) := by
          rw [← hlen, List.length_append, List.length_singleton]
          push_cast
          omega
        change ReadEnds _ _ ((Cons.note _ _ _).bytes me) _ _
        rw [hret, hbytes]
        exact .line hopen (by rw [hnl]) (by
          rw [List.length_append, List.length_singleton]
          omega)
      · rw [if_neg hnl]
        have hfits : (ConsPc.read n).Fits (size me) s.editor.committed
            (s.bytes me ++ [s.ring.front]) := by
          refine ⟨by rw [List.length_append, List.length_singleton]; omega, fun c hc => ?_⟩
          rcases List.mem_append.mp hc with hc | hc
          · exact hopen c hc
          · rw [List.mem_singleton.mp hc]
            exact not_or.mpr ⟨hnl, heof⟩
        rw [← hbytes] at hfits
        exact wp_imp (ih htake.ok hfits) fun pc s' hs' => ⟨htake.trans hs'.1, hs'.2⟩

/-- The console at boot, before any call. -/
def consBoot (ι : Type) : Config (Option ι) (Cons ι) ConsPc := ⟨.boot ι, fun _ => .idle⟩

/-- What holds of every configuration. -/
structure ConsOk (size : ι → ℤ) (c : Config (Option ι) (Cons ι) ConsPc) : Prop where
  shared : c.shared.Ok
  calls : ∀ i, (c.pc (some i)).Fits (size i) c.shared.editor.committed (c.shared.bytes i)

/-- What is known of a call is not disturbed by further characters. -/
theorem ConsPc.Fits.mono {pc : ConsPc} {n : ℤ} {committed committed' bytes : List Byte}
    (h : pc.Fits n committed bytes) (hle : committed <+: committed') :
    pc.Fits n committed' bytes := by
  cases pc with
  | idle => exact h
  | read m => exact h
  | done r mark =>
    change ReadEnds n committed bytes r mark at h
    change ReadEnds n committed' bytes r mark
    cases h with
    | count hopen hlen => exact .count hopen hlen
    | line hopen hbytes hlen => exact .line hopen hbytes hlen
    | beforeEof hne hopen hlen heof =>
      obtain ⟨rest, rfl⟩ := hle
      refine .beforeEof hne hopen hlen ?_
      rw [List.getElem?_append_left (List.getElem?_eq_some_iff.mp heof).1]
      exact heof
    | eof hbytes => exact .eof hbytes
    | killed hopen hlen => exact .killed hopen hlen

theorem ConsOk.step {t : Option ι} {c c' : Config (Option ι) (Cons ι) ConsPc}
    (h : ConsOk size c) (hs : (consThreads size).Step t c c') : ConsOk size c' := by
  cases hs with
  | @mk x p s' hact hrun =>
    generalize hpc : c.pc t = pc at hact
    cases hact with
    | intr key =>
      obtain ⟨rfl, rfl⟩ : p = pc ∧
          s' = { c.shared.intr key with editor := c.shared.editor.type key } := by
        have heq := Except.ok.inj hrun
        exact ⟨(congrArg Prod.fst heq).symm, (congrArg Prod.snd heq).symm⟩
      refine ⟨h.shared.intr key, fun i => ?_⟩
      rw [Config.move_pc_of_ne _ _ _ (Option.some_ne_none i)]
      have hbytes : (({ c.shared.intr key with editor := c.shared.editor.type key } : Cons ι)).bytes i
          = c.shared.bytes i := by
        rw [Cons.bytes, Cons.bytes, ← Cons.intr_log c.shared key]
      rw [Config.move_shared, hbytes]
      exact (h.calls i).mono (Cons.committed_type _ _)
    | @enter i =>
      obtain ⟨rfl, rfl⟩ : p = .read (size i).toNat ∧ s' = c.shared := by
        have heq := Except.ok.inj hrun
        exact ⟨(congrArg Prod.fst heq).symm, (congrArg Prod.snd heq).symm⟩
      refine ⟨h.shared, fun j => ?_⟩
      by_cases hj : j = i
      · subst hj
        have hnil : c.shared.bytes j = [] := by
          have hfits := h.calls j
          rw [hpc] at hfits
          exact hfits
        rw [Config.move_pc_self, Config.move_shared, hnil]
        exact ⟨Nat.zero_add _, fun _ hc => absurd hc List.not_mem_nil⟩
      · rw [Config.move_pc_of_ne _ _ _ fun heq => hj (Option.some.inj heq)]
        exact h.calls j
    | @read i n killed =>
      have hfits := h.calls i
      rw [hpc] at hfits
      obtain ⟨hstep, hend⟩ := (wp_of_ok hrun).mp
        (consolereadFrom_spec size killed h.shared hfits)
      refine ⟨hstep.ok, fun j => ?_⟩
      by_cases hj : j = i
      · subst hj
        rw [Config.move_pc_self]
        exact hend
      · rw [Config.move_pc_of_ne _ _ _ fun heq => hj (Option.some.inj heq),
          Config.move_shared, hstep.others j hj, hstep.committed]
        exact h.calls j

theorem consOk_of_runs {c : Config (Option ι) (Cons ι) ConsPc}
    (h : (consThreads size).Runs (fun _ _ => True) (consBoot ι) c) : ConsOk size c := by
  refine h.invariant ⟨⟨⟨Ring.carries_nil _, rfl, List.prefix_rfl⟩, rfl, ?_⟩, fun _ => rfl⟩
    fun t c₁ c₂ h₁ _ hs => h₁.step hs
  exact fun _ hc => absurd hc List.not_mem_nil

omit [DecidableEq ι] in
/-- A call goes to sleep only when there is nothing to read. -/
theorem consolereadFrom_sleeps {me : ι} {killed : Bool} {target : ℕ} : ∀ {n : ℕ} (s : Cons ι),
    wp (consolereadFrom me killed target n) (fun pc s' => ∀ m, pc = .read m → s'.r = s'.w)
      (fun _ => True) s := by
  intro n
  induction n with
  | zero => exact fun s m hpc => ConsPc.noConfusion hpc
  | succ n ih =>
    intro s
    have hret : ∀ r (s : Cons ι), wp (consoleret r) (fun pc s => ∀ m, pc = .read m → s.r = s.w)
        (fun _ => True) s := fun _ _ _ hpc => ConsPc.noConfusion hpc
    rw [consolereadFrom, wp_bind, wp_get]
    by_cases hempty : s.r = s.w
    · rw [if_pos hempty]
      cases killed with
      | true => exact hret _ _
      | false => exact fun _ _ => hempty
    rw [if_neg hempty]
    dsimp only
    rw [wp_bind, wp_modify]
    by_cases heof : s.ring.front = ctrl 'D'
    · rw [if_pos heof]
      split_ifs
      · exact hret _ _
      · exact hret _ _
    · rw [if_neg heof, wp_bind, wp_modify]
      split_ifs
      · exact hret _ _
      · exact ih _

theorem consThreads_sleeps {c c' : Config (Option ι) (Cons ι) ConsPc} {i : ι} {n m : ℕ}
    (hpc : c.pc (some i) = .read n) (hs : (consThreads size).Step (some i) c c')
    (hpc' : c'.pc (some i) = .read m) : c'.shared.r = c'.shared.w := by
  cases hs with
  | @mk x p s' hact hrun =>
    rw [Config.move_pc_self] at hpc'
    rw [hpc] at hact
    cases hact with
    | read _ killed => exact wp_ok (consolereadFrom_sleeps c.shared) hrun m hpc'

/-- **The console is a line editor** in every interleaving of interrupts, for any characters, and
calls of any sizes, however often the counters wrap. In wrapping arithmetic
`r ≤ w ≤ e ≤ r + INPUT_BUF_SIZE`; what the calls have taken, in order, is the beginning of what the
reference has committed, and the rest lies between `r` and `w`; a call that goes to sleep leaves
nothing there; and every call takes a part that ends as it should. -/
theorem console_is_line_editor {c : Config (Option ι) (Cons ι) ConsPc}
    (h : (consThreads size).Runs (fun _ _ => True) (consBoot ι) c) :
    ((c.shared.w - c.shared.r).toNat ≤ (c.shared.e - c.shared.r).toNat ∧
      (c.shared.e - c.shared.r).toNat ≤ inputBufSize) ∧
    (c.shared.log.map Prod.snd <+: c.shared.editor.committed ∧
      (c.shared.w - c.shared.r).toNat = c.shared.editor.committed.length - c.shared.log.length) ∧
    (∀ i n c' m, c.pc (some i) = .read n → (consThreads size).Step (some i) c c' →
      c'.pc (some i) = .read m → c'.shared.r = c'.shared.w) ∧
    ∀ i, (c.pc (some i) = .idle → c.shared.bytes i = []) ∧
      (∀ n, c.pc (some i) = .read n → (c.shared.bytes i).length + n = (size i).toNat ∧
        ∀ b ∈ c.shared.bytes i, ¬EndsLine b) ∧
      ∀ r mark, c.pc (some i) = .done r mark →
        ReadEnds (size i) c.shared.editor.committed (c.shared.bytes i) r mark := by
  have hok := consOk_of_runs h
  have hroom := hok.shared.holds.room
  have hunread := hok.shared.holds.unread
  refine ⟨⟨?_, ?_⟩, ⟨hok.shared.holds.got, ?_⟩,
    fun i n c' m hpc hs hpc' => consThreads_sleeps hpc hs hpc', fun i => ⟨fun hpc => ?_,
    fun n hpc => ?_, fun r mark hpc => ?_⟩⟩
  · rw [hunread, hok.shared.holds.distance]
    omega
  · rw [hok.shared.holds.distance]
    exact hroom
  · rw [hunread, List.length_map]
  · have hfits := hok.calls i
    rwa [hpc] at hfits
  · have hfits := hok.calls i
    rwa [hpc] at hfits
  · have hfits := hok.calls i
    rwa [hpc] at hfits

end Steps

/-- A line of two characters has been typed. -/
def Cons.typed : Cons Unit :=
  let s : Cons Unit := { (Cons.boot Unit).intr 97 with editor := (Cons.boot Unit).editor.type 97 }
  { s.intr 13 with editor := s.editor.type 13 }

theorem console_is_line_editor_typed :
    ∃ c, (consThreads fun _ : Unit => 5).Runs (fun _ _ => True) (consBoot Unit) c ∧
      c.shared.bytes () = [97, newline] ∧ c.pc (some ()) = .done 2 2 ∧
      ReadEnds 5 c.shared.editor.committed (c.shared.bytes ()) 2 2 := by
  have hread : consolereadFrom () false 5 5 Cons.typed = .ok (.done 2 2,
      (({ (({ Cons.typed with ring := Cons.typed.ring.pop } : Cons Unit).note () 97) with
        ring := Cons.typed.ring.pop.pop } : Cons Unit).note () newline)) := by
    rfl
  have hrun := ((((Relation.ReflTransGen.refl (a := consBoot Unit)
    (r := fun c c' => ∃ i, True ∧ (consThreads fun _ : Unit => 5).Step i c c')).tail
    ⟨none, trivial, .mk (.intr 97) rfl⟩).tail ⟨none, trivial, .mk (.intr 13) rfl⟩).tail
    ⟨some (), trivial, .mk .enter rfl⟩).tail ⟨some (), trivial, .mk (.read 5 false) hread⟩
  exact ⟨_, hrun, rfl, rfl, ((console_is_line_editor hrun).2.2.2 ()).2.2 2 2 rfl⟩

end Xv6
