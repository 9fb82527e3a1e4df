import Mathlib.Data.List.TakeWhile
import Xv6.User.Match
import Xv6.User.Ulib

/-!
# The lines of `grep`

`grep` reads its input into a buffer of 1024 bytes. It takes the complete lines out of the buffer,
moves what is left to the beginning, and reads on behind that. A read gives as many bytes as it
likes, but at least one as long as there is room and the input has bytes left.

The buffer always begins with the beginning of a line, and one byte of it is for the null behind the
text. A line of 1023 bytes or more therefore fills the buffer before its newline is there. Then the
next read is one of no bytes, and `grep` takes that for the end of the input.
-/

namespace Xv6

namespace Grep

open Bytes Ulib

/-! ### The loops -/

/-- `'\n'`. -/
def newline : Byte := 0x0a

/-- `sizeof(buf)`. -/
def bufsize : ℕ := 1024

/-- What was written to the output, and the texts that were given to `match`. -/
@[ext] structure Seen where
  out : List Byte
  examined : List (List Byte)

/-- The inner loop: the lines of the string at `p`. A newline is replaced by a null for `match`, and
put back if the line is to be written. -/
def eachLine (re : List Byte) (buf : Fin bufsize → Byte) (p : ℕ) (seen : Seen) :
    (Fin bufsize → Byte) × ℕ × Seen :=
  match _h : strchr buf p newline with
  | none => (buf, p, seen)
  | some q =>
    let buf := put buf q 0
    let text := str buf p
    let seen := { seen with examined := seen.examined ++ [text] }
    if matchRe re text then
      let buf := put buf q newline
      eachLine re buf (q + 1) { seen with out := seen.out ++ read buf p (q + 1 - p) }
    else eachLine re buf (q + 1) seen
termination_by bufsize - p
decreasing_by
  all_goals
    have := strchr_mem _h
    omega

/-- The outer loop: `m` bytes are in the buffer, and `left` is what the input still has. The `i`-th
read gives at most `split i + 1` bytes. -/
def grepFrom (re : List Byte) (split : ℕ → ℕ) (i : ℕ) (buf : Fin bufsize → Byte) (m : ℕ)
    (left : List Byte) (seen : Seen) : Seen :=
  let n := min (bufsize - m - 1) (min left.length (split i + 1))
  if _h : 0 < n then
    let buf := write buf m (left.take n)
    let m := m + n
    let (buf, p, seen) := eachLine re (put buf m 0) 0 seen
    let (buf, m) := if 0 < m then (memmove buf 0 p (m - p), m - p) else (buf, m)
    grepFrom re split (i + 1) buf m (left.drop n) seen
  else seen
termination_by left.length
decreasing_by
  rw [List.length_drop]
  omega

/-- `grep`, with what another file left in the buffer. -/
def grep (re : List Byte) (split : ℕ → ℕ) (buf : Fin bufsize → Byte) (input : List Byte) : Seen :=
  grepFrom re split 0 buf 0 input ⟨[], []⟩

/-! ### Lines of a text -/

/-- The lines that end with a newline, without it. -/
def lines (l : List Byte) : List (List Byte) := (l.splitOn newline).dropLast

/-- What is behind the last newline. -/
def rest (l : List Byte) : List Byte := (l.splitOn newline).getLastD []

variable {l l' x : List Byte}

theorem lines_of_notMem (h : newline ∉ l) : lines l = [] := by
  rw [lines, List.splitOn_eq_singleton h, List.dropLast_singleton]

theorem rest_of_notMem (h : newline ∉ l) : rest l = l := by
  rw [rest, List.splitOn_eq_singleton h]
  rfl

theorem lines_append_newline (h : newline ∉ x) (l : List Byte) :
    lines (x ++ newline :: l) = x :: lines l := by
  rw [lines, List.splitOn_append_cons_self_of_not_mem h,
    List.dropLast_cons_of_ne_nil (List.splitOn_ne_nil newline l), lines]

theorem rest_append_newline (h : newline ∉ x) (l : List Byte) :
    rest (x ++ newline :: l) = rest l := by
  rw [rest, rest, List.splitOn_append_cons_self_of_not_mem h]
  cases hl : l.splitOn newline with
  | nil => exact absurd hl (List.splitOn_ne_nil newline l)
  | cons y ys => rfl

/-- A text has no newline, or it has a first line. -/
theorem lines_induction {motive : List Byte → Prop} (last : ∀ l, newline ∉ l → motive l)
    (line : ∀ x l, newline ∉ x → motive l → motive (x ++ newline :: l)) (l : List Byte) :
    motive l := by
  induction h : l.length using Nat.strong_induction_on generalizing l with
  | _ n ih =>
    by_cases hmem : newline ∈ l
    · obtain ⟨x, l', rfl, hx⟩ := List.eq_append_cons_of_mem hmem
      refine line x l' hx (ih l'.length ?_ l' rfl)
      rw [← h, List.length_append, List.length_cons]
      omega
    · exact last l hmem

theorem notMem_rest (l : List Byte) : newline ∉ rest l := by
  induction l using lines_induction with
  | last l h => rwa [rest_of_notMem h]
  | line x l h ih => rwa [rest_append_newline h]

theorem mem_of_mem_rest {c : Byte} (h : c ∈ rest l) : c ∈ l := by
  induction l using lines_induction with
  | last l hl => rwa [rest_of_notMem hl] at h
  | line x l hx ih =>
    rw [rest_append_newline hx] at h
    exact List.mem_append_right x (List.mem_cons_of_mem newline (ih h))

theorem length_rest_le (l : List Byte) : (rest l).length ≤ l.length := by
  induction l using lines_induction with
  | last l hl => rw [rest_of_notMem hl]
  | line x l hx ih =>
    rw [rest_append_newline hx, List.length_append, List.length_cons]
    omega

/-- A line is shorter than the text, for its newline. -/
theorem length_lt_of_mem_lines (h : x ∈ lines l) : x.length < l.length := by
  induction l using lines_induction with
  | last l hl =>
    rw [lines_of_notMem hl] at h
    exact absurd h List.not_mem_nil
  | line y l hy ih =>
    rw [lines_append_newline hy, List.mem_cons] at h
    rw [List.length_append, List.length_cons]
    rcases h with rfl | h
    · omega
    · have := ih h
      omega

/-- **Lines across a boundary**: what is left of the first part is the beginning of the second. -/
theorem lines_append (l l' : List Byte) : lines (l ++ l') = lines l ++ lines (rest l ++ l') := by
  induction l using lines_induction with
  | last l h => rw [rest_of_notMem h, lines_of_notMem h, List.nil_append]
  | line x l h ih =>
    rw [List.append_assoc, List.cons_append, lines_append_newline h, lines_append_newline h,
      rest_append_newline h, ih, List.cons_append]

/-- If a text begins with many bytes and no newline, its first line is long. -/
theorem length_le_head_lines (h : newline ∉ l) (hx : x ∈ (lines (l ++ l')).head?) :
    l.length ≤ x.length := by
  induction l' using lines_induction with
  | last l' h' =>
    have hnone : newline ∉ l ++ l' := by
      rw [List.mem_append]
      exact not_or.mpr ⟨h, h'⟩
    rw [lines_of_notMem hnone] at hx
    exact absurd hx (Option.not_mem_none x)
  | line y l' hy =>
    have hnone : newline ∉ l ++ y := by
      rw [List.mem_append]
      exact not_or.mpr ⟨h, hy⟩
    rw [← List.append_assoc, lines_append_newline hnone, List.head?_cons,
      Option.mem_some_iff] at hx
    rw [← hx, List.length_append]
    exact Nat.le_add_right _ _

/-! ### What the loops do -/

/-- The output for some lines. -/
def printed (re : List Byte) (ls : List (List Byte)) : List Byte :=
  (ls.filter (matchRe re)).flatMap (· ++ [newline])

theorem printed_append (re : List Byte) (ls ls' : List (List Byte)) :
    printed re (ls ++ ls') = printed re ls ++ printed re ls' := by
  rw [printed, List.filter_append, List.flatMap_append, printed, printed]

/-- Some lines more. -/
def Seen.after (seen : Seen) (re : List Byte) (ls : List (List Byte)) : Seen :=
  ⟨seen.out ++ printed re ls, seen.examined ++ ls⟩

@[simp] theorem Seen.after_nil (seen : Seen) (re : List Byte) : seen.after re [] = seen := by
  simp [after, printed]

theorem Seen.after_append (seen : Seen) (re : List Byte) (ls ls' : List (List Byte)) :
    seen.after re (ls ++ ls') = (seen.after re ls).after re ls' := by
  simp only [after, printed_append, List.append_assoc]

variable (re : List Byte) {buf : Fin bufsize → Byte} {p : ℕ} (seen : Seen)

theorem eachLine_none (h : strchr buf p newline = none) :
    eachLine re buf p seen = (buf, p, seen) := by
  rw [eachLine]
  split
  · rfl
  · next heq => nomatch (h.symm.trans heq).symm

/-- **One round of the inner loop**: the line is `x`, and its newline is the only byte that may have
changed. -/
theorem eachLine_some (h : Holds buf p (x ++ [newline])) (hx : newline ∉ x) (h0 : (0 : Byte) ∉ x)
    (hfit : p + x.length < bufsize) : ∃ buf', (∀ i ≠ p + x.length, get buf' i = get buf i) ∧
      eachLine re buf p seen = eachLine re buf' (p + x.length + 1) (seen.after re [x]) := by
  have hq : strchr buf p newline = some (p + x.length) := strchr_eq h hx h0 (Or.inr rfl) hfit
  have hline : Holds buf p x := (holds_append.mp h).1
  have htext : str (put buf (p + x.length) 0) p = x :=
    Holds.str_eq (holds_append.mpr ⟨hline.put (Or.inr le_rfl), get_put_self hfit, trivial⟩) h0 hfit
  rw [eachLine]
  split
  · next heq => nomatch hq.symm.trans heq
  · next q heq =>
    obtain rfl : p + x.length = q := Option.some.inj (hq.symm.trans heq)
    dsimp only
    rw [htext]
    cases hmatch : matchRe re x with
    | true =>
      have hput : Holds (put (put buf (p + x.length) 0) (p + x.length) newline) p
          (x ++ [newline]) := by
        refine holds_append.mpr ⟨(hline.put (Or.inr le_rfl)).put (Or.inr le_rfl), ?_, trivial⟩
        exact get_put_self hfit
      have hread := hput.read_eq
      rw [List.length_append, List.length_singleton] at hread
      refine ⟨put (put buf (p + x.length) 0) (p + x.length) newline,
        fun i hi => (get_put_of_ne hi).trans (get_put_of_ne hi), ?_⟩
      rw [if_pos rfl, show p + x.length + 1 - p = x.length + 1 by omega, hread, Seen.after, printed,
        List.filter_cons_of_pos hmatch]
      simp
    | false =>
      refine ⟨put buf (p + x.length) 0, fun i hi => get_put_of_ne hi, ?_⟩
      rw [if_neg Bool.false_ne_true, Seen.after, printed, List.filter_cons_of_neg (by simp [hmatch])]
      simp

/-- **The lines of the buffer**: all complete lines are examined, and what is left of the text is at
the place where the loop stops. -/
theorem eachLine_eq (h : Holds buf p (l ++ [0])) (h0 : (0 : Byte) ∉ l)
    (hfit : p + l.length < bufsize) :
    ∃ buf' p', eachLine re buf p seen = (buf', p', seen.after re (lines l)) ∧
      Holds buf' p' (rest l) ∧ p' + (rest l).length = p + l.length := by
  induction l using lines_induction generalizing buf p seen with
  | last l hl =>
    refine ⟨buf, p, ?_, ?_, ?_⟩
    · rw [eachLine_none re seen (strchr_eq h hl h0 (Or.inl rfl) hfit), lines_of_notMem hl,
        Seen.after_nil]
    · rw [rest_of_notMem hl]
      exact (holds_append.mp h).1
    · rw [rest_of_notMem hl]
  | line x l hx ih =>
    rw [List.mem_append, List.mem_cons, not_or, not_or] at h0
    rw [List.length_append, List.length_cons] at hfit ⊢
    rw [List.append_assoc, List.cons_append, List.append_cons, holds_append] at h
    rw [List.length_append, List.length_singleton] at h
    obtain ⟨buf', hkeep, heq⟩ := eachLine_some re seen h.1 hx h0.1 (by omega)
    have hrest : Holds buf' (p + x.length + 1) (l ++ [0]) :=
      h.2.congr fun i hi _ => hkeep i (by omega)
    obtain ⟨buf'', p', hloop, hholds, hlen⟩ :=
      ih (seen.after re [x]) hrest h0.2.2 (by omega)
    refine ⟨buf'', p', ?_, ?_, ?_⟩
    · rw [heq, hloop, lines_append_newline hx, ← Seen.after_append, List.singleton_append]
    · rwa [rest_append_newline hx]
    · rw [rest_append_newline hx, hlen]
      omega

/-- The lines that fit into the buffer, up to the first that does not. -/
def fitting (ls : List (List Byte)) : List (List Byte) :=
  ls.takeWhile fun x => x.length + 1 < bufsize

theorem grepFrom_round {split : ℕ → ℕ} {i n : ℕ} {left : List Byte} (h : Holds buf 0 l)
    (h0 : (0 : Byte) ∉ l) (hleft : (0 : Byte) ∉ left)
    (hn : n = min (bufsize - l.length - 1) (min left.length (split i + 1))) (hpos : 0 < n) :
    ∃ buf', Holds buf' 0 (rest (l ++ left.take n)) ∧
      grepFrom re split i buf l.length left seen
        = grepFrom re split (i + 1) buf' (rest (l ++ left.take n)).length (left.drop n)
            (seen.after re (lines (l ++ left.take n))) := by
  have hlen : (left.take n).length = n := by
    rw [List.length_take]
    omega
  have hsum : (l ++ left.take n).length = l.length + n := by rw [List.length_append, hlen]
  have hfill : Holds (put (write buf l.length (left.take n)) (l.length + n) 0) 0
      (l ++ left.take n ++ [0]) := by
    refine holds_append.mpr ⟨Holds.put ?_ (Or.inr (by omega)), ?_, trivial⟩
    · refine holds_append.mpr ⟨h.write (by omega), ?_⟩
      rw [Nat.zero_add]
      exact holds_write _ _ _ (by omega)
    · rw [Nat.zero_add, hsum]
      exact get_put_self (by omega)
  have hnull : (0 : Byte) ∉ l ++ left.take n := by
    rw [List.mem_append]
    exact not_or.mpr ⟨h0, fun hmem => hleft (List.mem_of_mem_take hmem)⟩
  obtain ⟨buf', p, hloop, hholds, hp⟩ :=
    eachLine_eq re seen hfill hnull (by omega)
  have hleft' : l.length + n - p = (rest (l ++ left.take n)).length := by omega
  refine ⟨memmove buf' 0 p (rest (l ++ left.take n)).length,
    holds_memmove hholds (by omega), ?_⟩
  rw [grepFrom, ← hn]
  dsimp only
  rw [dif_pos hpos, hloop]
  dsimp only
  rw [if_pos (by omega), hleft']

/-- **The lines up to the first long one**, by induction on what is left of the input. -/
theorem grepFrom_eq (split : ℕ → ℕ) (i : ℕ) {left : List Byte} (h : Holds buf 0 l)
    (hnl : newline ∉ l) (h0 : (0 : Byte) ∉ l) (hleft : (0 : Byte) ∉ left)
    (hfit : l.length < bufsize) :
    grepFrom re split i buf l.length left seen = seen.after re (fitting (lines (l ++ left))) := by
  induction hk : left.length using Nat.strong_induction_on
    generalizing l left buf seen i with
  | _ k ih =>
    by_cases hpos : 0 < min (bufsize - l.length - 1) (min left.length (split i + 1))
    · obtain ⟨buf', hholds, heq⟩ := grepFrom_round re seen h h0 hleft rfl hpos
      generalize hn : min (bufsize - l.length - 1) (min left.length (split i + 1)) = n
        at hpos hholds heq
      have hlen : (l ++ left.take n).length < bufsize := by
        rw [List.length_append, List.length_take]
        omega
      have hrest := length_rest_le (l ++ left.take n)
      have hnull : (0 : Byte) ∉ rest (l ++ left.take n) := fun hmem => by
        rcases List.mem_append.mp (mem_of_mem_rest hmem) with hmem | hmem
        · exact h0 hmem
        · exact hleft (List.mem_of_mem_take hmem)
      have hshort : ∀ x ∈ lines (l ++ left.take n), decide (x.length + 1 < bufsize) = true :=
        fun x hx => decide_eq_true (by have := length_lt_of_mem_lines hx; omega)
      rw [heq, ih (left.drop n).length (by rw [List.length_drop]; omega) _ _ hholds (notMem_rest _)
        hnull (fun hmem => hleft (List.mem_of_mem_drop hmem)) (by omega) rfl, ← Seen.after_append]
      conv_rhs => rw [← List.take_append_drop n left, ← List.append_assoc, lines_append, fitting,
        List.takeWhile_append_of_pos hshort]
      rfl
    · have hstop : grepFrom re split i buf l.length left seen = seen := by
        rw [grepFrom]
        exact dif_neg hpos
      -- The input is at its end, or the buffer is full.
      have hnone : fitting (lines (l ++ left)) = [] := by
        by_cases hend : left = []
        · rw [hend, List.append_nil, lines_of_notMem hnl]
          rfl
        · have hne := List.length_pos_iff.mpr hend
          have hfull : l.length + 1 = bufsize := by omega
          cases hls : lines (l ++ left) with
          | nil => rfl
          | cons x ls =>
            have hlong := length_le_head_lines (x := x) hnl (by rw [hls]; rfl)
            rw [fitting, List.takeWhile_cons_of_neg]
            rw [decide_eq_true_iff]
            omega
      rw [hstop, hnone, Seen.after_nil]

/-- **What `grep` does with its input**, however it is read. -/
theorem grep_eq (re : List Byte) (split : ℕ → ℕ) (buf : Fin bufsize → Byte) {input : List Byte}
    (h0 : (0 : Byte) ∉ input) : grep re split buf input
      = ⟨printed re (fitting (lines input)), fitting (lines input)⟩ := by
  have h := grepFrom_eq re ⟨[], []⟩ split 0 (holds_nil buf 0) List.not_mem_nil List.not_mem_nil h0
    (by decide)
  rw [Seen.after, List.nil_append, List.nil_append, List.nil_append] at h
  exact h

/-- All lines are examined, and those that match are written. -/
def PrintsMatching (re input : List Byte) (seen : Seen) : Prop :=
  seen.out = printed re (lines input) ∧ seen.examined = lines input

/-- **When `grep` prints the matching lines**: if each line and its newline fit into the buffer, with
a byte for the null. -/
theorem prints_matching_iff (re : List Byte) (split : ℕ → ℕ) (buf : Fin bufsize → Byte)
    {input : List Byte} (h0 : (0 : Byte) ∉ input) :
    PrintsMatching re input (grep re split buf input) ↔
      ∀ x ∈ lines input, x.length + 1 < bufsize := by
  rw [grep_eq re split buf h0]
  constructor
  · rintro ⟨-, h⟩ x hx
    exact of_decide_eq_true (List.takeWhile_eq_self_iff.mp h x hx)
  · intro h
    have hall : fitting (lines input) = lines input :=
      List.takeWhile_eq_self_iff.mpr fun x hx => decide_eq_true (h x hx)
    exact ⟨by rw [hall], hall⟩

theorem prints_matching_two_lines : (0 : Byte) ∉ ([0x61, 0x0a, 0x62, 0x0a] : List Byte) ∧
    PrintsMatching [0x61] [0x61, 0x0a, 0x62, 0x0a]
      (grep [0x61] (fun _ => 0) (fun _ => 0) [0x61, 0x0a, 0x62, 0x0a]) := by
  have h0 : (0 : Byte) ∉ ([0x61, 0x0a, 0x62, 0x0a] : List Byte) := by decide
  have hlines : lines [0x61, 0x0a, 0x62, 0x0a] = [[0x61], [0x62]] := by decide
  refine ⟨h0, (prints_matching_iff [0x61] (fun _ => 0) (fun _ => 0) h0).mpr fun x hx => ?_⟩
  rw [hlines] at hx
  rcases List.mem_cons.mp hx with rfl | hx
  · decide
  · obtain rfl := List.mem_singleton.mp hx
    decide

theorem matchRe_nil (text : List Byte) : matchRe [] text = true := by
  rw [matchRe, if_neg (by decide)]
  cases text with
  | nil => exact matchhere_nil []
  | cons t text => rw [matchFrom, matchhere_nil, Bool.true_or]

/-- **A long line is the end**: neither it nor the lines after it are written, although the pattern
is in all of them. -/
theorem long_line_ends_grep : ¬∀ (re : List Byte) (split : ℕ → ℕ) (buf : Fin bufsize → Byte)
    (input : List Byte), (0 : Byte) ∉ input →
      PrintsMatching re input (grep re split buf input) := by
  intro h
  let long : List Byte := List.replicate 1023 0x62
  have hmem : ∀ x : Byte, x ∈ long → x = 0x62 := fun x hx => List.eq_of_mem_replicate hx
  have h0 : (0 : Byte) ∉ long ++ newline :: [0x61, newline] := by
    rw [List.mem_append]
    exact not_or.mpr ⟨fun hx => absurd (hmem 0 hx) (by decide), by decide⟩
  have hlines : lines (long ++ newline :: [0x61, newline]) = [long, [0x61]] := by
    rw [lines_append_newline fun hx => absurd (hmem newline hx) (by decide)]
    rfl
  have hfitting : fitting [long, [0x61]] = [] := by
    rw [fitting, List.takeWhile_cons_of_neg]
    rw [List.length_replicate]
    decide
  obtain ⟨hout, -⟩ := h [] (fun _ => 0) (fun _ => 0) _ h0
  rw [grep_eq [] _ _ h0, hlines, hfitting] at hout
  have hlength := congrArg List.length hout
  simp [printed, matchRe_nil] at hlength

end Grep

end Xv6
