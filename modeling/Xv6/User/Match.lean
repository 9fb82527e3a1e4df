import Mathlib.Computability.Language
import Xv6.Lib.Bytes

/-!
# The matcher of `grep`

The functions `match`, `matchhere` and `matchstar` of `grep.c`, and the language that a pattern
stands for. A string of C is a list of bytes here. Its end is the NUL byte, which is none of its
bytes.

What a byte of a pattern means depends on where it is. `^` is an anchor if it is the first byte, even
before `*`. After that a byte is followed by `*` or it is not, whatever it is; `$` is an anchor if it
is the last one and there is no `*`. So `Pattern.ofBytes` reads a pattern from left to right, two
bytes at a time where the second is `*`.
-/

namespace Xv6

namespace Grep

/-! ### The functions -/

/-- `'^'`, `'.'`, `'*'`, `'$'`. -/
def caret : Byte := 0x5e

@[inherit_doc caret] def dot : Byte := 0x2e

@[inherit_doc caret] def asterisk : Byte := 0x2a

@[inherit_doc caret] def dollar : Byte := 0x24

mutual

/-- Search for `re` at the beginning of `text`. -/
def matchhere (re text : List Byte) : Bool :=
  match re with
  | [] => true
  | c :: re =>
    if re.head? = some asterisk then matchstar c re.tail text
    else if c = dollar ∧ re = [] then text.isEmpty
    else
      match text with
      | [] => false
      | t :: text => if c = dot ∨ c = t then matchhere re text else false
termination_by (re.length, text.length, 0)
decreasing_by
  · exact Prod.Lex.left _ _ (by rw [List.length_tail, List.length_cons]; omega)
  · exact Prod.Lex.left _ _ (by simp)

/-- Search for `c*re` at the beginning of `text`. -/
def matchstar (c : Byte) (re text : List Byte) : Bool :=
  matchhere re text ||
    match text with
    | [] => false
    | t :: text => if t = c ∨ c = dot then matchstar c re text else false
termination_by (re.length, text.length, 1)
decreasing_by
  · exact Prod.Lex.right _ (Prod.Lex.right _ (by decide))
  · exact Prod.Lex.right _ (Prod.Lex.left _ _ (by simp))

end

theorem matchhere_nil (text : List Byte) : matchhere [] text = true := by
  rw [matchhere.eq_def]

theorem matchhere_star (c : Byte) (re text : List Byte) :
    matchhere (c :: asterisk :: re) text = matchstar c re text := by
  rw [matchhere.eq_def]
  exact if_pos rfl

theorem matchhere_anchor (text : List Byte) : matchhere [dollar] text = text.isEmpty := by
  rw [matchhere.eq_def]
  rfl

/-- A byte that is neither followed by `*` nor an anchor. -/
theorem matchhere_byte {c : Byte} {re : List Byte} (hstar : re.head? ≠ some asterisk)
    (hend : ¬(c = dollar ∧ re = [])) (text : List Byte) :
    matchhere (c :: re) text = match text with
      | [] => false
      | t :: text => if c = dot ∨ c = t then matchhere re text else false := by
  rw [matchhere.eq_def]
  dsimp only
  rw [if_neg hstar, if_neg hend]

/-- Search for `re` at every place of `text`, also at its end. -/
def matchFrom (re : List Byte) : List Byte → Bool
  | [] => matchhere re []
  | t :: text => matchhere re (t :: text) || matchFrom re text

/-- `match`: search for `re` anywhere in `text`. -/
def matchRe (re text : List Byte) : Bool :=
  if re.head? = some caret then matchhere re.tail text else matchFrom re text

/-! ### The language of a pattern -/

/-- A part of a pattern: a byte, or a byte and `*`. -/
inductive Item
  | one (c : Byte)
  | star (c : Byte)

open Computability

/-- `.` stands for any byte, any other byte for itself. -/
def byteLang (c : Byte) : Language Byte := fun w => ∃ x, w = [x] ∧ (c = dot ∨ c = x)

theorem mem_byteLang {c : Byte} {w : List Byte} :
    w ∈ byteLang c ↔ ∃ x, w = [x] ∧ (c = dot ∨ c = x) := Iff.rfl

/-- With `*` it stands for any number of such bytes. -/
def Item.lang : Item → Language Byte
  | .one c => byteLang c
  | .star c => (byteLang c)∗

/-- A pattern: its parts, and whether it ends with an anchor. -/
structure Pattern where
  items : List Item
  atEnd : Bool

namespace Pattern

/-- Put a part before a pattern. -/
def cons (i : Item) (p : Pattern) : Pattern := ⟨i :: p.items, p.atEnd⟩

/-- What a pattern means, after the `^` if there is one. -/
def ofBytes : List Byte → Pattern
  | [] => ⟨[], false⟩
  | [c] => if c = dollar then ⟨[], true⟩ else ⟨[.one c], false⟩
  | c :: d :: re => if d = asterisk then cons (.star c) (ofBytes re)
    else cons (.one c) (ofBytes (d :: re))

/-- The language of a pattern. -/
def lang (p : Pattern) : Language Byte := (p.items.map Item.lang).prod

/-- The pattern is at the beginning of a text, and if it ends with an anchor it is all of it. -/
def Heads (p : Pattern) (text : List Byte) : Prop :=
  ∃ w post, text = w ++ post ∧ w ∈ p.lang ∧ (p.atEnd = true → post = [])

variable {c t : Byte} {p : Pattern} {text : List Byte}

theorem lang_cons (i : Item) (p : Pattern) : (cons i p).lang = i.lang * p.lang := by
  rw [lang, cons, List.map_cons, List.prod_cons]
  rfl

theorem heads_one_nil : ¬(cons (.one c) p).Heads [] := by
  rintro ⟨w, post, heq, hw, -⟩
  rw [lang_cons, Language.mem_mul] at hw
  obtain ⟨u, hu, v, _, rfl⟩ := hw
  obtain ⟨x, rfl, _⟩ := mem_byteLang.mp hu
  exact absurd heq (by simp)

theorem heads_one_cons :
    (cons (.one c) p).Heads (t :: text) ↔ (c = dot ∨ c = t) ∧ p.Heads text := by
  constructor
  · rintro ⟨w, post, heq, hw, hend⟩
    rw [lang_cons, Language.mem_mul] at hw
    obtain ⟨u, hu, v, hv, rfl⟩ := hw
    obtain ⟨x, rfl, hx⟩ := mem_byteLang.mp hu
    obtain ⟨rfl, rfl⟩ := List.cons.inj heq
    exact ⟨hx, v, post, rfl, hv, hend⟩
  · rintro ⟨ht, v, post, rfl, hv, hend⟩
    refine ⟨t :: v, post, rfl, ?_, hend⟩
    rw [lang_cons, Language.mem_mul]
    exact ⟨[t], mem_byteLang.mpr ⟨t, rfl, ht⟩, v, hv, rfl⟩

/-- The first part is a byte and `*`: it comes to nothing, or to that byte and the same again. -/
theorem lang_star (c : Byte) (p : Pattern) : (cons (.star c) p).lang
    = p.lang + (cons (.one c) (cons (.star c) p)).lang := by
  rw [lang_cons, lang_cons, lang_cons, ← mul_assoc]
  change (byteLang c)∗ * p.lang = p.lang + byteLang c * (byteLang c)∗ * p.lang
  nth_rewrite 1 [← Language.one_add_self_mul_kstar_eq_kstar]
  rw [add_mul, one_mul]

theorem heads_star : (cons (.star c) p).Heads text ↔
    p.Heads text ∨ (cons (.one c) (cons (.star c) p)).Heads text := by
  constructor
  · rintro ⟨w, post, rfl, hw, hend⟩
    rw [lang_star, Language.mem_add] at hw
    exact hw.imp (fun hw => ⟨w, post, rfl, hw, hend⟩) fun hw => ⟨w, post, rfl, hw, hend⟩
  · rintro (⟨w, post, rfl, hw, hend⟩ | ⟨w, post, rfl, hw, hend⟩)
    · exact ⟨w, post, rfl, by rw [lang_star]; exact Or.inl hw, hend⟩
    · exact ⟨w, post, rfl, by rw [lang_star]; exact Or.inr hw, hend⟩

theorem heads_nil (text : List Byte) : Heads ⟨[], false⟩ text :=
  ⟨[], text, rfl, Language.nil_mem_one, nofun⟩

theorem heads_anchor : Heads ⟨[], true⟩ text ↔ text = [] := by
  constructor
  · rintro ⟨w, post, rfl, hw, hend⟩
    rw [hend rfl, List.append_nil]
    exact (Language.mem_one w).mp hw
  · rintro rfl
    exact ⟨[], [], rfl, Language.nil_mem_one, fun _ => rfl⟩

end Pattern

/-! ### What the functions decide -/

open Pattern

variable {c : Byte} {re text : List Byte} {p : Pattern}

/-- **A byte at the beginning of a text.** -/
theorem matchhere_byte_iff (hstar : re.head? ≠ some asterisk) (hend : ¬(c = dollar ∧ re = []))
    (hhere : ∀ text, matchhere re text = true ↔ p.Heads text) (text : List Byte) :
    matchhere (c :: re) text = true ↔ (cons (.one c) p).Heads text := by
  rw [matchhere_byte hstar hend]
  cases text with
  | nil => exact iff_of_false Bool.false_ne_true heads_one_nil
  | cons t text =>
    rw [heads_one_cons, ← hhere]
    by_cases ht : c = dot ∨ c = t
    · simp [ht]
    · simp [ht]

/-- **A byte and `*` at the beginning of a text**, by induction on the text. -/
theorem matchstar_iff (hhere : ∀ text, matchhere re text = true ↔ p.Heads text)
    (text : List Byte) : matchstar c re text = true ↔ (cons (.star c) p).Heads text := by
  induction text with
  | nil =>
    rw [matchstar, Bool.or_false, hhere, heads_star, or_iff_left heads_one_nil]
  | cons t text ih =>
    rw [matchstar, Bool.or_eq_true, hhere, heads_star, heads_one_cons, ← ih]
    refine or_congr_right ?_
    by_cases ht : c = dot ∨ c = t
    · have ht' : t = c ∨ c = dot := ht.symm.imp_left Eq.symm
      rw [if_pos ht', and_iff_right ht]
    · have ht' : ¬(t = c ∨ c = dot) := fun h => ht (h.symm.imp_right Eq.symm)
      rw [if_neg ht']
      exact iff_of_false Bool.false_ne_true fun h => ht h.1

/-- **A pattern at the beginning of a text**, by induction on how the pattern is read. -/
theorem matchhere_iff (re text : List Byte) :
    matchhere re text = true ↔ (ofBytes re).Heads text := by
  induction re using ofBytes.induct generalizing text with
  | case1 => exact iff_of_true (matchhere_nil text) (heads_nil text)
  | case2 =>
    rw [matchhere_anchor, ofBytes, if_pos rfl, heads_anchor, List.isEmpty_iff]
  | case3 c hc =>
    rw [ofBytes, if_neg hc]
    exact matchhere_byte_iff (p := ⟨[], false⟩) (by simp) (fun h => hc h.1)
      (fun text => iff_of_true (matchhere_nil text) (heads_nil text)) text
  | case4 c re ih =>
    rw [matchhere_star, ofBytes, if_pos rfl]
    exact matchstar_iff ih text
  | case5 c d re hd ih =>
    have hstar : (d :: re).head? ≠ some asterisk := by simpa using hd
    rw [ofBytes, if_neg hd]
    exact matchhere_byte_iff hstar (by simp) ih text

theorem matchFrom_iff (re text : List Byte) : matchFrom re text = true ↔
    ∃ pre rest, text = pre ++ rest ∧ (ofBytes re).Heads rest := by
  induction text with
  | nil =>
    rw [matchFrom, matchhere_iff]
    constructor
    · exact fun h => ⟨[], [], rfl, h⟩
    · rintro ⟨pre, rest, heq, h⟩
      obtain ⟨rfl, rfl⟩ := List.append_eq_nil_iff.mp heq.symm
      exact h
  | cons t text ih =>
    rw [matchFrom, Bool.or_eq_true, matchhere_iff, ih]
    constructor
    · rintro (h | ⟨pre, rest, rfl, h⟩)
      · exact ⟨[], t :: text, rfl, h⟩
      · exact ⟨t :: pre, rest, rfl, h⟩
    · rintro ⟨pre, rest, heq, h⟩
      cases pre with
      | nil =>
        obtain rfl : t :: text = rest := heq
        exact Or.inl h
      | cons x pre =>
        obtain ⟨rfl, rfl⟩ := List.cons.inj heq
        exact Or.inr ⟨pre, rest, rfl, h⟩

/-- The pattern after the `^`, if there is one. -/
def body (re : List Byte) : List Byte := if re.head? = some caret then re.tail else re

/-- **The matcher decides the language of the pattern**: it finds a pattern iff the text has a part
that is in its language, at the beginning if the pattern starts with `^`, and at the end if it ends
with an anchor. -/
theorem matchRe_iff (re text : List Byte) : matchRe re text = true ↔
    ∃ pre w post, text = pre ++ w ++ post ∧ w ∈ (ofBytes (body re)).lang ∧
      (re.head? = some caret → pre = []) ∧ ((ofBytes (body re)).atEnd = true → post = []) := by
  rw [matchRe, body]
  by_cases hcaret : re.head? = some caret
  · rw [if_pos hcaret, if_pos hcaret, matchhere_iff]
    constructor
    · rintro ⟨w, post, rfl, hw, hend⟩
      exact ⟨[], w, post, rfl, hw, fun _ => rfl, hend⟩
    · rintro ⟨pre, w, post, rfl, hw, hpre, hend⟩
      exact ⟨w, post, by rw [hpre hcaret, List.nil_append], hw, hend⟩
  · rw [if_neg hcaret, if_neg hcaret, matchFrom_iff]
    constructor
    · rintro ⟨pre, _, rfl, w, post, rfl, hw, hend⟩
      exact ⟨pre, w, post, (List.append_assoc _ _ _).symm, hw, fun h => absurd h hcaret, hend⟩
    · rintro ⟨pre, w, post, rfl, hw, _, hend⟩
      exact ⟨pre, w ++ post, List.append_assoc _ _ _, w, post, rfl, hw, hend⟩

end Grep

end Xv6
