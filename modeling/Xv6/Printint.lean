import Mathlib.Data.Nat.Digits.Lemmas

/-!
# Printing numbers

`printint` of the kernel and of the user library stores the digits of a number in a buffer of 20
bytes, lowest digit first, then a minus sign if there is one, and prints the buffer backwards. A
store beyond the buffer has no outcome in this model, so where there is an outcome every store was
in the buffer.

The two functions differ in the letters they use for digits from ten on and in how they decide about
the sign. What they print is the representation of the number without leading zeros, and it can be
read back.
-/

namespace Xv6

/-! ### The two functions -/

/-- `char buf[20];` -/
def bufSize : ℕ := 20

/-- The loop `do { buf[i++] = digits[x % base]; } while((x /= base) != 0);` with `room` bytes left
in the buffer. The characters are in the order in which they are stored. -/
def storeDigits (digits : ℕ → Char) (base : ℕ) : ℕ → ℕ → Option (List Char)
  | 0, _ => none
  | room + 1, x =>
    if x / base ≠ 0 then (storeDigits digits base room (x / base)).map (digits (x % base) :: ·)
    else some [digits (x % base)]

/-- `buf[i++] = '-';` -/
def storeSign (buf : List Char) : Option (List Char) :=
  if buf.length < bufSize then some (buf ++ ['-']) else none

/-- What both functions do once the sign and the unsigned number `x` are known: the characters
printed. -/
def printUnsigned (digits : ℕ → Char) (base : ℕ) (neg : Bool) (x : BitVec 64) :
    Option (List Char) :=
  (storeDigits digits base bufSize x.toNat).bind fun buf =>
    (if neg then storeSign buf else some buf).map List.reverse

namespace InKernel

/-- `static char digits[] = "0123456789abcdef";` -/
def digits (i : ℕ) : Char := "0123456789abcdef".toList.getD i '\x00'

/-- `printint` of the kernel: what is sent to the console. -/
def printint (xx : BitVec 64) (base : ℕ) (sign : Bool) : Option (List Char) :=
  let sign := sign && xx.slt 0
  let x := if sign then -xx else xx
  printUnsigned digits base sign x

end InKernel

namespace InUser

/-- `static char digits[] = "0123456789ABCDEF";` -/
def digits (i : ℕ) : Char := "0123456789ABCDEF".toList.getD i '\x00'

/-- `printint` of the user library: what is written to the file. -/
def printint (xx : BitVec 64) (base : ℕ) (sgn : Bool) : Option (List Char) :=
  if sgn && xx.slt 0 then printUnsigned digits base true (-xx)
  else printUnsigned digits base false xx

end InUser

/-! ### Reading a number -/

/-- The value of a digit. -/
def readDigit (digits : ℕ → Char) (base : ℕ) (c : Char) : Option ℕ :=
  (List.range base).find? fun d => digits d == c

/-- The value of some digits that follow a number. -/
def readDigits (digits : ℕ → Char) (base : ℕ) : ℕ → List Char → Option ℕ
  | n, [] => some n
  | n, c :: s =>
    match readDigit digits base c with
    | none => none
    | some d => readDigits digits base (n * base + d) s

/-- The value of a number, with or without a minus sign. -/
def readInt (digits : ℕ → Char) (base : ℕ) : List Char → Option ℤ
  | [] => none
  | c :: s =>
    if c = '-' then (readDigits digits base 0 s).map fun n : ℕ => -(n : ℤ)
    else (readDigits digits base 0 (c :: s)).map fun n : ℕ => (n : ℤ)

/-- The sign of `v` and some digits, highest first. -/
def represent (digits : ℕ → Char) (v : ℤ) (ds : List ℕ) : List Char :=
  (if v < 0 then ['-'] else []) ++ ds.map digits

/-- The outcome of printing `v` is its representation by the digits `ds`. -/
structure Prints (digits : ℕ → Char) (base : ℕ) (v : ℤ) (ds : List ℕ)
    (out : Option (List Char)) : Prop where
  shown : out = some (represent digits v ds)
  fits : (represent digits v ds).length ≤ bufSize
  digit : ∀ d ∈ ds, d < base
  leading : ds.head? = some 0 → ds = [0]
  parsed : readInt digits base (represent digits v ds) = some v

/-! ### The digits of a number -/

section Digits

variable {digits : ℕ → Char} {base x n room : ℕ} {ds : List ℕ}

/-- The digits of `x`, lowest first; at least one. -/
def lows (base x : ℕ) : List ℕ := if x = 0 then [0] else Nat.digits base x

theorem lows_of_lt (h : x < base) : lows base x = [x] := by
  rw [lows]
  split_ifs with hx
  · rw [hx]
  · exact Nat.digits_of_lt base x hx h

theorem lows_of_div_ne (hb : 1 < base) (h : x / base ≠ 0) :
    lows base x = x % base :: lows base (x / base) := by
  have hx : x ≠ 0 := by
    rintro rfl
    exact h (Nat.zero_div base)
  rw [lows, if_neg hx, lows, if_neg h, Nat.digits_def' hb (Nat.pos_of_ne_zero hx)]

theorem lows_ne_nil (base x : ℕ) : lows base x ≠ [] := by
  rw [lows]
  split_ifs with hx
  · exact List.cons_ne_nil 0 []
  · exact Nat.digits_ne_nil_iff_ne_zero.mpr hx

theorem storeDigits_eq (hb : 1 < base) (hroom : 0 < room) (hx : x < base ^ room) :
    storeDigits digits base room x = some ((lows base x).map digits) := by
  induction room generalizing x with
  | zero => exact absurd hroom (lt_irrefl 0)
  | succ room ih =>
    rw [storeDigits]
    split_ifs with h
    · have hdiv : x / base < base ^ room := by
        rw [Nat.div_lt_iff_lt_mul (Nat.zero_lt_of_lt hb)]
        exact hx
      have hpos : 0 < room := by
        rcases Nat.eq_zero_or_pos room with rfl | hpos
        · exact absurd (Nat.lt_one_iff.mp hdiv) h
        · exact hpos
      rw [ih hpos hdiv, lows_of_div_ne hb h]
      rfl
    · have hlt : x < base := (Nat.div_eq_zero_iff_lt (Nat.zero_lt_of_lt hb)).mp (not_not.mp h)
      rw [lows_of_lt hlt, Nat.mod_eq_of_lt hlt]
      rfl

theorem length_lows_le (hb : 1 < base) (hn : 0 < n) (hx : x < base ^ n) :
    (lows base x).length ≤ n := by
  rw [lows]
  split_ifs
  · exact hn
  · exact (Nat.digits_length_le_iff hb x).mpr hx

theorem lows_lt (hb : 1 < base) {d : ℕ} (hd : d ∈ lows base x) : d < base := by
  rw [lows] at hd
  split_ifs at hd
  · rw [List.mem_singleton.mp hd]
    exact Nat.zero_lt_of_lt hb
  · exact Nat.digits_lt_base hb hd

theorem lows_leading (h : (lows base x).reverse.head? = some 0) :
    (lows base x).reverse = [0] := by
  rw [lows] at h ⊢
  split_ifs at h ⊢ with hx
  · rfl
  · rw [List.head?_reverse,
      List.getLast?_eq_some_getLast (Nat.digits_ne_nil_iff_ne_zero.mpr hx), Option.some.injEq] at h
    exact absurd h (Nat.getLast_digit_ne_zero base hx)

theorem foldl_lows (base x : ℕ) :
    (lows base x).reverse.foldl (fun n d => n * base + d) 0 = x := by
  rw [List.foldl_reverse, lows]
  split_ifs with hx
  · rw [hx, List.foldr_cons, List.foldr_nil, Nat.zero_mul]
  · conv_rhs => rw [← Nat.ofDigits_digits base x, Nat.ofDigits_eq_foldr]
    refine congrArg (fun f => List.foldr f 0 _) ?_
    funext d n
    rw [Nat.add_comm, Nat.mul_comm, Nat.cast_id]

/-! ### Printing and reading -/

theorem readDigits_map (h : ∀ d ∈ ds, readDigit digits base (digits d) = some d) :
    readDigits digits base n (ds.map digits) = some (ds.foldl (fun n d => n * base + d) n) := by
  induction ds generalizing n with
  | nil => rfl
  | cons d ds ih =>
    rw [List.map_cons, readDigits, h d List.mem_cons_self, List.foldl_cons]
    exact ih fun d hd => h d (List.mem_cons_of_mem _ hd)

/-- The table has a digit for each value below the base, all different, and no minus sign. -/
structure Alphabet (digits : ℕ → Char) (base : ℕ) : Prop where
  two_le : 1 < base
  read : ∀ d < base, readDigit digits base (digits d) = some d
  sign : ∀ d < base, digits d ≠ '-'

variable (ha : Alphabet digits base) {v : ℤ}
include ha

theorem readInt_represent (hds : ds ≠ []) (hlt : ∀ d ∈ ds, d < base)
    (hval : ds.foldl (fun n d => n * base + d) 0 = v.natAbs) :
    readInt digits base (represent digits v ds) = some v := by
  have hread := readDigits_map (n := 0) fun d hd => ha.read d (hlt d hd)
  rw [hval] at hread
  rw [represent]
  split_ifs with hv
  · rw [List.singleton_append, readInt, if_pos rfl, hread, Option.map_some,
      Int.ofNat_natAbs_of_nonpos hv.le, neg_neg]
  · obtain ⟨d, ds, rfl⟩ := List.exists_cons_of_ne_nil hds
    rw [List.map_cons] at hread
    rw [List.nil_append, List.map_cons, readInt,
      if_neg (ha.sign d (hlt d List.mem_cons_self)), hread, Option.map_some,
      Int.natAbs_of_nonneg (not_lt.mp hv)]

/-- What is printed for a number of at most `n` digits, if they and the sign fit. -/
theorem printUnsigned_prints {y : BitVec 64} (hy : y.toNat = v.natAbs) (hn : 0 < n)
    (hroom : v.natAbs < base ^ n) (hfit : (if v < 0 then 1 else 0) + n ≤ bufSize) :
    Prints digits base v (lows base v.natAbs).reverse
      (printUnsigned digits base (decide (v < 0)) y) := by
  have hlen := length_lows_le ha.two_le hn hroom
  have hroom' : v.natAbs < base ^ bufSize :=
    hroom.trans_le (Nat.pow_le_pow_right (Nat.zero_lt_of_lt ha.two_le) (by omega))
  have hlt : ∀ d ∈ (lows base v.natAbs).reverse, d < base := fun d hd =>
    lows_lt ha.two_le (List.mem_reverse.mp hd)
  have hne : (lows base v.natAbs).reverse ≠ [] := by
    rw [Ne, List.reverse_eq_nil_iff]
    exact lows_ne_nil base v.natAbs
  refine ⟨?_, ?_, hlt, lows_leading, readInt_represent ha hne hlt (foldl_lows base _)⟩
  · rw [printUnsigned, hy, storeDigits_eq ha.two_le (by decide) hroom', represent]
    rw [Option.bind_some, List.map_reverse]
    by_cases hv : v < 0
    · rw [if_pos hv] at hfit
      have hsign : ((lows base v.natAbs).map digits).length < bufSize := by
        rw [List.length_map]
        omega
      rw [if_pos (decide_eq_true hv), storeSign, if_pos hsign, if_pos hv, Option.map_some,
        List.reverse_append]
      rfl
    · rw [decide_eq_false hv, if_neg hv]
      rfl
  · rw [represent, List.length_append, List.length_map, List.length_reverse]
    split_ifs at hfit ⊢
    · exact (Nat.add_le_add_left hlen 1).trans hfit
    · exact (Nat.add_le_add_left hlen 0).trans hfit

end Digits

/-! ### Both functions -/

theorem InKernel.alphabet {base : ℕ} (hb : base = 10 ∨ base = 16) : Alphabet digits base := by
  rcases hb with rfl | rfl <;> exact ⟨by decide, by decide, by decide⟩

theorem InUser.alphabet {base : ℕ} (hb : base = 10 ∨ base = 16) : Alphabet digits base := by
  rcases hb with rfl | rfl <;> exact ⟨by decide, by decide, by decide⟩

/-- The value that is meant by the 64 bits `xx`. -/
def meant (xx : BitVec 64) (sign : Bool) : ℤ := if sign then xx.toInt else xx.toNat

theorem meant_neg_iff (xx : BitVec 64) (sign : Bool) :
    meant xx sign < 0 ↔ (sign && xx.slt 0) = true := by
  rw [meant, Bool.and_eq_true, BitVec.slt_iff_toInt_lt]
  cases sign <;> simp

theorem printUnsigned_meant {digits : ℕ → Char} {base : ℕ} (ha : Alphabet digits base)
    (hb : 10 ≤ base) (xx : BitVec 64) (sign : Bool) :
    Prints digits base (meant xx sign) (lows base (meant xx sign).natAbs).reverse
      (printUnsigned digits base (sign && xx.slt 0) (if sign && xx.slt 0 then -xx else xx)) := by
  have hint := BitVec.toInt_eq_toNat_cond xx
  split_ifs with h
  · have hv := (meant_neg_iff xx sign).mpr h
    have habs : (-xx).toNat = (meant xx sign).natAbs ∧ (meant xx sign).natAbs < 10 ^ 19 := by
      rw [meant, if_pos (Bool.and_eq_true_iff.mp h).1] at hv ⊢
      rw [BitVec.toNat_neg]
      omega
    rw [h, ← decide_eq_true hv]
    exact printUnsigned_prints ha habs.1 (by decide)
      (habs.2.trans_le (Nat.pow_le_pow_left hb 19)) (by rw [if_pos hv]; decide)
  · have hv := (meant_neg_iff xx sign).not.mpr h
    have habs : xx.toNat = (meant xx sign).natAbs := by
      rw [meant] at hv ⊢
      split_ifs at hv ⊢ <;> omega
    have hroom : (meant xx sign).natAbs < 10 ^ 20 := by
      rw [← habs]
      exact xx.isLt.trans (by decide)
    rw [Bool.eq_false_of_not_eq_true h, ← decide_eq_false hv]
    exact printUnsigned_prints ha habs (by decide)
      (hroom.trans_le (Nat.pow_le_pow_left hb 20)) (by rw [if_neg hv]; decide)

/-- **Printing is exact and stays in the buffer**: what both functions print is the number without
leading zeros, and reads back as the number. -/
theorem printint_prints (xx : BitVec 64) {base : ℕ} (hb : base = 10 ∨ base = 16) (sign : Bool) :
    ∃ ds, Prints InKernel.digits base (meant xx sign) ds (InKernel.printint xx base sign) ∧
      Prints InUser.digits base (meant xx sign) ds (InUser.printint xx base sign) := by
  have hbase : 10 ≤ base := by omega
  have huser := printUnsigned_meant (InUser.alphabet hb) hbase xx sign
  refine ⟨_, printUnsigned_meant (InKernel.alphabet hb) hbase xx sign, ?_⟩
  rw [InUser.printint]
  split_ifs at huser ⊢ with h
  · rwa [h] at huser
  · rwa [Bool.eq_false_of_not_eq_true h] at huser

/-- The most negative number fills the buffer. -/
theorem printint_prints_min :
    (∃ ds, Prints InKernel.digits 10 (-(2 ^ 63)) ds (InKernel.printint (1#64 <<< 63) 10 true)) ∧
      InKernel.printint (1#64 <<< 63) 10 true = some "-9223372036854775808".toList := by
  refine ⟨?_, by decide⟩
  obtain ⟨ds, hkernel, -⟩ := printint_prints (1#64 <<< 63) (Or.inl rfl) true
  exact ⟨ds, hkernel⟩

end Xv6
