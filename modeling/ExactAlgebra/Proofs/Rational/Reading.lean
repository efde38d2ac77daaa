import Mathlib.Data.List.TakeWhile
import Mathlib.Data.Rat.Lemmas
import Mathlib.Tactic
import ExactAlgebra.Rational.Numeral
import ExactAlgebra.Rational.Text

/-!
What is written of a rational number is read back as that number.
-/

namespace ExactAlgebra.Rational

variable {ds : List Char} {c : Char} {n v : ℕ}

/-! ### Digits -/

theorem not_isBlank_of_isDigit (h : c.isDigit = true) : isBlank c = false := by
  simp only [Char.isDigit, Bool.and_eq_true, decide_eq_true_eq] at h
  have hspace : c ≠ ' ' := by
    rintro rfl
    exact absurd h.1 (by decide)
  have hbelow : ¬ c ≤ '\r' := fun hle =>
    absurd (UInt32.le_trans h.1 (Char.le_def.1 hle)) (by decide)
  simp [isBlank, hspace, hbelow]

theorem isDigit_digitChar_mod (n : ℕ) : (Nat.digitChar (n % 10)).isDigit = true := by
  rw [Nat.isDigit_digitChar]
  exact decide_eq_true (Nat.mod_lt n (by decide))

theorem digitValue_digitChar {d : ℕ} (h : d < 10) : digitValue (Nat.digitChar d) = d := by
  have hall : ∀ d ∈ List.range 10, digitValue (Nat.digitChar d) = d := by decide
  exact hall d (List.mem_range.2 h)

theorem readDigits?_cons (h : c.isDigit = true) (cs : List Char) (v : ℕ) :
    readDigits? (c :: cs) v = readDigits? cs (10 * v + digitValue c) := by
  simp only [readDigits?, not_isBlank_of_isDigit h, h, Bool.false_eq_true, if_false, if_true]

theorem trailingDigits_zero (n : ℕ) : trailingDigits 0 n = [Nat.digitChar (n % 10)] := rfl

theorem trailingDigits_succ (level n : ℕ) : trailingDigits (level + 1) n =
    trailingDigits level (n / 10 ^ 2 ^ level) ++ trailingDigits level (n % 10 ^ 2 ^ level) := rfl

theorem isDigit_of_mem_trailingDigits {level : ℕ} (h : c ∈ trailingDigits level n) :
    c.isDigit = true := by
  induction level generalizing n with
  | zero =>
    rw [List.mem_singleton.1 h]
    exact isDigit_digitChar_mod n
  | succ level ih => exact (List.mem_append.1 h).elim ih ih

/-- Trailing digits are read as the remainder that they were written for. -/
theorem readDigits?_trailingDigits (level n v : ℕ) (cs : List Char) :
    readDigits? (trailingDigits level n ++ cs) v =
      readDigits? cs (v * 10 ^ 2 ^ level + n % 10 ^ 2 ^ level) := by
  induction level generalizing n v cs with
  | zero =>
    have hvalue := digitValue_digitChar (Nat.mod_lt n (by decide : 0 < 10))
    rw [trailingDigits_zero, List.singleton_append, readDigits?_cons (isDigit_digitChar_mod n),
      hvalue, pow_zero, pow_one, mul_comm]
  | succ level ih =>
    rw [trailingDigits_succ, List.append_assoc, ih, ih, Nat.mod_mod]
    congr 1
    rw [pow_succ 2, pow_mul, pow_two, Nat.mod_mul]
    ring

theorem readDigits?_dropWhile (ds : List Char) :
    readDigits? (ds.dropWhile (· == '0')) 0 = readDigits? ds 0 := by
  induction ds with
  | nil => rfl
  | cons d ds ih =>
    by_cases hd : d = '0'
    · subst hd
      rw [List.dropWhile_cons_of_pos rfl, ih, readDigits?_cons rfl]
      rfl
    · rw [List.dropWhile_cons_of_neg (by simpa using hd)]

theorem lt_pow_digitLevel (n : ℕ) : n < 10 ^ 2 ^ digitLevel n := by
  calc n < 2 ^ (n.log2 + 1) := Nat.lt_log2_self
    _ ≤ 2 ^ 2 ^ (digitLevel n + 1) := Nat.pow_le_pow_right Nat.two_pos Nat.lt_log2_self
    _ = (2 ^ 2) ^ 2 ^ digitLevel n := by rw [pow_succ', pow_mul]
    _ ≤ 10 ^ 2 ^ digitLevel n := Nat.pow_le_pow_left (by decide) _

theorem isDigit_of_mem_decimalDigits (h : c ∈ decimalDigits n) : c.isDigit = true := by
  rw [decimalDigits] at h
  split at h
  · rw [List.mem_singleton.1 h]
    rfl
  · exact isDigit_of_mem_trailingDigits ((List.dropWhile_sublist _).mem h)

theorem decimalDigits_ne_nil (n : ℕ) : decimalDigits n ≠ [] := by
  rw [decimalDigits]
  split
  · exact List.cons_ne_nil _ _
  · assumption

theorem readDigits?_decimalDigits (n : ℕ) : readDigits? (decimalDigits n) 0 = some n := by
  have hread : readDigits? ((trailingDigits (digitLevel n) n).dropWhile (· == '0')) 0 = some n := by
    rw [readDigits?_dropWhile, ← List.append_nil (trailingDigits _ _), readDigits?_trailingDigits,
      zero_mul, zero_add, Nat.mod_eq_of_lt (lt_pow_digitLevel n), readDigits?]
  rw [decimalDigits]
  split
  · next he =>
    rw [he] at hread
    exact hread
  · exact hread

theorem readNatural?_decimalDigits (n : ℕ) : readNatural? (decimalDigits n) = some n := by
  have hread := readDigits?_decimalDigits n
  have hdigits := fun c => @isDigit_of_mem_decimalDigits c n
  cases hds : decimalDigits n with
  | nil => exact absurd hds (decimalDigits_ne_nil n)
  | cons c cs =>
    rw [hds] at hread hdigits
    rw [readNatural?, if_pos (hdigits c (List.mem_cons_self ..)), hread]

/-! ### Numerals -/

/-- The characters of which numerals are made. -/
def isNumeral (c : Char) : Bool := c.isDigit || c == '-' || c == '/'

theorem toList_decimal (n : ℕ) : (decimal n).toList = decimalDigits n := String.toList_ofList

theorem toList_signedDecimal (k : ℤ) : (signedDecimal k).toList =
    if k < 0 then '-' :: decimalDigits k.natAbs else decimalDigits k.natAbs := by
  rw [signedDecimal]
  split
  · rw [String.toList_append, toList_decimal]
    rfl
  · exact toList_decimal _

theorem toList_text (q : ℚ) : (text q).toList =
    if q.den = 1 then (signedDecimal q.num).toList
    else (signedDecimal q.num).toList ++ '/' :: decimalDigits q.den := by
  rw [text]
  split
  · rfl
  · rw [String.toList_append, String.toList_append, toList_decimal, List.append_assoc]
    rfl

theorem mem_signedDecimal {k : ℤ} (h : c ∈ (signedDecimal k).toList) :
    c.isDigit = true ∨ c = '-' := by
  rw [toList_signedDecimal] at h
  split at h
  · exact (List.mem_cons.1 h).elim .inr fun h => .inl (isDigit_of_mem_decimalDigits h)
  · exact .inl (isDigit_of_mem_decimalDigits h)

theorem isNumeral_of_mem_text {q : ℚ} (h : c ∈ (text q).toList) : isNumeral c = true := by
  have hsigned : c ∈ (signedDecimal q.num).toList → isNumeral c = true := fun h => by
    rcases mem_signedDecimal h with hc | rfl
    · simp [isNumeral, hc]
    · rfl
  rw [toList_text] at h
  split at h
  · exact hsigned h
  · rcases List.mem_append.1 h with h | h
    · exact hsigned h
    · rcases List.mem_cons.1 h with rfl | h
      · rfl
      · simp [isNumeral, isDigit_of_mem_decimalDigits h]

theorem text_ne_nil (q : ℚ) : (text q).toList ≠ [] := by
  have hsigned : (signedDecimal q.num).toList ≠ [] := by
    rw [toList_signedDecimal]
    split
    · exact List.cons_ne_nil _ _
    · exact decimalDigits_ne_nil _
  rw [toList_text]
  split
  · exact hsigned
  · exact List.append_ne_nil_of_left_ne_nil hsigned _

theorem readInteger?_of_isDigit (hds : ∀ c ∈ ds, c.isDigit = true) :
    readInteger? ds = (readNatural? ds).map Int.ofNat := by
  cases ds with
  | nil => rfl
  | cons c cs =>
    have hc := hds c (List.mem_cons_self ..)
    have hminus : c ≠ '-' := by
      rintro rfl
      cases hc
    rw [readInteger?, List.dropWhile_cons_of_neg (by simp [not_isBlank_of_isDigit hc])]
    split
    · next he => exact absurd (List.cons.inj he).1 hminus
    · rfl

theorem readInteger?_signedDecimal (k : ℤ) : readInteger? (signedDecimal k).toList = some k := by
  rw [toList_signedDecimal]
  split
  · next hneg =>
    rw [readInteger?, List.dropWhile_cons_of_neg (by decide)]
    simp only [readNatural?_decimalDigits]
    change some (-(k.natAbs : ℤ)) = some k
    rw [Int.ofNat_natAbs_of_nonpos hneg.le, neg_neg]
  · next hpos =>
    rw [readInteger?_of_isDigit fun _ => isDigit_of_mem_decimalDigits, readNatural?_decimalDigits,
      Option.map_some, Int.ofNat_eq_natCast, Int.natAbs_of_nonneg (not_lt.1 hpos)]

theorem readFraction?_text (q : ℚ) : readFraction? (text q).toList = some (q.num, (q.den : ℤ)) := by
  have hslash : ∀ c ∈ (signedDecimal q.num).toList, decide (c ≠ '/') = true := by
    intro c hc
    rw [decide_eq_true_eq]
    rintro rfl
    rcases mem_signedDecimal hc with h | h <;> cases h
  rw [toList_text]
  split
  · next hden =>
    rw [readFraction?, List.dropWhile_eq_nil_iff.2 hslash]
    simp only [readInteger?_signedDecimal, hden, Option.map_some, Nat.cast_one]
  · have hden : readInteger? (decimalDigits q.den) = some (q.den : ℤ) := by
      rw [readInteger?_of_isDigit fun _ => isDigit_of_mem_decimalDigits,
        readNatural?_decimalDigits]
      rfl
    rw [readFraction?, List.dropWhile_append_of_pos hslash, List.takeWhile_append_of_pos hslash,
      List.dropWhile_cons_of_neg (by decide), List.takeWhile_cons_of_neg (by decide),
      List.append_nil]
    simp only [readInteger?_signedDecimal, hden]
    rfl

theorem ofFraction_num_den (q : ℚ) : ofFraction q.num q.den = q := by
  rw [ofFraction, if_neg (Int.not_lt.2 (Int.natCast_nonneg _)), Int.natAbs_natCast, Rat.mkRat_self]

/-- What is written of a number is read back as that number. -/
theorem parse_text (q : ℚ) : parse (text q) = .ok q := by
  have hall : ∀ c ∈ (text q).toList, decide (c ≠ '\x00') = true := by
    intro c hc
    rw [decide_eq_true_eq]
    rintro rfl
    cases isNumeral_of_mem_text hc
  rw [parse, List.takeWhile_eq_self_iff.2 hall, readFraction?_text]
  simp only [Int.natCast_eq_zero, q.den_ne_zero, if_false, ofFraction_num_den]

theorem text_injective : Function.Injective text := by
  intro p q h
  have hp := parse_text p
  rw [h, parse_text q] at hp
  exact (Except.ok.inj hp).symm

end ExactAlgebra.Rational
