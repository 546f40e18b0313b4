/-
Numbers of the JSON library: the integers that the service prints.

* `printNumber_intCast` — an integer of at most 53 bits is printed as its
  decimal digits, on whichever path of `print_number`;
* `numberSize` — how long a number is printed (`length_printNumber`);
* `readDigits_exact` — reading them back makes no rounding error;
* `parses_parseNumber` — the number is read back in front of anything that
  does not go on with it, and cut short it runs the parser dry;
* `intOfDouble_toInt` — an `int` survives the way through the `double`.
-/
import KbPm.CJson

namespace KbPm

open Scan

theorem double_intCast {n : ℤ} (h : |n| < 2 ^ 53) : double (n : ℚ) = n :=
  Rounding.roundTo_intCast h

theorem double_natCast {n : ℕ} (h : n < 2 ^ 53) : double (n : ℚ) = n :=
  Rounding.roundTo_natCast h

theorem intOfDouble_intCast {n : ℤ} (h1 : -2 ^ 31 ≤ n) (h2 : n < 2 ^ 31) :
    intOfDouble (n : ℚ) = Int32.ofInt n := by
  simp only [intOfDouble, Int.floor_intCast, Int.ceil_intCast, ite_self, if_pos (And.intro h1 h2)]

theorem intOfDouble_toInt (i : Int32) : intOfDouble ((i.toInt : ℤ) : ℚ) = i := by
  rw [intOfDouble_intCast (Int32.le_toInt i) (Int32.toInt_lt i), Int32.ofInt_toInt]

/-! ### Printing -/

theorem printNumber_intCast {n : ℤ} (h : |n| < 2 ^ 53) : printNumber (n : ℚ) = decimal n := by
  by_cases h0 : n = 0
  · subst h0
    simp [printNumber, decimal]
  unfold printNumber
  rw [if_neg (by exact_mod_cast h0)]
  by_cases hr : -2 ^ 31 ≤ n ∧ n < 2 ^ 31
  · have hint : (intOfDouble (n : ℚ)).toInt = n := by
      rw [intOfDouble_intCast hr.1 hr.2, Int32.toInt_ofInt_of_le (by exact_mod_cast hr.1)
        (by exact_mod_cast hr.2)]
    have hle : (n : ℚ) ≤ 2 ^ 31 - 1 := by exact_mod_cast (by omega : n ≤ 2 ^ 31 - 1)
    have hge : (-2 ^ 31 : ℚ) ≤ n := by exact_mod_cast hr.1
    rw [hint, if_pos ⟨by simp [dblEpsilon], hle, hge⟩]
  · have hout : ¬(|(((intOfDouble (n : ℚ)).toInt : ℤ) : ℚ) - n| ≤ dblEpsilon ∧
        (n : ℚ) ≤ 2 ^ 31 - 1 ∧ (-2 ^ 31 : ℚ) ≤ n) := by
      rintro ⟨-, hle, hge⟩
      have h1 : n ≤ 2 ^ 31 - 1 := by exact_mod_cast hle
      have h2 : -2 ^ 31 ≤ n := by exact_mod_cast hge
      exact hr ⟨h2, by omega⟩
    have hbig : |(n : ℚ)| < 10 ^ 60 := by
      have : |(n : ℚ)| < 2 ^ 53 := by exact_mod_cast h
      exact lt_trans this (by norm_num)
    rw [if_neg hout, if_pos ⟨by simp [dblEpsilon], hbig⟩, formatWhole, Rounding.roundEven_intCast]

/-! ### How long a number is -/

/-- How many digits a natural number has; zero has one. -/
def digitCount (n : ℕ) : ℕ := Nat.log 10 n + 1

def signSize (negative : Prop) [Decidable negative] : ℕ := if negative then 1 else 0

/-- What `%d` takes. -/
def decimalSize (n : ℤ) : ℕ := signSize (n < 0) + digitCount n.natAbs

/-- The exponent of `%e`: the place of the first digit, one higher if all seven are rounded up. -/
def printedExponent (d : ℚ) : ℤ :=
  let k := Int.log 10 |d|
  if (Rounding.roundEven (|d| / 10 ^ (k - 6))).toNat = 10 ^ 7 then k + 1 else k

/-- How many bytes `print_number` writes: digits and a sign, and with `%e` and `%f` a point, six
digits behind it, and an exponent. -/
def numberSize (d : ℚ) : ℕ :=
  let valueint := (intOfDouble d).toInt
  if d = 0 then 1
  else if |(valueint : ℚ) - d| ≤ dblEpsilon ∧ d ≤ 2 ^ 31 - 1 ∧ -2 ^ 31 ≤ d then
    decimalSize valueint
  else if |(⌊d⌋ : ℚ) - d| ≤ dblEpsilon ∧ |d| < 10 ^ 60 then decimalSize (Rounding.roundEven d)
  else if |d| < 1 / 10 ^ 6 ∨ 10 ^ 9 < |d| then
    signSize (d < 0) + 10 + max 2 (digitCount (printedExponent d).natAbs)
  else signSize (d < 0) + digitCount ((Rounding.roundEven (|d| * 10 ^ 6)).toNat / 10 ^ 6) + 7

theorem length_sign (d : ℚ) : (if d < 0 then [minus] else []).length = signSize (d < 0) := by
  rw [signSize]
  split
  · rfl
  · rfl

theorem length_digitsOf {n : ℕ} (h : n ≠ 0) : (digitsOf n).length = digitCount n := by
  rw [digitsOf, List.length_map, List.length_reverse, Nat.length_digits 10 n (by norm_num) h,
    digitCount]

theorem length_digitsOf_le {n k : ℕ} (h : n < 10 ^ k) : (digitsOf n).length ≤ k := by
  rw [digitsOf, List.length_map, List.length_reverse]
  exact (Nat.digits_length_le_iff (by norm_num) n).mpr h

theorem length_decimal (n : ℤ) : (decimal n).length = decimalSize n := by
  rw [decimal, decimalSize, signSize]
  split_ifs with h0 hneg
  · omega
  · rw [h0]
    decide
  · rw [List.length_cons, length_digitsOf (by omega), Nat.add_comm]
  · rw [length_digitsOf (by omega), Nat.zero_add]

theorem length_decimal_natCast (n : ℕ) : (decimal (n : ℤ)).length = digitCount n := by
  rw [length_decimal, decimalSize, signSize, if_neg (by omega), Nat.zero_add, Int.natAbs_natCast]

theorem length_padded (k n : ℕ) : (padded k n).length = max k (digitsOf n).length := by
  rw [padded, List.length_append, List.length_replicate]
  omega

theorem length_padded_six (n : ℕ) : (padded 6 (n % 10 ^ 6)).length = 6 := by
  rw [length_padded]
  exact max_eq_left (length_digitsOf_le (Nat.mod_lt _ (by norm_num)))

/-- The seven digits of `%e`. -/
theorem roundEven_significand {d : ℚ} (h : d ≠ 0) :
    10 ^ 6 ≤ (Rounding.roundEven (|d| / 10 ^ (Int.log 10 |d| - 6))).toNat ∧
      (Rounding.roundEven (|d| / 10 ^ (Int.log 10 |d| - 6))).toNat ≤ 10 ^ 7 := by
  have hpos : 0 < |d| := abs_pos.mpr h
  have hlow : ((10 : ℕ) : ℚ) ^ Int.log 10 |d| ≤ |d| := Int.zpow_log_le_self (by norm_num) hpos
  have hhigh : |d| < ((10 : ℕ) : ℚ) ^ (Int.log 10 |d| + 1) :=
    Int.lt_zpow_succ_log_self (by norm_num) _
  set k := Int.log 10 |d|
  have hpow : (0 : ℚ) < 10 ^ k := by positivity
  have hscale : |d| / 10 ^ (k - 6) = |d| / 10 ^ k * 10 ^ 6 := by
    rw [zpow_sub₀ (by norm_num)]
    field_simp
  have h1 : ((10 ^ 6 : ℤ) : ℚ) ≤ |d| / 10 ^ (k - 6) := by
    have hone : 1 ≤ |d| / 10 ^ k := (one_le_div hpow).mpr (by simpa using hlow)
    rw [hscale]
    push_cast
    linarith
  have h2 : |d| / 10 ^ (k - 6) < ((10 ^ 7 : ℤ) : ℚ) := by
    have hten : |d| / 10 ^ k < 10 := by
      rw [div_lt_iff₀ hpow, mul_comm, ← zpow_add_one₀ (by norm_num)]
      simpa using hhigh
    rw [hscale]
    push_cast
    linarith
  have hfloor1 : 10 ^ 6 ≤ ⌊|d| / 10 ^ (k - 6)⌋ := Int.le_floor.mpr h1
  have hfloor2 : ⌊|d| / 10 ^ (k - 6)⌋ < 10 ^ 7 := Int.floor_lt.mpr h2
  have hround := Rounding.roundEven_bounds (|d| / 10 ^ (k - 6))
  omega

theorem length_formatScientific {d : ℚ} (h : d ≠ 0) : (formatScientific d).length =
    signSize (d < 0) + 10 + max 2 (digitCount (printedExponent d).natAbs) := by
  obtain ⟨hlow, hhigh⟩ := roundEven_significand h
  have hpad : ∀ k : ℤ, (padded 2 k.natAbs).length = max 2 (digitCount k.natAbs) := by
    intro k
    rw [length_padded]
    by_cases hk : k.natAbs = 0
    · rw [hk]
      decide
    · rw [length_digitsOf hk]
  have hlength : ∀ (m : ℕ) (k : ℤ), 10 ^ 6 ≤ m → m < 10 ^ 7 →
      ((if d < 0 then [minus] else []) ++ decimal (m / 10 ^ 6 : ℕ) ++
        46 :: padded 6 (m % 10 ^ 6) ++
          101 :: (if k < 0 then minus else 43) :: padded 2 k.natAbs).length =
        signSize (d < 0) + 10 + max 2 (digitCount k.natAbs) := by
    intro m k h1 h2
    have hfirst : digitCount (m / 10 ^ 6) = 1 := by
      rw [digitCount, Nat.log_eq_zero_iff.mpr (Or.inl (by omega))]
    simp only [List.length_append, List.length_cons, length_decimal_natCast, hfirst,
      length_padded_six, hpad, length_sign]
    omega
  rw [formatScientific, printedExponent]
  by_cases hten : (Rounding.roundEven (|d| / 10 ^ (Int.log 10 |d| - 6))).toNat = 10 ^ 7
  · simp only [if_pos hten]
    exact hlength (10 ^ 6) _ (le_refl _) (by norm_num)
  · simp only [if_neg hten]
    exact hlength _ _ hlow (lt_of_le_of_ne hhigh hten)

theorem length_formatFixed (d : ℚ) : (formatFixed d).length =
    signSize (d < 0) + digitCount ((Rounding.roundEven (|d| * 10 ^ 6)).toNat / 10 ^ 6) + 7 := by
  rw [formatFixed]
  simp only [List.length_append, List.length_cons, length_decimal_natCast, length_padded_six,
    length_sign]

theorem length_printNumber (d : ℚ) : (printNumber d).length = numberSize d := by
  rw [printNumber, numberSize]
  split_ifs with h0
  · rfl
  · exact length_decimal _
  · exact length_decimal _
  · exact length_formatScientific h0
  · exact length_formatFixed d

theorem numberSize_intCast {n : ℤ} (h : |n| < 2 ^ 53) : numberSize n = decimalSize n := by
  rw [← length_printNumber, printNumber_intCast h, length_decimal]

/-! ### Digits -/

theorem isDigit_ofNat {d : ℕ} (h : d < 10) : isDigit (48 + d).toUInt8 = true := by
  have hall : ∀ d < 10, isDigit (48 + d).toUInt8 = true := by decide
  exact hall d h

theorem toNat_ofNat_digit {d : ℕ} (h : d < 10) : (48 + d).toUInt8.toNat - 48 = d := by
  have hall : ∀ d < 10, (48 + d).toUInt8.toNat - 48 = d := by decide
  exact hall d h

theorem isDigit_digitsOf (n : ℕ) : ∀ c ∈ digitsOf n, isDigit c = true := by
  intro c hc
  rw [digitsOf, List.mem_map] at hc
  obtain ⟨d, hd, rfl⟩ := hc
  exact isDigit_ofNat (Nat.digits_lt_base (by norm_num) (List.mem_reverse.mp hd))

/-- Reading digits from the left. -/
theorem foldl_digitsOf (n : ℕ) :
    (digitsOf n).foldl (fun n c => n * 10 + (c.toNat - 48)) 0 = n := by
  have hfold : ∀ ds : List ℕ, (∀ d ∈ ds, d < 10) →
      (ds.map fun d => (48 + d).toUInt8).reverse.foldl (fun n c => n * 10 + (c.toNat - 48)) 0 =
        Nat.ofDigits 10 ds := by
    intro ds hds
    induction ds with
    | nil => rfl
    | cons d ds ih =>
      have hd : (48 + d).toUInt8.toNat - 48 = d := toNat_ofNat_digit (hds d List.mem_cons_self)
      rw [List.map_cons, List.reverse_cons, List.foldl_append,
        ih fun d hd => hds d (List.mem_cons_of_mem _ hd), Nat.ofDigits_cons, List.foldl_cons,
        List.foldl_nil, hd]
      rw [Nat.add_comm, Nat.mul_comm]
  rw [digitsOf, List.map_reverse, hfold _ fun d hd => Nat.digits_lt_base (by norm_num) hd,
    Nat.ofDigits_digits]

theorem decimal_natCast {k : ℕ} : decimal (k : ℤ) = if k = 0 then [48] else digitsOf k := by
  rw [decimal]
  by_cases hk : k = 0
  · rw [if_pos hk, if_pos (by exact_mod_cast hk)]
  · rw [if_neg hk, if_neg (by exact_mod_cast hk), if_neg (by omega), Int.natAbs_natCast]

theorem decimal_digits (k : ℕ) : (decimal (k : ℤ)).all isDigit = true ∧
    (decimal (k : ℤ)).foldl (fun n c => n * 10 + (c.toNat - 48)) 0 = k := by
  rw [decimal_natCast]
  split
  · rename_i hk
    subst hk
    decide
  · exact ⟨List.all_eq_true.mpr (isDigit_digitsOf k), foldl_digitsOf k⟩

/-- The first digit of a positive number is not `0`. -/
theorem digitsOf_cons {n : ℕ} (h : n ≠ 0) :
    ∃ c ds, digitsOf n = c :: ds ∧ c ≠ 48 ∧ isDigit c = true := by
  have hne : Nat.digits 10 n ≠ [] := Nat.digits_ne_nil_iff_ne_zero.mpr h
  obtain ⟨init, hinit⟩ : ∃ init, Nat.digits 10 n = init ++ [(Nat.digits 10 n).getLast hne] :=
    ⟨_, (List.dropLast_append_getLast hne).symm⟩
  set d := (Nat.digits 10 n).getLast hne with hd
  have hd10 : d < 10 := Nat.digits_lt_base (by norm_num) (List.getLast_mem hne)
  have hd0 : d ≠ 0 := Nat.getLast_digit_ne_zero 10 h
  refine ⟨(48 + d).toUInt8, init.reverse.map fun d => (48 + d).toUInt8, ?_, ?_, isDigit_ofNat hd10⟩
  · rw [digitsOf, hinit]
    simp
  · have hall : ∀ d < 10, d ≠ 0 → (48 + d).toUInt8 ≠ 48 := by decide
    exact hall d hd10 hd0

/-- The value of decimal digits read from the left, starting from `a`. -/
def horner (a : ℕ) (l : List ℕ) : ℕ := l.foldl (fun a d => a * 10 + d) a

theorem le_horner (a : ℕ) (l : List ℕ) : a ≤ horner a l := by
  induction l generalizing a with
  | nil => exact le_refl a
  | cons d l ih => exact le_trans (by omega) (ih (a * 10 + d))

theorem horner_digits (n : ℕ) : horner 0 (Nat.digits 10 n).reverse = n := by
  rw [horner, List.foldl_reverse]
  conv_rhs => rw [← Nat.ofDigits_digits 10 n, Nat.ofDigits_eq_foldr]
  congr 1
  funext d a
  simp only [Nat.cast_id]
  omega

/-- Reading digits is exact as long as the result fits into the significand. -/
theorem readDigits_exact {l : List ℕ} (hl : ∀ d ∈ l, d < 10) {a : ℕ} (h : horner a l < 2 ^ 53)
    {x : Text} (hx : isDigit (peek x) = false) :
    readDigits (a : ℚ) (l.map (fun d => (48 + d).toUInt8) ++ x) = ((horner a l : ℚ), x) := by
  induction l generalizing a with
  | nil =>
    cases x with
    | nil => rfl
    | cons c x =>
      rw [List.map_nil, List.nil_append, readDigits, if_neg (by simpa using hx)]
      rfl
  | cons d l ih =>
    have hd : d < 10 := hl d (by simp)
    have hle : a * 10 + d ≤ horner (a * 10 + d) l := le_horner _ _
    have hstep : horner a (d :: l) = horner (a * 10 + d) l := rfl
    rw [hstep] at h ⊢
    -- neither the product nor the sum is rounded
    have h1 : double ((a : ℚ) * 10) = ((a * 10 : ℕ) : ℚ) := by
      rw [← double_natCast (show a * 10 < 2 ^ 53 by omega)]
      push_cast
      rfl
    have h2 : double (((a * 10 : ℕ) : ℚ) + ((d : ℕ) : ℚ)) = ((a * 10 + d : ℕ) : ℚ) := by
      rw [← double_natCast (show a * 10 + d < 2 ^ 53 by omega)]
      push_cast
      rfl
    rw [List.map_cons, List.cons_append, readDigits, if_pos (isDigit_ofNat hd), h1,
      toNat_ofNat_digit hd, h2]
    exact ih (fun e he => hl e (by simp [he])) h

/-- However it rounds, the digit loop stops behind the digits. -/
theorem readDigits_rest {ds : Text} (hds : ∀ c ∈ ds, isDigit c = true) (a : ℚ) {x : Text}
    (hx : isDigit (peek x) = false) : (readDigits a (ds ++ x)).2 = x := by
  induction ds generalizing a with
  | nil =>
    cases x with
    | nil => rfl
    | cons c x => rw [List.nil_append, readDigits, if_neg (by simpa using hx)]
  | cons c ds ih =>
    rw [List.cons_append, readDigits, if_pos (hds c (by simp))]
    exact ih (fun b hb => hds b (by simp [hb])) _

/-! ### Numbers -/

/-- A byte that does not go on with a number. -/
def numEnd (c : UInt8) : Prop := isDigit c = false ∧ c ≠ 46 ∧ c ≠ 101 ∧ c ≠ 69

theorem readFraction_absent (n : ℚ) {x : Text} (hx : peek x ≠ 46) :
    readFraction n x = (n, 0, x) := by
  rw [readFraction, if_neg (fun h => hx h.1)]

theorem readExponent_absent {x : Text} (h1 : peek x ≠ 101) (h2 : peek x ≠ 69) :
    readExponent x = (0, x) := by
  rw [readExponent, if_neg (by simp [h1, h2])]

theorem readInteger_nonzero {num : Text} (h : peek num ≠ 48) :
    readInteger num = if 49 ≤ peek num ∧ peek num ≤ 57 then readDigits 0 num else (0, num) := by
  unfold readInteger
  rw [if_neg h]

/-- A first digit that is not `0` starts the digit loop. -/
theorem readInteger_digits {c : UInt8} {t : Text} (hc : isDigit c = true) (h0 : c ≠ 48) :
    readInteger (c :: t) = readDigits 0 (c :: t) := by
  simp only [isDigit, Bool.and_eq_true, decide_eq_true_eq, UInt8.le_iff_toNat_le,
    UInt8.reduceToNat] at hc
  have hne : c.toNat ≠ 48 := fun h => h0 (UInt8.toNat_inj.mp (by simpa using h))
  have hrange : 49 ≤ c ∧ c ≤ 57 := by
    simp only [UInt8.le_iff_toNat_le, UInt8.reduceToNat]
    omega
  rw [readInteger_nonzero (by rwa [peek_cons]), peek_cons, if_pos hrange]

theorem readInteger_exhausted {zs : Text} (hz : Exhausted zs) : readInteger zs = (0, zs) := by
  rw [readInteger_nonzero (by rw [hz.peek]; decide), hz.peek]
  rfl

/-- Behind the sign, the parser multiplies by `10 ^ 0`. -/
theorem parseNumber_integer {num : Text} {n : ℚ} {x : Text}
    (h : readInteger (if peek num = minus then num.drop 1 else num) = (n, x))
    (hx : numEnd (peek x)) :
    parseNumber num = .ok (double ((if peek num = minus then -1 else 1) * n), x) := by
  have hone : double 1 = 1 := by simpa using double_natCast (n := 1) (by norm_num)
  simp only [parseNumber, h, readFraction_absent n hx.2.1, readExponent_absent hx.2.2.1 hx.2.2.2,
    Nat.cast_zero, sub_zero, zpow_zero, hone, mul_one]

theorem readInteger_digitsOf {n : ℕ} (hn : n ≠ 0) (h : n < 2 ^ 53) {x : Text}
    (hx : isDigit (peek x) = false) : readInteger (digitsOf n ++ x) = ((n : ℚ), x) := by
  obtain ⟨c, ds, hcs, h0, hc⟩ := digitsOf_cons hn
  have hval := readDigits_exact (l := (Nat.digits 10 n).reverse) (a := 0)
    (fun d hd => Nat.digits_lt_base (by norm_num) (List.mem_reverse.mp hd))
    (by rwa [horner_digits]) hx
  rw [horner_digits, ← digitsOf, Nat.cast_zero] at hval
  rw [hcs, List.cons_append, readInteger_digits hc h0, ← List.cons_append, ← hcs, hval]

theorem peek_ne_minus {n : ℕ} (hn : n ≠ 0) (x : Text) : peek (digitsOf n ++ x) ≠ minus := by
  obtain ⟨c, ds, hcs, -, hc⟩ := digitsOf_cons hn
  rw [hcs, List.cons_append, peek_cons]
  rintro rfl
  exact absurd hc (by decide)

/-- A decimal number is its sign and the digits of its absolute value. -/
theorem decimal_cases {n : ℤ} (hn : n ≠ 0) :
    (n < 0 ∧ decimal n = minus :: digitsOf n.natAbs) ∨ (0 < n ∧ decimal n = digitsOf n.natAbs) := by
  rw [decimal, if_neg hn]
  rcases lt_or_gt_of_ne hn with h | h
  · exact Or.inl ⟨h, if_pos h⟩
  · exact Or.inr ⟨h, if_neg (by omega)⟩

theorem parseNumber_decimal {n : ℤ} (h : |n| < 2 ^ 53) {x : Text} (hx : numEnd (peek x)) :
    parseNumber (decimal n ++ x) = .ok ((n : ℚ), x) := by
  by_cases h0 : n = 0
  · -- `0` is not the start of the digit loop
    subst h0
    have hint : readInteger (if peek (48 :: x) = minus then (48 :: x : Text).drop 1 else 48 :: x) =
        (0, x) := by
      have hnot : ¬(49 ≤ peek x ∧ peek x ≤ 57) := by
        rintro ⟨h1, h2⟩
        have h48 : (48 : UInt8) ≤ peek x := UInt8.le_trans (by decide) h1
        exact absurd hx.1 (by simp [isDigit, h48, h2])
      rw [peek_cons, if_neg (by decide)]
      unfold readInteger
      rw [peek_cons, if_pos rfl]
      exact if_neg hnot
    have hzero : double 0 = 0 := double_intCast (n := 0) (by norm_num)
    simpa [decimal, hzero] using parseNumber_integer hint hx
  have hn0 : n.natAbs ≠ 0 := by omega
  have hlt : n.natAbs < 2 ^ 53 := by
    rw [Int.abs_eq_natAbs] at h
    exact_mod_cast h
  have habs : ((n.natAbs : ℕ) : ℚ) = ((n.natAbs : ℤ) : ℚ) := (Int.cast_natCast _).symm
  rcases decimal_cases h0 with ⟨hneg, hd⟩ | ⟨hpos, hd⟩
  · rw [hd, List.cons_append]
    have hint : readInteger (if peek (minus :: (digitsOf n.natAbs ++ x)) = minus then
        (minus :: (digitsOf n.natAbs ++ x)).drop 1 else minus :: (digitsOf n.natAbs ++ x)) =
        ((n.natAbs : ℚ), x) := by
      rw [peek_cons, if_pos rfl]
      exact readInteger_digitsOf hn0 hlt hx.1
    have hval : (-1 : ℚ) * ((n.natAbs : ℤ) : ℚ) = ((n : ℤ) : ℚ) := by
      rw [show (n.natAbs : ℤ) = -n by omega]
      push_cast
      ring
    rw [parseNumber_integer hint hx, peek_cons, if_pos rfl, habs, hval, double_intCast h]
  · have hm := peek_ne_minus hn0 x
    have hp := parseNumber_integer
      ((congrArg readInteger (if_neg hm)).trans (readInteger_digitsOf hn0 hlt hx.1)) hx
    rw [hd, hp, if_neg hm, habs, one_mul, show (n.natAbs : ℤ) = n by omega, double_intCast h]

/-- A prefix of the digits of a number, in front of terminators, is used up. -/
theorem readInteger_cut (n k : ℕ) {zs : Text} (hz : Exhausted zs) :
    (readInteger ((digitsOf n).take k ++ zs)).2 = zs := by
  have hzd : isDigit (peek zs) = false := by
    rw [hz.peek]
    decide
  rcases hq : (digitsOf n).take k with _ | ⟨c, q⟩
  · rw [List.nil_append, readInteger_exhausted hz]
  · have hmem : ∀ b ∈ c :: q, isDigit b = true :=
      fun b hb => isDigit_digitsOf n b (List.mem_of_mem_take (hq ▸ hb))
    have hn : n ≠ 0 := by
      rintro rfl
      simp [digitsOf] at hq
    obtain ⟨c', ds, hcs, h0, -⟩ := digitsOf_cons hn
    have hc : c = c' := by
      rcases k with _ | k
      · simp at hq
      · rw [hcs, List.take_succ_cons] at hq
        exact (List.cons.inj hq).1.symm
    rw [List.cons_append, readInteger_digits (hmem c (by simp)) (hc ▸ h0), ← List.cons_append]
    exact readDigits_rest hmem 0 hzd

theorem stalls_parseNumber {num zs : Text} (hz : Exhausted zs)
    (h : (readInteger (if peek num = minus then num.drop 1 else num)).2 = zs) :
    Stalls (parseNumber num) := by
  have hend : numEnd (peek zs) := by
    rw [hz.peek]
    exact ⟨by decide, by decide, by decide, by decide⟩
  exact Or.inr ⟨_, _, parseNumber_integer (n := (readInteger _).1) (x := zs) (by rw [← h]) hend, hz⟩

theorem parses_parseNumber {n : ℤ} (h : |n| < 2 ^ 53) :
    Parses parseNumber (printNumber (n : ℚ)) (n : ℚ) numEnd := by
  rw [printNumber_intCast h]
  refine ⟨fun x hx => parseNumber_decimal h hx, fun k hk zs hz => ?_⟩
  have hzm : peek zs ≠ minus := by
    rw [hz.peek]
    decide
  have hempty : Stalls (parseNumber zs) :=
    stalls_parseNumber hz (by rw [if_neg hzm, readInteger_exhausted hz])
  by_cases h0 : n = 0
  · subst h0
    obtain rfl : k = 0 := by simpa [decimal] using hk
    exact hempty
  -- with a sign or without, the text may be cut behind any byte
  rcases decimal_cases h0 with ⟨-, hd⟩ | ⟨-, hd⟩ <;> rw [hd]
  · rcases k with _ | k
    · exact hempty
    · refine stalls_parseNumber hz ?_
      rw [List.take_succ_cons, List.cons_append, peek_cons, if_pos rfl]
      exact readInteger_cut _ k hz
  · rcases k with _ | k
    · exact hempty
    · refine stalls_parseNumber hz ?_
      have hm : peek ((digitsOf n.natAbs).take (k + 1) ++ zs) ≠ minus := by
        obtain ⟨c, ds, hcs, -, hc⟩ := digitsOf_cons (n := n.natAbs) (by omega)
        rw [hcs, List.take_succ_cons, List.cons_append, peek_cons]
        rintro rfl
        exact absurd hc (by decide)
      rw [if_neg hm]
      exact readInteger_cut _ (k + 1) hz

/-- The first byte of a number. -/
theorem decimal_head (n : ℤ) :
    ∃ c t, decimal n = c :: t ∧ (c = minus ∨ isDigit c = true) := by
  by_cases h0 : n = 0
  · exact ⟨48, [], by rw [decimal, if_pos h0], Or.inr (by decide)⟩
  · obtain ⟨c, ds, hcs, -, hc⟩ := digitsOf_cons (n := n.natAbs) (by omega)
    rcases decimal_cases h0 with ⟨-, hd⟩ | ⟨-, hd⟩
    · exact ⟨minus, _, hd, Or.inl rfl⟩
    · exact ⟨c, ds, by rw [hd, hcs], Or.inr hc⟩

end KbPm
