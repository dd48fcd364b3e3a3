/-
Whole numbers as IEEE doubles, and how Go prints them.

`roundBits` is the nearest number with 53 significant bits, `shortest` the
decimal with the fewest significant digits that rounds to a given one, and
`formatWhole` what `%v` makes of it: digits below a million, an exponent from
there on. So an integer that went through a double is printed as before exactly
if it is smaller than a million (`formatWhole_roundWhole_iff`).
-/
import Mathlib.Algebra.Group.Nat.Defs
import Mathlib.Data.Nat.Log

namespace Lib

/-! ## Rounding -/

/-- The nearest multiple of the unit; of two, the even one. -/
def roundTo (unit n : ℕ) : ℕ :=
  if 2 * (n % unit) < unit ∨ (2 * (n % unit) = unit ∧ n / unit % 2 = 0) then n / unit * unit
  else n / unit * unit + unit

theorem roundTo_eq (unit n : ℕ) : roundTo unit n = n / unit * unit ∨ roundTo unit n = n / unit * unit + unit := by
  unfold roundTo
  split
  · exact .inl rfl
  · exact .inr rfl

theorem roundTo_of_dvd {unit n : ℕ} (hunit : 0 < unit) (h : unit ∣ n) : roundTo unit n = n := by
  have hmod := Nat.mod_eq_zero_of_dvd h
  rw [roundTo, if_pos (.inl (by omega)), Nat.div_mul_cancel h]

/-- The distance of two doubles around `n`. -/
def ulp (n : ℕ) : ℕ := 2 ^ (n.log2 - 52)

/-- The nearest double. -/
def roundBits (n : ℕ) : ℕ := roundTo (ulp n) n

theorem roundBits_of_lt {n : ℕ} (h : n < 2 ^ 53) : roundBits n = n := by
  have hlog : n.log2 - 52 = 0 := by
    by_cases hn : n = 0
    · simp [hn]
    · have := (Nat.log2_lt hn).mpr h
      omega
  have hulp : ulp n = 1 := by rw [ulp, hlog, Nat.pow_zero]
  exact roundTo_of_dvd (by omega) (hulp ▸ Nat.one_dvd n)

theorem ulp_le {n : ℕ} (hn : n ≠ 0) : ulp n ≤ n :=
  calc ulp n ≤ 2 ^ n.log2 := Nat.pow_le_pow_right (by decide) (Nat.sub_le _ _)
    _ ≤ n := Nat.log2_self_le hn

theorem le_two_mul_roundBits (n : ℕ) : n ≤ 2 * roundBits n := by
  by_cases hn : n = 0
  · simp [hn]
  have hpos : 0 < ulp n := Nat.pow_pos (by decide)
  have hdiv : 1 ≤ n / ulp n := (Nat.one_le_div_iff hpos).mpr (ulp_le hn)
  have hunit : ulp n ≤ n / ulp n * ulp n := Nat.le_mul_of_pos_left _ hdiv
  have hsplit := Nat.div_add_mod' n (ulp n)
  have hmod := Nat.mod_lt n hpos
  rcases roundTo_eq (ulp n) n with h | h
  · rw [roundBits, h]
    omega
  · rw [roundBits, h]
    omega

/-- Nothing is rounded across a power of two. -/
theorem roundBits_le (n : ℕ) : roundBits n ≤ 2 ^ 53 * ulp n := by
  have hpos : 0 < ulp n := Nat.pow_pos (by decide)
  have hlt : n < 2 ^ 53 * ulp n := by
    rw [ulp, ← Nat.pow_add]
    exact Nat.lt_of_lt_of_le Nat.lt_log2_self (Nat.pow_le_pow_right (by decide) (by omega))
  have hdiv : n / ulp n + 1 ≤ 2 ^ 53 := (Nat.div_lt_iff_lt_mul hpos).mpr hlt
  have hbound : (n / ulp n + 1) * ulp n ≤ 2 ^ 53 * ulp n := Nat.mul_le_mul_right _ hdiv
  rw [Nat.add_mul, Nat.one_mul] at hbound
  rcases roundTo_eq (ulp n) n with h | h
  · rw [roundBits, h]
    omega
  · rw [roundBits, h]
    exact hbound

theorem ulp_dvd_roundBits (n : ℕ) : ulp n ∣ roundBits n := by
  rcases roundTo_eq (ulp n) n with h | h
  · rw [roundBits, h]
    exact Nat.dvd_mul_left _ _
  · rw [roundBits, h, ← Nat.succ_mul]
    exact Nat.dvd_mul_left _ _

theorem roundBits_idem (n : ℕ) : roundBits (roundBits n) = roundBits n := by
  refine roundTo_of_dvd (Nat.pow_pos (by decide)) ?_
  rcases Nat.lt_or_eq_of_le (roundBits_le n) with hlt | heq
  · -- The rounded number is in the same range, or below it.
    refine Nat.dvd_trans (Nat.pow_dvd_pow 2 ?_) (ulp_dvd_roundBits n)
    by_cases hzero : roundBits n = 0
    · simp [hzero]
    · rw [ulp, ← Nat.pow_add] at hlt
      have := (Nat.log2_lt hzero).mpr hlt
      omega
  · rw [heq, ulp, ulp, ← Nat.pow_add, Nat.log2_two_pow]
    exact Nat.pow_dvd_pow 2 (Nat.sub_le _ _)

/-! ## Decimals -/

/-- A decimal with at most `p` zeros at its end that rounds to `x`, with as
many zeros as possible: the one below `x`, the one above it, or the nearer of
the two. -/
def shortestFrom (x : ℕ) : ℕ → ℕ
  | 0 => x
  | p + 1 =>
    let unit := 10 ^ (p + 1)
    let lower := x / unit * unit
    if roundBits lower = x then
      if roundBits (lower + unit) = x then roundTo unit x else lower
    else if roundBits (lower + unit) = x then lower + unit
    else shortestFrom x p

/-- The shortest decimal of a double. -/
def shortest (x : ℕ) : ℕ := shortestFrom x (Nat.toDigits 10 x).length

theorem roundBits_shortestFrom {x : ℕ} (hx : roundBits x = x) : ∀ p, roundBits (shortestFrom x p) = x
  | 0 => hx
  | p + 1 => by
    rw [shortestFrom]
    split
    next hlower =>
      split
      next hupper =>
        rcases roundTo_eq (10 ^ (p + 1)) x with h | h
        · rw [h, hlower]
        · rw [h, hupper]
      · exact hlower
    · split
      next hupper => exact hupper
      · exact roundBits_shortestFrom hx p

/-! ## Printing -/

/-- The digits without the zeros at the end. -/
def significant (digits : List Char) : List Char := (digits.reverse.dropWhile (· = '0')).reverse

/-- `%e` with as many digits as needed. -/
def formatExponent (c : ℕ) : String :=
  let digits := Nat.toDigits 10 c
  let sig := significant digits
  let exp := digits.length - 1
  String.ofList (sig.take 1 ++ (if sig.length ≤ 1 then [] else '.' :: sig.drop 1) ++
    'e' :: '+' :: ((if exp < 10 then ['0'] else []) ++ Nat.toDigits 10 exp))

/-- `%g` with as many digits as needed, which takes an exponent from `1e+06` on. -/
def formatMagnitude (x : ℕ) : String :=
  if shortest x < 1000000 then toString (shortest x) else formatExponent (shortest x)

def formatWhole (x : ℤ) : String := (if x < 0 then "-" else "") ++ formatMagnitude x.natAbs

/-- The nearest double to an integer. -/
def roundWhole (n : ℤ) : ℤ := if n < 0 then -(roundBits n.natAbs : ℤ) else roundBits n.natAbs

theorem natAbs_roundWhole (n : ℤ) : (roundWhole n).natAbs = roundBits n.natAbs := by
  unfold roundWhole
  split <;> omega

theorem roundWhole_neg_iff (n : ℤ) : roundWhole n < 0 ↔ n < 0 := by
  have hround := le_two_mul_roundBits n.natAbs
  unfold roundWhole
  split <;> omega

theorem roundWhole_idem (n : ℤ) : roundWhole (roundWhole n) = roundWhole n := by
  have habs := natAbs_roundWhole n
  rw [roundWhole, habs, roundBits_idem, if_congr (roundWhole_neg_iff n) rfl rfl]
  rfl

theorem toString_eq_sign_append (n : ℤ) : toString n = (if n < 0 then "-" else "") ++ toString n.natAbs := by
  cases n with
  | ofNat m =>
    rw [if_neg (show ¬ Int.ofNat m < 0 from Int.not_lt.mpr (Int.natCast_nonneg m)), String.empty_append]
    rfl
  | negSucc m =>
    rw [if_pos (Int.negSucc_lt_zero m)]
    rfl

/-- A decimal number has digits only. -/
theorem notMem_toString {c : Char} (hc : c.isDigit = false) (n : ℕ) : c ∉ (toString n).toList := by
  intro hmem
  have hdigit : c.isDigit := Nat.isDigit_of_mem_toDigits (b := 10) (by decide) (by decide) (by simpa using hmem)
  rw [hc] at hdigit
  cases hdigit

theorem formatExponent_ne (c n : ℕ) : formatExponent c ≠ toString n := by
  intro h
  refine notMem_toString (by decide : 'e'.isDigit = false) n ?_
  rw [← h, formatExponent]
  simp

/-- A number that went through a double is printed with all its digits exactly
below a million. -/
theorem formatMagnitude_roundBits_iff (n : ℕ) : formatMagnitude (roundBits n) = toString n ↔ n < 1000000 := by
  have hshort : roundBits (shortest (roundBits n)) = roundBits n := roundBits_shortestFrom (roundBits_idem n) _
  have hback := le_two_mul_roundBits (shortest (roundBits n))
  have hround := le_two_mul_roundBits n
  rw [hshort] at hback
  constructor
  · intro h
    by_contra hlarge
    have hdecimal : ¬ shortest (roundBits n) < 1000000 := by
      intro hsmall
      have hself := roundBits_of_lt (show shortest (roundBits n) < 2 ^ 53 by omega)
      by_cases hn : n < 2 ^ 53
      · rw [hself] at hshort
        rw [roundBits_of_lt hn] at hshort hsmall
        omega
      · omega
    rw [formatMagnitude, if_neg hdecimal] at h
    exact formatExponent_ne _ _ h
  · intro hsmall
    have hn : roundBits n = n := roundBits_of_lt (by omega)
    have hself := roundBits_of_lt (show shortest (roundBits n) < 2 ^ 53 by omega)
    have hshortest : shortest (roundBits n) = n := by rw [← hself, hshort, hn]
    rw [formatMagnitude, hshortest, if_pos hsmall]

theorem formatWhole_roundWhole_iff (n : ℤ) : formatWhole (roundWhole n) = toString n ↔ n.natAbs < 1000000 := by
  rw [formatWhole, natAbs_roundWhole, toString_eq_sign_append, if_congr (roundWhole_neg_iff n) rfl rfl,
    ← formatMagnitude_roundBits_iff]
  exact String.append_right_inj _

/-! ## Doubles -/

/-- A finite double: a whole number that is one, or any other by the text that
is printed of it. -/
inductive Float64 where
  | whole (x : ℤ) (rounded : roundWhole x = x)
  | other (text : String)
deriving DecidableEq

def Float64.ofInt (n : ℤ) : Float64 := .whole (roundWhole n) (roundWhole_idem n)

/-- `%v`. -/
def Float64.format : Float64 → String
  | .whole x _ => formatWhole x
  | .other text => text

example : (Float64.ofInt 9007199254740993).format = "9.007199254740992e+15" := by decide +kernel

end Lib
