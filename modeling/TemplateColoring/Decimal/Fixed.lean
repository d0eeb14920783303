/-!
# Numbers with fixed decimal places

A float is a fraction whose denominator is a power of two.  Written with a fixed number of decimal
places it is rounded to the nearest decimal, and to the even one of two that are equally near.
-/

set_option autoImplicit false

namespace TemplateColoring.Decimal

/-- A quotient rounded to the nearest number, a tie to the even one. -/
def roundDiv (num den : Nat) : Nat :=
  let q := num / den
  let twice := 2 * (num % den)
  if twice < den then q
  else if den < twice then q + 1
  else q + q % 2

/-- A power of ten. -/
def tenTo : Nat → Nat
  | 0 => 1
  | n + 1 => 10 * tenTo n

/-- The digits of a number of units in the last of `places` decimal places. -/
def ofUnits (places units : Nat) : String :=
  let whole := toString (units / tenTo places)
  if places = 0 then whole
  else
    let fraction := toString (units % tenTo places)
    whole ++ "." ++ String.ofList (List.replicate (places - fraction.length) '0') ++ fraction

/-- The numerator and the denominator of a finite float without its sign, from its bits. -/
def fraction (bits : Nat) : Nat × Nat :=
  let field := bits >>> 52 % 0x800
  let mantissa := bits % 0x10000000000000
  let (mantissa, exponent) :=
    if field = 0 then (mantissa, 1) else (mantissa + 0x10000000000000, field)
  if 1075 ≤ exponent then (mantissa <<< (exponent - 1075), 1)
  else (mantissa, 1 <<< (1075 - exponent))

/-- A float with a fixed number of decimal places. -/
def fixed (places : Nat) (x : Float) : String :=
  let bits := x.toBits.toNat
  let sign := if 0x8000000000000000 ≤ bits then "-" else ""
  if x.isNaN then "NaN"
  else if x.isInf then sign ++ "inf"
  else
    let (num, den) := fraction bits
    sign ++ ofUnits places (roundDiv (num * tenTo places) den)

/-- Rounding stays within half a unit of the quotient. -/
theorem roundDiv_bounds {num den : Nat} (h : 0 < den) :
    2 * num ≤ (2 * roundDiv num den + 1) * den ∧ 2 * roundDiv num den * den ≤ 2 * num + den := by
  have hm := Nat.div_add_mod num den
  have hlt := Nat.mod_lt num h
  have hq : den * (num / den) = num / den * den := Nat.mul_comm _ _
  unfold roundDiv
  simp only []
  split
  · constructor <;> simp only [Nat.add_mul, Nat.mul_assoc] <;> omega
  · split
    · constructor <;> simp only [Nat.add_mul, Nat.mul_add, Nat.mul_assoc] <;> omega
    · rcases Nat.mod_two_eq_zero_or_one (num / den) with e | e <;> rw [e] <;> constructor <;>
        simp only [Nat.add_mul, Nat.mul_add, Nat.mul_assoc] <;> omega

end TemplateColoring.Decimal
