import PugWeave.Text.Basic

namespace PugWeave.Toml

structure Decimal where
  mantissa : Nat
  exponent : Int

namespace Decimal

/-- The least number that rounds to infinity: it is as far from the greatest float as from the
power of two after it. -/
def bound : Nat := Nat.pow 2 1024 - Nat.pow 2 970

/-- Whether a number rounds to a float that is not infinite. A number of `n` digits is below ten to
the power of `n` and at least a tenth of it, and the bound has 309 digits. -/
def isFinite (d : Decimal) : Bool :=
  let magnitude := (Nat.toDigits 10 d.mantissa).length + d.exponent
  if d.mantissa = 0 || magnitude < 309 then true
  else if 309 < magnitude then false
  else d.mantissa * Nat.pow 10 d.exponent.toNat < bound * Nat.pow 10 (-d.exponent).toNat

end Decimal

end PugWeave.Toml
