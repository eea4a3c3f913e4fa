import BeeAgent.Data.Value
import Mathlib.Algebra.Order.Ring.Rat
import Mathlib.Data.Nat.Cast.Order.Ring

/-! What a number is worth. -/
namespace BeeAgent.Data.Number

def tenTo : ℕ → ℕ
  | 0 => 1
  | n + 1 => tenTo n * 10

def value (x : Number) : ℚ :=
  mkRat ((if x.negative then -1 else 1) * (x.digits * tenTo x.exponent.toNat : ℕ))
    (tenTo (-x.exponent).toNat)

theorem stripZeros_value (fuel n : ℕ) :
    (stripZeros fuel n).1 * tenTo (stripZeros fuel n).2 = n := by
  induction fuel generalizing n with
  | zero => simp [stripZeros, tenTo]
  | succ fuel ih =>
    unfold stripZeros
    split
    · next hzero =>
      rw [tenTo, ← Nat.mul_assoc, ih]
      omega
    · simp [tenTo]

theorem value_ofNat (n : ℕ) : value (.ofNat n) = n := by
  have hstrip := stripZeros_value n n
  simp only [value, ofNat, Int.toNat_natCast, Bool.false_eq_true, if_false,
    one_mul, hstrip]
  have hexponent : (-((stripZeros n n).2 : ℤ)).toNat = 0 := by omega
  rw [hexponent, tenTo, Rat.mkRat_one]
  rfl

end BeeAgent.Data.Number
