import Mathlib.Algebra.Order.Ring.Int
import Mathlib.Data.Nat.Digits.Defs
import Mathlib.Tactic.Common
import Mathlib.Tactic.Linarith
import Mathlib.Tactic.Ring

namespace Radix

/-- The `n` low digits to the base `b`, lowest first. -/
def digits (b : ℕ) : ℕ → ℤ → List ℕ
  | 0, _ => []
  | n + 1, v => (v % b).toNat :: digits b n (v / b)

/-- The `n + 1` low digits, each but the last raised by `b` to say that more follow. -/
def flagged (b : ℕ) : ℕ → ℤ → List ℕ
  | 0, v => [(v % b).toNat]
  | n + 1, v => ((v % b).toNat + b) :: flagged b n (v / b)

variable {b : ℕ}

@[simp] theorem length_digits (n : ℕ) (v : ℤ) : (digits b n v).length = n := by
  induction n generalizing v with
  | zero => rfl
  | succ n ih => rw [digits, List.length_cons, ih]

@[simp] theorem length_flagged (n : ℕ) (v : ℤ) : (flagged b n v).length = n + 1 := by
  induction n generalizing v with
  | zero => rfl
  | succ n ih => rw [flagged, List.length_cons, ih]

theorem toNat_emod_lt (hb : 0 < b) (v : ℤ) : (v % b).toNat < b := by
  have hpos : (0 : ℤ) < b := by exact_mod_cast hb
  have hlt := Int.emod_lt_of_pos v hpos
  omega

theorem coe_toNat_emod (hb : 0 < b) (v : ℤ) : ((v % b).toNat : ℤ) = v % b :=
  Int.toNat_of_nonneg (Int.emod_nonneg v (by exact_mod_cast hb.ne'))

theorem lt_of_mem_digits (hb : 0 < b) {n : ℕ} {v : ℤ} {d : ℕ} (h : d ∈ digits b n v) : d < b := by
  induction n generalizing v with
  | zero => cases h
  | succ n ih =>
    rcases List.mem_cons.mp h with rfl | h
    · exact toNat_emod_lt hb v
    · exact ih h

/-- The remainder by a product, digit by digit. -/
theorem emod_mul (hb : 0 < b) {m : ℕ} (hm : 0 < m) (v : ℤ) :
    v % ((b * m : ℕ) : ℤ) = v % b + b * (v / b % m) := by
  have hb' : (0 : ℤ) < b := by exact_mod_cast hb
  have hm' : (0 : ℤ) < m := by exact_mod_cast hm
  have hlow := Int.emod_nonneg v hb'.ne'
  have hlow' := Int.emod_lt_of_pos v hb'
  have hhigh := Int.emod_nonneg (v / b) hm'.ne'
  have hhigh' := Int.emod_lt_of_pos (v / b) hm'
  refine ((Int.ediv_emod_unique (q := v / b / m) (by exact_mod_cast Nat.mul_pos hb hm)).mpr
    ⟨?_, ?_, ?_⟩).2
  · have hv := Int.emod_add_mul_ediv v b
    have hq := Int.emod_add_mul_ediv (v / b) m
    push_cast
    calc v % b + b * (v / b % m) + b * m * (v / b / m)
        = v % b + b * (v / b % m + m * (v / b / m)) := by ring
      _ = v := by rw [hq, hv]
  · positivity
  · push_cast
    nlinarith

theorem ofDigits_digits (hb : 0 < b) (n : ℕ) (v : ℤ) :
    ((Nat.ofDigits b (digits b n v) : ℕ) : ℤ) = v % (b ^ n : ℕ) := by
  induction n generalizing v with
  | zero => simp [digits]
  | succ n ih =>
    rw [digits, Nat.ofDigits_cons, Nat.pow_succ', emod_mul hb (Nat.pow_pos hb)]
    rw [Nat.cast_add, Nat.cast_mul, coe_toNat_emod hb, ih]

/-- An unsigned reading gives back what fits. -/
theorem ofDigits_digits_of_lt (hb : 0 < b) {n : ℕ} {v : ℤ} (h : 0 ≤ v) (h' : v < (b ^ n : ℕ)) :
    ((Nat.ofDigits b (digits b n v) : ℕ) : ℤ) = v := by
  rw [ofDigits_digits hb, Int.emod_eq_of_lt h h']

/-- A signed reading gives back what fits. -/
theorem bmod_ofDigits_digits (hb : 0 < b) {n : ℕ} {v : ℤ} (h : -((b ^ n : ℕ) / 2 : ℤ) ≤ v)
    (h' : v < ((b ^ n : ℕ) + 1) / 2) : ((Nat.ofDigits b (digits b n v) : ℕ) : ℤ).bmod (b ^ n) = v := by
  rw [ofDigits_digits hb, Int.emod_bmod, Int.bmod_eq_of_le h h']

end Radix
