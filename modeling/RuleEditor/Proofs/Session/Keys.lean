import RuleEditor.Proofs.Session.Library
import Mathlib.Algebra.Order.Ring.Nat

/-!
# Data as keys

Data by which something is looked up are compared as numbers where they are numbers. Whole numbers, truth values and
floating-point numbers that are equal are then one key, and this is only so because a floating-point number is kept
in one way.
-/
namespace RuleEditor

/-- A finite number is written with its one significand and exponent. -/
def Binary64.Normal : Binary64 → Prop
  | .finite _ m e => m < Nat.pow 2 53 ∧ -1074 ≤ e ∧ (m < Nat.pow 2 52 → e = -1074)
  | _ => True

namespace Binary64

variable {x y : Binary64} {n : Int}

/-- The whole number that a magnitude is, in units of a power of two. -/
theorem units_eq_of_fraction {m : Nat} {e : Int} (bias : Nat) (ha : -(bias : Int) ≤ e)
    (hw : (fraction m e).1 % (fraction m e).2 = 0) :
    m * 2 ^ (e + bias).toNat = (fraction m e).1 / (fraction m e).2 * 2 ^ bias := by
  unfold fraction at hw ⊢
  by_cases below : e < 0
  · rw [if_pos below] at hw ⊢
    have exact : m = m / Nat.pow 2 (-e).toNat * 2 ^ (-e).toNat :=
      (Nat.div_mul_cancel (Nat.dvd_of_mod_eq_zero hw)).symm
    have exponents : bias = (-e).toNat + (e + bias).toNat := by omega
    calc m * 2 ^ (e + bias).toNat
        = m / Nat.pow 2 (-e).toNat * 2 ^ (-e).toNat * 2 ^ (e + bias).toNat := by rw [← exact]
      _ = m / Nat.pow 2 (-e).toNat * 2 ^ bias := by rw [Nat.mul_assoc, ← Nat.pow_add, ← exponents]
  · rw [if_neg below] at hw ⊢
    have exponents : (e + bias).toNat = e.toNat + bias := by omega
    show m * 2 ^ (e + bias).toNat = m * Nat.pow 2 e.toNat / 1 * 2 ^ bias
    rw [exponents, Nat.pow_add, Nat.div_one, Nat.mul_assoc]
    rfl

/-- The number at the higher exponent has all its bits, and so the other one has not enough for both to be equal. -/
theorem exponent_le_of_units_eq {m m' a b : Nat} (hs : m < 2 ^ 53) (hf : m' < 2 ^ 52 → b = 0)
    (hu : m * 2 ^ a = m' * 2 ^ b) : b ≤ a := by
  by_contra above
  obtain ⟨gap, rfl⟩ : ∃ gap, b = a + (gap + 1) := ⟨b - a - 1, by omega⟩
  have same : m = m' * 2 ^ (gap + 1) := by
    apply Nat.eq_of_mul_eq_mul_right (Nat.two_pow_pos a)
    rw [hu, Nat.mul_assoc, ← Nat.pow_add, Nat.add_comm]
  have wide : 2 ^ 52 ≤ m' := by
    by_contra short
    exact absurd (hf (Nat.lt_of_not_le short)) (by omega)
  have two : 2 ≤ 2 ^ (gap + 1) := Nat.le_self_pow (Nat.succ_ne_zero gap) 2
  have large : 2 ^ 52 * 2 ≤ m' * 2 ^ (gap + 1) := Nat.mul_le_mul wide two
  omega

/-- A magnitude is written in one way. -/
theorem Normal.unique {negative negative' : Bool} {m m' : Nat} {e e' : Int}
    (normal : (finite negative m e).Normal) (normal' : (finite negative' m' e').Normal)
    (hu : m * 2 ^ (e + (1074 : Nat)).toNat = m' * 2 ^ (e' + (1074 : Nat)).toNat) : m = m' ∧ e = e' := by
  obtain ⟨small, above, full⟩ := normal
  obtain ⟨small', above', full'⟩ := normal'
  have low : (e + (1074 : Nat)).toNat ≤ (e' + (1074 : Nat)).toNat := by
    apply exponent_le_of_units_eq small' _ hu.symm
    intro short
    have lowest := full short
    omega
  have high : (e' + (1074 : Nat)).toNat ≤ (e + (1074 : Nat)).toNat := by
    apply exponent_le_of_units_eq small _ hu
    intro short
    have lowest := full' short
    omega
  have exponent : e = e' := by omega
  subst exponent
  exact ⟨Nat.eq_of_mul_eq_mul_right (Nat.two_pow_pos _) hu, rfl⟩

/-- A number is written in one way, but for the sign of zero. -/
theorem same_of_toInt? (normal : x.Normal) (normal' : y.Normal) (hw : x.toInt? = some n)
    (hw' : y.toInt? = some n) : x.same y = true := by
  cases x with
  | finite negative m e =>
      cases y with
      | finite negative' m' e' =>
          simp only [toInt?, Option.ite_none_right_eq_some, Option.some.injEq] at hw hw'
          obtain ⟨divides, value⟩ := hw
          obtain ⟨divides', value'⟩ := hw'
          -- Both are counted in units of the smallest number, so that no exponent is negative.
          have units := units_eq_of_fraction 1074 normal.2.1 divides
          have units' := units_eq_of_fraction 1074 normal'.2.1 divides'
          generalize (fraction m e).1 / (fraction m e).2 = k at units value
          generalize (fraction m' e').1 / (fraction m' e').2 = k' at units' value'
          have magnitude : k = k' := by
            split at value <;> split at value' <;> omega
          subst magnitude
          obtain ⟨rfl, rfl⟩ := normal.unique normal' (units.trans units'.symm)
          by_cases zero : m = 0
          · simp only [same, zero, beq_self_eq_true, Bool.and_self, Bool.true_or]
          · have some : m * 2 ^ (e + (1074 : Nat)).toNat ≠ 0 := Nat.mul_ne_zero zero (Nat.two_pow_pos _).ne'
            rw [units] at some
            have positive : k ≠ 0 := Nat.ne_zero_of_mul_ne_zero_left some
            have sign : negative = negative' := by
              have both := value.trans value'.symm
              cases negative <;> cases negative' <;> simp only [if_true, if_false, Bool.false_eq_true] at both ⊢
              all_goals omega
            simp only [same, sign, beq_self_eq_true, Bool.and_self, Bool.or_true]
      | _ => cases hw'
  | _ => cases hw

/-- A number that is not whole is only equal to itself. -/
theorem same_of_toInt?_none (h : x.toInt? = none) : x.same y = true ↔ x = y ∧ x ≠ .undefined := by
  have nonzero {negative : Bool} {exponent : Int} (h : (finite negative 0 exponent).toInt? = none) : False := by
    cases negative <;> by_cases below : exponent < 0 <;> simp [toInt?, fraction, below] at h
  cases x with
  | finite negative m e =>
      cases y with
      | finite negative' m' e' =>
          have some : m ≠ 0 := by
            rintro rfl
            exact nonzero h
          simp [same, some, and_assoc]
      | _ => simp [same]
  | infinite negative => cases y <;> simp [same]
  | undefined => simp [same]

end Binary64

namespace Value

variable {u v w : Value} {n : Int}

/-- Numbers are in their normal form. -/
def Normal : Value → Prop
  | .float x => x.Normal
  | _ => True

/-- The whole number that a number or a truth value is equal to. -/
def whole? : Value → Option Int
  | .bool b => some (if b then 1 else 0)
  | .int n => some n
  | .float x => x.toInt?
  | _ => none

theorem sameAsNumber_inl : sameAsNumber (.inl n) w = true ↔ w.whole? = some n := by
  have integer (k : Int) : (n == k) = true ↔ some k = some n := by
    rw [beq_iff_eq, Option.some_inj, eq_comm]
  cases w with
  | bool b => exact integer _
  | int m => exact integer m
  | float y => exact beq_iff_eq
  | _ => exact ⟨nofun, nofun⟩

/-- What is equal to a whole number is what stands for this number. -/
theorem same_of_whole (normal : v.Normal) (normal' : w.Normal) (hw : v.whole? = some n) :
    v.same w = true ↔ w.whole? = some n := by
  cases v with
  | null | text | list | record => cases hw
  | bool b => cases hw; exact sameAsNumber_inl
  | int m => cases hw; exact sameAsNumber_inl
  | float x =>
      have hw : x.toInt? = some n := hw
      have integer (k : Int) : (x.toInt? == some k) = true ↔ some k = some n := by
        rw [hw, beq_iff_eq, eq_comm]
      cases w with
      | bool b => exact integer _
      | int m => exact integer m
      | float y =>
          constructor
          · intro alike
            exact (Library.toInt?_same alike).symm.trans hw
          · intro whole'
            exact Binary64.same_of_toInt? normal normal' hw whole'
      | _ => exact ⟨nofun, nofun⟩

/-- A key that is not a whole number is only equal to itself, and an undefined number not even to that. -/
theorem same_of_not_whole (hk : v.isKey = true) (hw : v.whole? = none) :
    v.same w = true ↔ v = w ∧ v ≠ .float .undefined := by
  cases v with
  | bool | int => cases hw
  | list | record => cases hk
  | null | text => cases w <;> simp [same]
  | float x =>
      cases w with
      | float y =>
          rw [float.injEq, ne_eq, float.injEq]
          exact Binary64.same_of_toInt?_none hw
      | bool | int =>
          have hw : x.toInt? = none := hw
          simp [same, sameAsNumber, number?, sameNumber, hw]
      | _ => simp [same, sameAsNumber, number?]

theorem same_symm (hk : v.isKey = true) (normal : v.Normal) (normal' : w.Normal) (ha : v.same w = true) :
    w.same v = true := by
  cases whole : v.whole? with
  | some n =>
      have whole' : w.whole? = some n := (same_of_whole normal normal' whole).mp ha
      exact (same_of_whole normal' normal whole').mpr whole
  | none =>
      obtain ⟨rfl, -⟩ := (same_of_not_whole hk whole).mp ha
      exact ha

theorem same_trans (hk : u.isKey = true) (normal : u.Normal) (normal' : v.Normal) (normal'' : w.Normal)
    (hf : u.same v = true) (hs : v.same w = true) : u.same w = true := by
  cases whole : u.whole? with
  | some n =>
      have whole' : v.whole? = some n := (same_of_whole normal normal' whole).mp hf
      have whole'' : w.whole? = some n := (same_of_whole normal' normal'' whole').mp hs
      exact (same_of_whole normal normal'' whole).mpr whole''
  | none =>
      obtain ⟨rfl, -⟩ := (same_of_not_whole hk whole).mp hf
      exact hs

end Value

end RuleEditor
