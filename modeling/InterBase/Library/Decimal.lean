import Mathlib.Data.Nat.Digits.Defs
import Mathlib.Data.Nat.Digits.Lemmas
import Mathlib.Tactic.Ring

namespace Decimal

def value (ds : List Nat) : Nat := Nat.ofDigits 10 ds.reverse

@[simp] theorem value_nil : value [] = 0 := rfl

theorem value_append (as bs : List Nat) :
    value (as ++ bs) = value as * 10 ^ bs.length + value bs := by
  unfold value
  rw [List.reverse_append, Nat.ofDigits_append, List.length_reverse]
  ring

theorem value_singleton (d : Nat) : value [d] = d := by simp [value]

theorem value_cons (d : Nat) (ds : List Nat) : value (d :: ds) = d * 10 ^ ds.length + value ds := by
  rw [← List.singleton_append, value_append, value_singleton]

theorem value_concat (ds : List Nat) (d : Nat) : value (ds ++ [d]) = 10 * value ds + d := by
  rw [value_append, value_singleton, List.length_singleton]
  ring

theorem value_lt {ds : List Nat} (digits : ∀ d ∈ ds, d < 10) : value ds < 10 ^ ds.length := by
  unfold value
  rw [← List.length_reverse]
  exact Nat.ofDigits_lt_base_pow_length (by norm_num) fun d hd => digits d (List.mem_reverse.mp hd)

theorem value_replicate_zero (k : Nat) (ds : List Nat) :
    value (List.replicate k 0 ++ ds) = value ds := by
  induction k with
  | zero => rfl
  | succ k ih =>
    rw [List.replicate_succ, List.cons_append, value_cons, Nat.zero_mul, Nat.zero_add, ih]

end Decimal
