import InterBase.Library.KeyOrder

namespace FrontCoding

open KeyOrder

variable {α : Type*} [DecidableEq α]

/-- The cells of the keys that are left out, when `prev` is the key before the first. -/
def prefixes : List α → List (List α) → Nat
  | _, [] => 0
  | prev, k :: ks => common prev k + prefixes k ks

/-- The cells of the keys that are kept. -/
def kept : List α → List (List α) → Nat
  | _, [] => 0
  | prev, k :: ks => (k.length - common prev k) + kept k ks

/-- The key that a key appended to the sequence would be compared with. -/
def lastKey (prev : List α) (ks : List (List α)) : List α := ks.getLastD prev

omit [DecidableEq α] in
@[simp] theorem lastKey_nil (prev : List α) : lastKey prev [] = prev := rfl

omit [DecidableEq α] in
@[simp] theorem lastKey_cons (prev k : List α) (ks : List (List α)) :
    lastKey prev (k :: ks) = lastKey k ks := by
  cases ks <;> rfl

omit [DecidableEq α] in
@[simp] theorem lastKey_concat (prev k : List α) (ks : List (List α)) :
    lastKey prev (ks ++ [k]) = k := by
  simp [lastKey]

omit [DecidableEq α] in
theorem lastKey_eq_or_mem (prev : List α) (ks : List (List α)) :
    lastKey prev ks = prev ∨ lastKey prev ks ∈ ks := by
  rcases List.eq_nil_or_concat' ks with rfl | ⟨front, k, rfl⟩
  · exact Or.inl rfl
  · exact Or.inr (by simp)

end FrontCoding
