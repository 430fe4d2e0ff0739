import Mathlib.Data.List.Basic
import Mathlib.Data.List.GetD
import Mathlib.Tactic.Common

namespace TornWrite

variable {α : Type*}

/-- The cells after a write at `p`. A hole in front of `p` is filled with `zero`; a write of nothing
changes nothing. -/
def overwrite (zero : α) (xs : List α) (p : Nat) (ys : List α) : List α :=
  if ys.isEmpty then xs
  else xs.take p ++ List.replicate (p - xs.length) zero ++ ys ++ xs.drop (p + ys.length)

@[simp] theorem overwrite_nil (zero : α) (xs : List α) (p : Nat) : overwrite zero xs p [] = xs := rfl

theorem overwrite_of_le (zero : α) {xs : List α} {p : Nat} (ys : List α) (h : p ≤ xs.length) :
    overwrite zero xs p ys = xs.take p ++ (ys ++ xs.drop (p + ys.length)) := by
  cases ys with
  | nil => simp
  | cons y ys =>
    have hole : p - xs.length = 0 := by omega
    simp [overwrite, hole]

theorem length_overwrite (zero : α) {xs : List α} {p : Nat} (ys : List α) (h : p ≤ xs.length) :
    (overwrite zero xs p ys).length = max xs.length (p + ys.length) := by
  rw [overwrite_of_le zero ys h]
  simp only [List.length_append, List.length_take, List.length_drop]
  omega

theorem overwrite_length_le (zero : α) (xs : List α) (p : Nat) (ys : List α) :
    (overwrite zero xs p ys).length ≤ max xs.length (p + ys.length) := by
  unfold overwrite
  split
  · omega
  · simp only [List.length_append, List.length_take, List.length_replicate, List.length_drop]
    omega

theorem overwrite_zero (zero : α) (xs ys : List α) :
    overwrite zero xs 0 ys = ys ++ xs.drop ys.length := by
  rw [overwrite_of_le zero ys (Nat.zero_le _)]
  simp

theorem take_overwrite (zero : α) {xs : List α} {p : Nat} (ys : List α) (h : p ≤ xs.length) :
    (overwrite zero xs p ys).take p = xs.take p := by
  rw [overwrite_of_le zero ys h, List.take_left']
  simp [h]

theorem drop_overwrite (zero : α) {xs : List α} {p : Nat} (ys : List α) (h : p ≤ xs.length) :
    (overwrite zero xs p ys).drop p = ys ++ xs.drop (p + ys.length) := by
  rw [overwrite_of_le zero ys h, List.drop_left']
  simp [h]

/-- In front of a write the cells stay what they are, and a hole reads as `zero`. -/
theorem getD_overwrite (zero : α) {xs : List α} {p i : Nat} (ys : List α) (h : i < p) :
    (overwrite zero xs p ys).getD i zero = xs.getD i zero := by
  unfold overwrite
  split
  · rfl
  · have hfront : i < (xs.take p ++ List.replicate (p - xs.length) zero).length := by
      rw [List.length_append, List.length_take, List.length_replicate]
      omega
    rw [List.append_assoc, List.getD_append _ _ _ _ hfront]
    rcases Nat.lt_or_ge i xs.length with hin | hout
    · have htake : i < (xs.take p).length := by
        rw [List.length_take]
        omega
      rw [List.getD_append _ _ _ _ htake]
      simp [List.getD_eq_getElem?_getD, h]
    · have htake : (xs.take p).length ≤ i := by
        rw [List.length_take]
        omega
      rw [List.getD_append_right _ _ _ _ htake]
      simp only [List.getD_eq_getElem?_getD, List.getElem?_replicate, List.getElem?_eq_none hout]
      split <;> rfl

/-- Two writes, the second where the first stopped, are one write. -/
theorem overwrite_overwrite (zero : α) {xs : List α} {p : Nat} (ys zs : List α) (h : p ≤ xs.length) :
    overwrite zero (overwrite zero xs p ys) (p + ys.length) zs = overwrite zero xs p (ys ++ zs) := by
  have hlen := length_overwrite zero ys h
  rw [overwrite_of_le zero zs (by omega), overwrite_of_le zero (ys ++ zs) h]
  have htake : (overwrite zero xs p ys).take (p + ys.length) = xs.take p ++ ys := by
    rw [List.take_add, take_overwrite zero ys h, drop_overwrite zero ys h, List.take_left]
  have hdrop : (overwrite zero xs p ys).drop (p + ys.length + zs.length) =
      xs.drop (p + (ys ++ zs).length) := by
    rw [Nat.add_assoc, ← List.drop_drop, drop_overwrite zero ys h, ← List.drop_drop,
      List.drop_left, List.drop_drop, List.length_append]
    congr 1
    omega
  rw [htake, hdrop]
  simp

/-- Writes one behind the other from `p` on. -/
def writeAll (zero : α) (xs : List α) (p : Nat) : List (List α) → List α
  | [] => xs
  | ys :: yss => writeAll zero (overwrite zero xs p ys) (p + ys.length) yss

theorem writeAll_eq (zero : α) {xs : List α} {p : Nat} (yss : List (List α)) (h : p ≤ xs.length) :
    writeAll zero xs p yss = overwrite zero xs p yss.flatten := by
  induction yss generalizing xs p with
  | nil => rfl
  | cons ys yss ih =>
    have hlen := length_overwrite zero ys h
    rw [writeAll, ih (by omega), overwrite_overwrite zero ys _ h]
    rfl

/-- What a crash leaves: the writes before it whole, and of the last one the first `k` cells. -/
def crash (zero : α) (xs : List α) (p : Nat) (yss : List (List α)) (torn : List α) (k : Nat) :
    List α :=
  overwrite zero (writeAll zero xs p yss) (p + yss.flatten.length) (torn.take k)

theorem drop_crash (zero : α) {xs : List α} {p : Nat} (yss : List (List α)) (torn : List α) (k : Nat)
    (h : p ≤ xs.length) :
    (crash zero xs p yss torn k).drop p =
      yss.flatten ++ (torn.take k ++ xs.drop (p + (yss.flatten.length + (torn.take k).length))) := by
  rw [crash, writeAll_eq zero yss h, overwrite_overwrite zero _ _ h, drop_overwrite zero _ h,
    List.append_assoc, List.length_append]

theorem take_crash (zero : α) {xs : List α} {p : Nat} (yss : List (List α)) (torn : List α) (k : Nat)
    (h : p ≤ xs.length) : (crash zero xs p yss torn k).take p = xs.take p := by
  rw [crash, writeAll_eq zero yss h, overwrite_overwrite zero _ _ h, take_overwrite zero _ h]

end TornWrite
