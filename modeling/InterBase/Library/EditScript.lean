import InterBase.Library.Memory

namespace EditScript

open Memory

variable {α : Type*}

inductive Edit (α : Type*) where
  | replace (xs : List α)
  | keep (n : Nat)
deriving Repr, DecidableEq

def Edit.span : Edit α → Nat
  | replace xs => xs.length
  | keep n => n

def patch : List (Edit α) → Nat → (Nat → α) → Nat → α
  | [], _, m => m
  | .replace xs :: es, p, m => patch es (p + xs.length) (write m p xs)
  | .keep n :: es, p, m => patch es (p + n) m

/-- The script leads from `old` to `new` between the positions `a` and `b`. -/
inductive Covers (old new : Nat → α) : Nat → List (Edit α) → Nat → Prop where
  | done {a : Nat} : Covers old new a [] a
  | replace {a b : Nat} {xs : List α} {es : List (Edit α)} (same : Holds new a xs)
      (rest : Covers old new (a + xs.length) es b) : Covers old new a (.replace xs :: es) b
  | keep {a b n : Nat} {es : List (Edit α)} (same : ∀ i, a ≤ i → i < a + n → old i = new i)
      (rest : Covers old new (a + n) es b) : Covers old new a (.keep n :: es) b

variable {old new : Nat → α}

theorem Covers.le {a b : Nat} {es : List (Edit α)} (h : Covers old new a es b) : a ≤ b := by
  induction h with
  | done => omega
  | replace _ _ ih => omega
  | keep _ _ ih => omega

theorem Covers.append {a b c : Nat} {es fs : List (Edit α)} (h : Covers old new a es b)
    (h' : Covers old new b fs c) : Covers old new a (es ++ fs) c := by
  induction h with
  | done => exact h'
  | replace same _ ih => exact .replace same (ih h')
  | keep same _ ih => exact .keep same (ih h')

theorem Covers.concat_replace {a b : Nat} {es : List (Edit α)} {xs : List α}
    (h : Covers old new a es b) (same : Holds new b xs) :
    Covers old new a (es ++ [.replace xs]) (b + xs.length) :=
  h.append (.replace same .done)

theorem Covers.concat_keep {a b n : Nat} {es : List (Edit α)} (h : Covers old new a es b)
    (same : ∀ i, b ≤ i → i < b + n → old i = new i) :
    Covers old new a (es ++ [.keep n]) (b + n) :=
  h.append (.keep same .done)

theorem patch_below {p : Nat} (es : List (Edit α)) (m : Nat → α) {i : Nat} (h : i < p) :
    patch es p m i = m i := by
  induction es generalizing p m with
  | nil => rfl
  | cons e es ih =>
    cases e with
    | replace xs => rw [patch, ih _ (by omega), write_below m xs h]
    | keep n => exact ih m (by omega)

/-- Patching any store that still has the old cells produces the new ones. -/
theorem Covers.patch {a b : Nat} {es : List (Edit α)} (h : Covers old new a es b) (m : Nat → α)
    (same : ∀ i, a ≤ i → m i = old i) {i : Nat} (ha : a ≤ i) (hb : i < b) :
    patch es a m i = new i := by
  induction h generalizing m with
  | done => omega
  | @replace a b xs es held rest ih =>
    by_cases hi : i < a + xs.length
    · have hin := write_inside m (a := a) xs (i := i - a) (by omega)
      have hx := held.apply (i := i - a) (by omega)
      rw [Nat.add_sub_cancel' ha] at hin hx
      rw [EditScript.patch, patch_below es _ hi]
      exact Option.some.inj (hin.trans hx)
    · refine ih _ (fun j hj => ?_) (by omega) hb
      rw [write_above m xs hj, same j (by omega)]
  | @keep a b n es held rest ih =>
    by_cases hi : i < a + n
    · rw [EditScript.patch, patch_below es m hi, same i ha, held i ha hi]
    · exact ih m (fun j hj => same j (by omega)) (by omega) hb

end EditScript
