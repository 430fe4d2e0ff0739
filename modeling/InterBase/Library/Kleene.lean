inductive Kleene where
  | false
  | unknown
  | true
deriving Repr, DecidableEq

namespace Kleene

def ofBool : Bool → Kleene
  | .true => .true
  | .false => .false

def not : Kleene → Kleene
  | .true => .false
  | .unknown => .unknown
  | .false => .true

def and : Kleene → Kleene → Kleene
  | .false, _ => .false
  | _, .false => .false
  | .true, .true => .true
  | .true, .unknown => .unknown
  | .unknown, .true => .unknown
  | .unknown, .unknown => .unknown

def or (a b : Kleene) : Kleene := (a.not.and b.not).not

@[simp] theorem and_unknown_left (a : Kleene) (h : a ≠ .false) : Kleene.unknown.and a = .unknown := by
  cases a with
  | false => exact absurd rfl h
  | unknown => rfl
  | true => rfl

@[simp] theorem true_and (a : Kleene) : Kleene.true.and a = a := by cases a <;> rfl

@[simp] theorem ofBool_eq_true (b : Bool) : ofBool b = .true ↔ b = Bool.true := by
  cases b <;> simp [ofBool]

theorem decide_ofBool (b : Bool) : decide (ofBool b = .true) = b := by cases b <;> rfl

@[simp] theorem ofBool_eq_false (b : Bool) : ofBool b = .false ↔ b = Bool.false := by
  cases b <;> simp [ofBool]

@[simp] theorem ofBool_ne_unknown (b : Bool) : ofBool b ≠ .unknown := by
  cases b <;> simp [ofBool]

@[simp] theorem or_eq_true (a b : Kleene) : a.or b = .true ↔ a = .true ∨ b = .true := by
  cases a <;> cases b <;> decide

@[simp] theorem or_eq_false (a b : Kleene) : a.or b = .false ↔ a = .false ∧ b = .false := by
  cases a <;> cases b <;> decide

@[simp] theorem and_eq_true (a b : Kleene) : a.and b = .true ↔ a = .true ∧ b = .true := by
  cases a <;> cases b <;> decide

@[simp] theorem and_eq_false (a b : Kleene) : a.and b = .false ↔ a = .false ∨ b = .false := by
  cases a <;> cases b <;> decide

@[simp] theorem not_eq_true (a : Kleene) : a.not = .true ↔ a = .false := by
  cases a <;> decide

/-- The disjunction of all. -/
def anyOf (truths : List Kleene) : Kleene := truths.foldr or .false

/-- The conjunction of all. -/
def allOf (truths : List Kleene) : Kleene := truths.foldr and .true

theorem anyOf_eq_true {truths : List Kleene} : anyOf truths = .true ↔ .true ∈ truths := by
  induction truths with
  | nil => simp [anyOf]
  | cons a truths ih =>
    rw [anyOf, List.foldr_cons, or_eq_true, List.mem_cons, eq_comm (a := a)]
    exact or_congr_right ih

theorem anyOf_eq_false {truths : List Kleene} :
    anyOf truths = .false ↔ ∀ truth ∈ truths, truth = .false := by
  induction truths with
  | nil => simp [anyOf]
  | cons a truths ih =>
    rw [anyOf, List.foldr_cons, or_eq_false, List.forall_mem_cons]
    exact and_congr_right fun _ => ih

theorem allOf_eq_true {truths : List Kleene} :
    allOf truths = .true ↔ ∀ truth ∈ truths, truth = .true := by
  induction truths with
  | nil => simp [allOf]
  | cons a truths ih =>
    rw [allOf, List.foldr_cons, and_eq_true, List.forall_mem_cons]
    exact and_congr_right fun _ => ih

theorem allOf_eq_false {truths : List Kleene} : allOf truths = .false ↔ .false ∈ truths := by
  induction truths with
  | nil => simp [allOf]
  | cons a truths ih =>
    rw [allOf, List.foldr_cons, and_eq_false, List.mem_cons, eq_comm (a := a)]
    exact or_congr_right ih

end Kleene
