import InterBase.EvlGroup
import Mathlib.Algebra.Order.Ring.Int

namespace InterBase

variable {R V D : Type}

/-- The integer can be had in `w` bits. -/
def FitsIn (w : Nat) (n : Int) : Prop := -2 ^ (w - 1) ≤ n ∧ n < 2 ^ (w - 1)

instance (w : Nat) (n : Int) : Decidable (FitsIn w n) := inferInstanceAs (Decidable (_ ∧ _))

def sumOf {w : Nat} (values : List (BitVec w)) : Int := values.foldr (fun v sum => v.toInt + sum) 0

/-- The sum does not fit, at its end or on the way. -/
def SumOverflows {w : Nat} (values : List (BitVec w)) : Prop :=
  ∃ some, some <+: values ∧ ¬ FitsIn w (sumOf some)

def doubleSum (arith : GroupArith V D) (values : List D) : D :=
  values.foldl (fun sum d => arith.addDouble d sum) (arith.ofInt 0)

def bestOf (arith : GroupArith V D) (replaces : Int → Bool) : List V → AggValue V D
  | [] => .null
  | v :: values =>
    .other (values.foldl (fun m v => if replaces (arith.movCompare v m) then v else m) v)

/-- Null for the empty set. -/
def nullIfEmpty {α : Type} (values : List α) (value : AggValue V D) : AggValue V D :=
  if values = [] then .null else value

def meanOf (arith : GroupArith V D) (values : List D) (count : Int) : AggValue V D :=
  nullIfEmpty values (.double (arith.divDouble (doubleSum arith values) (arith.ofInt count)))

namespace AggNod

def sqlTotal {w : Nat} (arith : GroupArith V D) (run : List R) : NumArg R D w → AggValue V D
  | .exact arg => nullIfEmpty (run.filterMap arg) (.number (sumOf (run.filterMap arg)))
  | .double arg => nullIfEmpty (run.filterMap arg) (.double (doubleSum arith (run.filterMap arg)))

/-- The average of dialect 3 has the scale of its argument. -/
def sqlAverage (arith : GroupArith V D) (run : List R) : NumArg R D 64 → AggValue V D
  | .exact arg => nullIfEmpty (run.filterMap arg)
      (.number ((sumOf (run.filterMap arg)).tdiv (run.filterMap arg).length))
  | .double arg => meanOf arith (run.filterMap arg) (run.filterMap arg).length

/-- The value of the field for a run of records; `before` is what is in the field. -/
def sql (arith : GroupArith V D) (node : AggNod R V D) (before : AggValue V D) (run : List R) :
    AggValue V D :=
  match node with
  | .min _ arg => bestOf arith (fun result => result < 0) (run.filterMap arg)
  | .max _ arg => bestOf arith (fun result => result > 0) (run.filterMap arg)
  | .total arg => sqlTotal arith run arg
  | .total2 arg => sqlTotal arith run arg
  | .average arg => meanOf arith (run.filterMap arg) (run.filterMap arg).length
  | .average2 arg => sqlAverage arith run arg
  | .count => .number run.length
  | .count2 arg => .number (run.filterMap arg).length
  | .literal value => .ofOption value
  | .other expr => run.getLast?.elim before fun record => .ofOption (expr record)

def sumOverflow {w : Nat} (run : List R) : NumArg R D w → Prop
  | .exact arg => SumOverflows (run.filterMap arg)
  | .double _ => False

/-- The sum of the node does not fit its type. -/
def Overflow (node : AggNod R V D) (run : List R) : Prop :=
  match node with
  | .total arg => sumOverflow run arg
  | .total2 arg => sumOverflow run arg
  | .average2 arg => sumOverflow run arg
  | _ => False

/-- The sum does not fit, in dialect 3. -/
def Overflow2 (node : AggNod R V D) (run : List R) : Prop :=
  match node with
  | .total2 arg => sumOverflow run arg
  | .average2 arg => sumOverflow run arg
  | _ => False

theorem Overflow2.overflow {node : AggNod R V D} {run : List R} (h : node.Overflow2 run) :
    node.Overflow run := by
  cases node with
  | total2 arg => exact h
  | average2 arg => exact h
  | _ => exact h.elim

/-- What a count is in a long. -/
def longOf (n : Nat) : Int := (n : Int).bmod (2 ^ 32)

/-- The count is not taken for that of an empty set. -/
def CountKept (n : Nat) : Prop := n = 0 ∨ ¬ 2 ^ 32 ∣ n

def keepsTotal (run : List R) : NumArg R D 32 → Prop
  | .exact arg => CountKept (run.filterMap arg).length ∧ FitsIn 32 (sumOf (run.filterMap arg))
  | .double arg => CountKept (run.filterMap arg).length

def keepsTotal2 (run : List R) : NumArg R D 64 → Prop
  | .exact arg => CountKept (run.filterMap arg).length
  | .double arg => CountKept (run.filterMap arg).length

def keepsMean (arith : GroupArith V D) (values : List D) : Prop :=
  values = [] ∨ ¬ 2 ^ 32 ∣ values.length ∧
    arith.divDouble (doubleSum arith values) (arith.ofInt (longOf values.length)) =
      arith.divDouble (doubleSum arith values) (arith.ofInt values.length)

def keepsAverage2 (arith : GroupArith V D) (run : List R) : NumArg R D 64 → Prop
  | .exact arg => run.filterMap arg = [] ∨ ¬ 2 ^ 32 ∣ (run.filterMap arg).length ∧
      (sumOf (run.filterMap arg)).tdiv (longOf (run.filterMap arg).length) =
        (sumOf (run.filterMap arg)).tdiv (run.filterMap arg).length
  | .double arg => keepsMean arith (run.filterMap arg)

/-- The longs of the node do for the run: the count, and the sum in dialect 1. -/
def Keeps (arith : GroupArith V D) (node : AggNod R V D) (run : List R) : Prop :=
  match node with
  | .min indexed arg => indexed = true ∨ CountKept (run.filterMap arg).length
  | .max indexed arg => indexed = true ∨ CountKept (run.filterMap arg).length
  | .total arg => keepsTotal run arg
  | .total2 arg => keepsTotal2 run arg
  | .average arg => keepsMean arith (run.filterMap arg)
  | .average2 arg => keepsAverage2 arith run arg
  | .count => run.length < 2 ^ 31
  | .count2 arg => (run.filterMap arg).length < 2 ^ 31
  | .literal _ => True
  | .other _ => True

/-- The aggregate on a run of records. -/
def putRun (arith : GroupArith V D) (node : AggNod R V D) :
    List R → GroupCell V D → Option (GroupCell V D)
  | [], cell => some cell
  | record :: run, cell => (node.put arith record cell).bind (putRun arith node run)

/-- The values that are not null, one after the other. -/
def stepRun {α : Type} (step : α → VluDesc V D → Option (VluDesc V D)) :
    List α → VluDesc V D → Option (VluDesc V D)
  | [], desc => some desc
  | v :: values, desc => (step v desc).bind (stepRun step values)

example : stepRun (V := Nat) (D := Nat) (fun v _ => some (.other v)) [1, 2] .none =
    some (.other 2) := by
  rw [stepRun]
  rfl

theorem putRun_counted {α : Type} {arith : GroupArith V D} {node : AggNod R V D}
    {step : α → VluDesc V D → Option (VluDesc V D)} {arg : R → Option α}
    (put : ∀ record cell, node.put arith record cell = counted step (arg record) cell)
    (run : List R) (cell : GroupCell V D) :
    node.putRun arith run cell = (stepRun step (run.filterMap arg) cell.vluDesc).map fun desc =>
      { cell with
        vluxCount := cell.vluxCount + BitVec.ofNat 32 (run.filterMap arg).length, vluDesc := desc } := by
  induction run generalizing cell with
  | nil =>
    unfold putRun
    simp [stepRun]
  | cons record run ih =>
    unfold putRun
    rw [put, List.filterMap_cons]
    cases hvalue : arg record with
    | none =>
      unfold counted
      exact ih cell
    | some v =>
      unfold counted
      dsimp only
      rw [stepRun]
      cases step v cell.vluDesc with
      | none => rfl
      | some desc =>
        rw [Option.map_some, Option.bind_some, Option.bind_some, ih]
        dsimp only
        rw [List.length_cons, Nat.add_comm, BitVec.ofNat_add, ← BitVec.add_assoc]
        rfl

theorem stepRun_better_other (arith : GroupArith V D) (replaces : Int → Bool) (values : List V) (m : V) :
    stepRun (D := D) (better arith replaces) values (.other m) = some (.other
      (values.foldl (fun m v => if replaces (arith.movCompare v m) then v else m) m)) := by
  induction values generalizing m with
  | nil => rfl
  | cons v values ih =>
    rw [stepRun, better, Option.bind_some, ih]
    rfl

theorem stepRun_better (arith : GroupArith V D) (replaces : Int → Bool) (values : List V) :
    ∃ desc : VluDesc V D, stepRun (better arith replaces) values .none = some desc ∧
      desc.field = bestOf arith replaces values := by
  cases values with
  | nil => exact ⟨.none, rfl, rfl⟩
  | cons v values =>
    refine ⟨.other _, ?_, rfl⟩
    rw [stepRun, better, Option.bind_some, stepRun_better_other]
    intro m h
    cases h

theorem stepRun_addDouble (arith : GroupArith V D) (values : List D) (desc : VluDesc V D) :
    stepRun (fun d1 value => some (addDouble arith d1 value)) values desc =
      some (if values = [] then desc else
        .double (values.foldl (fun sum d => arith.addDouble d sum) (movGetDouble arith desc))) := by
  induction values generalizing desc with
  | nil => rfl
  | cons d values ih =>
    rw [stepRun, Option.bind_some, ih, if_neg (List.cons_ne_nil d values), List.foldl_cons]
    cases values with
    | nil => rfl
    | cons d' values => rfl

theorem sumOf_cons {w : Nat} (v : BitVec w) (values : List (BitVec w)) :
    sumOf (v :: values) = v.toInt + sumOf values := rfl

theorem stepRun_add (values : List (BitVec 32)) (long : BitVec 32) :
    stepRun (V := V) (D := D) (fun l1 value => some (add l1 value)) values (.long long) =
      some (.long (BitVec.ofInt 32 (long.toInt + sumOf values))) := by
  induction values generalizing long with
  | nil =>
    rw [stepRun, sumOf, List.foldr_nil, Int.add_zero, BitVec.ofInt_toInt]
  | cons v values ih =>
    rw [stepRun, Option.bind_some, add, movGetLong, ih, sumOf_cons]
    have htoInt : BitVec.ofInt 32 ((v + long).toInt + sumOf values) =
        BitVec.ofInt 32 (long.toInt + (v.toInt + sumOf values)) := by
      rw [BitVec.ofInt_add, BitVec.ofInt_toInt, ← Int.add_assoc, BitVec.ofInt_add, BitVec.ofInt_add,
        BitVec.ofInt_toInt, BitVec.ofInt_toInt, BitVec.add_comm v long]
    rw [htoInt]

theorem add2_eq (i1 i2 : BitVec 64) :
    add2 (V := V) (D := D) i1 (.int64 i2) =
      if FitsIn 64 (i2.toInt + i1.toInt) then some (.int64 (i1 + i2)) else none := by
  have hoverflow : ((i1 ^^^ i2).msb = false ∧ (i1 ^^^ (i1 + i2)).msb = true) ↔
      ¬ FitsIn 64 (i2.toInt + i1.toInt) := by
    have hsigns := BitVec.saddOverflow_eq i1 i2
    rw [BitVec.msb_xor, BitVec.msb_xor]
    have hsadd : BitVec.saddOverflow i1 i2 = true ↔ ¬ FitsIn 64 (i2.toInt + i1.toInt) := by
      unfold BitVec.saddOverflow FitsIn
      simp only [Bool.or_eq_true, decide_eq_true_eq]
      omega
    rw [← hsadd, hsigns]
    cases i1.msb <;> cases i2.msb <;> cases (i1 + i2).msb <;> decide
  unfold add2 movGetInt64
  dsimp only
  by_cases hfits : FitsIn 64 (i2.toInt + i1.toInt)
  · rw [if_pos hfits, if_neg fun h => hoverflow.mp h hfits]
  · rw [if_neg hfits, if_pos (hoverflow.mpr hfits)]

theorem add2_toInt {i1 i2 : BitVec 64} (h : FitsIn 64 (i2.toInt + i1.toInt)) :
    (i1 + i2).toInt = i2.toInt + i1.toInt := by
  rw [BitVec.toInt_add_of_not_saddOverflow, Int.add_comm]
  unfold BitVec.saddOverflow
  unfold FitsIn at h
  simp only [Bool.or_eq_true, decide_eq_true_eq]
  omega

/-- The additions fail where a sum on the way does not fit. -/
theorem stepRun_add2 (values : List (BitVec 64)) (i2 : BitVec 64) :
    ((∃ part, part <+: values ∧ ¬ FitsIn 64 (i2.toInt + sumOf part)) ∧
      stepRun (V := V) (D := D) add2 values (.int64 i2) = none) ∨
    ((∀ part, part <+: values → FitsIn 64 (i2.toInt + sumOf part)) ∧
      ∃ sum : BitVec 64, sum.toInt = i2.toInt + sumOf values ∧
        stepRun (V := V) (D := D) add2 values (.int64 i2) = some (.int64 sum)) := by
  have hempty (i2 : BitVec 64) : FitsIn 64 (i2.toInt + sumOf ([] : List (BitVec 64))) := by
    unfold sumOf FitsIn
    rw [List.foldr_nil, Int.add_zero]
    exact ⟨BitVec.le_toInt i2, BitVec.toInt_lt⟩
  induction values generalizing i2 with
  | nil =>
    refine Or.inr ⟨fun part hpart => ?_, i2, ?_, rfl⟩
    · rw [List.prefix_nil.mp hpart]
      exact hempty i2
    · rw [sumOf, List.foldr_nil, Int.add_zero]
  | cons v values ih =>
    rw [stepRun, add2_eq]
    by_cases hfits : FitsIn 64 (i2.toInt + v.toInt)
    · rw [if_pos hfits, Option.bind_some]
      rcases ih (v + i2) with ⟨⟨part, hpart, hover⟩, hnone⟩ | ⟨hall, sum, hsum, hsome⟩
      · refine Or.inl ⟨⟨v :: part, ?_, ?_⟩, hnone⟩
        · exact List.cons_prefix_cons.mpr ⟨rfl, hpart⟩
        · rw [sumOf_cons, ← Int.add_assoc, ← add2_toInt hfits]
          exact hover
      · refine Or.inr ⟨fun part hpart => ?_, sum, ?_, hsome⟩
        · cases part with
          | nil => exact hempty i2
          | cons v' part =>
            obtain ⟨rfl, hpart'⟩ := List.cons_prefix_cons.mp hpart
            rw [sumOf_cons, ← Int.add_assoc, ← add2_toInt hfits]
            exact hall part hpart'
        · rw [hsum, add2_toInt hfits, sumOf_cons, Int.add_assoc]
    · rw [if_neg hfits]
      refine Or.inl ⟨⟨[v], ?_, ?_⟩, rfl⟩
      · exact List.cons_prefix_cons.mpr ⟨rfl, List.nil_prefix⟩
      · rw [sumOf_cons, sumOf, List.foldr_nil, Int.add_zero]
        exact hfits

theorem ofNat_eq_zero_iff (n : Nat) : BitVec.ofNat 32 n = 0 ↔ 2 ^ 32 ∣ n := by
  rw [← BitVec.toNat_inj, BitVec.toNat_ofNat]
  exact Nat.dvd_iff_mod_eq_zero.symm

theorem toInt_ofNat_eq (n : Nat) : (BitVec.ofNat 32 n).toInt = longOf n := BitVec.toInt_ofNat' n

theorem longOf_eq_iff (n : Nat) : longOf n = n ↔ n < 2 ^ 31 := by
  unfold longOf
  rw [Int.bmod_def]
  split <;> omega

theorem bmod_eq_iff_fits (n : Int) : n.bmod (2 ^ 32) = n ↔ FitsIn 32 n := by
  unfold FitsIn
  rw [Int.bmod_def]
  split <;> omega

theorem zero_add_ofNat (n : Nat) : (0 : BitVec 32) + BitVec.ofNat 32 n = BitVec.ofNat 32 n :=
  BitVec.zero_add _

theorem double_ne_null (d : D) : (AggValue.double d : AggValue V D) ≠ .null := nofun

theorem number_ne_null (n : Int) : (AggValue.number n : AggValue V D) ≠ .null := nofun

/-- A field that is null where the count says so. -/
theorem counted_field {α : Type} (values : List α) {field value : AggValue V D}
    (hvalue : values ≠ [] → value ≠ .null) :
    (if (0 : BitVec 32) + BitVec.ofNat 32 values.length = 0 then AggValue.null else field) =
        nullIfEmpty values value ↔
      values = [] ∨ ¬ 2 ^ 32 ∣ values.length ∧ field = value := by
  rw [zero_add_ofNat]
  unfold nullIfEmpty
  by_cases hempty : values = []
  · rw [if_pos hempty, hempty]
    simp
  · rw [if_neg hempty]
    by_cases hdvd : 2 ^ 32 ∣ values.length
    · rw [if_pos ((ofNat_eq_zero_iff _).mpr hdvd)]
      constructor
      · intro h
        exact absurd h.symm (hvalue hempty)
      · rintro (h | ⟨h, -⟩)
        · exact absurd h hempty
        · exact absurd hdvd h
    · rw [if_neg fun h => hdvd ((ofNat_eq_zero_iff _).mp h)]
      exact ⟨fun h => Or.inr ⟨hdvd, h⟩, fun h => (h.resolve_left hempty).2⟩

theorem countKept_iff {α : Type} (values : List α) :
    CountKept values.length ↔ values = [] ∨ ¬ 2 ^ 32 ∣ values.length := by
  unfold CountKept
  rw [List.length_eq_zero_iff]

theorem bestOf_eq (arith : GroupArith V D) (replaces : Int → Bool) (values : List V) :
    bestOf arith replaces values = nullIfEmpty values (bestOf arith replaces values) := by
  cases values with
  | nil => rfl
  | cons v values => rfl

theorem bestOf_ne_null (arith : GroupArith V D) (replaces : Int → Bool) (values : List V)
    (h : values ≠ []) : bestOf arith replaces values ≠ .null := by
  cases values with
  | nil => exact absurd rfl h
  | cons v values => exact fun h => (nomatch h)

/-- What the code makes of a run: an error where a sum of dialect 3 does not fit, and otherwise the
field as it is by definition where the longs of the node do. -/
def PutsSql (arith : GroupArith V D) (node : AggNod R V D) (run : List R) (cell : GroupCell V D) : Prop :=
  (node.Overflow2 run ∧ node.putRun arith run (node.start arith cell) = none) ∨
    (¬ node.Overflow2 run ∧ ∃ cell', node.putRun arith run (node.start arith cell) = some cell' ∧
      ((node.finish arith cell').field = node.sql arith cell.field run ↔ node.Keeps arith run))

theorem best_putsSql (arith : GroupArith V D) (replaces : Int → Bool) (node : AggNod R V D)
    {arg : R → Option V}
    (put : ∀ record cell, node.put arith record cell = counted (better arith replaces) (arg record) cell)
    (run : List R) (cell : GroupCell V D) (start : cell.vluDesc = .none) (count : cell.vluxCount = 0) :
    ∃ cell', node.putRun arith run cell = some cell' ∧
      ((nullUnlessCounted cell' cell'.vluDesc.field).field = bestOf arith replaces (run.filterMap arg) ↔
        CountKept (run.filterMap arg).length) := by
  obtain ⟨desc, hdesc, hfield⟩ := stepRun_better (D := D) arith replaces (run.filterMap arg)
  rw [putRun_counted put, start, hdesc, count]
  refine ⟨_, rfl, ?_⟩
  unfold nullUnlessCounted
  dsimp only
  rw [bestOf_eq, counted_field _ (bestOf_ne_null arith replaces _), hfield, countKept_iff]
  simp

theorem double_putsSql (arith : GroupArith V D) (node : AggNod R V D) {arg : R → Option D}
    (put : ∀ record cell, node.put arith record cell =
      counted (fun d1 value => some (addDouble arith d1 value)) (arg record) cell)
    (run : List R) (cell : GroupCell V D) (start : movGetDouble arith cell.vluDesc = arith.ofInt 0)
    (count : cell.vluxCount = 0) :
    ∃ cell', node.putRun arith run cell = some cell' ∧
      cell'.vluxCount = 0 + BitVec.ofNat 32 (run.filterMap arg).length ∧
      cell'.vluDesc = if run.filterMap arg = [] then cell.vluDesc
        else .double (doubleSum arith (run.filterMap arg)) := by
  rw [putRun_counted put, stepRun_addDouble, count, start]
  exact ⟨_, rfl, rfl, rfl⟩

theorem doubleTotal_putsSql (arith : GroupArith V D) (node : AggNod R V D) {arg : R → Option D}
    (put : ∀ record cell, node.put arith record cell =
      counted (fun d1 value => some (addDouble arith d1 value)) (arg record) cell)
    (run : List R) (cell : GroupCell V D) (start : movGetDouble arith cell.vluDesc = arith.ofInt 0)
    (count : cell.vluxCount = 0) :
    ∃ cell', node.putRun arith run cell = some cell' ∧
      ((nullUnlessCounted cell' cell'.vluDesc.field).field =
          nullIfEmpty (run.filterMap arg) (.double (doubleSum arith (run.filterMap arg))) ↔
        CountKept (run.filterMap arg).length) := by
  obtain ⟨cell', hput, hcount, hdesc⟩ := double_putsSql arith node put run cell start count
  refine ⟨cell', hput, ?_⟩
  unfold nullUnlessCounted
  dsimp only
  rw [hcount, counted_field _ (fun _ => double_ne_null _), countKept_iff, hdesc]
  by_cases hempty : run.filterMap arg = []
  · simp [hempty]
  · rw [if_neg hempty]
    simp [VluDesc.field]

theorem mean_putsSql (arith : GroupArith V D) (values : List D) (cell : GroupCell V D)
    {start : VluDesc V D} (count : cell.vluxCount = 0 + BitVec.ofNat 32 values.length)
    (desc : cell.vluDesc = if values = [] then start else .double (doubleSum arith values)) :
    (nullUnlessCounted cell (.double (arith.divDouble (movGetDouble arith cell.vluDesc)
        (arith.ofInt cell.vluxCount.toInt)))).field = meanOf arith values values.length ↔
      keepsMean arith values := by
  unfold nullUnlessCounted meanOf keepsMean
  dsimp only
  rw [count, counted_field _ (fun _ => double_ne_null _), zero_add_ofNat, toInt_ofNat_eq, desc]
  by_cases hempty : values = []
  · simp [hempty]
  · rw [if_neg hempty]
    simp [hempty, movGetDouble]

theorem total_putsSql (arith : GroupArith V D) (arg : NumArg R D 32) (run : List R)
    (cell : GroupCell V D) : PutsSql arith (.total arg) run cell := by
  refine Or.inr ⟨id, ?_⟩
  cases arg with
  | double arg => exact doubleTotal_putsSql arith (.total (.double arg)) (fun _ _ => rfl) run _ rfl rfl
  | exact arg =>
    have put : ∀ record cell, (AggNod.total (.exact arg)).put arith record cell =
        counted (fun l1 value => some (add l1 value)) (arg record) cell := fun _ _ => rfl
    have hrun := putRun_counted put run (start arith (.total (.exact arg)) cell)
    have hstep := stepRun_add (V := V) (D := D) (run.filterMap arg) 0
    rw [show (start arith (.total (.exact arg)) cell).vluDesc = .long 0 from rfl, hstep] at hrun
    refine ⟨_, hrun, ?_⟩
    unfold finish nullUnlessCounted sql sqlTotal Keeps keepsTotal
    dsimp only
    rw [show (start arith (.total (.exact arg)) cell).vluxCount = 0 from rfl,
      counted_field _ (fun _ => number_ne_null _), countKept_iff]
    have hfield : (VluDesc.long (BitVec.ofInt 32 ((0 : BitVec 32).toInt + sumOf (run.filterMap arg))) :
        VluDesc V D).field = .number (sumOf (run.filterMap arg)) ↔
          FitsIn 32 (sumOf (run.filterMap arg)) := by
      rw [← bmod_eq_iff_fits, VluDesc.field, AggValue.number.injEq, BitVec.toInt_ofInt]
      simp
    rw [hfield]
    by_cases hempty : run.filterMap arg = []
    · rw [hempty]
      simp only [true_or, true_and, true_iff]
      decide
    · simp [hempty]

theorem add2_putsSql (arith : GroupArith V D) (node : AggNod R V D) {arg : R → Option (BitVec 64)}
    (put : ∀ record cell, node.put arith record cell = counted add2 (arg record) cell) (run : List R)
    (cell : GroupCell V D) (start : cell.vluDesc = .int64 0) (count : cell.vluxCount = 0) :
    (SumOverflows (run.filterMap arg) ∧ node.putRun arith run cell = none) ∨
      (¬ SumOverflows (run.filterMap arg) ∧ ∃ (cell' : GroupCell V D) (sum : BitVec 64),
        node.putRun arith run cell = some cell' ∧ cell'.vluDesc = .int64 sum ∧
          sum.toInt = sumOf (run.filterMap arg) ∧
          cell'.vluxCount = 0 + BitVec.ofNat 32 (run.filterMap arg).length) := by
  have hrun := putRun_counted put run cell
  rw [start, count] at hrun
  have hzero (part : List (BitVec 64)) : (0 : BitVec 64).toInt + sumOf part = sumOf part :=
    Int.zero_add _
  rcases stepRun_add2 (V := V) (D := D) (run.filterMap arg) 0 with
    ⟨⟨part, hpart, hover⟩, hnone⟩ | ⟨hall, sum, hsum, hsome⟩
  · rw [hzero] at hover
    rw [hnone] at hrun
    exact Or.inl ⟨⟨part, hpart, hover⟩, hrun⟩
  · rw [hsome] at hrun
    refine Or.inr ⟨?_, _, sum, hrun, rfl, hsum.trans (hzero _), rfl⟩
    rintro ⟨part, hpart, hover⟩
    exact hover (hzero part ▸ hall part hpart)

theorem total2_putsSql (arith : GroupArith V D) (arg : NumArg R D 64) (run : List R)
    (cell : GroupCell V D) : PutsSql arith (.total2 arg) run cell := by
  cases arg with
  | double arg => exact Or.inr ⟨id, doubleTotal_putsSql arith (.total2 (.double arg)) (fun _ _ => rfl) run _ rfl rfl⟩
  | exact arg =>
    rcases add2_putsSql arith (.total2 (.exact arg)) (fun _ _ => rfl) run
      (start arith (.total2 (.exact arg)) cell) rfl rfl with
      hover | ⟨hfits, cell', sum, hput, hdesc, hsum, hcount⟩
    · exact Or.inl hover
    · refine Or.inr ⟨hfits, cell', hput, ?_⟩
      unfold finish nullUnlessCounted sql sqlTotal Keeps keepsTotal2
      dsimp only
      rw [hcount, counted_field _ (fun _ => number_ne_null _), countKept_iff, hdesc, VluDesc.field,
        hsum]
      simp

theorem average2_putsSql (arith : GroupArith V D) (arg : NumArg R D 64) (run : List R)
    (cell : GroupCell V D) : PutsSql arith (.average2 arg) run cell := by
  cases arg with
  | double arg =>
    obtain ⟨cell', hput, hcount, hdesc⟩ := double_putsSql arith (.average2 (.double arg))
      (fun _ _ => rfl) run (start arith (.average2 (.double arg)) cell) rfl rfl
    refine Or.inr ⟨id, cell', hput, ?_⟩
    have hmean := mean_putsSql arith (run.filterMap arg) cell' hcount hdesc
    unfold sql sqlAverage Keeps keepsAverage2
    dsimp only
    rw [← hmean]
    unfold finish
    by_cases hempty : run.filterMap arg = []
    · have hzero : cell'.vluxCount = 0 := by rw [hcount, hempty]; rfl
      rw [hdesc, if_pos hempty]
      unfold start nullUnlessCounted
      dsimp only
      rw [if_pos hzero, if_pos hzero]
    · rw [hdesc, if_neg hempty]

  | exact arg =>
    rcases add2_putsSql arith (.average2 (.exact arg)) (fun _ _ => rfl) run
      (start arith (.average2 (.exact arg)) cell) rfl rfl with
      hover | ⟨hfits, cell', sum, hput, hdesc, hsum, hcount⟩
    · exact Or.inl hover
    · refine Or.inr ⟨hfits, cell', hput, ?_⟩
      unfold finish nullUnlessCounted sql sqlAverage Keeps keepsAverage2
      dsimp only
      rw [hdesc]
      dsimp only
      rw [hcount, counted_field _ (fun _ => number_ne_null _), zero_add_ofNat, toInt_ofNat_eq, hsum]
      simp

theorem average_putsSql (arith : GroupArith V D) (arg : R → Option D) (run : List R)
    (cell : GroupCell V D) : PutsSql arith (.average arg) run cell := by
  obtain ⟨cell', hput, hcount, hdesc⟩ := double_putsSql arith (.average arg) (fun _ _ => rfl) run
    (start arith (.average arg) cell) rfl rfl
  exact Or.inr ⟨id, cell', hput, mean_putsSql arith (run.filterMap arg) cell' hcount hdesc⟩

theorem count_putsSql (arith : GroupArith V D) (run : List R) (cell : GroupCell V D) :
    PutsSql arith .count run cell := by
  have hrun (long count : BitVec 32) : putRun arith .count run ⟨.long long, count, cell.field⟩ =
      some ⟨.long (long + BitVec.ofNat 32 run.length), count + BitVec.ofNat 32 run.length, cell.field⟩ := by
    induction run generalizing long count with
    | nil => simp [putRun]
    | cons record run ih =>
      unfold putRun put
      rw [Option.bind_some]
      unfold movGetLong
      dsimp only
      rw [ih, List.length_cons, Nat.add_comm, BitVec.ofNat_add, ← BitVec.add_assoc, ← BitVec.add_assoc]
      rfl
  refine Or.inr ⟨id, _, hrun 0 0, ?_⟩
  unfold finish sql Keeps VluDesc.field
  dsimp only
  rw [AggValue.number.injEq, zero_add_ofNat, toInt_ofNat_eq]
  exact longOf_eq_iff _

theorem count2_putsSql (arith : GroupArith V D) (arg : R → Option V) (run : List R)
    (cell : GroupCell V D) : PutsSql arith (.count2 arg) run cell := by
  have hrun (long count : BitVec 32) : ∃ count', putRun arith (.count2 arg) run
      ⟨.long long, count, cell.field⟩ =
        some ⟨.long (long + BitVec.ofNat 32 (run.filterMap arg).length), count', cell.field⟩ := by
    induction run generalizing long count with
    | nil => exact ⟨count, by simp [putRun]⟩
    | cons record run ih =>
      unfold putRun put
      dsimp only
      rw [List.filterMap_cons]
      cases arg record with
      | none => exact ih long _
      | some v =>
        dsimp only
        rw [Option.bind_some]
        unfold movGetLong
        dsimp only
        rw [List.length_cons, Nat.add_comm, BitVec.ofNat_add, ← BitVec.add_assoc]
        exact ih _ _
  obtain ⟨count', hput⟩ := hrun 0 0
  refine Or.inr ⟨id, _, hput, ?_⟩
  unfold finish sql Keeps VluDesc.field
  dsimp only
  rw [AggValue.number.injEq, zero_add_ofNat, toInt_ofNat_eq]
  exact longOf_eq_iff _

theorem literal_putsSql (arith : GroupArith V D) (value : Option V) (run : List R)
    (cell : GroupCell V D) : PutsSql arith (.literal value) run cell := by
  have hrun (cell : GroupCell V D) (hfield : cell.field = .ofOption value) :
      putRun arith (.literal value) run cell = some cell := by
    induction run with
    | nil => rfl
    | cons record run ih =>
      unfold putRun put
      rw [Option.bind_some, ← hfield]
      exact ih
  refine Or.inr ⟨id, _, hrun _ rfl, ?_⟩
  unfold finish sql Keeps start
  exact iff_of_true rfl trivial

theorem other_putsSql (arith : GroupArith V D) (expr : R → Option V) (run : List R)
    (cell : GroupCell V D) : PutsSql arith (.other expr) run cell := by
  have hrun (cell : GroupCell V D) : putRun arith (.other expr) run cell =
      some { cell with
        field := run.getLast?.elim cell.field fun record => .ofOption (expr record) } := by
    induction run generalizing cell with
    | nil => rfl
    | cons record run ih =>
      unfold putRun put
      rw [Option.bind_some, ih]
      cases run with
      | nil => rfl
      | cons record' run => rw [List.getLast?_cons_cons]; rfl
  refine Or.inr ⟨id, _, hrun _, ?_⟩
  unfold finish sql Keeps start
  exact iff_of_true rfl trivial

/-- A node that is not mapped to an index. -/
theorem putRun_putsSql (arith : GroupArith V D) (node : AggNod R V D) (run : List R)
    (cell : GroupCell V D) (min : ∀ arg, node ≠ .min true arg) (max : ∀ arg, node ≠ .max true arg) :
    PutsSql arith node run cell := by
  cases node with
  | min indexed arg =>
    cases indexed with
    | true => exact absurd rfl (min arg)
    | false =>
      obtain ⟨cell', hput, hfield⟩ := best_putsSql arith (fun result => result < 0)
        (.min false arg) (fun _ _ => rfl) run (start arith (.min false arg) cell) rfl rfl
      refine Or.inr ⟨id, cell', hput, hfield.trans ?_⟩
      simp [Keeps]
  | max indexed arg =>
    cases indexed with
    | true => exact absurd rfl (max arg)
    | false =>
      obtain ⟨cell', hput, hfield⟩ := best_putsSql arith (fun result => result > 0)
        (.max false arg) (fun _ _ => rfl) run (start arith (.max false arg) cell) rfl rfl
      refine Or.inr ⟨id, cell', hput, hfield.trans ?_⟩
      simp [Keeps]
  | total arg => exact total_putsSql arith arg run cell
  | total2 arg => exact total2_putsSql arith arg run cell
  | average arg => exact average_putsSql arith arg run cell
  | average2 arg => exact average2_putsSql arith arg run cell
  | count => exact count_putsSql arith run cell
  | count2 arg => exact count2_putsSql arith arg run cell
  | literal value => exact literal_putsSql arith value run cell
  | other expr => exact other_putsSql arith expr run cell

end AggNod

end InterBase
