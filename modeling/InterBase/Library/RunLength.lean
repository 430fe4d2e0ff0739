import Mathlib

namespace RunLength

variable {α : Type*}

inductive Segment (α : Type*) where
  | literal (xs : List α)
  | run (n : Nat) (x : α)
deriving Repr, DecidableEq

def Segment.expand : Segment α → List α
  | literal xs => xs
  | run n x => List.replicate n x

/-- Cells of the packed form: one control each, then the literals or one sample. -/
def Segment.size : Segment α → Nat
  | literal xs => 1 + xs.length
  | run _ _ => 2

def Segment.Within (stretch repeats : Nat) : Segment α → Prop
  | literal xs => 0 < xs.length ∧ xs.length ≤ stretch
  | run n _ => 0 < n ∧ n ≤ repeats

/-- What a decoder asks of a segment; a stretch without literals does no harm to it. -/
def Segment.Packable (stretch repeats : Nat) : Segment α → Prop
  | literal xs => xs.length ≤ stretch
  | run n _ => 0 < n ∧ n ≤ repeats

theorem Segment.Within.packable {stretch repeats : Nat} {s : Segment α}
    (h : s.Within stretch repeats) : s.Packable stretch repeats := by
  cases s with
  | literal xs => exact h.2
  | run n x => exact h

def expand (ss : List (Segment α)) : List α := ss.flatMap Segment.expand

def size (ss : List (Segment α)) : Nat := (ss.map Segment.size).sum

@[simp] theorem expand_nil : expand ([] : List (Segment α)) = [] := rfl

@[simp] theorem expand_cons (s : Segment α) (ss : List (Segment α)) :
    expand (s :: ss) = s.expand ++ expand ss := rfl

theorem expand_append (ss ts : List (Segment α)) : expand (ss ++ ts) = expand ss ++ expand ts :=
  List.flatMap_append

@[simp] theorem size_nil : size ([] : List (Segment α)) = 0 := rfl

@[simp] theorem size_cons (s : Segment α) (ss : List (Segment α)) :
    size (s :: ss) = s.size + size ss := rfl

theorem size_append (ss ts : List (Segment α)) : size (ss ++ ts) = size ss + size ts := by
  simp [size]

/-- A stretch of literals cut into pieces of at most `limit`. -/
def pieces (limit : Nat) (xs : List α) : List (Segment α) :=
  if xs = [] ∨ limit = 0 then []
  else .literal (xs.take limit) :: pieces limit (xs.drop limit)
termination_by xs.length
decreasing_by
  rename_i h
  have hx : 0 < xs.length := List.length_pos_iff.mpr (fun e => h (Or.inl e))
  have hl : limit ≠ 0 := fun e => h (Or.inr e)
  simp only [List.length_drop]
  omega

@[simp] theorem pieces_nil (limit : Nat) : pieces limit ([] : List α) = [] := by
  rw [pieces, if_pos (Or.inl rfl)]

theorem expand_pieces {limit : Nat} (hl : 0 < limit) (xs : List α) :
    expand (pieces limit xs) = xs := by
  fun_induction pieces limit xs with
  | case1 xs h =>
    rcases h with h | h
    · simp [h]
    · omega
  | case2 xs h ih => simp [Segment.expand, ih]

theorem pieces_within {limit repeats : Nat} (xs : List α) :
    ∀ s ∈ pieces limit xs, s.Within limit repeats := by
  fun_induction pieces limit xs with
  | case1 xs h => simp
  | case2 xs h ih =>
    intro s hs
    rcases List.mem_cons.mp hs with rfl | hs
    · have hx : 0 < xs.length := List.length_pos_iff.mpr (fun e => h (Or.inl e))
      have hl : limit ≠ 0 := fun e => h (Or.inr e)
      simp only [Segment.Within, List.length_take]
      omega
    · exact ih s hs

theorem size_pieces {limit : Nat} (hl : 0 < limit) (xs : List α) :
    size (pieces limit xs) = xs.length + (xs.length + limit - 1) / limit := by
  fun_induction pieces limit xs with
  | case1 xs h =>
    rcases h with rfl | h
    · have hz : (0 + limit - 1) / limit = 0 := Nat.div_eq_of_lt (by omega)
      simpa using hz.symm
    · omega
  | case2 xs h ih =>
    have hx : 0 < xs.length := List.length_pos_iff.mpr (fun e => h (Or.inl e))
    rw [size_cons, ih, Segment.size, List.length_take, List.length_drop]
    rcases Nat.le_total limit xs.length with hle | hle
    · have hstep : xs.length + limit - 1 = xs.length - limit + limit - 1 + limit := by omega
      rw [hstep, Nat.add_div_right _ hl]
      omega
    · have hlast : (xs.length - limit + limit - 1) / limit = 0 := Nat.div_eq_of_lt (by omega)
      have hone : (xs.length + limit - 1) / limit = 1 := by
        rw [show xs.length + limit - 1 = xs.length - 1 + limit by omega, Nat.add_div_right _ hl,
          Nat.div_eq_of_lt (by omega)]
      omega

/-- What is left of a segment in fewer cells than it asks for: a shorter stretch of literals. -/
def Segment.clip : Nat → Segment α → List (Segment α)
  | 0, _ => []
  | room + 1, s => [.literal (s.expand.take room)]

/-- The part of a packed form that goes into `room` cells. -/
def cut : Nat → List (Segment α) → List (Segment α)
  | _, [] => []
  | room, s :: ss => if s.size ≤ room then s :: cut (room - s.size) ss else s.clip room

theorem Segment.size_clip {room : Nat} {s : Segment α} {stretch repeats : Nat}
    (h : s.Within stretch repeats) (short : room < s.size) : RunLength.size (s.clip room) = room := by
  cases room with
  | zero => rfl
  | succ room =>
    have hlong : room ≤ s.expand.length := by
      cases s with
      | literal xs =>
        simp only [Segment.size, Segment.expand] at short ⊢
        omega
      | run n x =>
        have := h.1
        simp only [Segment.size, Segment.expand, List.length_replicate] at short ⊢
        omega
    simp only [Segment.clip, size_cons, size_nil, Segment.size, List.length_take]
    omega

/-- A cut packed form fills its room. -/
theorem size_cut {stretch repeats room : Nat} {ss : List (Segment α)}
    (h : ∀ s ∈ ss, s.Within stretch repeats) (short : room ≤ size ss) : size (cut room ss) = room := by
  induction ss generalizing room with
  | nil =>
    simp only [size_nil] at short
    simp only [cut, size_nil]
    omega
  | cons s ss ih =>
    rw [cut]
    rw [size_cons] at short
    split
    next hfits =>
      rw [size_cons, ih (fun t ht => h t (by simp [ht])) (by omega)]
      omega
    next hlong => exact Segment.size_clip (h s (by simp)) (by omega)

theorem Segment.expand_clip_prefix (room : Nat) (s : Segment α) :
    RunLength.expand (s.clip room) <+: s.expand := by
  cases room with
  | zero => exact List.nil_prefix
  | succ room =>
    simp only [Segment.clip, expand_cons, expand_nil, List.append_nil]
    exact List.take_prefix room s.expand

/-- What a cut packed form stands for is the front of what the whole stands for. -/
theorem expand_cut_prefix (room : Nat) (ss : List (Segment α)) :
    expand (cut room ss) <+: expand ss := by
  induction ss generalizing room with
  | nil => exact List.prefix_rfl
  | cons s ss ih =>
    rw [cut, expand_cons]
    split
    next hfits =>
      rw [expand_cons]
      exact (List.prefix_append_right_inj s.expand).mpr (ih (room - s.size))
    next hlong => exact (s.expand_clip_prefix room).trans (List.prefix_append s.expand _)

theorem cut_packable {stretch repeats : Nat} (room : Nat) (hs : 0 < stretch)
    {ss : List (Segment α)} (h : ∀ s ∈ ss, s.Within stretch repeats) :
    ∀ s ∈ cut room ss, s.Packable stretch repeats := by
  induction ss generalizing room with
  | nil => simp [cut]
  | cons s ss ih =>
    intro t ht
    have hhead := h s (by simp)
    rw [cut] at ht
    split at ht
    next hfits =>
      rcases List.mem_cons.mp ht with rfl | ht
      · exact hhead.packable
      · exact ih (room - s.size) (fun u hu => h u (by simp [hu])) t ht
    next hlong =>
      cases room with
      | zero => simp [Segment.clip] at ht
      | succ room =>
        have ht : t = .literal (s.expand.take room) := by simpa [Segment.clip] using ht
        subst ht
        show (s.expand.take room).length ≤ stretch
        rw [List.length_take]
        cases s with
        | literal xs =>
          have := hhead.2
          simp only [Segment.expand]
          omega
        | run n x =>
          simp only [Segment.size] at hlong
          omega

/-- At most one cell of a cut packed form stands for nothing. -/
theorem size_cut_le {stretch repeats : Nat} (room : Nat) {ss : List (Segment α)}
    (h : ∀ s ∈ ss, s.Within stretch repeats) :
    size (cut room ss) ≤ 2 * (expand (cut room ss)).length + 1 := by
  induction ss generalizing room with
  | nil => simp [cut]
  | cons s ss ih =>
    have hhead := h s (by simp)
    rw [cut]
    split
    next hfits =>
      have htail := ih (room - s.size) (fun u hu => h u (by simp [hu]))
      have hsize : s.size ≤ 2 * s.expand.length := by
        cases s with
        | literal xs =>
          have := hhead.1
          simp only [Segment.size, Segment.expand]
          omega
        | run n x =>
          have := hhead.1
          simp only [Segment.size, Segment.expand, List.length_replicate]
          omega
      rw [size_cons, expand_cons, List.length_append]
      omega
    next hlong =>
      cases room with
      | zero => simp [Segment.clip]
      | succ room =>
        simp only [Segment.clip, size_cons, size_nil, expand_cons, expand_nil, List.append_nil]
        simp only [Segment.size, Segment.expand]
        omega

variable [DecidableEq α]

/-- Cells before the first three equal neighbours; all of them when there are none. -/
def leadingLiterals : List α → Nat
  | a :: b :: c :: xs => if a = b ∧ a = c then 0 else leadingLiterals (b :: c :: xs) + 1
  | xs => xs.length

def leadingRun (limit : Nat) : List α → Nat
  | [] => 0
  | x :: xs => min limit ((x :: xs).takeWhile (· = x)).length

theorem leadingLiterals_le (xs : List α) : leadingLiterals xs ≤ xs.length := by
  fun_induction leadingLiterals xs with
  | case1 a b c xs h => simp
  | case2 a b c xs h ih => simpa using ih
  | case3 xs h => exact le_rfl

/-- What follows the leading literals is empty or starts with three equal cells. -/
theorem drop_leadingLiterals (xs : List α) :
    xs.drop (leadingLiterals xs) = [] ∨
      ∃ a rest, xs.drop (leadingLiterals xs) = a :: a :: a :: rest := by
  fun_induction leadingLiterals xs with
  | case1 a b c xs h =>
    obtain ⟨rfl, rfl⟩ := h
    exact Or.inr ⟨a, xs, rfl⟩
  | case2 a b c xs h ih => simpa using ih
  | case3 xs h => exact Or.inl (by simp)

theorem leadingLiterals_of_isChain {xs : List α} (h : xs.IsChain (· ≠ ·)) :
    leadingLiterals xs = xs.length := by
  fun_induction leadingLiterals xs with
  | case1 a b c xs he => exact absurd he.1 (List.isChain_cons_cons.mp h).1
  | case2 a b c xs he ih => simpa using ih (List.isChain_cons_cons.mp h).2
  | case3 xs hs => rfl

theorem leadingRun_pos {limit : Nat} (hl : 0 < limit) (x : α) (xs : List α) :
    0 < leadingRun limit (x :: xs) := by
  simp only [leadingRun, List.takeWhile_cons, decide_true, if_true, List.length_cons]
  omega

theorem take_leadingRun (limit : Nat) (x : α) (xs : List α) :
    (x :: xs).take (leadingRun limit (x :: xs)) = List.replicate (leadingRun limit (x :: xs)) x := by
  apply List.eq_replicate_iff.mpr
  have hle : ((x :: xs).takeWhile (· = x)).length ≤ (x :: xs).length :=
    (List.takeWhile_prefix _).length_le
  refine ⟨?_, ?_⟩
  · simp only [leadingRun, List.length_take]
    omega
  · intro y hy
    have htake : (x :: xs).take (leadingRun limit (x :: xs)) <+: (x :: xs).takeWhile (· = x) := by
      apply List.prefix_of_prefix_length_le (List.take_prefix _ _) (List.takeWhile_prefix _)
      simp only [leadingRun, List.length_take]
      omega
    have hmem := htake.subset hy
    simpa using List.mem_takeWhile_imp hmem

/-- Literal stretches up to three equal neighbours, then the run they start. -/
def segments (stretch repeats : Nat) (xs : List α) : List (Segment α) :=
  let n := leadingLiterals xs
  match _h : xs.drop n with
  | [] => pieces stretch (xs.take n)
  | x :: rest =>
    let k := leadingRun repeats (x :: rest)
    if k = 0 then pieces stretch xs
    else pieces stretch (xs.take n) ++ .run k x :: segments stretch repeats ((x :: rest).drop k)
termination_by xs.length
decreasing_by
  have hh := congrArg List.length _h
  simp only [List.length_drop, List.length_cons] at hh ⊢
  omega

theorem segments_of_drop_nil {stretch repeats : Nat} {xs : List α}
    (h : xs.drop (leadingLiterals xs) = []) :
    segments stretch repeats xs = pieces stretch xs := by
  rw [segments]
  have htake : xs.take (leadingLiterals xs) = xs := by
    rw [List.take_of_length_le (by simpa using h)]
  split
  next => rw [htake]
  next x rest he => simp [h] at he

theorem segments_of_drop_cons {stretch repeats : Nat} (hr : 0 < repeats) {xs rest : List α} {x : α}
    (h : xs.drop (leadingLiterals xs) = x :: rest) :
    segments stretch repeats xs = pieces stretch (xs.take (leadingLiterals xs)) ++
      .run (leadingRun repeats (x :: rest)) x ::
        segments stretch repeats ((x :: rest).drop (leadingRun repeats (x :: rest))) := by
  have hk := leadingRun_pos hr x rest
  rw [segments]
  split
  next he => simp [h] at he
  next y ys he =>
    obtain ⟨rfl, rfl⟩ := List.cons.inj (h.symm.trans he)
    rw [if_neg (by omega)]

@[simp] theorem segments_nil (stretch repeats : Nat) :
    segments stretch repeats ([] : List α) = [] := by
  rw [segments_of_drop_nil rfl, pieces_nil]

theorem expand_segments {stretch repeats : Nat} (hs : 0 < stretch) (hr : 0 < repeats)
    (xs : List α) : expand (segments stretch repeats xs) = xs := by
  induction hn : xs.length using Nat.strong_induction_on generalizing xs with
  | _ n ih =>
    cases hd : xs.drop (leadingLiterals xs) with
    | nil => rw [segments_of_drop_nil hd, expand_pieces hs]
    | cons x rest =>
      have hk := leadingRun_pos hr x rest
      have hlen := congrArg List.length hd
      simp only [List.length_drop, List.length_cons] at hlen
      have htail := ih _ (by simp only [List.length_drop, List.length_cons]; omega)
        ((x :: rest).drop (leadingRun repeats (x :: rest))) rfl
      rw [segments_of_drop_cons hr hd, expand_append, expand_pieces hs, expand_cons, htail,
        Segment.expand, ← take_leadingRun repeats x rest, List.take_append_drop, ← hd,
        List.take_append_drop]

theorem segments_within (stretch : Nat) {repeats : Nat} (hr : 0 < repeats) (xs : List α) :
    ∀ s ∈ segments stretch repeats xs, s.Within stretch repeats := by
  induction hn : xs.length using Nat.strong_induction_on generalizing xs with
  | _ n ih =>
    cases hd : xs.drop (leadingLiterals xs) with
    | nil =>
      rw [segments_of_drop_nil hd]
      exact pieces_within xs
    | cons x rest =>
      have hk := leadingRun_pos hr x rest
      have hlen := congrArg List.length hd
      simp only [List.length_drop, List.length_cons] at hlen
      intro s hs
      rw [segments_of_drop_cons hr hd] at hs
      rcases List.mem_append.mp hs with hs | hs
      · exact pieces_within _ s hs
      · rcases List.mem_cons.mp hs with rfl | hs
        · exact ⟨hk, Nat.min_le_left _ _⟩
        · exact ih _ (by simp only [List.length_drop, List.length_cons]; omega) _ rfl s hs

theorem three_le_leadingRun {limit : Nat} (hl : 3 ≤ limit) (a : α) (xs : List α) :
    3 ≤ leadingRun limit (a :: a :: a :: xs) := by
  simp only [leadingRun, List.takeWhile_cons, decide_true, if_true, List.length_cons]
  omega

/-- Runs never cost more than they replace, so only the literal controls can add to the size. -/
theorem size_segments_le {stretch repeats : Nat} (hs : 0 < stretch) (hr : 3 ≤ repeats)
    (xs : List α) :
    size (segments stretch repeats xs) ≤ xs.length + (xs.length + stretch - 1) / stretch := by
  induction hn : xs.length using Nat.strong_induction_on generalizing xs with
  | _ n ih =>
    have hle := leadingLiterals_le xs
    rcases drop_leadingLiterals xs with hd | ⟨a, rest, hd⟩
    · rw [segments_of_drop_nil hd, size_pieces hs, hn]
    · have hk := three_le_leadingRun hr a rest
      have hlen := congrArg List.length hd
      simp only [List.length_drop, List.length_cons] at hlen
      have hkle : leadingRun repeats (a :: a :: a :: rest) ≤ rest.length + 3 := by
        have hw := (List.takeWhile_prefix (l := a :: a :: a :: rest) (· = a)).length_le
        simp only [List.length_cons] at hw
        simp only [leadingRun]
        omega
      have htail := ih (rest.length + 3 - leadingRun repeats (a :: a :: a :: rest)) (by omega)
        ((a :: a :: a :: rest).drop (leadingRun repeats (a :: a :: a :: rest))) (by simp)
      rw [segments_of_drop_cons (by omega) hd, size_append, size_pieces hs, size_cons,
        List.length_take, Nat.min_eq_left hle, Segment.size]
      have hfit : leadingLiterals xs + (rest.length + 3 - leadingRun repeats (a :: a :: a :: rest)) +
          3 ≤ n := by omega
      generalize leadingRun repeats (a :: a :: a :: rest) = k at *
      generalize leadingLiterals xs = l at *
      generalize rest.length + 3 - k = r at *
      -- the sum of two rounded quotients exceeds the rounded quotient of the sum by at most one
      have hsum : (l + stretch - 1) / stretch + (r + stretch - 1) / stretch ≤
          (n + stretch - 1) / stretch + 1 := by
        rw [← Nat.add_div_right _ hs]
        refine (Nat.le_div_iff_mul_le hs).mpr ?_
        rw [Nat.add_mul]
        have h1 := Nat.div_mul_le_self (l + stretch - 1) stretch
        have h2 := Nat.div_mul_le_self (r + stretch - 1) stretch
        omega
      omega

end RunLength
