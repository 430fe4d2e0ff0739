import InterBase.SbmMembers

namespace InterBase

theorem getLsbD_bit {bit : Nat} (h : bit < 32) (j : Nat) :
    (1#32 <<< bit).getLsbD j = (j == bit) := by
  rw [← BitVec.twoPow_eq, BitVec.getLsbD_twoPow, Bool.eq_iff_iff]
  simp only [h, decide_true, Bool.true_and, decide_eq_true_eq, beq_iff_eq]
  exact eq_comm

theorem and_bit {bit : Nat} (h : bit < 32) (test : BitVec 32) :
    (test &&& 1#32 <<< bit != 0#32) = test.getLsbD bit := by
  have hiff : test &&& 1#32 <<< bit = 0#32 ↔ test.getLsbD bit = false := by
    constructor
    · intro hz
      have hbit := congrArg (BitVec.getLsbD · bit) hz
      simpa [getLsbD_bit h] using hbit
    · intro hz
      refine BitVec.eq_of_getLsbD_eq fun i hi => ?_
      rw [BitVec.getLsbD_and, getLsbD_bit h]
      by_cases he : i = bit
      · simp [he, hz]
      · simp [he]
  rw [Bool.eq_iff_iff]
  simp [hiff]

theorem bmsTest_eq (segment : Bms) (relative : Nat) :
    bmsTest segment relative = (segment (relative / 32)).getLsbD (relative % 32) :=
  and_bit (Nat.mod_lt _ (by decide)) _

theorem same_bit (r j : Nat) : (j == r) = (j / 32 == r / 32 && j % 32 == r % 32) := by
  rw [Bool.eq_iff_iff]
  simp
  omega

theorem bmsTest_clearSegment (relative : Nat) : bmsTest clearSegment relative = false := by
  rw [bmsTest_eq]
  simp [clearSegment]

theorem bmsTest_bmsSet (segment : Bms) (r j : Nat) :
    bmsTest (bmsSet segment r) j = (j == r || bmsTest segment j) := by
  have hlt : r % 32 < 32 := Nat.mod_lt _ (by decide)
  rw [bmsTest_eq, bmsTest_eq, same_bit, bmsSet]
  by_cases hb : j / 32 = r / 32
  · rw [if_pos hb, BitVec.getLsbD_or, getLsbD_bit hlt, hb]
    simp [Bool.or_comm]
  · rw [if_neg hb]
    simp [hb]

theorem bmsClear_fst (segment : Bms) (r : Nat) : (bmsClear segment r).1 = bmsTest segment r := by
  rw [bmsClear]
  cases bmsTest segment r <;> rfl

theorem bmsTest_bmsClear (segment : Bms) (r j : Nat) :
    bmsTest (bmsClear segment r).2 j = (bmsTest segment j && j != r) := by
  have hlt : r % 32 < 32 := Nat.mod_lt _ (by decide)
  rw [bmsClear]
  split
  next h =>
    rw [bmsTest_eq, bmsTest_eq, bne, same_bit]
    dsimp only
    by_cases hb : j / 32 = r / 32
    · have hin : j % 32 < 32 := Nat.mod_lt _ (by decide)
      rw [if_pos hb, BitVec.getLsbD_and, BitVec.getLsbD_not, getLsbD_bit hlt, hb]
      simp [hin]
    · rw [if_neg hb]
      simp [hb]
  next h =>
    by_cases hj : j = r
    · simp [hj, h]
    · simp [hj]

theorem bmsTest_and (b1 b2 : Bms) (r : Nat) :
    bmsTest (fun j => b1 j &&& b2 j) r = (bmsTest b1 r && bmsTest b2 r) := by
  simp only [bmsTest_eq, BitVec.getLsbD_and]

theorem bmsTest_or (b1 b2 : Bms) (r : Nat) :
    bmsTest (fun j => b1 j ||| b2 j) r = (bmsTest b1 r || bmsTest b2 r) := by
  simp only [bmsTest_eq, BitVec.getLsbD_or]

def SbmBucket.mem : SbmBucket → Nat → Bool := Sbm.mem bitsSegment bmsTest

def SbmBucket.Sound (bucket : SbmBucket) : Prop :=
  Sbm.Sound bunchBucket bunchBucket bitsBucket (fun _ => True) bucket

theorem bucket_within : bitsBucket ≤ bitsSegment * 65536 := by decide

theorem bitsSegment_pos : 0 < bitsSegment := by decide

theorem clearBucket_sound : clearBucket.Sound := by
  refine ⟨⟨?_, Nat.le_refl _, Nat.le_refl _, by decide, fun i s hs => ?_, fun i s hs => trivial⟩, fun _ i => ?_,
    by decide⟩
  · exact List.length_replicate
  · rw [clearBucket, slotAt_replicate] at hs
    cases hs
  · exact slotAt_replicate _ i

theorem clearBucket_mem (relative : Nat) : clearBucket.mem relative = false := rfl

section

variable {bucket bucket1 bucket2 : SbmBucket} {relative : Nat}

theorem bucketTest_eq (h : bucket.Sound) (inside : relative < bitsBucket) :
    bucketTest bucket relative = some (bucket.mem relative) :=
  mapTest_eq h bitsSegment_pos bucket_within inside fun _ _ _ _ => rfl

theorem bucketClear_spec (h : bucket.Sound) (inside : relative < bitsBucket) :
    ∃ bucket', bucketClear bucket relative = some (bucket.mem relative, bucket') ∧
      bucket'.Sound ∧ ∀ n, bucket'.mem n = (bucket.mem n && n != relative) :=
  mapClear_spec h bitsSegment_pos bucket_within inside fun segment r _ _ =>
    ⟨(bmsClear segment r).2, by rw [← bmsClear_fst], trivial,
      fun j _ => bmsTest_bmsClear segment r j⟩

/-- A bucket has all its slots from the start. -/
def bucketGrows (count slot : Nat) : Option Nat := if slot < count then some count else none

theorem bucket_settable (h : bucket.Sound) (inside : relative < bitsBucket) :
    bucket.Settable bitsSegment bucketGrows relative := by
  have hgrows : ∀ n < bitsBucket, bucketGrows bucket.sbmCount (n / bitsSegment) =
      some bucket.sbmCount := by
    intro n hn
    have hlong := h.long
    simp only [bitsBucket, bitsSegment, bunchBucket] at hn hlong ⊢
    rw [bucketGrows, if_pos (by omega)]
  rw [Sbm.Settable]
  cases bucket.sbmState with
  | empty => trivial
  | plural => exact ⟨_, hgrows _ inside⟩
  | singular => exact ⟨_, hgrows _ inside, _, hgrows _ h.number⟩

theorem bucketSet_spec (h : bucket.Sound) (inside : relative < bitsBucket) :
    ∃ bucket', bucketSet bucket relative = some bucket' ∧ bucket'.Sound ∧
      ∀ n, bucket'.mem n = (n == relative || bucket.mem n) := by
  refine mapSet_spec h bitsSegment_pos bucket_within inside (bucket_settable h inside) ?_ trivial
    bmsTest_clearSegment fun segment r _ _ => ⟨_, rfl, trivial, fun j _ => bmsTest_bmsSet segment r j⟩
  intro vector slot c hv hc
  rw [bucketGrows] at hc
  split at hc
  next hlt => exact ⟨vector, rfl, hv, rfl, rfl, Option.some.inj hc, by
    rw [← Option.some.inj hc]
    exact hlt, fun _ => rfl⟩
  next => cases hc

theorem andSegment_spec (x y : Option Bms) : ∃ r, andSegment x y = some r ∧
    Merged bitsSegment (fun _ => True) bmsTest and x y r := by
  cases x with
  | none => exact ⟨_, rfl, fun _ _ => trivial, fun _ _ => trivial, fun _ _ => rfl⟩
  | some b1 =>
    cases y with
    | none => exact ⟨_, rfl, fun _ _ => trivial, fun _ _ => trivial,
        fun k _ => (Bool.and_false (bmsTest b1 k)).symm⟩
    | some b2 => exact ⟨_, rfl, fun _ _ => trivial, fun _ _ => trivial,
        fun k _ => bmsTest_and b1 b2 k⟩

theorem bucketAnd_spec (h1 : bucket1.Sound) (h2 : bucket2.Sound) :
    ∃ r, bucketAnd bucket1 bucket2 = some r ∧ r.2.1.Sound ∧ r.2.2.Sound ∧
      ∀ k, slotHolds SbmBucket.mem (chosen r.1 r.2.1 r.2.2) k =
        (bucket1.mem k && bucket2.mem k) :=
  mapAnd_spec h1 h2 bitsSegment_pos (fun _ _ hm hn => bucketTest_eq hm hn)
    fun x y _ _ => andSegment_spec x y

theorem orSegment_spec (x y : Option Bms) : ∃ r, orSegment x y = some r ∧
    Merged bitsSegment (fun _ => True) bmsTest or x y r := by
  cases y with
  | none =>
    have hkeep : orSegment x none = some (x, none) := by cases x <;> rfl
    exact ⟨_, hkeep, fun _ _ => trivial, fun _ _ => trivial, fun _ _ => (Bool.or_false _).symm⟩
  | some b2 =>
    cases x with
    | none => exact ⟨_, rfl, fun _ _ => trivial, fun _ _ => trivial, fun _ _ => rfl⟩
    | some b1 => exact ⟨_, rfl, fun _ _ => trivial, fun _ _ => trivial,
        fun k _ => bmsTest_or b1 b2 k⟩

theorem bucketOr_spec (h1 : bucket1.Sound) (h2 : bucket2.Sound) :
    ∃ r, bucketOr bucket1 bucket2 = some r ∧ r.2.1.Sound ∧ r.2.2.Sound ∧
      ∀ k, slotHolds SbmBucket.mem (chosen (some r.1) r.2.1 r.2.2) k =
        (bucket1.mem k || bucket2.mem k) :=
  mapOr_spec (fun _ _ => True) h1 h2 bitsSegment_pos (fun _ => trivial)
    (fun _ _ => trivial) (fun _ _ hm hn _ => bucketSet_spec hm hn)
    fun x y _ _ => orSegment_spec x y

end

def SbmRoot.mem : SbmRoot → Nat → Bool := Sbm.mem bitsBucket SbmBucket.mem

/-- Numbers are not negative `SLONG`s. -/
def maxNumber : Nat := 2147483648

def SbmRoot.Sound (root : SbmRoot) : Prop := Sbm.Sound 1 65536 maxNumber SbmBucket.Sound root

theorem root_within : maxNumber ≤ bitsBucket * 65536 := by decide

theorem bitsBucket_pos : 0 < bitsBucket := by decide

/-- The length of the vector once it has a slot; nothing if it does not fit a `USHORT`. -/
def rootGrows (maxTail count slot : Nat) : Option Nat :=
  if count ≤ slot then (vectorEnd maxTail count slot).filter (· < 65536) else some count

theorem lt_doubleEnd {slot last d : Nat} (h : doubleEnd slot last = some d) : slot < d := by
  fun_induction doubleEnd slot last with
  | case1 => cases h
  | case2 last hne hle ih => exact ih h
  | case3 last hne hgt =>
    have := Option.some.inj h
    omega

theorem lt_vectorEnd {maxTail count slot last : Nat} (h : vectorEnd maxTail count slot = some last) :
    slot < last := by
  rw [vectorEnd] at h
  split at h
  next =>
    have := Option.some.inj h
    omega
  next htail =>
    obtain ⟨d, hd, rfl⟩ := Option.map_eq_some_iff.mp h
    have := lt_doubleEnd hd
    omega

theorem slotAt_append_replicate {σ : Type} (slots : List (Option σ)) (n i : Nat) :
    slotAt (slots ++ List.replicate n none) i = slotAt slots i := by
  by_cases hi : i < slots.length
  · rw [slotAt, slotAt, List.getElem?_append_left hi]
  · rw [slotAt_of_le (Nat.not_lt.mp hi), slotAt, List.getElem?_append_right (Nat.not_lt.mp hi)]
    exact slotAt_replicate _ _

/-- `ALL_extend` keeps what the vector holds. -/
theorem sbmExtend_spec {maxTail slot c : Nat} {vector : SbmRoot}
    (h : vector.Slots 1 65536 SbmBucket.Sound) (grows : rootGrows maxTail vector.sbmCount slot = some c) :
    ∃ vector', sbmExtend maxTail vector slot = some vector' ∧ vector'.Slots 1 65536 SbmBucket.Sound ∧
      vector'.sbmState = vector.sbmState ∧ vector'.sbmNumber = vector.sbmNumber ∧
      vector'.sbmCount = c ∧ slot < c ∧
      ∀ i, slotAt vector'.sbmSegments i = slotAt vector.sbmSegments i := by
  rw [rootGrows] at grows
  rw [sbmExtend]
  split at grows
  next hshort =>
    obtain ⟨hend, hfits⟩ := Option.filter_eq_some_iff.mp grows
    have hlt := lt_vectorEnd hend
    have halloc := h.allocated
    have hhigh := h.high
    have hushort : ushort c = c := ushort_of_lt (by simpa using hfits)
    have htake : vector.sbmSegments.take c = vector.sbmSegments :=
      List.take_of_length_le (by omega)
    have hsame (i : Nat) : slotAt (vector.sbmSegments ++
        List.replicate (c - vector.sbmSegments.length) none) i = slotAt vector.sbmSegments i :=
      slotAt_append_replicate _ _ i
    rw [if_pos hshort, hend, Option.map_some, htake, hushort]
    have hfew : c < 65536 := by simpa using hfits
    refine ⟨_, rfl, ⟨?_, ?_, ?_, ?_, fun i s hs => ?_, fun i s hs => ?_⟩, rfl, rfl, rfl, hlt, hsame⟩
    · rw [List.length_append, List.length_replicate]
      dsimp only
      omega
    · dsimp only
      omega
    · dsimp only
      omega
    · dsimp only
      omega
    · exact h.covered i s (hsame i ▸ hs)
    · exact h.slots i s (hsame i ▸ hs)
  next hlong =>
    rw [if_neg hlong]
    obtain rfl := Option.some.inj grows
    exact ⟨vector, rfl, h, rfl, rfl, rfl, by omega, fun _ => rfl⟩

section

variable {root root1 root2 : SbmRoot} {number maxTail : Nat}

theorem rootTest_eq (h : root.Sound) (small : number < maxNumber) :
    rootTest root number = some (root.mem number) :=
  mapTest_eq h bitsBucket_pos root_within small fun _ _ hs hr => bucketTest_eq hs hr

theorem rootClear_spec (h : root.Sound) (small : number < maxNumber) :
    ∃ root', rootClear root number = some (root.mem number, root') ∧ root'.Sound ∧
      ∀ n, root'.mem n = (root.mem n && n != number) :=
  mapClear_spec h bitsBucket_pos root_within small fun _ _ hs hr => by
    obtain ⟨bucket, hclear, hsound, hmem⟩ := bucketClear_spec hs hr
    exact ⟨bucket, hclear, hsound, fun j _ => hmem j⟩

theorem rootSet_spec (h : root.Sound) (small : number < maxNumber)
    (settable : root.Settable bitsBucket (rootGrows maxTail) number) :
    ∃ root', rootSet maxTail root number = some root' ∧ root'.Sound ∧
      ∀ n, root'.mem n = (n == number || root.mem n) :=
  mapSet_spec h bitsBucket_pos root_within small settable (fun _ _ _ hv hc => sbmExtend_spec hv hc)
    clearBucket_sound clearBucket_mem fun _ _ hs hr => by
      obtain ⟨bucket, hset, hsound, hmem⟩ := bucketSet_spec hs hr
      exact ⟨bucket, hset, hsound, fun j _ => hmem j⟩

theorem slotSound_some {σ : Type} {sound : σ → Prop} {s : σ} (h : sound s) :
    SlotSound sound (some s) := fun _ ht => Option.some.inj ht ▸ h

theorem slotSound_none {σ : Type} {sound : σ → Prop} : SlotSound sound none := fun _ ht => by
  cases ht

theorem andBucket_spec {x y : Option SbmBucket} (hx : SlotSound SbmBucket.Sound x)
    (hy : SlotSound SbmBucket.Sound y) : ∃ r, andBucket x y = some r ∧
      Merged bitsBucket SbmBucket.Sound SbmBucket.mem and x y r := by
  cases x with
  | none => exact ⟨_, rfl, slotSound_none, hy, fun _ _ => rfl⟩
  | some b1 =>
    cases y with
    | none => exact ⟨_, rfl, slotSound_none, hx, fun k _ => (Bool.and_false (b1.mem k)).symm⟩
    | some b2 =>
      obtain ⟨⟨w, c1, c2⟩, hand, hsound1, hsound2, hmem⟩ := bucketAnd_spec (hx b1 rfl) (hy b2 rfl)
      rw [andBucket, hand, Option.map_some]
      rcases w with _ | _ | _
      · exact ⟨_, rfl, slotSound_none, slotSound_some hsound2, fun k _ => hmem k⟩
      · exact ⟨_, rfl, slotSound_some hsound1, slotSound_some hsound2, fun k _ => hmem k⟩
      · exact ⟨_, rfl, slotSound_some hsound2, slotSound_some hsound1, fun k _ => hmem k⟩

theorem rootAnd_spec (h1 : root1.Sound) (h2 : root2.Sound) :
    ∃ r, rootAnd root1 root2 = some r ∧ r.2.1.Sound ∧ r.2.2.Sound ∧
      ∀ k, slotHolds SbmRoot.mem (chosen r.1 r.2.1 r.2.2) k = (root1.mem k && root2.mem k) :=
  mapAnd_spec h1 h2 bitsBucket_pos (fun _ _ hm hn => rootTest_eq hm hn)
    fun _ _ hx hy => andBucket_spec hx hy

theorem orBucket_spec {x y : Option SbmBucket} (hx : SlotSound SbmBucket.Sound x)
    (hy : SlotSound SbmBucket.Sound y) : ∃ r, orBucket x y = some r ∧
      Merged bitsBucket SbmBucket.Sound SbmBucket.mem or x y r := by
  cases y with
  | none =>
    have hkeep : orBucket x none = some (x, none) := by cases x <;> rfl
    exact ⟨_, hkeep, hx, slotSound_none, fun _ _ => (Bool.or_false _).symm⟩
  | some b2 =>
    cases x with
    | none => exact ⟨_, rfl, hy, slotSound_none, fun _ _ => rfl⟩
    | some b1 =>
      obtain ⟨⟨w, c1, c2⟩, hor, hsound1, hsound2, hmem⟩ := bucketOr_spec (hx b1 rfl) (hy b2 rfl)
      rw [orBucket, hor, Option.map_some]
      rcases w with _ | _
      · exact ⟨_, rfl, slotSound_some hsound1, slotSound_some hsound2, fun k _ => hmem k⟩
      · exact ⟨_, rfl, slotSound_some hsound2, slotSound_some hsound1, fun k _ => hmem k⟩

theorem rootOr_spec (h1 : root1.Sound) (h2 : root2.Sound)
    (set1 : root1.sbmState = .singular →
      root2.Settable bitsBucket (rootGrows maxTail) root1.sbmNumber)
    (set2 : root1.sbmState ≠ .singular → root2.sbmState = .singular →
      root1.Settable bitsBucket (rootGrows maxTail) root2.sbmNumber) :
    ∃ r, rootOr maxTail root1 root2 = some r ∧ r.2.1.Sound ∧ r.2.2.Sound ∧
      ∀ k, slotHolds SbmRoot.mem (chosen (some r.1) r.2.1 r.2.2) k =
        (root1.mem k || root2.mem k) :=
  mapOr_spec (fun root => root.Settable bitsBucket (rootGrows maxTail)) h1 h2 bitsBucket_pos set1
    set2 (fun _ _ hm hn hs => rootSet_spec hm hn hs) fun _ _ hx hy => orBucket_spec hx hy

end

/-- What `SBM_test` finds in a bitmap. -/
def sbmMembers (bitmap : Option SbmRoot) : Set Nat :=
  {n | n < maxNumber ∧ sbmTest bitmap n = some true}

/-- The vector grows, if it has to, to fewer than 65536 slots. -/
def Settable (maxTail : Nat) : Option SbmRoot → Nat → Prop
  | none, _ => True
  | some vector, number => vector.Settable bitsBucket (rootGrows maxTail) number

/-- `SBM_or` sets the number of a singular bitmap in the other one. -/
def Joinable (maxTail : Nat) : Option SbmRoot → Option SbmRoot → Prop
  | some map1, some map2 =>
    (map1.sbmState = .singular → Settable maxTail (some map2) map1.sbmNumber) ∧
      (map1.sbmState ≠ .singular → map2.sbmState = .singular →
        Settable maxTail (some map1) map2.sbmNumber)
  | _, _ => True

/-- The bitmaps that the operations make, whichever operand's storage they are in. -/
inductive SbmReachable (maxTail : Nat) : Option SbmRoot → Prop where
  | null : SbmReachable maxTail none
  | set {bitmap bitmap' number} : SbmReachable maxTail bitmap → number < maxNumber →
      Settable maxTail bitmap number → sbmSet maxTail bitmap number = some bitmap' →
      SbmReachable maxTail bitmap'
  | clear {bitmap found bitmap' number} : SbmReachable maxTail bitmap → number < maxNumber →
      sbmClear bitmap number = some (found, bitmap') → SbmReachable maxTail bitmap'
  | and_first {bitmap1 bitmap2 r} : SbmReachable maxTail bitmap1 → SbmReachable maxTail bitmap2 →
      sbmAnd bitmap1 bitmap2 = some r → SbmReachable maxTail r.2.1
  | and_second {bitmap1 bitmap2 r} : SbmReachable maxTail bitmap1 → SbmReachable maxTail bitmap2 →
      sbmAnd bitmap1 bitmap2 = some r → SbmReachable maxTail r.2.2
  | or_first {bitmap1 bitmap2 r} : SbmReachable maxTail bitmap1 → SbmReachable maxTail bitmap2 →
      Joinable maxTail bitmap1 bitmap2 → sbmOr maxTail bitmap1 bitmap2 = some r →
      SbmReachable maxTail r.2.1
  | or_second {bitmap1 bitmap2 r} : SbmReachable maxTail bitmap1 → SbmReachable maxTail bitmap2 →
      Joinable maxTail bitmap1 bitmap2 → sbmOr maxTail bitmap1 bitmap2 = some r →
      SbmReachable maxTail r.2.2

/-- The bitmap that an operation returns. -/
def sbmResult : Option Operand → Option SbmRoot → Option SbmRoot → Option SbmRoot
  | none, _, _ => none
  | some .first, bitmap1, _ => bitmap1
  | some .second, _, bitmap2 => bitmap2

def SbmSound (bitmap : Option SbmRoot) : Prop := ∀ root, bitmap = some root → root.Sound

section

variable {bitmap bitmap1 bitmap2 : Option SbmRoot} {number maxTail : Nat}

theorem sbmTest_eq (h : SbmSound bitmap) (small : number < maxNumber) :
    sbmTest bitmap number = some (slotHolds SbmRoot.mem bitmap number) := by
  cases bitmap with
  | none => rfl
  | some root => exact rootTest_eq (h root rfl) small

theorem mem_sbmMembers (h : SbmSound bitmap) :
    number ∈ sbmMembers bitmap ↔
      number < maxNumber ∧ slotHolds SbmRoot.mem bitmap number = true := by
  constructor
  · rintro ⟨hn, ht⟩
    rw [sbmTest_eq h hn] at ht
    exact ⟨hn, Option.some.inj ht⟩
  · rintro ⟨hn, ht⟩
    exact ⟨hn, by rw [sbmTest_eq h hn, ht]⟩

theorem sbmSet_spec (h : SbmSound bitmap) (small : number < maxNumber)
    (settable : Settable maxTail bitmap number) :
    ∃ bitmap', sbmSet maxTail bitmap number = some bitmap' ∧ SbmSound bitmap' ∧
      sbmMembers bitmap' = insert number (sbmMembers bitmap) := by
  obtain ⟨bitmap', hset, hsound, hmem⟩ : ∃ bitmap', sbmSet maxTail bitmap number = some bitmap' ∧
      SbmSound bitmap' ∧ ∀ n, slotHolds SbmRoot.mem bitmap' n =
        (n == number || slotHolds SbmRoot.mem bitmap n) := by
    cases bitmap with
    | none =>
      refine ⟨_, rfl, ?_, fun n => ?_⟩
      · rintro root he
        obtain rfl := Option.some.inj he
        refine ⟨⟨List.length_replicate, by simp, by simp, by simp, fun i s hs => ?_, fun i s hs => ?_⟩,
          fun _ i => slotAt_replicate _ i, small⟩
        all_goals
          rw [slotAt_replicate] at hs
          cases hs
      · rw [slotHolds, slotHolds, Bool.or_false]
        rfl
    | some root =>
      obtain ⟨root', hset, hsound, hmem⟩ := rootSet_spec (h root rfl) small settable
      exact ⟨some root', by rw [sbmSet, hset]; rfl, slotSound_some hsound, hmem⟩
  refine ⟨bitmap', hset, hsound, Set.ext fun n => ?_⟩
  rw [Set.mem_insert_iff, mem_sbmMembers hsound, mem_sbmMembers h, hmem, Bool.or_eq_true,
    beq_iff_eq]
  constructor
  · rintro ⟨hn, he | hin⟩
    · exact Or.inl he
    · exact Or.inr ⟨hn, hin⟩
  · rintro (rfl | ⟨hn, hin⟩)
    · exact ⟨small, Or.inl rfl⟩
    · exact ⟨hn, Or.inr hin⟩

theorem sbmClear_spec (h : SbmSound bitmap) (small : number < maxNumber) :
    ∃ found bitmap', sbmClear bitmap number = some (found, bitmap') ∧ SbmSound bitmap' ∧
      (found = true ↔ number ∈ sbmMembers bitmap) ∧
      sbmMembers bitmap' = sbmMembers bitmap \ {number} := by
  obtain ⟨bitmap', hclear, hsound, hmem⟩ : ∃ bitmap', sbmClear bitmap number =
      some (slotHolds SbmRoot.mem bitmap number, bitmap') ∧ SbmSound bitmap' ∧
      ∀ n, slotHolds SbmRoot.mem bitmap' n = (slotHolds SbmRoot.mem bitmap n && n != number) := by
    cases bitmap with
    | none => exact ⟨none, rfl, slotSound_none, fun _ => rfl⟩
    | some root =>
      obtain ⟨root', hclear, hsound, hmem⟩ := rootClear_spec (h root rfl) small
      exact ⟨some root', by rw [sbmClear, hclear]; rfl, slotSound_some hsound, hmem⟩
  refine ⟨_, bitmap', hclear, hsound, ?_, Set.ext fun n => ?_⟩
  · rw [mem_sbmMembers h]
    exact ⟨fun hin => ⟨small, hin⟩, fun hin => hin.2⟩
  · rw [Set.mem_sdiff, Set.mem_singleton_iff, mem_sbmMembers hsound, mem_sbmMembers h, hmem,
      Bool.and_eq_true, bne_iff_ne]
    exact and_assoc.symm

theorem sbmAnd_spec (h1 : SbmSound bitmap1) (h2 : SbmSound bitmap2) :
    ∃ r, sbmAnd bitmap1 bitmap2 = some r ∧ SbmSound r.2.1 ∧ SbmSound r.2.2 ∧
      sbmMembers (sbmResult r.1 r.2.1 r.2.2) = sbmMembers bitmap1 ∩ sbmMembers bitmap2 := by
  obtain ⟨r, hand, hsound1, hsound2, hmem⟩ : ∃ r, sbmAnd bitmap1 bitmap2 = some r ∧
      SbmSound r.2.1 ∧ SbmSound r.2.2 ∧ ∀ n, slotHolds SbmRoot.mem (sbmResult r.1 r.2.1 r.2.2) n =
        (slotHolds SbmRoot.mem bitmap1 n && slotHolds SbmRoot.mem bitmap2 n) := by
    cases bitmap1 with
    | none => exact ⟨_, rfl, h1, h2, fun _ => rfl⟩
    | some root1 =>
      cases bitmap2 with
      | none => exact ⟨_, rfl, h1, h2, fun n => (Bool.and_false (root1.mem n)).symm⟩
      | some root2 =>
        obtain ⟨⟨w, c1, c2⟩, hand, hs1, hs2, hmem⟩ := rootAnd_spec (h1 root1 rfl) (h2 root2 rfl)
        refine ⟨(w, some c1, some c2), by rw [sbmAnd, hand, Option.map_some], slotSound_some hs1,
          slotSound_some hs2, fun n => ?_⟩
        refine Eq.trans ?_ (hmem n)
        rcases w with _ | _ | _ <;> rfl
  have hresult : SbmSound (sbmResult r.1 r.2.1 r.2.2) := by
    rcases r.1 with _ | _ | _
    · exact slotSound_none
    · exact hsound1
    · exact hsound2
  refine ⟨r, hand, hsound1, hsound2, Set.ext fun n => ?_⟩
  rw [Set.mem_inter_iff, mem_sbmMembers hresult, mem_sbmMembers h1, mem_sbmMembers h2, hmem,
    Bool.and_eq_true]
  exact and_and_left

theorem sbmOr_spec (h1 : SbmSound bitmap1) (h2 : SbmSound bitmap2)
    (joinable : Joinable maxTail bitmap1 bitmap2) :
    ∃ r, sbmOr maxTail bitmap1 bitmap2 = some r ∧ SbmSound r.2.1 ∧ SbmSound r.2.2 ∧
      sbmMembers (sbmResult (some r.1) r.2.1 r.2.2) =
        sbmMembers bitmap1 ∪ sbmMembers bitmap2 := by
  obtain ⟨r, hor, hsound1, hsound2, hmem⟩ : ∃ r, sbmOr maxTail bitmap1 bitmap2 = some r ∧
      SbmSound r.2.1 ∧ SbmSound r.2.2 ∧
      ∀ n, slotHolds SbmRoot.mem (sbmResult (some r.1) r.2.1 r.2.2) n =
        (slotHolds SbmRoot.mem bitmap1 n || slotHolds SbmRoot.mem bitmap2 n) := by
    cases bitmap1 with
    | none => exact ⟨_, rfl, h1, h2, fun _ => rfl⟩
    | some root1 =>
      cases bitmap2 with
      | none => exact ⟨_, rfl, h1, h2, fun n => (Bool.or_false (root1.mem n)).symm⟩
      | some root2 =>
        obtain ⟨⟨w, c1, c2⟩, hor, hs1, hs2, hmem⟩ := rootOr_spec (h1 root1 rfl) (h2 root2 rfl)
          joinable.1 joinable.2
        refine ⟨(w, some c1, some c2), by rw [sbmOr, hor, Option.map_some], slotSound_some hs1,
          slotSound_some hs2, fun n => ?_⟩
        refine Eq.trans ?_ (hmem n)
        rcases w with _ | _ <;> rfl
  have hresult : SbmSound (sbmResult (some r.1) r.2.1 r.2.2) := by
    rcases r.1 with _ | _
    · exact hsound1
    · exact hsound2
  refine ⟨r, hor, hsound1, hsound2, Set.ext fun n => ?_⟩
  rw [Set.mem_union, mem_sbmMembers hresult, mem_sbmMembers h1, mem_sbmMembers h2, hmem,
    Bool.or_eq_true]
  exact and_or_left

end

theorem SbmReachable.sound {maxTail : Nat} {bitmap : Option SbmRoot}
    (h : SbmReachable maxTail bitmap) : SbmSound bitmap := by
  induction h with
  | null => exact slotSound_none
  | set _ hn hs hset ih =>
    obtain ⟨_, hspec, hsound, -⟩ := sbmSet_spec ih hn hs
    exact Option.some.inj (hspec.symm.trans hset) ▸ hsound
  | clear _ hn hclear ih =>
    obtain ⟨_, _, hspec, hsound, -⟩ := sbmClear_spec ih hn
    exact (Prod.mk.inj (Option.some.inj (hspec.symm.trans hclear))).2 ▸ hsound
  | and_first _ _ hand ih1 ih2 =>
    obtain ⟨_, hspec, hsound, -⟩ := sbmAnd_spec ih1 ih2
    exact Option.some.inj (hspec.symm.trans hand) ▸ hsound
  | and_second _ _ hand ih1 ih2 =>
    obtain ⟨_, hspec, -, hsound, -⟩ := sbmAnd_spec ih1 ih2
    exact Option.some.inj (hspec.symm.trans hand) ▸ hsound
  | or_first _ _ hj hor ih1 ih2 =>
    obtain ⟨_, hspec, hsound, -⟩ := sbmOr_spec ih1 ih2 hj
    exact Option.some.inj (hspec.symm.trans hor) ▸ hsound
  | or_second _ _ hj hor ih1 ih2 =>
    obtain ⟨_, hspec, -, hsound, -⟩ := sbmOr_spec ih1 ih2 hj
    exact Option.some.inj (hspec.symm.trans hor) ▸ hsound

/-- What the operations do to the members of two bitmaps. -/
structure SetAlgebra (maxTail : Nat) (bitmap1 bitmap2 : Option SbmRoot) : Prop where
  test : ∀ n < maxNumber, ∃ found, sbmTest bitmap1 n = some found
  set : ∀ n < maxNumber, Settable maxTail bitmap1 n → ∃ bitmap,
    sbmSet maxTail bitmap1 n = some bitmap ∧
      sbmMembers bitmap = insert n (sbmMembers bitmap1)
  clear : ∀ n < maxNumber, ∃ found bitmap, sbmClear bitmap1 n = some (found, bitmap) ∧
    (found = true ↔ n ∈ sbmMembers bitmap1) ∧ sbmMembers bitmap = sbmMembers bitmap1 \ {n}
  and : ∃ r, sbmAnd bitmap1 bitmap2 = some r ∧
    sbmMembers (sbmResult r.1 r.2.1 r.2.2) = sbmMembers bitmap1 ∩ sbmMembers bitmap2
  or : Joinable maxTail bitmap1 bitmap2 → ∃ r, sbmOr maxTail bitmap1 bitmap2 = some r ∧
    sbmMembers (sbmResult (some r.1) r.2.1 r.2.2) = sbmMembers bitmap1 ∪ sbmMembers bitmap2

theorem sbmReachable_setAlgebra {maxTail : Nat} {bitmap1 bitmap2 : Option SbmRoot}
    (h1 : SbmReachable maxTail bitmap1) (h2 : SbmReachable maxTail bitmap2) :
    SetAlgebra maxTail bitmap1 bitmap2 := by
  refine ⟨fun n hn => ⟨_, sbmTest_eq h1.sound hn⟩, fun n hn hs => ?_, fun n hn => ?_, ?_,
    fun hj => ?_⟩
  · obtain ⟨bitmap, hset, -, hmem⟩ := sbmSet_spec h1.sound hn hs
    exact ⟨bitmap, hset, hmem⟩
  · obtain ⟨found, bitmap, hclear, -, hfound, hmem⟩ := sbmClear_spec h1.sound hn
    exact ⟨found, bitmap, hclear, hfound, hmem⟩
  · obtain ⟨r, hand, -, -, hmem⟩ := sbmAnd_spec h1.sound h2.sound
    exact ⟨r, hand, hmem⟩
  · obtain ⟨r, hor, -, -, hmem⟩ := sbmOr_spec h1.sound h2.sound hj
    exact ⟨r, hor, hmem⟩

/-- `SBM_max_tail` where pointers have four bytes. -/
def sbmMaxTail : Nat := 65267

theorem sbmMembers_none : sbmMembers none = ∅ := by
  ext n
  simp [mem_sbmMembers slotSound_none, slotHolds]

/-- Two plural bitmaps that share the bucket of 40000. -/
theorem sbmReachable_setAlgebra_shared : ∃ bitmap1 bitmap2,
    sbmMembers bitmap1 = {40000, 5} ∧ sbmMembers bitmap2 = {40001, 40000} ∧
    Settable sbmMaxTail bitmap1 70000 ∧ Joinable sbmMaxTail bitmap1 bitmap2 ∧
    SetAlgebra sbmMaxTail bitmap1 bitmap2 := by
  obtain ⟨one, set1, sound1, members1⟩ := sbmSet_spec slotSound_none (by decide : 5 < maxNumber)
    (show Settable sbmMaxTail none 5 from trivial)
  obtain rfl := Option.some.inj set1
  obtain ⟨two, set2, -, members2⟩ := sbmSet_spec sound1 (by decide : 40000 < maxNumber)
    (⟨_, rfl, _, rfl⟩ :
      Settable sbmMaxTail (some ⟨.singular, 5, 0, 5, List.replicate 5 none⟩) 40000)
  obtain rfl := Option.some.inj set2
  obtain ⟨three, set3, sound3, members3⟩ := sbmSet_spec slotSound_none
    (by decide : 40000 < maxNumber) (show Settable sbmMaxTail none 40000 from trivial)
  obtain rfl := Option.some.inj set3
  obtain ⟨four, set4, -, members4⟩ := sbmSet_spec sound3 (by decide : 40001 < maxNumber)
    (⟨_, rfl, _, rfl⟩ :
      Settable sbmMaxTail (some ⟨.singular, 5, 0, 40000, List.replicate 5 none⟩) 40001)
  obtain rfl := Option.some.inj set4
  rw [members1, sbmMembers_none, insert_empty_eq] at members2
  rw [members3, sbmMembers_none, insert_empty_eq] at members4
  refine ⟨_, _, members2, members4, ⟨_, rfl⟩, ?_, ?_⟩
  · exact ⟨fun single => (by cases single), fun _ single => (by cases single)⟩
  · have reach1 := (SbmReachable.set .null (by decide : 5 < maxNumber) trivial set1).set
      (by decide) ⟨_, rfl, _, rfl⟩ set2
    have reach2 := (SbmReachable.set .null (by decide : 40000 < maxNumber) trivial set3).set
      (by decide) ⟨_, rfl, _, rfl⟩ set4
    exact sbmReachable_setAlgebra reach1 reach2

theorem mapPut_keeps {σ : Type} {size number : Nat} {fresh : σ} {setSlot : σ → Nat → Option σ}
    {vector vector' : Sbm σ} (h : mapPut size fresh setSlot vector number = some vector') :
    vector'.sbmCount = vector.sbmCount ∧ vector'.sbmNumber = vector.sbmNumber := by
  rw [mapPut] at h
  split at h
  next => cases h
  next =>
    obtain ⟨s, -, rfl⟩ := Option.map_eq_some_iff.mp h
    exact ⟨rfl, rfl⟩
  next =>
    obtain ⟨s, -, rfl⟩ := Option.map_eq_some_iff.mp h
    exact ⟨rfl, rfl⟩

/-- A vector without slots, as `sbm_count` has it, cannot be extended. -/
theorem sbmExtend_stuck {maxTail slot : Nat} {vector : SbmRoot} (empty : vector.sbmCount = 0)
    (short : slot < maxTail) : sbmExtend maxTail vector slot = none := by
  rw [sbmExtend, if_pos (by omega), vectorEnd, if_neg (by omega), empty, doubleEnd, if_pos rfl]
  rfl

/-- After it has been extended to 65536 slots the vector has none for the next `SBM_set`, here the
one of the number that the bitmap had. -/
theorem sbmSet_wraps : ∃ bitmap, sbmSet sbmMaxTail none 0 = some bitmap ∧
    sbmSet sbmMaxTail bitmap 2147319808 = none := by
  refine ⟨_, rfl, ?_⟩
  have hslot : ushort (2147319808 / bitsBucket) = 65531 := rfl
  rw [sbmSet, rootSet, mapSet]
  dsimp only
  rw [hslot, sbmExtend, if_pos (by decide), vectorEnd, if_pos (by decide), Option.map_some,
    Option.bind_some]
  cases hput : mapPut bitsBucket clearBucket bucketSet _ 2147319808 with
  | none => rfl
  | some vector =>
    obtain ⟨hcount, hnumber⟩ := mapPut_keeps hput
    have hstuck : sbmExtend sbmMaxTail { vector with sbmState := .plural }
        (ushort (vector.sbmNumber / bitsBucket)) = none := by
      rw [hnumber]
      exact sbmExtend_stuck hcount (by decide)
    rw [Option.bind_some, hstuck]
    rfl

end InterBase
