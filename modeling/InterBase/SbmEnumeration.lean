import InterBase.SbmIteration

namespace InterBase

open Search

/-- Calls of `SBM_next`, each from the number that the one before has found. -/
inductive Enumerates (mode : RseGetMode) :
    Option SbmRoot → Int → List Nat → Option SbmRoot → Prop where
  | stop {bitmap number bitmap'} : sbmNext mode bitmap number = some (none, bitmap') →
      Enumerates mode bitmap number [] bitmap'
  | step {bitmap number k bitmap' ks bitmap''} :
      sbmNext mode bitmap number = some (some k, bitmap') →
      Enumerates mode bitmap' k ks bitmap'' → Enumerates mode bitmap number (k :: ks) bitmap''

/-- The bitmaps that the calls leave behind. -/
inductive ScanReaches (mode : RseGetMode) :
    Option SbmRoot → Int → Option SbmRoot → Prop where
  | start {bitmap number} : ScanReaches mode bitmap number bitmap
  | stop {bitmap number bitmap'} : sbmNext mode bitmap number = some (none, bitmap') →
      ScanReaches mode bitmap number bitmap'
  | step {bitmap number k bitmap' bitmap''} :
      sbmNext mode bitmap number = some (some k, bitmap') →
      ScanReaches mode bitmap' k bitmap'' → ScanReaches mode bitmap number bitmap''

/-- Repeated calls find what `wanted` says, in order, and leave the members as they are. -/
structure Scans (mode : RseGetMode) (order : Nat → Nat → Prop) (wanted : Set Nat)
    (bitmap : Option SbmRoot) (number : Int) : Prop where
  found : ∃ ks bitmap', Enumerates mode bitmap number ks bitmap' ∧ ks.Pairwise order ∧
    ∀ k, k ∈ ks ↔ k ∈ wanted
  kept : ∀ bitmap', ScanReaches mode bitmap number bitmap' →
    sbmMembers bitmap' = sbmMembers bitmap

/-- The bucket of a member is singular. -/
def SbmLone (bitmap : Option SbmRoot) (n : Nat) : Prop :=
  n ∈ sbmMembers bitmap ∧ slotHolds SbmRoot.lone bitmap n = true

/-- The number after the one to start from is alone in its bucket, and not the bucket's first. -/
def SkipsUp (bitmap : Option SbmRoot) (number : Int) : Prop :=
  ∃ m : Nat, (m : Int) = number + 1 ∧ m % bitsBucket ≠ 0 ∧ SbmLone bitmap m

/-- A member that is alone in its bucket is followed by another one. -/
def SkipsDown (bitmap : Option SbmRoot) : Prop :=
  ∃ m, SbmLone bitmap m ∧ m + 1 ∈ sbmMembers bitmap

section

variable {bitmap bitmap' bitmap'' : Option SbmRoot} {number : Int}

/-- A bitmap that has been searched. -/
structure SameMembers (bitmap bitmap' : Option SbmRoot) : Prop where
  sound : SbmSound bitmap'
  members : sbmMembers bitmap' = sbmMembers bitmap
  lone : ∀ n, SbmLone bitmap' n ↔ SbmLone bitmap n

theorem SameMembers.of_kept {root root' : SbmRoot} (h : root.Sound) (h' : root'.Sound)
    (kept : root.Kept bitsBucket 1 65536 SbmBucket.Sound SbmBucket.mem Sbm.single root') :
    SameMembers (some root) (some root') := by
  have hmembers : sbmMembers (some root') = sbmMembers (some root) := by
    ext n
    rw [mem_sbmMembers (slotSound_some h'), mem_sbmMembers (slotSound_some h), slotHolds, slotHolds,
      SbmRoot.mem, kept.mem]
  refine ⟨slotSound_some h', hmembers, fun n => ?_⟩
  rw [SbmLone, SbmLone, hmembers, slotHolds, slotHolds, kept.loneRoot]

theorem SameMembers.trans (h : SameMembers bitmap bitmap') (h' : SameMembers bitmap' bitmap'') :
    SameMembers bitmap bitmap'' :=
  ⟨h'.sound, h'.members.trans h.members, fun n => (h'.lone n).trans (h.lone n)⟩

/-- What a call upwards can end at. -/
def AfterUp (bitmap : Option SbmRoot) (number : Int) (m : Nat) : Prop :=
  m ∈ sbmMembers bitmap ∧ number < m ∧
    ¬((m : Int) = number + 1 ∧ m % bitsBucket ≠ 0 ∧ SbmLone bitmap m)

/-- What a call downwards can end at. -/
def BeforeDown (bitmap : Option SbmRoot) (number : Int) (m : Nat) : Prop :=
  m ∈ sbmMembers bitmap ∧ (number = -1 ∨ m < number) ∧
    ¬((m : Int) + 1 = number ∧ SbmLone bitmap m)

theorem mem_root {root : SbmRoot} (h : root.Sound) (m : Nat) :
    m ∈ sbmMembers (some root) ↔ m < maxNumber ∧ root.mem m = true :=
  mem_sbmMembers (slotSound_some h)

theorem sbmNext_forward (h : SbmSound bitmap) (low : -1 ≤ number) (high : number < maxNumber) :
    ∃ r bitmap', sbmNext .forward bitmap number = some (r, bitmap') ∧ SameMembers bitmap bitmap' ∧
      Least (AfterUp bitmap number) r := by
  cases bitmap with
  | none =>
    refine ⟨none, none, rfl, ⟨h, rfl, fun n => Iff.rfl⟩, fun m hm => ?_⟩
    have hmem := ((mem_sbmMembers h).mp hm.1).2
    cases hmem
  | some root =>
    have hroot := h root rfl
    obtain ⟨r, root', hnext, hsound, hkept, hfirst⟩ := rootNext_forward hroot low high
    refine ⟨r, some root', by rw [sbmNext, hnext]; rfl, .of_kept hroot hsound hkept,
      hfirst.least fun m => ?_⟩
    rw [AfterUp, SbmLone, mem_root hroot, slotHolds]
    simp only [Bool.and_eq_true, Bool.not_eq_true', Bool.and_eq_false_iff, decide_eq_true_eq,
      decide_eq_false_iff_not]
    cases root.lone m <;> tauto

theorem sbmNext_backward (h : SbmSound bitmap)
    (start : number = -1 ∨ ∃ k : Nat, number = k ∧ k ∈ sbmMembers bitmap) :
    ∃ r bitmap', sbmNext .backward bitmap number = some (r, bitmap') ∧
      SameMembers bitmap bitmap' ∧ Greatest (BeforeDown bitmap number) r := by
  cases bitmap with
  | none =>
    refine ⟨none, none, rfl, ⟨h, rfl, fun n => Iff.rfl⟩, fun m hm => ?_⟩
    have hmem := ((mem_sbmMembers h).mp hm.1).2
    cases hmem
  | some root =>
    have hroot := h root rfl
    have hstart : number = -1 ∨ ∃ k : Nat, number = k ∧ root.mem k = true := by
      rcases start with hend | ⟨k, hk, hmem⟩
      · exact Or.inl hend
      · exact Or.inr ⟨k, hk, ((mem_root hroot k).mp hmem).2⟩
    obtain ⟨r, root', hnext, hsound, hkept, hlast⟩ := rootNext_backward hroot hstart
    refine ⟨r, some root', by rw [sbmNext, hnext]; rfl, .of_kept hroot hsound hkept,
      hlast.greatest fun m => ?_⟩
    rw [BeforeDown, SbmLone, mem_root hroot, slotHolds]
    simp only [Bool.and_eq_true, Bool.not_eq_true', Bool.and_eq_false_iff, decide_eq_true_eq,
      decide_eq_false_iff_not]
    cases root.lone m <;> tauto

/-- A member that is alone in its bucket is the only one there. -/
theorem SbmLone.unique (h : SbmSound bitmap) {m k : Nat} (lone : SbmLone bitmap m)
    (hk : k ∈ sbmMembers bitmap) (bucket : k / bitsBucket = m / bitsBucket) : k = m := by
  obtain ⟨root, rfl⟩ : ∃ root, bitmap = some root := by
    cases bitmap with
    | none => cases lone.2
    | some root => exact ⟨root, rfl⟩
  obtain ⟨hstate, hlone⟩ := (Bool.and_eq_true_iff).mp lone.2
  have hmem := ((mem_root (h root rfl) k).mp hk).2
  rw [SbmRoot.mem, Sbm.mem_plural (eq_of_beq hstate), slotsHold, bucket] at hmem
  rw [slotsHold] at hlone
  cases hs : slotAt root.sbmSegments (m / bitsBucket) with
  | none =>
    rw [hs] at hmem
    cases hmem
  | some s =>
    rw [hs] at hmem hlone
    obtain ⟨hm, hsingle⟩ := (Bool.and_eq_true_iff).mp hlone
    rw [SbmBucket.mem, Sbm.mem_singular (eq_of_beq hsingle)] at hm
    rw [slotHolds, SbmBucket.mem, Sbm.mem_singular (eq_of_beq hsingle)] at hmem
    rw [← Nat.div_add_mod k bitsBucket, bucket, eq_of_beq hmem, ← eq_of_beq hm, Nat.div_add_mod]

/-- Once the search is at a member it skips none. -/
theorem not_skipsUp (h : SbmSound bitmap) {k : Nat} (hk : k ∈ sbmMembers bitmap) :
    ¬SkipsUp bitmap k := by
  rintro ⟨m, hm, hoffset, hlone⟩
  have hsucc : m = k + 1 := by omega
  have hbucket : k / bitsBucket = m / bitsBucket := by
    rw [hsucc] at hoffset ⊢
    exact (Nat.succ_div_of_not_dvd fun hdvd => hoffset (Nat.mod_eq_zero_of_dvd hdvd)).symm
  have := hlone.unique h hk hbucket
  omega

theorem afterUp_iff (unskipped : ¬SkipsUp bitmap number) (m : Nat) :
    AfterUp bitmap number m ↔ m ∈ sbmMembers bitmap ∧ number < m := by
  rw [AfterUp]
  constructor
  · exact fun hm => ⟨hm.1, hm.2.1⟩
  · exact fun hm => ⟨hm.1, hm.2, fun hskip => unskipped ⟨m, hskip⟩⟩

theorem beforeDown_iff (unskipped : ¬SkipsDown bitmap)
    (start : number = -1 ∨ ∃ k : Nat, number = k ∧ k ∈ sbmMembers bitmap) (m : Nat) :
    BeforeDown bitmap number m ↔ m ∈ sbmMembers bitmap ∧ (number = -1 ∨ m < number) := by
  rw [BeforeDown]
  constructor
  · exact fun hm => ⟨hm.1, hm.2.1⟩
  · refine fun hm => ⟨hm.1, hm.2, fun hskip => ?_⟩
    rcases start with hend | ⟨k, hk, hmem⟩
    · omega
    · obtain ⟨hnext, hlone⟩ := hskip
      have hsucc : k = m + 1 := by omega
      exact unskipped ⟨m, hlone, hsucc ▸ hmem⟩

theorem enumerates_forward (h : SbmSound bitmap) (low : -1 ≤ number) (high : number < maxNumber)
    (unskipped : ¬SkipsUp bitmap number) :
    ∃ ks bitmap', Enumerates .forward bitmap number ks bitmap' ∧ ks.Pairwise (· < ·) ∧
      ∀ k, k ∈ ks ↔ k ∈ sbmMembers bitmap ∧ number < k := by
  induction hm : (maxNumber - number).toNat using Nat.strongRecOn generalizing bitmap number with
  | ind m ih =>
  obtain ⟨r, bitmap', hnext, hsame, hleast⟩ := sbmNext_forward h low high
  cases r with
  | none =>
    refine ⟨[], bitmap', .stop hnext, .nil, fun k => ?_⟩
    rw [← afterUp_iff unskipped]
    exact ⟨fun hk => absurd hk List.not_mem_nil, fun hk => absurd hk (hleast k)⟩
  | some k =>
    obtain ⟨hafter, hle⟩ := hleast
    obtain ⟨hk, hlt⟩ := (afterUp_iff unskipped k).mp hafter
    have hk' : k ∈ sbmMembers bitmap' := hsame.members ▸ hk
    have hsmall : k < maxNumber := hk.1
    obtain ⟨ks, bitmap'', hrest, hsorted, hall⟩ := ih _ (by omega) hsame.sound (by omega)
      (by omega) (not_skipsUp hsame.sound hk') rfl
    rw [hsame.members] at hall
    refine ⟨k :: ks, bitmap'', .step hnext hrest, List.pairwise_cons.mpr ⟨fun j hj => ?_, hsorted⟩,
      fun j => ?_⟩
    · have := ((hall j).mp hj).2
      omega
    · rw [List.mem_cons, hall]
      constructor
      · rintro (rfl | ⟨hj, hkj⟩)
        · exact ⟨hk, hlt⟩
        · exact ⟨hj, by omega⟩
      · rintro ⟨hj, hnj⟩
        have hkj : k ≤ j := hle j ((afterUp_iff unskipped j).mpr ⟨hj, hnj⟩)
        rcases Nat.lt_or_eq_of_le hkj with hlt' | heq
        · exact Or.inr ⟨hj, by omega⟩
        · exact Or.inl heq.symm

theorem SameMembers.not_skipsDown (h : SameMembers bitmap bitmap') (unskipped : ¬SkipsDown bitmap) :
    ¬SkipsDown bitmap' := by
  rintro ⟨m, hlone, hm⟩
  exact unskipped ⟨m, (h.lone m).mp hlone, h.members ▸ hm⟩

theorem enumerates_backward (h : SbmSound bitmap)
    (start : number = -1 ∨ ∃ k : Nat, number = k ∧ k ∈ sbmMembers bitmap)
    (unskipped : ¬SkipsDown bitmap) :
    ∃ ks bitmap', Enumerates .backward bitmap number ks bitmap' ∧ ks.Pairwise (· > ·) ∧
      ∀ k, k ∈ ks ↔ k ∈ sbmMembers bitmap ∧ (number = -1 ∨ k < number) := by
  induction hm : (if number = -1 then maxNumber else number.toNat) using Nat.strongRecOn
    generalizing bitmap number with
  | ind m ih =>
  obtain ⟨r, bitmap', hnext, hsame, hgreatest⟩ := sbmNext_backward h start
  cases r with
  | none =>
    refine ⟨[], bitmap', .stop hnext, .nil, fun k => ?_⟩
    rw [← beforeDown_iff unskipped start]
    exact ⟨fun hk => absurd hk List.not_mem_nil, fun hk => absurd hk (hgreatest k)⟩
  | some k =>
    obtain ⟨hbefore, hge⟩ := hgreatest
    obtain ⟨hk, hlt⟩ := (beforeDown_iff unskipped start k).mp hbefore
    have hk' : k ∈ sbmMembers bitmap' := hsame.members ▸ hk
    have hsmall : k < maxNumber := hk.1
    have hnat : ¬(k : Int) = -1 := by omega
    have hless : (if (k : Int) = -1 then maxNumber else (k : Int).toNat) < m := by
      rw [if_neg hnat, ← hm]
      split <;> omega
    obtain ⟨ks, bitmap'', hrest, hsorted, hall⟩ := ih _ hless hsame.sound (Or.inr ⟨k, rfl, hk'⟩)
      (hsame.not_skipsDown unskipped) rfl
    rw [hsame.members] at hall
    refine ⟨k :: ks, bitmap'', .step hnext hrest, List.pairwise_cons.mpr ⟨fun j hj => ?_, hsorted⟩,
      fun j => ?_⟩
    · have := ((hall j).mp hj).2
      omega
    · rw [List.mem_cons, hall]
      constructor
      · rintro (rfl | ⟨hj, hkj⟩)
        · exact ⟨hk, hlt⟩
        · exact ⟨hj, by omega⟩
      · rintro ⟨hj, hnj⟩
        have hjk : j ≤ k := hge j ((beforeDown_iff unskipped start j).mpr ⟨hj, hnj⟩)
        rcases Nat.lt_or_eq_of_le hjk with hlt' | heq
        · exact Or.inr ⟨hj, by omega⟩
        · exact Or.inl heq

/-- Freeing what is empty on the way never changes the members. -/
theorem ScanReaches.members_forward (reach : ScanReaches .forward bitmap number bitmap')
    (h : SbmSound bitmap) (low : -1 ≤ number) (high : number < maxNumber) :
    sbmMembers bitmap' = sbmMembers bitmap := by
  induction reach with
  | start => rfl
  | stop hnext =>
    obtain ⟨r, bitmap', hspec, hsame, -⟩ := sbmNext_forward h low high
    obtain ⟨-, rfl⟩ := Prod.mk.inj (Option.some.inj (hspec.symm.trans hnext))
    exact hsame.members
  | step hnext _ ih =>
    obtain ⟨r, bitmap', hspec, hsame, hleast⟩ := sbmNext_forward h low high
    obtain ⟨rfl, rfl⟩ := Prod.mk.inj (Option.some.inj (hspec.symm.trans hnext))
    have hsmall := hleast.1.1.1
    exact (ih hsame.sound (by omega) (by omega)).trans hsame.members

theorem ScanReaches.members_backward (reach : ScanReaches .backward bitmap number bitmap')
    (h : SbmSound bitmap) (start : number = -1 ∨ ∃ k : Nat, number = k ∧ k ∈ sbmMembers bitmap) :
    sbmMembers bitmap' = sbmMembers bitmap := by
  induction reach with
  | start => rfl
  | stop hnext =>
    obtain ⟨r, bitmap', hspec, hsame, -⟩ := sbmNext_backward h start
    obtain ⟨-, rfl⟩ := Prod.mk.inj (Option.some.inj (hspec.symm.trans hnext))
    exact hsame.members
  | step hnext _ ih =>
    obtain ⟨r, bitmap', hspec, hsame, hgreatest⟩ := sbmNext_backward h start
    obtain ⟨rfl, rfl⟩ := Prod.mk.inj (Option.some.inj (hspec.symm.trans hnext))
    exact (ih hsame.sound (Or.inr ⟨_, rfl, hsame.members ▸ hgreatest.1.1⟩)).trans hsame.members

/-- The number that is skipped is not found. -/
theorem Enumerates.skipped_up {ks : List Nat} (reach : Enumerates .forward bitmap number ks bitmap')
    (h : SbmSound bitmap) (low : -1 ≤ number) (high : number < maxNumber)
    (sorted : ks.Pairwise (· < ·)) {m : Nat} (next : (m : Int) = number + 1)
    (offset : m % bitsBucket ≠ 0) (lone : SbmLone bitmap m) : m ∉ ks := by
  cases reach with
  | stop => exact List.not_mem_nil
  | @step _ _ k _ ks _ hnext _ =>
    obtain ⟨r, bitmap', hspec, -, hleast⟩ := sbmNext_forward h low high
    obtain ⟨rfl, rfl⟩ := Prod.mk.inj (Option.some.inj (hspec.symm.trans hnext))
    obtain ⟨-, hlt, hunskipped⟩ := hleast.1
    intro hm
    rcases List.mem_cons.mp hm with rfl | hm
    · exact hunskipped ⟨next, offset, lone⟩
    · have := (List.pairwise_cons.mp sorted).1 m hm
      omega

theorem Enumerates.skipped_down {ks : List Nat}
    (reach : Enumerates .backward bitmap number ks bitmap') (h : SbmSound bitmap)
    (start : number = -1 ∨ ∃ k : Nat, number = k ∧ k ∈ sbmMembers bitmap)
    (sorted : ks.Pairwise (· > ·)) {m : Nat} (lone : SbmLone bitmap m)
    (found : number = (m + 1 : Nat) ∨ m + 1 ∈ ks) : m ∉ ks := by
  induction reach with
  | stop => exact List.not_mem_nil
  | @step bitmap number k bitmap' ks _ hnext _ ih =>
    obtain ⟨r, bitmap', hspec, hsame, hgreatest⟩ := sbmNext_backward h start
    obtain ⟨rfl, rfl⟩ := Prod.mk.inj (Option.some.inj (hspec.symm.trans hnext))
    obtain ⟨hmem, hlt, hunskipped⟩ := hgreatest.1
    obtain ⟨hbelow, hsorted⟩ := List.pairwise_cons.mp sorted
    intro hm
    rcases List.mem_cons.mp hm with rfl | hm
    · rcases found with hfound | hfound
      · exact hunskipped ⟨hfound.symm, lone⟩
      · rcases List.mem_cons.mp hfound with heq | hin
        · omega
        · have := hbelow _ hin
          omega
    · have hkm := hbelow m hm
      rcases found with hfound | hfound
      · omega
      · refine ih hsame.sound (Or.inr ⟨k, rfl, hsame.members ▸ hmem⟩) hsorted
          ((hsame.lone m).mpr lone) ?_ hm
        rcases List.mem_cons.mp hfound with heq | hin
        · exact Or.inl (by rw [heq])
        · exact Or.inr hin

end

theorem scans_forward_iff {bitmap : Option SbmRoot} (h : SbmSound bitmap) {number : Int}
    (low : -1 ≤ number) (high : number < maxNumber) :
    Scans .forward (· < ·) {k | k ∈ sbmMembers bitmap ∧ number < k} bitmap number ↔
      ¬SkipsUp bitmap number := by
  constructor
  · rintro ⟨⟨ks, bitmap', hreach, hsorted, hall⟩, -⟩ ⟨m, hnext, hoffset, hlone⟩
    refine hreach.skipped_up h low high hsorted hnext hoffset hlone ((hall m).mpr ⟨hlone.1, ?_⟩)
    omega
  · intro hunskipped
    exact ⟨enumerates_forward h low high hunskipped,
      fun bitmap' hreach => hreach.members_forward h low high⟩

theorem scans_backward_iff {bitmap : Option SbmRoot} (h : SbmSound bitmap) :
    Scans .backward (· > ·) (sbmMembers bitmap) bitmap (-1) ↔ ¬SkipsDown bitmap := by
  constructor
  · rintro ⟨⟨ks, bitmap', hreach, hsorted, hall⟩, -⟩ ⟨m, hlone, hmem⟩
    exact hreach.skipped_down h (Or.inl rfl) hsorted hlone (Or.inr ((hall _).mpr hmem))
      ((hall m).mpr hlone.1)
  · intro hunskipped
    obtain ⟨ks, bitmap', hreach, hsorted, hall⟩ := enumerates_backward h (Or.inl rfl) hunskipped
    refine ⟨⟨ks, bitmap', hreach, hsorted, fun k => ?_⟩,
      fun bitmap' hreach => hreach.members_backward h (Or.inl rfl)⟩
    rw [hall k]
    exact and_iff_left (Or.inl rfl)

theorem sbmReachable_scans_iff {maxTail : Nat} {bitmap : Option SbmRoot}
    (h : SbmReachable maxTail bitmap) {number : Int} (low : -1 ≤ number) (high : number < maxNumber) :
    (Scans .forward (· < ·) {k | k ∈ sbmMembers bitmap ∧ number < k} bitmap number ∧
      Scans .backward (· > ·) (sbmMembers bitmap) bitmap (-1)) ↔
    ¬SkipsUp bitmap number ∧ ¬SkipsDown bitmap :=
  and_congr (scans_forward_iff h.sound low high) (scans_backward_iff h.sound)

/-- Three buckets of which the middle one has two numbers side by side. -/
theorem sbmReachable_scans_buckets : ∃ bitmap, SbmReachable sbmMaxTail bitmap ∧
    sbmMembers bitmap = {70000, 40001, 40000, 5} ∧
    Scans .forward (· < ·) {k | k ∈ sbmMembers bitmap ∧ (39999 : Int) < k} bitmap 39999 ∧
    Scans .backward (· > ·) (sbmMembers bitmap) bitmap (-1) := by
  obtain ⟨one, set1, sound1, members1⟩ := sbmSet_spec slotSound_none (by decide : 5 < maxNumber)
    (show Settable sbmMaxTail none 5 from trivial)
  have reach1 : SbmReachable sbmMaxTail one := .set .null (by decide : 5 < maxNumber) trivial set1
  obtain rfl := Option.some.inj set1
  obtain ⟨two, set2, sound2, members2⟩ := sbmSet_spec sound1 (by decide : 40000 < maxNumber)
    ⟨_, rfl, _, rfl⟩
  have reach2 := reach1.set (by decide) ⟨_, rfl, _, rfl⟩ set2
  obtain rfl := Option.some.inj set2
  obtain ⟨three, set3, sound3, members3⟩ := sbmSet_spec sound2 (by decide : 40001 < maxNumber)
    ⟨_, rfl⟩
  have reach3 := reach2.set (by decide) ⟨_, rfl⟩ set3
  obtain rfl := Option.some.inj set3
  obtain ⟨four, set4, -, members4⟩ := sbmSet_spec sound3 (by decide : 70000 < maxNumber) ⟨_, rfl⟩
  have reach4 := reach3.set (by decide) ⟨_, rfl⟩ set4
  obtain rfl := Option.some.inj set4
  rw [members3, members2, members1, sbmMembers_none, insert_empty_eq] at members4
  have scans := (sbmReachable_scans_iff reach4 (show -1 ≤ (39999 : Int) by decide) (by decide)).mpr
    ⟨?_, ?_⟩
  · exact ⟨_, reach4, members4, scans⟩
  · rintro ⟨m, next, -, -, lone⟩
    obtain rfl : m = 40000 := by omega
    cases lone
  · rintro ⟨m, ⟨member, lone⟩, next⟩
    rw [members4] at member next
    simp only [Set.mem_insert_iff, Set.mem_singleton_iff] at member next
    obtain rfl : m = 40000 := by omega
    cases lone

/-- Two numbers on both sides of the border of two buckets, each alone in its bucket. -/
theorem sbmNext_skips : ∃ bitmap bitmap', sbmSet sbmMaxTail none 32767 = some bitmap ∧
    sbmSet sbmMaxTail bitmap 32768 = some bitmap' ∧
    ¬Scans .forward (· < ·) {k | k ∈ sbmMembers bitmap' ∧ (32766 : Int) < k} bitmap' 32766 ∧
    ¬Scans .backward (· > ·) (sbmMembers bitmap') bitmap' (-1) := by
  obtain ⟨bitmap, hset, hsound, -⟩ := sbmSet_spec slotSound_none (by decide : 32767 < maxNumber)
    (show Settable sbmMaxTail none 32767 from trivial)
  obtain rfl := Option.some.inj hset
  obtain ⟨bitmap', hset', hsound', -⟩ := sbmSet_spec hsound (by decide : 32768 < maxNumber)
    (⟨_, rfl, _, rfl⟩ : Settable sbmMaxTail (some ⟨.singular, 5, 0, 32767, List.replicate 5 none⟩)
      32768)
  obtain rfl := Option.some.inj hset'
  refine ⟨_, _, rfl, rfl, ?_, ?_⟩
  · rw [scans_forward_iff hsound' (by decide) (by decide)]
    exact not_not_intro ⟨32767, rfl, by decide, ⟨by decide, rfl⟩, rfl⟩
  · rw [scans_backward_iff hsound']
    exact not_not_intro ⟨32767, ⟨⟨by decide, rfl⟩, rfl⟩, by decide, rfl⟩

end InterBase
