import InterBase.Tpc
import InterBase.TraInventory

namespace InterBase

open Memory Segments

theorem transShift_eq (number : Nat) : transShift number = number % 4 * 2 := by
  unfold transShift traMask
  rw [show (3 : Nat) = 2 ^ 2 - 1 from rfl, Nat.and_two_pow_sub_one_eq_mod, Nat.shiftLeft_eq, pow_one]

theorem testBit_low {state k : Nat} (legal : state ≤ traMask) (high : 2 ≤ k) :
    state.testBit k = false := by
  refine Nat.testBit_lt_two_pow ?_
  have : 2 ^ 2 ≤ 2 ^ k := Nat.pow_le_pow_right (by omega) high
  unfold traMask at legal
  omega

theorem testBit_traMask (k : Nat) : traMask.testBit k = decide (k < 2) := by
  rw [show traMask = 2 ^ 2 - 1 from rfl, Nat.testBit_two_pow_sub_one]

theorem toNat_field {i state : Nat} (hi : i < 4) (legal : state ≤ traMask) :
    (UInt8.ofNat (state <<< (i * 2))).toNat = state <<< (i * 2) := by
  have shift : 2 ^ (i * 2) ≤ 2 ^ 6 := Nat.pow_le_pow_right (by omega) (by omega)
  have top : state * 2 ^ (i * 2) ≤ 3 * 2 ^ 6 := Nat.mul_le_mul legal shift
  rw [UInt8.toNat_ofNat', Nat.shiftLeft_eq]
  exact Nat.mod_eq_of_lt (by omega)

/-- Four states of two bits to a byte; only one of them changes. -/
theorem testBit_assign (b : UInt8) {i state m : Nat} (hi : i < 4) (legal : state ≤ traMask)
    (hm : m < 8) : (assign b (i * 2) state).toNat.testBit m =
      if i * 2 ≤ m ∧ m < i * 2 + 2 then state.testBit (m - i * 2) else b.toNat.testBit m := by
  have mask := toNat_field hi (le_refl traMask)
  have small : traMask <<< (i * 2) < 2 ^ 8 := by
    rw [← mask]
    exact UInt8.toNat_lt _
  unfold assign
  rw [UInt8.toNat_or, UInt8.toNat_and, UInt8.toNat_not, mask, toNat_field hi legal, Nat.testBit_or,
    Nat.testBit_and, show UInt8.size = 2 ^ 8 from rfl, Nat.sub_sub, Nat.add_comm 1,
    Nat.testBit_two_pow_sub_succ small, Nat.testBit_shiftLeft, Nat.testBit_shiftLeft, testBit_traMask,
    decide_eq_true hm]
  by_cases low : i * 2 ≤ m
  · by_cases high : m < i * 2 + 2
    · rw [if_pos ⟨low, high⟩, decide_eq_true low, decide_eq_true (by omega : m - i * 2 < 2)]
      simp
    · rw [if_neg (by omega), testBit_low legal (by omega : 2 ≤ m - i * 2),
        decide_eq_false (by omega : ¬ m - i * 2 < 2)]
      simp
  · rw [if_neg (by omega), decide_eq_false low]
    simp

/-- The state that a byte has for a transaction. -/
def byteState (b : UInt8) (number : Nat) : Nat := b.toNat >>> transShift number &&& traMask

theorem byteState_assign (b : UInt8) {state : Nat} (legal : state ≤ traMask) (number n : Nat) :
    byteState (assign b (transShift number) state) n =
      if number % 4 = n % 4 then state else byteState b n := by
  have place : number % 4 < 4 := Nat.mod_lt _ (by omega)
  unfold byteState
  rw [transShift_eq, transShift_eq]
  refine Nat.eq_of_testBit_eq fun k => ?_
  rw [Nat.testBit_and, Nat.testBit_shiftRight, testBit_traMask]
  by_cases low : k < 2
  · rw [decide_eq_true low, Bool.and_true, testBit_assign b place legal (by omega)]
    by_cases same : number % 4 = n % 4
    · rw [if_pos same, if_pos (by omega), same, Nat.add_sub_cancel_left]
    · rw [if_neg same, if_neg (by omega), Nat.testBit_and, Nat.testBit_shiftRight, testBit_traMask,
        decide_eq_true low, Bool.and_true]
  · rw [decide_eq_false low, Bool.and_false]
    by_cases same : number % 4 = n % 4
    · rw [if_pos same, testBit_low legal (by omega)]
    · rw [if_neg same, Nat.testBit_and, testBit_traMask, decide_eq_false low, Bool.and_false]

section

variable {transPerTip : Nat}

/-- The states of a page before and after one of them is set. -/
theorem byteState_setPageState (whole : 4 ∣ transPerTip) {state : Nat} (legal : state ≤ traMask)
    (number n : Nat) (bytes : Nat → UInt8) :
    byteState (setPageState transPerTip number state bytes (transOffset (n % transPerTip))) n =
      if number % transPerTip = n % transPerTip then state
      else byteState (bytes (transOffset (n % transPerTip))) n := by
  have hnumber : number % transPerTip % 4 = number % 4 := Nat.mod_mod_of_dvd _ whole
  have hn : n % transPerTip % 4 = n % 4 := Nat.mod_mod_of_dvd _ whole
  unfold setPageState
  simp only [transOffset_eq]
  by_cases byte : number % transPerTip / 4 = n % transPerTip / 4
  · have same := write_inside bytes (a := n % transPerTip / 4) (i := 0)
      [assign (bytes (n % transPerTip / 4)) (transShift number) state] (by simp)
    rw [Nat.add_zero, List.getElem?_cons_zero] at same
    rw [byte, Option.some.inj same, byteState_assign _ legal]
    by_cases slot : number % 4 = n % 4
    · rw [if_pos slot, if_pos (by omega)]
    · rw [if_neg slot, if_neg (by omega)]
  · rw [if_neg (by omega)]
    rcases Nat.lt_or_gt_of_ne byte with below | above
    · rw [write_above _ _ (by simp only [List.length_singleton]; omega)]
    · rw [write_below _ _ above]

theorem traFetchState_byte (tip : Nat → Nat → UInt8) (number : Nat) :
    traFetchState tip transPerTip number =
      byteState (tip (number / transPerTip) (transOffset (number % transPerTip))) number := rfl

theorem traFetchState_setTipState (whole : 4 ∣ transPerTip) {state : Nat} (legal : state ≤ traMask)
    (number n : Nat) (d : Dbb) :
    traFetchState (setTipState transPerTip number state d).tipTransactions transPerTip n =
      if number = n then state else traFetchState d.tipTransactions transPerTip n := by
  rw [traFetchState_byte, traFetchState_byte]
  unfold setTipState
  simp only
  have hnumber := Nat.div_add_mod number transPerTip
  have hn := Nat.div_add_mod n transPerTip
  by_cases page : n / transPerTip = number / transPerTip
  · rw [page, Function.update_self, byteState_setPageState whole legal]
    rw [page] at hn
    by_cases same : number = n
    · rw [if_pos same, if_pos (by rw [same])]
    · rw [if_neg same, if_neg (by omega)]
  · rw [Function.update_of_ne page, if_neg]
    rintro rfl
    exact page rfl

/-- The position of a transaction in its block. -/
theorem Tpc.Contains.sub_base {t : Tpc} {number : Nat} (h : t.Contains transPerTip number)
    (aligned : transPerTip ∣ t.tpcBase) : number - t.tpcBase = number % transPerTip ∧
      t.tpcBase = number / transPerTip * transPerTip := by
  obtain ⟨sequence, hbase⟩ := aligned
  obtain ⟨low, high⟩ := h
  have split : number = number - t.tpcBase + transPerTip * sequence := by omega
  have small : number - t.tpcBase < transPerTip := by omega
  have hmod : number % transPerTip = number - t.tpcBase := by
    rw [split, Nat.add_mul_mod_self_left, Nat.mod_eq_of_lt (by omega)]
    omega
  refine ⟨hmod.symm, ?_⟩
  have := Nat.div_add_mod number transPerTip
  rw [Nat.mul_comm]
  omega

theorem Tpc.state_eq {t : Tpc} {number : Nat} (whole : 4 ∣ transPerTip)
    (h : t.Contains transPerTip number) (aligned : transPerTip ∣ t.tpcBase)
    (legal : number ≤ maxTraNumber) : t.state number =
      byteState (t.tpcTransactions (transOffset (number % transPerTip))) number := by
  have four : 4 ∣ t.tpcBase := Nat.dvd_trans whole aligned
  have base : traBase t.tpcBase = t.tpcBase := by
    unfold traBase traMask
    omega
  have low := h.1
  unfold maxTraNumber at legal
  have wrap : ulong (number + 4294967296 - t.tpcBase) = number - t.tpcBase := by
    unfold ulong
    omega
  unfold Tpc.state
  simp only
  rw [base, wrap, (h.sub_base aligned).1]
  rfl

/-- A block has the states that its inventory page has. -/
def Tpc.Shows (transPerTip : Nat) (tip : Nat → Nat → UInt8) (t : Tpc) : Prop :=
  ∀ n, t.Contains transPerTip n → n ≤ maxTraNumber → t.state n = traFetchState tip transPerTip n

/-- A block that a page was moved to shows that page. -/
theorem shows_moved (whole : 4 ∣ transPerTip) (tip : Nat → Nat → UInt8) (t : Tpc)
    {sequence : Nat} (base : t.tpcBase = sequence * transPerTip) :
    Tpc.Shows transPerTip tip { t with
      tpcTransactions :=
        write t.tpcTransactions 0 (slice (tip sequence) 0 (transOffset transPerTip)) } := by
  intro n contains legal
  have aligned : transPerTip ∣ t.tpcBase := ⟨sequence, by rw [base, Nat.mul_comm]⟩
  have pos : 0 < transPerTip := by
    obtain ⟨low, high⟩ := contains
    simp only at low high
    omega
  have page : n / transPerTip = sequence :=
    Nat.eq_of_mul_eq_mul_right pos ((contains.sub_base aligned).2.symm.trans base)
  have short := Nat.mod_lt n pos
  have inside : n % transPerTip / 4 < transPerTip / 4 := by
    obtain ⟨k, rfl⟩ := whole
    omega
  rw [Tpc.state_eq whole contains aligned legal, traFetchState_byte, page]
  simp only [transOffset_eq]
  rw [write_slice, if_pos ⟨Nat.zero_le _, by omega⟩, Nat.zero_add, Nat.sub_zero]

/-- The blocks follow one another in steps of an inventory page. -/
def Gapless (transPerTip : Nat) (cache : List Tpc) : Prop :=
  ∃ sequence, Consecutive Tpc.tpcBase transPerTip (sequence * transPerTip) cache

theorem Gapless.aligned {cache : List Tpc} (h : Gapless transPerTip cache) {t : Tpc}
    (mem : t ∈ cache) : transPerTip ∣ t.tpcBase := by
  obtain ⟨sequence, h⟩ := h
  exact h.dvd (Nat.dvd_mul_left _ _) mem

theorem Gapless.congr {cache cache' : List Tpc} (h : Gapless transPerTip cache)
    (same : cache'.map Tpc.tpcBase = cache.map Tpc.tpcBase) : Gapless transPerTip cache' := by
  obtain ⟨sequence, h⟩ := h
  exact ⟨sequence, h.congr same⟩

theorem Gapless.release {cache : List Tpc} (h : Gapless transPerTip cache) (oldest : Nat) :
    Gapless transPerTip (tpcRelease transPerTip oldest cache) := by
  obtain ⟨sequence, h⟩ := h
  obtain ⟨k, -, hdrop, -⟩ := h.dropWhile oldest
  refine ⟨sequence + k, ?_⟩
  rw [Nat.add_mul, Nat.mul_comm k]
  exact hdrop

theorem mem_tpcRelease {oldest : Nat} {cache : List Tpc} {t : Tpc}
    (mem : t ∈ tpcRelease transPerTip oldest cache) : t ∈ cache :=
  (List.dropWhile_sublist _).mem mem

theorem tpcRelease_tpcRelease (oldest : Nat) (cache : List Tpc) :
    tpcRelease transPerTip oldest (tpcRelease transPerTip oldest cache) =
      tpcRelease transPerTip oldest cache :=
  List.dropWhile_idempotent _ _

/-- What is released depends on where the blocks begin only. -/
theorem map_tpcRelease (oldest : Nat) (cache : List Tpc) :
    (tpcRelease transPerTip oldest cache).map Tpc.tpcBase =
      (cache.map Tpc.tpcBase).dropWhile fun base => base + transPerTip ≤ oldest := by
  unfold tpcRelease
  rw [List.dropWhile_map]
  rfl

theorem map_tpcUpdateCache (oldest : Nat) (tipPage : Nat → UInt8) (sequence : Nat)
    (cache : List Tpc) : (tpcUpdateCache transPerTip oldest tipPage sequence cache).map Tpc.tpcBase =
      (tpcRelease transPerTip oldest cache).map Tpc.tpcBase := by
  apply map_updateFirst
  intro t
  rfl

/-- After an update a block is as it was, or it shows the page. -/
theorem mem_tpcUpdateCache (whole : 4 ∣ transPerTip) {oldest : Nat}
    {tip : Nat → Nat → UInt8} {sequence : Nat} {cache : List Tpc}
    (distinct : (tpcRelease transPerTip oldest cache).Pairwise fun x y => x.tpcBase ≠ y.tpcBase)
    {t : Tpc} (mem : t ∈ tpcUpdateCache transPerTip oldest (tip sequence) sequence cache) :
    t.Shows transPerTip tip ∨
      t ∈ tpcRelease transPerTip oldest cache ∧ t.tpcBase ≠ sequence * transPerTip := by
  have pair : (tpcRelease transPerTip oldest cache).Pairwise fun x y =>
      (x.tpcBase == sequence * transPerTip) = true → ¬y.tpcBase = sequence * transPerTip := by
    refine distinct.imp ?_
    intro x y hne hx hy
    exact hne ((beq_iff_eq.mp hx).trans hy.symm)
  rcases mem_updateFirst (fun x hx => beq_iff_eq.mpr hx) pair mem with ⟨x, found, rfl⟩ | kept
  · have base := List.find?_some found
    exact .inl (shows_moved whole tip x (beq_iff_eq.mp base))
  · exact .inr kept

theorem Gapless.distinct (pos : 0 < transPerTip) {cache : List Tpc}
    (h : Gapless transPerTip cache) : cache.Pairwise fun x y => x.tpcBase ≠ y.tpcBase := by
  obtain ⟨sequence, h⟩ := h
  refine h.pairwise.imp ?_
  intro x y hxy
  omega

/-- The log once some pages have been fetched. -/
def fetchedLog (pages : List Nat) (log : List TpcNote) : List TpcNote :=
  pages.foldl (fun log sequence => .updated sequence :: log) log

/-- Fetching some inventory pages: the cache shows them afterwards, and nothing else changes. -/
theorem foldl_fetchInventoryPage (pos : 0 < transPerTip) (whole : 4 ∣ transPerTip)
    (pages : List Nat) {d : Dbb} (sequence : Nat)
    (h : Gapless transPerTip (tpcRelease transPerTip d.dbbOldestTransaction d.dbbTipCache)) :
    ∃ cache, pages.foldl (fetchInventoryPage transPerTip)
        (fetchInventoryPage transPerTip d sequence) =
          { d with dbbTipCache := cache, log := fetchedLog (sequence :: pages) d.log } ∧
      cache.map Tpc.tpcBase =
        (tpcRelease transPerTip d.dbbOldestTransaction d.dbbTipCache).map Tpc.tpcBase ∧
      ∀ t ∈ cache, t.Shows transPerTip d.tipTransactions ∨
        t ∈ d.dbbTipCache ∧ ∀ q ∈ sequence :: pages, t.tpcBase ≠ q * transPerTip := by
  induction pages generalizing d sequence with
  | nil =>
    refine ⟨_, rfl, map_tpcUpdateCache _ _ _ _, ?_⟩
    intro t mem
    rcases mem_tpcUpdateCache whole (h.distinct pos) mem with shows_ | ⟨old, other⟩
    · exact .inl shows_
    · refine .inr ⟨mem_tpcRelease old, ?_⟩
      intro q hq
      rwa [List.mem_singleton.mp hq]
  | cons next pages ih =>
    have stays : (tpcRelease transPerTip d.dbbOldestTransaction
        (fetchInventoryPage transPerTip d sequence).dbbTipCache).map Tpc.tpcBase =
        (tpcRelease transPerTip d.dbbOldestTransaction d.dbbTipCache).map Tpc.tpcBase := by
      rw [map_tpcRelease, fetchInventoryPage, map_tpcUpdateCache, ← map_tpcRelease,
        tpcRelease_tpcRelease]
    obtain ⟨cache, hcache, bases, content⟩ :=
      ih (d := fetchInventoryPage transPerTip d sequence) next (h.congr stays)
    refine ⟨cache, hcache, bases.trans stays, ?_⟩
    intro t mem
    rcases content t mem with shows_ | ⟨old, other⟩
    · exact .inl shows_
    · rcases mem_tpcUpdateCache whole (h.distinct pos) old with shows_ | ⟨old, first⟩
      · exact .inl shows_
      · refine .inr ⟨mem_tpcRelease old, ?_⟩
        intro q hq
        rcases List.mem_cons.mp hq with rfl | hq
        · exact first
        · exact other q hq

theorem allocateTpcs_consecutive (base top : Nat) :
    Consecutive Tpc.tpcBase transPerTip base (allocateTpcs transPerTip base top) := by
  unfold Consecutive allocateTpcs
  rw [List.map_map, List.length_map, List.length_range']
  exact List.map_id _

theorem lt_allocateTpcs (pos : 0 < transPerTip) {base top : Nat} (order : base ≤ top) :
    top < base + transPerTip * (allocateTpcs transPerTip base top).length := by
  unfold allocateTpcs
  rw [List.length_map, List.length_range']
  have hmod := Nat.div_add_mod (top + transPerTip - base) transPerTip
  have hlt := Nat.mod_lt (top + transPerTip - base) pos
  omega

theorem mem_allocateTpcs {base top : Nat} (aligned : transPerTip ∣ base) {t : Tpc}
    (mem : t ∈ allocateTpcs transPerTip base top) (pos : 0 < transPerTip) :
    ∃ q, base / transPerTip ≤ q ∧ q ≤ top / transPerTip ∧ t.tpcBase = q * transPerTip := by
  obtain ⟨b, hb, rfl⟩ := List.mem_map.mp mem
  obtain ⟨i, hi, rfl⟩ := List.mem_range'.mp hb
  obtain ⟨sequence, rfl⟩ := aligned
  rw [Nat.mul_div_cancel_left _ pos]
  have hlast : transPerTip * (sequence + i) ≤ top := by
    have hdiv := (Nat.le_div_iff_mul_le pos).mp (Nat.succ_le_of_lt hi)
    rw [Nat.succ_mul, Nat.mul_comm i] at hdiv
    rw [Nat.mul_add]
    omega
  refine ⟨sequence + i, Nat.le_add_right _ _, ?_, ?_⟩
  · rw [Nat.le_div_iff_mul_le pos, Nat.mul_comm]
    exact hlast
  · unfold allocateTpc
    simp only
    rw [Nat.mul_comm _ transPerTip, Nat.mul_add]

/-- New blocks can follow the cache without a gap, or nothing of it stays. -/
def Joins (transPerTip : Nat) (d : Dbb) (last : Nat) : Prop :=
  d.hdrOldestTransaction < last + transPerTip ∨ last ≤ d.dbbOldestTransaction

/-- What the cache is like once blocks up to the next transaction have been added to it. -/
structure Extended (transPerTip last : Nat) (d d' : Dbb) : Prop where
  fetched : ∃ pages, d' = { d with dbbTipCache := d'.dbbTipCache, log := fetchedLog pages d.log } ∧
    ∀ t ∈ d'.dbbTipCache, t.Shows transPerTip d.tipTransactions ∨
      t ∈ d.dbbTipCache ∧ ∀ q ∈ pages, t.tpcBase ≠ q * transPerTip
  gapless : Gapless transPerTip d'.dbbTipCache
  reaches : ∀ n ≤ d.hdrNextTransaction, ∃ t, tpcLocate transPerTip n d'.dbbTipCache = some t
  begins : ∀ n, last ≤ n → d.hdrOldestTransaction / transPerTip ≤ n / transPerTip →
    d.dbbOldestTransaction / transPerTip ≤ n / transPerTip → oldestCached d'.dbbTipCache ≤ n

theorem oldestCached_le {cache : List Tpc} {first n : Nat}
    (h : Consecutive Tpc.tpcBase transPerTip first cache) (low : first ≤ n) :
    oldestCached cache ≤ n := by
  cases cache with
  | nil => exact Nat.zero_le _
  | cons t cache =>
    obtain ⟨base, -⟩ := consecutive_cons.mp h
    change t.tpcBase ≤ n
    omega

theorem oldestCached_cons {t : Tpc} {cache : List Tpc} :
    oldestCached (t :: cache) = t.tpcBase := rfl

/-- What a consecutive cache becomes that reaches up to the next transaction. -/
theorem release_reaches {cache : List Tpc} {first : Nat} (top oldest : Nat)
    (h : Consecutive Tpc.tpcBase transPerTip first cache)
    (reach : top < first + transPerTip * cache.length)
    (aligned : transPerTip ∣ first) :
    ∃ first', Consecutive Tpc.tpcBase transPerTip first' (tpcRelease transPerTip oldest cache) ∧
      transPerTip ∣ first' ∧
      top < first' + transPerTip * (tpcRelease transPerTip oldest cache).length ∧
      (first' = first ∨ first' ≤ oldest) := by
  obtain ⟨k, hk, hdrop, heq, bound⟩ := h.dropWhile oldest
  refine ⟨first + transPerTip * k, hdrop, Nat.dvd_add aligned (Nat.dvd_mul_right _ _), ?_, ?_⟩
  · unfold tpcRelease
    rw [heq, List.length_drop, Nat.add_assoc, ← Nat.mul_add]
    rwa [Nat.add_sub_of_le hk]
  · rcases bound with rfl | bound
    · exact .inl (by rw [Nat.mul_zero, Nat.add_zero])
    · exact .inr bound

/-- The cache together with the new blocks, as far as it is not released. -/
theorem release_append (pos : 0 < transPerTip) {d : Dbb} {first : Nat}
    (h : Consecutive Tpc.tpcBase transPerTip first d.dbbTipCache) (aligned : transPerTip ∣ first)
    {last base : Nat} (hlast : last = first + transPerTip * d.dbbTipCache.length)
    (joins : d.dbbTipCache = [] ∨ Joins transPerTip d last)
    (hbase : base = max last d.hdrOldestTransaction - max last d.hdrOldestTransaction % transPerTip)
    (order : base ≤ d.hdrNextTransaction) :
    ∃ first', Consecutive Tpc.tpcBase transPerTip first'
        (tpcRelease transPerTip d.dbbOldestTransaction
          (d.dbbTipCache ++ allocateTpcs transPerTip base d.hdrNextTransaction)) ∧
      transPerTip ∣ first' ∧
      d.hdrNextTransaction < first' + transPerTip * (tpcRelease transPerTip d.dbbOldestTransaction
        (d.dbbTipCache ++ allocateTpcs transPerTip base d.hdrNextTransaction)).length ∧
      (first' ≤ last ∨ first' ≤ d.hdrOldestTransaction ∨ first' ≤ d.dbbOldestTransaction) := by
  have new : Consecutive Tpc.tpcBase transPerTip base _ :=
    allocateTpcs_consecutive base d.hdrNextTransaction
  have reach := lt_allocateTpcs pos order
  have aligned' : transPerTip ∣ base := hbase ▸ Nat.dvd_sub_mod _
  have round : base ≤ max last d.hdrOldestTransaction := hbase ▸ Nat.sub_le _ _
  by_cases stay : d.dbbTipCache = [] ∨ last ≤ d.dbbOldestTransaction
  · have out : ∀ t ∈ d.dbbTipCache,
        decide (t.tpcBase + transPerTip ≤ d.dbbOldestTransaction) = true := by
      intro t mem
      rcases stay with empty | old
      · rw [empty] at mem
        cases mem
      · have := h.le_end mem
        exact decide_eq_true (by omega)
    unfold tpcRelease
    rw [List.dropWhile_append_of_pos out]
    obtain ⟨first', hfirst, dvd, reach, low⟩ :=
      release_reaches _ d.dbbOldestTransaction new reach aligned'
    exact ⟨first', hfirst, dvd, reach, by omega⟩
  · -- the new blocks begin where the old ones end
    have near : d.hdrOldestTransaction < last + transPerTip := by
      unfold Joins at joins
      tauto
    have dvd : transPerTip ∣ last := by
      rw [hlast]
      exact Nat.dvd_add aligned (Nat.dvd_mul_right _ _)
    have same : base = last := by
      have hmod : max last d.hdrOldestTransaction % transPerTip =
          max last d.hdrOldestTransaction - last := by
        obtain ⟨k, rfl⟩ := dvd
        have split : max (transPerTip * k) d.hdrOldestTransaction =
            max (transPerTip * k) d.hdrOldestTransaction - transPerTip * k + transPerTip * k := by
          omega
        rw [split, Nat.add_mul_mod_self_left, Nat.mod_eq_of_lt (by omega)]
        omega
      omega
    have joined : Consecutive Tpc.tpcBase transPerTip first
        (d.dbbTipCache ++ allocateTpcs transPerTip base d.hdrNextTransaction) := by
      refine consecutive_append.mpr ⟨h, ?_⟩
      rw [← hlast, ← same]
      exact new
    obtain ⟨first', hfirst, dvd, reach, low⟩ :=
      release_reaches d.hdrNextTransaction d.dbbOldestTransaction joined (by
        rw [List.length_append, Nat.mul_add, ← Nat.add_assoc, ← hlast, ← same]
        exact reach) aligned
    exact ⟨first', hfirst, dvd, reach, by omega⟩

theorem cacheTransactions_extended (pos : 0 < transPerTip) (whole : 4 ∣ transPerTip) {d : Dbb}
    (first : Nat) {last : Nat} (h : Consecutive Tpc.tpcBase transPerTip first d.dbbTipCache)
    (aligned : transPerTip ∣ first)
    (hlast : last = first + transPerTip * d.dbbTipCache.length)
    (joins : d.dbbTipCache = [] ∨ Joins transPerTip d last) (order : last ≤ d.hdrNextTransaction)
    (oldest : d.hdrOldestTransaction ≤ d.hdrNextTransaction)
    (mark : d.dbbOldestTransaction ≤ d.hdrNextTransaction) :
    Extended transPerTip last d (cacheTransactions transPerTip last d) := by
  let start := max last d.hdrOldestTransaction
  let base := start - start % transPerTip
  let blocks := d.dbbTipCache ++ allocateTpcs transPerTip base d.hdrNextTransaction
  have round : base ≤ start := Nat.sub_le _ _
  have below : start ≤ d.hdrNextTransaction := max_le order oldest
  obtain ⟨first', hfirst, dvd, reach, low⟩ :=
    release_append pos h aligned hlast joins rfl (Nat.le_trans round below)
  obtain ⟨sequence, rfl⟩ := dvd
  have gapless : Gapless transPerTip (tpcRelease transPerTip d.dbbOldestTransaction blocks) :=
    ⟨sequence, by rw [Nat.mul_comm]; exact hfirst⟩
  obtain ⟨cache, hcache, bases, content⟩ := foldl_fetchInventoryPage pos whole
    (List.range' (start / transPerTip + 1)
      (d.hdrNextTransaction / transPerTip - start / transPerTip))
    (d := { d with dbbTipCache := blocks }) (start / transPerTip) gapless
  have result : cacheTransactions transPerTip last d = _ := hcache
  have length : cache.length = (tpcRelease transPerTip d.dbbOldestTransaction blocks).length := by
    have := congrArg List.length bases
    rwa [List.length_map, List.length_map] at this
  have consecutive := hfirst.congr bases
  have top : d.hdrNextTransaction < transPerTip * sequence + transPerTip * cache.length := by
    rw [length]
    exact reach
  rw [result]
  refine ⟨⟨_, rfl, ?_⟩, gapless.congr bases, ?_, ?_⟩
  · intro t mem
    rcases content t mem with shows_ | ⟨old, other⟩
    · exact .inl shows_
    · rcases List.mem_append.mp old with old | new
      · exact .inr ⟨old, other⟩
      · -- every new block is on one of the pages fetched
        obtain ⟨q, first, high, hq⟩ := mem_allocateTpcs (Nat.dvd_sub_mod _) new pos
        have hdiv : base / transPerTip = start / transPerTip := by
          have := Nat.div_add_mod start transPerTip
          rw [show base = transPerTip * (start / transPerTip) by omega]
          exact Nat.mul_div_cancel_left _ pos
        refine absurd hq (other q ?_)
        rw [hdiv] at first
        rw [List.mem_cons, List.mem_range'_1]
        omega
  · intro n hn
    have found : tpcLocate transPerTip n cache ≠ none := by
      intro missed
      rw [tpcLocate, consecutive.locate_eq_none] at missed
      rcases missed with empty | beyond
      · rw [empty, List.length_nil] at top
        omega
      · omega
    exact Option.ne_none_iff_exists'.mp found
  · intro n high hoid hmark
    apply oldestCached_le consecutive
    have page : ∀ m, transPerTip * sequence ≤ m → m / transPerTip ≤ n / transPerTip →
        transPerTip * sequence ≤ n := by
      intro m hm hle
      rw [Nat.mul_comm] at hm ⊢
      rw [← Nat.le_div_iff_mul_le pos] at hm ⊢
      exact Nat.le_trans hm hle
    rcases low with low | low | low
    · exact Nat.le_trans low high
    · exact page _ low hoid
    · exact page _ low hmark

end

end InterBase
