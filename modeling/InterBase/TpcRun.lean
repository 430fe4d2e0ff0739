import InterBase.TpcCache

namespace InterBase

open Segments

section

variable (transPerTip : Nat)

/-- A final state that was set without a change of the page, and is the last one. -/
def Reached (log : List TpcNote) (number state : Nat) : Prop :=
  (state = traCommitted ∨ state = traDead) ∧ SetSince transPerTip log number state

/-- The states in a block are those of the page, or final ones reached since, except where the page
has changed in the meantime. -/
def Tpc.Reports (log : List TpcNote) (tip : Nat → Nat → UInt8) (t : Tpc) : Prop :=
  ∀ n, t.Contains transPerTip n → n ≤ maxTraNumber →
    PageBehind transPerTip log (n / transPerTip) ∨
      t.state n = traFetchState tip transPerTip n ∨ Reached transPerTip log n (t.state n)

structure Coherent (d : Dbb) : Prop where
  legal : d.hdrNextTransaction ≤ maxTraNumber
  oldest : d.hdrOldestTransaction ≤ d.hdrNextTransaction
  mark : d.dbbOldestTransaction ≤ d.hdrNextTransaction
  gapless : Gapless transPerTip d.dbbTipCache
  content : ∀ t ∈ d.dbbTipCache, t.Reports transPerTip d.log d.tipTransactions

/-- The cache is extended where it ends, and a state is set in a transaction that is not older than
the cache. -/
def TpcEvent.Sound (d : Dbb) : TpcEvent → Prop
  | .initializeTpc number => ∀ t, d.dbbTipCache.getLast? = some t →
      t.tpcBase + transPerTip ≤ number → Joins transPerTip d (t.tpcBase + transPerTip)
  | .setState number _ =>
    oldestCached (tpcRelease transPerTip d.dbbOldestTransaction d.dbbTipCache) ≤ number
  | .tweak number _ => oldestCached d.dbbTipCache ≤ number
  | .snapshotState precommited _ number => ∀ t, d.dbbTipCache.getLast? = some t →
      t.tpcBase + transPerTip ≤ number → precommited = false →
      Joins transPerTip d (t.tpcBase + transPerTip) ∧
        d.hdrOldestTransaction / transPerTip ≤ number / transPerTip ∧
        d.dbbOldestTransaction / transPerTip ≤ number / transPerTip
  | _ => True

/-- A run in which every event is sound. -/
inductive SoundRun : Dbb → Prop
  | start {d : Dbb} : d.dbbTipCache = [] → d.log = [] →
      d.dbbOldestTransaction ≤ d.hdrNextTransaction →
      d.hdrOldestTransaction ≤ d.hdrNextTransaction → d.hdrNextTransaction ≤ maxTraNumber →
      SoundRun d
  | next {d : Dbb} {e : TpcEvent} : SoundRun d → e.Legal transPerTip d → e.Sound transPerTip d →
      SoundRun (d.step transPerTip e)

end

section

variable {transPerTip : Nat} {log : List TpcNote} {d : Dbb}

theorem Tpc.Shows.reports {t : Tpc} (h : t.Shows transPerTip d.tipTransactions) :
    t.Reports transPerTip log d.tipTransactions :=
  fun n contains legal => .inr (.inl (h n contains legal))

/-- Other pages that are fetched change nothing for a page. -/
theorem pageBehind_fetchedLog {pages : List Nat} {sequence : Nat} (other : sequence ∉ pages)
    (late : PageBehind transPerTip log sequence) :
    PageBehind transPerTip (fetchedLog pages log) sequence := by
  induction pages generalizing log with
  | nil => exact late
  | cons page pages ih =>
    rw [List.mem_cons, not_or] at other
    exact ih other.2 ⟨Ne.symm other.1, late⟩

theorem Reached.fetchedLog {pages : List Nat} {number state : Nat}
    (other : number / transPerTip ∉ pages) (h : Reached transPerTip log number state) :
    Reached transPerTip (fetchedLog pages log) number state := by
  refine ⟨h.1, ?_⟩
  obtain ⟨-, since⟩ := h
  induction pages generalizing log with
  | nil => exact since
  | cons page pages ih =>
    rw [List.mem_cons, not_or] at other
    exact ih other.2 ⟨Ne.symm other.1, since⟩

/-- A block whose page is not among those fetched. -/
theorem Tpc.Reports.fetched {pages : List Nat} {tip : Nat → Nat → UInt8} {t : Tpc}
    (h : t.Reports transPerTip log tip) (aligned : transPerTip ∣ t.tpcBase)
    (other : ∀ q ∈ pages, t.tpcBase ≠ q * transPerTip) :
    t.Reports transPerTip (fetchedLog pages log) tip := by
  intro n contains legal
  have away : n / transPerTip ∉ pages := fun mem => other _ mem (contains.sub_base aligned).2
  rcases h n contains legal with late | same | reached
  · exact .inl (pageBehind_fetchedLog away late)
  · exact .inr (.inl same)
  · exact .inr (.inr (reached.fetchedLog away))

theorem Gapless.locate_contains {cache : List Tpc} (h : Gapless transPerTip cache) {n : Nat}
    (low : oldestCached cache ≤ n) {t : Tpc} (found : tpcLocate transPerTip n cache = some t) :
    t.Contains transPerTip n := by
  obtain ⟨sequence, h⟩ := h
  cases cache with
  | nil => cases found
  | cons t' cache =>
    obtain ⟨base, -⟩ := consecutive_cons.mp h
    rw [oldestCached_cons, base] at low
    exact h.locate_contains low found

theorem oldestCached_congr {cache cache' : List Tpc}
    (same : cache'.map Tpc.tpcBase = cache.map Tpc.tpcBase) :
    oldestCached cache' = oldestCached cache := by
  unfold oldestCached
  rw [← List.head?_map, ← List.head?_map, same]

theorem Coherent.fetched (pos : 0 < transPerTip) (whole : 4 ∣ transPerTip)
    (h : Coherent transPerTip d) (sequence : Nat) :
    Coherent transPerTip (fetchInventoryPage transPerTip d sequence) := by
  have gapless := h.gapless.release d.dbbOldestTransaction
  refine ⟨h.legal, h.oldest, h.mark, gapless.congr (map_tpcUpdateCache _ _ _ _), ?_⟩
  intro t mem
  rcases mem_tpcUpdateCache whole (gapless.distinct pos) mem with shows_ | ⟨old, other⟩
  · exact shows_.reports
  · have old := mem_tpcRelease old
    refine Tpc.Reports.fetched (h.content t old) (h.gapless.aligned old) (?_ : ∀ q ∈ [sequence], _)
    intro q hq
    rwa [List.mem_singleton.mp hq]

theorem Coherent.extended (h : Coherent transPerTip d) {last : Nat} {d' : Dbb}
    (extended : Extended transPerTip last d d') : Coherent transPerTip d' := by
  have gapless := extended.gapless
  obtain ⟨pages, frame, content⟩ := extended.fetched
  rw [frame] at gapless content ⊢
  refine ⟨h.legal, h.oldest, h.mark, gapless, ?_⟩
  intro t mem
  rcases content t mem with shows_ | ⟨old, other⟩
  · exact shows_.reports
  · exact (h.content t old).fetched (h.gapless.aligned old) other

/-- The first blocks of an empty cache. -/
theorem Coherent.fills (pos : 0 < transPerTip) (whole : 4 ∣ transPerTip)
    (h : Coherent transPerTip d) (empty : d.dbbTipCache = []) :
    Extended transPerTip 0 d (cacheTransactions transPerTip 0 d) := by
  refine cacheTransactions_extended pos whole 0 ?_ (Nat.dvd_zero _) ?_ (.inl empty)
    (Nat.zero_le _) h.oldest h.mark
  · rw [empty]
    exact consecutive_nil
  · rw [empty]
    rfl

/-- New blocks behind the last one. -/
theorem Coherent.extends (pos : 0 < transPerTip) (whole : 4 ∣ transPerTip)
    (h : Coherent transPerTip d) {t : Tpc} (last : d.dbbTipCache.getLast? = some t)
    (joins : Joins transPerTip d (t.tpcBase + transPerTip))
    (order : t.tpcBase + transPerTip ≤ d.hdrNextTransaction) :
    Extended transPerTip (t.tpcBase + transPerTip) d
      (cacheTransactions transPerTip (t.tpcBase + transPerTip) d) := by
  obtain ⟨sequence, consecutive⟩ := h.gapless
  exact cacheTransactions_extended pos whole _ consecutive (Nat.dvd_mul_left _ _)
    (consecutive.end_getLast last) (.inr joins) order h.oldest h.mark

theorem map_tpcSetState (number state : Nat) (cache : List Tpc) :
    (tpcSetState transPerTip number state cache).map Tpc.tpcBase = cache.map Tpc.tpcBase := by
  apply map_updateFirst
  intro t
  rfl

/-- The blocks after a state has been set: the one that contains the transaction has the new state,
and nothing else has changed. -/
theorem state_tpcSetState (whole : 4 ∣ transPerTip) {cache : List Tpc}
    (gapless : Gapless transPerTip cache) {number state : Nat} (legal : state ≤ traMask)
    (low : oldestCached cache ≤ number) {t : Tpc}
    (mem : t ∈ tpcSetState transPerTip number state cache) :
    ∃ t' ∈ cache, t.tpcBase = t'.tpcBase ∧ ∀ n, t'.Contains transPerTip n → n ≤ maxTraNumber →
      t.state n = if number = n then state else t'.state n := by
  obtain ⟨sequence, consecutive⟩ := gapless
  have pair : cache.Pairwise fun x y => decide (number < x.tpcBase + transPerTip) = true →
      ¬y.Contains transPerTip number := by
    refine consecutive.pairwise.imp ?_
    intro x y hxy hx hy
    have := of_decide_eq_true hx
    have := hy.1
    omega
  rcases mem_updateFirst (q := fun t => t.Contains transPerTip number)
    (fun x hx => decide_eq_true hx.2) pair mem with ⟨t', found, rfl⟩ | ⟨old, other⟩
  · have contains : t'.Contains transPerTip number :=
      Gapless.locate_contains ⟨sequence, consecutive⟩ low found
    have old := List.mem_of_find?_eq_some found
    have aligned := consecutive.dvd (Nat.dvd_mul_left _ _) old
    refine ⟨t', old, rfl, ?_⟩
    intro n hn hlegal
    have here := (contains.sub_base aligned).1
    have there := (hn.sub_base aligned).1
    have first := contains.1
    have second := hn.1
    rw [Tpc.state_eq whole hn aligned hlegal, Tpc.state_eq whole (t := { t' with
      tpcTransactions := setPageState transPerTip number state t'.tpcTransactions }) hn aligned hlegal,
      byteState_setPageState whole legal]
    by_cases same : number = n
    · rw [if_pos same, if_pos (by rw [same])]
    · rw [if_neg same, if_neg (by omega)]
  · refine ⟨t, old, rfl, ?_⟩
    intro n hn _
    rw [if_neg]
    rintro rfl
    exact other hn

theorem Coherent.tweaks (whole : 4 ∣ transPerTip) (h : Coherent transPerTip d)
    {number state : Nat} (low : oldestCached d.dbbTipCache ≤ number)
    (final : state = traCommitted ∨ state = traDead ∨
      state = traFetchState d.tipTransactions transPerTip number) :
    Coherent transPerTip
      { d with
        dbbTipCache := tpcSetState transPerTip number state d.dbbTipCache
        log := .tweaked number state :: d.log } := by
  have legal : state ≤ traMask := by
    rcases final with rfl | rfl | rfl
    · decide
    · decide
    · exact Nat.and_le_right
  refine ⟨h.legal, h.oldest, h.mark, h.gapless.congr (map_tpcSetState _ _ _), ?_⟩
  intro t mem n contains hlegal
  obtain ⟨t', old, base, same⟩ := state_tpcSetState whole h.gapless legal low mem
  have contains' : t'.Contains transPerTip n := by
    unfold Tpc.Contains at contains ⊢
    rwa [← base]
  rw [same n contains' hlegal]
  split
  next eq =>
    have last : SetSince transPerTip (.tweaked number state :: d.log) n state := by
      unfold SetSince
      rw [if_pos eq]
    cases eq
    rcases final with final | final | page
    · exact .inr (.inr ⟨.inl final, last⟩)
    · exact .inr (.inr ⟨.inr final, last⟩)
    · exact .inr (.inl page)
  next other =>
    rcases h.content t' old n contains' hlegal with late | same | ⟨final, since⟩
    · exact .inl late
    · exact .inr (.inl same)
    · refine .inr (.inr ⟨final, ?_⟩)
      unfold SetSince
      rwa [if_neg other]

theorem Coherent.changes (h : Coherent transPerTip d) (number state : Nat) :
    Coherent transPerTip
      { setTipState transPerTip number state d with log := .changed number :: d.log } := by
  refine ⟨h.legal, h.oldest, h.mark, h.gapless, ?_⟩
  intro t mem n contains hlegal
  by_cases page : number / transPerTip = n / transPerTip
  · exact .inl (.inl page)
  · have same : traFetchState (setTipState transPerTip number state d).tipTransactions transPerTip n =
        traFetchState d.tipTransactions transPerTip n := by
      unfold setTipState
      simp only
      rw [traFetchState_byte, traFetchState_byte, Function.update_of_ne (Ne.symm page)]
    rw [same]
    rcases h.content t mem n contains hlegal with late | same | reached
    · exact .inl (.inr late)
    · exact .inr (.inl same)
    · exact .inr (.inr reached)

/-- The page and the cache are set together. -/
theorem Coherent.sets (pos : 0 < transPerTip) (whole : 4 ∣ transPerTip)
    (h : Coherent transPerTip d) {number state : Nat} (legal : state ≤ traMask)
    (low : oldestCached (tpcRelease transPerTip d.dbbOldestTransaction d.dbbTipCache) ≤ number) :
    Coherent transPerTip (traSetState transPerTip number state d) := by
  have fetched := h.fetched pos whole (number / transPerTip)
  rw [← oldestCached_congr (map_tpcUpdateCache _ _ _ _)] at low
  refine ⟨h.legal, h.oldest, h.mark, fetched.gapless.congr (map_tpcSetState _ _ _), ?_⟩
  · intro t mem n contains hlegal
    obtain ⟨t', old, base, same⟩ := state_tpcSetState whole fetched.gapless legal low mem
    have contains' : t'.Contains transPerTip n := by
      unfold Tpc.Contains at contains ⊢
      rwa [← base]
    have page := traFetchState_setTipState whole legal number n
      (fetchInventoryPage transPerTip d (number / transPerTip))
    change _ ∨ _ = traFetchState (setTipState transPerTip number state
      (fetchInventoryPage transPerTip d (number / transPerTip))).tipTransactions transPerTip n ∨ _
    rw [page, same n contains' hlegal]
    split
    next => exact .inr (.inl rfl)
    next => exact fetched.content t' old n contains' hlegal

theorem Coherent.initializes (pos : 0 < transPerTip) (whole : 4 ∣ transPerTip)
    (h : Coherent transPerTip d) {number : Nat} (started : number ≤ d.hdrNextTransaction)
    (sound : TpcEvent.Sound transPerTip d (.initializeTpc number)) :
    Coherent transPerTip (tpcInitializeTpc transPerTip number d) := by
  unfold tpcInitializeTpc
  split
  next none =>
    exact h.extended (h.fills pos whole (List.getLast?_eq_none_iff.mp none))
  next t last =>
    split
    next => exact h
    next beyond =>
      have beyond := Nat.le_of_not_lt beyond
      exact h.extended (h.extends pos whole last (sound t last beyond)
        (Nat.le_trans beyond started))

theorem Dbb.opened_eq (transPerTip : Nat) (d : Dbb) :
    d.dbbTipCache = [] ∧ d.opened transPerTip = cacheTransactions transPerTip 0 d ∨
      d.dbbTipCache ≠ [] ∧ d.opened transPerTip = d := by
  unfold Dbb.opened
  split
  next empty => exact .inl ⟨List.isEmpty_iff.mp empty, rfl⟩
  next some => exact .inr ⟨fun empty => some (List.isEmpty_iff.mpr empty), rfl⟩

theorem tpcCacheState_fst (precommited : Bool) (number : Nat) (d : Dbb) :
    (tpcCacheState transPerTip precommited number d).1 = d.opened transPerTip := by
  unfold tpcCacheState Dbb.opened
  simp only
  split
  next empty =>
    unfold tpcInitializeTpc
    rw [List.isEmpty_iff.mp empty]
    rfl
  next => rfl

theorem Coherent.opened (pos : 0 < transPerTip) (whole : 4 ∣ transPerTip)
    (h : Coherent transPerTip d) : Coherent transPerTip (d.opened transPerTip) := by
  rcases d.opened_eq transPerTip with ⟨empty, eq⟩ | ⟨-, eq⟩
  · rw [eq]
    exact h.extended (h.fills pos whole empty)
  · rw [eq]
    exact h

/-- What a look at the current state of a transaction can do to the cache. -/
theorem tpcSnapshotState_cases (precommited locked : Bool) (number : Nat) (d : Dbb) :
    (tpcSnapshotState transPerTip precommited locked number d).1 = d.opened transPerTip ∨
    ((∃ t, tpcLocate transPerTip number (d.opened transPerTip).dbbTipCache = some t) ∧
      (tpcSnapshotState transPerTip precommited locked number d).1 =
        fetchInventoryPage transPerTip (d.opened transPerTip) (number / transPerTip)) ∨
    ((number = 0 ∨ precommited = false) ∧
      tpcLocate transPerTip number (d.opened transPerTip).dbbTipCache = none ∧
      ∃ t, (d.opened transPerTip).dbbTipCache.getLast? = some t ∧
        (tpcSnapshotState transPerTip precommited locked number d).1 =
          cacheTransactions transPerTip (t.tpcBase + transPerTip) (d.opened transPerTip)) := by
  unfold tpcSnapshotState
  simp only
  split
  next => exact .inl rfl
  next hpre =>
    split
    next => exact .inl rfl
    next =>
      split
      next t found =>
        split
        next => exact .inl rfl
        next =>
          split
          next => exact .inl rfl
          next => exact .inr (.inl ⟨⟨t, found⟩, rfl⟩)
      next missed =>
        unfold extendCache
        split
        next => exact .inl rfl
        next t last =>
          refine .inr (.inr ⟨?_, missed, t, last, rfl⟩)
          by_cases zero : number = 0
          · exact .inl zero
          · exact .inr (by simpa [zero] using hpre)

/-- A transaction that is behind the cache when it is looked up: the cache was not empty. -/
theorem Coherent.missed (pos : 0 < transPerTip) (whole : 4 ∣ transPerTip)
    (h : Coherent transPerTip d) {number : Nat} (started : number ≤ d.hdrNextTransaction)
    (missed : tpcLocate transPerTip number (d.opened transPerTip).dbbTipCache = none) :
    d.opened transPerTip = d ∧ ∃ t, d.dbbTipCache.getLast? = some t ∧
      t.tpcBase + transPerTip ≤ number := by
  rcases d.opened_eq transPerTip with ⟨empty, eq⟩ | ⟨some, eq⟩
  · obtain ⟨t, found⟩ := (h.fills pos whole empty).reaches number started
    rw [eq, found] at missed
    cases missed
  · rw [eq] at missed
    refine ⟨eq, ?_⟩
    obtain ⟨sequence, consecutive⟩ := h.gapless
    have last := List.getLast?_eq_some_getLast some
    refine ⟨_, last, ?_⟩
    rw [consecutive.end_getLast last]
    exact (consecutive.locate_eq_none.mp missed).resolve_left some

/-- How a lookup of the current state extends the cache. -/
theorem Coherent.snapshotExtends (pos : 0 < transPerTip) (whole : 4 ∣ transPerTip)
    (h : Coherent transPerTip d) {precommited locked : Bool} {number : Nat}
    (started : number ≤ d.hdrNextTransaction)
    (sound : TpcEvent.Sound transPerTip d (.snapshotState precommited locked number))
    (missed : tpcLocate transPerTip number (d.opened transPerTip).dbbTipCache = none)
    (hpre : number = 0 ∨ precommited = false) :
    ∃ t, d.dbbTipCache.getLast? = some t ∧
      Extended transPerTip (t.tpcBase + transPerTip) d
        (cacheTransactions transPerTip (t.tpcBase + transPerTip) d) ∧
      oldestCached (cacheTransactions transPerTip (t.tpcBase + transPerTip) d).dbbTipCache ≤
        number := by
  obtain ⟨-, t, last, beyond⟩ := h.missed pos whole started missed
  have plain : precommited = false := by
    rcases hpre with rfl | plain
    · omega
    · exact plain
  obtain ⟨joins, oldest, mark⟩ := sound t last beyond plain
  have extended := h.extends pos whole last joins (Nat.le_trans beyond started)
  exact ⟨t, last, extended, extended.begins number beyond oldest mark⟩

theorem Coherent.snapshots (pos : 0 < transPerTip) (whole : 4 ∣ transPerTip)
    (h : Coherent transPerTip d) {precommited locked : Bool} {number : Nat}
    (started : number ≤ d.hdrNextTransaction)
    (sound : TpcEvent.Sound transPerTip d (.snapshotState precommited locked number)) :
    Coherent transPerTip (tpcSnapshotState transPerTip precommited locked number d).1 := by
  rcases tpcSnapshotState_cases precommited locked number d with
    eq | ⟨-, eq⟩ | ⟨hpre, missed, t, last, eq⟩
  · rw [eq]
    exact h.opened pos whole
  · rw [eq]
    exact (h.opened pos whole).fetched pos whole _
  · obtain ⟨t', last', extended, -⟩ := h.snapshotExtends pos whole started sound missed hpre
    rw [(h.missed pos whole started missed).1] at last eq
    cases Option.some.inj (last.symm.trans last')
    rw [eq]
    exact h.extended extended

/-- Every event keeps the cache coherent. -/
theorem Coherent.step (pos : 0 < transPerTip) (whole : 4 ∣ transPerTip)
    (h : Coherent transPerTip d) {e : TpcEvent} (legal : e.Legal transPerTip d)
    (sound : e.Sound transPerTip d) : Coherent transPerTip (d.step transPerTip e) := by
  cases e with
  | header next mark =>
    obtain ⟨grows, -, order, bound⟩ := legal
    exact ⟨bound, order, Nat.le_trans h.mark grows, h.gapless, h.content⟩
  | oldest number => exact ⟨h.legal, h.oldest, legal, h.gapless, h.content⟩
  | initializeTpc number => exact h.initializes pos whole legal sound
  | change number state => exact h.changes number state
  | update sequence => exact h.fetched pos whole sequence
  | setState number state => exact h.sets pos whole legal.2 sound
  | tweak number state => exact h.tweaks whole sound legal.2
  | cacheState precommited number =>
    have kept := h.opened pos whole
    rwa [← tpcCacheState_fst precommited number] at kept
  | snapshotState precommited locked number => exact h.snapshots pos whole legal sound

theorem SoundRun.coherent (pos : 0 < transPerTip) (whole : 4 ∣ transPerTip)
    (h : SoundRun transPerTip d) : Coherent transPerTip d := by
  induction h with
  | start empty log mark oldest legal =>
    refine ⟨legal, oldest, mark, ⟨0, ?_⟩, ?_⟩
    · rw [empty]
      exact consecutive_nil
    · rw [empty]
      intro t mem
      cases mem
  | next _ legal sound ih => exact ih.step pos whole legal sound

/-- What holds of the cache at a moment of a run. -/
structure TipCacheCoherent (transPerTip : Nat) (d : Dbb) : Prop where
  gapless : Gapless transPerTip d.dbbTipCache
  touches : ∀ e, e.Legal transPerTip d → e.Sound transPerTip d →
    ∀ t number, touched transPerTip d e = some (t, number) → t.Contains transPerTip number
  states : ∀ number ≤ d.hdrNextTransaction,
    oldestCached (d.opened transPerTip).dbbTipCache ≤ number →
    ¬PageBehind transPerTip (tpcCacheState transPerTip false number d).1.log
      (number / transPerTip) →
    (tpcCacheState transPerTip false number d).2 =
        traFetchState d.tipTransactions transPerTip number ∨
      Reached transPerTip (tpcCacheState transPerTip false number d).1.log number
        (tpcCacheState transPerTip false number d).2 ∨
      (∀ t ∈ (d.opened transPerTip).dbbTipCache, t.tpcBase + transPerTip ≤ number) ∧
        (tpcCacheState transPerTip false number d).2 = traActive

theorem Coherent.touches (pos : 0 < transPerTip) (whole : 4 ∣ transPerTip)
    (h : Coherent transPerTip d) {e : TpcEvent} (legal : e.Legal transPerTip d)
    (sound : e.Sound transPerTip d) {t : Tpc} {number : Nat}
    (touch : touched transPerTip d e = some (t, number)) : t.Contains transPerTip number := by
  cases e with
  | header | oldest | initializeTpc | change => cases touch
  | update sequence =>
    obtain ⟨t', found, eq⟩ := Option.map_eq_some_iff.mp touch
    cases eq
    have base := List.find?_some found
    rw [beq_iff_eq] at base
    exact ⟨Nat.le_of_eq base, by omega⟩
  | setState n state =>
    obtain ⟨t', found, eq⟩ := Option.map_eq_some_iff.mp touch
    cases eq
    have fetched := h.fetched pos whole (number / transPerTip)
    refine fetched.gapless.locate_contains ?_ found
    rw [fetchInventoryPage, oldestCached_congr (map_tpcUpdateCache _ _ _ _)]
    exact sound
  | tweak n state =>
    obtain ⟨t', found, eq⟩ := Option.map_eq_some_iff.mp touch
    cases eq
    exact h.gapless.locate_contains sound found
  | cacheState precommited n =>
    unfold touched at touch
    simp only [tpcCacheState_fst] at touch
    split at touch
    next => cases touch
    next low =>
      obtain ⟨t', found, eq⟩ := Option.map_eq_some_iff.mp touch
      cases eq
      exact (h.opened pos whole).gapless.locate_contains (Nat.le_of_not_lt low) found
  | snapshotState precommited locked n =>
    unfold touched at touch
    simp only at touch
    split at touch
    next => cases touch
    next low =>
      obtain ⟨t', found, eq⟩ := Option.map_eq_some_iff.mp touch
      cases eq
      rcases Option.or_eq_some_iff.mp found with found | ⟨missed, found⟩
      · exact (h.opened pos whole).gapless.locate_contains (Nat.le_of_not_lt low) found
      · have kept := h.snapshots pos whole legal sound
        refine kept.gapless.locate_contains ?_ found
        rcases tpcSnapshotState_cases precommited locked number d with
          eq | ⟨⟨t', here⟩, -⟩ | ⟨hpre, -, last, hlast, eq⟩
        · rw [eq, missed] at found
          cases found
        · rw [missed] at here
          cases here
        · obtain ⟨t', hlast', -, begins⟩ := h.snapshotExtends pos whole legal sound missed hpre
          rw [(h.missed pos whole legal missed).1] at hlast eq
          cases Option.some.inj (hlast.symm.trans hlast')
          rw [eq]
          exact begins

theorem tpcCacheState_snd (number : Nat) (d : Dbb) :
    (tpcCacheState transPerTip false number d).2 =
      if number < oldestCached (d.opened transPerTip).dbbTipCache then traCommitted
      else ((tpcLocate transPerTip number (d.opened transPerTip).dbbTipCache).map
        (Tpc.state · number)).getD traActive := by
  rw [← tpcCacheState_fst false number]
  unfold tpcCacheState
  simp only
  generalize (if d.dbbTipCache.isEmpty = true then tpcInitializeTpc transPerTip number d else d) = d'
  rw [if_neg (by simp)]
  cases tpcLocate transPerTip number d'.dbbTipCache with
  | none => rfl
  | some t => rfl

/-- The cache is coherent throughout every sound run. -/
theorem soundRun_tipCacheCoherent (pos : 0 < transPerTip) (whole : 4 ∣ transPerTip)
    (h : SoundRun transPerTip d) : TipCacheCoherent transPerTip d := by
  have coherent := h.coherent pos whole
  have opened := coherent.opened pos whole
  have tip : (d.opened transPerTip).tipTransactions = d.tipTransactions := by
    rcases d.opened_eq transPerTip with ⟨empty, eq⟩ | ⟨-, eq⟩
    · obtain ⟨pages, frame, -⟩ := (coherent.fills pos whole empty).fetched
      rw [eq, frame]
    · rw [eq]
  refine ⟨coherent.gapless, fun e legal sound t number => coherent.touches pos whole legal sound, ?_⟩
  intro number started low current
  rw [tpcCacheState_fst] at current ⊢
  rw [tpcCacheState_snd, if_neg (Nat.not_lt_of_le low)]
  cases located : tpcLocate transPerTip number (d.opened transPerTip).dbbTipCache with
  | none =>
    refine .inr (.inr ⟨?_, rfl⟩)
    intro t mem
    have beyond := List.find?_eq_none.mp located t mem
    simpa using beyond
  | some t =>
    have contains := opened.gapless.locate_contains low located
    have mem := List.mem_of_find?_eq_some located
    have legal := Nat.le_trans started coherent.legal
    rcases opened.content t mem number contains legal with late | same | reached
    · exact absurd late current
    · rw [tip] at same
      exact .inl same
    · exact .inr (.inl reached)

theorem getLast_tpcBase {cache : List Tpc} {t : Tpc} (last : cache.getLast? = some t) :
    (cache.map Tpc.tpcBase).getLast? = some t.tpcBase := by
  rw [List.getLast?_map, last, Option.map_some]

end

/-- A database whose inventory pages are all zero, seen by an attachment without a cache. -/
def idleDbb (next oldest : Nat) : Dbb := ⟨[], 0, next, oldest, fun _ _ => 0, []⟩

/-- A state that another attachment has changed is read when the transaction is looked up, and the
cache is extended when one on the next page is. -/
theorem soundRun_tipCacheCoherent_next_page : ∃ d, SoundRun 4016 d ∧
    d.log = [.updated 1, .updated 0, .changed 1, .updated 0] ∧ TipCacheCoherent 4016 d := by
  have first : SoundRun 4016 ((idleDbb 1 0).step 4016 (.initializeTpc 1)) := by
    refine .next (.start rfl rfl (Nat.zero_le _) (Nat.zero_le _) (by decide)) (Nat.le_refl 1) ?_
    intro t last
    cases last
  have second := first.next (e := .header 4020 2)
    ⟨by decide, by decide, by decide, by decide⟩ trivial
  have third := second.next (e := .change 1 traCommitted) ⟨by decide, by decide⟩ trivial
  have fourth := third.next (e := .snapshotState false true 1) (by decide : 1 ≤ 4020) (by
    intro t _ beyond
    omega)
  have fifth := fourth.next (e := .snapshotState false true 4017) (by decide : 4017 ≤ 4020) (by
    intro t last _ _
    have base : some 0 = some t.tpcBase := getLast_tpcBase last
    refine ⟨.inl ?_, by decide, by decide⟩
    rw [← Option.some.inj base]
    decide)
  exact ⟨_, fifth, rfl, soundRun_tipCacheCoherent (by decide) (by decide) fifth⟩

/-- A block that is used for a transaction in front of it. -/
theorem touched_outside {d : Dbb} {e : TpcEvent} (base : Nat) {number : Nat}
    (touch : (touched 4016 d e).map (fun p => (p.1.tpcBase, p.2)) = some (base, number))
    (outside : number < base) :
    ∃ t, touched 4016 d e = some (t, number) ∧ ¬t.Contains 4016 number := by
  obtain ⟨⟨t, n⟩, found, eq⟩ := Option.map_eq_some_iff.mp touch
  cases eq
  exact ⟨t, found, fun contains => Nat.not_lt_of_le contains.1 outside⟩

/-- A page that is passed over when the oldest transaction of the header has moved on, a state set
in front of the cache, and a transaction on a page that is not in the cache. -/
theorem tipCache_incoherent :
    (∃ d e number, TpcRun 4016 d ∧ e.Legal 4016 d ∧
      ¬Gapless 4016 (d.step 4016 e).dbbTipCache ∧
      ∃ t, touched 4016 d e = some (t, number) ∧ ¬t.Contains 4016 number) ∧
    (∃ d number state, TpcRun 4016 d ∧
      (TpcEvent.setState number state).Legal 4016 d ∧
      ∃ t, touched 4016 d (.setState number state) = some (t, number) ∧ ¬t.Contains 4016 number) ∧
    ∃ d number, TpcRun 4016 d ∧ number ≤ d.hdrNextTransaction ∧
      oldestCached (d.opened 4016).dbbTipCache ≤ number ∧ ¬PageBehind 4016 d.log (number / 4016) ∧
      traFetchState d.tipTransactions 4016 number = traCommitted ∧
      (tpcCacheState 4016 false number d).2 = traActive := by
  have first : TpcRun 4016 ((idleDbb 1 0).step 4016 (.initializeTpc 1)) :=
    .next (.start rfl rfl (Nat.zero_le _) (Nat.zero_le _) (by decide)) (Nat.le_refl 1)
  refine ⟨?_, ?_, ?_⟩
  · refine ⟨_, .snapshotState false true 4017, 4017,
      .next (e := .header 16070 12060) first ?_, ?_, ?_, touched_outside 12048 ?_ ?_⟩
    · exact ⟨by decide, by decide, by decide, by decide⟩
    · exact (by decide : 4017 ≤ 16070)
    · rintro ⟨sequence, gapless⟩
      have bases : [0, 12048, 16064] = List.range' (sequence * 4016) 3 4016 := gapless
      rw [List.range'_succ, List.range'_succ, List.cons.injEq, List.cons.injEq] at bases
      omega
    · decide
    · decide
  · refine ⟨_, 5, traDead, .next (e := .initializeTpc 16070)
      (.start (d := idleDbb 16070 12060) rfl rfl (Nat.zero_le _) ?_ ?_) (Nat.le_refl _), ?_,
      touched_outside 12048 ?_ ?_⟩
    · decide
    · decide
    · exact ⟨by decide, by decide⟩
    · decide
    · decide
  · refine ⟨_, 4017, .next (e := .update 1) (.next (e := .change 4017 traCommitted)
      (.next (e := .header 4020 2) first ?_) ?_) ?_, ?_, ?_, ?_, ?_, ?_⟩
    · exact ⟨by decide, by decide, by decide, by decide⟩
    · exact ⟨by decide, by decide⟩
    · exact (by decide : 4016 ≤ 4020)
    · decide
    · decide
    · rintro ⟨other, -⟩
      exact other rfl
    · decide
    · decide

end InterBase
