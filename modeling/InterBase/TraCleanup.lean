import InterBase.TpcCache

namespace InterBase

open Memory

/-- What `TRA_cleanup` works on: the memory from `tip_transactions` on of every inventory page, the
oldest transaction in limbo, and the bytes that have been looked at, by page and offset. -/
structure Cleanup where
  tip : Nat → Nat → UInt8
  limbo : Nat
  looked : List (Nat × Nat)

section

/- How many transactions fit on an inventory page. -/
variable (transPerTip : Nat)

/-- One transaction of the page. -/
def cleanupNumber (sequence number : Nat) (c : Cleanup) : Cleanup :=
  let offset := transOffset number
  let byte := c.tip sequence offset
  let shift := transShift number
  let state := byte.toNat >>> shift &&& traMask
  let c := { c with looked := (sequence, offset) :: c.looked }
  if state = traLimbo ∧ c.limbo = 0 then { c with limbo := sequence * transPerTip + number }
  else if state = traActive then
    { c with
      tip := Function.update c.tip sequence
        (write (c.tip sequence) offset [assign byte shift traDead]) }
  else c

def cleanupPage (sequence max number : Nat) (c : Cleanup) : Cleanup :=
  if number ≤ max then
    cleanupPage sequence max (number + 1) (cleanupNumber transPerTip sequence number c)
  else c
termination_by max + 1 - number

/-- The last transaction that is looked at on a page. -/
def cleanupMax (ceiling sequence : Nat) : Nat :=
  let max := ceiling - sequence * transPerTip
  if transPerTip < max then transPerTip - 1 else max

def cleanupPages (ceiling last sequence number : Nat) (c : Cleanup) : Cleanup :=
  if sequence ≤ last then
    cleanupPages ceiling last (sequence + 1) 0
      (cleanupPage transPerTip sequence (cleanupMax transPerTip ceiling sequence) number c)
  else c
termination_by last + 1 - sequence

/-- `TRA_cleanup`. Of the attachments only whether they have transactions is looked at. -/
def traCleanup (readOnly : Bool) (attTransactions : List Bool)
    (hdrNextTransaction hdrOldestActive : Nat) (tip : Nat → Nat → UInt8) : Cleanup :=
  let c : Cleanup := ⟨tip, 0, []⟩
  if readOnly = true then c
  else if attTransactions.any id = true then c
  else
    let ceiling := hdrNextTransaction
    let active := hdrOldestActive
    if ceiling = 0 then c
    else
      let last := ceiling / transPerTip
      cleanupPages transPerTip ceiling last (active / transPerTip) (active % transPerTip) c

end

/-- The state at a position of an inventory page. -/
def tipState (tip : Nat → Nat → UInt8) (sequence number : Nat) : Nat :=
  byteState (tip sequence (transOffset number)) number

/-- One state of a byte is set in the memory of a page. -/
theorem byteState_write (bytes : Nat → UInt8) {state : Nat} (legal : state ≤ traMask) (k j : Nat) :
    byteState (write bytes (transOffset k)
      [assign (bytes (transOffset k)) (transShift k) state] (transOffset j)) j =
      if j = k then state else byteState (bytes (transOffset j)) j := by
  simp only [transOffset_eq]
  by_cases byte : k / 4 = j / 4
  · have same := write_inside bytes (a := j / 4) (i := 0)
      [assign (bytes (j / 4)) (transShift k) state] (by simp)
    rw [Nat.add_zero, List.getElem?_cons_zero] at same
    rw [byte, Option.some.inj same, byteState_assign _ legal]
    by_cases slot : k % 4 = j % 4
    · rw [if_pos slot, if_pos (by omega)]
    · rw [if_neg slot, if_neg (by omega)]
  · rw [if_neg (by omega)]
    rcases Nat.lt_or_gt_of_ne byte with below | above
    · rw [write_above _ _ (by simp only [List.length_singleton]; omega)]
    · rw [write_below _ _ above]

section

variable {transPerTip : Nat}

theorem tip_cleanupNumber_eq (s k : Nat) (c : Cleanup) :
    (cleanupNumber transPerTip s k c).tip = if tipState c.tip s k = traActive then
        Function.update c.tip s (write (c.tip s) (transOffset k)
          [assign (c.tip s (transOffset k)) (transShift k) traDead])
      else c.tip := by
  unfold cleanupNumber tipState byteState
  simp only
  split
  next limbo =>
    rw [limbo.1, if_neg (by decide)]
  next =>
    split
    · rfl
    · rfl

/-- What one step does: the transaction is dead if it was active, and only its byte is touched. -/
theorem tipState_cleanupNumber (s k : Nat) (c : Cleanup) (q j : Nat) :
    tipState (cleanupNumber transPerTip s k c).tip q j =
      if (q = s ∧ j = k) ∧ tipState c.tip q j = traActive then traDead else tipState c.tip q j := by
  rw [tip_cleanupNumber_eq]
  by_cases active : tipState c.tip s k = traActive
  · rw [if_pos active]
    by_cases page : q = s
    · subst page
      unfold tipState
      rw [Function.update_self, byteState_write _ (by decide)]
      by_cases same : j = k
      · subst same
        rw [if_pos rfl, if_pos ⟨⟨rfl, rfl⟩, active⟩]
      · rw [if_neg same, if_neg fun h => same h.1.2]
    · rw [if_neg fun h => page h.1.1]
      unfold tipState
      rw [Function.update_of_ne page]
  · rw [if_neg active, if_neg]
    intro h
    obtain ⟨⟨rfl, rfl⟩, inactive⟩ := h
    exact active inactive

theorem tip_cleanupNumber (s k : Nat) (c : Cleanup) {q i : Nat}
    (apart : q ≠ s ∨ i ≠ transOffset k) :
    (cleanupNumber transPerTip s k c).tip q i = c.tip q i := by
  rw [tip_cleanupNumber_eq]
  split
  · by_cases page : q = s
    · subst page
      have byte := apart.resolve_left fun h => h rfl
      rw [Function.update_self]
      rcases Nat.lt_or_gt_of_ne byte with below | above
      · exact write_below _ _ below
      · exact write_above _ _ (by simpa using above)
    · rw [Function.update_of_ne page]
  · rfl

theorem looked_cleanupNumber (s k : Nat) (c : Cleanup) :
    (cleanupNumber transPerTip s k c).looked = (s, transOffset k) :: c.looked := by
  unfold cleanupNumber
  simp only
  split
  · rfl
  · split <;> rfl

/-- The transactions of a page from `number` up to `max`. -/
theorem tipState_cleanupPage (s max number : Nat) (c : Cleanup) (q j : Nat) :
    tipState (cleanupPage transPerTip s max number c).tip q j =
      if (q = s ∧ number ≤ j ∧ j ≤ max) ∧ tipState c.tip q j = traActive then traDead
      else tipState c.tip q j := by
  induction hn : max + 1 - number generalizing number c with
  | zero =>
    unfold cleanupPage
    rw [if_neg (by omega), if_neg (by omega)]
  | succ n ih =>
    unfold cleanupPage
    rw [if_pos (by omega), ih (number + 1) _ (by omega), tipState_cleanupNumber]
    -- a state that is dead by now is not active any more
    have dead : traDead ≠ traActive := by decide
    by_cases here : (q = s ∧ j = number) ∧ tipState c.tip q j = traActive
    · rw [if_pos here, if_neg (by omega), if_pos ⟨by omega, here.2⟩]
    · rw [if_neg here]
      by_cases active : tipState c.tip q j = traActive
      · by_cases later : q = s ∧ number ≤ j ∧ j ≤ max
        · rw [if_pos ⟨by omega, active⟩, if_pos ⟨later, active⟩]
        · rw [if_neg (by omega), if_neg (by omega)]
      · rw [if_neg fun h => active h.2, if_neg fun h => active h.2]

theorem tip_cleanupPage (s max number : Nat) (c : Cleanup) {q i : Nat}
    (apart : q ≠ s ∨ transOffset max < i) :
    (cleanupPage transPerTip s max number c).tip q i = c.tip q i := by
  induction hn : max + 1 - number generalizing number c with
  | zero =>
    unfold cleanupPage
    rw [if_neg (by omega)]
  | succ n ih =>
    have order : number ≤ max := by omega
    unfold cleanupPage
    rw [if_pos order, ih (number + 1) _ (by omega), tip_cleanupNumber]
    apply apart.imp_right
    intro behind
    rw [transOffset_eq] at behind ⊢
    omega

theorem looked_cleanupPage (s max number : Nat) (c : Cleanup) {x : Nat × Nat}
    (h : x ∈ (cleanupPage transPerTip s max number c).looked) :
    x ∈ c.looked ∨ x.1 = s ∧ x.2 ≤ transOffset max := by
  induction hn : max + 1 - number generalizing number c with
  | zero =>
    unfold cleanupPage at h
    rw [if_neg (by omega)] at h
    exact Or.inl h
  | succ n ih =>
    unfold cleanupPage at h
    rw [if_pos (by omega)] at h
    obtain inner | last := ih (number + 1) _ h (by omega)
    · rw [looked_cleanupNumber] at inner
      obtain rfl | old := List.mem_cons.mp inner
      · have order : number ≤ max := by omega
        refine Or.inr ⟨rfl, ?_⟩
        show transOffset number ≤ transOffset max
        rw [transOffset_eq, transOffset_eq]
        exact Nat.div_le_div_right order
      · exact Or.inl old
    · exact Or.inr last

/-- The transactions from a position of a page up to the ceiling. -/
theorem tipState_cleanupPages (ceiling last sequence number : Nat) (c : Cleanup) (q j : Nat) :
    tipState (cleanupPages transPerTip ceiling last sequence number c).tip q j =
      if ((sequence < q ∨ q = sequence ∧ number ≤ j) ∧ q ≤ last ∧
        j ≤ cleanupMax transPerTip ceiling q) ∧ tipState c.tip q j = traActive then traDead
      else tipState c.tip q j := by
  induction hn : last + 1 - sequence generalizing sequence number c with
  | zero =>
    unfold cleanupPages
    rw [if_neg (by omega), if_neg (by omega)]
  | succ n ih =>
    unfold cleanupPages
    rw [if_pos (by omega), ih (sequence + 1) 0 _ (by omega), tipState_cleanupPage]
    by_cases page : q = sequence
    · subst page
      rw [if_neg (by omega)]
      by_cases active : tipState c.tip q j = traActive
      · by_cases here : number ≤ j ∧ j ≤ cleanupMax transPerTip ceiling q
        · rw [if_pos ⟨⟨rfl, here⟩, active⟩,
            if_pos ⟨⟨Or.inr ⟨rfl, here.1⟩, by omega, here.2⟩, active⟩]
        · rw [if_neg (by omega), if_neg (by omega)]
      · rw [if_neg fun h => active h.2, if_neg fun h => active h.2]
    · have same : ¬((q = sequence ∧ number ≤ j ∧ j ≤ cleanupMax transPerTip ceiling sequence) ∧
          tipState c.tip q j = traActive) := fun h => page h.1.1
      rw [if_neg same]
      by_cases active : tipState c.tip q j = traActive
      · by_cases later : sequence < q ∧ q ≤ last ∧ j ≤ cleanupMax transPerTip ceiling q
        · rw [if_pos ⟨by omega, active⟩, if_pos ⟨by omega, active⟩]
        · rw [if_neg (by omega), if_neg (by omega)]
      · rw [if_neg fun h => active h.2, if_neg fun h => active h.2]

theorem tip_cleanupPages (ceiling last sequence number : Nat) (c : Cleanup) {q i : Nat}
    (apart : q < sequence ∨ transOffset (cleanupMax transPerTip ceiling q) < i) :
    (cleanupPages transPerTip ceiling last sequence number c).tip q i = c.tip q i := by
  induction hn : last + 1 - sequence generalizing sequence number c with
  | zero =>
    unfold cleanupPages
    rw [if_neg (by omega)]
  | succ n ih =>
    unfold cleanupPages
    rw [if_pos (by omega), ih (sequence + 1) 0 _ (by omega) (by omega)]
    apply tip_cleanupPage
    by_cases page : q = sequence
    · subst page
      omega
    · exact Or.inl page

theorem looked_cleanupPages (ceiling last sequence number : Nat) (c : Cleanup) {x : Nat × Nat}
    (h : x ∈ (cleanupPages transPerTip ceiling last sequence number c).looked) :
    x ∈ c.looked ∨ (sequence ≤ x.1 ∧ x.1 ≤ last) ∧
      x.2 ≤ transOffset (cleanupMax transPerTip ceiling x.1) := by
  induction hn : last + 1 - sequence generalizing sequence number c with
  | zero =>
    unfold cleanupPages at h
    rw [if_neg (by omega)] at h
    exact Or.inl h
  | succ n ih =>
    unfold cleanupPages at h
    rw [if_pos (by omega)] at h
    obtain inner | later := ih (sequence + 1) 0 _ h (by omega)
    · obtain old | ⟨rfl, low⟩ := looked_cleanupPage _ _ _ _ inner
      · exact Or.inl old
      · exact Or.inr ⟨by omega, low⟩
    · exact Or.inr ⟨by omega, later.2⟩

theorem traFetchState_tipState (whole : 4 ∣ transPerTip) (tip : Nat → Nat → UInt8) (n : Nat) :
    traFetchState tip transPerTip n = tipState tip (n / transPerTip) (n % transPerTip) := by
  have slot : transShift (n % transPerTip) = transShift n := by
    rw [transShift_eq, transShift_eq, Nat.mod_mod_of_dvd _ whole]
  unfold tipState byteState
  rw [slot]
  rfl

/-- Which positions of the pages belong to the transactions up to the ceiling. -/
theorem position_le_ceiling (pos : 0 < transPerTip) (ceiling active n : Nat) :
    ((active / transPerTip < n / transPerTip ∨
      n / transPerTip = active / transPerTip ∧ active % transPerTip ≤ n % transPerTip) ∧
      n / transPerTip ≤ ceiling / transPerTip ∧
      n % transPerTip ≤ cleanupMax transPerTip ceiling (n / transPerTip)) ↔
      active ≤ n ∧ n ≤ ceiling := by
  have hn := Nat.div_add_mod n transPerTip
  have ha := Nat.div_add_mod active transPerTip
  have hc := Nat.div_add_mod ceiling transPerTip
  have ln := Nat.mod_lt n pos
  have la := Nat.mod_lt active pos
  have lc := Nat.mod_lt ceiling pos
  have low : active ≤ n ↔ active / transPerTip < n / transPerTip ∨
      n / transPerTip = active / transPerTip ∧ active % transPerTip ≤ n % transPerTip := by
    constructor
    · intro order
      obtain earlier | same := Nat.lt_or_eq_of_le (Nat.div_le_div_right order (c := transPerTip))
      · exact Or.inl earlier
      · rw [same] at ha
        exact Or.inr ⟨same.symm, by omega⟩
    · intro order
      obtain earlier | ⟨same, rest⟩ := order
      · have step : transPerTip * (active / transPerTip + 1) ≤ transPerTip * (n / transPerTip) :=
          Nat.mul_le_mul_left _ earlier
        rw [Nat.mul_succ] at step
        omega
      · rw [same] at hn
        omega
  have high : n ≤ ceiling ↔ n / transPerTip ≤ ceiling / transPerTip ∧
      n % transPerTip ≤ cleanupMax transPerTip ceiling (n / transPerTip) := by
    unfold cleanupMax
    rw [Nat.mul_comm (n / transPerTip)]
    simp only
    constructor
    · intro order
      refine ⟨Nat.div_le_div_right order, ?_⟩
      split <;> omega
    · intro order
      obtain ⟨pages, rest⟩ := order
      obtain earlier | same := Nat.lt_or_eq_of_le pages
      · have step : transPerTip * (n / transPerTip + 1) ≤ transPerTip * (ceiling / transPerTip) :=
          Nat.mul_le_mul_left _ earlier
        rw [Nat.mul_succ] at step
        omega
      · rw [← same] at hc
        rw [if_neg (by omega)] at rest
        omega
  rw [low, high]

/-- The last transaction stands first on its page, and the walk begins on an earlier one. -/
def EndsWithPage (transPerTip hdrNextTransaction hdrOldestActive : Nat) : Prop :=
  hdrOldestActive / transPerTip < hdrNextTransaction / transPerTip ∧
    hdrNextTransaction % transPerTip = 0

theorem cleanupMax_lt (pos : 0 < transPerTip) {ceiling active sequence : Nat}
    (first : active / transPerTip ≤ sequence)
    (apart : ¬EndsWithPage transPerTip ceiling active ∨ ceiling / transPerTip ≤ sequence) :
    cleanupMax transPerTip ceiling sequence < transPerTip := by
  have hc := Nat.div_add_mod ceiling transPerTip
  have lc := Nat.mod_lt ceiling pos
  unfold cleanupMax
  simp only
  split
  next => omega
  next small =>
    -- a whole page is left only if the ceiling is the first position behind it
    apply Nat.lt_of_le_of_ne (Nat.le_of_not_lt small)
    intro full
    have ceil : ceiling = transPerTip * (sequence + 1) := by
      rw [Nat.mul_succ, Nat.mul_comm]
      omega
    have last : ceiling / transPerTip = sequence + 1 := by
      rw [ceil, Nat.mul_div_cancel_left _ pos]
    have ends : EndsWithPage transPerTip ceiling active := by
      refine ⟨by omega, ?_⟩
      rw [ceil, Nat.mul_mod_right]
    obtain other | behind := apart
    · exact other ends
    · omega

/-- Whether `TRA_cleanup` gets to the inventory pages. -/
def Cleans (readOnly : Bool) (attTransactions : List Bool) (hdrNextTransaction : Nat) : Prop :=
  readOnly = false ∧ attTransactions.any id = false ∧ hdrNextTransaction ≠ 0

theorem traCleanup_of_cleans {readOnly : Bool} {attTransactions : List Bool} {next : Nat}
    (cleans : Cleans readOnly attTransactions next) (active : Nat) (tip : Nat → Nat → UInt8) :
    traCleanup transPerTip readOnly attTransactions next active tip =
      cleanupPages transPerTip next (next / transPerTip) (active / transPerTip)
        (active % transPerTip) ⟨tip, 0, []⟩ := by
  obtain ⟨write, idle, started⟩ := cleans
  unfold traCleanup
  simp only
  rw [if_neg (by simp [write]), if_neg (by simp [idle]), if_neg started]

theorem traCleanup_of_not_cleans {readOnly : Bool} {attTransactions : List Bool} {next : Nat}
    (stays : ¬Cleans readOnly attTransactions next) (active : Nat) (tip : Nat → Nat → UInt8) :
    traCleanup transPerTip readOnly attTransactions next active tip = ⟨tip, 0, []⟩ := by
  unfold traCleanup
  simp only
  split
  · rfl
  next write =>
    split
    · rfl
    next idle =>
      split
      · rfl
      next started => exact absurd ⟨by simpa using write, by simpa using idle, started⟩ stays

/-- The inventory after the transactions that a crash interrupted have been marked. -/
structure MarksInterrupted (transPerTip hdrNextTransaction hdrOldestActive : Nat)
    (tip : Nat → Nat → UInt8) (c : Cleanup) : Prop where
  marked : ∀ n, hdrOldestActive ≤ n → n ≤ hdrNextTransaction →
    traFetchState tip transPerTip n = traActive → traFetchState c.tip transPerTip n = traDead
  kept : ∀ n, n < hdrOldestActive ∨ hdrNextTransaction < n ∨
    traFetchState tip transPerTip n ≠ traActive →
    traFetchState c.tip transPerTip n = traFetchState tip transPerTip n
  inside : ¬EndsWithPage transPerTip hdrNextTransaction hdrOldestActive →
    ∀ x ∈ c.looked, x.2 < transOffset transPerTip
  nothingElse : ¬EndsWithPage transPerTip hdrNextTransaction hdrOldestActive →
    ∀ sequence i, transOffset transPerTip ≤ i → c.tip sequence i = tip sequence i

theorem traFetchState_traCleanup (pos : 0 < transPerTip) (whole : 4 ∣ transPerTip)
    {readOnly : Bool} {attTransactions : List Bool} {next : Nat}
    (cleans : Cleans readOnly attTransactions next) (active : Nat) (tip : Nat → Nat → UInt8)
    (n : Nat) : traFetchState
      (traCleanup transPerTip readOnly attTransactions next active tip).tip transPerTip n =
        if (active ≤ n ∧ n ≤ next) ∧ traFetchState tip transPerTip n = traActive then traDead
        else traFetchState tip transPerTip n := by
  rw [traCleanup_of_cleans cleans, traFetchState_tipState whole, traFetchState_tipState whole,
    tipState_cleanupPages]
  simp only [position_le_ceiling pos]

theorem marksInterrupted_traCleanup (pos : 0 < transPerTip) (whole : 4 ∣ transPerTip)
    {readOnly : Bool} {attTransactions : List Bool} {next : Nat}
    (cleans : Cleans readOnly attTransactions next) (active : Nat) (tip : Nat → Nat → UInt8) :
    MarksInterrupted transPerTip next active tip
      (traCleanup transPerTip readOnly attTransactions next active tip) := by
  have states := traFetchState_traCleanup pos whole cleans active tip
  refine ⟨?_, ?_, ?_, ?_⟩
  · intro n low high interrupted
    rw [states, if_pos ⟨⟨low, high⟩, interrupted⟩]
  · intro n other
    rw [states, if_neg]
    intro h
    obtain ⟨⟨low, high⟩, interrupted⟩ := h
    obtain below | above | different := other
    · omega
    · omega
    · exact different interrupted
  · intro apart x looked
    rw [traCleanup_of_cleans cleans] at looked
    obtain old | ⟨⟨first, -⟩, low⟩ := looked_cleanupPages _ _ _ _ _ looked
    · exact absurd old (by simp)
    · have short := cleanupMax_lt pos first (Or.inl apart)
      rw [transOffset_eq] at low ⊢
      omega
  · intro apart sequence i behind
    rw [traCleanup_of_cleans cleans]
    rw [tip_cleanupPages]
    obtain earlier | first := Nat.lt_or_ge sequence (active / transPerTip)
    · exact Or.inl earlier
    · have short := cleanupMax_lt pos first (Or.inl apart)
      right
      rw [transOffset_eq] at behind ⊢
      omega

/-- `TRA_cleanup` marks the transactions from the oldest active one up to the last one that are
still active, and no other. -/
theorem traCleanup_marks (pos : 0 < transPerTip) (whole : 4 ∣ transPerTip) (readOnly : Bool)
    (attTransactions : List Bool) (next active : Nat) (tip : Nat → Nat → UInt8) :
    (Cleans readOnly attTransactions next → MarksInterrupted transPerTip next active tip
      (traCleanup transPerTip readOnly attTransactions next active tip)) ∧
    (¬Cleans readOnly attTransactions next →
      traCleanup transPerTip readOnly attTransactions next active tip = ⟨tip, 0, []⟩) :=
  ⟨fun cleans => marksInterrupted_traCleanup pos whole cleans active tip,
    fun stays => traCleanup_of_not_cleans stays active tip⟩

theorem traCleanup_marks_second_page :
    (Cleans false [false] 4020 → MarksInterrupted 4016 4020 4010 (fun _ _ => 17)
      (traCleanup 4016 false [false] 4020 4010 fun _ _ => 17)) ∧
    (¬Cleans false [false] 4020 →
      traCleanup 4016 false [false] 4020 4010 (fun _ _ => 17) = ⟨fun _ _ => 17, 0, []⟩) :=
  traCleanup_marks (by decide) (by decide) false [false] 4020 4010 fun _ _ => 17

/-- The walk begins with the oldest active transaction and not with the first one of its byte. -/
theorem traCleanup_skips :
    traBase 5 ≤ 4 ∧ 4 ≤ 6 ∧ traFetchState (fun _ _ => 0) 4016 4 = traActive ∧
      traFetchState (traCleanup 4016 false [] 6 5 fun _ _ => 0).tip 4016 4 ≠ traDead := by
  refine ⟨by decide, by decide, by decide, ?_⟩
  rw [traFetchState_traCleanup (by decide) (by decide) ⟨rfl, rfl, by decide⟩, if_neg (by decide)]
  decide

end

end InterBase
