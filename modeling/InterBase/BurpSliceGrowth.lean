import InterBase.BurpSlice

namespace InterBase

namespace BurpSlice

open Memory BigEndian

section

variable {port : Port} {c : Int} {x x' : Xdr} {b : UInt8} {bytes rest : List UInt8}

theorem ok_bind {β γ : Type} (a : β) (f : β → Except Stop γ) : (Except.ok a >>= f) = f a := rfl

theorem error_bind {β γ : Type} (e : Stop) (f : β → Except Stop γ) :
    (Except.error e >>= f) = .error e := rfl

theorem fetch_ok {area : Area} {p count : Nat} (inside : p + count ≤ area.size) :
    area.fetch p count = .ok (slice area.bytes p count) :=
  if_pos (inMessage_iff.mpr (.inr inside))

theorem store_ok {area : Area} {p : Nat} (inside : p + bytes.length ≤ area.size) :
    area.store p bytes = .ok { area with bytes := write area.bytes p bytes } :=
  if_pos (inMessage_iff.mpr (.inr inside))

theorem store_outside {area : Area} {p : Nat} (some : 0 < bytes.length)
    (outside : area.size < p + bytes.length) : area.store p bytes = .error .outside :=
  if_neg fun inside => by
    rcases inMessage_iff.mp inside with none | inside <;> omega

theorem slong_of_small {n : Nat} (small : n < 2147483648) : slong n = n :=
  slong_of_mem (by omega) (by omega)

theorem slong_of_large {n : Nat} (large : 2147483648 ≤ n) (small : n < 4294967296) :
    slong n = n - 4294967296 := by
  unfold slong
  omega

theorem Port.link_bounds (port : Port) : 4 ≤ port.link ∧ port.link ≤ 8 := by
  rcases port.link_cases with four | eight <;> omega

theorem burpAlloc_ok {size : Nat} (small : size + port.link < 2147483648) :
    burpAlloc port size = .ok ⟨size, fun _ => 0⟩ := by
  have link := port.link_bounds
  simp only [burpAlloc, ulong_of_lt (show size + port.link < 4294967296 by omega)]
  rw [slong_of_small small, if_pos (by omega), Nat.add_sub_cancel]

/-- A request that is too large for an `SLONG` fails, or comes round to a block without a byte. -/
theorem burpAlloc_large {size : Nat} (large : 2147483648 ≤ size + port.link)
    (small : size < 4294967296) : ∀ area, burpAlloc port size = .ok area → area.size = 0 := by
  intro area made
  have link := port.link_bounds
  simp only [burpAlloc] at made
  split at made
  next positive =>
    obtain rfl := Except.ok.inj made
    change ulong (size + port.link) - port.link = 0
    rcases Nat.lt_or_ge (size + port.link) 4294967296 with fits | wraps
    · rw [ulong_of_lt fits, slong_of_large large fits] at positive
      omega
    · unfold ulong
      omega
  next => simp at made

/-- The bytes from `x_base` to `x_private`. -/
def Xdr.written (xdrs : Xdr) : List UInt8 := slice xdrs.xBase.bytes 0 xdrs.xPrivate

/-- The state after a byte. -/
def Xdr.pushed (b : UInt8) (xdrs : Xdr) : Xdr :=
  { xdrs with
    xBase := { xdrs.xBase with bytes := write xdrs.xBase.bytes xdrs.xPrivate [b] }
    xPrivate := xdrs.xPrivate + 1
    xHandy := xdrs.xHandy - 1 }

/-- The state after a growth that finds its room. -/
def Xdr.expanded (xdrs : Xdr) : Xdr :=
  let length := ((xdrs.xPrivate : Int) + xdrs.xHandy + 1024).toNat
  { xdrs with
    lstrLength := length
    lstrAllocated := length
    xBase := ⟨length, write (fun _ => 0) 0 xdrs.written⟩
    xHandy := xdrs.xHandy + 1024 }

/-- The buffer has room for `c` bytes, as `x_handy` says. A length that came round to a few bytes in
`MISC_alloc_burp` leaves `c` below zero. -/
structure Grown (port : Port) (c : Int) (xdrs : Xdr) : Prop where
  handy : xdrs.xPrivate + xdrs.xHandy = c
  size : xdrs.xBase.size = c.toNat
  low : -8 ≤ c
  high : c + port.link < 2147483648
  used : xdrs.xPrivate ≤ c.toNat

theorem putbyte_ok (room : x.xPrivate < x.xBase.size) :
    putbyte b { x with xHandy := x.xHandy - 1 } = .ok (x.pushed b) := by
  have inside : x.xPrivate + [b].length ≤ x.xBase.size := room
  simp only [putbyte, store_ok inside, ok_bind]
  rfl

theorem written_pushed : (x.pushed b).written = x.written ++ [b] := by
  have keeps : slice (write x.xBase.bytes x.xPrivate [b]) 0 x.xPrivate = x.written :=
    slice_write_disjoint x.xBase.bytes [b] (.inl (by omega))
  have last : slice (write x.xBase.bytes x.xPrivate [b]) x.xPrivate 1 = [b] :=
    slice_write_self x.xBase.bytes x.xPrivate [b]
  change slice (write x.xBase.bytes x.xPrivate [b]) 0 (x.xPrivate + 1) = _
  rw [slice_append, Nat.zero_add, keeps, last]

theorem Grown.pushed (grown : Grown port c x) (room : (x.xPrivate : Int) < c) :
    Grown port c (x.pushed b) := by
  have handy := grown.handy
  refine ⟨?_, grown.size, grown.low, grown.high, ?_⟩
  · change ((x.xPrivate + 1 : Nat) : Int) + (x.xHandy - 1) = c
    omega
  · change x.xPrivate + 1 ≤ c.toNat
    omega

theorem expandBuffer_ok (grown : Grown port c x) (small : c ≤ 31743) :
    expandBuffer port x = .ok x.expanded := by
  have link := port.link_bounds
  have handy := grown.handy
  have low := grown.low
  have used := grown.used
  have length : sshort (((x.xPrivate : Int) + x.xHandy + 1024) % 65536).toNat = c + 1024 := by
    unfold sshort
    rw [if_pos (by omega)]
    omega
  have request : ((c + 1024) % 4294967296).toNat = (c + 1024).toNat := by omega
  have old : x.xBase.fetch 0 x.xPrivate = .ok x.written := fetch_ok (by rw [grown.size]; omega)
  have room : 0 + x.written.length ≤ (c + 1024).toNat := by
    rw [Xdr.written, length_slice]
    omega
  have new : (Area.mk (c + 1024).toNat fun _ => 0).store 0 x.written =
      .ok ⟨(c + 1024).toNat, write (fun _ => 0) 0 x.written⟩ := store_ok room
  simp only [expandBuffer, length, request]
  rw [burpAlloc_ok (show (c + 1024).toNat + port.link < 2147483648 by omega)]
  simp only [old, ok_bind, new]
  rw [Xdr.expanded, handy]
  rfl

/-- From 31744 bytes on the new length does not fit an `SSHORT`: it is negative, or less than what is
to be kept. -/
theorem expandBuffer_fails (grown : Grown port c x) (large : 31743 < c) (full : x.xHandy ≤ 0) :
    ∃ e, expandBuffer port x = .error e := by
  have link := port.link_bounds
  have handy := grown.handy
  have high := grown.high
  have used := grown.used
  let length := sshort (((x.xPrivate : Int) + x.xHandy + 1024) % 65536).toNat
  have short : length < 0 ∨ 0 ≤ length ∧ length < 32768 ∧ length < x.xPrivate := by
    simp only [length, sshort]
    split <;> omega
  have low : -32768 ≤ length := by
    simp only [length, sshort]
    split <;> omega
  have old : x.xBase.fetch 0 x.xPrivate = .ok x.written := fetch_ok (by rw [grown.size]; omega)
  have count : x.written.length = x.xPrivate := length_slice _ 0 _
  simp only [expandBuffer]
  cases made : burpAlloc port (length % 4294967296).toNat with
  | error e => exact ⟨e, rfl⟩
  | ok new =>
    have less : new.size < x.xPrivate := by
      rcases short with negative | ⟨positive, small, less⟩
      · have zero := burpAlloc_large
          (show 2147483648 ≤ (length % 4294967296).toNat + port.link by omega) (by omega) new made
        omega
      · rw [burpAlloc_ok (by omega)] at made
        obtain rfl := Except.ok.inj made
        change (length % 4294967296).toNat < x.xPrivate
        omega
    have outside : new.store 0 x.written = .error .outside :=
      store_outside (by omega) (by omega)
    refine ⟨.outside, ?_⟩
    simp only [old, ok_bind, outside, error_bind]

theorem written_expanded : x.expanded.written = x.written := by
  have kept := slice_write_self (fun _ : Nat => (0 : UInt8)) 0 x.written
  rw [show x.written.length = x.xPrivate from length_slice _ 0 _] at kept
  exact kept

theorem Grown.expanded (grown : Grown port c x) (small : c ≤ 31743) :
    Grown port (c + 1024) x.expanded := by
  have link := port.link_bounds
  have handy := grown.handy
  have low := grown.low
  have used := grown.used
  refine ⟨?_, ?_, by omega, by omega, ?_⟩
  · change (x.xPrivate : Int) + (x.xHandy + 1024) = c + 1024
    omega
  · change ((x.xPrivate : Int) + x.xHandy + 1024).toNat = (c + 1024).toNat
    rw [handy]
  · change x.xPrivate ≤ (c + 1024).toNat
    omega

theorem putEach_room (grown : Grown port c x) (room : 0 < x.xHandy) :
    putEach port (b :: rest) x = putEach port rest (x.pushed b) := by
  have handy := grown.handy
  have inside : x.xPrivate < x.xBase.size := by
    rw [grown.size]
    omega
  simp only [putEach, if_neg (show ¬x.xHandy ≤ 0 by omega), ok_bind, putbyte_ok inside]

theorem putEach_full (grown : Grown port c x) (full : x.xHandy ≤ 0) (small : c ≤ 31743) :
    putEach port (b :: rest) x = putEach port rest (x.expanded.pushed b) := by
  have handy := grown.handy
  have low := grown.low
  have used := grown.used
  have wide := grown.expanded small
  have inside : x.expanded.xPrivate < x.expanded.xBase.size := by
    rw [wide.size]
    change x.xPrivate < _
    omega
  simp only [putEach, if_pos full, expandBuffer_ok grown small, ok_bind, putbyte_ok inside]

/-- `x'` is `x` with `bytes` behind what was written. -/
structure Wrote (x x' : Xdr) (bytes : List UInt8) : Prop where
  op : x'.xOp = x.xOp
  data : x'.data = x.data
  count : x'.xPrivate = x.xPrivate + bytes.length
  written : x'.written = x.written ++ bytes

theorem Wrote.cons {y : Xdr} (first : Wrote x y [b]) (second : Wrote y x' rest) :
    Wrote x x' (b :: rest) where
  op := second.op.trans first.op
  data := second.data.trans first.data
  count := by
    have one := first.count
    have more := second.count
    simp only [List.length_cons, List.length_nil] at one ⊢
    omega
  written := by
    rw [second.written, first.written, List.append_assoc]
    rfl

theorem wrote_pushed : Wrote x (x.pushed b) [b] := ⟨rfl, rfl, rfl, written_pushed⟩

theorem wrote_expanded : Wrote x (x.expanded.pushed b) [b] :=
  ⟨rfl, rfl, rfl, by rw [written_pushed, written_expanded]⟩

/-- Wherever the buffer has to grow before `total` bytes are in it, at most 31743 are. -/
def GrowsInTime (c : Int) (total : Nat) : Prop := ∀ j : Nat, c + 1024 * j < total → c + 1024 * j ≤ 31743

theorem GrowsInTime.later {total : Nat} (grows : GrowsInTime c total) :
    GrowsInTime (c + 1024) total := by
  intro j due
  have later := grows (j + 1) (by omega)
  omega

theorem putEach_wrote (bytes : List UInt8) (grown : Grown port c x)
    (grows : GrowsInTime c (x.xPrivate + bytes.length)) :
    ∃ x' c', putEach port bytes x = .ok x' ∧ Grown port c' x' ∧ Wrote x x' bytes := by
  induction bytes generalizing x c with
  | nil => exact ⟨x, c, rfl, grown, rfl, rfl, rfl, (List.append_nil _).symm⟩
  | cons b rest ih =>
    have handy := grown.handy
    have low := grown.low
    have used := grown.used
    have total : x.xPrivate + (b :: rest).length = x.xPrivate + 1 + rest.length := by
      rw [List.length_cons]
      omega
    rw [total] at grows
    by_cases full : x.xHandy ≤ 0
    · have small := grows 0 (by omega)
      rw [Nat.cast_zero, mul_zero, add_zero] at small
      have wide := (grown.expanded small).pushed (b := b) (show (x.xPrivate : Int) < _ by omega)
      obtain ⟨x', c', put, after, wrote⟩ := ih wide grows.later
      exact ⟨x', c', (putEach_full grown full small).trans put, after, wrote_expanded.cons wrote⟩
    · have same := grown.pushed (b := b) (by omega)
      obtain ⟨x', c', put, after, wrote⟩ := ih same grows
      exact ⟨x', c', (putEach_room grown (by omega)).trans put, after, wrote_pushed.cons wrote⟩

theorem putEach_fails (bytes : List UInt8) (grown : Grown port c x)
    (late : ¬GrowsInTime c (x.xPrivate + bytes.length)) : ∃ e, putEach port bytes x = .error e := by
  induction bytes generalizing x c with
  | nil =>
    have used := grown.used
    have low := grown.low
    refine absurd (fun j due => ?_) late
    simp only [List.length_nil] at due
    omega
  | cons b rest ih =>
    have handy := grown.handy
    have low := grown.low
    have used := grown.used
    have total : x.xPrivate + (b :: rest).length = x.xPrivate + 1 + rest.length := by
      rw [List.length_cons]
      omega
    rw [total] at late
    by_cases full : x.xHandy ≤ 0
    · by_cases small : c ≤ 31743
      · have wide := (grown.expanded small).pushed (b := b) (show (x.xPrivate : Int) < _ by omega)
        have again : ¬GrowsInTime (c + 1024) (x.xPrivate + 1 + rest.length) := by
          intro grows
          refine late fun j due => ?_
          cases j with
          | zero => simpa using small
          | succ j =>
            have bound := grows j (by omega)
            omega
        obtain ⟨e, failed⟩ := ih wide again
        exact ⟨e, (putEach_full grown full small).trans failed⟩
      · obtain ⟨e, failed⟩ := expandBuffer_fails grown (by omega) full
        refine ⟨e, ?_⟩
        simp only [putEach, if_pos full, failed, error_bind]
    · obtain ⟨e, failed⟩ := ih (grown.pushed (b := b) (by omega)) late
      exact ⟨e, (putEach_room grown (by omega)).trans failed⟩

/-- What one call writes is written byte by byte, in a run of them or not. -/
theorem putAll_eq (room : (bytes.length : Int) ≤ x.xHandy) :
    putAll bytes { x with xHandy := x.xHandy - bytes.length } = putEach port bytes x := by
  induction bytes generalizing x with
  | nil =>
    simp only [putAll, putEach, List.length_nil, Nat.cast_zero, sub_zero]
  | cons b rest ih =>
    simp only [List.length_cons] at room
    simp only [putAll, putEach, if_neg (show ¬x.xHandy ≤ 0 by omega), ok_bind, putbyte]
    cases x.xBase.store x.xPrivate [b] with
    | error e => rfl
    | ok base =>
      simp only [ok_bind, pure, Except.pure]
      rw [← ih (by simp only; omega)]
      congr 2
      simp only [List.length_cons]
      omega

theorem putbytes_eq {n : Int} (length : n = bytes.length) :
    putbytes port bytes n x = putEach port bytes x := by
  subst length
  unfold putbytes
  rw [Int.toNat_natCast, List.take_length]
  split
  next fits =>
    rw [if_neg (by omega)]
    exact putAll_eq fits.2
  next => rfl

theorem putlong_eq (n : Nat) : putlong port n x = putEach port (bigEndian 4 n) x :=
  putbytes_eq (by rw [length_bigEndian]; rfl)

theorem bind_ok {β γ : Type} {a : Except Stop β} {f : β → Except Stop γ} {r : γ}
    (done : (a >>= f) = .ok r) : ∃ v, a = .ok v ∧ f v = .ok r := by
  cases a with
  | error e => simp [error_bind] at done
  | ok v => exact ⟨v, rfl, done⟩

theorem expandBuffer_keeps (grown : expandBuffer port x = .ok x') :
    x'.xOp = x.xOp ∧ x'.data = x.data ∧ x'.xPrivate = x.xPrivate ∧ x'.xHandy = x.xHandy + 1024 := by
  simp only [expandBuffer] at grown
  obtain ⟨_, _, grown⟩ := bind_ok grown
  obtain ⟨_, _, grown⟩ := bind_ok grown
  obtain ⟨_, _, grown⟩ := bind_ok grown
  obtain rfl := Except.ok.inj grown
  exact ⟨rfl, rfl, rfl, rfl⟩

/-- What a byte that was written has changed, whatever the buffer was. -/
theorem putEach_cons (put : putEach port (b :: rest) x = .ok x') : ∃ z : Xdr,
    z.xOp = x.xOp ∧ z.data = x.data ∧ z.xPrivate = x.xPrivate + 1 ∧
      z.xHandy = (if x.xHandy ≤ 0 then x.xHandy + 1023 else x.xHandy - 1) ∧
      putEach port rest z = .ok x' := by
  rw [putEach] at put
  split at put
  next full =>
    obtain ⟨y, grown, put⟩ := bind_ok put
    obtain ⟨z, one, put⟩ := bind_ok put
    obtain ⟨op, data, place, handy⟩ := expandBuffer_keeps grown
    obtain ⟨base, _, one⟩ := bind_ok one
    obtain rfl := Except.ok.inj one
    refine ⟨_, ?_, ?_, ?_, ?_, put⟩
    · exact op
    · exact data
    · exact congrArg (· + 1) place
    · change y.xHandy - 1 = _
      rw [if_pos full]
      omega
  next room =>
    obtain ⟨z, one, put⟩ := bind_ok (show (putbyte b _ >>= putEach port rest) = .ok x' from put)
    obtain ⟨base, _, one⟩ := bind_ok one
    obtain rfl := Except.ok.inj one
    refine ⟨_, ?_, ?_, ?_, ?_, put⟩
    · rfl
    · rfl
    · rfl
    · exact (if_neg room).symm

theorem putEach_keeps (put : putEach port bytes x = .ok x') :
    x'.xOp = x.xOp ∧ x'.data = x.data ∧ x'.xPrivate = x.xPrivate + bytes.length := by
  induction bytes generalizing x with
  | nil =>
    obtain rfl := Except.ok.inj put
    exact ⟨rfl, rfl, rfl⟩
  | cons b rest ih =>
    obtain ⟨z, op, data, place, _, put⟩ := putEach_cons put
    obtain ⟨op', data', place'⟩ := ih put
    refine ⟨op'.trans op, data'.trans data, ?_⟩
    rw [place', place, List.length_cons]
    omega

theorem putEach_handy (low : 0 ≤ x.xHandy) (put : putEach port bytes x = .ok x') :
    0 ≤ x'.xHandy := by
  induction bytes generalizing x with
  | nil =>
    obtain rfl := Except.ok.inj put
    exact low
  | cons b rest ih =>
    obtain ⟨z, _, _, _, handy, put⟩ := putEach_cons put
    exact ih (by split at handy <;> omega) put

/-- Once a byte is written, what is left of the buffer is counted right. -/
theorem putEach_handy_first (low : -1023 ≤ x.xHandy)
    (put : putEach port (b :: rest) x = .ok x') : 0 ≤ x'.xHandy := by
  obtain ⟨z, _, _, _, handy, put⟩ := putEach_cons put
  exact putEach_handy (by split at handy <;> omega) put

theorem putEach_append (xs ys : List UInt8) :
    putEach port (xs ++ ys) x = putEach port xs x >>= putEach port ys := by
  induction xs generalizing x with
  | nil => rfl
  | cons b rest ih =>
    have tail : (fun z => putEach port (rest ++ ys) z) =
        fun z => putEach port rest z >>= putEach port ys := funext fun _ => ih
    simp only [List.cons_append, putEach]
    split <;> simp only [bind_assoc, tail]

end

end BurpSlice

end InterBase
