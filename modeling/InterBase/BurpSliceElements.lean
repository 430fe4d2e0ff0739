import InterBase.BurpSliceDatum

namespace InterBase

namespace BurpSlice

open Memory BigEndian

/-- The bytes that `n` elements from `p` on take in the stream. -/
def Dsc.externals (order : ByteOrder) (desc : Dsc) (m : Nat → UInt8) : Nat → Nat → Nat
  | 0, _ => 0
  | n + 1, p => desc.external order m p + desc.externals order m n (p + desc.dscLength)

section

variable {port : Port} {desc : Dsc} {source : Area} {p n : Nat} {x x' y : Xdr}

/-- The elements from `p` on that were read say what those of `source` say. -/
def Dsc.Same (order : ByteOrder) (desc : Dsc) (m : Nat → UInt8) (source : Area) (n p : Nat) : Prop :=
  ∀ k < n, desc.value order m (p + k * desc.dscLength) =
    desc.value order source.bytes (p + k * desc.dscLength)

/-- The strings of `n` elements have lengths that an `SSHORT` takes. -/
def Dsc.Short (desc : Dsc) (m : Nat → UInt8) (n p : Nat) : Prop :=
  desc.dscDtype = .cstring → ∀ k < n, strlen m (p + k * desc.dscLength) (desc.dscLength - 1) < 32768

theorem Dsc.Short.first {m : Nat → UInt8} (short : desc.Short m (n + 1) p) :
    desc.dscDtype = .cstring → strlen m p (desc.dscLength - 1) < 32768 := by
  intro cstring
  have first := short cstring 0 (by omega)
  rwa [Nat.zero_mul, Nat.add_zero] at first

theorem next_place (p k len : Nat) : p + len + k * len = p + (k + 1) * len := by ring

theorem Dsc.Short.rest {m : Nat → UInt8} (short : desc.Short m (n + 1) p) :
    desc.Short m n (p + desc.dscLength) := by
  intro cstring k inside
  rw [next_place]
  exact short cstring (k + 1) (by omega)

theorem xdrElements_carries (port : Port) (source : Area) (positive : 0 < desc.dscLength)
    (inside : p + n * desc.dscLength ≤ source.size) (short : desc.Short source.bytes n p) (i : Nat) :
    ∃ bytes : List UInt8, bytes.length = desc.externals port.order source.bytes n p ∧
      (∀ x : Xdr, x.xOp = .encode → x.data = source → x.xPrivate = i →
        xdrElements port desc n p x = putEach port bytes x) ∧
      ∀ (y : Xdr) (rest : List UInt8), y.xOp = .decode → y.Ready (bytes ++ rest) →
        p + n * desc.dscLength ≤ y.data.size →
        ∃ y', xdrElements port desc n p y = .ok y' ∧
          (∀ j < p, y'.data.bytes j = y.data.bytes j) ∧
          desc.Same port.order y'.data.bytes source n p := by
  induction n generalizing p i with
  | zero =>
    refine ⟨[], rfl, fun _ _ _ _ => rfl, fun y rest _ _ _ => ⟨y, rfl, fun _ _ => rfl, ?_⟩⟩
    intro k none
    omega
  | succ n ih =>
    have places : p + (n + 1) * desc.dscLength = p + desc.dscLength + n * desc.dscLength := by ring
    rw [places] at inside
    obtain ⟨image, goes⟩ := xdrDatum_goes port positive
      (show p + desc.dscLength ≤ source.size by omega) short.first
    obtain ⟨bytes, length, sent, got⟩ := goes.carries i
    obtain ⟨bytes', length', sent', got'⟩ :=
      ih inside short.rest (i + desc.external port.order source.bytes p)
    refine ⟨bytes ++ bytes', ?_, ?_, ?_⟩
    · rw [List.length_append, length, length']
      rfl
    · intro x op data place
      simp only [xdrElements, sent x op data place, putEach_append]
      cases put : putEach port bytes x with
      | error e => rfl
      | ok x' =>
        obtain ⟨op', data', count⟩ := putEach_keeps put
        exact sent' x' (op'.trans op) (data'.trans data) (by omega)
    · intro y rest op ready room
      rw [places] at room
      rw [List.append_assoc] at ready
      have fits := goes.length
      have later := ready_advanced ready
      rw [length] at later
      have first := got y (bytes' ++ rest) op ready (by omega)
      obtain ⟨y', more, kept, same⟩ :=
        got' ((y.advanced (desc.external port.order source.bytes p)).received p image) rest op
          ⟨later.handy, later.held, later.inside⟩ room
      refine ⟨y', ?_, fun j below => ?_, fun k bound => ?_⟩
      · simp only [xdrElements, first, ok_bind, more]
      · exact (kept j (by omega)).trans (write_below _ _ below)
      · cases k with
        | zero =>
          rw [Nat.zero_mul, Nat.add_zero]
          refine goes.value _ ((holds_write y.data.bytes p image).congr fun j _ above => ?_)
          exact kept j (by omega)
        | succ k =>
          have later := same k (by omega)
          rwa [next_place] at later

theorem xdrTerminated_long (port : Port) {dscLength : Nat} (op : x.xOp = .encode) (data : x.data = source)
    (lt : dscLength < 65536) (low : 0 ≤ x.xHandy)
    (long : 32768 ≤ strlen source.bytes p (dscLength - 1)) :
    ∃ e, xdrTerminated port p dscLength x = .error e := by
  have least := strlen_le source.bytes p (dscLength - 1)
  have kept : ushort (strlen source.bytes p (dscLength - 1)) =
      strlen source.bytes p (dscLength - 1) := ushort_of_lt (by omega)
  have negative : sshort (strlen source.bytes p (dscLength - 1)) < 0 := by
    unfold sshort
    rw [if_neg (by omega)]
    omega
  simp only [xdrTerminated, op, data, kept, putlong_eq]
  cases put : putEach port (bigEndian 4 (signExtend (strlen source.bytes p (dscLength - 1)))) x with
  | error e => exact ⟨e, rfl⟩
  | ok x' =>
    obtain ⟨op', data', _⟩ := putEach_keeps put
    have handy := putEach_handy low put
    have nothing : x'.data.fetch p (sshort (strlen source.bytes p (dscLength - 1))).toNat =
        .ok [] := by
      rw [show (sshort (strlen source.bytes p (dscLength - 1))).toNat = 0 by omega]
      rfl
    refine ⟨.outside, ?_⟩
    simp only [ok_bind, xdrOpaque, op', op, nothing]
    unfold putbytes
    rw [if_pos ⟨by omega, by omega⟩, if_pos negative]
    rfl

theorem xdrElements_long (port : Port) (source : Area) (positive : 0 < desc.dscLength)
    (inside : p + n * desc.dscLength ≤ source.size) (long : ¬desc.Short source.bytes n p)
    (op : x.xOp = .encode) (data : x.data = source) (low : 0 ≤ x.xHandy) :
    ∃ e, xdrElements port desc n p x = .error e := by
  induction n generalizing p x with
  | zero =>
    refine absurd (fun _ k none => ?_) long
    omega
  | succ n ih =>
    have places : p + (n + 1) * desc.dscLength = p + desc.dscLength + n * desc.dscLength := by ring
    rw [places] at inside
    by_cases first : desc.dscDtype = .cstring → strlen source.bytes p (desc.dscLength - 1) < 32768
    · have again : ¬desc.Short source.bytes n (p + desc.dscLength) := by
        intro short
        refine long fun cstring k bound => ?_
        cases k with
        | zero =>
          rw [Nat.zero_mul, Nat.add_zero]
          exact first cstring
        | succ k =>
          have later := short cstring k (by omega)
          rwa [next_place] at later
      obtain ⟨image, goes⟩ := xdrDatum_goes port positive
        (show p + desc.dscLength ≤ source.size by omega) first
      obtain ⟨bytes, _, sent, _⟩ := goes.carries x.xPrivate
      simp only [xdrElements, sent x op data rfl]
      cases put : putEach port bytes x with
      | error e => exact ⟨e, rfl⟩
      | ok x' =>
        obtain ⟨op', data', _⟩ := putEach_keeps put
        exact ih inside again (op'.trans op) (data'.trans data) (putEach_handy low put)
    · obtain ⟨cstring, long⟩ := Classical.not_imp.mp first
      obtain ⟨e, failed⟩ := xdrTerminated_long port op data desc.length_lt low
        (Nat.le_of_not_lt long)
      refine ⟨e, ?_⟩
      simp only [xdrElements, xdrDatum, cstring, failed, error_bind]

theorem getEach_keeps {bytes : List UInt8} (got : getEach port n y = .ok (bytes, x')) :
    x'.xOp = y.xOp ∧ x'.data = y.data ∧ bytes.length = n := by
  induction n generalizing y bytes x' with
  | zero =>
    obtain ⟨rfl, rfl⟩ := Prod.mk.inj (Except.ok.inj got)
    exact ⟨rfl, rfl, rfl⟩
  | succ n ih =>
    rw [getEach] at got
    obtain ⟨z, op, data, got⟩ : ∃ z : Xdr, z.xOp = y.xOp ∧ z.data = y.data ∧
        (z.xBase.fetch z.xPrivate 1 >>= fun first =>
          getEach port n { z with xPrivate := z.xPrivate + 1, xHandy := z.xHandy - 1 } >>=
            fun next => Except.ok (first ++ next.1, next.2)) = .ok (bytes, x') := by
      split at got
      next =>
        obtain ⟨z, grown, got⟩ := bind_ok got
        obtain ⟨op, data, _⟩ := expandBuffer_keeps grown
        exact ⟨z, op, data, got⟩
      next => exact ⟨y, rfl, rfl, got⟩
    obtain ⟨first, fetched, got⟩ := bind_ok got
    obtain ⟨⟨rest, w⟩, more, got⟩ := bind_ok got
    obtain ⟨op', data', length⟩ := ih more
    obtain ⟨rfl, rfl⟩ := Prod.mk.inj (Except.ok.inj got)
    have one : first.length = 1 := by
      simp only [Area.fetch] at fetched
      split at fetched
      next =>
        obtain rfl := Except.ok.inj fetched
        exact length_slice _ _ 1
      next => simp at fetched
    refine ⟨op'.trans op, data'.trans data, ?_⟩
    rw [List.length_append, one, length, Nat.add_comm]

theorem getbytes_keeps {bytes : List UInt8} {count : Int}
    (got : getbytes port count y = .ok (bytes, x')) :
    x'.xOp = y.xOp ∧ x'.data = y.data ∧ bytes.length = count.toNat := by
  unfold getbytes at got
  split at got
  next =>
    split at got
    next => simp at got
    next =>
      obtain ⟨read, fetched, got⟩ := bind_ok got
      obtain ⟨rfl, rfl⟩ := Prod.mk.inj (Except.ok.inj got)
      simp only [Area.fetch] at fetched
      split at fetched
      next =>
        obtain rfl := Except.ok.inj fetched
        exact ⟨rfl, rfl, length_slice _ _ _⟩
      next => simp at fetched
  next => exact getEach_keeps got

theorem getlong_keeps (got : getlong port y = .ok (n, x')) :
    x'.xOp = y.xOp ∧ x'.data = y.data := by
  obtain ⟨⟨bytes, z⟩, read, got⟩ := bind_ok got
  obtain ⟨rfl, rfl⟩ := Prod.mk.inj (Except.ok.inj got)
  obtain ⟨op, data, _⟩ := getbytes_keeps read
  exact ⟨op, data⟩

theorem store_nowhere {bytes : List UInt8} (empty : y.data.size = 0) (some : 0 < bytes.length) :
    y.store p bytes = .error .outside := by
  simp only [Xdr.store, store_outside some (show y.data.size < p + bytes.length by omega), error_bind]

theorem xdrLong_nowhere (op : y.xOp = .decode) (empty : y.data.size = 0) :
    xdrLong port p y ≠ .ok x' := by
  intro done
  simp only [xdrLong, op] at done
  obtain ⟨⟨temp, z⟩, got, done⟩ := bind_ok done
  rw [store_nowhere (by rw [(getlong_keeps got).2, empty]) (by simp)] at done
  simp at done

theorem xdrShort_nowhere (op : y.xOp = .decode) (empty : y.data.size = 0) :
    xdrShort port p y ≠ .ok x' := by
  intro done
  simp only [xdrShort, op] at done
  obtain ⟨⟨temp, z⟩, got, done⟩ := bind_ok done
  rw [store_nowhere (by rw [(getlong_keeps got).2, empty]) (by simp)] at done
  simp at done

theorem xdrTempLongs_nowhere {swap : Bool} (op : y.xOp = .decode) (empty : y.data.size = 0) :
    xdrTempLongs port swap p y ≠ .ok x' := by
  intro done
  simp only [xdrTempLongs, op] at done
  obtain ⟨⟨first, z⟩, got, done⟩ := bind_ok done
  obtain ⟨⟨second, w⟩, got', done⟩ := bind_ok done
  have none : w.data.size = 0 := by rw [(getlong_keeps got').2, (getlong_keeps got).2, empty]
  simp only at done
  split at done <;> rw [store_nowhere none (by simp)] at done <;> simp at done

theorem xdrOpaque_nowhere {len : Nat} (some : 0 < len) (op : y.xOp = .decode)
    (empty : y.data.size = 0) : xdrOpaque port p len y ≠ .ok x' := by
  intro done
  simp only [xdrOpaque, op] at done
  obtain ⟨⟨bytes, z⟩, got, done⟩ := bind_ok done
  obtain ⟨_, data, length⟩ := getbytes_keeps got
  have count : bytes.length = len := length.trans (Int.toNat_natCast len)
  rw [store_nowhere (by rw [data, empty]) (show 0 < bytes.length by omega)] at done
  simp [error_bind] at done

/-- Nothing changes how large the block of the elements is. -/
theorem xdrOpaque_size {len : Int} (op : y.xOp = .decode) (done : xdrOpaque port p len y = .ok x') :
    x'.data.size = y.data.size := by
  simp only [xdrOpaque, op] at done
  obtain ⟨⟨bytes, z⟩, got, done⟩ := bind_ok done
  obtain ⟨w, stored, done⟩ := bind_ok done
  obtain ⟨_, data, _⟩ := getbytes_keeps got
  have kept : w.data.size = z.data.size := by
    obtain ⟨area, filled, made⟩ := bind_ok stored
    obtain rfl := Except.ok.inj made
    unfold Area.store at filled
    split at filled
    next =>
      obtain rfl := Except.ok.inj filled
      rfl
    next => simp at filled
  rw [← data, ← kept]
  split at done
  next =>
    obtain ⟨⟨_, v⟩, got, done⟩ := bind_ok done
    obtain rfl := Except.ok.inj done
    rw [(getbytes_keeps got).2.1]
  next =>
    obtain rfl := Except.ok.inj done
    rfl

theorem xdrTerminated_nowhere {dscLength : Nat} (op : y.xOp = .decode) (empty : y.data.size = 0) :
    xdrTerminated port p dscLength y ≠ .ok x' := by
  intro done
  simp only [xdrTerminated, op] at done
  obtain ⟨⟨temp, z⟩, got, done⟩ := bind_ok done
  obtain ⟨w, text, done⟩ := bind_ok done
  obtain ⟨op', data⟩ := getlong_keeps got
  have size := xdrOpaque_size (op'.trans op) text
  rw [store_nowhere (by rw [size, data, empty]) (by simp)] at done
  simp at done

theorem xdrDatum_nowhere (positive : 0 < desc.dscLength) (op : y.xOp = .decode)
    (empty : y.data.size = 0) : xdrDatum port desc p y ≠ .ok x' := by
  have quad : xdrQuad port p y ≠ .ok x' := by
    intro done
    obtain ⟨z, first, _⟩ := bind_ok done
    exact xdrLong_nowhere op empty first
  intro done
  simp only [xdrDatum] at done
  split at done
  next => exact xdrOpaque_nowhere positive op empty done
  next =>
    obtain ⟨z, counter, _⟩ := bind_ok done
    exact xdrShort_nowhere op empty counter
  next => exact xdrTerminated_nowhere op empty done
  next => exact xdrShort_nowhere op empty done
  next => exact xdrLong_nowhere op empty done
  next => exact xdrLong_nowhere op empty done
  next => exact xdrLong_nowhere op empty done
  next => exact xdrLong_nowhere op empty done
  next => exact xdrTempLongs_nowhere op empty done
  next => exact quad done
  next => exact quad done
  next => exact quad done
  next => exact xdrTempLongs_nowhere op empty done

end

end BurpSlice

end InterBase
