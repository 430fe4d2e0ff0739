import InterBase.OptPathDecode
import InterBase.CvtScale

namespace InterBase.AccessPath

open Cvt

def Inversion.size : Inversion → Nat
  | .bitAnd a b => 1 + a.size + b.size
  | .bitOr a b => 1 + a.size + b.size
  | .bitDbkey => 1
  | .index name => 1 + (name.bytes.length + 1)

/-- The name takes its item and its length. -/
def nameSize (name : Option Name) : Nat := name.elim 0 fun name => 2 + name.bytes.length

mutual

/-- The rsb as an access path describes it. -/
def describe (reqProcedure : Bool) : Rsb → Desc
  | .mk rsbAlias rsbRelation arg rsbNext =>
    let name := (rsbAlias.or rsbRelation).map Name.bytes
    let below := describeArg reqProcedure arg ++ describeNext reqProcedure rsbNext
    match arg with
    | .indexed node => .mk name infoIndexed (some node) none below
    | .navigate node => .mk name infoNavigate (some node) none below
    | .join type streams => .mk name type.info none (some (streamCount streams)) below
    | .leftCross _ _ => .mk name infoLeftCross none (some 2) below
    | .procedure _ => .mk name infoProcedure none none below
    | .plain type => .mk name type.info none none below

def describeArg (reqProcedure : Bool) : RsbArg → List Desc
  | .indexed _ => []
  | .navigate _ => []
  | .join _ streams => describeStreams reqProcedure streams
  | .leftCross outer inner => [describe reqProcedure outer, describe reqProcedure inner]
  | .procedure prc => if reqProcedure then [] else describeProcedure prc
  | .plain _ => []

def describeNext (reqProcedure : Bool) : NextRsb → List Desc
  | .none => []
  | .some rsb => [describe reqProcedure rsb]

def describeStreams (reqProcedure : Bool) : Streams → List Desc
  | .nil => []
  | .cons rsb rest => describe reqProcedure rsb :: describeStreams reqProcedure rest

/-- A procedure without rsbs of its own is described as one sequential rsb of its name. -/
def describeProcedure : Procedure → List Desc
  | .missing => []
  | .noFors prcName => [.mk (some (nameBytes prcName)) infoSequential none none []]
  | .request reqProcedure reqFors => describeFors reqProcedure reqFors

def describeFors (reqProcedure : Bool) : Fors → List Desc
  | .nil => []
  | .cons entry rest => describeFors reqProcedure rest ++ describeNext reqProcedure entry

end

mutual

/-- What `*buffer_length` loses. -/
def used (reqProcedure : Bool) : Rsb → Nat
  | .mk rsbAlias rsbRelation arg rsbNext =>
    4 + nameSize (rsbAlias.or rsbRelation) + usedArg reqProcedure arg + usedNext reqProcedure rsbNext

def usedArg (reqProcedure : Bool) : RsbArg → Nat
  | .indexed node => node.size + 1
  | .navigate node => node.size + 1
  | .join _ streams => usedStreams reqProcedure streams
  | .leftCross outer inner => used reqProcedure outer + used reqProcedure inner
  | .procedure prc => if reqProcedure then 0 else usedProcedure prc
  | .plain _ => 0

def usedNext (reqProcedure : Bool) : NextRsb → Nat
  | .none => 0
  | .some rsb => used reqProcedure rsb

def usedStreams (reqProcedure : Bool) : Streams → Nat
  | .nil => 0
  | .cons rsb rest => used reqProcedure rsb + usedStreams reqProcedure rest

def usedProcedure : Procedure → Nat
  | .missing => 0
  | .noFors prcName => 5 + (nameBytes prcName).length
  | .request reqProcedure reqFors => (encodeAll (describeFors reqProcedure reqFors)).length

end

def usedFors (reqProcedure : Bool) : Fors → Nat
  | .nil => 0
  | .cons entry rest => usedFors reqProcedure rest + usedNext reqProcedure entry

mutual

/-- What `*buffer_length` has to be for no check to fail. Nothing is enough for a procedure that is
missing. -/
def need (reqProcedure : Bool) : Rsb → Nat
  | .mk rsbAlias rsbRelation arg rsbNext =>
    let first := 4 + nameSize (rsbAlias.or rsbRelation)
    max (first + needArg reqProcedure arg)
      (first + usedArg reqProcedure arg + needNext reqProcedure rsbNext)

def needArg (reqProcedure : Bool) : RsbArg → Nat
  | .indexed node => node.size + 1
  | .navigate node => node.size + 1
  | .join _ streams => needStreams reqProcedure streams
  | .leftCross outer inner =>
    max (need reqProcedure outer) (used reqProcedure outer + need reqProcedure inner)
  | .procedure prc => if reqProcedure then 0 else needProcedure prc
  | .plain _ => 0

def needNext (reqProcedure : Bool) : NextRsb → Nat
  | .none => 0
  | .some rsb => need reqProcedure rsb

def needStreams (reqProcedure : Bool) : Streams → Nat
  | .nil => 0
  | .cons rsb rest =>
    max (need reqProcedure rsb) (used reqProcedure rsb + needStreams reqProcedure rest)

def needProcedure : Procedure → Nat
  | .missing => 32768
  | .noFors prcName => 5 + (nameBytes prcName).length
  | .request reqProcedure reqFors =>
    max (needFors reqProcedure reqFors) (encodeAll (describeFors reqProcedure reqFors)).length

def needFors (reqProcedure : Bool) : Fors → Nat
  | .nil => 0
  | .cons entry rest =>
    max (needFors reqProcedure rest) (usedFors reqProcedure rest + needNext reqProcedure entry)

end

/-- More has been written than any buffer takes. -/
def Long (bytes : List UInt8) : Prop := 32767 < bytes.length

/-- A step writes its bytes where `*buffer_length` is large enough; else it fails, or it writes more
than any buffer takes. -/
structure Asks (step : Int → Dump) (need used : Nat) (bytes : List UInt8) : Prop where
  used_le : used ≤ need
  enough : ∀ left : Nat, left ≤ 32767 → need ≤ left → step left = ⟨true, bytes, left - used⟩
  short : ∀ left : Nat, left ≤ 32767 → left < need →
    (step left).ok = false ∨ Long (step left).written

section

variable {step next : Int → Dump} {n n' u u' : Nat} {bytes bytes' : List UInt8}

theorem andThen_written (d : Dump) (next : Int → Dump) :
    d.written.length ≤ (d.andThen next).written.length := by
  unfold Dump.andThen
  split
  next =>
    rw [List.length_append]
    omega
  next => exact Nat.le_refl _

/-- Two steps, one after the other. -/
theorem Asks.andThen (h : Asks step n u bytes) (h' : Asks next n' u' bytes') :
    Asks (fun left => (step left).andThen next) (max n (u + n')) (u + u') (bytes ++ bytes') := by
  have le := h.used_le
  have le' := h'.used_le
  refine ⟨by omega, ?_, ?_⟩
  · intro left small enough
    have rest : ((left : Int) - u) = (left - u : Nat) := by omega
    rw [h.enough left small (by omega)]
    unfold Dump.andThen
    simp only [if_true]
    rw [rest, h'.enough (left - u) (by omega) (by omega)]
    simp only [Dump.mk.injEq, true_and]
    omega
  · intro left small less
    by_cases first : n ≤ left
    · have rest : ((left : Int) - u) = (left - u : Nat) := by omega
      rw [h.enough left small first]
      unfold Dump.andThen
      simp only [if_true]
      rw [rest]
      refine (h'.short (left - u) (by omega) (by omega)).imp_right fun long => ?_
      unfold Long at long ⊢
      rw [List.length_append]
      omega
    · obtain fails | long := h.short left small (by omega)
      · left
        unfold Dump.andThen
        rw [if_neg (by rw [fails]; exact Bool.false_ne_true)]
        exact fails
      · right
        have grows := andThen_written (step left) next
        unfold Long at long ⊢
        omega

theorem asks_put (bytes : List UInt8) : Asks (put bytes) 0 0 bytes :=
  ⟨Nat.le_refl _, fun left _ _ => by rw [put, Nat.cast_zero, Int.sub_zero],
    fun left _ less => absurd less (Nat.not_lt_zero left)⟩

theorem toSshort_of_mem {v : Int} (low : -32768 ≤ v) (high : v ≤ 32767) : toSshort v = v := by
  unfold toSshort
  exact bmod_of_mem (by norm_num; omega) (by norm_num; omega)

theorem asks_take (small : n ≤ 32768) : Asks (take n) n n [] := by
  refine ⟨Nat.le_refl _, ?_, ?_⟩
  · intro left high enough
    unfold take
    simp only
    rw [toSshort_of_mem (by omega) (by omega), decide_eq_true (by omega)]
  · intro left high less
    left
    unfold take
    simp only
    rw [toSshort_of_mem (by omega) (by omega), decide_eq_false (by omega)]

/-- Where so much is taken that the count turns around, what is written then is too long as well. -/
theorem asks_takePut (long : n ≤ bytes.length + 1) (small : n ≤ 65540) :
    Asks (fun left => (take n left).andThen (put bytes)) n n bytes := by
  refine ⟨Nat.le_refl _, ?_, ?_⟩
  · intro left high enough
    unfold take Dump.andThen put
    simp only
    rw [toSshort_of_mem (by omega) (by omega), decide_eq_true (by omega)]
    rfl
  · intro left high less
    by_cases near : (left : Int) - n < -32768
    · by_cases goes : (take n left).ok = true
      · right
        unfold Dump.andThen
        rw [if_pos goes]
        show 32767 < ([] ++ bytes).length
        rw [List.nil_append]
        omega
      · left
        unfold Dump.andThen
        rw [if_neg goes]
        exact Bool.not_eq_true _ ▸ goes
    · left
      unfold take Dump.andThen
      simp only
      rw [toSshort_of_mem (by omega) (by omega), decide_eq_false (by omega)]
      rfl

theorem asks_name (name : Option Name) :
    Asks (dumpName name) (nameSize name) (nameSize name) (encodeName (name.map Name.bytes)) := by
  cases name with
  | none => exact asks_put []
  | some name =>
    have short := name.short
    have length : (rsbRelation :: counted name.bytes).length = 2 + name.bytes.length := by
      simp only [counted, List.length_cons]
      omega
    have same : (2 : Int) + name.bytes.length = ((2 + name.bytes.length : Nat) : Int) := by omega
    show Asks (fun left => (take (2 + name.bytes.length) left).andThen _) _ _ _
    rw [same]
    exact asks_takePut (by rw [length]; omega) (by omega)

theorem andThen_fails {d : Dump} (fails : d.ok = false) : d.andThen next = d := by
  unfold Dump.andThen
  rw [if_neg (by rw [fails]; exact Bool.false_ne_true)]

theorem andThen_goes {d : Dump} (goes : d.ok = true) :
    d.andThen next = { next d.left with written := d.written ++ (next d.left).written } := by
  unfold Dump.andThen
  rw [if_pos goes]

theorem andThen_ok (written : List UInt8) (left : Int) :
    (Dump.mk true written left).andThen next =
      ⟨(next left).ok, written ++ (next left).written, (next left).left⟩ := rfl

/-- What is left over 0 or less lets no further byte be taken. -/
theorem take_negative {left : Int} (low : -32000 ≤ left) (negative : left < 1) :
    (take 1 left).ok = false := by
  unfold take
  simp only
  rw [toSshort_of_mem (by omega) (by omega), decide_eq_false (by omega)]

theorem dumpIndex_negative (v : Inversion) {left : Int} (low : -32000 ≤ left)
    (negative : left < 1) : (dumpIndex v left).ok = false := by
  have fails := take_negative low negative
  cases v <;>
  · rw [dumpIndex]
    simp only [andThen_fails fails]
    exact fails

theorem take_one {left : Nat} (pos : 1 ≤ left) (high : left ≤ 32767) :
    take 1 left = ⟨true, [], (left - 1 : Nat)⟩ := by
  unfold take
  simp only
  rw [toSshort_of_mem (by omega) (by omega), decide_eq_true (by omega)]
  simp only [Dump.mk.injEq, true_and]
  omega

/-- What an inversion does: it fits; or it fails, or leaves less than 0. -/
def IndexDone (d : Dump) (size left : Nat) (bytes : List UInt8) : Prop :=
  size ≤ left ∧ d = ⟨true, bytes, left - size⟩ ∨
    left < size ∧ (d.ok = false ∨ -32 ≤ d.left ∧ d.left < 0)

/-- Two inversions behind the type of their node. -/
theorem indexDone_both {a b : Inversion} {info : UInt8}
    (ha : ∀ left : Nat, left ≤ 32767 → IndexDone (dumpIndex a left) a.size left a.encode)
    (hb : ∀ left : Nat, left ≤ 32767 → IndexDone (dumpIndex b left) b.size left b.encode) (left : Nat)
    (high : left ≤ 32767) :
    IndexDone ((((take 1 left).andThen (put [info])).andThen (dumpIndex a)).andThen (dumpIndex b))
      (1 + a.size + b.size) left (info :: (a.encode ++ b.encode)) := by
  by_cases pos : 1 ≤ left
  · rw [take_one pos high]
    simp only [andThen_ok, put, List.nil_append]
    obtain ⟨fitsA, doneA⟩ | ⟨lessA, failsA⟩ := ha (left - 1) (by omega)
    · rw [doneA]
      simp only [andThen_ok]
      have rest : ((left - 1 : Nat) : Int) - a.size = (left - 1 - a.size : Nat) := by omega
      rw [rest]
      obtain ⟨fitsB, doneB⟩ | ⟨lessB, failsB⟩ := hb (left - 1 - a.size) (by omega)
      · refine .inl ⟨by omega, ?_⟩
        rw [doneB]
        simp only [Dump.mk.injEq, true_and, List.cons_append, List.nil_append]
        omega
      · exact .inr ⟨by omega, failsB⟩
    · refine .inr ⟨by omega, .inl ?_⟩
      by_cases goes : (dumpIndex a ((left - 1 : Nat) : Int)).ok = true
      · rw [goes] at failsA
        obtain impossible | ⟨low, negative⟩ := failsA
        · exact Bool.noConfusion impossible
        · rw [goes, andThen_ok]
          exact dumpIndex_negative b (by omega) (by omega)
      · rw [Bool.not_eq_true] at goes
        rw [goes]
        rfl
  · have fails : (take 1 left).ok = false := take_negative (by omega) (by omega)
    refine .inr ⟨by omega, .inl ?_⟩
    simp only [andThen_fails fails]
    exact fails

theorem dumpIndex_done (v : Inversion) :
    ∀ left : Nat, left ≤ 32767 → IndexDone (dumpIndex v left) v.size left v.encode := by
  induction v with
  | bitAnd a b iha ihb =>
    intro left high
    rw [dumpIndex, Inversion.size, Inversion.encode]
    exact indexDone_both iha ihb left high
  | bitOr a b iha ihb =>
    intro left high
    rw [dumpIndex, Inversion.size, Inversion.encode]
    exact indexDone_both iha ihb left high
  | bitDbkey =>
    intro left high
    rw [dumpIndex, Inversion.size, Inversion.encode]
    by_cases pos : 1 ≤ left
    · refine .inl ⟨pos, ?_⟩
      rw [take_one pos high, andThen_ok]
      simp only [put, List.nil_append, Dump.mk.injEq, true_and]
      omega
    · have fails : (take 1 left).ok = false := take_negative (by omega) (by omega)
      refine .inr ⟨by omega, .inl ?_⟩
      rw [andThen_fails fails]
      exact fails
  | index name =>
    intro left high
    have short := name.short
    rw [dumpIndex, Inversion.size, Inversion.encode]
    by_cases pos : 1 ≤ left
    · rw [take_one pos high]
      simp only [andThen_ok, put, List.nil_append]
      rw [toSshort_of_mem (by omega) (by omega)]
      split
      next room =>
        refine .inl ⟨by omega, ?_⟩
        simp only [Dump.mk.injEq, true_and, List.cons_append, List.nil_append]
        omega
      next => exact .inr ⟨by omega, .inr ⟨by simp only; omega, by simp only; omega⟩⟩
    · have fails : (take 1 left).ok = false := take_negative (by omega) (by omega)
      refine .inr ⟨by omega, .inl ?_⟩
      simp only [andThen_fails fails]
      exact fails

/-- An inversion with the byte that is reserved behind it. -/
theorem asks_index (v : Inversion) :
    Asks (fun left => (dumpIndex v left).andThen (take 1)) (v.size + 1) (v.size + 1) v.encode := by
  refine ⟨Nat.le_refl _, ?_, ?_⟩
  · intro left high enough
    obtain ⟨fits, done⟩ | ⟨less, -⟩ := dumpIndex_done v left high
    · have rest : (left : Int) - v.size = (left - v.size : Nat) := by omega
      rw [done, andThen_ok, rest, take_one (by omega) (by omega)]
      simp only [List.append_nil, Dump.mk.injEq, true_and]
      omega
    · omega
  · intro left high less
    left
    obtain ⟨fits, done⟩ | ⟨less, fails⟩ := dumpIndex_done v left high
    · rw [done, andThen_ok]
      exact take_negative (by omega) (by omega)
    · by_cases goes : (dumpIndex v left).ok = true
      · rw [goes] at fails
        obtain impossible | ⟨low, negative⟩ := fails
        · exact Bool.noConfusion impossible
        · rw [andThen_goes goes]
          exact take_negative (by omega) (by omega)
      · rw [Bool.not_eq_true] at goes
        rw [andThen_fails goes]
        exact goes

theorem andThen_assoc (d : Dump) (step next : Int → Dump) :
    (d.andThen step).andThen next = d.andThen fun left => (step left).andThen next := by
  obtain ⟨ok, written, left⟩ := d
  cases ok with
  | false => rfl
  | true =>
    simp only [andThen_ok]
    obtain ⟨ok, written', left⟩ := step left
    cases ok with
    | false => rfl
    | true => simp only [andThen_ok, List.append_assoc]

theorem Asks.congr {m v : Nat} {encoded : List UInt8} (h : Asks step n u bytes) (needs : n = m)
    (uses : u = v) (same : bytes = encoded) : Asks step m v encoded := by
  subst needs uses same
  exact h

end

theorem encodeAll_append (ds es : List Desc) :
    encodeAll (ds ++ es) = encodeAll ds ++ encodeAll es := by
  induction ds with
  | nil => rw [List.nil_append, encodeAll, List.nil_append]
  | cons d ds ih => rw [List.cons_append, encodeAll, encodeAll, ih, List.append_assoc]

theorem encodeAll_singleton (d : Desc) : encodeAll [d] = d.encode := by
  rw [encodeAll, encodeAll, List.append_nil]

/-- The bytes from the type to the streams. -/
def argBytes (reqProcedure : Bool) (arg : RsbArg) : List UInt8 :=
  (match arg with
  | .indexed node => infoIndexed :: node.encode
  | .navigate node => infoNavigate :: node.encode
  | .join type streams => [type.info, UInt8.ofNat (streamCount streams)]
  | .leftCross _ _ => [infoLeftCross, 2]
  | .procedure _ => [infoProcedure]
  | .plain type => [type.info]) ++ encodeAll (describeArg reqProcedure arg)

theorem describe_encode (reqProcedure : Bool) (rsbAlias rsbRelation : Option Name) (arg : RsbArg)
    (rsbNext : NextRsb) : (describe reqProcedure (.mk rsbAlias rsbRelation arg rsbNext)).encode =
      rsbBegin :: (encodeName ((rsbAlias.or rsbRelation).map Name.bytes) ++
        rsbType :: (argBytes reqProcedure arg ++ encodeAll (describeNext reqProcedure rsbNext) ++
          [rsbEnd])) := by
  unfold argBytes
  cases arg <;>
    simp only [describe, Desc.encode, encodeAll_append, encodeIndex, encodeCount, Option.elim_none,
      Option.elim_some, List.nil_append, List.append_nil, List.append_assoc, List.cons_append]
  rfl

/-- A nested path takes what it has written. -/
theorem asks_takePath {access : Int → Path} {n u : Nat} {bytes : List UInt8}
    (h : Asks (fun left => (access left).dump) n u bytes)
    (length : ∀ left : Nat, left ≤ 32767 → n ≤ left → (access left).returnLength = bytes.length) :
    Asks (fun left => takePath (access left) left) (max n bytes.length) bytes.length bytes := by
  refine ⟨by omega, ?_, ?_⟩
  · intro left high enough
    have done := h.enough left high (by omega)
    unfold takePath
    simp only at done ⊢
    have path : toSshort bytes.length = bytes.length := toSshort_of_mem (by omega) (by omega)
    rw [done, length left high (by omega), ushort_of_lt (by omega), path,
      toSshort_of_mem (by omega) (by omega), if_pos rfl, decide_eq_true (by omega)]
  · intro left high less
    unfold takePath
    by_cases first : n ≤ left
    · have done := h.enough left high first
      simp only at done ⊢
      rw [done, length left high first, if_pos rfl]
      by_cases long : Long bytes
      · exact .inr long
      · unfold Long at long
        have path : toSshort bytes.length = bytes.length := toSshort_of_mem (by omega) (by omega)
        rw [ushort_of_lt (by omega), path, toSshort_of_mem (by omega) (by omega),
          decide_eq_false (by omega)]
        exact .inl rfl
    · have done := h.short left high (by omega)
      split
      next goes =>
        rw [goes] at done
        obtain impossible | long := done
        · exact Bool.noConfusion impossible
        · exact .inr long
      next => exact .inl rfl

theorem asks_noFors (prcName : Option Name) :
    Asks (dumpProcedure (.noFors prcName)) (needProcedure (.noFors prcName))
      (usedProcedure (.noFors prcName)) (encodeAll (describeProcedure (.noFors prcName))) := by
  have short : (nameBytes prcName).length < 65536 := by
    cases prcName with
    | none => exact Nat.zero_lt_succ _
    | some name => exact name.short
  have bytes : encodeAll (describeProcedure (.noFors prcName)) =
      [rsbBegin, rsbRelation] ++ counted (nameBytes prcName) ++
        [rsbType, infoSequential, rsbEnd] := by
    rw [describeProcedure, encodeAll_singleton, Desc.encode, encodeAll]
    simp only [encodeName, encodeIndex, encodeCount, Option.elim_none, Option.elim_some,
      List.nil_append, List.cons_append]
  have same : (5 : Int) + (nameBytes prcName).length = ((5 + (nameBytes prcName).length : Nat) : Int) := by
    omega
  have step : dumpProcedure (.noFors prcName) = fun left =>
      (take ((5 + (nameBytes prcName).length : Nat) : Int) left).andThen
        (put ([rsbBegin, rsbRelation] ++ counted (nameBytes prcName) ++
          [rsbType, infoSequential, rsbEnd])) := by
    funext left
    rw [dumpProcedure, same]
  rw [bytes, needProcedure, usedProcedure, step]
  refine asks_takePut ?_ (by omega)
  simp only [counted, List.length_append, List.length_cons, List.length_nil]
  omega

theorem accessPath_dump (reqProcedure : Bool) (entry : NextRsb) (rest : Fors) (left : Int) :
    (accessPath reqProcedure (.cons entry rest) left).dump =
      (accessPath reqProcedure rest left).dump.andThen (dumpNext reqProcedure entry) := by
  rw [accessPath]
  split
  next goes =>
    rw [andThen_goes goes]
    simp only
    rw [andThen_goes goes]
  next stops =>
    rw [Bool.not_eq_true] at stops
    rw [andThen_fails stops]

mutual

/-- Every tree: the recursion follows the rsbs. -/
theorem asks_rsb (reqProcedure : Bool) : (rsb : Rsb) →
    Asks (dumpRsb reqProcedure rsb) (need reqProcedure rsb) (used reqProcedure rsb)
      (describe reqProcedure rsb).encode
  | .mk rsbAlias rsbRelation arg rsbNext => by
    have step : dumpRsb reqProcedure (.mk rsbAlias rsbRelation arg rsbNext) = fun left =>
        ((((((take (4 : Nat) left).andThen (put [rsbBegin])).andThen
          (dumpName (rsbAlias.or rsbRelation))).andThen (put [rsbType])).andThen
          (dumpArg reqProcedure arg)).andThen (dumpNext reqProcedure rsbNext)).andThen
          (put [rsbEnd]) := by
      funext left
      rw [dumpRsb]
      rfl
    have first := (asks_take (n := 4) (by norm_num)).andThen (asks_put [rsbBegin])
    have named := (first.andThen (asks_name (rsbAlias.or rsbRelation))).andThen (asks_put [rsbType])
    have whole := ((named.andThen (asks_arg reqProcedure arg)).andThen
      (asks_next reqProcedure rsbNext)).andThen (asks_put [rsbEnd])
    have least := (asks_arg reqProcedure arg).used_le
    have leastNext := (asks_next reqProcedure rsbNext).used_le
    rw [step]
    refine whole.congr ?_ ?_ ?_
    · rw [need]
      omega
    · rw [used]
      omega
    · rw [describe_encode]
      simp only [List.nil_append, List.cons_append, List.append_assoc]

theorem asks_arg (reqProcedure : Bool) : (arg : RsbArg) →
    Asks (dumpArg reqProcedure arg) (needArg reqProcedure arg) (usedArg reqProcedure arg)
      (argBytes reqProcedure arg)
  | .indexed node => by
    have whole := (asks_put [infoIndexed]).andThen (asks_index node)
    have step : dumpArg reqProcedure (.indexed node) = fun left =>
        (put [infoIndexed] left).andThen fun left => (dumpIndex node left).andThen (take 1) := by
      funext left
      rw [dumpArg, andThen_assoc]
    rw [step]
    refine whole.congr ?_ ?_ ?_
    · rw [needArg]
      omega
    · rw [usedArg, Nat.zero_add]
    · rw [argBytes, describeArg, encodeAll, List.append_nil, List.singleton_append]
  | .navigate node => by
    have whole := (asks_put [infoNavigate]).andThen (asks_index node)
    have step : dumpArg reqProcedure (.navigate node) = fun left =>
        (put [infoNavigate] left).andThen fun left => (dumpIndex node left).andThen (take 1) := by
      funext left
      rw [dumpArg, andThen_assoc]
    rw [step]
    refine whole.congr ?_ ?_ ?_
    · rw [needArg]
      omega
    · rw [usedArg, Nat.zero_add]
    · rw [argBytes, describeArg, encodeAll, List.append_nil, List.singleton_append]
  | .join type streams => by
    have whole := (asks_put [type.info, UInt8.ofNat (streamCount streams)]).andThen
      (asks_streams reqProcedure streams)
    have step : dumpArg reqProcedure (.join type streams) = fun left =>
        (put [type.info, UInt8.ofNat (streamCount streams)] left).andThen
          (dumpStreams reqProcedure streams) := by
      funext left
      rw [dumpArg]
    rw [step]
    refine whole.congr ?_ ?_ ?_
    · rw [needArg]
      omega
    · rw [usedArg, Nat.zero_add]
    · rw [argBytes, describeArg]
  | .leftCross outer inner => by
    have whole := ((asks_put [infoLeftCross, 2]).andThen (asks_rsb reqProcedure outer)).andThen
      (asks_rsb reqProcedure inner)
    have step : dumpArg reqProcedure (.leftCross outer inner) = fun left =>
        ((put [infoLeftCross, 2] left).andThen (dumpRsb reqProcedure outer)).andThen
          (dumpRsb reqProcedure inner) := by
      funext left
      rw [dumpArg]
    rw [step]
    refine whole.congr ?_ ?_ ?_
    · rw [needArg]
      omega
    · rw [usedArg, Nat.zero_add]
    · rw [argBytes, describeArg, encodeAll, encodeAll_singleton, List.append_assoc]
  | .procedure prc => by
    cases reqProcedure with
    | true =>
      have whole := (asks_put [infoProcedure]).andThen (asks_put [])
      have step : dumpArg true (.procedure prc) = fun left =>
          (put [infoProcedure] left).andThen (put []) := by
        funext left
        rw [dumpArg]
        rfl
      rw [step]
      refine whole.congr ?_ ?_ ?_
      · rw [needArg]
        rfl
      · rw [usedArg]
        rfl
      · rw [argBytes, describeArg, if_pos rfl, encodeAll]
    | false =>
      have whole := (asks_put [infoProcedure]).andThen (asks_procedure prc)
      have step : dumpArg false (.procedure prc) = fun left =>
          (put [infoProcedure] left).andThen (dumpProcedure prc) := by
        funext left
        rw [dumpArg]
        rfl
      rw [step]
      refine whole.congr ?_ ?_ ?_
      · rw [needArg, if_neg Bool.false_ne_true]
        omega
      · rw [usedArg, if_neg Bool.false_ne_true, Nat.zero_add]
      · rw [argBytes, describeArg, if_neg Bool.false_ne_true]
  | .plain type => by
    have step : dumpArg reqProcedure (.plain type) = put [type.info] := by
      funext left
      rw [dumpArg]
    rw [step]
    refine (asks_put [type.info]).congr ?_ ?_ ?_
    · rw [needArg]
    · rw [usedArg]
    · rw [argBytes, describeArg, encodeAll, List.append_nil]

theorem asks_next (reqProcedure : Bool) : (rsbNext : NextRsb) →
    Asks (dumpNext reqProcedure rsbNext) (needNext reqProcedure rsbNext)
      (usedNext reqProcedure rsbNext) (encodeAll (describeNext reqProcedure rsbNext))
  | .none => by
    have step : dumpNext reqProcedure .none = put [] := by
      funext left
      rw [dumpNext]
    rw [step, needNext, usedNext, describeNext, encodeAll]
    exact asks_put []
  | .some rsb => by
    have step : dumpNext reqProcedure (.some rsb) = dumpRsb reqProcedure rsb := by
      funext left
      rw [dumpNext]
    rw [step, needNext, usedNext, describeNext, encodeAll_singleton]
    exact asks_rsb reqProcedure rsb

theorem asks_streams (reqProcedure : Bool) : (streams : Streams) →
    Asks (dumpStreams reqProcedure streams) (needStreams reqProcedure streams)
      (usedStreams reqProcedure streams) (encodeAll (describeStreams reqProcedure streams))
  | .nil => by
    have step : dumpStreams reqProcedure .nil = put [] := by
      funext left
      rw [dumpStreams]
    rw [step, needStreams, usedStreams, describeStreams, encodeAll]
    exact asks_put []
  | .cons rsb rest => by
    have step : dumpStreams reqProcedure (.cons rsb rest) = fun left =>
        (dumpRsb reqProcedure rsb left).andThen (dumpStreams reqProcedure rest) := by
      funext left
      rw [dumpStreams]
    rw [step, needStreams, usedStreams, describeStreams, encodeAll]
    exact (asks_rsb reqProcedure rsb).andThen (asks_streams reqProcedure rest)

theorem asks_procedure : (prc : Procedure) →
    Asks (dumpProcedure prc) (needProcedure prc) (usedProcedure prc)
      (encodeAll (describeProcedure prc))
  | .missing => by
    rw [needProcedure, usedProcedure]
    refine ⟨Nat.zero_le _, fun left high enough => by omega, fun left _ _ => .inl ?_⟩
    rw [dumpProcedure]
  | .noFors prcName => asks_noFors prcName
  | .request reqProcedure reqFors => by
    have path := asks_fors reqProcedure reqFors
    have step : dumpProcedure (.request reqProcedure reqFors) = fun left =>
        takePath (accessPath reqProcedure reqFors left) left := by
      funext left
      rw [dumpProcedure]
    rw [step, needProcedure, usedProcedure, describeProcedure]
    exact asks_takePath path.1 path.2

theorem asks_fors (reqProcedure : Bool) : (fors : Fors) →
    Asks (fun left => (accessPath reqProcedure fors left).dump) (needFors reqProcedure fors)
        (usedFors reqProcedure fors) (encodeAll (describeFors reqProcedure fors)) ∧
      ∀ left : Nat, left ≤ 32767 → needFors reqProcedure fors ≤ left →
        (accessPath reqProcedure fors left).returnLength =
          (encodeAll (describeFors reqProcedure fors)).length
  | .nil => by
    have step : (fun left => (accessPath reqProcedure .nil left).dump) = put [] := by
      funext left
      rw [accessPath]
    refine ⟨?_, fun left _ _ => ?_⟩
    · rw [step, needFors, usedFors, describeFors, encodeAll]
      exact asks_put []
    · rw [accessPath, describeFors, encodeAll]
      rfl
  | .cons entry rest => by
    obtain ⟨earlier, length⟩ := asks_fors reqProcedure rest
    have last := asks_next reqProcedure entry
    have step : (fun left => (accessPath reqProcedure (.cons entry rest) left).dump) = fun left =>
        (accessPath reqProcedure rest left).dump.andThen (dumpNext reqProcedure entry) := by
      funext left
      exact accessPath_dump reqProcedure entry rest left
    refine ⟨?_, fun left high enough => ?_⟩
    · rw [step, needFors, usedFors, describeFors, encodeAll_append]
      exact earlier.andThen last
    · rw [needFors] at enough
      have least := last.used_le
      have done := earlier.enough left high (by omega)
      have rest' : (left : Int) - usedFors reqProcedure rest =
          (left - usedFors reqProcedure rest : Nat) := by
        have := earlier.used_le
        omega
      have doneLast := last.enough (left - usedFors reqProcedure rest) (by omega) (by omega)
      rw [accessPath]
      simp only
      rw [done, if_pos rfl]
      simp only
      rw [rest', doneLast, if_pos rfl, length left high (by omega), describeFors, encodeAll_append,
        List.length_append]

end

end InterBase.AccessPath
