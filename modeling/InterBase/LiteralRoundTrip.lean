import InterBase.LexToken
import InterBase.Literal

namespace InterBase

open Memory

/-- An `SCHAR` that is stored and loaded again still has the low bits of its value. -/
theorem toSchar_schar_sub (n k : Int) : toSchar (schar (toSchar n) - k) = toSchar (n - k) := by
  have hb := toNat_toSchar n
  have hmod : (schar (toSchar n) - k) % 256 = (n - k) % 256 := by
    unfold schar
    split <;> omega
  exact congrArg (fun m : Int => UInt8.ofNat m.toNat) hmod

theorem toSchar_schar (n : Int) : toSchar (schar (toSchar n)) = toSchar n := by
  have h := toSchar_schar_sub n 0
  rwa [Int.sub_zero, Int.sub_zero] at h

theorem stuffWord_long (n : Int) : stuffWord n ++ stuffWord (n / 65536) = signedBytes 3 n := by
  have h1 : n / 65536 = n / 256 / 256 := by omega
  rw [h1]
  rfl

theorem stuffWord_int64 (n : Int) :
    stuffWord n ++ stuffWord (n / 65536) ++ stuffWord (n / 4294967296) ++
      stuffWord (n / 281474976710656) = signedBytes 7 n := by
  have h1 : n / 65536 = n / 256 / 256 := by omega
  have h2 : n / 4294967296 = n / 256 / 256 / 256 / 256 := by omega
  have h3 : n / 281474976710656 = n / 256 / 256 / 256 / 256 / 256 / 256 := by omega
  rw [h1, h2, h3]
  rfl

theorem vaxInteger_long {n : Int} (low : -2147483648 ≤ n) (high : n ≤ 2147483647) :
    vaxInteger (stuffWord n ++ stuffWord (n / 65536)) = n := by
  rw [stuffWord_long]
  apply vaxInteger_signedBytes 3 <;> omega

theorem vaxInteger_int64 {n : Int} (low : -9223372036854775808 ≤ n)
    (high : n ≤ 9223372036854775807) :
    vaxInteger (stuffWord n ++ stuffWord (n / 65536) ++ stuffWord (n / 4294967296) ++
      stuffWord (n / 281474976710656)) = n := by
  rw [stuffWord_int64]
  apply vaxInteger_signedBytes 7 <;> omega

section

variable {mem : Nat → UInt8} {q : Nat} {bytes : List UInt8}

theorem blrByte_eq {b : UInt8} (h : Holds mem q (b :: bytes)) :
    Csb.blrByte ⟨mem, q⟩ = (b, ⟨mem, (q + 1 : Nat)⟩) := by
  have hb := (holds_cons.mp h).1
  simp only [Csb.blrByte, Int.toNat_natCast, hb]
  rfl

theorem blrWord_eq {w : Int} (h : Holds mem q (stuffWord w ++ bytes)) :
    Csb.blrWord ⟨mem, q⟩ = ((w % 65536).toNat, ⟨mem, (q + 2 : Nat)⟩) := by
  have hlow : Holds mem q (toSchar w :: toSchar (w / 256) :: bytes) := h
  have hhigh := (holds_cons.mp hlow).2
  rw [Csb.blrWord, blrByte_eq hlow]
  dsimp only
  rw [blrByte_eq hhigh, toNat_toSchar, toNat_toSchar]
  have hword : (w / 256 % 256).toNat * 256 + (w % 256).toNat = (w % 65536).toNat := by omega
  rw [hword]

theorem holds_tail {bytes' : List UInt8} (h : Holds mem q (bytes ++ bytes')) :
    Holds mem (q + bytes.length) bytes' := (holds_append.mp h).2

variable (refuses : List UInt8 → Bool)

theorem parLiteral_long {scale : UInt8} (h : Holds mem q (blrLong :: scale :: bytes))
    (hlen : bytes.length = 4) :
    parLiteral refuses ⟨mem, q⟩ =
      some (.long (schar scale) (vaxInteger bytes), ⟨mem, q + 6⟩) := by
  have hscale := (holds_cons.mp h).2
  have hvalue : Holds mem (q + 1 + 1) bytes := (holds_cons.mp hscale).2
  have hdesc : parDesc ⟨mem, q⟩ = some (.long (schar scale), ⟨mem, (q + 1 + 1 : Nat)⟩) := by
    rw [parDesc, blrByte_eq h]
    dsimp only
    rw [if_neg (by decide), if_pos rfl, blrByte_eq hscale]
  have hslice : slice mem (q + 1 + 1) 4 = bytes := hlen ▸ hvalue
  rw [parLiteral, hdesc]
  dsimp only
  rw [Int.toNat_natCast, hslice, Csb.advance]
  congr 3

theorem parLiteral_int64 {scale : UInt8} (h : Holds mem q (blrInt64 :: scale :: bytes))
    (hlen : bytes.length = 8) :
    parLiteral refuses ⟨mem, q⟩ =
      some (.int64 (schar scale) (vaxInteger bytes), ⟨mem, q + 10⟩) := by
  have hscale := (holds_cons.mp h).2
  have hvalue : Holds mem (q + 1 + 1) bytes := (holds_cons.mp hscale).2
  have hdesc : parDesc ⟨mem, q⟩ = some (.int64 (schar scale), ⟨mem, (q + 1 + 1 : Nat)⟩) := by
    rw [parDesc, blrByte_eq h]
    dsimp only
    rw [if_neg (by decide), if_neg (by decide), if_pos rfl, blrByte_eq hscale]
  have hslice : slice mem (q + 1 + 1) 8 = bytes := hlen ▸ hvalue
  rw [parLiteral, hdesc]
  dsimp only
  rw [Int.toNat_natCast, hslice, Csb.advance]
  congr 3

/-- The characters that are handed over are as many as the word says. -/
theorem parLiteral_double {w : Int} (h : Holds mem q (blrDouble :: (stuffWord w ++ bytes)))
    (hlen : (w % 65536).toNat ≤ bytes.length) :
    parLiteral refuses ⟨mem, q⟩ =
      if refuses (bytes.take (w % 65536).toNat) then none
      else some (.numeric (bytes.take (w % 65536).toNat),
        ⟨mem, q + 3 + sshort (w % 65536).toNat⟩) := by
  have hword := (holds_cons.mp h).2
  have hbytes : Holds mem (q + 1 + 2) bytes := holds_tail hword
  have hdesc : parDesc ⟨mem, q⟩ = some (.double, ⟨mem, (q + 1 : Nat)⟩) := by
    rw [parDesc, blrByte_eq h]
    dsimp only
    rw [if_neg (by decide), if_neg (by decide), if_neg (by decide), if_pos rfl]
  have hslice : slice mem (q + 1 + 2) (w % 65536).toNat = bytes.take (w % 65536).toNat := by
    rw [← take_slice mem hlen, hbytes]
  rw [parLiteral, hdesc]
  dsimp only
  rw [blrWord_eq hword]
  dsimp only
  rw [Int.toNat_natCast, hslice, Csb.advance]
  congr 4

theorem copyRounds_sshort {l : Nat} (h : l < 65536) : copyRounds (sshort l) = l := by
  unfold copyRounds sshort
  split <;> omega

theorem parLiteral_text {ttype : UInt16} {l : Nat} (hl : l < 65536)
    (h : Holds mem q (blrText2 :: (stuffWord ttype.toNat ++ (stuffWord l ++ bytes))))
    (hlen : bytes.length = l) :
    parLiteral refuses ⟨mem, q⟩ =
      some (.text ttype.toNat bytes, ⟨mem, q + 5 + sshort l⟩) := by
  have hword := (holds_cons.mp h).2
  have hlength : Holds mem (q + 1 + 2) (stuffWord l ++ bytes) := holds_tail hword
  have hbytes : Holds mem (q + 1 + 2 + 2) bytes := holds_tail hlength
  have httype : ((ttype.toNat : Int) % 65536).toNat = ttype.toNat := by
    have := ttype.toNat_lt
    omega
  have hl' : ((l : Int) % 65536).toNat = l := by omega
  have hdesc : parDesc ⟨mem, q⟩ =
      some (.text ttype.toNat l, ⟨mem, (q + 1 + 2 + 2 : Nat)⟩) := by
    rw [parDesc, blrByte_eq h]
    dsimp only
    rw [if_pos rfl, blrWord_eq hword, httype]
    dsimp only
    rw [blrWord_eq hlength, hl']
  have hslice : slice mem (q + 1 + 2 + 2) l = bytes := hlen ▸ hbytes
  rw [parLiteral, hdesc]
  dsimp only
  rw [copyRounds_sshort hl, Int.toNat_natCast, hslice, Csb.advance]
  congr 3

end

end InterBase
