import ProtoSchema.Proofs.Token.Faults
import ProtoSchema.Proofs.Token.Rereading

/-! # Numerals

A number is written in decimal without zeros in front, or in octal behind a `0`, or in hexadecimal behind
`0x` (`Token.Number.Written`).  However it is written and however long the numeral is, in front of a text in
which neither a word nor a number goes on it is read as a whole: as an integer with that value if the number
has 64 bits, and else as an integer that is too large (`Scan.ofChars_numeral`). -/

namespace ProtoSchema

namespace Token.Number

variable {base n m : Nat} {c : Char} {ds rest : List Char}

/-- The digits of a number, behind any number of zeros and in either case. -/
def Spells (base n : Nat) (ds : List Char) : Prop :=
  ∃ zeros, ds.map Char.toLower = List.replicate zeros '0' ++ Nat.toDigits base n

/-- The numerals of a number. -/
inductive Written (n : Nat) : List Char → Prop
  | decimal : Written n (Nat.toDigits 10 n)
  | octal {ds : List Char} (spelled : Spells 8 n ds) : Written n ('0' :: ds)
  | hexadecimal {mark : Char} {ds : List Char} (marked : mark = 'x' ∨ mark = 'X') (spelled : Spells 16 n ds) :
      Written n ('0' :: mark :: ds)

/-! ### Digits -/

/-- What is read of a digit with the value `m`, in either case. -/
theorem digit_of_toLower (hm : m < 16) (h : c.toLower = Nat.digitChar m) :
    digit c = m ∧ isHex c = true ∧ (m < 8 → isOctal c = true) := by
  have hascii : ∀ k : Fin 128, ∀ m < 16, (Char.ofNat k).toLower = Nat.digitChar m →
      digit (Char.ofNat k) = m ∧ isHex (Char.ofNat k) = true ∧ (m < 8 → isOctal (Char.ofNat k) = true) := by
    decide +kernel
  by_cases hc : c.toNat < 128
  · rw [← Char.ofNat_toNat c] at h ⊢
    exact hascii ⟨c.toNat, hc⟩ m hm h
  · -- no other character is a digit
    have hupper : ¬(c.val ≥ 'A'.val ∧ c.val ≤ 'Z'.val) := by
      simp only [UInt32.le_iff_toNat_le]
      have : 'Z'.val.toNat = 90 := rfl
      have : c.toNat = c.val.toNat := rfl
      omega
    have hsmall : ∀ m < 16, (Nat.digitChar m).toNat < 128 := by decide
    have hsame : c.toLower = c := dif_neg hupper
    rw [hsame] at h
    exact absurd (h ▸ hsmall m hm) hc

theorem digit_digitChar (hm : m < 16) : digit (Nat.digitChar m) = m := by
  have hall : ∀ m < 16, digit (Nat.digitChar m) = m := by decide
  exact hall m hm

/-- The digits of a number are digits of its base. -/
theorem exists_of_mem_toDigits (hb : 1 < base) (n : Nat) :
    ∀ c ∈ Nat.toDigits base n, ∃ m < base, c = Nat.digitChar m := by
  induction n using Nat.strongRecOn with
  | _ n ih =>
    rw [Nat.toDigits_eq_if hb]
    split
    · next hn => exact (List.forall_mem_singleton ..).mpr ⟨n, hn, rfl⟩
    · next hn =>
      refine List.forall_mem_append.mpr ⟨ih (n / base) (Nat.div_lt_self (by omega) hb), ?_⟩
      exact (List.forall_mem_singleton ..).mpr ⟨n % base, Nat.mod_lt n (by omega), rfl⟩

theorem Spells.exists_of_mem (h : Spells base n ds) (hb : 1 < base) :
    ∀ c ∈ ds, ∃ m < base, c.toLower = Nat.digitChar m := by
  obtain ⟨zeros, hds⟩ := h
  intro c hc
  have hmem : c.toLower ∈ List.replicate zeros '0' ++ Nat.toDigits base n := hds ▸ List.mem_map_of_mem hc
  obtain hzero | hdigit := List.mem_append.mp hmem
  · exact ⟨0, by omega, (List.mem_replicate.mp hzero).2⟩
  · exact exists_of_mem_toDigits hb n _ hdigit

theorem Spells.ne_nil (h : Spells base n ds) : ds ≠ [] := by
  rintro rfl
  obtain ⟨zeros, hds⟩ := h
  exact Nat.toDigits_ne_nil (List.append_eq_nil_iff.mp hds.symm).2

/-! ### Values -/

theorem value_append (base : Nat) (ds : List Char) (c : Char) :
    value base (ds ++ [c]) = value base ds * base + digit c := by
  rw [value, List.foldl_append]
  rfl

theorem value_toDigits (hb : 1 < base) (hle : base ≤ 16) (n : Nat) : value base (Nat.toDigits base n) = n := by
  induction n using Nat.strongRecOn with
  | _ n ih =>
    rw [Nat.toDigits_eq_if hb]
    split
    · next hn =>
      rw [show [Nat.digitChar n] = [] ++ [Nat.digitChar n] from rfl, value_append,
        digit_digitChar (by omega)]
      exact Nat.zero_mul base ▸ Nat.zero_add n
    · next hn =>
      rw [value_append, ih (n / base) (Nat.div_lt_self (by omega) hb),
        digit_digitChar ((Nat.mod_lt n (by omega)).trans_le hle)]
      exact Nat.div_add_mod' n base

theorem value_zeros (base zeros : Nat) (ds : List Char) :
    value base (List.replicate zeros '0' ++ ds) = value base ds := by
  induction zeros with
  | zero => rfl
  | succ zeros ih =>
    rw [List.replicate_succ, List.cons_append, value, List.foldl_cons]
    simpa [value, digit] using ih

/-- Digits that spell a number have it as their value. -/
theorem Spells.value_eq (h : Spells base n ds) (hb : 1 < base) (hle : base ≤ 16) : value base ds = n := by
  have hmem := h.exists_of_mem hb
  obtain ⟨zeros, hds⟩ := h
  have hlower : value base (ds.map Char.toLower) = value base ds := by
    rw [value, List.foldl_map]
    refine List.foldl_ext _ _ _ fun k c hc => ?_
    obtain ⟨m, hm, hcm⟩ := hmem c hc
    rw [hcm, digit_digitChar (by omega), (digit_of_toLower (by omega) hcm).1]
  rw [← hlower, hds, value_zeros, value_toDigits hb hle]

/-! ### Reading -/

/-- The reading of an integer: its value if it has 64 bits. -/
def bounded (n : Nat) : Option Nat := if n < intLimit then some n else none

theorem decimalInt_toDigits (n : Nat) : decimalInt (Nat.toDigits 10 n) = bounded n := by
  unfold decimalInt
  split
  · next c rest hd =>
    obtain rfl := eq_zero_of_digits n hd
    cases hd
  · rw [value_digits]
    rfl

theorem decimalInt_octal (hne : ds ≠ []) (hds : ∀ c ∈ ds, isOctal c = true) :
    decimalInt ('0' :: ds) = bounded (value 8 ds) := by
  obtain ⟨c, ds, rfl⟩ := List.exists_cons_of_ne_nil hne
  obtain ⟨hc, hmore⟩ := List.forall_mem_cons.mp hds
  have hnot : ¬(¬isOctal c = true) := not_not_intro hc
  simp only [decimalInt, if_neg hnot, List.all_eq_true.mpr hmore, if_true]
  rfl

theorem isDigit_of_isOctal (h : isOctal c = true) : c.isDigit = true := by
  simp only [isOctal, Bool.and_eq_true, decide_eq_true_eq, Char.le_def] at h
  simp only [Char.isDigit, Bool.and_eq_true, decide_eq_true_eq, ge_iff_le]
  exact ⟨h.1, UInt32.le_trans h.2 (by decide)⟩

/-- A numeral is read as a whole. -/
theorem Written.read (h : Written n ds) (hr : Free rest) : ∃ c cs, ds = c :: cs ∧ c.isDigit = true ∧
    Number.read c (cs ++ rest) = ((bounded n).map .int, cs.length) := by
  cases h with
  | decimal =>
    obtain ⟨c, cs, hd⟩ := List.exists_cons_of_ne_nil (Nat.toDigits_ne_nil (n := n) (b := 10))
    have hdigits : AllDigits (c :: cs) := hd ▸ fun _ => isDigit_of_mem_digits
    refine ⟨c, cs, hd, hdigits c (List.mem_cons_self ..), ?_⟩
    rw [read_integer (List.forall_mem_cons.mp hdigits).2 hr, ← hd, decimalInt_toDigits]
  | @octal ds spelled =>
    have hoctal : ∀ c ∈ ds, isOctal c = true := fun c hc => by
      obtain ⟨m, hm, hcm⟩ := spelled.exists_of_mem (by decide) c hc
      exact (digit_of_toLower (by omega) hcm).2.2 hm
    refine ⟨'0', ds, rfl, rfl, ?_⟩
    rw [read_integer (fun c hc => isDigit_of_isOctal (hoctal c hc)) hr, decimalInt_octal spelled.ne_nil hoctal,
      spelled.value_eq (by decide) (by decide)]
  | @hexadecimal mark ds marked spelled =>
    have hhex : ∀ c ∈ ds, isHex c = true := fun c hc => by
      obtain ⟨m, hm, hcm⟩ := spelled.exists_of_mem (by decide) c hc
      exact (digit_of_toLower hm hcm).2.1
    refine ⟨'0', mark :: ds, rfl, rfl, ?_⟩
    rw [read_hexadecimal marked spelled.ne_nil hhex hr, spelled.value_eq (by decide) le_rfl, bounded]
    split <;> rfl

end Token.Number

namespace Scan

open Token.Number

/-- A numeral in front of a text in which neither a word nor a number goes on: it is one token with the
value of the number if that is below `2 ^ 64`, and otherwise the whole numeral is an integer that is too
large. -/
theorem ofChars_numeral {n : Nat} {ds rest : List Char} (written : Written n ds) (apart : Free rest)
    (lines : LineIndex) (offset : Nat) :
    let stop := offset + byteSize ds
    let behind := ofChars lines stop rest
    ofChars lines offset (ds ++ rest) =
      if n < Nat.pow 2 64 then
        ⟨⟨.int n, String.ofList ds, ⟨offset, stop⟩, lines.position offset⟩ :: behind.tokens, behind.ending⟩
      else ⟨[], .fault (.integerTooLarge ⟨offset, stop⟩)⟩ := by
  intro stop behind
  obtain ⟨c, cs, rfl, hc, hread⟩ := written.read apart
  have hblank := not_isBlank_of_isWordPart (isWordPart_of_isDigit hc)
  have hword := isWordStart_of_isDigit hc
  rw [List.cons_append]
  by_cases hn : n < Nat.pow 2 64
  · have hbounded : bounded n = some n := if_pos hn
    have hstands : (Piece.token (.int n) c cs).Stands rest := fun offset => by
      simp only [Lexeme.read, hblank, hword, hc, hread, hbounded]
      rfl
    rw [if_pos hn]
    exact ofChars_token hstands offset
  · have hbounded : bounded n = none := if_neg hn
    rw [hbounded] at hread
    have hsize := size_of_read hc hread
    rw [List.take_left] at hsize
    have hfault : Lexeme.read offset c (cs ++ rest) = .error (.integerTooLarge ⟨offset, stop⟩) := by
      simp only [Lexeme.read, hblank, hword, hc, hread, stop, hsize, Nat.add_assoc]
      rfl
    rw [if_neg hn]
    unfold ofChars
    rw [hfault]

/-- The greatest integer in hexadecimal digits of both cases, and the number behind it in octal, on the
second line of a text. -/
theorem ofChars_numeral_greatest :
    Written (Nat.pow 2 64 - 1) "0X0fFffFFffffffFFFF".toList ∧
      Written (Nat.pow 2 64) "02000000000000000000000".toList ∧
      Free [';'] ∧
      ofChars ⟨[2]⟩ 3 ("0X0fFffFFffffffFFFF".toList ++ [';']) =
        ⟨[⟨.int (Nat.pow 2 64 - 1), "0X0fFffFFffffffFFFF", ⟨3, 22⟩, ⟨2, 2⟩⟩,
          ⟨.punct .semicolon, ";", ⟨22, 23⟩, ⟨2, 21⟩⟩], .endOfText 23⟩ ∧
      ofChars ⟨[2]⟩ 3 ("02000000000000000000000".toList ++ [';']) = ⟨[], .fault (.integerTooLarge ⟨3, 26⟩)⟩ := by
  have hgreatest : Written (Nat.pow 2 64 - 1) "0X0fFffFFffffffFFFF".toList :=
    .hexadecimal (.inr rfl) ⟨1, by decide +kernel⟩
  have hbehind : Written (Nat.pow 2 64) "02000000000000000000000".toList := .octal ⟨0, by decide +kernel⟩
  have hfree : Free [';'] := free_cons.mpr (by decide)
  refine ⟨hgreatest, hbehind, hfree, ?_, ?_⟩
  · rw [ofChars_numeral hgreatest hfree _ 3, if_pos (by decide)]
    decide +kernel
  · rw [ofChars_numeral hbehind hfree _ 3, if_neg (by decide)]
    decide +kernel

end Scan

end ProtoSchema
