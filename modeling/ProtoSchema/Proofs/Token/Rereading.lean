import ProtoSchema.Proofs.Token.Floats
import ProtoSchema.Proofs.Token.Legibility

/-! # Tokens by themselves

A token that was read somewhere in a text is read again from its own characters, in front of everything
that does not go on as a word or a number (`Lexeme.stands_of_read`).  What stood behind the token in its
text had a part in where the token ended: `1e+x` begins with the integer `1`, and `08` ends behind its
last digit.  Each reader took all that it could, so from the characters it took it cannot take less, and
what is free ends it there. -/

namespace ProtoSchema

open Lexeme (isBlank isWordStart isWordPart)

namespace Token.Number

variable {c : Char} {cs rest : List Char}

theorem take_digits (cs : List Char) : cs.take (digits cs).length = digits cs :=
  Lexeme.take_takeWhile Char.isDigit cs

theorem allDigits_digits (cs : List Char) : AllDigits (digits cs) :=
  List.all_eq_true.mp List.all_takeWhile

theorem isWordPart_of_isHex (h : isHex c = true) : isWordPart c = true := by
  have halpha : c.isAlpha = (decide ('A'.val ≤ c.val ∧ c.val ≤ 'Z'.val) ||
      (decide ('a'.val ≤ c.val) && decide (c.val ≤ 'z'.val))) := rfl
  simp only [isHex, isWordPart, Char.isAlphanum, halpha, Bool.or_eq_true, Bool.and_eq_true,
    decide_eq_true_eq, Char.le_def, UInt32.le_iff_toNat_le] at h ⊢
  have : 'a'.val.toNat = 97 := rfl
  have : 'f'.val.toNat = 102 := rfl
  have : 'A'.val.toNat = 65 := rfl
  have : 'F'.val.toNat = 70 := rfl
  have : 'z'.val.toNat = 122 := rfl
  have : 'Z'.val.toNat = 90 := rfl
  rcases h with (h | h) | h
  · exact .inl (.inr h)
  · exact .inl (.inl (.inr (by omega)))
  · exact .inl (.inl (.inl (by omega)))

/-- Digits behind the mark of an exponent and its sign, if it has one. -/
theorem tail_of_digits {mark : Char} {ds : List Char} (hmark : mark = 'e' ∨ mark = 'E') (hne : ds ≠ [])
    (hd : AllDigits ds) :
    Tail (mark :: '-' :: ds) (-(value 10 ds : ℤ)) ∧ Tail (mark :: '+' :: ds) (value 10 ds) ∧
      Tail (mark :: ds) (value 10 ds) := by
  have hhead : mark.isDigit = false ∧ mark ≠ '.' := by
    rcases hmark with rfl | rfl <;> decide
  have htail : ∀ {cs e}, (∀ rest, Free rest → exponent (mark :: cs ++ rest) = ((mark :: cs).length, e)) →
      Tail (mark :: cs) e := by
    intro cs e h
    refine ⟨fun rest _ c hc => ?_, fun rest _ c hc => ?_, h⟩
    · cases hc
      exact hhead.1
    · cases hc
      exact hhead.2
  refine ⟨htail fun rest hr => ?_, htail fun rest hr => ?_, htail fun rest hr => ?_⟩
  · simp only [List.cons_append, exponent, if_pos hmark, List.drop_succ_cons, List.drop_zero,
      digits_append hd hr, if_neg hne, if_true, List.length_cons]
    exact Prod.ext (by omega) rfl
  · simp only [List.cons_append, exponent, if_pos hmark, List.drop_succ_cons, List.drop_zero,
      digits_append hd hr, if_neg hne, Bool.false_eq_true, if_false, List.length_cons]
    exact Prod.ext (by omega) rfl
  · -- the digit in front is no sign
    obtain ⟨d, ds, rfl⟩ := List.exists_cons_of_ne_nil hne
    have hdigit := hd d (List.mem_cons_self ..)
    simp only [List.cons_append, exponent, if_pos hmark]
    split
    · next h => cases h; exact absurd hdigit (by decide)
    · next h => cases h; exact absurd hdigit (by decide)
    · rw [List.drop_zero, ← List.cons_append, digits_append hd hr, if_neg hne]
      simp only [List.length_cons, Bool.false_eq_true, if_false]
      exact Prod.ext (by omega) rfl

/-- The characters of an exponent, if there are any, are read as that exponent again. -/
theorem tail_of_exponent {n : ℕ} {e : ℤ} (h : exponent cs = (n, e)) : Tail (cs.take n) e := by
  unfold exponent at h
  split at h
  case h_2 =>
    cases h
    exact tail_nil
  next mark more =>
  split at h
  case isFalse =>
    cases h
    exact tail_nil
  next hmark =>
  split at h
  next signs negative hsigns =>
  by_cases hne : digits (more.drop signs) = []
  · rw [if_pos hne] at h
    cases h
    exact tail_nil
  rw [if_neg hne] at h
  cases h
  have htail := tail_of_digits hmark hne (allDigits_digits _)
  split at hsigns <;> cases hsigns
  · simpa [Nat.add_comm _ (digits _).length, take_digits] using htail.1
  · simpa [Nat.add_comm _ (digits _).length, take_digits] using htail.2.1
  · simpa [Nat.add_comm _ (digits _).length, take_digits] using htail.2.2

theorem digits_append_drop (cs : List Char) : digits cs ++ cs.drop (digits cs).length = cs := by
  conv_rhs => rw [← List.take_append_drop (digits cs).length cs, take_digits]

/-- Digits in front of a text in which no number goes on are an integer. -/
theorem read_integer {more : List Char} (hm : AllDigits more) (hr : Free rest) :
    read c (more ++ rest) = ((decimalInt (c :: more)).map .int, more.length) := by
  simp only [read, digits_append hm hr, List.drop_left, float, exponent_of_free hr]
  cases rest with
  | nil => rfl
  | cons d ds =>
    obtain ⟨hword, hpoint⟩ := free_cons.mp hr
    have hx : d ≠ 'x' ∧ d ≠ 'X' := by
      constructor <;> rintro rfl <;> revert hword <;> decide
    split
    · next h => exact absurd (List.cons.inj h).1 hpoint
    · simp [hx.1, hx.2]

/-- Hexadecimal digits behind their mark. -/
theorem read_hexadecimal {mark : Char} {hex : List Char} (hmark : mark = 'x' ∨ mark = 'X') (hne : hex ≠ [])
    (hhex : ∀ d ∈ hex, isHex d = true) (hr : Free rest) :
    read '0' (mark :: hex ++ rest) =
      (if value 16 hex < intLimit then some (.int (value 16 hex)) else none, (mark :: hex).length) := by
  have htake : (hex ++ rest).takeWhile isHex = hex := by
    refine takeWhile_append_of_head hhex fun d hd => ?_
    by_contra hfalse
    have := isWordPart_of_isHex (Bool.not_eq_false _ ▸ hfalse)
    rw [(hr d hd).1] at this
    cases this
  rcases hmark with rfl | rfl <;>
    simp [read, digits, float, exponent, htake, hne, Nat.add_comm, Char.isDigit]

/-- An integer that was read is read again from its characters. -/
theorem read_take_integer {more behind hex : List Char} {kind : Kind} {n : ℕ} (hm : AllDigits more)
    (hhex : hex ≠ [] → ∃ mark tail, (mark = 'x' ∨ mark = 'X') ∧ behind = mark :: tail ∧
      c :: more = ['0'] ∧ hex = tail.takeWhile isHex)
    (h : (if hex = [] then ((decimalInt (c :: more)).map .int, more.length)
      else (if value 16 hex < intLimit then some (.int (value 16 hex)) else none, 1 + hex.length)) =
        (some kind, n)) (hr : Free rest) :
    read c ((more ++ behind).take n ++ rest) = (some kind, ((more ++ behind).take n).length) := by
  by_cases hne : hex = []
  · rw [if_pos hne] at h
    obtain ⟨hkind, rfl⟩ := Prod.mk.inj h
    rw [List.take_left, read_integer hm hr, hkind]
  · rw [if_neg hne] at h
    obtain ⟨hkind, rfl⟩ := Prod.mk.inj h
    obtain ⟨mark, tail, hmark, rfl, hwhole, rfl⟩ := hhex hne
    obtain ⟨rfl, rfl⟩ := List.cons.inj hwhole
    rw [List.nil_append, Nat.add_comm, List.take_succ_cons, Lexeme.take_takeWhile,
      read_hexadecimal hmark hne (List.all_eq_true.mp List.all_takeWhile) hr, hkind]

/-- A number that was read is read again from its characters. -/
theorem read_take {kind : Kind} {n : ℕ} (h : read c cs = (some kind, n)) (hr : Free rest) :
    read c (cs.take n ++ rest) = (some kind, (cs.take n).length) := by
  have hmore := allDigits_digits cs
  have hcs := digits_append_drop cs
  simp only [read] at h
  generalize digits cs = more at h hmore hcs
  generalize cs.drop more.length = behind at h hcs
  subst hcs
  split at h
  · -- with a point
    next behind =>
    obtain ⟨⟨size, e⟩, hexponent⟩ : ∃ x, exponent (behind.drop (digits behind).length) = x := ⟨_, rfl⟩
    simp only [float, hexponent] at h
    cases h
    have htake : (more ++ '.' :: behind).take (more.length + 1 + (digits behind).length + size) =
        more ++ '.' :: (digits behind ++ (behind.drop (digits behind).length).take size) := by
      rw [Nat.add_assoc, Nat.add_assoc, List.take_length_add_append, Nat.add_comm 1, List.take_succ_cons,
        List.take_add, take_digits]
    rw [htake]
    exact read_point hmore (allDigits_digits behind) (tail_of_exponent hexponent) hr
  · next hpoint =>
    obtain ⟨⟨size, e⟩, hexponent⟩ : ∃ x, exponent behind = x := ⟨_, rfl⟩
    simp only [float, hexponent] at h
    split at h
    · -- with an exponent
      next hsize =>
      cases h
      have hne : behind.take size ≠ [] := by
        intro hnil
        rcases List.take_eq_nil_iff.mp hnil with h | rfl
        · omega
        · cases hexponent
          omega
      rw [List.take_length_add_append, read_exponent hmore (tail_of_exponent hexponent) hne hr]
      simp
    · -- an integer, hexadecimal behind the mark if some digits stand there
      have hmarked : ∀ {mark more'}, mark = 'x' ∨ mark = 'X' →
          (if c :: more = ['0'] then more'.takeWhile isHex else []) ≠ [] →
          ∃ mark' tail, (mark' = 'x' ∨ mark' = 'X') ∧ mark :: more' = mark' :: tail ∧ c :: more = ['0'] ∧
            (if c :: more = ['0'] then more'.takeWhile isHex else []) = tail.takeWhile isHex := by
        intro mark more' hmark hne
        split at hne
        · next hwhole => exact ⟨mark, more', hmark, rfl, hwhole, if_pos hwhole⟩
        · exact absurd rfl hne
      split at h
      · exact read_take_integer hmore (hmarked (.inl rfl)) h hr
      · exact read_take_integer hmore (hmarked (.inr rfl)) h hr
      · exact read_take_integer hmore (absurd rfl) h hr

/-- A number that begins with a point is read again from its characters. -/
theorem readFraction_take {kind : Kind} {n : ℕ} (h : readFraction cs = (kind, n)) (hr : Free rest) :
    readFraction (cs.take n ++ rest) = (kind, (cs.take n).length) := by
  obtain ⟨⟨size, e⟩, hexponent⟩ : ∃ x, exponent (cs.drop (digits cs).length) = x := ⟨_, rfl⟩
  simp only [readFraction, float, hexponent] at h
  cases h
  have htail := tail_of_exponent hexponent
  have hfraction : digits (digits cs ++ ((cs.drop (digits cs).length).take size ++ rest)) = digits cs :=
    takeWhile_append_of_head (allDigits_digits cs) (htail.noDigit rest hr)
  rw [List.take_add, take_digits, List.append_assoc]
  simp only [readFraction, hfraction, List.drop_left, float, htail.exponent rest hr, List.length_append]

theorem pos_of_readFraction {d : Char} {kind : Kind} {n : ℕ} (hd : d.isDigit = true)
    (h : readFraction (d :: cs) = (kind, n)) : 0 < n := by
  obtain ⟨-, rfl⟩ := Prod.mk.inj h
  simp only [digits, List.takeWhile_cons_of_pos hd, List.length_cons]
  omega

end Token.Number

namespace Token.Quotation

variable {quote : Char} {cs : List Char}

/-- A bounded stretch is not longer than up to the first character that does not belong to it. -/
theorem takeWhile_take_append {p : Char → Bool} (hquote : p quote = false) (front tail rest : List Char)
    (k : Nat) : ((front ++ quote :: tail).take k).takeWhile p = ((front ++ quote :: rest).take k).takeWhile p := by
  induction front generalizing k with
  | nil => cases k <;> simp [hquote]
  | cons c front ih =>
    cases k with
    | zero => rfl
    | succ k => simp only [List.cons_append, List.take_succ_cons, List.takeWhile_cons, ih]

/-- An escape does not reach behind the closing mark. -/
theorem escape_append {front : List Char} (hne : front ≠ []) (hhex : Number.isHex quote = false)
    (hoctal : Number.isOctal quote = false) (tail rest : List Char) :
    escape (front ++ quote :: tail) = escape (front ++ quote :: rest) := by
  obtain ⟨c, front, rfl⟩ := List.exists_cons_of_ne_nil hne
  simp only [List.cons_append, escape, takeWhile_take_append hhex front tail rest,
    takeWhile_take_append hoctal front tail rest]

theorem pos_of_escape {b : UInt8} {n : Nat} (h : escape cs = (some b, n)) : 0 < n := by
  unfold escape at h
  split at h
  · cases h
  · split at h
    case h_12 =>
      split at h
      · obtain ⟨-, rfl⟩ := Prod.mk.inj h
        omega
      split at h
      · obtain ⟨-, rfl⟩ := Prod.mk.inj h
        omega
      · cases h
    all_goals
      cases h
      exact Nat.one_pos

/-- What stands between quotation marks is read again, up to the closing mark, in front of everything. -/
theorem exists_front_of_body {start offset n : Nat} {bytes : List UInt8} (hhex : Number.isHex quote = false)
    (hoctal : Number.isOctal quote = false) (h : body quote start offset cs = .ok (bytes, n)) :
    ∃ front tail, cs = front ++ quote :: tail ∧ n = front.length + 1 ∧
      ∀ start offset rest, body quote start offset (front ++ quote :: rest) = .ok (bytes, n) := by
  fun_induction body quote start offset cs generalizing bytes n with
  | case1 => cases h
  | case2 => cases h
  | case3 offset cs hnewline =>
    cases h
    refine ⟨[], cs, rfl, rfl, fun start offset rest => ?_⟩
    rw [List.nil_append, body, if_neg hnewline, if_pos rfl]
  | case4 => cases h
  | case5 => cases h
  | case6 offset cs b m hescape bytes' k hbody hnewline hquote ih =>
    cases h
    obtain ⟨front, tail, hcs, rfl, hread⟩ := ih hbody
    have hm := pos_of_escape hescape
    have hlength : (cs.take m).length = m := by
      have := congrArg List.length hcs
      simp only [List.length_drop, List.length_append, List.length_cons] at this
      rw [List.length_take]
      omega
    have hcs' : cs = (cs.take m ++ front) ++ quote :: tail := by
      rw [List.append_assoc, ← hcs, List.take_append_drop]
    have hne : cs.take m ++ front ≠ [] := by
      intro hnil
      rw [(List.append_eq_nil_iff.mp hnil).1] at hlength
      exact hm.ne hlength
    refine ⟨'\\' :: (cs.take m ++ front), tail, by rw [List.cons_append, ← hcs'], ?_,
      fun start offset rest => ?_⟩
    · rw [List.length_cons, List.length_append, hlength]
      omega
    · have hescape' : escape (cs.take m ++ front ++ quote :: rest) = (some b, m) := by
        rw [← escape_append hne hhex hoctal tail rest, ← hcs', hescape]
      have hdrop : (cs.take m ++ front ++ quote :: rest).drop m = front ++ quote :: rest := by
        rw [List.append_assoc, List.drop_left' hlength]
      rw [List.cons_append, body, if_neg hnewline, if_neg hquote, if_pos rfl, hescape']
      simp only [hdrop, hread]
  | case7 => cases h
  | case8 offset c cs hnewline hquote hslash bytes' k hbody ih =>
    cases h
    obtain ⟨front, tail, rfl, rfl, hread⟩ := ih hbody
    refine ⟨c :: front, tail, rfl, by rw [List.length_cons]; omega, fun start offset rest => ?_⟩
    rw [List.cons_append, body, if_neg hnewline, if_neg hquote, if_neg hslash, hread]

/-- A string that was read is read again from its characters, wherever it begins. -/
theorem read_take {start n : Nat} {s : String} (hhex : Number.isHex quote = false)
    (hoctal : Number.isOctal quote = false) (h : read quote start cs = .ok (s, n)) (offset : Nat)
    (rest : List Char) : read quote offset (cs.take n ++ rest) = .ok (s, (cs.take n).length) := by
  unfold read at h
  split at h
  · cases h
  · next bytes m hbody =>
    split at h
    · next hs =>
      cases h
      obtain ⟨front, tail, rfl, rfl, hread⟩ := exists_front_of_body hhex hoctal hbody
      have htake : (front ++ quote :: tail).take (front.length + 1) = front ++ [quote] := by
        rw [List.take_length_add_append, List.take_succ_cons, List.take_zero]
      rw [htake, List.append_assoc, List.singleton_append, read, hread]
      simp only [hs, List.length_append, List.length_singleton]
    · cases h

end Token.Quotation

theorem Punct.eq_char_of_ofChar? {c : Char} {p : Punct} (h : Punct.ofChar? c = some p) : c = p.char :=
  (beq_iff_eq.mp (List.find?_some (p := fun q => Punct.char q == c) h)).symm

namespace Lexeme

theorem read_fraction {offset : Nat} {d : Char} {ds : List Char} (hd : d.isDigit = true) :
    read offset '.' (d :: ds) =
      .ok (some (Token.Number.readFraction (d :: ds)).1, (Token.Number.readFraction (d :: ds)).2) :=
  if_pos hd

/-- A token that was read stands as one piece in front of what is free, with the same value. -/
theorem stands_of_read {offset n : Nat} {c : Char} {cs rest : List Char} {kind : Token.Kind}
    (h : read offset c cs = .ok (some kind, n)) (hr : Free rest) :
    (Piece.token kind c (cs.take n)).Stands rest := by
  unfold read at h
  split at h
  · cases h
  next hblank =>
  split at h
  · -- a word
    next hstart =>
    cases h
    rw [take_takeWhile]
    exact word_stands ⟨hstart, List.all_eq_true.mp List.all_takeWhile⟩ fun d hd => (hr d hd).1
  next hstart =>
  split at h
  · -- a number
    next hdigit =>
    split at h
    · next hread =>
      cases h
      intro offset
      simp only [read, if_neg hblank, if_neg hstart, if_pos hdigit, Token.Number.read_take hread hr]
    · cases h
  next hdigit =>
  split at h
  · -- a string
    next hquote =>
    split at h
    · next hread =>
      cases h
      intro offset
      have hnumber : Token.Number.isHex c = false ∧ Token.Number.isOctal c = false := by
        rcases hquote with rfl | rfl <;> decide
      simp only [read, if_neg hblank, if_neg hstart, if_neg hdigit, if_pos hquote,
        Token.Quotation.read_take hnumber.1 hnumber.2 hread]
    · cases h
  next hquote =>
  split at h
  · cases h
  · split at h <;> cases h
  · -- a point
    next d ds =>
    split at h
    · next hd =>
      obtain ⟨⟨kind', size⟩, hread⟩ : ∃ x, Token.Number.readFraction (d :: ds) = x := ⟨_, rfl⟩
      rw [hread] at h
      cases h
      obtain ⟨size, rfl⟩ := Nat.exists_eq_succ_of_ne_zero (Token.Number.pos_of_readFraction hd hread).ne'
      have hagain := Token.Number.readFraction_take hread hr
      rw [List.take_succ_cons, List.cons_append] at hagain
      intro offset
      rw [List.take_succ_cons, List.cons_append, read_fraction hd, hagain]
    · cases h
      exact mark_stands (p := .dot) fun _ => Token.Number.not_isDigit_of_free hr
  · split at h
    · next p hp =>
      cases h
      obtain rfl := Punct.eq_char_of_ofChar? hp
      exact mark_stands fun _ => Token.Number.not_isDigit_of_free hr
    · cases h

end Lexeme

end ProtoSchema
