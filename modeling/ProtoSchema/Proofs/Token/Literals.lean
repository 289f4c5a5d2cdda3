import Mathlib.Tactic.Common
import ProtoSchema.Proofs.Token.Pieces
import ProtoSchema.Text.Escaped

/-! # Words, marks and literals as pieces

The written form of a word, a mark, an integer or a string stands as one piece.  A word must not be
followed by a character of a word, and a number neither by that nor by a point (`Free`). -/

namespace ProtoSchema

open Lexeme (isBlank isWordStart isWordPart)

/-- No word or number goes on in the text. -/
def Free (rest : List Char) : Prop :=
  ∀ c, rest.head? = some c → isWordPart c = false ∧ c ≠ '.'

theorem free_nil : Free [] := by
  intro c h
  cases h

theorem free_cons {c : Char} {rest : List Char} :
    Free (c :: rest) ↔ isWordPart c = false ∧ c ≠ '.' := by
  simp [Free]

theorem takeWhile_append_of_head {p : Char → Bool} {cs rest : List Char} (h : ∀ c ∈ cs, p c = true)
    (hr : ∀ c, rest.head? = some c → p c = false) : (cs ++ rest).takeWhile p = cs := by
  rw [List.takeWhile_append_of_pos h]
  cases rest with
  | nil => simp
  | cons d ds => simp [hr d rfl]

/-! ### Words -/

/-- The characters of a word. -/
structure IsWord (c : Char) (cs : List Char) : Prop where
  start : isWordStart c = true
  more : ∀ d ∈ cs, isWordPart d = true

theorem not_isBlank_of_isWordPart {c : Char} (h : isWordPart c = true) : isBlank c = false := by
  by_contra hb
  simp only [isBlank, Bool.not_eq_false, Bool.or_eq_true, beq_iff_eq] at hb
  rcases hb with ((((rfl | rfl) | rfl) | rfl) | rfl) | rfl <;> revert h <;> decide

theorem isWordPart_of_isWordStart {c : Char} (h : isWordStart c = true) : isWordPart c = true := by
  simp only [isWordStart, isWordPart, Char.isAlphanum, Bool.or_eq_true] at h ⊢
  exact h.imp_left .inl

theorem isWordPart_of_isDigit {c : Char} (h : c.isDigit = true) : isWordPart c = true := by
  simp [isWordPart, Char.isAlphanum, h]

theorem isWordStart_of_isDigit {c : Char} (h : c.isDigit = true) : isWordStart c = false := by
  have ha : c.isAlpha = false := by
    show (decide (c.val ≥ 65 ∧ c.val ≤ 90) || (decide (c.val ≥ 97) && decide (c.val ≤ 122))) = false
    simp [Char.isDigit, UInt32.le_iff_toNat_le] at h ⊢
    omega
  have hu : c ≠ '_' := by
    rintro rfl
    revert h
    decide
  simp [isWordStart, ha, hu]

/-- A word, reserved or not. -/
def Piece.word (c : Char) (cs : List Char) : Piece :=
  .token (.ofWord (String.ofList (c :: cs))) c cs

theorem word_stands {c : Char} {cs rest : List Char} (h : IsWord c cs)
    (hr : ∀ d, rest.head? = some d → isWordPart d = false) : (Piece.word c cs).Stands rest := by
  intro offset
  have hb := not_isBlank_of_isWordPart (isWordPart_of_isWordStart h.start)
  simp only [Lexeme.read, hb, h.start, if_true, takeWhile_append_of_head h.more hr]
  rfl

/-! ### Marks -/

/-- A punctuation mark. -/
def Piece.mark (p : Punct) : Piece := .token (.punct p) p.char []

theorem mark_stands {p : Punct} {rest : List Char}
    (hr : p = .dot → ∀ d, rest.head? = some d → d.isDigit = false) : (Piece.mark p).Stands rest := by
  intro offset
  cases p with
  | dot =>
    have hr := hr rfl
    cases rest with
    | nil => rfl
    | cons d ds =>
      show (if d.isDigit then _ else _) = _
      rw [hr d rfl]
      rfl
  | _ => rfl

/-! ### Integers -/

/-- The decimal form of an integer. -/
def Piece.int (n : Nat) : Piece :=
  .token (.int n) ((Nat.toDigits 10 n).headD '0') (Nat.toDigits 10 n).tail

theorem digits_cons (n : Nat) :
    (Nat.toDigits 10 n).headD '0' :: (Nat.toDigits 10 n).tail = Nat.toDigits 10 n := by
  cases h : Nat.toDigits 10 n with
  | nil => exact absurd h Nat.toDigits_ne_nil
  | cons c cs => rfl

theorem isDigit_of_mem_digits {n : Nat} {c : Char} (h : c ∈ Nat.toDigits 10 n) :
    c.isDigit = true :=
  Nat.isDigit_of_mem_toDigits (by decide) (by decide) h

namespace Token.Number

theorem value_eq (ds : List Char) (h : ∀ c ∈ ds, c.isDigit = true) :
    value 10 ds = Nat.ofDigitChars 10 ds 0 := by
  have hfold : ∀ (ds : List Char) (init : Nat), (∀ c ∈ ds, c.isDigit = true) →
      ds.foldl (fun n c => n * 10 + digit c) init = Nat.ofDigitChars 10 ds init := by
    intro ds
    induction ds with
    | nil => exact fun _ _ => rfl
    | cons c cs ih =>
      intro init h
      rw [List.forall_mem_cons] at h
      rw [List.foldl_cons, ih _ h.2, Nat.ofDigitChars_cons, digit, if_pos h.1, Nat.mul_comm]
  exact hfold ds 0 h

/-- The digits of a number denote it. -/
theorem value_digits (n : Nat) : value 10 (Nat.toDigits 10 n) = n := by
  rw [value_eq _ fun c => isDigit_of_mem_digits]
  exact Nat.ofDigitChars_ten_toDigits

/-- Digits in front of a text in which no number goes on. -/
theorem digits_append {ds rest : List Char} (h : ∀ c ∈ ds, c.isDigit = true) (hr : Free rest) :
    digits (ds ++ rest) = ds := by
  refine takeWhile_append_of_head h fun c hc => ?_
  by_contra hd
  rw [Bool.not_eq_false] at hd
  have := (hr c hc).1
  rw [isWordPart_of_isDigit hd] at this
  cases this

theorem exponent_of_free {rest : List Char} (hr : Free rest) : exponent rest = (0, 0) := by
  cases rest with
  | nil => rfl
  | cons c cs =>
    have hc := (free_cons.mp hr).1
    have he : ¬(c = 'e' ∨ c = 'E') := by
      rintro (rfl | rfl) <;> revert hc <;> decide
    simp only [exponent, if_neg he]

/-- Only zero has digits that begin with a zero. -/
theorem eq_zero_of_digits (n : Nat) : ∀ {cs : List Char}, Nat.toDigits 10 n = '0' :: cs → n = 0 := by
  induction n using Nat.strongRecOn with
  | _ n ih =>
    intro cs h
    rw [Nat.toDigits_eq_if (by decide)] at h
    split at h
    · next hn =>
      by_contra h0
      have hdigit : ∀ m < 10, Nat.digitChar m = '0' → m = 0 := by decide
      exact h0 (hdigit n hn (List.cons.inj h).1)
    · next hn =>
      have h10 : n / 10 = 0 := by
        cases hd : Nat.toDigits 10 (n / 10) with
        | nil => exact absurd hd Nat.toDigits_ne_nil
        | cons d ds =>
          rw [hd, List.cons_append] at h
          exact ih (n / 10) (by omega) (hd.trans (by rw [(List.cons.inj h).1]))
      omega

theorem decimalInt_digits {n : Nat} (h : n < intLimit) :
    decimalInt (Nat.toDigits 10 n) = some n := by
  have hvalue := value_digits n
  unfold decimalInt
  split
  · next c rest hd =>
    have h0 := eq_zero_of_digits n hd
    subst h0
    cases hd
  · rw [hvalue]
    exact if_pos h

/-- The digits of a number in front of a text in which no number goes on. -/
theorem read_digits {n : Nat} {c : Char} {cs rest : List Char} (hd : Nat.toDigits 10 n = c :: cs)
    (hn : n < intLimit) (hr : Free rest) : read c (cs ++ rest) = (some (.int n), cs.length) := by
  have hcs : ∀ d ∈ cs, d.isDigit = true := fun d hmem =>
    isDigit_of_mem_digits (hd ▸ List.mem_cons_of_mem c hmem)
  have hx : ∀ d ds, rest = d :: ds → d ≠ '.' ∧ d ≠ 'x' ∧ d ≠ 'X' := by
    rintro d ds rfl
    obtain ⟨hw, hdot⟩ := free_cons.mp hr
    refine ⟨hdot, ?_, ?_⟩
    · rintro rfl
      revert hw
      decide
    · rintro rfl
      revert hw
      decide
  have hint : decimalInt (c :: cs) = some n := hd ▸ decimalInt_digits hn
  simp only [read, digits_append hcs hr, List.drop_left, float, exponent_of_free hr]
  cases rest with
  | nil => simp [hint]
  | cons d ds =>
    obtain ⟨hdot, hx, hX⟩ := hx d ds rfl
    split
    · next h => exact absurd (List.cons.inj h).1 hdot
    · simp [hx, hX, hint]

end Token.Number

theorem int_stands {n : Nat} {rest : List Char} (hn : n < Token.Number.intLimit) (hr : Free rest) :
    (Piece.int n).Stands rest := by
  intro offset
  have hd := digits_cons n
  have hc : ((Nat.toDigits 10 n).headD '0').isDigit = true :=
    isDigit_of_mem_digits (n := n) (hd ▸ List.mem_cons_self ..)
  have hb := not_isBlank_of_isWordPart (isWordPart_of_isDigit hc)
  have hw := isWordStart_of_isDigit hc
  simp only [Lexeme.read, hb, hw, hc, Token.Number.read_digits hd.symm hn hr]
  rfl

/-! ### Strings -/

namespace Token.Quotation

open Escaped

theorem octalDigit_eq (n : Nat) : Number.isOctal (octalDigit n) = true ∧
    Number.digit (octalDigit n) = n % 8 := by
  have h : ∀ m < 8, Number.isOctal (octalDigit m) = true ∧ Number.digit (octalDigit m) = m := by
    decide
  have hmod : octalDigit n = octalDigit (n % 8) := by simp [octalDigit]
  rw [hmod]
  exact h (n % 8) (Nat.mod_lt n (by decide))

/-- Three octal digits behind a backslash. -/
theorem escape_octal {a b c : Char} (ha : Number.isOctal a = true) (hb : Number.isOctal b = true)
    (hc : Number.isOctal c = true) (hlt : Number.value 8 [a, b, c] < 256) (rest : List Char) :
    escape (a :: b :: c :: rest) = (some (UInt8.ofNat (Number.value 8 [a, b, c])), 3) := by
  have hx : ¬(a = 'x' ∨ a = 'X') := by
    rintro (rfl | rfl) <;> revert ha <;> decide
  rw [escape.eq_def]
  dsimp only
  split
  case h_12 =>
    simp only [if_neg hx, ha, if_true, List.take_succ_cons, List.take_zero, List.takeWhile_cons, hb,
      hc, List.takeWhile_nil, hlt]
    rfl
  all_goals exact absurd ha (by decide)

theorem ascii_printable : ∀ n : Fin 256, 0x20 ≤ n.val ∧ n.val ≤ 0x7e →
    String.utf8EncodeChar (Char.ofNat n) = [UInt8.ofNat n] ∧
      (Char.ofNat n = '\n' ∨ Char.ofNat n = '"' ∨ Char.ofNat n = '\\' →
        n.val = 0x0a ∨ n.val = 0x22 ∨ n.val = 0x5c) := by
  decide +kernel

/-- A byte is written as an ASCII character of its own or as an escape. -/
theorem encodeByte_cases (b : UInt8) :
    (∃ c, encodeByte b = [c] ∧ c ≠ '\n' ∧ c ≠ '"' ∧ c ≠ '\\' ∧ String.utf8EncodeChar c = [b]) ∨
      ∃ cs, encodeByte b = '\\' :: cs ∧ ∀ rest, escape (cs ++ rest) = (some b, cs.length) := by
  unfold encodeByte
  split
  · next h => exact .inr ⟨['t'], rfl, fun rest => h ▸ rfl⟩
  split
  · next h => exact .inr ⟨['r'], rfl, fun rest => h ▸ rfl⟩
  split
  · next h => exact .inr ⟨['n'], rfl, fun rest => h ▸ rfl⟩
  split
  · next h => exact .inr ⟨['\\'], rfl, fun rest => h ▸ rfl⟩
  split
  · next h => exact .inr ⟨['\''], rfl, fun rest => h ▸ rfl⟩
  split
  · next h => exact .inr ⟨['"'], rfl, fun rest => h ▸ rfl⟩
  split
  · next hn hs _ hq h =>
    rw [UInt8.le_iff_toNat_le, UInt8.le_iff_toNat_le] at h
    obtain ⟨hu, hne⟩ := ascii_printable ⟨b.toNat, b.toNat_lt⟩ h
    rw [UInt8.ofNat_toNat] at hu
    have hnot : ¬(b.toNat = 0x0a ∨ b.toNat = 0x22 ∨ b.toNat = 0x5c) := by
      rintro (h | h | h)
      · exact hn (UInt8.toNat_inj.mp h)
      · exact hq (UInt8.toNat_inj.mp h)
      · exact hs (UInt8.toNat_inj.mp h)
    exact .inl ⟨_, rfl, fun h => hnot (hne (.inl h)), fun h => hnot (hne (.inr (.inl h))),
      fun h => hnot (hne (.inr (.inr h))), hu⟩
  · next h =>
    have hb := b.toNat_lt
    have hvalue : Number.value 8 [octalDigit (b.toNat / 64), octalDigit (b.toNat / 8),
        octalDigit b.toNat] = b.toNat := by
      simp only [Number.value, List.foldl_cons, List.foldl_nil, (octalDigit_eq _).2]
      omega
    refine .inr ⟨_, rfl, fun rest => ?_⟩
    refine (escape_octal (octalDigit_eq _).1 (octalDigit_eq _).1 (octalDigit_eq _).1
      (by rw [hvalue]; exact hb) rest).trans ?_
    rw [hvalue, UInt8.ofNat_toNat]
    rfl

/-- Bytes that are written for a string literal are read back. -/
theorem body_encode (bytes : List UInt8) (rest : List Char) (start : Nat) : ∀ offset,
    body '"' start offset (encode bytes ++ '"' :: rest) = .ok (bytes, (encode bytes).length + 1) := by
  induction bytes with
  | nil =>
    intro offset
    rw [show encode [] = [] from rfl, List.nil_append, body]
    rfl
  | cons b bytes ih =>
    intro offset
    have hcons : encode (b :: bytes) = encodeByte b ++ encode bytes := rfl
    rw [hcons, List.append_assoc]
    rcases encodeByte_cases b with ⟨c, hb, hn, hq, hs, hu⟩ | ⟨cs, hb, he⟩
    · rw [hb, List.singleton_append, body, if_neg hn, if_neg hq, if_neg hs, ih, hu]
      simp [Nat.add_comm]
    · rw [hb, List.cons_append, body, if_neg (by decide), if_neg (by decide), if_pos rfl, he]
      simp only [List.drop_left, ih]
      simp [Nat.add_assoc, Nat.add_comm, Nat.add_left_comm]

theorem toList_eq (bs : ByteArray) : bs.toList = bs.data.toList := by
  have hloop : ∀ (bs : ByteArray) (i : Nat) (r : List UInt8),
      ByteArray.toList.loop bs i r = r.reverse ++ bs.data.toList.drop i := by
    intro bs i r
    fun_induction ByteArray.toList.loop bs i r with
    | case1 i r h ih =>
      have hi : i < bs.data.toList.length := by simpa using h
      rw [ih, List.reverse_cons, List.append_assoc, List.singleton_append,
        List.drop_eq_getElem_cons hi]
      congr 2
      exact getElem!_pos bs.data i (by simpa using hi)
    | case2 i r h =>
      rw [List.drop_of_length_le, List.append_nil]
      simpa using h
  exact hloop bs 0 []

theorem fromUTF8?_toUTF8 (s : String) :
    String.fromUTF8? s.toUTF8.toList.toByteArray = some s := by
  have hs : s.toUTF8.toList.toByteArray = s.toByteArray := by
    apply ByteArray.ext
    rw [List.data_toByteArray, toList_eq]
    simp
  rw [hs, String.fromUTF8?, dif_pos s.isValidUTF8]
  rfl

/-- A text between quotation marks is read back. -/
theorem read_encode (s : String) (rest : List Char) (start : Nat) :
    read '"' start (encode s.toUTF8.toList ++ '"' :: rest) =
      .ok (s, (encode s.toUTF8.toList).length + 1) := by
  simp only [read, body_encode, fromUTF8?_toUTF8]

end Token.Quotation

/-- A text between quotation marks. -/
def Piece.string (s : String) : Piece :=
  .token (.string s) '"' (Escaped.encode s.toUTF8.toList ++ ['"'])

theorem string_stands (s : String) (rest : List Char) : (Piece.string s).Stands rest := by
  intro offset
  rw [List.append_assoc, List.singleton_append]
  have hread := Token.Quotation.read_encode s rest offset
  simp only [Lexeme.read, show isBlank '"' = false from rfl, show isWordStart '"' = false from rfl,
    show ('"' : Char).isDigit = false from rfl, hread]
  simp

end ProtoSchema
