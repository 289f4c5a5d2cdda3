import ProtoSchema.Proofs.Event.Progress
import ProtoSchema.Proofs.Token.Texts

/-! # The tokens of a text

Whatever a text is, its tokens can be written again: a word is made of letters, digits and underscores,
an identifier is none of the reserved words, an integer has 64 bits and a floating-point number is
rounded (`legible_ofText`). -/

namespace ProtoSchema

open Token.Number (intLimit)

/-- What is so of a token whatever text it is read off. -/
structure Token.Legible (t : Token) : Prop where
  word : t.kind.isWord = true → IsName t.text
  ident : t.kind = .ident → IsIdent t.text
  int : ∀ n, t.kind = .int n → n < intLimit
  float : ∀ x, t.kind = .float x → x.Proper

/-- A token that is no word and no number. -/
theorem Token.legible_of_kind {t : Token} (hword : t.kind.isWord = false)
    (hint : ∀ n, t.kind ≠ .int n) (hfloat : ∀ x, t.kind ≠ .float x) : t.Legible where
  word h := absurd (hword.symm.trans h) (by decide)
  ident h := by rw [h] at hword; exact absurd hword (by decide)
  int n h := absurd h (hint n)
  float x h := absurd h (hfloat x)

theorem Token.Kind.isWord_ofWord (w : String) : (Token.Kind.ofWord w).isWord = true := by
  unfold Token.Kind.ofWord
  split
  · rfl
  · split
    · rfl
    · split
      · rfl
      · split <;> rfl

namespace Token.Number

theorem lt_of_decimalInt {ds : List Char} {n : ℕ} (h : decimalInt ds = some n) : n < intLimit := by
  have hbounded : ∀ m, (if m < intLimit then some m else none) = some n → n < intLimit := by
    intro m hm
    split at hm
    · next hlt =>
      cases hm
      exact hlt
    · cases hm
  unfold decimalInt at h
  split at h
  · split at h
    · cases h
      decide
    · split at h
      · exact hbounded _ h
      · cases h
  · exact hbounded _ h

theorem proper_float (whole fraction rest : List Char) : (float whole fraction rest).1.Proper :=
  Binary64.proper_ofDecimal _ _

/-- A number is an integer of 64 bits or is rounded. -/
def InLimits : Token.Kind → Prop
  | .int n => n < intLimit
  | .float x => x.Proper
  | _ => False

theorem read_inLimits {c : Char} {cs : List Char} {kind : Token.Kind} {n : ℕ}
    (h : read c cs = (some kind, n)) : InLimits kind := by
  -- an integer with some hexadecimal digits or none
  have hint : ∀ hex : List Char, (if hex = [] then
        ((decimalInt (c :: digits cs)).map Token.Kind.int, (digits cs).length)
      else (if value 16 hex < intLimit then some (.int (value 16 hex)) else none, 1 + hex.length)) =
        (some kind, n) → InLimits kind := by
    intro hex h
    split at h
    · obtain ⟨m, hm, rfl⟩ := Option.map_eq_some_iff.mp (Prod.mk.inj h).1
      exact lt_of_decimalInt hm
    · obtain ⟨hkind, -⟩ := Prod.mk.inj h
      split at hkind
      · next hlt =>
        cases hkind
        exact hlt
      · cases hkind
  simp only [read] at h
  split at h
  · cases h
    exact proper_float _ _ _
  · split at h
    · cases h
      exact proper_float _ _ _
    · exact hint _ h

theorem InLimits.legible {t : Token} (h : InLimits t.kind) : t.Legible := by
  generalize hk : t.kind = kind at h
  cases kind with
  | int n =>
    refine ⟨fun hw => ?_, fun hi => ?_, fun m hm => ?_, fun x hx => ?_⟩
    · rw [hk] at hw
      cases hw
    · cases hk.symm.trans hi
    · cases hk.symm.trans hm
      exact h
    · cases hk.symm.trans hx
  | float x =>
    refine ⟨fun hw => ?_, fun hi => ?_, fun m hm => ?_, fun y hy => ?_⟩
    · rw [hk] at hw
      cases hw
    · cases hk.symm.trans hi
    · cases hk.symm.trans hm
    · cases hk.symm.trans hy
      exact h
  | _ => exact h.elim

end Token.Number

namespace Lexeme

theorem take_takeWhile (p : Char → Bool) (cs : List Char) :
    cs.take (cs.takeWhile p).length = cs.takeWhile p :=
  (List.prefix_iff_eq_take.mp (List.takeWhile_prefix p)).symm

/-- A word is legible, reserved or not. -/
theorem legible_word {c : Char} {cs : List Char} (hc : isWordStart c = true) (span : Span)
    (position : Position) :
    Token.Legible ⟨.ofWord (String.ofList (c :: cs.takeWhile isWordPart)),
      String.ofList (c :: cs.takeWhile isWordPart), span, position⟩ := by
  have hname : IsName (String.ofList (c :: cs.takeWhile isWordPart)) :=
    ⟨c, cs.takeWhile isWordPart, String.toList_ofList, hc, fun d hd => List.all_eq_true.mp (List.all_takeWhile ..) d hd⟩
  have hnumber : ∀ w, (∀ n, Token.Kind.ofWord w ≠ .int n) ∧ ∀ x, Token.Kind.ofWord w ≠ .float x := by
    refine fun w => ⟨fun n h => ?_, fun x h => ?_⟩
    · have := Token.Kind.isWord_ofWord w
      rw [h] at this
      cases this
    · have := Token.Kind.isWord_ofWord w
      rw [h] at this
      cases this
  exact ⟨fun _ => hname, fun h => ⟨hname, h⟩, fun n h => absurd h ((hnumber _).1 n),
    fun x h => absurd h ((hnumber _).2 x)⟩

/-- Every token that is read is legible. -/
theorem read_legible {offset n : ℕ} {c : Char} {cs : List Char} {kind : Token.Kind}
    (h : read offset c cs = .ok (some kind, n)) (span : Span) (position : Position) :
    Token.Legible ⟨kind, String.ofList (c :: cs.take n), span, position⟩ := by
  unfold read at h
  split at h
  · cases h
  split at h
  · next hc =>
    cases h
    rw [take_takeWhile]
    exact legible_word hc span position
  split at h
  · split at h
    · next hr =>
      cases h
      exact (Token.Number.read_inLimits hr).legible
    · cases h
  split at h
  · split at h
    · cases h
      exact Token.legible_of_kind rfl (by simp) (by simp)
    · cases h
  split at h
  · cases h
  · split at h <;> cases h
  · split at h
    · cases h
      exact Token.Number.InLimits.legible (Token.Number.proper_float _ _ _)
    · cases h
      exact Token.legible_of_kind rfl (by simp) (by simp)
  · split at h
    · cases h
      exact Token.legible_of_kind rfl (by simp) (by simp)
    · cases h

end Lexeme

namespace Scan

theorem legible_ofChars (lines : LineIndex) (offset : ℕ) (cs : List Char) :
    ∀ t ∈ (ofChars lines offset cs).tokens, t.Legible := by
  obtain ⟨ps, h⟩ := exists_takes lines offset cs
  generalize ofChars lines offset cs = scan at h
  induction h with
  | stop | fault => exact List.forall_mem_nil _
  | skip read more ih => exact ih
  | token read more ih => exact List.forall_mem_cons.mpr ⟨Lexeme.read_legible read _ _, ih⟩

/-- All tokens of a text are legible. -/
theorem legible_ofText (source : String) : ∀ t ∈ (ofText source).tokens, t.Legible :=
  legible_ofChars _ 0 source.toList

end Scan

end ProtoSchema
