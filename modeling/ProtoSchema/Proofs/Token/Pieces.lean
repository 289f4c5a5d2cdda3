import Mathlib.Tactic.Common
import ProtoSchema.Token.Lexer

/-! # Texts in pieces

A text that is put together from blanks and tokens scans to these tokens if every piece ends where
it is meant to end (`ofText_written`).  Where a piece ends depends on the text behind it: a word or
a number goes on as long as it can, so `Stand` asks of each piece that it is read as a whole in
front of what follows. -/

namespace ProtoSchema

/-- A token without its place. -/
abbrev Token.Shape := Token.Kind × String

def Token.shape (t : Token) : Token.Shape := (t.kind, t.text)

/-- A blank, or a token with its first character and the others. -/
inductive Piece where
  | blank (c : Char)
  | token (kind : Token.Kind) (first : Char) (more : List Char)

namespace Piece

def chars : Piece → List Char
  | blank c => [c]
  | token _ c cs => c :: cs

def shape? : Piece → Option Token.Shape
  | blank _ => none
  | token kind c cs => some (kind, String.ofList (c :: cs))

/-- The text of some pieces. -/
def written (ps : List Piece) : List Char := ps.flatMap chars

/-- The tokens among some pieces. -/
def shapes (ps : List Piece) : List Token.Shape := ps.filterMap shape?

/-- The piece is read as a whole in front of the text `rest`. -/
def Stands (rest : List Char) : Piece → Prop
  | blank c => Lexeme.isBlank c = true
  | token kind c cs => ∀ offset, Lexeme.read offset c (cs ++ rest) = .ok (some kind, cs.length)

/-- Each of the pieces is read as a whole in front of the others and the text `rest`. -/
def Stand (rest : List Char) : List Piece → Prop
  | [] => True
  | p :: ps => p.Stands (written ps ++ rest) ∧ Stand rest ps

variable {ps qs : List Piece} {rest : List Char}

@[simp] theorem written_nil : written [] = [] := rfl

@[simp] theorem written_cons (p : Piece) (ps : List Piece) :
    written (p :: ps) = p.chars ++ written ps := rfl

@[simp] theorem written_append (ps qs : List Piece) :
    written (ps ++ qs) = written ps ++ written qs :=
  List.flatMap_append

@[simp] theorem shapes_append (ps qs : List Piece) : shapes (ps ++ qs) = shapes ps ++ shapes qs :=
  List.filterMap_append

@[simp] theorem shapes_nil : shapes [] = [] := rfl

@[simp] theorem shapes_blank (c : Char) (ps : List Piece) : shapes (blank c :: ps) = shapes ps := rfl

@[simp] theorem shapes_token (kind : Token.Kind) (c : Char) (cs : List Char) (ps : List Piece) :
    shapes (token kind c cs :: ps) = (kind, String.ofList (c :: cs)) :: shapes ps := rfl

@[simp] theorem stand_nil : Stand rest [] := trivial

@[simp] theorem stand_append : Stand rest (ps ++ qs) ↔ Stand (written qs ++ rest) ps ∧ Stand rest qs := by
  induction ps with
  | nil => simp
  | cons p ps ih => simp [Stand, ih, and_assoc]

end Piece

namespace Scan

open Piece

variable {lines : LineIndex}

theorem ofChars_skip {offset n : Nat} {c : Char} {cs : List Char}
    (h : Lexeme.read offset c cs = .ok (none, n)) :
    ofChars lines offset (c :: cs) = ofChars lines (offset + byteSize (c :: cs.take n)) (cs.drop n) := by
  conv_lhs => unfold ofChars
  rw [h]

/-- A blank in front of a text leaves no token. -/
theorem ofChars_blank {c : Char} (hc : Lexeme.isBlank c = true) (cs : List Char) (offset : Nat) :
    ofChars lines offset (c :: cs) = ofChars lines (offset + c.utf8Size) cs := by
  have hread : ∀ {c cs offset}, Lexeme.isBlank c = true →
      Lexeme.read offset c cs = .ok (none, (cs.takeWhile Lexeme.isBlank).length) := by
    intro c cs offset hc
    unfold Lexeme.read
    rw [if_pos hc]
  rw [ofChars_skip (hread hc)]
  cases cs with
  | nil => simp
  | cons d ds =>
    by_cases hd : Lexeme.isBlank d = true
    · -- the stretch of blanks goes on
      rw [ofChars_skip (hread hd)]
      simp [hd, Nat.add_assoc]
    · simp [hd]

/-- A token in front of a text. -/
theorem ofChars_token {kind : Token.Kind} {c : Char} {cs rest : List Char}
    (h : (Piece.token kind c cs).Stands rest) (offset : Nat) :
    ofChars lines offset (c :: (cs ++ rest)) =
      let stop := offset + byteSize (c :: cs)
      { ofChars lines stop rest with
        tokens := ⟨kind, String.ofList (c :: cs), ⟨offset, stop⟩, lines.position offset⟩ ::
          (ofChars lines stop rest).tokens } := by
  conv_lhs => unfold ofChars
  rw [h offset]
  simp

/-- A text that is put together from pieces that stand scans to the tokens among them. -/
theorem ofChars_written (ps : List Piece) : ∀ offset, Stand [] ps →
    (ofChars lines offset (written ps)).tokens.map Token.shape = shapes ps ∧
      ∃ stop, (ofChars lines offset (written ps)).ending = .endOfText stop := by
  induction ps with
  | nil =>
    intro offset _
    unfold ofChars
    exact ⟨rfl, offset, rfl⟩
  | cons p ps ih =>
    rintro offset ⟨hp, hps⟩
    cases p with
    | blank c =>
      rw [written_cons, chars, List.singleton_append, ofChars_blank hp]
      exact ih _ hps
    | token kind c cs =>
      obtain ⟨htokens, stop, hending⟩ := ih (offset + byteSize (c :: cs)) hps
      rw [List.append_nil] at hp
      rw [written_cons, chars, List.cons_append, ofChars_token hp]
      refine ⟨?_, stop, hending⟩
      rw [List.map_cons, htokens]
      rfl

theorem ofText_written {ps : List Piece} {source : String} (hs : source.toList = written ps)
    (h : Stand [] ps) : (ofText source).tokens.map Token.shape = shapes ps ∧
      ∃ stop, (ofText source).ending = .endOfText stop := by
  rw [ofText, hs]
  exact ofChars_written ps 0 h

end Scan

end ProtoSchema
