import ProtoSchema.Event.OfTokens
import ProtoSchema.Proofs.Token.Floats

/-! # Texts of declarations as tokens

`Lexes F s shapes` says that the text `s` scans to tokens of these shapes wherever a text with `F`
follows.  Names, constants, options and ranges lex to the tokens that their `shapes` list, if they
are legible: an identifier must be a word that is not reserved, and an integer must have 64 bits. -/

namespace ProtoSchema

open Lexeme (isBlank isWordStart isWordPart)
open Piece (written Stand)

/-! ### Shapes -/

namespace Token.Shape

def word (w : String) : Token.Shape := (.ofWord w, w)

def mark (p : Punct) : Token.Shape := (.punct p, p.text)

def int (n : ℕ) : Token.Shape := (.int n, toString n)

def string (s : String) : Token.Shape := (.string s, Escaped.quote s)

/-- Runs of tokens with a mark between them. -/
def joined (m : Punct) : List (List Token.Shape) → List Token.Shape
  | [] => []
  | ss :: more => ss ++ more.flatMap (mark m :: ·)

end Token.Shape

open Token.Shape (word mark int string joined)

/-! ### Texts that scan to tokens -/

/-- The text `s` scans to tokens of the shapes `shapes` in front of every text with `F`. -/
def Lexes (F : List Char → Prop) (s : String) (shapes : List Token.Shape) : Prop :=
  ∃ ps, written ps = s.toList ∧ Piece.shapes ps = shapes ∧ ∀ rest, F rest → Stand rest ps

/-- Any text. -/
def Anything (_ : List Char) : Prop := True

/-- No word goes on in the text. -/
def NoWord (rest : List Char) : Prop := ∀ c, rest.head? = some c → isWordPart c = false

/-- The text does not begin with a digit. -/
def NoDigit (rest : List Char) : Prop := ∀ c, rest.head? = some c → c.isDigit = false

theorem Free.noWord {rest : List Char} (h : Free rest) : NoWord rest := fun c hc => (h c hc).1

theorem free_append {cs rest : List Char} (h : Free cs) (hr : Free rest) : Free (cs ++ rest) := by
  cases cs with
  | nil => exact hr
  | cons c cs => exact free_cons.mpr (free_cons.mp h)

/-- What begins with a closed text is tested by its first character. -/
theorem free_text {s : String} (h : s.toList.head?.any (fun c => !isWordPart c && c != '.') = true)
    (t : String) : Free (s ++ t).toList := by
  rw [String.toList_append]
  cases hs : s.toList with
  | nil => simp [hs] at h
  | cons c cs =>
    rw [hs, List.head?_cons, Option.any_some, Bool.and_eq_true, Bool.not_eq_true', bne_iff_ne] at h
    exact free_cons.mpr h

variable {F G : List Char → Prop} {s t : String} {ss ts : List Token.Shape}

theorem Lexes.mono (h : Lexes G s ss) (hfg : ∀ rest, F rest → G rest) : Lexes F s ss := by
  obtain ⟨ps, hw, hs, hstand⟩ := h
  exact ⟨ps, hw, hs, fun rest hr => hstand rest (hfg rest hr)⟩

theorem lexes_empty : Lexes F "" [] := ⟨[], rfl, rfl, fun _ _ => trivial⟩

/-- Texts one behind the other. -/
theorem Lexes.append (hs : Lexes F s ss) (ht : Lexes G t ts)
    (h : ∀ rest, G rest → F (t.toList ++ rest)) : Lexes G (s ++ t) (ss ++ ts) := by
  obtain ⟨ps, hps, hss, hstand⟩ := hs
  obtain ⟨qs, hqs, hts, hstand'⟩ := ht
  refine ⟨ps ++ qs, ?_, ?_, fun rest hr => ?_⟩
  · rw [Piece.written_append, hps, hqs, String.toList_append]
  · rw [Piece.shapes_append, hss, hts]
  · rw [Piece.stand_append, hqs]
    exact ⟨hstand _ (h rest hr), hstand' rest hr⟩

theorem Lexes.append_any (hs : Lexes Anything s ss) (ht : Lexes G t ts) :
    Lexes G (s ++ t) (ss ++ ts) :=
  hs.append ht fun _ _ => trivial

/-- A text that ends where a word may end, in front of one that does not go on with it. -/
theorem Lexes.append_free (hs : Lexes Free s ss) (ht : Lexes Free t ts) (h : Free t.toList) :
    Lexes Free (s ++ t) (ss ++ ts) :=
  hs.append ht fun _ hr => free_append h hr

theorem exists_intercalate_cons (sep x : String) (xs : List String) :
    ∃ more, sep.intercalate (x :: xs) = x ++ more := by
  cases xs with
  | nil => exact ⟨"", by simp⟩
  | cons y ys => exact ⟨sep ++ sep.intercalate (y :: ys), by simp [String.append_assoc]⟩

/-- Texts with separators between them. -/
theorem lexes_intercalate {α : Type} {sep : String} {m : Punct} {text : α → String}
    {shapes : α → List Token.Shape} {xs : List α} (hx : ∀ x ∈ xs, Lexes F (text x) (shapes x))
    (hsep : Lexes G sep [mark m]) (hF : ∀ rest, F (sep.toList ++ rest))
    (hG : ∀ x ∈ xs, ∀ rest, G ((text x).toList ++ rest)) :
    Lexes F (sep.intercalate (xs.map text)) (joined m (xs.map shapes)) := by
  induction xs with
  | nil => exact lexes_empty
  | cons x xs ih =>
    have hx' := hx x (List.mem_cons_self ..)
    cases xs with
    | nil => simpa [joined] using hx'
    | cons y ys =>
      have ih := ih (fun z hz => hx z (List.mem_cons_of_mem _ hz))
        fun z hz => hG z (List.mem_cons_of_mem _ hz)
      have htext : (sep.intercalate ((x :: y :: ys).map text)) =
          text x ++ (sep ++ sep.intercalate ((y :: ys).map text)) := by
        simp [String.append_assoc]
      have hshapes : joined m ((x :: y :: ys).map shapes) =
          shapes x ++ ([mark m] ++ joined m ((y :: ys).map shapes)) := by
        simp [joined]
      rw [htext, hshapes]
      refine hx'.append (hsep.append ih ?_) ?_
      · intro rest _
        have hhead := hG y (List.mem_cons_of_mem _ (List.mem_cons_self ..))
        obtain ⟨more, hmore⟩ := exists_intercalate_cons sep (text y) (ys.map text)
        rw [List.map_cons, hmore, String.toList_append, List.append_assoc]
        exact hhead _
      · intro rest _
        rw [String.toList_append, List.append_assoc]
        exact hF _

/-! ### Words, marks and blanks -/

/-- A text is one word. -/
def IsName (w : String) : Prop := ∃ c cs, w.toList = c :: cs ∧ IsWord c cs

/-- A word that is not reserved. -/
structure IsIdent (w : String) : Prop where
  word : IsName w
  kind : Token.Kind.ofWord w = .ident

theorem lexes_word {w : String} (h : IsName w) : Lexes NoWord w [word w] := by
  obtain ⟨c, cs, hw, h⟩ := h
  have hs : String.ofList (c :: cs) = w := by rw [← hw, String.ofList_toList]
  refine ⟨[Piece.word c cs], ?_, ?_, fun rest hr => ⟨word_stands h hr, trivial⟩⟩
  · simp [Piece.word, Piece.chars, hw]
  · simp [Piece.word, hs, word]

theorem lexes_mark {p : Punct} (h : p ≠ .dot) : Lexes F p.text [mark p] :=
  ⟨[Piece.mark p], by simp [Piece.mark, Piece.chars, Punct.text], rfl,
    fun _ _ => ⟨mark_stands fun hp => absurd hp h, trivial⟩⟩

theorem lexes_dot : Lexes NoDigit "." [mark .dot] :=
  ⟨[Piece.mark .dot], rfl, rfl, fun _ hr => ⟨mark_stands fun _ => hr, trivial⟩⟩

theorem lexes_blank {c : Char} (h : isBlank c = true) : Lexes F (String.ofList [c]) [] :=
  ⟨[.blank c], by simp [Piece.chars], rfl, fun _ _ => ⟨h, trivial⟩⟩

theorem lexes_space : Lexes F " " [] := lexes_blank rfl

theorem lexes_newline : Lexes F "\n" [] := lexes_blank rfl

/-- A word with a blank behind it. -/
theorem lexes_word_blank {w : String} (h : IsName w) : Lexes F (w ++ " ") [word w] :=
  (lexes_word h).append lexes_space fun _ _ c hc => by cases hc; rfl

theorem lexes_comma : Lexes F ", " [mark .comma] :=
  (lexes_mark (p := .comma) (by decide)).append_any lexes_space

theorem lexes_int {n : ℕ} (h : n < Token.Number.intLimit) : Lexes Free (toString n) [int n] := by
  have hchars : (Piece.int n).chars = Nat.toDigits 10 n := digits_cons n
  refine ⟨[Piece.int n], ?_, ?_, fun rest hr => ⟨int_stands h hr, trivial⟩⟩
  · simp [hchars]
  · show [(Token.Kind.int n, String.ofList _)] = _
    rw [digits_cons]
    rfl

theorem lexes_string (s : String) : Lexes F (Escaped.quote s) [string s] :=
  ⟨[Piece.string s], by simp [Piece.string, Piece.chars, Escaped.quote], rfl,
    fun _ _ => ⟨string_stands s _, trivial⟩⟩

/-! ### Names -/

theorem NoWord.cons {c : Char} {rest : List Char} (h : isWordPart c = false) : NoWord (c :: rest) :=
  fun d hd => by cases hd; exact h

theorem IsName.noDigit {w : String} (h : IsName w) (rest : List Char) : NoDigit (w.toList ++ rest) := by
  obtain ⟨c, cs, hw, h⟩ := h
  intro d hd
  rw [hw] at hd
  cases hd
  by_contra hdigit
  rw [Bool.not_eq_false] at hdigit
  have hstart := h.start
  rw [isWordStart_of_isDigit hdigit] at hstart
  cases hstart

/-- The segments of a name can be read: there is one, and they are identifiers. -/
structure DottedName.Legible (name : DottedName) : Prop where
  ne_nil : name ≠ []
  ident : ∀ w ∈ name, IsIdent w

def DottedName.shapes (name : DottedName) : List Token.Shape := joined .dot (name.map fun w => [word w])

theorem lexes_words {ws : List String} (h : ∀ w ∈ ws, IsName w) :
    Lexes NoWord (".".intercalate ws) (joined .dot (ws.map fun w => [word w])) := by
  have hword : ∀ w ∈ ws, Lexes NoWord (id w) [word w] := fun w hw => lexes_word (h w hw)
  have hlexes := lexes_intercalate hword lexes_dot (fun _ => NoWord.cons rfl) fun w hw rest =>
    (h w hw).noDigit rest
  rwa [List.map_id] at hlexes

theorem lexes_dottedName {name : DottedName} (h : name.Legible) : Lexes NoWord name.text name.shapes :=
  lexes_words fun w hw => (h.ident w hw).word

theorem DottedName.Legible.noDigit {name : DottedName} (h : name.Legible) (rest : List Char) :
    NoDigit (name.text.toList ++ rest) := by
  obtain ⟨w, ws, rfl⟩ := List.exists_cons_of_ne_nil h.ne_nil
  obtain ⟨more, hmore⟩ := exists_intercalate_cons "." w ws
  rw [DottedName.text, hmore, String.toList_append, List.append_assoc]
  exact (h.ident w (List.mem_cons_self ..)).word.noDigit _

def TypeName.shapes (name : TypeName) : List Token.Shape :=
  (if name.absolute then [mark .dot] else []) ++ name.segments.shapes

theorem lexes_typeName {name : TypeName} (h : name.segments.Legible) :
    Lexes NoWord name.text name.shapes := by
  unfold TypeName.text TypeName.shapes
  split
  · exact lexes_dot.append (lexes_dottedName h) fun rest _ => h.noDigit rest
  · exact lexes_dottedName h

/-! ### Constants and options -/

def Binary64.shapes : Binary64 → List Token.Shape
  | nan => [word "nan"]
  | infinite s => (if s then [mark .minus] else []) ++ [word "inf"]
  | finite s m q => (if s then [mark .minus] else []) ++
      [(.float (.finite false m q), (finite false m q).text)]

/-- Closed words are tested one character after the other. -/
theorem isName_of_all {w : String} (h : (w.toList.head?.any isWordStart && w.toList.all isWordPart) = true) :
    IsName w := by
  cases hw : w.toList with
  | nil => simp [hw] at h
  | cons c cs =>
    simp only [hw, List.head?_cons, Option.any_some, List.all_cons, Bool.and_eq_true,
      List.all_eq_true] at h
    exact ⟨c, cs, hw, h.1, h.2.2⟩

theorem lexes_float {m : ℕ} {q : ℤ} (h : Binary64.ProperFinite m q) :
    Lexes Free (Binary64.finite false m q).text
      [(.float (.finite false m q), (Binary64.finite false m q).text)] := by
  have hchars := float_chars h
  refine ⟨[Piece.float m q], by simp [hchars], ?_, fun rest hr => ⟨float_stands h hr, trivial⟩⟩
  show [(Token.Kind.float _, String.ofList (Piece.float m q).chars)] = _
  rw [hchars, String.ofList_toList]

/-- A text behind a sign or alone. -/
theorem Lexes.signed (h : Lexes F s ss) (negative : Bool) :
    Lexes F ((if negative then "-" else "") ++ s) ((if negative then [mark .minus] else []) ++ ss) := by
  cases negative with
  | false => exact (lexes_empty (F := Anything)).append_any h
  | true => exact (lexes_mark (p := .minus) (by decide)).append_any h

theorem lexes_binary64 {x : Binary64} (h : x.Proper) : Lexes Free x.text x.shapes := by
  cases x with
  | nan => exact (lexes_word (isName_of_all (by decide))).mono fun _ => Free.noWord
  | infinite s =>
    have hinf : Lexes Free "inf" [word "inf"] :=
      (lexes_word (isName_of_all (by decide))).mono fun _ => Free.noWord
    have := hinf.signed s
    cases s <;> exact this
  | finite s m q =>
    have htext : (Binary64.finite s m q).text = (if s then "-" else "") ++
        (Binary64.finite false m q).text := by
      cases s with
      | false => simp
      | true =>
        rw [← String.toList_inj]
        simp [Binary64.text]
    rw [htext]
    exact (lexes_float h).signed s

namespace Constant

def shapes : Constant → List Token.Shape
  | ident name => name.shapes
  | int negative magnitude => (if negative then [mark .minus] else []) ++ [.int magnitude]
  | float x => x.shapes
  | string s => [.string s]
  | bool b => [word (if b then "true" else "false")]

/-- The constant can be read: its names and numbers are in the form in which they are read. -/
def Legible : Constant → Prop
  | ident name => name.Legible
  | int _ magnitude => magnitude < Token.Number.intLimit
  | float x => x.Proper
  | string _ | bool _ => True

end Constant

theorem lexes_constant {v : Constant} (h : v.Legible) : Lexes Free v.text v.shapes := by
  cases v with
  | ident name => exact (lexes_dottedName h).mono fun _ => Free.noWord
  | int negative magnitude => exact (lexes_int h).signed negative
  | float x => exact lexes_binary64 h
  | string s => exact lexes_string s
  | bool b =>
    refine (lexes_word ?_).mono fun _ => Free.noWord
    cases b <;> exact isName_of_all (by decide)

/-- The first part of the name of an option can be read; any word may stand there. -/
def OptionRoot.Legible : OptionRoot → Prop
  | .word w => IsName w
  | .extension type => type.segments.Legible

def OptionRoot.shapes : OptionRoot → List Token.Shape
  | .word w => [Token.Shape.word w]
  | .extension type => [mark .leftParen] ++ (type.shapes ++ [mark .rightParen])

structure OptionName.Legible (name : OptionName) : Prop where
  root : name.root.Legible
  parts : ∀ w ∈ name.parts, IsName w

def OptionName.shapes (name : OptionName) : List Token.Shape :=
  name.root.shapes ++ name.parts.flatMap fun w => [mark .dot, word w]

theorem lexes_optionName {name : OptionName} (h : name.Legible) : Lexes NoWord name.text name.shapes := by
  obtain ⟨root, parts⟩ := name
  -- the text of the first part takes the place of a first word
  have hroot : ∀ r : String, Lexes NoWord r root.shapes →
      Lexes NoWord (".".intercalate (r :: parts)) (OptionName.shapes ⟨root, parts⟩) := by
    intro r hr
    cases parts with
    | nil => simpa [OptionName.shapes] using hr
    | cons w ws =>
      have hrest := lexes_words h.parts
      have hdot := lexes_dot.append hrest fun rest _ => ?_
      have hall := hr.append hdot fun rest _ => ?_
      · convert hall using 1
        · rw [String.intercalate_cons_cons, String.append_assoc]
        · simp [OptionName.shapes, joined, List.flatMap_map]
      · rw [String.toList_append, List.append_assoc]
        exact NoWord.cons rfl
      · obtain ⟨more, hmore⟩ := exists_intercalate_cons "." w ws
        rw [hmore, String.toList_append, List.append_assoc]
        exact (h.parts w (List.mem_cons_self ..)).noDigit _
  cases root with
  | word w => exact hroot w (lexes_word h.root)
  | extension type =>
    have hclose : Lexes NoWord ")" [mark .rightParen] := lexes_mark (p := .rightParen) (by decide)
    have htype := (lexes_typeName h.root).append hclose fun _ _ => NoWord.cons rfl
    have hopen : Lexes Anything "(" [mark .leftParen] := lexes_mark (p := .leftParen) (by decide)
    have := hroot _ (hopen.append_any htype)
    rwa [← String.append_assoc] at this

namespace OptionDecl

structure Legible (o : OptionDecl) : Prop where
  name : o.name.Legible
  value : o.value.Legible

def shapes (o : OptionDecl) : List Token.Shape :=
  o.name.shapes ++ ([mark .equals] ++ o.value.shapes)

def listShapes (os : List OptionDecl) : List Token.Shape :=
  if os = [] then [] else [mark .leftBracket] ++ (joined .comma (os.map shapes) ++ [mark .rightBracket])

end OptionDecl

theorem lexes_equals : Lexes F " = " [mark .equals] :=
  ⟨[.blank ' ', Piece.mark .equals, .blank ' '], rfl, rfl,
    fun _ _ => ⟨rfl, mark_stands fun hp => absurd hp (by decide), rfl, trivial⟩⟩

theorem lexes_option {o : OptionDecl} (h : o.Legible) : Lexes Free o.text o.shapes := by
  have hvalue := lexes_equals.append_any (lexes_constant h.value)
  have := (lexes_optionName h.name).append hvalue fun rest _ => ?_
  · rwa [← String.append_assoc] at this
  · rw [String.toList_append, List.append_assoc]
    exact NoWord.cons rfl

/-- Texts with commas between them. -/
theorem lexes_list {α : Type} {text : α → String} {shapes : α → List Token.Shape} {xs : List α}
    (h : ∀ x ∈ xs, Lexes Free (text x) (shapes x)) :
    Lexes Free (", ".intercalate (xs.map text)) (joined .comma (xs.map shapes)) :=
  lexes_intercalate (G := Anything) h lexes_comma (fun _ => free_cons.mpr (by decide))
    fun _ _ _ => trivial

theorem lexes_options {os : List OptionDecl} (h : ∀ o ∈ os, o.Legible) :
    Lexes Free (OptionDecl.listText os) (OptionDecl.listShapes os) := by
  unfold OptionDecl.listText OptionDecl.listShapes
  split
  · exact lexes_empty
  · have hopen : Lexes Anything " [" [mark .leftBracket] :=
      lexes_space.append_any (lexes_mark (p := .leftBracket) (by decide))
    have hclose : Lexes Free "]" [mark .rightBracket] := lexes_mark (p := .rightBracket) (by decide)
    have hlist := (lexes_list fun o ho => lexes_option (h o ho)).append_free hclose
      (free_cons.mpr (by decide))
    rw [String.append_assoc]
    exact hopen.append_any hlist

theorem free_listText (os : List OptionDecl) : Free (OptionDecl.listText os).toList := by
  unfold OptionDecl.listText
  split
  · exact free_nil
  · rw [String.append_assoc]
    exact free_text (by decide) _

/-! ### Ranges -/

namespace NumberRange

/-- A range that can be read: it begins with the number of a field and is not empty. -/
structure Legible (r : NumberRange) : Prop where
  first : FieldNumber.isValid r.first = true
  ordered : r.first ≤ r.last
  last : r.last ≤ FieldNumber.max

def shapes (r : NumberRange) : List Token.Shape :=
  if r.first = r.last then [.int r.first]
  else [Token.Shape.int r.first, .word "to"] ++
    [if r.last = FieldNumber.max then .word "max" else .int r.last]

end NumberRange

theorem lt_intLimit_of_le_max {n : ℕ} (h : n ≤ FieldNumber.max) : n < Token.Number.intLimit := by
  unfold FieldNumber.max Token.Number.intLimit at *
  omega

theorem FieldNumber.le_max_of_isValid {n : ℕ} (h : FieldNumber.isValid n = true) :
    n ≤ FieldNumber.max := by
  simp only [FieldNumber.isValid, Bool.and_eq_true, decide_eq_true_eq] at h
  exact h.1.2

theorem lexes_range {r : NumberRange} (h : r.Legible) : Lexes Free r.text r.shapes := by
  have hfirst := lexes_int (lt_intLimit_of_le_max (h.ordered.trans h.last))
  have hto : Lexes Anything " to " [word "to"] :=
    lexes_space.append_any (lexes_word_blank (isName_of_all (w := "to") (by decide)))
  have hlast := lexes_int (lt_intLimit_of_le_max h.last)
  have hmax : Lexes Free "max" [word "max"] :=
    (lexes_word (isName_of_all (by decide))).mono fun _ => Free.noWord
  unfold NumberRange.text NumberRange.shapes
  split
  · exact hfirst
  · split
    · exact hfirst.append_free (hto.append_any hmax) (free_text (s := " to ") (by decide) "max")
    · rw [String.append_assoc]
      exact hfirst.append_free (hto.append_any hlast) (free_text (by decide) _)

/-! ### Fields and values -/

def WrittenType.shapes : WrittenType → List Token.Shape
  | scalar s => [word s.name]
  | named name => name.shapes

def WrittenType.Legible : WrittenType → Prop
  | scalar _ => True
  | named name => name.segments.Legible

theorem isName_scalar (s : Scalar) : IsName s.name := by
  cases s <;> exact isName_of_all (by decide)

theorem isName_label (l : Label) : IsName l.name := by
  cases l <;> exact isName_of_all (by decide)

theorem lexes_writtenType {type : WrittenType} (h : type.Legible) :
    Lexes NoWord type.text type.shapes := by
  cases type with
  | scalar s => exact lexes_word (isName_scalar s)
  | named name => exact lexes_typeName h

/-- Only integers, strings and truth values are keys. -/
def FieldForm.Legible : FieldForm → Prop
  | .plain _ => True
  | .map key => key.isMapKey = true

/-- A field in front of its name. -/
def FieldForm.shapes (type : WrittenType) : FieldForm → List Token.Shape
  | .plain none => type.shapes
  | .plain (some l) => [word l.name] ++ type.shapes
  | .map key =>
    [word "map", mark .leftAngle, word key.name, mark .comma] ++ (type.shapes ++ [mark .rightAngle])

structure FieldDecl.Legible (f : FieldDecl) : Prop where
  form : f.form.Legible
  type : f.type.value.Legible
  name : IsIdent f.name.value
  number : FieldNumber.isValid f.number.value = true
  options : ∀ o ∈ f.options, o.Legible

def FieldDecl.shapes (f : FieldDecl) : List Token.Shape :=
  f.form.shapes f.type.value ++
    ([word f.name.value] ++ ([mark .equals] ++ ([.int f.number.value] ++ OptionDecl.listShapes f.options)))

structure ValueDecl.Legible (v : ValueDecl) : Prop where
  name : IsIdent v.name.value
  number : Event.isEnumNumber v.number.value = true
  options : ∀ o ∈ v.options, o.Legible

def ValueDecl.shapes (v : ValueDecl) : List Token.Shape :=
  [word v.name.value] ++ ([mark .equals] ++ ((if v.number.value < 0 then [mark .minus] else []) ++
    [.int v.number.value.natAbs] ++ OptionDecl.listShapes v.options))

theorem lexes_front (form : FieldForm) {type : WrittenType} (h : type.Legible) :
    Lexes NoWord (match form with
      | .plain none => type.text
      | .plain (some l) => l.name ++ " " ++ type.text
      | .map key => "map<" ++ key.name ++ ", " ++ type.text ++ ">") (form.shapes type) := by
  have htype := lexes_writtenType h
  match form with
  | .plain none => exact htype
  | .plain (some l) => exact (lexes_word_blank (isName_label l)).append_any htype
  | .map key =>
    have hmap : Lexes Anything "map<" [word "map", mark .leftAngle] := by
      have hleft : Lexes Anything "<" [mark .leftAngle] := lexes_mark (p := .leftAngle) (by decide)
      exact (lexes_word (isName_of_all (w := "map") (by decide))).append hleft fun _ _ =>
        NoWord.cons rfl
    have hright : Lexes NoWord ">" [mark .rightAngle] := lexes_mark (p := .rightAngle) (by decide)
    have hkey := (lexes_word (isName_scalar key)).append (lexes_comma (F := Anything)) fun _ _ =>
      NoWord.cons rfl
    have hall := (hmap.append_any hkey).append_any (htype.append hright fun _ _ => NoWord.cons rfl)
    convert hall using 1
    · simp only [String.append_assoc]
    · rfl

theorem lexes_field {f : FieldDecl} (h : f.Legible) : Lexes Free f.text f.shapes := by
  have hnumber := (lexes_int (lt_intLimit_of_le_max (FieldNumber.le_max_of_isValid h.number))).append_free
    (lexes_options h.options) (free_listText _)
  have hname := (lexes_word h.name.word).append (lexes_equals.append_any hnumber) fun rest _ => ?_
  · obtain ⟨front, hfront, htext⟩ : ∃ front, Lexes NoWord front (f.form.shapes f.type.value) ∧
        f.text = front ++ " " ++ f.name.value ++ " = " ++ toString f.number.value ++
          OptionDecl.listText f.options :=
      ⟨_, lexes_front f.form h.type, rfl⟩
    have hall := hfront.append (lexes_space (F := Anything) |>.append_any hname) fun rest _ => ?_
    · convert hall using 1
      · simp only [htext, String.append_assoc]
      · rfl
    · rw [String.toList_append, List.append_assoc]
      exact NoWord.cons rfl
  · rw [String.toList_append, List.append_assoc]
    exact NoWord.cons rfl

theorem toString_int (n : ℤ) : toString n = (if n < 0 then "-" else "") ++ toString n.natAbs := by
  cases n with
  | ofNat n => exact (String.empty_append).symm
  | negSucc n =>
    rw [if_pos (Int.negSucc_lt_zero n)]
    rfl

theorem natAbs_lt_intLimit {n : ℤ} (h : Event.isEnumNumber n = true) :
    n.natAbs < Token.Number.intLimit := by
  simp only [Event.isEnumNumber, Bool.and_eq_true, decide_eq_true_eq] at h
  unfold Token.Number.intLimit
  omega

theorem lexes_value {v : ValueDecl} (h : v.Legible) : Lexes Free v.text v.shapes := by
  have hmagnitude := (lexes_int (natAbs_lt_intLimit h.number)).signed (decide (v.number.value < 0))
  have hnumber := hmagnitude.append_free (lexes_options h.options) (free_listText _)
  have hall := (lexes_word h.name.word).append (lexes_equals.append_any hnumber) fun rest _ => ?_
  · convert hall using 1
    · simp only [ValueDecl.text, toString_int, decide_eq_true_eq, String.append_assoc]
    · simp [ValueDecl.shapes]
  · rw [String.toList_append, List.append_assoc]
    exact NoWord.cons rfl

end ProtoSchema
