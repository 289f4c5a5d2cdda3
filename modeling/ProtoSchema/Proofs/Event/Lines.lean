import ProtoSchema.Proofs.Token.Texts

/-! # Lines of events as tokens

The text of a sequence of legible events scans to the tokens that `Event.shapes` lists for each of
them (`lexes_print`). -/

namespace ProtoSchema

open Token.Shape (word mark string joined)

def ImportKind.shapes : ImportKind → List Token.Shape
  | plain => []
  | publicly => [word "public"]
  | weakly => [word "weak"]

namespace Event

/-- The names and numbers of an event can be read, and its lists are not empty. -/
def Legible : Event → Prop
  | package name => name.value.Legible
  | option o => o.Legible
  | openMessage name | openEnum name => IsIdent name.value
  | openExtend type => type.value.segments.Legible
  | field f => f.Legible
  | value v => v.Legible
  | reservedRanges rs | extensionRanges rs => rs ≠ [] ∧ ∀ r ∈ rs, r.Legible
  | reservedNames names => names ≠ []
  | edition _ | importFile .. | required _ | close => True

/-- The tokens on the line of an event. -/
def shapes : Event → List Token.Shape
  | edition e => [word "syntax", mark .equals, string e.value.name, mark .semicolon]
  | package name => [word "package"] ++ (name.value.shapes ++ [mark .semicolon])
  | importFile kind file => [word "import"] ++ (kind.shapes ++ [string file.value, mark .semicolon])
  | option o => [word "option"] ++ (o.shapes ++ [mark .semicolon])
  | openMessage name => [word "message", word name.value, mark .leftBrace]
  | openExtend type => [word "extend"] ++ (type.value.shapes ++ [mark .leftBrace])
  | openEnum name => [word "enum", word name.value, mark .leftBrace]
  | required _ => []
  | field f => f.shapes ++ [mark .semicolon]
  | value v => v.shapes ++ [mark .semicolon]
  | reservedRanges rs =>
    [word "reserved"] ++ (joined .comma (rs.map NumberRange.shapes) ++ [mark .semicolon])
  | reservedNames names =>
    [word "reserved"] ++ (joined .comma (names.map fun s => [string s]) ++ [mark .semicolon])
  | extensionRanges rs =>
    [word "extensions"] ++ (joined .comma (rs.map NumberRange.shapes) ++ [mark .semicolon])
  | close => [mark .rightBrace]

end Event

variable {F : List Char → Prop} {s : String} {ss : List Token.Shape}

theorem lexes_semicolon : Lexes F ";" [mark .semicolon] := lexes_mark (p := .semicolon) (by decide)

theorem lexes_leftBrace : Lexes F " \x7b" [mark .leftBrace] :=
  lexes_space.append_any (lexes_mark (p := .leftBrace) (by decide))

/-- What a line begins with: a word and a blank. -/
structure Begins (front w : String) : Prop where
  name : IsName w
  eq : front = w ++ " "

theorem begins_of_all {front w : String}
    (h : (w.toList.head?.any Lexeme.isWordStart && w.toList.all Lexeme.isWordPart) = true)
    (he : front = w ++ " ") : Begins front w :=
  ⟨isName_of_all h, he⟩

theorem Begins.lexes {front w : String} (h : Begins front w) : Lexes F front [word w] :=
  h.eq ▸ lexes_word_blank h.name

/-- A statement between its keyword and its semicolon. -/
theorem Lexes.statement {front w : String} (hw : Begins front w) (h : Lexes Free s ss) :
    Lexes F (front ++ s ++ ";") ([word w] ++ (ss ++ [mark .semicolon])) := by
  rw [String.append_assoc]
  refine hw.lexes.append_any (h.append lexes_semicolon fun rest _ => ?_)
  exact free_cons.mpr (by decide)

/-- The first line of a block. -/
theorem Lexes.header {front w : String} (hw : Begins front w) (h : Lexes NoWord s ss) :
    Lexes F (front ++ s ++ " \x7b") ([word w] ++ (ss ++ [mark .leftBrace])) := by
  rw [String.append_assoc]
  refine hw.lexes.append_any (h.append lexes_leftBrace fun rest _ => ?_)
  exact NoWord.cons rfl

theorem lexes_importKind (kind : ImportKind) :
    Lexes F (match kind with
      | .plain => ""
      | .publicly => "public "
      | .weakly => "weak ") kind.shapes := by
  cases kind with
  | plain => exact lexes_empty
  | publicly => exact (begins_of_all (by decide) (by decide)).lexes
  | weakly => exact (begins_of_all (by decide) (by decide)).lexes

theorem lexes_line {e : Event} (h : e.Legible) {line : String} (hl : e.line? = some line) :
    Lexes F line e.shapes := by
  cases e with
  | edition e =>
    cases hl
    have hquote : ∀ e : Edition, "syntax = \"" ++ e.name ++ "\";" =
        "syntax" ++ (" = " ++ (Escaped.quote e.name ++ ";")) := by
      intro e
      cases e <;> decide +kernel
    have hvalue := (lexes_string e.value.name).append_any (lexes_semicolon (F := F))
    rw [hquote]
    refine (lexes_word (isName_of_all (by decide))).append (lexes_equals.append_any hvalue)
      fun rest _ => ?_
    rw [String.toList_append, List.append_assoc]
    exact NoWord.cons rfl
  | package name =>
    cases hl
    have hname := (lexes_dottedName h).mono fun _ => Free.noWord
    exact hname.statement (begins_of_all (by decide) (by decide))
  | importFile kind file =>
    cases hl
    have hfront : Begins "import " "import" := begins_of_all (by decide) (by decide)
    have hfile := (lexes_string file.value).append_any (lexes_semicolon (F := F))
    have hall := hfront.lexes.append_any ((lexes_importKind kind).append_any hfile)
    simp only [← String.append_assoc] at hall
    cases kind <;> exact hall
  | option o =>
    cases hl
    exact (lexes_option h).statement (begins_of_all (by decide) (by decide))
  | openMessage name =>
    cases hl
    exact (lexes_word h.word).header (begins_of_all (by decide) (by decide))
  | openExtend type =>
    cases hl
    exact (lexes_typeName h).header (begins_of_all (by decide) (by decide))
  | openEnum name =>
    cases hl
    exact (lexes_word h.word).header (begins_of_all (by decide) (by decide))
  | required span => cases hl
  | field f =>
    cases hl
    exact (lexes_field h).append lexes_semicolon fun _ _ => free_cons.mpr (by decide)
  | value v =>
    cases hl
    exact (lexes_value h).append lexes_semicolon fun _ _ => free_cons.mpr (by decide)
  | reservedRanges rs =>
    cases hl
    have hlist := lexes_list fun r hr => lexes_range (h.2 r hr)
    exact hlist.statement (begins_of_all (by decide) (by decide))
  | reservedNames names =>
    cases hl
    have hlist := lexes_list fun s (_ : s ∈ names) => lexes_string s
    exact hlist.statement (begins_of_all (by decide) (by decide))
  | extensionRanges rs =>
    cases hl
    have hlist := lexes_list fun r hr => lexes_range (h.2 r hr)
    exact hlist.statement (begins_of_all (by decide) (by decide))
  | close =>
    cases hl
    exact lexes_mark (p := .rightBrace) (by decide)

theorem lexes_indentation (depth : ℕ) : Lexes F (Event.indentation depth) [] := by
  obtain ⟨n, hn⟩ : ∃ n, 2 * depth = n := ⟨_, rfl⟩
  rw [Event.indentation, hn]
  clear hn
  induction n with
  | zero => exact lexes_empty
  | succ n ih =>
    have := (lexes_blank (F := Anything) (c := ' ') rfl).append_any ih
    rwa [← String.ofList_append] at this

theorem lexes_print {es : List Event} (h : ∀ e ∈ es, e.Legible) :
    ∀ depth, Lexes F (Event.print depth es) (es.flatMap Event.shapes) := by
  induction es with
  | nil => exact fun _ => lexes_empty
  | cons e es ih =>
    intro depth
    have hes := ih fun e' he' => h e' (List.mem_cons_of_mem _ he')
    unfold Event.print
    refine Lexes.append_any ?_ (hes _)
    split
    · next line hl =>
      have hline := (lexes_indentation (if e = .close then depth - 1 else depth)).append_any
        (lexes_line (F := Anything) (h e (List.mem_cons_self ..)) hl)
      have hall := hline.append_any (lexes_newline (F := Anything))
      rwa [List.append_nil] at hall
    · next hl =>
      cases e <;> cases hl
      exact lexes_empty

end ProtoSchema
