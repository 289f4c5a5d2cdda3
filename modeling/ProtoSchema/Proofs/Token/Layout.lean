import ProtoSchema.Proofs.Token.Rereading
import ProtoSchema.Proofs.Token.Tiling

/-! # Layout

The texts of tokens can be laid out anew, with any gaps around them, as long as no gap between two of them
is empty (`Scan.LaidOut`).  The same tokens are read again (`Scan.shapes_of_laidOut`): a gap leaves no token
(`Scan.ofChars_gap`), it ends the token in front of it (`Scan.Gap.free`), and a token that ends there is
read from its own text (`Token.Alone`). -/

namespace ProtoSchema

/-- The token is read from its text, in front of everything that is free. -/
def Token.Alone (t : Token) : Prop :=
  ∃ c cs, t.text = String.ofList (c :: cs) ∧ ∀ rest, Free rest → (Piece.token t.kind c cs).Stands rest

namespace Scan

/-- The texts in order, each with a gap behind it.  Only the gap behind the last text may be empty. -/
inductive Spread : List String → List Char → Prop
  | nil : Spread [] []
  | cons {text texts gap rest} (behind : Gap rest gap) (apart : texts ≠ [] → gap ≠ [])
      (more : Spread texts rest) : Spread (text :: texts) (text.toList ++ (gap ++ rest))

/-- The source is made of the texts in order, with blanks and comments between them and, perhaps, in front
of and behind them. -/
def LaidOut (texts : List String) (source : String) : Prop :=
  ∃ gap rest, Gap rest gap ∧ Spread texts rest ∧ source.toList = gap ++ rest

variable {lines : LineIndex} {offset : Nat} {cs gap rest : List Char}

/-! ### Gaps -/

/-- A block comment is as long as up to the first `*/`. -/
theorem commentLength_append {body : List Char} (inside : ¬ ['*', '/'] <:+: body) (cs : List Char) :
    Lexeme.commentLength (body ++ '*' :: '/' :: cs) = some (body.length + 2) := by
  induction body with
  | nil => rfl
  | cons c body ih =>
    have hmore : ¬ ['*', '/'] <:+: body := fun h => inside (h.trans (List.suffix_cons c body).isInfix)
    have hopen : ∀ tail, c = '*' → body ++ '*' :: '/' :: cs = '/' :: tail → False := by
      rintro tail rfl htail
      cases body with
      | nil => cases htail
      | cons d body =>
        obtain rfl := (List.cons.inj htail).1
        exact inside ⟨[], body, rfl⟩
    rw [List.cons_append]
    unfold Lexeme.commentLength
    split
    · next tail htail => exact (hopen tail rfl htail).elim
    · rw [ih hmore]
      rfl

/-- A gap in front of a text leaves no token. -/
theorem ofChars_gap (h : Gap rest gap) (offset : Nat) :
    ofChars lines offset (gap ++ rest) = ofChars lines (offset + byteSize gap) rest := by
  induction h generalizing offset with
  | nil => rfl
  | @blank c cs isBlank more ih =>
    have hc : Lexeme.isBlank c = true := by
      simp only [List.mem_cons, List.not_mem_nil, or_false] at isBlank
      rcases isBlank with rfl | rfl | rfl | rfl | rfl | rfl <;> rfl
    rw [List.cons_append, ofChars_blank hc, ih, byteSize_cons, Nat.add_assoc]
  | @line body cs sameLine ends more ih =>
    have hbody : (body ++ (cs ++ rest)).takeWhile (· ≠ '\n') = body := by
      refine takeWhile_append_of_head (fun c hc => ?_) fun c hc => ?_
      · exact decide_eq_true fun h => sameLine (h ▸ hc)
      · simp [ends c hc]
    have hread : Lexeme.read offset '/' ('/' :: (body ++ (cs ++ rest))) = .ok (none, 1 + body.length) := by
      conv_rhs => rw [← hbody]
      rfl
    rw [List.cons_append, List.cons_append, List.append_assoc, ofChars_skip hread, Nat.add_comm 1,
      List.take_succ_cons, List.drop_succ_cons, List.take_left, List.drop_left, ih]
    simp only [byteSize_cons, byteSize_append, Nat.add_assoc]
  | @block body cs inside more ih =>
    have hread : Lexeme.read offset '/' ('*' :: (body ++ '*' :: '/' :: (cs ++ rest))) =
        .ok (none, 1 + (body.length + 2)) := by
      simp only [Lexeme.read, commentLength_append inside]
      rfl
    have hclose : ∀ tail, body ++ '*' :: '/' :: tail = (body ++ ['*', '/']) ++ tail := by simp
    have hlength : (body ++ ['*', '/']).length = body.length + 2 := by simp
    rw [List.cons_append, List.cons_append, List.append_assoc, List.cons_append, List.cons_append,
      ofChars_skip hread, Nat.add_comm 1, List.take_succ_cons, List.drop_succ_cons, hclose,
      List.take_left' hlength, List.drop_left' hlength, ih]
    simp only [byteSize_cons, byteSize_append, byteSize_nil, Nat.add_assoc, Nat.zero_add]

/-- A gap that is not empty ends every word and every number. -/
theorem Gap.free (h : Gap rest gap) (hne : gap ≠ []) (cs : List Char) : Free (gap ++ cs) := by
  cases h with
  | nil => exact absurd rfl hne
  | @blank c cs isBlank more =>
    simp only [List.mem_cons, List.not_mem_nil, or_false] at isBlank
    rw [List.cons_append, free_cons]
    rcases isBlank with rfl | rfl | rfl | rfl | rfl | rfl <;> decide
  | line | block =>
    rw [List.cons_append, free_cons]
    decide

/-! ### Tokens -/

theorem alone_ofChars (lines : LineIndex) (offset : Nat) (cs : List Char) :
    ∀ t ∈ (ofChars lines offset cs).tokens, t.Alone := by
  obtain ⟨ps, h⟩ := exists_takes lines offset cs
  generalize ofChars lines offset cs = scan at h
  induction h with
  | stop | fault => exact List.forall_mem_nil _
  | skip read more ih => exact ih
  | token read more ih =>
    exact List.forall_mem_cons.mpr ⟨⟨_, _, rfl, fun rest hr => Lexeme.stands_of_read read hr⟩, ih⟩

/-- Tokens that are read from their texts are read again from a text in which these are spread. -/
theorem shapes_of_spread {tokens : List Token} (halone : ∀ t ∈ tokens, t.Alone)
    (h : Spread (tokens.map Token.text) cs) (offset : Nat) :
    (ofChars lines offset cs).ending = .endOfText (offset + byteSize cs) ∧
      (ofChars lines offset cs).tokens.map Token.shape = tokens.map Token.shape := by
  induction tokens generalizing cs offset with
  | nil =>
    cases h
    unfold ofChars
    exact ⟨rfl, rfl⟩
  | cons t ts ih =>
    obtain ⟨ht, hts⟩ := List.forall_mem_cons.mp halone
    obtain ⟨c, text, htext, hstands⟩ := ht
    cases h with
    | @cons _ _ gap rest behind apart more =>
      have hfree : Free (gap ++ rest) := by
        by_cases hgap : gap = []
        · -- then the text ends here
          have hts : ts = [] := by
            by_contra hne
            exact apart (by simpa using hne) hgap
          subst hts hgap
          cases more
          exact free_nil
        · exact behind.free hgap rest
      rw [htext, String.toList_ofList, List.cons_append, ofChars_token (hstands _ hfree)]
      simp only [ofChars_gap behind]
      obtain ⟨hending, htokens⟩ := ih hts more (offset + byteSize (c :: text) + byteSize gap)
      refine ⟨?_, ?_⟩
      · rw [hending]
        simp only [byteSize_cons, byteSize_append, Nat.add_assoc]
      · rw [List.map_cons, List.map_cons, htokens, Token.shape, Token.shape, htext]

/-- The tokens of a text, laid out anew with other blanks and comments between them, are read again: the
new text has tokens of the same kinds, values and texts in the same order, up to its end. -/
theorem shapes_of_laidOut {source source' : String}
    (h : LaidOut ((ofText source).tokens.map Token.text) source') :
    (ofText source').ending = .endOfText source'.utf8ByteSize ∧
      (ofText source').tokens.map Token.shape = (ofText source).tokens.map Token.shape := by
  obtain ⟨gap, rest, hgap, hspread, hsource⟩ := h
  obtain ⟨hending, htokens⟩ := shapes_of_spread (alone_ofChars _ 0 source.toList) hspread (0 + byteSize gap)
  rw [ofText, hsource, ofChars_gap hgap]
  refine ⟨?_, htokens⟩
  rw [hending, Nat.zero_add, ← byteSize_append, ← hsource, byteSize_toList]

/-- An exponent without digits, a string that holds the marks of a comment, and a comment that holds a
quotation mark. -/
theorem shapes_of_laidOut_comments :
    let source := "1e+x.5'//'"
    let source' := " 1\te/*'*/+ x//.\n.5 '//'"
    LaidOut ((ofText source).tokens.map Token.text) source' ∧
      (ofText source').ending = .endOfText source'.utf8ByteSize ∧
      (ofText source').tokens.map Token.shape = (ofText source).tokens.map Token.shape := by
  intro source source'
  have htexts : (ofText source).tokens.map Token.text = ["1", "e", "+", "x", ".5", "'//'"] := by
    decide +kernel
  have hne {c : Char} {cs : List Char} {texts : List String} : texts ≠ [] → c :: cs ≠ [] :=
    fun _ => List.cons_ne_nil c cs
  have hspread : Spread ["1", "e", "+", "x", ".5", "'//'"] _ :=
    .cons (.blank (c := '\t') (by decide) .nil) hne <|
    .cons (@Gap.block _ ['\''] [] (by decide) .nil) hne <|
    .cons (.blank (c := ' ') (by decide) .nil) hne <|
    .cons (@Gap.line _ ['.'] ['\n'] (by decide) (by simp) (.blank (by decide) .nil)) hne <|
    .cons (.blank (c := ' ') (by decide) .nil) hne <|
    .cons .nil (absurd rfl) .nil
  have hlaid : LaidOut ((ofText source).tokens.map Token.text) source' := by
    rw [htexts]
    exact ⟨[' '], _, .blank (by decide) .nil, hspread, by decide +kernel⟩
  exact ⟨hlaid, shapes_of_laidOut hlaid⟩

end Scan

end ProtoSchema
