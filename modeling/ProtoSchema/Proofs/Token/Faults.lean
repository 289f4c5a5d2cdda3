import ProtoSchema.Proofs.Token.Tiling

/-! # Faults of the scanner

A text that cannot be scanned shows where: the only label of the fault is a stretch of characters from
the beginning of the piece that cannot be read (`Lexeme.shows_of_read`).  So the places that scanning a
text leaves behind, of tokens, of the end and of the fault, all lie within the text
(`Scan.endsWithin_ofText`). -/

namespace ProtoSchema

/-- Is the fault one of the scanner's own? -/
def Fault.isLexical : Fault → Bool
  | unexpectedCharacter .. | integerTooLarge .. | unterminatedString .. | invalidEscape ..
  | unterminatedComment .. => true
  | _ => false

/-- A fault of the scanner has one label. -/
theorem Fault.labels_of_isLexical {f : Fault} (h : f.isLexical = true) :
    ∃ caption, f.labels = [(caption, f.span)] := by
  cases f with
  | unexpectedCharacter | integerTooLarge | unterminatedString | invalidEscape | unterminatedComment =>
    exact ⟨_, rfl⟩
  | _ => cases h

/-- The span is a stretch of the text `cs`, which begins at `offset`. -/
def Span.PartOf (sp : Span) (offset : Nat) (cs : List Char) : Prop :=
  ∃ before inside, before ++ inside <+: cs ∧
    sp = ⟨offset + byteSize before, offset + byteSize before + byteSize inside⟩

/-- A stretch of a text between other texts is a stretch of the whole. -/
theorem Span.PartOf.within {sp : Span} {source : String} {front cs : List Char}
    (h : sp.PartOf (byteSize front) cs) (hsource : source.toList = front ++ cs) : sp.Within source := by
  obtain ⟨before, inside, ⟨after, hcs⟩, rfl⟩ := h
  have htext : source.toList = front ++ before ++ (inside ++ after) := by
    rw [hsource, ← hcs]
    simp only [List.append_assoc]
  have hsize : source.utf8ByteSize = byteSize front + byteSize before + byteSize inside + byteSize after := by
    rw [← byteSize_toList, htext]
    simp only [byteSize_append]
    omega
  refine ⟨by simp, ?_, ?_, ?_⟩
  · dsimp only
    omega
  · exact isValid_iff.mpr ⟨front ++ before, ⟨inside ++ after, htext.symm⟩, byteSize_append _ _⟩
  · refine isValid_iff.mpr ⟨front ++ before ++ inside, ⟨after, ?_⟩, by simp only [byteSize_append]⟩
    rw [htext]
    simp only [List.append_assoc]

/-- The fault is the scanner's own and shows a stretch of the text `cs`, which begins at `offset`. -/
structure Fault.Shows (f : Fault) (offset : Nat) (cs : List Char) : Prop where
  lexical : f.isLexical = true
  span : f.span.PartOf offset cs

/-! ### Sizes of pieces -/

theorem byteSize_eq_length {cs : List Char} (h : ∀ c ∈ cs, c.utf8Size = 1) : byteSize cs = cs.length := by
  induction cs with
  | nil => rfl
  | cons c cs ih =>
    obtain ⟨hc, hcs⟩ := List.forall_mem_cons.mp h
    rw [byteSize_cons, hc, ih hcs, List.length_cons]
    omega

theorem utf8Size_of_le {c d : Char} (h : c ≤ d) (hd : d.val ≤ 127) : c.utf8Size = 1 :=
  Char.utf8Size_eq_one_iff.mpr (UInt32.le_trans h hd)

theorem utf8Size_of_isDigit {c : Char} (h : c.isDigit = true) : c.utf8Size = 1 := by
  simp only [Char.isDigit, Bool.and_eq_true, decide_eq_true_eq] at h
  exact utf8Size_of_le (d := '9') h.2 (by decide)

theorem utf8Size_of_isHex {c : Char} (h : Token.Number.isHex c = true) : c.utf8Size = 1 := by
  simp only [Token.Number.isHex, Bool.or_eq_true, Bool.and_eq_true, decide_eq_true_eq] at h
  obtain (h | ⟨-, h⟩) | ⟨-, h⟩ := h
  · exact utf8Size_of_isDigit h
  · exact utf8Size_of_le h (by decide)
  · exact utf8Size_of_le h (by decide)

namespace Token.Number

/-- What is taken of a text in front of which some characters of one byte stand. -/
theorem byteSize_take {front cs : List Char} (hfront : front <+: cs) (h : ∀ c ∈ front, c.utf8Size = 1) :
    byteSize (cs.take front.length) = front.length := by
  rw [← List.prefix_iff_eq_take.mp hfront, byteSize_eq_length h]

/-- The characters of an integer that is too large have one byte each. -/
theorem size_of_read {c : Char} {cs : List Char} {n : Nat} (hc : c.isDigit = true)
    (h : read c cs = (none, n)) : byteSize (c :: cs.take n) = 1 + n := by
  have hdigits : byteSize (cs.take (digits cs).length) = (digits cs).length :=
    byteSize_take (List.takeWhile_prefix _) fun d hd =>
      utf8Size_of_isDigit (List.mem_takeWhile_imp hd)
  -- an integer with some hexadecimal digits or none
  have hint : ∀ hex : List Char, (hex ≠ [] → ∃ x : Char, x.utf8Size = 1 ∧ x :: hex <+: cs) →
      (∀ d ∈ hex, isHex d = true) → (if hex = [] then
        ((decimalInt (c :: digits cs)).map Kind.int, (digits cs).length)
      else (if value 16 hex < intLimit then some (.int (value 16 hex)) else none, 1 + hex.length)) =
        (none, n) → byteSize (c :: cs.take n) = 1 + n := by
    intro hex hfront hhex h
    rw [byteSize_cons, utf8Size_of_isDigit hc]
    split at h
    · obtain ⟨-, rfl⟩ := Prod.mk.inj h
      rw [hdigits]
    · next hne =>
      obtain ⟨-, rfl⟩ := Prod.mk.inj h
      obtain ⟨x, hx, hprefix⟩ := hfront hne
      have := byteSize_take hprefix
        (List.forall_mem_cons.mpr ⟨hx, fun d hd => utf8Size_of_isHex (hhex d hd)⟩)
      rw [List.length_cons, Nat.add_comm] at this
      rw [this]
  have hmarked : ∀ {x : Char} {rest : List Char}, x.utf8Size = 1 → cs.drop (digits cs).length = x :: rest →
      (if c :: digits cs = ['0'] then rest.takeWhile isHex else []) ≠ [] →
      ∃ x : Char, x.utf8Size = 1 ∧
        x :: (if c :: digits cs = ['0'] then rest.takeWhile isHex else []) <+: cs := by
    intro x rest hx hrest hne
    split at hne
    · next hwhole =>
      rw [(List.cons.inj hwhole).2] at hrest
      rw [if_pos hwhole]
      refine ⟨x, hx, ?_⟩
      rw [show cs = x :: rest from hrest]
      exact List.cons_prefix_cons.mpr ⟨rfl, List.takeWhile_prefix _⟩
    · exact absurd rfl hne
  have hall : ∀ rest : List Char, ∀ d ∈ (if c :: digits cs = ['0'] then rest.takeWhile isHex else []),
      isHex d = true := by
    intro rest d hd
    split at hd
    · exact List.mem_takeWhile_imp hd
    · cases hd
  simp only [read] at h
  split at h
  · cases h
  · split at h
    · cases h
    · split at h
      · next hrest => exact hint _ (hmarked rfl hrest) (hall _) h
      · next hrest => exact hint _ (hmarked rfl hrest) (hall _) h
      · exact hint [] (fun hne => absurd rfl hne) (List.forall_mem_nil _) h

end Token.Number

namespace Token.Quotation

/-- A string literal that begins with the quotation mark and `front` and cannot be read. -/
theorem shows_of_body {quote : Char} {start offset : Nat} {cs : List Char} {f : Fault}
    (hquote : quote.utf8Size = 1) : ∀ front : List Char, offset = start + 1 + byteSize front →
      body quote start offset cs = .error f → f.Shows start (quote :: (front ++ cs)) := by
  fun_induction body quote start offset cs with
  | case1 =>
    intro front _ h
    cases h
    exact ⟨rfl, [], [quote], by simp, by simp [Fault.span, hquote]⟩
  | case2 offset cs =>
    intro front hoffset h
    cases h
    refine ⟨rfl, [], quote :: front, ⟨'\n' :: cs, by simp⟩, ?_⟩
    simp only [Fault.span, byteSize_nil, byteSize_cons, Span.mk.injEq]
    omega
  | case4 offset cs n hescape =>
    intro front hoffset h
    cases h
    have hslash : Char.utf8Size '\\' = 1 := rfl
    refine ⟨rfl, quote :: front, '\\' :: cs.take n, ⟨cs.drop n, by simp⟩, ?_⟩
    simp only [Fault.span, byteSize_cons, Span.mk.injEq]
    omega
  | case5 offset cs b n hescape g hbody _ _ ih =>
    intro front hoffset h
    have hslash : Char.utf8Size '\\' = 1 := rfl
    have := ih (front ++ '\\' :: cs.take n) (by simp only [byteSize_append, byteSize_cons]; omega)
      (hbody.trans h)
    simpa using this
  | case7 offset c cs _ _ _ g hbody ih =>
    intro front hoffset h
    have := ih (front ++ [c]) (by simp only [byteSize_append, byteSize_cons, byteSize_nil]; omega)
      (hbody.trans h)
    simpa using this
  | case3 | case6 | case8 =>
    intro front _ h
    cases h

theorem shows_of_read {quote : Char} {start : Nat} {cs : List Char} {f : Fault} (hquote : quote.utf8Size = 1)
    (h : read quote start cs = .error f) : f.Shows start (quote :: cs) := by
  unfold read at h
  split at h
  · next hbody =>
    cases h
    exact shows_of_body hquote [] rfl hbody
  · next bytes n hbody =>
    split at h
    · cases h
    · cases h
      refine ⟨rfl, [], quote :: cs.take n, ⟨cs.drop n, by simp⟩, ?_⟩
      simp only [Fault.span, byteSize_nil, byteSize_cons, Span.mk.injEq]
      omega

end Token.Quotation

namespace Lexeme

/-- A piece that cannot be read shows where. -/
theorem shows_of_read {offset : Nat} {c : Char} {cs : List Char} {f : Fault}
    (h : read offset c cs = .error f) : f.Shows offset (c :: cs) := by
  unfold read at h
  split at h
  · cases h
  split at h
  · cases h
  split at h
  · next hdigit =>
    split at h
    · cases h
    · next n hread =>
      cases h
      have hsize := Token.Number.size_of_read hdigit hread
      refine ⟨rfl, [], c :: cs.take n, ⟨cs.drop n, by simp⟩, ?_⟩
      simp only [Fault.span, byteSize_nil, Span.mk.injEq]
      omega
  split at h
  · next hquote =>
    have hsize : c.utf8Size = 1 := by
      obtain rfl | rfl := hquote
      · rfl
      · rfl
    split at h
    · cases h
    · next hread =>
      cases h
      exact Token.Quotation.shows_of_read hsize hread
  split at h
  · cases h
  · split at h
    · cases h
    · cases h
      exact ⟨rfl, [], ['/', '*'], by simp, rfl⟩
  · split at h <;> cases h
  · split at h
    · cases h
    · cases h
      exact ⟨rfl, [], [c], by simp, by simp [Fault.span]⟩

end Lexeme

namespace Scan

/-- The fault of a tiled text shows a stretch of it. -/
theorem Tiles.shows {lines : LineIndex} {offset : Nat} {cs : List Char} {scan : Scan} {f : Fault}
    (h : Tiles lines offset cs scan) (hending : scan.ending = .fault f) : f.Shows offset cs := by
  have hlater : ∀ {front cs : List Char} {offset : Nat}, f.Shows (offset + byteSize front) cs →
      f.Shows offset (front ++ cs) := by
    rintro front cs offset ⟨hlexical, before, inside, ⟨after, rfl⟩, hspan⟩
    refine ⟨hlexical, front ++ before, inside, ⟨after, by simp⟩, ?_⟩
    rw [hspan, byteSize_append]
    simp only [Nat.add_assoc]
  induction h with
  | stop => cases hending
  | fault before failed =>
    cases hending
    exact hlater (Lexeme.shows_of_read failed)
  | token before nonempty begins more ih =>
    subst begins
    exact hlater (hlater (ih hending))

/-- How the scan of a text ends: at the end of the text, or in a fault of the scanner that shows a
stretch of the text. -/
inductive EndsWithin (source : String) : Ending → Prop
  | endOfText : EndsWithin source (.endOfText source.utf8ByteSize)
  | fault {f} (lexical : f.isLexical = true) (within : f.span.Within source) : EndsWithin source (.fault f)

theorem endsWithin_ofText (source : String) : EndsWithin source (ofText source).ending := by
  cases hending : (ofText source).ending with
  | endOfText stop =>
    rw [stop_ofText hending]
    exact .endOfText
  | fault f =>
    obtain ⟨hlexical, hspan⟩ := (tiles_ofText source).shows hending
    have hwhole : source.toList = [] ++ source.toList := rfl
    refine .fault hlexical (Span.PartOf.within ?_ hwhole)
    exact hspan

end Scan

end ProtoSchema
