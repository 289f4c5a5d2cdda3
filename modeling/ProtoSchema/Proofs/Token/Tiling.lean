import Mathlib.Data.List.Infix
import ProtoSchema.Proofs.Event.Progress
import ProtoSchema.Proofs.Text.Positions
import ProtoSchema.Proofs.Token.Legibility

/-! # Tokens and gaps

The tokens of a text and the gaps between them tile it: gap, token, gap, token, and so on up to the end
or the first fault (`Scan.tiles_ofText`).  A gap is made of blanks, line comments and block comments.  So
each token stands where its span says, is not empty and ends before the next one begins, and its line and
column are those of its first byte (`Scan.tokens_tile`). -/

namespace ProtoSchema

namespace Scan

/-- What may stand between tokens, in front of `rest`: blanks, line comments, which end at a newline or
at the end of the text, and block comments, which end at the first `*/`. -/
inductive Gap (rest : List Char) : List Char → Prop
  | nil : Gap rest []
  | blank {c cs} (isBlank : c ∈ ['\t', '\n', '\x0b', '\x0c', '\r', ' ']) (more : Gap rest cs) :
      Gap rest (c :: cs)
  | line {body cs} (sameLine : '\n' ∉ body) (ends : ∀ c ∈ (cs ++ rest).head?, c = '\n') (more : Gap rest cs) :
      Gap rest ('/' :: '/' :: (body ++ cs))
  | block {body cs} (inside : ¬ ['*', '/'] <:+: body) (more : Gap rest cs) :
      Gap rest ('/' :: '*' :: (body ++ '*' :: '/' :: cs))

/-- The text `cs`, which begins at `offset` of a text with these lines, consists of the tokens with gaps
around them, up to its end or to a piece that cannot be read. -/
inductive Tiles (lines : LineIndex) : Nat → List Char → Scan → Prop
  | stop {offset cs} (gap : Gap [] cs) : Tiles lines offset cs ⟨[], .endOfText (offset + byteSize cs)⟩
  | fault {offset gap c cs f} (before : Gap (c :: cs) gap)
      (failed : Lexeme.read (offset + byteSize gap) c cs = .error f) :
      Tiles lines offset (gap ++ c :: cs) ⟨[], .fault f⟩
  | token {offset gap text rest kind start scan} (before : Gap (text ++ rest) gap) (nonempty : text ≠ [])
      (begins : start = offset + byteSize gap) (more : Tiles lines (start + byteSize text) rest scan) :
      Tiles lines offset (gap ++ (text ++ rest))
        { scan with tokens := ⟨kind, String.ofList text, ⟨start, start + byteSize text⟩,
            lines.position start⟩ :: scan.tokens }

/-! ### Gaps -/

theorem mem_blanks_of_isBlank {c : Char} (h : Lexeme.isBlank c = true) :
    c ∈ ['\t', '\n', '\x0b', '\x0c', '\r', ' '] := by
  simp only [Lexeme.isBlank, Bool.or_eq_true, beq_iff_eq] at h
  simp only [List.mem_cons, List.not_mem_nil, or_false]
  tauto

theorem Gap.blanks {rest bs cs : List Char} (h : ∀ c ∈ bs, Lexeme.isBlank c = true) (more : Gap rest cs) :
    Gap rest (bs ++ cs) := by
  induction bs with
  | nil => exact more
  | cons b bs ih =>
    obtain ⟨hb, hbs⟩ := List.forall_mem_cons.mp h
    exact .blank (mem_blanks_of_isBlank hb) (ih hbs)

theorem drop_takeWhile (p : Char → Bool) (cs : List Char) :
    cs.drop (cs.takeWhile p).length = cs.dropWhile p := by
  induction cs with
  | nil => rfl
  | cons c cs ih => by_cases hc : p c = true <;> simp [hc, ih]

/-- What follows the stretch of a line begins with a newline, if there is anything. -/
theorem head_of_dropWhile {cs rest : List Char} (h : cs.dropWhile (· ≠ '\n') = rest) :
    ∀ c ∈ rest.head?, c = '\n' := by
  subst h
  intro c hc
  have := List.head?_dropWhile_not (· ≠ '\n') cs
  rw [Option.mem_def.mp hc] at this
  simpa using this

/-- The text of a block comment ends at the first `*/`. -/
theorem exists_body_of_commentLength {cs : List Char} {n : Nat} (h : Lexeme.commentLength cs = some n) :
    ∃ body, cs.take n = body ++ ['*', '/'] ∧ ¬ ['*', '/'] <:+: body := by
  induction cs generalizing n with
  | nil => cases h
  | cons c cs ih =>
    unfold Lexeme.commentLength at h
    split at h
    · cases h
      exact ⟨[], by simp, by simp⟩
    · next hopen =>
      obtain ⟨m, hm, rfl⟩ := Option.map_eq_some_iff.mp h
      obtain ⟨body, hbody, hinside⟩ := ih hm
      refine ⟨c :: body, ?_, ?_⟩
      · rw [List.take_succ_cons, hbody, List.cons_append]
      · intro hinfix
        obtain hprefix | hinfix := List.infix_cons_iff.mp hinfix
        · -- a mark at the front of the text would have been the first one
          obtain ⟨rfl, hslash⟩ := List.cons_prefix_cons.mp hprefix
          obtain ⟨more, rfl⟩ := hslash
          have hfront : (['/'] ++ more ++ ['*', '/']) <+: cs := hbody ▸ List.take_prefix _ _
          obtain ⟨tail, rfl⟩ := hfront
          exact hopen _ rfl rfl
        · exact hinside hinfix

/-- A piece that is skipped belongs to the gap. -/
theorem Gap.of_read {offset n : Nat} {c : Char} {cs gap rest : List Char}
    (h : Lexeme.read offset c cs = .ok (none, n)) (hdrop : cs.drop n = gap ++ rest) (more : Gap rest gap) :
    Gap rest (c :: cs.take n ++ gap) := by
  unfold Lexeme.read at h
  split at h
  · next hc =>
    cases h
    rw [Lexeme.take_takeWhile]
    exact .blanks (List.forall_mem_cons.mpr ⟨hc, fun d hd => List.all_eq_true.mp (List.all_takeWhile ..) d hd⟩)
      more
  split at h
  · cases h
  split at h
  · split at h <;> cases h
  split at h
  · split at h <;> cases h
  split at h
  · cases h
    rw [Nat.add_comm, List.take_succ_cons, Lexeme.take_takeWhile]
    rw [Nat.add_comm, List.drop_succ_cons, drop_takeWhile] at hdrop
    refine .line ?_ ?_ more
    · intro hmem
      have := List.mem_takeWhile_imp hmem
      simp at this
    · exact head_of_dropWhile hdrop
  · split at h
    · next m hm =>
      cases h
      obtain ⟨body, hbody, hinside⟩ := exists_body_of_commentLength hm
      rw [Nat.add_comm, List.take_succ_cons, hbody]
      simpa using Gap.block hinside more
    · cases h
  · split at h <;> cases h
  · split at h <;> cases h

/-! ### Tiles -/

variable {lines : LineIndex}

/-- A piece that is skipped in front of a tiled text belongs to the first gap. -/
theorem Tiles.skip {offset n : Nat} {c : Char} {cs : List Char} {scan : Scan}
    (h : Lexeme.read offset c cs = .ok (none, n))
    (more : Tiles lines (offset + byteSize (c :: cs.take n)) (cs.drop n) scan) :
    Tiles lines offset (c :: cs) scan := by
  have hcs : ∀ {gap rest}, cs.drop n = gap ++ rest → c :: cs = (c :: cs.take n ++ gap) ++ rest := by
    intro gap rest hdrop
    rw [List.append_assoc, ← hdrop, List.cons_append, List.take_append_drop]
  have hsize : ∀ gap, offset + byteSize (c :: cs.take n) + byteSize gap =
      offset + byteSize (c :: cs.take n ++ gap) := by
    intro gap
    rw [byteSize_append, Nat.add_assoc]
  generalize hdrop : cs.drop n = text at more
  cases more with
  | stop gap =>
    rw [hsize, hcs (hdrop.trans (List.append_nil _).symm), List.append_nil]
    exact .stop (.of_read h (hdrop.trans (List.append_nil _).symm) gap)
  | fault before failed =>
    rw [hsize] at failed
    rw [hcs hdrop]
    exact .fault (.of_read h hdrop before) failed
  | token before nonempty begins more =>
    rw [hsize] at begins
    rw [hcs hdrop]
    exact .token (.of_read h hdrop before) nonempty begins more

/-- Every text is tiled by its tokens and gaps. -/
theorem tiles_ofChars (lines : LineIndex) (offset : Nat) (cs : List Char) :
    Tiles lines offset cs (ofChars lines offset cs) := by
  obtain ⟨ps, h⟩ := exists_takes lines offset cs
  generalize ofChars lines offset cs = scan at h
  induction h with
  | stop => exact .stop .nil
  | fault failed => exact .fault .nil failed
  | skip read more ih => exact .skip read ih
  | @token offset c cs kind n ps scan read more ih =>
    have hcs : c :: cs = [] ++ (c :: cs.take n) ++ cs.drop n := by
      rw [List.nil_append, List.cons_append, List.take_append_drop]
    rw [hcs]
    exact .token .nil (List.cons_ne_nil c (cs.take n)) rfl ih

theorem tiles_ofText (source : String) : Tiles (.ofText source) 0 source.toList (ofText source) :=
  tiles_ofChars (.ofText source) 0 source.toList

/-! ### Places of tokens -/

/-- The end of a tiled text is behind all of its bytes. -/
theorem Tiles.stop_eq {offset stop : Nat} {cs : List Char} {scan : Scan} (h : Tiles lines offset cs scan)
    (hending : scan.ending = .endOfText stop) : stop = offset + byteSize cs := by
  induction h with
  | stop => exact (Ending.endOfText.inj hending).symm
  | fault => cases hending
  | token before nonempty begins more ih =>
    have := ih hending
    simp only [byteSize_append]
    omega

/-- No token of a tiled text begins before the text does. -/
theorem Tiles.start_le {offset : Nat} {cs : List Char} {scan : Scan} (h : Tiles lines offset cs scan) :
    ∀ t ∈ scan.tokens, offset ≤ t.span.start := by
  induction h with
  | stop | fault => exact List.forall_mem_nil _
  | token before nonempty begins more ih =>
    refine List.forall_mem_cons.mpr ⟨?_, fun t ht => ?_⟩
    · dsimp only
      omega
    · have := ih t ht
      omega

/-- The line and the column of a token are those of its first byte. -/
theorem Tiles.position_eq {offset : Nat} {cs : List Char} {scan : Scan} (h : Tiles lines offset cs scan) :
    ∀ t ∈ scan.tokens, t.position = lines.position t.span.start := by
  induction h with
  | stop | fault => exact List.forall_mem_nil _
  | token before nonempty begins more ih => exact List.forall_mem_cons.mpr ⟨rfl, ih⟩

/-- The tokens of a tiled text are in order and disjoint. -/
theorem Tiles.pairwise {offset : Nat} {cs : List Char} {scan : Scan} (h : Tiles lines offset cs scan) :
    scan.tokens.Pairwise fun a b => a.span.stop ≤ b.span.start := by
  induction h with
  | stop | fault => exact .nil
  | token before nonempty begins more ih => exact .cons more.start_le ih

end Scan

/-- The token is a piece of the text, at the place that its span says. -/
structure Token.StandsIn (t : Token) (source : String) : Prop where
  nonempty : t.span.start < t.span.stop
  slice : ∃ front back, source = front ++ t.text ++ back ∧ front.utf8ByteSize = t.span.start ∧
    (front ++ t.text).utf8ByteSize = t.span.stop

theorem Token.StandsIn.within {t : Token} {source : String} (h : t.StandsIn source) :
    t.span.Within source := by
  obtain ⟨front, back, rfl, hstart, hstop⟩ := h.slice
  have hlt := h.nonempty
  refine ⟨hlt.le, ?_, ?_, ?_⟩
  · rw [← hstop, String.utf8ByteSize_append (t := back)]
    omega
  · rw [← hstart, String.append_assoc]
    exact String.Pos.Raw.isValid_iff_exists_append.mpr ⟨_, _, rfl, rfl⟩
  · rw [← hstop]
    exact String.Pos.Raw.isValid_iff_exists_append.mpr ⟨_, _, rfl, rfl⟩

namespace Scan

variable {lines : LineIndex}

/-- Behind `front`, every token of a tiled text stands at its place. -/
theorem Tiles.standsIn {offset : Nat} {cs : List Char} {scan : Scan} (h : Tiles lines offset cs scan) :
    ∀ front, byteSize front = offset → ∀ t ∈ scan.tokens, t.StandsIn (String.ofList (front ++ cs)) := by
  induction h with
  | stop | fault => exact fun _ _ => List.forall_mem_nil _
  | @token offset gap text rest kind start scan before nonempty begins more ih =>
    intro front hfront
    have hsize : byteSize (front ++ gap) = start := by
      rw [byteSize_append, hfront, begins]
    refine List.forall_mem_cons.mpr ⟨⟨?_, String.ofList (front ++ gap), String.ofList rest, ?_, ?_, ?_⟩, ?_⟩
    · cases text with
      | nil => exact absurd rfl nonempty
      | cons c cs =>
        have := c.utf8Size_pos
        simp only [byteSize_cons]
        omega
    · rw [← String.ofList_append, ← String.ofList_append]
      simp only [List.append_assoc]
    · rw [String.utf8ByteSize_ofList, ← byteSize_eq_utf8Len, hsize]
    · rw [← String.ofList_append, String.utf8ByteSize_ofList, ← byteSize_eq_utf8Len, byteSize_append, hsize]
    · have := ih (front ++ gap ++ text) (by rw [byteSize_append, hsize])
      simpa only [List.append_assoc] using this

theorem standsIn_ofText (source : String) : ∀ t ∈ (ofText source).tokens, t.StandsIn source := by
  have h := (tiles_ofText source).standsIn [] rfl
  rwa [List.nil_append, String.ofList_toList] at h

theorem pairwise_ofText (source : String) :
    (ofText source).tokens.Pairwise fun a b => a.span.stop ≤ b.span.start :=
  (tiles_ofText source).pairwise

/-- A text that is read to its end ends behind its last byte. -/
theorem stop_ofText {source : String} {stop : Nat} (h : (ofText source).ending = .endOfText stop) :
    stop = source.utf8ByteSize := by
  rw [(tiles_ofText source).stop_eq h, byteSize_toList, Nat.zero_add]

/-- The tokens of a text that is read to its end tile it: there are only blanks and comments before,
between and behind them, each of them is not empty, stands where its span says and ends before the next
one begins, and its line and column are those of the place where it begins. -/
theorem tokens_tile {source : String} {stop : Nat} (h : (ofText source).ending = .endOfText stop) :
    stop = source.utf8ByteSize ∧
      Tiles (.ofText source) 0 source.toList ⟨(ofText source).tokens, .endOfText stop⟩ ∧
      (ofText source).tokens.Pairwise (fun a b => a.span.stop ≤ b.span.start) ∧
      ∀ t ∈ (ofText source).tokens, t.span.start < t.span.stop ∧
        ∃ front back, source = front ++ t.text ++ back ∧ front.utf8ByteSize = t.span.start ∧
          (front ++ t.text).utf8ByteSize = t.span.stop ∧
          t.position = Position.inText source t.span.start ∧
          t.position = ⟨1 + front.toList.count '\n', 1 + byteSize (front.toList.rtakeWhile (· ≠ '\n'))⟩ := by
  refine ⟨stop_ofText h, h ▸ tiles_ofText source, pairwise_ofText source, fun t ht => ?_⟩
  obtain ⟨hnonempty, front, back, hsource, hstart, hstop⟩ := standsIn_ofText source t ht
  have htext : source.toList = front.toList ++ (t.text.toList ++ back.toList) := by
    rw [hsource, String.toList_append, String.toList_append, List.append_assoc]
  have hbehind := Position.inText_eq htext
  rw [byteSize_toList, hstart] at hbehind
  have hposition : t.position = Position.inText source t.span.start := (tiles_ofText source).position_eq t ht
  exact ⟨hnonempty, front, back, hsource, hstart, hstop, hposition, hposition.trans hbehind⟩

/-- Tokens behind comments and characters of several bytes. -/
theorem tokens_tile_comments :
    let source := "/* é */ import // ü\n\t\"ß\";"
    (ofText source).ending = .endOfText 28 ∧
      (ofText source).tokens.map (fun t => (t.text, t.span, t.position)) =
        [("import", ⟨9, 15⟩, ⟨1, 10⟩), ("\"ß\"", ⟨23, 27⟩, ⟨2, 2⟩), (";", ⟨27, 28⟩, ⟨2, 6⟩)] ∧ 28 = source.utf8ByteSize :=
  ⟨by decide +kernel, by decide +kernel, (tokens_tile (by decide +kernel)).1⟩

end Scan

end ProtoSchema
