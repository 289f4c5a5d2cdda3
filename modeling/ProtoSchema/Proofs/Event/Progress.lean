import ProtoSchema.Event.OfTokens

/-! # Reading a text to its end

`Scan.Takes` and `Event.Takes` say how the scanner and the reader go through a text, one round of their
loops behind the other, with no bound for the number of rounds.  In each round the scanner takes a piece
of at least one byte and the reader at least one token, or the text is over or has a fault.  So there are
no more rounds than bytes and tokens (`Scan.Takes.length_le`, `Event.Takes.length_le`), and both come to
an end on every text (`Scan.exists_takes_iff`, `Event.exists_takes_iff`). -/

namespace ProtoSchema

/-! ### Scanning -/

namespace Scan

/-- The scanner takes pieces off the text `cs`, which begins at `offset`: blanks and comments, which it
skips, and tokens. -/
inductive Takes (lines : LineIndex) : Nat → List Char → List (List Char) → Scan → Prop
  | stop {offset} : Takes lines offset [] [] ⟨[], .endOfText offset⟩
  | fault {offset c cs f} (failed : Lexeme.read offset c cs = .error f) :
      Takes lines offset (c :: cs) [] ⟨[], .fault f⟩
  | skip {offset c cs n ps scan} (read : Lexeme.read offset c cs = .ok (none, n))
      (more : Takes lines (offset + byteSize (c :: cs.take n)) (cs.drop n) ps scan) :
      Takes lines offset (c :: cs) ((c :: cs.take n) :: ps) scan
  | token {offset c cs kind n ps scan} (read : Lexeme.read offset c cs = .ok (some kind, n))
      (more : Takes lines (offset + byteSize (c :: cs.take n)) (cs.drop n) ps scan) :
      Takes lines offset (c :: cs) ((c :: cs.take n) :: ps)
        { scan with tokens := ⟨kind, String.ofList (c :: cs.take n),
            ⟨offset, offset + byteSize (c :: cs.take n)⟩, lines.position offset⟩ :: scan.tokens }

variable {lines : LineIndex} {offset : Nat} {cs : List Char} {ps : List (List Char)} {scan : Scan}

/-- On every text the scanner comes to an end. -/
theorem exists_takes (lines : LineIndex) (offset : Nat) (cs : List Char) :
    ∃ ps, Takes lines offset cs ps (ofChars lines offset cs) := by
  fun_induction ofChars lines offset cs with
  | case1 => exact ⟨_, .stop⟩
  | case2 offset c cs f failed => exact ⟨_, .fault failed⟩
  | case3 offset c cs n text stop rest read ih =>
    obtain ⟨ps, more⟩ := ih
    exact ⟨_, .skip read more⟩
  | case4 offset c cs n text stop rest kind read ih =>
    obtain ⟨ps, more⟩ := ih
    exact ⟨_, .token read more⟩

theorem Takes.eq_ofChars (h : Takes lines offset cs ps scan) : ofChars lines offset cs = scan := by
  induction h with
  | stop =>
    unfold ofChars
    rfl
  | fault failed =>
    unfold ofChars
    rw [failed]
  | skip read more ih =>
    unfold ofChars
    rw [read]
    exact ih
  | token read more ih =>
    unfold ofChars
    rw [read]
    simp only [ih]

theorem exists_takes_iff : (∃ ps, Takes lines offset cs ps scan) ↔ ofChars lines offset cs = scan := by
  constructor
  · rintro ⟨ps, h⟩
    exact h.eq_ofChars
  · rintro rfl
    exact exists_takes lines offset cs

/-- The pieces stand behind each other at the front of the text, and none of them is empty. -/
theorem Takes.pieces (h : Takes lines offset cs ps scan) : ps.flatten <+: cs ∧ ∀ p ∈ ps, p ≠ [] := by
  have hcons : ∀ {c : Char} {cs : List Char} {n : Nat} {ps : List (List Char)},
      ps.flatten <+: cs.drop n ∧ (∀ p ∈ ps, p ≠ []) →
      ((c :: cs.take n) :: ps).flatten <+: c :: cs ∧ ∀ p ∈ (c :: cs.take n) :: ps, p ≠ [] := by
    rintro c cs n ps ⟨⟨more, hmore⟩, hps⟩
    refine ⟨⟨more, ?_⟩, List.forall_mem_cons.mpr ⟨List.cons_ne_nil _ _, hps⟩⟩
    rw [List.flatten_cons, List.append_assoc, hmore, List.cons_append, List.take_append_drop]
  induction h with
  | stop | fault => exact ⟨List.nil_prefix, List.forall_mem_nil _⟩
  | skip read more ih => exact hcons ih
  | token read more ih => exact hcons ih

theorem length_le_byteSize : ∀ ps : List (List Char), (∀ p ∈ ps, p ≠ []) → ps.length ≤ byteSize ps.flatten
  | [], _ => Nat.zero_le _
  | [] :: ps, h => absurd rfl (h [] (List.mem_cons_self ..))
  | (c :: cs) :: ps, h => by
    have ih := length_le_byteSize ps fun p hp => h p (List.mem_cons_of_mem _ hp)
    have := c.utf8Size_pos
    simp only [List.flatten_cons, byteSize_append, byteSize_cons, List.length_cons]
    omega

/-- There are no more tokens, comments and stretches of blanks than bytes. -/
theorem Takes.length_le (h : Takes lines offset cs ps scan) : ps.length ≤ byteSize cs := by
  obtain ⟨⟨rest, rfl⟩, hne⟩ := h.pieces
  rw [byteSize_append]
  exact Nat.le_add_right_of_le (length_le_byteSize ps hne)

end Scan

/-! ### Statements -/

namespace Event

/-- The reader takes tokens for one statement after the other, inside the frames that are open. -/
inductive Takes (e : Ending) : Frames → List Token → List (List Token) → List Event × Option Fault → Prop
  | stop {fs} : Takes e fs [] [] ([], endFault e fs)
  | fault {fs t rest f} (failed : (next fs t).run e rest = .error f) : Takes e fs (t :: rest) [] ([], some f)
  | step {fs t taken rest event? fs' us read}
      (first : (next fs t).run e (taken ++ rest) = .ok ((event?, fs'), rest))
      (more : Takes e fs' rest us read) :
      Takes e fs (t :: (taken ++ rest)) ((t :: taken) :: us) (event?.toList ++ read.1, read.2)

variable {e : Ending} {fs : Frames} {ts : List Token} {us : List (List Token)}
  {read : List Event × Option Fault}

/-- On all tokens the reader comes to an end. -/
theorem exists_takes (e : Ending) (fs : Frames) (ts : List Token) :
    ∃ us, Takes e fs ts us (ofTokens e fs ts) := by
  fun_induction ofTokens e fs ts with
  | case1 => exact ⟨_, .stop⟩
  | case2 fs t rest fault failed => exact ⟨_, .fault failed⟩
  | case3 fs t rest event? fs' rest' first hlen more ih =>
    obtain ⟨us, hmore⟩ := ih
    obtain ⟨taken, rfl⟩ := (next fs t).suffix first
    exact ⟨_, .step first hmore⟩

theorem Takes.eq_ofTokens (h : Takes e fs ts us read) : ofTokens e fs ts = read := by
  induction h with
  | stop =>
    unfold ofTokens
    rfl
  | fault failed =>
    unfold ofTokens
    split
    · next hr => rw [← Except.error.inj (failed.symm.trans hr)]
    · next hr => cases failed.symm.trans hr
  | step first more ih =>
    unfold ofTokens
    split
    · next hr => cases first.symm.trans hr
    · next hr =>
      cases first.symm.trans hr
      simp only [ih]

theorem exists_takes_iff : (∃ us, Takes e fs ts us read) ↔ ofTokens e fs ts = read := by
  constructor
  · rintro ⟨us, h⟩
    exact h.eq_ofTokens
  · rintro rfl
    exact exists_takes e fs ts

/-- What the rounds take stands behind each other at the front of the tokens, and no round takes nothing. -/
theorem Takes.rounds (h : Takes e fs ts us read) : us.flatten <+: ts ∧ ∀ u ∈ us, u ≠ [] := by
  induction h with
  | stop | fault => exact ⟨List.nil_prefix, List.forall_mem_nil _⟩
  | step first more ih =>
    obtain ⟨hfront, hne⟩ := ih
    refine ⟨?_, List.forall_mem_cons.mpr ⟨List.cons_ne_nil _ _, hne⟩⟩
    rw [List.flatten_cons, List.cons_append]
    exact List.cons_prefix_cons.mpr ⟨rfl, (List.prefix_append_right_inj _).mpr hfront⟩

/-- There are no more rounds than tokens. -/
theorem Takes.length_le (h : Takes e fs ts us read) : us.length ≤ ts.length := by
  induction h with
  | stop | fault => exact Nat.zero_le _
  | step first more ih =>
    simp only [List.length_cons, List.length_append]
    omega

/-- The scanner goes through a text, and the reader through its tokens. -/
def TakesText (text : String) (read : List Event × Option Fault) : Prop :=
  ∃ ps scan us, Scan.Takes (.ofText text) 0 text.toList ps scan ∧ Takes scan.ending [] scan.tokens us read

theorem takesText_iff {text : String} : TakesText text read ↔ ofText text = read := by
  constructor
  · rintro ⟨ps, scan, us, hscan, hread⟩
    rw [ofText, Scan.ofText, hscan.eq_ofChars]
    exact hread.eq_ofTokens
  · rintro rfl
    obtain ⟨ps, hscan⟩ := Scan.exists_takes (.ofText text) 0 text.toList
    obtain ⟨us, hread⟩ := exists_takes (Scan.ofText text).ending [] (Scan.ofText text).tokens
    exact ⟨ps, _, us, hscan, hread⟩

end Event

end ProtoSchema
