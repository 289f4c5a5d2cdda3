import ProtoSchema.Token.Lexer

/-! # Scanning on demand

A `Scanner` reads a text token by token.  Tokens that were looked at and not yet taken wait in a
queue; behind the queue the text is still unread.  Looking ahead fills the queue just far enough,
so a fault in the text shows only when a token at or behind it is asked for.  Behind the last token
an entry for the end of the text goes into the queue and stays there, as it cannot be taken; from
then on nothing more is read. -/

namespace ProtoSchema

/-- What a scanner finds in a text: a token, or the end with its place. -/
inductive Scanner.Entry where
  | token (t : Token)
  | endOfText (span : Span) (position : Position)
deriving DecidableEq, Repr

namespace Scanner.Entry

def isEnd : Entry → Bool
  | token _ => false
  | endOfText .. => true

def token? : Entry → Option Token
  | token t => some t
  | endOfText .. => none

/-- The end of a text with these lines. -/
def endAt (lines : LineIndex) (offset : Nat) : Entry :=
  endOfText ⟨offset, offset⟩ (lines.position offset)

end Scanner.Entry

/-- A text that is read as far as it was looked at. -/
structure Scanner where
  lines : LineIndex
  /-- What is read and not yet taken. -/
  queue : List Scanner.Entry
  /-- Was the end of the text found? -/
  done : Bool
  /-- The offset of the unread text. -/
  offset : Nat
  /-- The unread text. -/
  unread : List Char
  /-- Once it is found, the end stays in the queue. -/
  stays : done = true → queue.any Scanner.Entry.isEnd = true
deriving Repr

namespace Scanner

def ofText (source : String) : Scanner where
  lines := .ofText source
  queue := []
  done := false
  offset := 0
  unread := source.toList
  stays h := Bool.noConfusion h

/-- The first token of the text `cs`, which begins at `offset`, with the offset and the text behind
it; none at the end of the text. -/
def nextToken (lines : LineIndex) (offset : Nat) (cs : List Char) :
    Except Fault (Option Token × Nat × List Char) :=
  match cs with
  | [] => .ok (none, offset, [])
  | c :: cs =>
    match Lexeme.read offset c cs with
    | .error f => .error f
    | .ok (kind?, n) =>
      let text := c :: cs.take n
      let stop := offset + byteSize text
      match kind? with
      | none => nextToken lines stop (cs.drop n)
      | some kind =>
        .ok (some ⟨kind, String.ofList text, ⟨offset, stop⟩, lines.position offset⟩, stop, cs.drop n)
termination_by cs.length
decreasing_by all_goals simp only [List.length_drop, List.length_cons]; omega

/-- Reads into the queue until it has a place `n` or holds the end of the text. -/
def fill (s : Scanner) (n : Nat) : Scanner × Option Fault :=
  if s.queue.length ≤ n ∧ s.done = false then
    match nextToken s.lines s.offset s.unread with
    | .error f => (s, some f)
    | .ok (none, offset, unread) =>
      let queue := s.queue ++ [Entry.endAt s.lines offset]
      fill ⟨s.lines, queue, true, offset, unread, fun _ => by simp [queue, Entry.endAt, Entry.isEnd]⟩ n
    | .ok (some t, offset, unread) =>
      let queue := s.queue ++ [Entry.token t]
      fill ⟨s.lines, queue, s.done, offset, unread, fun h => by simp [queue, s.stays h]⟩ n
  else (s, none)
termination_by n + 1 - s.queue.length
decreasing_by all_goals simp only [List.length_append, List.length_singleton]; omega

/-- A queue that is filled without a fault is not empty. -/
theorem queue_ne_nil {s s' : Scanner} {n : Nat} (h : s.fill n = (s', none)) : s'.queue ≠ [] := by
  fun_induction fill s n with
  | case1 => cases h
  | case2 s hroom offset unread hnext queue ih => exact ih h
  | case3 s hroom t offset unread hnext queue ih => exact ih h
  | case4 s hfilled =>
    obtain ⟨rfl, -⟩ := Prod.mk.inj h
    intro hqueue
    have hdone : s.done = true := by
      simpa [hqueue] using hfilled
    simpa [hqueue] using s.stays hdone

/-- The entry `n` places ahead, or the last one, the end of the text, if there are fewer. -/
def peekEntry (s : Scanner) (n : Nat) : Scanner × Except Fault Entry :=
  match h : s.fill n with
  | (s, some f) => (s, .error f)
  | (s, none) =>
    have := List.length_pos_iff.mpr (queue_ne_nil h)
    (s, .ok (s.queue.get ⟨min n (s.queue.length - 1), by omega⟩))

/-- The token `n` places ahead, if there is one in front of the end of the text. -/
def peek (s : Scanner) (n : Nat) : Scanner × Except Fault (Option Token) :=
  (s.peekEntry n).map id (Except.map Entry.token?)

/-- Takes the next token; the end of the text cannot be taken and goes back to the front. -/
def pop (s : Scanner) : Scanner × Except Fault Token :=
  match h : s.fill 0 with
  | (s, some f) => (s, .error f)
  | (s, none) =>
    match hqueue : s.queue with
    | .token t :: queue =>
      ({ s with queue, stays := fun hd => by simpa [hqueue, Entry.isEnd] using s.stays hd }, .ok t)
    | .endOfText span position :: queue =>
      ({ s with queue := .endOfText span position :: queue, stays := fun hd => hqueue ▸ s.stays hd },
        .error (.unexpectedEnd .input "another token" span))
    | [] => absurd hqueue (queue_ne_nil h)

end Scanner

end ProtoSchema
