import ProtoSchema.Proofs.Token.Faults
import ProtoSchema.Token.Scanner

/-! # Looking ahead

A scanner reads tokens into its queue as they are asked for, and the end of the text behind them.  What it
answers does not depend on how far it has read: looking ahead and taking tokens, in any order, is reading
the list of all tokens of the text with a cursor (`Scanner.lookahead_unobservable`).  The queue in front of
what the unread text still scans to, or the queue up to the end of the text in it, is what stands behind
the cursor (`Scanner.Awaits`), and filling the queue keeps that (`Scanner.Fills`). -/

namespace ProtoSchema

namespace Scanner

/-- What may be asked of a scanner: to look at the entry some places ahead, or to take the next token. -/
inductive Request where
  | peek (n : Nat)
  | pop
deriving DecidableEq, Repr

/-- What is answered: a token or the end of the text, each with its place, or a fault. -/
inductive Reply where
  | entry (e : Entry)
  | fault (f : Fault)
deriving DecidableEq, Repr

/-- After a fault of the scanner itself nothing more is asked. -/
def Reply.isLast : Reply → Bool
  | fault f => f.isLexical
  | _ => false

/-- There is no token to be taken at the end of the text. -/
def endFault (span : Span) : Fault := .unexpectedEnd .input "another token" span

def answer (s : Scanner) : Request → Scanner × Reply
  | .peek n =>
    match s.peekEntry n with
    | (s, .ok e) => (s, .entry e)
    | (s, .error f) => (s, .fault f)
  | .pop =>
    match s.pop with
    | (s, .ok t) => (s, .entry (.token t))
    | (s, .error f) => (s, .fault f)

/-- The replies to a script of requests, up to the first fault of the scanner itself. -/
def replies (s : Scanner) : List Request → List Reply
  | [] => []
  | r :: script =>
    let (s, reply) := s.answer r
    reply :: if reply.isLast then [] else s.replies script

end Scanner

namespace Scan

open Scanner (Entry Request Reply endFault)

/-- The token at a place of the list, or how the list ends if the place is behind it. -/
def reply (lines : LineIndex) (scan : Scan) (place : Nat) : Reply :=
  match scan.tokens[place]? with
  | some t => .entry (.token t)
  | none =>
    match scan.ending with
    | .endOfText offset => .entry (.endAt lines offset)
    | .fault f => .fault f

/-- Looking ahead leaves the cursor alone, and so does taking a token where there is none. -/
def answer (lines : LineIndex) (scan : Scan) (cursor : Nat) : Request → Nat × Reply
  | .peek n => (cursor, scan.reply lines (cursor + n))
  | .pop =>
    match scan.reply lines cursor with
    | .entry (.token t) => (cursor + 1, .entry (.token t))
    | .entry (.endOfText span _) => (cursor, .fault (endFault span))
    | .fault f => (cursor, .fault f)

/-- The replies to a script of requests by reading the list, up to the first fault of the scanner. -/
def replies (lines : LineIndex) (scan : Scan) (cursor : Nat) : List Request → List Reply
  | [] => []
  | r :: script =>
    let (cursor, reply) := scan.answer lines cursor r
    reply :: if reply.isLast then [] else scan.replies lines cursor script

/-- What is behind the cursor. -/
def behind (scan : Scan) (cursor : Nat) : Scan := ⟨scan.tokens.drop cursor, scan.ending⟩

variable {lines : LineIndex} {scan : Scan}

theorem reply_behind (scan : Scan) (cursor n : Nat) :
    (scan.behind cursor).reply lines n = scan.reply lines (cursor + n) := by
  simp [reply, behind]

/-- Taking a token with the cursor is taking it from what is behind the cursor. -/
theorem answer_behind (lines : LineIndex) (scan : Scan) (cursor : Nat) :
    (scan.behind cursor).behind ((scan.behind cursor).answer lines 0 .pop).1 =
        scan.behind (scan.answer lines cursor .pop).1 ∧
      ((scan.behind cursor).answer lines 0 .pop).2 = (scan.answer lines cursor .pop).2 := by
  have hreply : (scan.behind cursor).reply lines 0 = scan.reply lines cursor := scan.reply_behind cursor 0
  simp only [answer]
  rw [hreply]
  split <;> simp [behind]

/-- The list shows a fault at the places behind its tokens, if it ends in that fault. -/
theorem reply_eq_fault_iff {place : Nat} {f : Fault} :
    scan.reply lines place = .fault f ↔ scan.tokens.length ≤ place ∧ scan.ending = .fault f := by
  unfold reply
  by_cases hplace : place < scan.tokens.length
  · rw [List.getElem?_eq_getElem hplace]
    simp only [reduceCtorEq, false_iff, not_and]
    omega
  · have hle : scan.tokens.length ≤ place := by omega
    rw [List.getElem?_eq_none hle]
    cases scan.ending with
    | endOfText => simp
    | fault g => simp [hle]

end Scan

namespace Scanner

variable {lines : LineIndex} {scan : Scan} {s s' : Scanner} {n : Nat} {fault? : Option Fault}

/-- The scanner has still to hand out what `scan` lists: the tokens in its queue and then what the unread
text scans to, or, once the end of the text is found, the tokens that stand in front of it. -/
inductive Awaits (lines : LineIndex) (s : Scanner) (scan : Scan) : Prop
  | reading {tokens} (same : s.lines = lines) (more : s.done = false) (queue : s.queue = tokens.map .token)
      (tokens_eq : scan.tokens = tokens ++ (Scan.ofChars lines s.offset s.unread).tokens)
      (ending_eq : scan.ending = (Scan.ofChars lines s.offset s.unread).ending)
  | done {stop} (same : s.lines = lines) (found : s.done = true)
      (queue : s.queue = scan.tokens.map .token ++ [.endAt lines stop])
      (ending_eq : scan.ending = .endOfText stop)

theorem awaits_ofText (source : String) : Awaits (.ofText source) (ofText source) (Scan.ofText source) :=
  .reading rfl rfl (List.map_nil).symm rfl rfl

/-- The next token is the first one that the text scans to. -/
theorem ofChars_eq (lines : LineIndex) (offset : Nat) (cs : List Char) :
    Scan.ofChars lines offset cs =
      match nextToken lines offset cs with
      | .error f => ⟨[], .fault f⟩
      | .ok (none, stop, _) => ⟨[], .endOfText stop⟩
      | .ok (some t, stop, rest) =>
        { Scan.ofChars lines stop rest with tokens := t :: (Scan.ofChars lines stop rest).tokens } := by
  fun_induction nextToken lines offset cs with
  | case1 => simp [Scan.ofChars]
  | case2 offset c cs f failed =>
    unfold Scan.ofChars
    rw [failed]
  | case3 offset c cs n text stop read ih =>
    rw [Scan.ofChars_skip read]
    exact ih
  | case4 offset c cs n text stop kind read =>
    conv_lhs => unfold Scan.ofChars
    rw [read]

/-! ### One round of filling the queue -/

section rounds
variable {stop : Nat} {unread : List Char}

/-- Until the end of the text is found, the queue holds the tokens in front of the unread text. -/
theorem Awaits.of_more (h : Awaits lines s scan) (more : s.done = false) :
    s.lines = lines ∧ ∃ tokens, s.queue = tokens.map .token ∧
      scan.tokens = tokens ++ (Scan.ofChars s.lines s.offset s.unread).tokens ∧
      scan.ending = (Scan.ofChars s.lines s.offset s.unread).ending := by
  cases h with
  | reading same _ queue tokens_eq ending_eq =>
    subst same
    exact ⟨rfl, _, queue, tokens_eq, ending_eq⟩
  | done _ found => exact absurd (more.symm.trans found) Bool.false_ne_true

/-- A fault that is found is the one behind the tokens of the queue. -/
theorem Awaits.of_error {f : Fault} (h : Awaits lines s scan) (more : s.done = false)
    (hnext : nextToken s.lines s.offset s.unread = .error f) :
    scan.tokens.length = s.queue.length ∧ scan.ending = .fault f := by
  obtain ⟨-, tokens, queue, tokens_eq, ending_eq⟩ := h.of_more more
  rw [ofChars_eq, hnext] at tokens_eq ending_eq
  rw [queue, tokens_eq, List.append_nil, List.length_map]
  exact ⟨rfl, ending_eq⟩

/-- When the end of the text is found, all tokens are in the queue. -/
theorem Awaits.of_end (h : Awaits lines s scan) (more : s.done = false)
    (hnext : nextToken s.lines s.offset s.unread = .ok (none, stop, unread)) {stays} :
    Awaits lines ⟨s.lines, s.queue ++ [.endAt s.lines stop], true, stop, unread, stays⟩ scan := by
  obtain ⟨rfl, tokens, queue, tokens_eq, ending_eq⟩ := h.of_more more
  rw [ofChars_eq, hnext] at tokens_eq ending_eq
  have hqueue : s.queue = scan.tokens.map .token := by
    rw [queue, tokens_eq, List.append_nil]
  exact .done rfl rfl (congrArg (· ++ _) hqueue) ending_eq

/-- A token that is found was the first one of the unread text. -/
theorem Awaits.of_token {t : Token} (h : Awaits lines s scan) (more : s.done = false)
    (hnext : nextToken s.lines s.offset s.unread = .ok (some t, stop, unread)) {stays} :
    Awaits lines ⟨s.lines, s.queue ++ [.token t], s.done, stop, unread, stays⟩ scan := by
  obtain ⟨rfl, tokens, queue, tokens_eq, ending_eq⟩ := h.of_more more
  rw [ofChars_eq, hnext] at tokens_eq ending_eq
  have hqueue : s.queue ++ [.token t] = (tokens ++ [t]).map .token := by
    rw [queue, List.map_append, List.map_singleton]
  refine .reading rfl more hqueue ?_ ending_eq
  rw [tokens_eq, List.append_assoc, List.singleton_append]

end rounds

/-! ### Filling the queue -/

/-- What filling the queue does: what the scanner has still to hand out stays the same.  The queue has the
place that was asked for, or the end of the text in it, or the fault that was found is the one behind the
tokens and they do not reach that place. -/
structure Fills (lines : LineIndex) (scan : Scan) (n : Nat) (s' : Scanner) (fault? : Option Fault) : Prop where
  awaits : Awaits lines s' scan
  enough : fault? = none → s'.done = false → n < s'.queue.length
  fault : ∀ f, fault? = some f → scan.tokens.length ≤ n ∧ scan.ending = .fault f

theorem fills_fill (s : Scanner) (n : Nat) :
    Awaits lines s scan → Fills lines scan n (s.fill n).1 (s.fill n).2 := by
  fun_induction fill s n with
  | case1 s hroom f hnext =>
    intro h
    obtain ⟨hlength, hending⟩ := h.of_error hroom.2 hnext
    refine ⟨h, by simp, fun g hg => ?_⟩
    cases hg
    exact ⟨hlength.trans_le hroom.1, hending⟩
  | case2 s hroom stop unread hnext queue ih => exact fun h => ih (h.of_end hroom.2 hnext)
  | case3 s hroom t stop unread hnext queue ih => exact fun h => ih (h.of_token hroom.2 hnext)
  | case4 s hfilled =>
    refine fun h => ⟨h, fun _ more => ?_, by simp⟩
    by_contra hplace
    exact hfilled ⟨Nat.not_lt.mp hplace, more⟩

/-- The entry that a filled queue shows for a place is what the list has there. -/
theorem Fills.reply_eq (h : Fills lines scan n s' none) {e : Entry}
    (he : s'.queue[min n (s'.queue.length - 1)]? = some e) : scan.reply lines n = .entry e := by
  obtain ⟨hawaits, henough, -⟩ := h
  cases hawaits with
  | @reading tokens same more queue tokens_eq ending_eq =>
    have hplace := henough rfl more
    have hmin : min n (s'.queue.length - 1) = n := by omega
    rw [hmin, queue, List.getElem?_map] at he
    obtain ⟨t, ht, rfl⟩ := Option.map_eq_some_iff.mp he
    have htokens : scan.tokens[n]? = some t := by
      rw [tokens_eq, List.getElem?_append_left (List.getElem?_eq_some_iff.mp ht).1, ht]
    rw [Scan.reply, htokens]
  | @done stop same found queue ending_eq =>
    have hlength : s'.queue.length - 1 = scan.tokens.length := by simp [queue]
    rw [hlength, queue] at he
    by_cases hn : n < scan.tokens.length
    · rw [min_eq_left hn.le, List.getElem?_append_left (by simpa using hn), List.getElem?_map] at he
      obtain ⟨t, ht, rfl⟩ := Option.map_eq_some_iff.mp he
      rw [Scan.reply, ht]
    · have hle : scan.tokens.length ≤ n := by omega
      rw [min_eq_right hle, List.getElem?_append_right (by simp)] at he
      simp only [List.length_map, Nat.sub_self, List.getElem?_cons_zero, Option.some.injEq] at he
      subst he
      rw [Scan.reply, List.getElem?_eq_none hle, ending_eq]

theorem Fills.reply_eq_fault {f : Fault} (h : Fills lines scan n s' (some f)) :
    scan.reply lines n = .fault f :=
  Scan.reply_eq_fault_iff.mpr (h.fault f rfl)

/-! ### Requests -/

theorem peekEntry_of_error {f : Fault} (h : s.fill n = (s', some f)) : s.peekEntry n = (s', .error f) := by
  unfold peekEntry
  split
  · next hfill =>
    cases h.symm.trans hfill
    rfl
  · next hfill => cases h.symm.trans hfill

theorem peekEntry_of_filled (h : s.fill n = (s', none)) :
    ∃ e, s'.queue[min n (s'.queue.length - 1)]? = some e ∧ s.peekEntry n = (s', .ok e) := by
  unfold peekEntry
  split
  · next hfill => cases h.symm.trans hfill
  · next hfill =>
    cases h.symm.trans hfill
    exact ⟨_, List.getElem?_eq_getElem _, rfl⟩

theorem pop_of_error {f : Fault} (h : s.fill 0 = (s', some f)) : s.pop = (s', .error f) := by
  unfold pop
  split
  · next hfill =>
    cases h.symm.trans hfill
    rfl
  · next hfill => cases h.symm.trans hfill

/-- A token at the front is taken off the queue. -/
theorem pop_of_token {t : Token} {queue : List Entry} (h : s.fill 0 = (s', none))
    (hqueue : s'.queue = .token t :: queue) :
    ∃ stays, s.pop = (⟨s'.lines, queue, s'.done, s'.offset, s'.unread, stays⟩, .ok t) := by
  unfold pop
  split
  · next hfill => cases h.symm.trans hfill
  · next hfill =>
    cases h.symm.trans hfill
    split <;> rename_i hfront <;> cases hqueue.symm.trans hfront
    exact ⟨fun hdone => by simpa [hqueue, Entry.isEnd] using s'.stays hdone, rfl⟩

/-- The end of the text at the front stays there. -/
theorem pop_of_end {span : Span} {position : Position} {queue : List Entry} (h : s.fill 0 = (s', none))
    (hqueue : s'.queue = .endOfText span position :: queue) : s.pop = (s', .error (endFault span)) := by
  unfold pop
  split
  · next hfill => cases h.symm.trans hfill
  · next hfill =>
    cases h.symm.trans hfill
    split <;> rename_i hfront <;> cases hqueue.symm.trans hfront
    cases s'
    cases hqueue
    rfl

/-- Looking ahead is looking into the list of what is not yet handed out, which stays as it is. -/
theorem answer_peek (h : Awaits lines s scan) (n : Nat) :
    Awaits lines (s.answer (.peek n)).1 scan ∧ (s.answer (.peek n)).2 = scan.reply lines n := by
  have hfills := fills_fill s n h
  simp only [answer]
  generalize hfill : s.fill n = filled at hfills
  obtain ⟨s', _ | f⟩ := filled
  · obtain ⟨e, he, hpeek⟩ := peekEntry_of_filled hfill
    rw [hpeek]
    exact ⟨hfills.awaits, (hfills.reply_eq he).symm⟩
  · rw [peekEntry_of_error hfill]
    exact ⟨hfills.awaits, hfills.reply_eq_fault.symm⟩

/-- A scanner without the token at the front of its queue has still to hand out the others. -/
theorem Awaits.of_front {t : Token} {queue : List Entry} (h : Awaits lines s scan)
    (hqueue : s.queue = .token t :: queue) {stays} :
    Awaits lines ⟨s.lines, queue, s.done, s.offset, s.unread, stays⟩ (scan.behind 1) := by
  cases h with
  | @reading tokens same more queue_eq tokens_eq ending_eq =>
    rw [hqueue] at queue_eq
    obtain ⟨u, us, rfl, -, rfl⟩ := List.map_eq_cons_iff.mp queue_eq.symm
    refine .reading same more rfl ?_ ending_eq
    rw [Scan.behind, tokens_eq, List.cons_append, List.drop_one, List.tail_cons]
  | @done stop same found queue_eq ending_eq =>
    rw [hqueue] at queue_eq
    cases htokens : scan.tokens with
    | nil =>
      rw [htokens] at queue_eq
      cases (List.cons.inj queue_eq).1
    | cons u us =>
      rw [htokens] at queue_eq
      refine .done same found ?_ ending_eq
      rw [Scan.behind, htokens]
      exact (List.cons.inj queue_eq).2

/-- Taking a token hands out the first one of the list, if there is one. -/
theorem answer_pop (h : Awaits lines s scan) :
    Awaits lines (s.answer .pop).1 (scan.behind (scan.answer lines 0 .pop).1) ∧
      (s.answer .pop).2 = (scan.answer lines 0 .pop).2 := by
  have hfills := fills_fill s 0 h
  simp only [answer, Scan.answer]
  generalize hfill : s.fill 0 = filled at hfills
  obtain ⟨s', _ | f⟩ := filled
  · cases hqueue : s'.queue with
    | nil => exact absurd hqueue (queue_ne_nil hfill)
    | cons e queue =>
      have hreply := hfills.reply_eq (e := e) (by simp [hqueue])
      cases e with
      | token t =>
        obtain ⟨stays, hpop⟩ := pop_of_token hfill hqueue
        rw [hpop, hreply]
        exact ⟨hfills.awaits.of_front hqueue, rfl⟩
      | endOfText span position =>
        rw [pop_of_end hfill hqueue, hreply]
        exact ⟨hfills.awaits, rfl⟩
  · rw [pop_of_error hfill, hfills.reply_eq_fault]
    exact ⟨hfills.awaits, rfl⟩

/-- One request: if the scanner has handed out what is in front of the cursor, it answers as the list
does and has then handed out what is in front of the cursor. -/
theorem answer_eq {cursor : Nat} (h : Awaits lines s (scan.behind cursor)) (r : Request) :
    Awaits lines (s.answer r).1 (scan.behind (scan.answer lines cursor r).1) ∧
      (s.answer r).2 = (scan.answer lines cursor r).2 := by
  cases r with
  | peek n =>
    obtain ⟨hawaits, hreply⟩ := answer_peek h n
    rw [Scan.reply_behind] at hreply
    exact ⟨hawaits, hreply⟩
  | pop =>
    obtain ⟨hawaits, hreply⟩ := answer_pop h
    obtain ⟨hcursor, hsame⟩ := Scan.answer_behind lines scan cursor
    exact ⟨hcursor ▸ hawaits, hreply.trans hsame⟩

/-- A script of requests, from any cursor on. -/
theorem replies_eq (script : List Request) : ∀ (s : Scanner) (cursor : Nat),
    Awaits lines s (scan.behind cursor) → s.replies script = scan.replies lines cursor script := by
  induction script with
  | nil => exact fun _ _ _ => rfl
  | cons r script ih =>
    intro s cursor h
    obtain ⟨hawaits, hreply⟩ := answer_eq h r
    simp only [replies, Scan.replies]
    rw [hreply, ih _ _ hawaits]

/-- Looking ahead is unobservable: up to the first fault of the scanner, the replies to every script of
requests are those of the list of all tokens, read with a cursor.  The list ends behind the last byte of
the text or in a fault of the scanner, which shows at exactly the places behind all tokens. -/
theorem lookahead_unobservable (source : String) (script : List Request) :
    let lines := LineIndex.ofText source
    (ofText source).replies script = (Scan.ofText source).replies lines 0 script ∧
      Scan.EndsWithin source (Scan.ofText source).ending ∧
      ∀ place f, (Scan.ofText source).reply lines place = .fault f ↔
        (Scan.ofText source).tokens.length ≤ place ∧ (Scan.ofText source).ending = .fault f := by
  refine ⟨?_, Scan.endsWithin_ofText source, fun place f => Scan.reply_eq_fault_iff⟩
  exact replies_eq script (ofText source) 0 (awaits_ofText source)

/-- A token behind the end of the text is asked for, then the only token and one more. -/
example : (ofText "\na").replies [.peek 2, .pop, .pop, .peek 0] =
    [.entry (.endOfText ⟨2, 2⟩ ⟨2, 2⟩), .entry (.token ⟨.ident, "a", ⟨1, 2⟩, ⟨2, 1⟩⟩),
      .fault (endFault ⟨2, 2⟩), .entry (.endOfText ⟨2, 2⟩ ⟨2, 2⟩)] := by
  decide +kernel

end Scanner

end ProtoSchema
