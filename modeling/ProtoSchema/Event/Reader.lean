import ProtoSchema.Token.Lexer

/-! # Readers of tokens

A `Reader` takes a value off the front of a list of tokens or fails with a fault.  It is given how
the tokens end: where the text ends there is nothing more to take, and where a fault of the scan
ends them, that fault is met by whoever looks at the next token.  What a reader leaves is a final
part of what it was given; this is part of the type, so that loops over readers end. -/

namespace ProtoSchema

/-- A way to read a value off the front of some tokens. -/
structure Reader (α : Type) where
  run : Ending → List Token → Except Fault (α × List Token)
  /-- A reader takes tokens off the front only. -/
  suffix : ∀ {e ts a rest}, run e ts = .ok (a, rest) → rest <:+ ts

namespace Reader

variable {α β : Type}

protected def pure (a : α) : Reader α where
  run _ ts := .ok (a, ts)
  suffix := by
    rintro e ts a rest h
    cases h
    exact List.suffix_refl _

protected def bind (p : Reader α) (f : α → Reader β) : Reader β where
  run e ts :=
    match p.run e ts with
    | .ok (a, rest) => (f a).run e rest
    | .error fault => .error fault
  suffix := by
    intro e ts b rest h
    split at h
    · next a rest' hp => exact ((f a).suffix h).trans (p.suffix hp)
    · cases h

instance : Monad Reader where
  pure := Reader.pure
  bind := Reader.bind

@[simp] theorem run_pure (a : α) (e : Ending) (ts : List Token) :
    (pure a : Reader α).run e ts = .ok (a, ts) := rfl

@[simp] theorem run_bind (p : Reader α) (f : α → Reader β) (e : Ending) (ts : List Token) :
    (p >>= f).run e ts =
      match p.run e ts with
      | .ok (a, rest) => (f a).run e rest
      | .error fault => .error fault := rfl

/-- Fails. -/
def fail (fault : Fault) : Reader α where
  run _ _ := .error fault
  suffix := by intro e ts a rest h; cases h

/-- The fault of a token that is not what is expected. -/
def unexpectedToken (construct : Construct) (expected : String) (t : Token) : Fault :=
  .unexpectedToken construct expected t.text t.span

/-- The fault of tokens that end before what is expected. -/
def unexpectedEnding (construct : Construct) (expected : String) : Ending → Fault
  | .endOfText offset => .unexpectedEnd construct expected ⟨offset, offset⟩
  | .fault f => f

/-- Takes the next token, which must be one that `f` accepts. -/
def take (construct : Construct) (expected : String) (f : Token → Option α) : Reader α where
  run e
    | [] => .error (unexpectedEnding construct expected e)
    | t :: rest =>
      match f t with
      | some a => .ok (a, rest)
      | none => .error (unexpectedToken construct expected t)
  suffix := by
    intro e ts a rest h
    split at h
    · cases h
    · split at h
      · cases h
        exact List.suffix_cons _ _
      · cases h

/-- Takes the next token if `f` accepts it. -/
def take? (f : Token → Option α) : Reader (Option α) where
  run e
    | [] =>
      match e with
      | .endOfText _ => .ok (none, [])
      | .fault fault => .error fault
    | t :: rest =>
      match f t with
      | some a => .ok (some a, rest)
      | none => .ok (none, t :: rest)
  suffix := by
    intro e ts a rest h
    split at h
    · split at h <;> cases h
      exact List.suffix_refl _
    · split at h <;> cases h
      · exact List.suffix_cons _ _
      · exact List.suffix_refl _

/-- Fails if the next token has a fault by `f`, and takes nothing. -/
def refuse (f : Token → Option Fault) : Reader Unit where
  run
    | _, [] => .ok ((), [])
    | _, t :: rest =>
      match f t with
      | some fault => .error fault
      | none => .ok ((), t :: rest)
  suffix := by
    intro e ts a rest h
    split at h
    · cases h
      exact List.suffix_refl _
    · split at h <;> cases h
      exact List.suffix_refl _

/-- The punctuation mark `p`, as a token to accept. -/
def isPunct (p : Punct) (t : Token) : Option Span :=
  if t.kind = .punct p then some t.span else none

def isKeyword (k : Keyword) (t : Token) : Option Span :=
  if t.kind = .keyword k then some t.span else none

/-- A punctuation mark as messages show it. -/
def punctText (p : Punct) : String := "'" ++ p.text ++ "'"

def punct (construct : Construct) (p : Punct) : Reader Span :=
  take construct (punctText p) (isPunct p)

def punct? (p : Punct) : Reader Bool := do
  return (← take? (isPunct p)).isSome

/-- Takes what `p` reads as often as the mark `m` stands in front of it: `(m p)*`. -/
def repeatRun (m : Punct) (p : Reader α) (e : Ending) (ts : List Token) :
    Except Fault (List α × List Token) :=
  match ts with
  | [] =>
    match e with
    | .endOfText _ => .ok ([], [])
    | .fault fault => .error fault
  | t :: rest =>
    if t.kind = .punct m then
      match h : p.run e rest with
      | .error fault => .error fault
      | .ok (a, rest') =>
        have : rest'.length ≤ rest.length := (p.suffix h).length_le
        match repeatRun m p e rest' with
        | .error fault => .error fault
        | .ok (as, rest'') => .ok (a :: as, rest'')
    else .ok ([], t :: rest)
termination_by ts.length
decreasing_by simp only [List.length_cons]; omega

theorem repeatRun_suffix {m : Punct} {p : Reader α} {e : Ending} {ts : List Token} {as : List α}
    {rest : List Token} (h : repeatRun m p e ts = .ok (as, rest)) : rest <:+ ts := by
  fun_induction repeatRun m p e ts generalizing as rest with
  | case1 => cases h; exact List.suffix_refl _
  | case2 => cases h
  | case3 => cases h
  | case4 => cases h
  | case5 t rest₀ _ a rest₁ h₁ _ as₁ rest₂ h₂ ih =>
    cases h
    exact ((ih h₂).trans (p.suffix h₁)).trans (List.suffix_cons _ _)
  | case6 => cases h; exact List.suffix_refl _

/-- Takes `(m p)*`. -/
def repeatAfter (m : Punct) (p : Reader α) : Reader (List α) where
  run := repeatRun m p
  suffix := repeatRun_suffix

end Reader

end ProtoSchema
