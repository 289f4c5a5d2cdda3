import ProtoSchema.Number.Shortest
import ProtoSchema.Fault

/-! # Tokens

A token has a kind, its text and its place: a span, and the line and column where that begins.
Words are classified by themselves, wherever they stand: truth values, keywords, specifiers (the
labels and `map`) and scalar type names are reserved, every other word is an identifier.  A scanned
text ends in an `Ending`: the offset of its end, or the fault that stopped the scan. -/

namespace ProtoSchema

/-- The words that may begin a field: a label, or the mark of a map field. -/
inductive Specifier where
  | label (l : Label)
  | map
deriving DecidableEq, Repr, Inhabited

def Specifier.name : Specifier → String
  | label l => l.name
  | map => "map"

namespace Token

/-- What a token is, with the value of a literal. -/
inductive Kind where
  | keyword (k : Keyword)
  | ident
  | scalar (s : Scalar)
  | specifier (s : Specifier)
  | int (value : Nat)
  | float (value : Binary64)
  | string (value : String)
  | bool (value : Bool)
  | punct (p : Punct)
deriving DecidableEq, Repr, Inhabited

namespace Kind

/-- The kind of a word.  The sets of reserved words are disjoint. -/
def ofWord (word : String) : Kind :=
  if word = "true" then bool true
  else if word = "false" then bool false
  else if word = "map" then specifier .map
  else
    match Keyword.ofName? word, Label.ofName? word, Scalar.ofName? word with
    | some k, _, _ => keyword k
    | none, some l, _ => specifier (.label l)
    | none, none, some s => scalar s
    | none, none, none => ident

/-- The class of a reserved word. -/
def wordClass? : Kind → Option WordClass
  | keyword _ => some .keyword
  | specifier _ => some .specifier
  | scalar _ => some .typeName
  | bool _ => some .literal
  | _ => none

/-- Is the token a word, reserved or not? -/
def isWord (k : Kind) : Bool := k == ident || k.wordClass?.isSome

end Kind

end Token

/-- A piece of a source text. -/
structure Token where
  kind : Token.Kind
  text : String
  span : Span
  /-- The line and the column of its first character. -/
  position : Position
deriving DecidableEq, Repr, Inhabited

/-- How the tokens of a text come to an end. -/
inductive Ending where
  | endOfText (offset : Nat)
  | fault (f : Fault)
deriving DecidableEq, Repr, Inhabited

/-- The tokens of a text up to its end or its first fault. -/
structure Scan where
  tokens : List Token
  ending : Ending
deriving DecidableEq, Repr, Inhabited

end ProtoSchema
