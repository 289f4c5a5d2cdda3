import Mathlib.Computability.Language
import Mathlib.Order.FixedPoints
import Mathlib.Order.CompletePartialOrder
import ProtoSchema.Event.OfTokens

/-! # The grammar of files

The productions of the language over tokens, one definition for each: `+` is a choice, `*` puts
phrases behind each other, `∗` repeats a phrase.  Only messages are nested in messages, so they are the
least language that satisfies its production (`message_eq`). -/

namespace ProtoSchema.Grammar

open Computability

/-! ### Single tokens -/

/-- One token with a property. -/
def one (P : Token → Prop) : Language Token := {ts | ∃ t, P t ∧ ts = [t]}

/-- One token of a kind. -/
abbrev kind (k : Token.Kind) : Language Token := one fun t => t.kind = k

abbrev mark (p : Punct) : Language Token := kind (.punct p)

abbrev keyword (k : Keyword) : Language Token := kind (.keyword k)

abbrev ident : Language Token := kind .ident

abbrev int : Language Token := one fun t => ∃ n, t.kind = .int n

abbrev float : Language Token := one fun t => ∃ x, t.kind = .float x

abbrev string : Language Token := one fun t => ∃ s, t.kind = .string s

abbrev bool : Language Token := one fun t => ∃ b, t.kind = .bool b

abbrev scalar : Language Token := one fun t => ∃ s, t.kind = .scalar s

abbrev label : Language Token := one fun t => ∃ l, t.kind = .specifier (.label l)

/-- Any word, reserved or not. -/
abbrev word : Language Token := one fun t => t.kind.isWord = true

/-- The names of the numbers that have no digits. -/
abbrev numberName : Language Token :=
  one fun t => t.kind = .ident ∧ (t.text = "inf" ∨ t.text = "nan")

/-! ### Parts of statements -/

/-- A phrase or nothing. -/
def optional (L : Language Token) : Language Token := 1 + L

/-- One or more phrases with commas between them. -/
def listed (L : Language Token) : Language Token := L * (mark .comma * L)∗

def fullIdent : Language Token := ident * (mark .dot * ident)∗

def typeName : Language Token := optional (mark .dot) * fullIdent

def sign : Language Token := mark .plus + mark .minus

def constant : Language Token :=
  optional sign * (int + float) + sign * numberName + string + bool + fullIdent

def optionName : Language Token :=
  (mark .leftParen * typeName * mark .rightParen + word) * (mark .dot * word)∗

def optionBody : Language Token := optionName * mark .equals * constant

def options : Language Token := mark .leftBracket * listed optionBody * mark .rightBracket

def range : Language Token := int * optional (keyword .rangeTo * (int + keyword .max))

def type : Language Token := scalar + typeName

/-- A field behind its type. -/
def fieldTail : Language Token :=
  ident * mark .equals * int * optional options * mark .semicolon

/-! ### Statements -/

def edition : Language Token := keyword .edition * mark .equals * string * mark .semicolon

def package : Language Token := keyword .package * fullIdent * mark .semicolon

def importFile : Language Token :=
  keyword .importFile * optional (keyword .publicImport + keyword .weakImport) * string *
    mark .semicolon

def option : Language Token := keyword .option * optionBody * mark .semicolon

def field : Language Token := optional label * type * fieldTail

def mapField : Language Token :=
  kind (.specifier .map) * mark .leftAngle * scalar * mark .comma * type * mark .rightAngle *
    fieldTail

def reserved : Language Token :=
  keyword .reserved * (listed range + listed string) * mark .semicolon

def extensions : Language Token :=
  keyword .extensions * listed range * optional options * mark .semicolon

def value : Language Token :=
  ident * mark .equals * optional (mark .minus) * int * optional options * mark .semicolon

def empty : Language Token := mark .semicolon

/-! ### Blocks -/

/-- Statements in braces; a semicolon may follow. -/
def block (L : Language Token) : Language Token :=
  mark .leftBrace * L∗ * mark .rightBrace * optional (mark .semicolon)

def enum : Language Token := keyword .enum * ident * block (empty + option + value)

def extend : Language Token := keyword .extend * typeName * block (empty + field)

/-- The statements of a message with the messages `M` among them. -/
def declWith (M : Language Token) : Language Token :=
  empty + M + enum + extend + option + field + mapField + reserved + extensions

/-- The production of messages. -/
def messageWith : Language Token →o Language Token where
  toFun M := keyword .message * ident * block (declWith M)
  monotone' := by
    intro M N h
    have hdecl : (declWith M)∗ ≤ (declWith N)∗ := by
      refine kstar_mono ?_
      unfold declWith
      gcongr
    exact mul_le_mul_right (mul_le_mul_left (mul_le_mul_left (mul_le_mul_right hdecl _) _) _) _

/-- Messages are derived by finitely many uses of their production. -/
def message : Language Token := messageWith.lfp

def decl : Language Token := declWith message

/-- The production of messages, with messages among their statements. -/
theorem message_eq : message = keyword .message * ident * block decl :=
  messageWith.map_lfp.symm

/-! ### Files -/

def statement : Language Token :=
  edition + package + importFile + option + message + enum + extend + empty

def file : Language Token := statement∗

end ProtoSchema.Grammar
