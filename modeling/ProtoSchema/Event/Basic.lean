import ProtoSchema.Declaration

/-! # Events

A file is a flat sequence of events: one for each statement, with an opening and a closing event
around the statements of a block.  Empty statements leave none.  `Event.print` writes a sequence
of events as source text, one line for each, indented by the depth of the blocks around it. -/

namespace ProtoSchema

/-- One statement of a file, or an edge of a block. -/
inductive Event where
  /-- The version of the language; the span is that of the whole statement. -/
  | edition (e : Located Edition)
  /-- The package of the file; the span is that of the whole statement. -/
  | package (name : Located DottedName)
  | importFile (kind : ImportKind) (file : Located String)
  | option (o : OptionDecl)
  | openMessage (name : Located String)
  | openExtend (type : Located TypeName)
  | openEnum (name : Located String)
  /-- A label `required` stands in front of the field that follows. -/
  | required (span : Span)
  | field (f : FieldDecl)
  | value (v : ValueDecl)
  | reservedRanges (rs : List NumberRange)
  | reservedNames (names : List String)
  | extensionRanges (rs : List NumberRange)
  /-- The innermost open block ends. -/
  | close
deriving DecidableEq, Repr, Inhabited

namespace Event

/-- The line of an event; a label is on the line of its field. -/
def line? : Event → Option String
  | edition e => some ("syntax = \"" ++ e.value.name ++ "\";")
  | package name => some ("package " ++ name.value.text ++ ";")
  | importFile kind file =>
    let modifier := match kind with
      | .plain => ""
      | .publicly => "public "
      | .weakly => "weak "
    some ("import " ++ modifier ++ Escaped.quote file.value ++ ";")
  | option o => some ("option " ++ o.text ++ ";")
  | openMessage name => some ("message " ++ name.value ++ " \x7b")
  | openExtend type => some ("extend " ++ type.value.text ++ " \x7b")
  | openEnum name => some ("enum " ++ name.value ++ " \x7b")
  | required _ => none
  | field f => some (f.text ++ ";")
  | value v => some (v.text ++ ";")
  | reservedRanges rs => some ("reserved " ++ NumberRange.listText rs ++ ";")
  | reservedNames names => some ("reserved " ++ ", ".intercalate (names.map Escaped.quote) ++ ";")
  | extensionRanges rs => some ("extensions " ++ NumberRange.listText rs ++ ";")
  | close => some "\x7d"

/-- Does an event begin a block? -/
def opens : Event → Bool
  | openMessage _ | openExtend _ | openEnum _ => true
  | _ => false

/-- Two spaces for each open block. -/
def indentation (depth : Nat) : String := String.ofList (List.replicate (2 * depth) ' ')

/-- The text of a sequence of events inside `depth` open blocks. -/
def print (depth : Nat) : List Event → String
  | [] => ""
  | e :: es =>
    let here := if e = close then depth - 1 else depth
    let next := if e.opens then depth + 1 else here
    (match e.line? with
      | some l => indentation here ++ l ++ "\n"
      | none => "") ++ print next es

end Event

end ProtoSchema
