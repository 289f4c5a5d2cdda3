import ProtoSchema.Pool.Statements
import ProtoSchema.Proofs.Event.Spelling

/-! # Tokens that spell statements

`Spelling.Statement` relates the tokens of a statement to its event, `Event.Stands` says where an event
may stand among open blocks, and `Spelling.Step` puts both together for a single step of the reader.
A step takes tokens that spell its event (`yields_next_spelling`). -/

namespace ProtoSchema

open Reader

/-- A value without its place. -/
def Located.bare {α : Type} (a : Located α) : Located α := unplaced a.value

/-- Values that are equal are the same without their places. -/
theorem Located.bare_eq {α : Type} {a b : Located α} (h : a.value = b.value) : a.bare = b.bare := by
  rw [Located.bare, h, Located.bare]

/-- Messages, enums and extend blocks may stand in the file and in messages. -/
inductive Frames.TakesTypes : Frames → Prop
  | file : TakesTypes []
  | message {fs} : TakesTypes (.body .message :: fs)

/-- Between the statements of the file or of a block. -/
inductive Frames.Between : Frames → Prop
  | file : Between []
  | block {k fs} : Between (.body k :: fs)

namespace Event

/-- An event without the places of its parts. -/
def bare : Event → Event
  | edition e => edition e.bare
  | package name => package name.bare
  | importFile kind file => importFile kind file.bare
  | option o => option o
  | openMessage name => openMessage name.bare
  | openExtend type => openExtend type.bare
  | openEnum name => openEnum name.bare
  | required _ => required default
  | field f => field { f with type := f.type.bare, name := f.name.bare, number := f.number.bare }
  | value v => value { v with name := v.name.bare, number := v.number.bare }
  | reservedRanges rs => reservedRanges rs
  | reservedNames names => reservedNames names
  | extensionRanges rs => extensionRanges rs
  | close => close

/-- All numbers are in their bounds, and the keys of maps are keys. -/
def InBounds : Event → Prop
  | field f => f.form.Legible ∧ FieldNumber.isValid f.number.value = true
  | value v => isEnumNumber v.number.value = true
  | reservedRanges rs | extensionRanges rs => ∀ r ∈ rs, r.Legible
  | _ => True

/-- Where an event may stand, and which frames are open behind it. -/
inductive Stands : Event → Frames → Frames → Prop
  | edition {e} : Stands (.edition e) [] []
  | package {name} : Stands (.package name) [] []
  | importFile {kind target} : Stands (.importFile kind target) [] []
  | fileOption {o} : Stands (.option o) [] []
  | option {o k fs} (h : k ≠ .extend) : Stands (.option o) (.body k :: fs) (.body k :: fs)
  | openMessage {name fs} (h : fs.TakesTypes) : Stands (.openMessage name) fs (.header .message :: fs)
  | openExtend {type fs} (h : fs.TakesTypes) : Stands (.openExtend type) fs (.header .extend :: fs)
  | openEnum {name fs} (h : fs.TakesTypes) : Stands (.openEnum name) fs (.header .enum :: fs)
  | required {span k fs} (h : k ≠ .enum) :
      Stands (.required span) (.body k :: fs) (.required :: .body k :: fs)
  | requiredField {f fs} (form : f.form = .plain (some .required)) :
      Stands (.field f) (.required :: fs) fs
  | field {f l k fs} (h : k ≠ .enum) (form : f.form = .plain l) (label : l ≠ some .required) :
      Stands (.field f) (.body k :: fs) (.body k :: fs)
  | mapField {f key fs} (form : f.form = .map key) :
      Stands (.field f) (.body .message :: fs) (.body .message :: fs)
  | value {v fs} : Stands (.value v) (.body .enum :: fs) (.body .enum :: fs)
  | reservedRanges {rs fs} : Stands (.reservedRanges rs) (.body .message :: fs) (.body .message :: fs)
  | reservedNames {names fs} :
      Stands (.reservedNames names) (.body .message :: fs) (.body .message :: fs)
  | extensionRanges {rs fs} :
      Stands (.extensionRanges rs) (.body .message :: fs) (.body .message :: fs)
  | close {k fs} : Stands .close (.body k :: fs) fs

end Event

namespace Spelling

/-- What stands behind the type of a field. -/
inductive FieldTail : List Token → String → Nat → List OptionDecl → Prop
  | mk {name equals number u semicolon n os} (ident : name.kind = .ident)
      (mark : equals.kind = .punct .equals) (int : number.kind = .int n) (options : Options u os)
      (stop : semicolon.kind = .punct .semicolon) :
      FieldTail (name :: equals :: number :: (u ++ [semicolon])) name.text n os

/-- The form of a field and its type.  The label `required` is an event of its own. -/
inductive Front : List Token → FieldForm → WrittenType → Prop
  | plain {u type} (written : FieldType u type) : Front u (.plain none) type
  | label {t u l type} (kind : t.kind = .specifier (.label l)) (other : l ≠ .required)
      (written : FieldType u type) : Front (t :: u) (.plain (some l)) type
  | required {u type} (written : FieldType u type) : Front u (.plain (some .required)) type
  | map {t left key comma u right s type} (kind : t.kind = .specifier .map)
      (opening : left.kind = .punct .leftAngle) (scalar : key.kind = .scalar s)
      (between : comma.kind = .punct .comma) (written : FieldType u type)
      (closing : right.kind = .punct .rightAngle) :
      Front (t :: left :: key :: comma :: (u ++ [right])) (.map s) type

/-- The word behind `import`, or none. -/
inductive Import : List Token → ImportKind → Prop
  | plain : Import [] .plain
  | publicly {t} (kind : t.kind = .keyword .publicImport) : Import [t] .publicly
  | weakly {t} (kind : t.kind = .keyword .weakImport) : Import [t] .weakly

/-- The sign and the digits of the number of an enum value. -/
inductive Number : List Token → Int → Prop
  | positive {t} {n : Nat} (int : t.kind = .int n) : Number [t] n
  | negative {m t} {n : Nat} (minus : m.kind = .punct .minus) (int : t.kind = .int n) :
      Number [m, t] (-n)

/-- The tokens of a statement, or of the header or the end of a block. -/
inductive Statement : List Token → Event → Prop
  | edition {t equals name semicolon s e} (kind : t.kind = .keyword .edition)
      (mark : equals.kind = .punct .equals) (string : name.kind = .string s)
      (known : Edition.ofName? s = some e.value) (stop : semicolon.kind = .punct .semicolon) :
      Statement [t, equals, name, semicolon] (.edition e)
  | package {t u name semicolon} (kind : t.kind = .keyword .package) (segments : Dotted u name.value)
      (stop : semicolon.kind = .punct .semicolon) : Statement (t :: (u ++ [semicolon])) (.package name)
  | importFile {t u way file semicolon} (kind : t.kind = .keyword .importFile) (word : Import u way)
      (string : name.kind = .string file.value) (stop : semicolon.kind = .punct .semicolon) :
      Statement (t :: (u ++ [name, semicolon])) (.importFile way file)
  | option {t u o semicolon} (kind : t.kind = .keyword .option) (body : OptionBody u o)
      (stop : semicolon.kind = .punct .semicolon) : Statement (t :: (u ++ [semicolon])) (.option o)
  | openMessage {t u name} (kind : t.kind = .keyword .message) (ident : Ident u name.value) :
      Statement (t :: u) (.openMessage name)
  | openExtend {t u type} (kind : t.kind = .keyword .extend) (written : TypeName u type.value) :
      Statement (t :: u) (.openExtend type)
  | openEnum {t u name} (kind : t.kind = .keyword .enum) (ident : Ident u name.value) :
      Statement (t :: u) (.openEnum name)
  | required {t span} (kind : t.kind = .specifier (.label .required)) : Statement [t] (.required span)
  | field {u v f} (front : Front u f.form f.type.value)
      (tail : FieldTail v f.name.value f.number.value f.options) : Statement (u ++ v) (.field f)
  | value {name equals u v w semicolon} (ident : name.kind = .ident)
      (mark : equals.kind = .punct .equals) (number : Number u w.number.value)
      (options : Options v w.options) (same : w.name.value = name.text)
      (stop : semicolon.kind = .punct .semicolon) :
      Statement (name :: equals :: (u ++ (v ++ [semicolon]))) (.value w)
  | reservedRanges {t u rs semicolon} (kind : t.kind = .keyword .reserved)
      (list : Listed Range u rs) (stop : semicolon.kind = .punct .semicolon) :
      Statement (t :: (u ++ [semicolon])) (.reservedRanges rs)
  | reservedNames {t u names semicolon} (kind : t.kind = .keyword .reserved)
      (list : Listed Str u names) (stop : semicolon.kind = .punct .semicolon) :
      Statement (t :: (u ++ [semicolon])) (.reservedNames names)
  | extensionRanges {t u v rs os semicolon} (kind : t.kind = .keyword .extensions)
      (list : Listed Range u rs) (options : Options v os)
      (stop : semicolon.kind = .punct .semicolon) :
      Statement (t :: (u ++ (v ++ [semicolon]))) (.extensionRanges rs)
  | close {t} (kind : t.kind = .punct .rightBrace) : Statement [t] .close
  | closeBlock {t semicolon} (kind : t.kind = .punct .rightBrace)
      (stop : semicolon.kind = .punct .semicolon) : Statement [t, semicolon] .close

/-- What one step of the reader takes, and the frames that are open behind it. -/
inductive Step : Frames → List Token → Option Event → Frames → Prop
  | empty {fs t} (kind : t.kind = .punct .semicolon) (between : fs.Between) : Step fs [t] none fs
  | brace {t k fs} (kind : t.kind = .punct .leftBrace) :
      Step (.header k :: fs) [t] none (.body k :: fs)
  | statement {fs fs' ts e} (written : Statement ts e) (place : e.Stands fs fs') :
      Step fs ts (some e) fs'

end Spelling

namespace Event

open Spelling (Statement)

variable {fs fs' outer : Frames} {t : Token} {u rest : List Token} {e : Event}

/-! ### Statements of the file -/

theorem yields_editionFrom_spelling (h : t.kind = .keyword .edition) (start : Span) :
    Yields (editionFrom start) fun u e => Statement (t :: u) e ∧ ∃ v, e = .edition v := by
  refine yields_bind (yields_punct _ _) fun _ _ hequals => ?_
  obtain ⟨equals, rfl, mark⟩ := hequals
  refine yields_bind (yields_string _) fun _ s hs => ?_
  refine yields_bind (yields_punct _ _) fun _ _ hstop => ?_
  obtain ⟨semicolon, rfl, stop⟩ := hstop
  split
  · next v known =>
    refine yields_pure ⟨?_, _, rfl⟩
    generalize hw : s.value = w at hs known
    cases hs with
    | mk kind => exact .edition h mark kind known stop
  · exact yields_fail

theorem yields_packageFrom (h : t.kind = .keyword .package) (start : Span) :
    Yields (packageFrom start) fun u e => Statement (t :: u) e ∧ ∃ name, e = .package name := by
  refine yields_bind (yields_dotted _) fun _ name hname => ?_
  refine yields_bind (yields_punct _ _) fun _ _ hstop => yields_pure ⟨?_, _, rfl⟩
  obtain ⟨semicolon, rfl, stop⟩ := hstop
  exact .package h hname stop

theorem importKind_eq_some {way : ImportKind} (h : importKind t = some way) :
    Spelling.Import [t] way := by
  unfold importKind at h
  split at h
  · next kind =>
    cases h
    exact .publicly kind
  · next kind =>
    cases h
    exact .weakly kind
  · cases h

theorem yields_importFrom (h : t.kind = .keyword .importFile) :
    Yields importFrom fun u e => Statement (t :: u) e ∧ ∃ way file, e = .importFile way file := by
  refine yields_bind (φ := fun u way? => Spelling.Import u (way?.getD .plain))
    (yields_take?.mono fun u way? hway => ?_) fun u way? hway => ?_
  · rcases hway with ⟨rfl, rfl⟩ | ⟨t, way, rfl, ht, rfl⟩
    · exact .plain
    · exact importKind_eq_some ht
  · refine yields_bind (yields_string _) fun _ s hs => ?_
    refine yields_bind (yields_punct _ _) fun _ _ hstop => yields_pure ⟨?_, _, _, rfl⟩
    obtain ⟨semicolon, rfl, stop⟩ := hstop
    generalize hw : s.value = w at hs
    cases hs with
    | mk kind => exact .importFile h hway (by rw [hw]; exact kind) stop

theorem yields_optionFrom_spelling (h : t.kind = .keyword .option) (c : Construct) :
    Yields (optionFrom c) fun u e => Statement (t :: u) e ∧ ∃ o, e = .option o := by
  refine yields_bind (yields_optionDecl _) fun _ o ho => ?_
  refine yields_bind (yields_punct _ _) fun _ _ hstop => yields_pure ⟨?_, _, rfl⟩
  obtain ⟨semicolon, rfl, stop⟩ := hstop
  exact .option h ho stop

/-! ### Statements of blocks -/

theorem yields_fieldFrom_spelling (c : Construct) {form : FieldForm} {type : Located WrittenType}
    {ts : List Token} (h : Spelling.Front ts form type.value) (hform : form.Legible) :
    Yields (fieldFrom c form type) fun u e =>
      Statement (ts ++ u) e ∧ e.InBounds ∧ ∃ f, e = .field f ∧ f.form = form := by
  refine yields_bind (yields_ident_spelling _) fun _ name hname => ?_
  refine yields_bind (yields_punct _ _) fun _ _ hequals => ?_
  obtain ⟨equals, rfl, mark⟩ := hequals
  refine yields_bind (yields_fieldNumber _) fun _ n hn => ?_
  obtain ⟨number, rfl, int, hvalid⟩ := hn
  refine yields_bind (yields_options _) fun v os hos => ?_
  refine yields_bind (yields_punct _ _) fun _ _ hstop =>
    yields_pure ⟨.field h ?_, ⟨hform, hvalid⟩, _, rfl, rfl⟩
  obtain ⟨semicolon, rfl, stop⟩ := hstop
  show Spelling.FieldTail _ name.value _ _
  generalize name.value = w at hname
  cases hname with
  | mk kind => exact .mk kind mark int hos stop

theorem yields_mapFrom_spelling (h : t.kind = .specifier .map) : Yields mapFrom fun u e =>
    Statement (t :: u) e ∧ e.InBounds ∧ ∃ f key, e = .field f ∧ f.form = .map key := by
  refine yields_bind (yields_punct _ _) fun _ _ hleft => ?_
  obtain ⟨left, rfl, opening⟩ := hleft
  refine yields_bind yields_mapKey fun _ s hs => ?_
  obtain ⟨key, rfl, scalar, hkey⟩ := hs
  refine yields_bind (yields_punct _ _) fun _ _ hcomma => ?_
  obtain ⟨comma, rfl, between⟩ := hcomma
  refine yields_bind (yields_fieldType_spelling _) fun v type hv => ?_
  refine yields_bind (yields_punct _ _) fun _ _ hright => ?_
  obtain ⟨right, rfl, closing⟩ := hright
  have hfront := Spelling.Front.map h opening scalar between hv closing
  refine (yields_fieldFrom_spelling _ hfront hkey).mono fun u e he => ?_
  obtain ⟨hwritten, hbounds, f, rfl, hform⟩ := he
  refine ⟨?_, hbounds, f, s, rfl, hform⟩
  simpa only [List.cons_append, List.nil_append, List.append_assoc] using hwritten

theorem yields_reservedFrom_spelling (h : t.kind = .keyword .reserved) : Yields reservedFrom
    fun u e => Statement (t :: u) e ∧ e.InBounds ∧
      e.Stands (.body .message :: outer) (.body .message :: outer) := by
  refine yields_bind yields_take fun _ start hstart => ?_
  obtain ⟨t', rfl, ht'⟩ := hstart
  unfold reservedStart at ht'
  split at ht'
  · next s kind =>
    cases ht'
    refine yields_bind (yields_repeatAfter (yields_string _)) fun v names hv => ?_
    refine yields_bind (yields_punct _ _) fun _ _ hstop =>
      yields_pure ⟨?_, trivial, .reservedNames⟩
    obtain ⟨semicolon, rfl, stop⟩ := hstop
    have hlist := Spelling.Listed.mk (.mk kind) (hv.map (f := Located.value) fun _ _ hu => hu)
    simpa only [List.append_assoc, List.append_nil] using Statement.reservedNames h hlist stop
  · next n kind =>
    cases ht'
    refine yields_bind (yields_rangesFrom _ kind) fun v rs hv => ?_
    refine yields_bind (yields_punct _ _) fun _ _ hstop =>
      yields_pure ⟨?_, hv.2, .reservedRanges⟩
    obtain ⟨semicolon, rfl, stop⟩ := hstop
    exact .reservedRanges h hv.1 stop
  · cases ht'

theorem yields_extensionsFrom_spelling (h : t.kind = .keyword .extensions) : Yields extensionsFrom
    fun u e => Statement (t :: u) e ∧ e.InBounds ∧
      e.Stands (.body .message :: outer) (.body .message :: outer) := by
  refine yields_bind (yields_int _) fun _ n hn => ?_
  obtain ⟨t', rfl, kind⟩ := hn
  refine yields_bind (yields_rangesFrom _ kind) fun v rs hv => ?_
  refine yields_bind (yields_options _) fun w os hos => ?_
  refine yields_bind (yields_punct _ _) fun _ _ hstop => yields_pure ⟨?_, hv.2, .extensionRanges⟩
  obtain ⟨semicolon, rfl, stop⟩ := hstop
  exact .extensionRanges h hv.1 hos stop

/-- An enum value behind its number. -/
theorem yields_numbered (h : t.kind = .ident) {equals : Token} (mark : equals.kind = .punct .equals)
    {number : Int} (hnumber : Spelling.Number u number) (span : Span) :
    Yields (if isEnumNumber number then do
        let options ← options .enumValue
        let _ ← punct .enumValue .semicolon
        return value ⟨⟨t.text, t.span⟩, ⟨number, span⟩, options⟩
      else fail (.invalidEnumNumber span)) fun v e => Statement (t :: equals :: (u ++ v)) e ∧
        e.InBounds ∧ e.Stands (.body .enum :: outer) (.body .enum :: outer) := by
  split
  · next hbounds =>
    refine yields_bind (yields_options _) fun v os hos => ?_
    refine yields_bind (yields_punct _ _) fun _ _ hstop => yields_pure ⟨?_, hbounds, .value⟩
    obtain ⟨semicolon, rfl, stop⟩ := hstop
    exact .value h mark hnumber hos rfl stop
  · exact yields_fail

theorem yields_valueFrom_spelling (h : t.kind = .ident) : Yields (valueFrom ⟨t.text, t.span⟩)
    fun u e => Statement (t :: u) e ∧ e.InBounds ∧
      e.Stands (.body .enum :: outer) (.body .enum :: outer) := by
  refine yields_bind (yields_punct _ _) fun _ _ hequals => ?_
  obtain ⟨equals, rfl, mark⟩ := hequals
  refine yields_bind (yields_punct? _) fun u negative hu => ?_
  refine yields_bind (yields_int _) fun _ n hn => ?_
  obtain ⟨t', rfl, int⟩ := hn
  rcases hu with ⟨rfl, rfl⟩ | ⟨m, rfl, minus, rfl⟩
  · exact yields_numbered h mark (.positive int) n.span
  · exact yields_numbered h mark (.negative minus int) n.span

/-! ### Steps -/

/-- What a step takes, and what it yields. -/
def Spells (fs : Frames) (ts : List Token) (result : Option Event × Frames) : Prop :=
  Spelling.Step fs ts result.1 result.2 ∧ ∀ e, result.1 = some e → e.InBounds

theorem spells_statement {ts : List Token} (hw : Statement ts e) (hb : e.InBounds)
    (hs : e.Stands fs fs') : Spells fs ts (some e, fs') := by
  refine ⟨.statement hw hs, fun e' he => ?_⟩
  cases he
  exact hb

theorem spells_empty (h : t.kind = .punct .semicolon) (hfs : fs.Between) :
    Spells fs [t] (none, fs) :=
  ⟨.empty h hfs, fun e he => (by cases he)⟩

/-- A step that reads a statement and leaves the frames as they are. -/
theorem yields_emit_spelling {p : Reader Event}
    (hp : Yields p fun u e => Statement (t :: u) e ∧ e.InBounds ∧ e.Stands fs fs') :
    Yields (do emit fs' (← p)) fun u r => Spells fs (t :: u) r := by
  refine yields_bind hp fun u e he => yields_pure ?_
  rw [List.append_nil]
  exact spells_statement he.1 he.2.1 he.2.2

theorem yields_headerFrom_spelling (hfs : fs.TakesTypes) (k : BlockKind)
    (h : t.kind = .keyword (match k with
      | .message => .message
      | .extend => .extend
      | .enum => .enum)) :
    Yields (headerFrom fs k) fun u r => Spells fs (t :: u) r := by
  cases k with
  | message =>
    refine yields_bind (yields_ident_spelling _) fun u name hu => yields_pure ?_
    rw [List.append_nil]
    exact spells_statement (.openMessage h hu) trivial (.openMessage hfs)
  | extend =>
    refine yields_bind (yields_typeName_spelling _) fun u type hu => yields_pure ?_
    rw [List.append_nil]
    exact spells_statement (.openExtend h hu) trivial (.openExtend hfs)
  | enum =>
    refine yields_bind (yields_ident_spelling _) fun u name hu => yields_pure ?_
    rw [List.append_nil]
    exact spells_statement (.openEnum h hu) trivial (.openEnum hfs)

theorem yields_statement_spelling : Yields (statement t) fun u r => Spells [] (t :: u) r := by
  unfold statement
  split
  · next h =>
    refine yields_emit_spelling ((yields_editionFrom_spelling h _).mono fun u e he => ?_)
    obtain ⟨hw, v, rfl⟩ := he
    exact ⟨hw, trivial, .edition⟩
  · next h =>
    refine yields_emit_spelling ((yields_packageFrom h _).mono fun u e he => ?_)
    obtain ⟨hw, name, rfl⟩ := he
    exact ⟨hw, trivial, .package⟩
  · next h =>
    refine yields_emit_spelling ((yields_importFrom h).mono fun u e he => ?_)
    obtain ⟨hw, way, file, rfl⟩ := he
    exact ⟨hw, trivial, .importFile⟩
  · next h =>
    refine yields_emit_spelling ((yields_optionFrom_spelling h _).mono fun u e he => ?_)
    obtain ⟨hw, o, rfl⟩ := he
    exact ⟨hw, trivial, .fileOption⟩
  · next h => exact yields_headerFrom_spelling .file .message h
  · next h => exact yields_headerFrom_spelling .file .enum h
  · next h => exact yields_headerFrom_spelling .file .extend h
  · next h => exact yields_pure (spells_empty h .file)
  · exact yields_fail

theorem yields_closeFrom_spelling (h : t.kind = .punct .rightBrace) (k : BlockKind) :
    Yields (closeFrom outer) fun u r => Spells (.body k :: outer) (t :: u) r := by
  refine yields_bind (yields_punct? _) fun u b hu => yields_pure ?_
  rw [List.append_nil]
  rcases hu with ⟨rfl, rfl⟩ | ⟨semicolon, rfl, stop, rfl⟩
  · exact spells_statement (.close h) trivial .close
  · exact spells_statement (.closeBlock h stop) trivial .close

theorem yields_option_spelling (h : t.kind = .keyword .option) (c : Construct) {k : BlockKind}
    (hk : k ≠ .extend) : Yields (do emit (.body k :: outer) (← optionFrom c)) fun u r =>
      Spells (.body k :: outer) (t :: u) r := by
  refine yields_emit_spelling ((yields_optionFrom_spelling h _).mono fun u e he => ?_)
  obtain ⟨hw, o, rfl⟩ := he
  exact ⟨hw, trivial, .option hk⟩

/-- A field whose form is no matter of the frames. -/
theorem yields_plainField (ts : List Token) {p : Reader (Located WrittenType)} {l : Option Label}
    {c : Construct} (hp : Yields p fun u type => Spelling.Front (ts ++ u) (.plain l) type.value)
    (hs : ∀ f : FieldDecl, f.form = .plain l → (Event.field f).Stands fs fs') :
    Yields (do emit fs' (← fieldFrom c (.plain l) (← p))) fun u r => Spells fs (ts ++ u) r := by
  refine yields_bind hp fun u type hu => ?_
  refine yields_bind (yields_fieldFrom_spelling c hu trivial) fun v e he => yields_pure ?_
  obtain ⟨hw, hb, f, rfl, hform⟩ := he
  rw [List.append_nil, ← List.append_assoc]
  exact spells_statement hw hb (hs f hform)

theorem yields_fieldStarting_spelling {k : BlockKind} (hk : k ≠ .enum) {step : Step}
    (h : fieldStarting (.body k :: outer) t = some step) :
    Yields step fun u r => Spells (.body k :: outer) (t :: u) r := by
  unfold fieldStarting at h
  split at h
  · next kind =>
    cases h
    exact yields_pure (spells_statement (.required kind) trivial (.required hk))
  · next l hl kind =>
    cases h
    have hother : l ≠ .required := hl
    refine yields_plainField [t] ?_ fun f hform => .field hk hform (by simpa using hother)
    exact (yields_fieldType_spelling _).mono fun u type hu => .label kind hother hu
  · obtain ⟨start, hs, rfl⟩ := Option.map_eq_some_iff.mp h
    refine yields_plainField [t] ?_ fun f hform => .field hk hform (by simp)
    exact (yields_fieldTypeFrom_spelling _ hs).mono fun u type hu => .plain hu

theorem yields_getD_fieldStarting_spelling {k : BlockKind} (hk : k ≠ .enum) (c : Construct)
    (expected : String) : Yields ((fieldStarting (.body k :: outer) t).getD (refused c expected t))
      fun u r => Spells (.body k :: outer) (t :: u) r := by
  cases h : fieldStarting (.body k :: outer) t with
  | none => exact yields_fail
  | some step => exact yields_fieldStarting_spelling hk h

theorem yields_messageItem_spelling :
    Yields (messageItem outer t) fun u r => Spells (.body .message :: outer) (t :: u) r := by
  unfold messageItem
  split
  · next h => exact yields_closeFrom_spelling h _
  · next h => exact yields_pure (spells_empty h .block)
  · next h => exact yields_headerFrom_spelling .message .message h
  · next h => exact yields_headerFrom_spelling .message .enum h
  · next h => exact yields_headerFrom_spelling .message .extend h
  · next h => exact yields_emit_spelling (yields_reservedFrom_spelling h)
  · next h => exact yields_emit_spelling (yields_extensionsFrom_spelling h)
  · next h => exact yields_option_spelling h _ (by decide)
  · next h =>
    refine yields_emit_spelling ((yields_mapFrom_spelling h).mono fun u e he => ?_)
    obtain ⟨hw, hb, f, key, rfl, hform⟩ := he
    exact ⟨hw, hb, .mapField hform⟩
  · exact yields_getD_fieldStarting_spelling (by decide) _ _

theorem yields_extendItem_spelling :
    Yields (extendItem outer t) fun u r => Spells (.body .extend :: outer) (t :: u) r := by
  unfold extendItem
  split
  · next h => exact yields_closeFrom_spelling h _
  · next h => exact yields_pure (spells_empty h .block)
  all_goals first
    | exact yields_fail
    | exact yields_getD_fieldStarting_spelling (by decide) _ _

theorem yields_enumItem_spelling :
    Yields (enumItem outer t) fun u r => Spells (.body .enum :: outer) (t :: u) r := by
  unfold enumItem
  split
  · next h => exact yields_closeFrom_spelling h _
  · next h => exact yields_pure (spells_empty h .block)
  · next h => exact yields_option_spelling h _ (by decide)
  · split
    · next name hname =>
      obtain ⟨kind, rfl⟩ := identText_eq_some_iff.mp hname
      exact yields_emit_spelling (yields_valueFrom_spelling kind)
    · exact yields_fail
    · exact yields_fail

theorem yields_requiredField_spelling :
    Yields (requiredField fs t) fun u r => Spells (.required :: fs) (t :: u) r := by
  unfold requiredField
  split
  · next start hs =>
    refine yields_plainField [t] ?_ fun f hform => .requiredField hform
    exact (yields_fieldTypeFrom_spelling _ hs).mono fun u type hu => .required hu
  · exact yields_fail

/-- A step takes tokens that spell the statement that it yields. -/
theorem yields_next_spelling (fs : Frames) : Yields (next fs t) fun u r => Spells fs (t :: u) r := by
  unfold next
  split
  · exact yields_statement_spelling
  · split
    · next h => exact yields_pure ⟨.brace h, fun e he => (by cases he)⟩
    · exact yields_fail
  · exact yields_messageItem_spelling
  · exact yields_extendItem_spelling
  · exact yields_enumItem_spelling
  · exact yields_requiredField_spelling

end Event

end ProtoSchema
