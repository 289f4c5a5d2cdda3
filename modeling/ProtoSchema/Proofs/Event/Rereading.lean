import ProtoSchema.Proofs.Event.Statements

/-! # Statements read off their tokens

A step reads a statement off any tokens that spell it (`reads_statement`), if the numbers are in their
bounds and if what follows does not go on with it. -/

namespace ProtoSchema.Event

open Reader
open Spelling (Statement)

variable {fs fs' outer : Frames} {t : Token} {ts u v rest : List Token} {e : Event}
  {c : Construct}

/-- The event that a step yields and the frames behind it, but for the places. -/
def Reading (e? : Option Event) (fs : Frames) (result : Option Event × Frames) : Prop :=
  result.2 = fs ∧ result.1.map bare = e?.map bare

/-- What follows a statement does not go on with it. -/
structure StopsAt (ts : List Token) (e : Event) (rest : List Token) : Prop where
  header : ∀ type, e = .openExtend type → Avoids (.punct .dot) rest
  block : e = .close → ts.length = 1 → Avoids (.punct .semicolon) rest

theorem reads_emit {p : Reader Event} (hp : Reads p u rest fun a => a.bare = e.bare) :
    Reads (do emit fs (← p)) u rest (Reading (some e) fs) :=
  reads_map hp fun a ha => ⟨rfl, by rw [Option.map_some, ha]; rfl⟩

/-! ### Statements of the file -/

theorem reads_editionFrom {equals name semicolon : Token} {s : String} {v : Edition} {start : Span}
    {φ : Event → Prop} (mark : equals.kind = .punct .equals) (string : name.kind = .string s)
    (stop : semicolon.kind = .punct .semicolon) (known : Edition.ofName? s = some v)
    (hφ : ∀ span, φ (.edition ⟨v, span⟩)) :
    Reads (editionFrom start) [equals, name, semicolon] rest φ := by
  refine reads_cons (reads_punct mark) fun _ _ => ?_
  refine reads_cons (reads_string string) fun a ha => ?_
  subst ha
  refine reads_cons (v := []) (reads_punct stop) fun span _ => ?_
  simp only [known]
  exact reads_pure (hφ _)

theorem reads_packageFrom {name : Located DottedName} {semicolon : Token} {start : Span}
    (h : Spelling.Dotted u name.value) (stop : semicolon.kind = .punct .semicolon) :
    Reads (packageFrom start) (u ++ [semicolon]) rest fun a => a.bare = (package name).bare := by
  refine reads_bind (reads_dotted h ?_) fun a ha => ?_
  · rw [List.singleton_append, avoids_cons, stop]
    simp
  · refine reads_cons (v := []) (reads_punct stop) fun span _ => reads_pure ?_
    exact congrArg package (Located.bare_eq ha)

theorem reads_importWord {way : ImportKind} (h : Spelling.Import u way)
    (hrest : ∀ t' ∈ rest.head?, importKind t' = none) :
    Reads (take? importKind) u rest fun a => a.getD .plain = way := by
  cases h with
  | plain => exact (reads_take?_none hrest).mono fun a ha => by rw [ha]; rfl
  | publicly kind =>
    exact (reads_take?_some (by rw [importKind, kind])).mono fun a ha => by rw [ha]; rfl
  | weakly kind =>
    exact (reads_take?_some (by rw [importKind, kind])).mono fun a ha => by rw [ha]; rfl

theorem reads_importFrom {way : ImportKind} {file : Located String} {name semicolon : Token}
    (h : Spelling.Import u way) (string : name.kind = .string file.value)
    (stop : semicolon.kind = .punct .semicolon) :
    Reads importFrom (u ++ [name, semicolon]) rest fun a =>
      a.bare = (importFile way file).bare := by
  refine reads_bind (reads_importWord h fun t' ht' => ?_) fun way? hway => ?_
  · cases ht'
    rw [importKind, string]
  · refine reads_cons (reads_string string) fun a ha => ?_
    refine reads_cons (v := []) (reads_punct stop) fun _ _ => reads_pure ?_
    rw [hway, ha]
    rfl

theorem reads_optionFrom {o : OptionDecl} {semicolon : Token} (h : Spelling.OptionBody u o)
    (stop : semicolon.kind = .punct .semicolon) :
    Reads (optionFrom c) (u ++ [semicolon]) rest fun a => a.bare = (option o).bare := by
  refine reads_bind (reads_optionDecl h ?_) fun a ha => ?_
  · rw [List.singleton_append, avoids_cons, stop]
    simp
  · exact reads_cons (v := []) (reads_punct stop) fun _ _ => reads_pure (by rw [ha])

/-! ### Statements of blocks -/

theorem reads_fieldFrom {f : FieldDecl} {type : Located WrittenType}
    (h : Spelling.FieldTail u f.name.value f.number.value f.options)
    (htype : type.value = f.type.value) (inBounds : (field f).InBounds) :
    Reads (fieldFrom c f.form type) u rest fun a => a.bare = (field f).bare := by
  generalize hname : f.name.value = w, hnumber : f.number.value = n, hos : f.options = os at h
  cases h with
  | mk ident mark int options stop =>
    refine reads_cons (reads_ident ident) fun name hn => ?_
    refine reads_cons (reads_punct mark) fun _ _ => ?_
    refine reads_cons (reads_fieldNumber int (hnumber ▸ inBounds.2)) fun number hm => ?_
    refine reads_bind (reads_options options ?_) fun os' hos' => ?_
    · rw [List.singleton_append, avoids_cons, stop]
      simp
    · refine reads_cons (v := []) (reads_punct stop) fun _ _ => reads_pure ?_
      have hname' : name.value = f.name.value := by rw [hn, hname]
      have hnumber' : number.value = f.number.value := by rw [hm, hnumber]
      simp only [bare, Located.bare_eq htype, Located.bare_eq hname', Located.bare_eq hnumber', hos', hos]

theorem reads_mapFrom {f : FieldDecl} {left key comma right : Token} {s : Scalar}
    (opening : left.kind = .punct .leftAngle) (scalar : key.kind = .scalar s)
    (between : comma.kind = .punct .comma) (written : Spelling.FieldType u f.type.value)
    (closing : right.kind = .punct .rightAngle) (hform : f.form = .map s)
    (tail : Spelling.FieldTail v f.name.value f.number.value f.options)
    (inBounds : (field f).InBounds) :
    Reads mapFrom (left :: key :: comma :: (u ++ ([right] ++ v))) rest fun a =>
      a.bare = (field f).bare := by
  have hkey : s.isMapKey = true := by
    have := inBounds.1
    rwa [hform] at this
  refine reads_cons (reads_punct opening) fun _ _ => ?_
  refine reads_cons (reads_mapKey scalar hkey) fun key hkey => ?_
  refine reads_cons (reads_punct between) fun _ _ => ?_
  refine reads_bind (reads_fieldType written ?_) fun type htype => ?_
  · rw [List.singleton_append, List.cons_append, avoids_cons, closing]
    simp
  · refine reads_cons (reads_punct closing) fun _ _ => ?_
    rw [hkey, ← hform]
    exact reads_fieldFrom tail htype inBounds

theorem reads_reservedFrom_names {names : List String} {semicolon : Token}
    (list : Spelling.Listed Spelling.Str u names) (stop : semicolon.kind = .punct .semicolon) :
    Reads reservedFrom (u ++ [semicolon]) rest fun a => a.bare = (reservedNames names).bare := by
  cases list with
  | @mk _ v s names head tail =>
    cases head with
    | @mk t _ kind =>
      have hstart : reservedStart t = some (.name s) := by rw [reservedStart, kind]
      have hstop : Avoids (.punct .comma) ([semicolon] ++ rest) := by
        rw [List.singleton_append, avoids_cons, stop]
        simp
      have hstring : ∀ u w rest, Spelling.Str u w → True →
          Reads (string .reserved) u rest fun name => name.value = w := by
        intro u w rest hu _
        cases hu with
        | mk kind => exact (reads_string kind).mono fun name hname => by rw [hname]
      refine reads_cons (v := v ++ [semicolon]) (reads_take hstart) fun start hs => ?_
      subst hs
      refine reads_bind (reads_repeatAfter hstring (fun _ _ _ => trivial) trivial hstop tail)
        fun more hmore => ?_
      refine reads_cons (v := []) (reads_punct stop) fun _ _ => reads_pure ?_
      rw [map_value_eq_of_forall₂ hmore]

theorem Listed.exists_cons {rs : List NumberRange} (h : Spelling.Listed Spelling.Range u rs) :
    ∃ t v n, u = t :: v ∧ t.kind = .int n := by
  cases h with
  | mk head => cases head <;> exact ⟨_, _, _, rfl, by assumption⟩

theorem reads_reservedFrom_ranges {rs : List NumberRange} {semicolon : Token}
    (list : Spelling.Listed Spelling.Range u rs) (stop : semicolon.kind = .punct .semicolon)
    (inBounds : ∀ r ∈ rs, r.Legible) :
    Reads reservedFrom (u ++ [semicolon]) rest fun a => a.bare = (reservedRanges rs).bare := by
  obtain ⟨t, v, n, rfl, kind⟩ := Listed.exists_cons list
  have hstart : reservedStart t = some (.number ⟨n, t.span⟩) := by rw [reservedStart, kind]
  refine reads_cons (v := v ++ [semicolon]) (reads_take hstart) fun start hs => ?_
  subst hs
  refine reads_bind (reads_rangesFrom list kind ?_ ?_ inBounds) fun rs' hrs => ?_
  · rw [List.singleton_append, avoids_cons, stop]
    simp
  · rw [List.singleton_append, avoids_cons, stop]
    simp
  · exact reads_cons (v := []) (reads_punct stop) fun _ _ => reads_pure (by rw [hrs])

theorem reads_extensionsFrom {rs : List NumberRange} {os : List OptionDecl} {semicolon : Token}
    (list : Spelling.Listed Spelling.Range u rs) (options : Spelling.Options v os)
    (stop : semicolon.kind = .punct .semicolon) (inBounds : ∀ r ∈ rs, r.Legible) :
    Reads extensionsFrom (u ++ (v ++ [semicolon])) rest fun a =>
      a.bare = (extensionRanges rs).bare := by
  obtain ⟨t, w, n, rfl, kind⟩ := Listed.exists_cons list
  -- behind the ranges stand options or the semicolon
  have hfollow : ∀ k, k ≠ .punct .semicolon → k ≠ .punct .leftBracket →
      Avoids k (v ++ [semicolon] ++ rest) := by
    intro k hk hk'
    cases options with
    | none =>
      rw [List.nil_append, List.singleton_append, avoids_cons, stop]
      exact hk.symm
    | some left =>
      rw [List.cons_append, List.cons_append, avoids_cons, left]
      exact hk'.symm
  refine reads_cons (reads_int kind) fun m hm => ?_
  subst hm
  refine reads_bind (reads_rangesFrom list kind (hfollow _ ?_ ?_) (hfollow _ ?_ ?_) inBounds)
    fun rs' hrs => ?_
  any_goals simp
  refine reads_bind (reads_options options ?_) fun _ _ => ?_
  · rw [List.singleton_append, avoids_cons, stop]
    simp
  · exact reads_cons (v := []) (reads_punct stop) fun _ _ => reads_pure (by rw [hrs])

/-- An enum value behind its number. -/
theorem reads_numbered {w : ValueDecl} {semicolon : Token} {n : Int} {span : Span}
    (hn : w.number.value = n) (options : Spelling.Options v w.options) (same : w.name.value = t.text)
    (stop : semicolon.kind = .punct .semicolon) (inBounds : (value w).InBounds) :
    Reads (if isEnumNumber n then do
        let options ← Reader.options .enumValue
        let _ ← punct .enumValue .semicolon
        return value ⟨⟨t.text, t.span⟩, ⟨n, span⟩, options⟩
      else fail (.invalidEnumNumber span)) (v ++ [semicolon]) rest
      fun a => a.bare = (value w).bare := by
  subst hn
  have hnumber : isEnumNumber w.number.value = true := inBounds
  rw [if_pos hnumber]
  refine reads_bind (reads_options options ?_) fun os hos => ?_
  · rw [List.singleton_append, avoids_cons, stop]
    simp
  · refine reads_cons (v := []) (reads_punct stop) fun _ _ => reads_pure ?_
    simp only [bare, Located.bare, same, hos]

theorem reads_valueFrom {w : ValueDecl} {equals semicolon : Token}
    (mark : equals.kind = .punct .equals) (number : Spelling.Number u w.number.value)
    (options : Spelling.Options v w.options) (same : w.name.value = t.text)
    (stop : semicolon.kind = .punct .semicolon) (inBounds : (value w).InBounds) :
    Reads (valueFrom ⟨t.text, t.span⟩) (equals :: (u ++ (v ++ [semicolon]))) rest
      fun a => a.bare = (value w).bare := by
  refine reads_cons (reads_punct mark) fun _ _ => ?_
  generalize hm : w.number.value = m at number
  cases number with
  | @positive t' n int =>
    refine reads_nil (reads_punct?_false ?_) fun negative hn => ?_
    · rw [List.append_assoc, List.singleton_append, avoids_cons, int]
      simp
    · subst hn
      refine reads_cons (reads_int int) fun magnitude hm' => ?_
      subst hm'
      exact reads_numbered hm options same stop inBounds
  | @negative m t' n minus int =>
    refine reads_cons (reads_punct?_true minus) fun negative hn => ?_
    subst hn
    refine reads_cons (reads_int int) fun magnitude hm' => ?_
    subst hm'
    exact reads_numbered hm options same stop inBounds

/-! ### Headers and ends of blocks -/

theorem reads_closeFrom (h : Avoids (.punct .semicolon) rest) :
    Reads (closeFrom outer) [] rest (Reading (some .close) outer) :=
  reads_nil (reads_punct?_false h) fun _ _ => reads_pure ⟨rfl, rfl⟩

theorem reads_closeFrom_semicolon (h : t.kind = .punct .semicolon) :
    Reads (closeFrom outer) [t] rest (Reading (some .close) outer) :=
  reads_cons (v := []) (reads_punct?_true h) fun _ _ => reads_pure ⟨rfl, rfl⟩

theorem next_body {k : BlockKind} : next (.body k :: outer) t = match k with
    | .message => messageItem outer t
    | .extend => extendItem outer t
    | .enum => enumItem outer t := by
  cases k <;> rfl

theorem next_close {k : BlockKind} (h : t.kind = .punct .rightBrace) :
    next (.body k :: outer) t = closeFrom outer := by
  cases k <;> simp only [next_body, messageItem, extendItem, enumItem, h]

theorem next_semicolon (h : t.kind = .punct .semicolon) (hfs : fs.Between) :
    next fs t = pure (none, fs) := by
  cases hfs with
  | file => simp only [next, statement, h]
  | @block k outer => cases k <;> simp only [next_body, messageItem, extendItem, enumItem, h]

theorem next_header (hfs : fs.TakesTypes) :
    (t.kind = .keyword .message → next fs t = headerFrom fs .message) ∧
      (t.kind = .keyword .extend → next fs t = headerFrom fs .extend) ∧
      (t.kind = .keyword .enum → next fs t = headerFrom fs .enum) := by
  cases hfs <;> refine ⟨fun h => ?_, fun h => ?_, fun h => ?_⟩ <;>
    simp only [next, statement, messageItem, h]

theorem next_option {k : BlockKind} (h : t.kind = .keyword .option) (hk : k ≠ .extend) :
    ∃ c, next (.body k :: outer) t = (do emit (.body k :: outer) (← optionFrom c)) := by
  cases k with
  | message => exact ⟨.option, by simp only [next_body, messageItem, h]⟩
  | extend => exact absurd rfl hk
  | enum => exact ⟨.enum, by simp only [next_body, enumItem, h]⟩

/-- A field without a label, behind the first token of its type. -/
theorem fieldStarting_of_start {start : FieldTypeStart} (hstart : fieldTypeStart t = some start)
    (hkind : (∃ s, t.kind = .scalar s) ∨ t.kind = .punct .dot ∨ t.kind = .ident) :
    fieldStarting fs t = some (do
      emit fs (← fieldFrom .field (.plain none) (← fieldTypeFrom .field start))) := by
  unfold fieldStarting
  split
  · next kind => simp [kind] at hkind
  · next kind => simp [kind] at hkind
  · rw [hstart, Option.map_some]

/-- A field behind its label. -/
theorem fieldStarting_of_label {l : Label} (kind : t.kind = .specifier (.label l)) (other : l ≠ .required) :
    fieldStarting fs t = some (do
      emit fs (← fieldFrom .field (.plain (some l)) (← fieldType .field))) := by
  unfold fieldStarting
  split
  · next kind' =>
    rw [kind] at kind'
    cases kind'
    exact absurd rfl other
  · next l'' _ kind' =>
    rw [kind] at kind'
    cases kind'
    rfl
  · next hother => exact absurd kind (hother _)

/-- A token that begins a field does so in messages and extend blocks. -/
theorem next_fieldStarting {k : BlockKind} {step : Step} (hk : k ≠ .enum)
    (h : fieldStarting (.body k :: outer) t = some step) : next (.body k :: outer) t = step := by
  have hget : ∀ c expected, (fieldStarting (.body k :: outer) t).getD (refused c expected t) = step :=
    fun _ _ => by rw [h]; rfl
  cases k with
  | message =>
    show messageItem outer t = step
    unfold messageItem
    split
    case h_10 => exact hget _ _
    all_goals
      next kind =>
        rw [fieldStarting, kind] at h
        simp [fieldTypeStart, typeNameStart, isPunct, identText, kind] at h
  | extend =>
    show extendItem outer t = step
    unfold extendItem
    split
    case h_10 => exact hget _ _
    all_goals
      next kind =>
        rw [fieldStarting, kind] at h
        simp [fieldTypeStart, typeNameStart, isPunct, identText, kind] at h
  | enum => exact absurd rfl hk

/-! ### Steps -/

theorem avoids_dot_fieldTail {name : String} {n : Nat} {os : List OptionDecl}
    (h : Spelling.FieldTail v name n os) : Avoids (.punct .dot) (v ++ rest) := by
  cases h with
  | mk ident =>
    rw [List.cons_append, avoids_cons, ident]
    simp

/-- A field behind the first token of its type. -/
theorem reads_fieldBehind {f : FieldDecl} {start : FieldTypeStart}
    (hreads : Avoids (.punct .dot) (v ++ rest) → Reads (fieldTypeFrom .field start) u (v ++ rest)
      fun a => a.value = f.type.value)
    (tail : Spelling.FieldTail v f.name.value f.number.value f.options)
    (inBounds : (field f).InBounds) :
    Reads (do emit fs (← fieldFrom .field f.form (← fieldTypeFrom .field start))) (u ++ v) rest
      (Reading (some (field f)) fs) :=
  reads_bind (hreads (avoids_dot_fieldTail tail)) fun _ htype => reads_emit (reads_fieldFrom tail htype inBounds)

theorem reads_requiredField {f : FieldDecl} (hform : f.form = .plain (some .required))
    (front : Spelling.Front u f.form f.type.value)
    (tail : Spelling.FieldTail v f.name.value f.number.value f.options)
    (inBounds : (field f).InBounds) : ∃ t w, u ++ v = t :: w ∧
      Reads (next (.required :: fs) t) w rest (Reading (some (field f)) fs) := by
  have hwritten : Spelling.FieldType u f.type.value := by
    rw [hform] at front
    cases front with
    | label _ other => exact absurd rfl other
    | required written => exact written
  obtain ⟨t, w, start, rfl, hstart, -, hreads⟩ := exists_fieldTypeStart hwritten
  refine ⟨t, w ++ v, rfl, ?_⟩
  have hnext : next (.required :: fs) t =
      (do emit fs (← fieldFrom .field f.form (← fieldTypeFrom .field start))) := by
    simp only [next, requiredField, hstart, hform]
  rw [hnext]
  exact reads_fieldBehind hreads tail inBounds

theorem reads_plainField {f : FieldDecl} {k : BlockKind} {l : Option Label} (hk : k ≠ .enum)
    (hform : f.form = .plain l) (hl : l ≠ some .required)
    (front : Spelling.Front u f.form f.type.value)
    (tail : Spelling.FieldTail v f.name.value f.number.value f.options)
    (inBounds : (field f).InBounds) : ∃ t w, u ++ v = t :: w ∧
      Reads (next (.body k :: outer) t) w rest (Reading (some (field f)) (.body k :: outer)) := by
  generalize hform' : f.form = form, htype : f.type.value = type at front
  cases front with
  | plain written =>
    obtain ⟨t, w, start, rfl, hstart, hkind, hreads⟩ := exists_fieldTypeStart written
    refine ⟨t, w ++ v, rfl, ?_⟩
    rw [next_fieldStarting hk (fieldStarting_of_start hstart hkind), ← hform']
    exact reads_fieldBehind (htype ▸ hreads) tail inBounds
  | @label t u l' _ kind other written =>
    refine ⟨t, u ++ v, rfl, ?_⟩
    rw [next_fieldStarting hk (fieldStarting_of_label kind other), ← hform']
    refine reads_bind (reads_fieldType (htype ▸ written) (avoids_dot_fieldTail tail)) fun _ htype => ?_
    exact reads_emit (reads_fieldFrom tail htype inBounds)
  | required => exact absurd (hform.symm.trans hform') (by simpa using hl)
  | map => cases hform.symm.trans hform'

theorem reads_mapField {f : FieldDecl} {key : Scalar} (hform : f.form = .map key)
    (front : Spelling.Front u f.form f.type.value)
    (tail : Spelling.FieldTail v f.name.value f.number.value f.options)
    (inBounds : (field f).InBounds) : ∃ t w, u ++ v = t :: w ∧
      Reads (next (.body .message :: outer) t) w rest
        (Reading (some (field f)) (.body .message :: outer)) := by
  rw [hform] at front
  cases front with
  | @map t left key comma u right s type kind opening scalar between written closing =>
    refine ⟨t, left :: key :: comma :: (u ++ ([right] ++ v)), by simp, ?_⟩
    have hnext : next (.body .message :: outer) t = (do emit (.body .message :: outer) (← mapFrom)) := by
      simp only [next_body, messageItem, kind]
    rw [hnext]
    exact reads_emit (reads_mapFrom opening scalar between written closing hform tail inBounds)

/-- A step reads a statement off tokens that spell it. -/
theorem reads_statement (written : Statement ts e) (place : e.Stands fs fs')
    (inBounds : e.InBounds) (hrest : StopsAt ts e rest) : ∃ t u, ts = t :: u ∧
      Reads (next fs t) u rest (Reading (some e) fs') := by
  cases place with
  | edition =>
    cases written with
    | @edition t _ _ _ _ e kind mark string known stop =>
      refine ⟨_, _, rfl, ?_⟩
      have hnext : next [] t = (do emit [] (← editionFrom t.span)) := by
        simp only [next, statement, kind]
      rw [hnext]
      exact reads_emit (reads_editionFrom mark string stop known fun _ => rfl)
  | package =>
    cases written with
    | @package t _ _ _ kind segments stop =>
      refine ⟨_, _, rfl, ?_⟩
      have hnext : next [] t = (do emit [] (← packageFrom t.span)) := by
        simp only [next, statement, kind]
      rw [hnext]
      exact reads_emit (reads_packageFrom segments stop)
  | importFile =>
    cases written with
    | @importFile _ t _ _ _ _ kind word string stop =>
      refine ⟨_, _, rfl, ?_⟩
      have hnext : next [] t = (do emit [] (← importFrom)) := by
        simp only [next, statement, kind]
      rw [hnext]
      exact reads_emit (reads_importFrom word string stop)
  | fileOption =>
    cases written with
    | @option t _ _ _ kind body stop =>
      refine ⟨_, _, rfl, ?_⟩
      have hnext : next [] t = (do emit [] (← optionFrom .option)) := by
        simp only [next, statement, kind]
      rw [hnext]
      exact reads_emit (reads_optionFrom body stop)
  | option hk =>
    cases written with
    | option kind body stop =>
      refine ⟨_, _, rfl, ?_⟩
      obtain ⟨c, hnext⟩ := next_option kind hk
      rw [hnext]
      exact reads_emit (reads_optionFrom body stop)
  | openMessage hfs =>
    cases written with
    | openMessage kind ident =>
      refine ⟨_, _, rfl, ?_⟩
      rw [(next_header hfs).1 kind]
      exact reads_map (reads_ident_spelling ident) fun a ha =>
        ⟨rfl, congrArg (fun name => some (openMessage name)) (Located.bare_eq ha)⟩
  | openExtend hfs =>
    cases written with
    | openExtend kind type =>
      refine ⟨_, _, rfl, ?_⟩
      rw [(next_header hfs).2.1 kind]
      exact reads_map (reads_typeName type (hrest.header _ rfl)) fun a ha =>
        ⟨rfl, congrArg (fun type => some (openExtend type)) (Located.bare_eq ha)⟩
  | openEnum hfs =>
    cases written with
    | openEnum kind ident =>
      refine ⟨_, _, rfl, ?_⟩
      rw [(next_header hfs).2.2 kind]
      exact reads_map (reads_ident_spelling ident) fun a ha =>
        ⟨rfl, congrArg (fun name => some (openEnum name)) (Located.bare_eq ha)⟩
  | required hk =>
    cases written with
    | required kind =>
      refine ⟨_, _, rfl, ?_⟩
      rw [next_fieldStarting hk (by rw [fieldStarting, kind])]
      exact reads_pure ⟨rfl, rfl⟩
  | requiredField hform =>
    cases written with
    | field front tail => exact reads_requiredField hform front tail inBounds
  | field hk hform hl =>
    cases written with
    | field front tail => exact reads_plainField hk hform hl front tail inBounds
  | mapField hform =>
    cases written with
    | field front tail => exact reads_mapField hform front tail inBounds
  | value =>
    cases written with
    | value ident mark number options same stop =>
      refine ⟨_, _, rfl, ?_⟩
      have hitem : identText _ = some _ := identText_eq_some_iff.mpr ⟨ident, rfl⟩
      rw [next_body]
      simp only [enumItem, ident, hitem]
      exact reads_emit (reads_valueFrom mark number options same stop inBounds)
  | reservedRanges =>
    cases written with
    | reservedRanges kind list stop =>
      refine ⟨_, _, rfl, ?_⟩
      rw [next_body]
      simp only [messageItem, kind]
      exact reads_emit (reads_reservedFrom_ranges list stop inBounds)
  | reservedNames =>
    cases written with
    | reservedNames kind list stop =>
      refine ⟨_, _, rfl, ?_⟩
      rw [next_body]
      simp only [messageItem, kind]
      exact reads_emit (reads_reservedFrom_names list stop)
  | extensionRanges =>
    cases written with
    | extensionRanges kind list options stop =>
      refine ⟨_, _, rfl, ?_⟩
      rw [next_body]
      simp only [messageItem, kind]
      exact reads_emit (reads_extensionsFrom list options stop inBounds)
  | close =>
    cases written with
    | close kind =>
      refine ⟨_, _, rfl, ?_⟩
      rw [next_close kind]
      exact reads_closeFrom (hrest.block rfl rfl)
    | closeBlock kind stop =>
      refine ⟨_, _, rfl, ?_⟩
      rw [next_close kind]
      exact reads_closeFrom_semicolon stop

end ProtoSchema.Event
