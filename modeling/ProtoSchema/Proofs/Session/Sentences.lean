import ProtoSchema.Proofs.Event.Sentences
import ProtoSchema.Proofs.Session.Steps

/-! # Files that are read and the grammar

A file that is read to its end is a file of the grammar, and reading a file of the grammar fails only at
an import, at an event that does not go with those in front of it, or at a value that does not fit
(`parse_grammar`): a number out of its bounds, a version that is not known, or a type that has no map
keys. -/

namespace ProtoSchema

/-- The faults of single values and of declarations that are read. -/
def Fault.IsSemantic : Fault → Prop
  | unknownEdition .. | invalidFieldNumber .. | invalidEnumNumber _ | invalidRange _
  | invalidMapKey .. | requiredInProto3 _ | duplicateEdition .. | duplicatePackage ..
  | packageAfterDefinition _ | duplicateName .. | duplicateFieldNumber ..
  | duplicateEnumNumber .. | emptyEnum .. => True
  | _ => False

/-- The fault of a value that does not fit. -/
theorem Spelling.Misfit.isSemantic {fs : Frames} {ts : List Token} {fault : Fault} (h : Misfit fs ts fault) :
    fault.IsSemantic := by
  cases h with
  | mapKey | edition => trivial
  | number excess =>
    cases excess with
    | field | value => trivial
    | ranges _ bad =>
      induction bad with
      | here bad => cases bad <;> trivial
      | later _ _ _ _ ih => exact ih

theorem Event.Stops.isSemantic {e : Ending} {fs : Frames} {ts : List Token} {fault : Fault}
    (h : Stops e fs ts fault) : fault.IsSemantic := by
  induction h with
  | here misfit => exact misfit.isSemantic
  | later _ _ ih => exact ih

namespace Pool

variable {pool : Pool} {fault : Fault}

theorem checkName_isSemantic {scope : Scope} {name : Located String}
    (h : pool.checkName scope name = .error fault) : fault.IsSemantic := by
  unfold checkName at h
  split at h
  · cases h
    trivial
  · cases h

theorem addMessage_isSemantic {file : FileId} {parent : Scope} {name : Located String}
    (h : pool.addMessage file parent name = .error fault) : fault.IsSemantic := by
  unfold addMessage at h
  split at h
  · next hcheck =>
    cases h
    exact checkName_isSemantic hcheck
  · cases h

theorem addEnum_isSemantic {file : FileId} {parent : Scope} {name : Located String}
    (h : pool.addEnum file parent name = .error fault) : fault.IsSemantic := by
  unfold addEnum at h
  split at h
  · next hcheck =>
    cases h
    exact checkName_isSemantic hcheck
  · cases h

theorem addField_isSemantic {field : Field} (h : pool.addField field = .error fault) :
    fault.IsSemantic := by
  simp only [addField] at h
  split at h
  · cases h
    trivial
  · split at h
    · next hcheck =>
      cases h
      exact checkName_isSemantic hcheck
    · cases h

theorem addValue_isSemantic {id : EnumId} {value : ValueDecl}
    (h : pool.addValue id value = .error fault) : fault.IsSemantic := by
  simp only [addValue] at h
  split at h
  · cases h
    trivial
  · split at h
    · cases h
      trivial
    · cases h

end Pool

namespace Cursor

theorem eq_error_of_map {ε α β : Type} {x : Except ε α} {f : α → β} {e : ε}
    (h : x.map f = .error e) : x = .error e := by
  cases x with
  | error e' =>
    cases h
    rfl
  | ok => cases h

/-- An event fails by what it declares. -/
theorem apply_isSemantic {c : Cursor} {pool : Pool} {e : Event} {fault : Fault}
    (h : c.apply pool e = .error fault) : fault.IsSemantic := by
  cases e with
  | edition e =>
    have h := eq_error_of_map h
    unfold addEdition at h
    split at h <;> cases h
    trivial
  | package name =>
    have h := eq_error_of_map h
    unfold addPackage at h
    split at h
    · cases h
      trivial
    · split at h <;> cases h
      trivial
  | openMessage name => exact Pool.addMessage_isSemantic (eq_error_of_map h)
  | openEnum name => exact Pool.addEnum_isSemantic (eq_error_of_map h)
  | required span =>
    simp only [apply] at h
    split at h <;> cases h
    trivial
  | field f =>
    have h := eq_error_of_map h
    unfold addField at h
    split at h
    · exact Pool.addField_isSemantic h
    · cases h
  | value v =>
    simp only [apply] at h
    split at h
    · exact Pool.addValue_isSemantic (eq_error_of_map h)
    · cases h
  | close =>
    simp only [apply] at h
    split at h
    · have h := eq_error_of_map h
      unfold closeEnum at h
      split at h
      · cases h
        trivial
      · split at h <;> cases h
    · cases h
  | importFile | option | openExtend | reservedRanges | reservedNames | extensionRanges => cases h

end Cursor

namespace Session

variable {load : String → SessionM FileId} {name text : String} {s s' : Session} {e : Error}

/-- The events in front of one are read from `c` and `s` on, and that one does not go with what they
declare. -/
def EventFails (load : String → SessionM FileId) (name text : String) (es : List Event) (c : Cursor)
    (s : Session) (e : Error) (s' : Session) : Prop :=
  ∃ before event behind c₁ fault, es = before ++ event :: behind ∧
    before.foldlM (applyEvent load name text) c s = .ok c₁ s' ∧
    c₁.apply s'.pool event = .error fault ∧ fault.IsSemantic ∧ e = .source fault name text

/-- The events in front of an import are read from `c` and `s` on, and the import fails. -/
def ImportFails (load : String → SessionM FileId) (name text : String) (es : List Event) (c : Cursor)
    (s : Session) (e : Error) (s' : Session) : Prop :=
  ∃ before kind target behind c₁ s₁ e₁, es = before ++ .importFile kind target :: behind ∧
    before.foldlM (applyEvent load name text) c s = .ok c₁ s₁ ∧
    load target.value s₁ = .error e₁ s' ∧ e = importError name text target e₁

/-- All events are read from `c` and `s` on, and behind them the reader comes to a value that does not
fit. -/
def ValueFails (load : String → SessionM FileId) (name text : String) (c : Cursor) (s : Session)
    (e : Error) (s' : Session) : Prop :=
  ∃ c₁ fault, (Event.ofText text).1.foldlM (applyEvent load name text) c s = .ok c₁ s' ∧
    Event.Stops (Scan.ofText text).ending [] (Scan.ofText text).tokens fault ∧ fault.IsSemantic ∧
    e = .source fault name text

/-- The events of a file fail exactly at an event that does not go with those in front of it, or at an
import. -/
theorem events_fail_iff {es : List Event} {c : Cursor} :
    es.foldlM (applyEvent load name text) c s = .error e s' ↔
      EventFails load name text es c s e s' ∨ ImportFails load name text es c s e s' := by
  rw [foldlM_eq_error_iff]
  constructor
  · rintro ⟨before, event, behind, c₁, s₁, rfl, hbefore, hevent⟩
    by_cases himport : ∃ kind target, event = .importFile kind target
    · obtain ⟨kind, target, rfl⟩ := himport
      rw [applyEvent_importFile] at hevent
      cases hload : load target.value s₁ with
      | ok id s₂ => simp [hload] at hevent
      | error e₁ s₂ =>
        rw [hload] at hevent
        cases hevent
        exact .inr ⟨before, kind, target, behind, c₁, s₁, e₁, rfl, hbefore, hload, rfl⟩
    · rw [applyEvent_of_ne fun kind target h => himport ⟨kind, target, h⟩] at hevent
      cases happly : c₁.apply s₁.pool event with
      | ok result => simp [happly] at hevent
      | error fault =>
        rw [happly] at hevent
        cases hevent
        exact .inl ⟨before, event, behind, c₁, fault, rfl, hbefore, happly, Cursor.apply_isSemantic happly, rfl⟩
  · rintro (⟨before, event, behind, c₁, fault, rfl, hbefore, happly, -, rfl⟩ |
      ⟨before, kind, target, behind, c₁, s₁, e₁, rfl, hbefore, hload, rfl⟩)
    · refine ⟨before, event, behind, c₁, s', rfl, hbefore, ?_⟩
      have hne : ∀ kind target, event ≠ .importFile kind target := by
        rintro kind target rfl
        cases happly
      rw [applyEvent_of_ne hne, happly]
    · refine ⟨before, _, behind, c₁, s₁, rfl, hbefore, ?_⟩
      rw [applyEvent_importFile, hload]

/-- A text without lexical faults that is read to its end is a file of the grammar.  A file of the
grammar is read to its end, unless an event of it does not go with those in front of it, an import of it
fails, or a value in it does not fit; and what fails is the error that is reported. -/
theorem parse_grammar (load : String → SessionM FileId) (name : String) (file : SourceFile)
    (s : Session) {n : Nat} (scanned : (Scan.ofText file.text).ending = .endOfText n) :
    (∀ id s', parse load name file s = .ok id s' →
      (Scan.ofText file.text).tokens ∈ Grammar.file) ∧
    ((Scan.ofText file.text).tokens ∈ Grammar.file →
      ∀ e s', parse load name file s = .error e s' ↔
        EventFails load name file.text (Event.ofText file.text).1
            (Cursor.start ⟨s.pool.files.size⟩) (s.begin name file) e s' ∨
          ImportFails load name file.text (Event.ofText file.text).1
            (Cursor.start ⟨s.pool.files.size⟩) (s.begin name file) e s' ∨
          ValueFails load name file.text
            (Cursor.start ⟨s.pool.files.size⟩) (s.begin name file) e s') := by
  have hevents : Event.ofText file.text =
      Event.ofTokens (.endOfText n) [] (Scan.ofText file.text).tokens := by
    rw [← scanned]
    rfl
  rw [parse_eq]
  constructor
  · intro id s' h
    split at h
    · cases h
    · split at h
      · cases h
      · next hfault =>
        rw [hevents] at hfault
        exact Grammar.mem_demand_of_ofTokens hfault
  · intro hmem e s'
    rw [← or_assoc, ← events_fail_iff]
    have hvalue : ∀ {fault}, (Event.ofText file.text).2 = some fault ↔
        Event.Stops (Scan.ofText file.text).ending [] (Scan.ofText file.text).tokens fault := by
      rw [hevents, scanned]
      exact Grammar.ofTokens_eq_some_iff hmem
    constructor
    · intro h
      split at h
      · next hfold =>
        cases h
        exact .inl hfold
      · next c₁ s₁ hfold =>
        split at h
        · next fault hfault =>
          cases h
          have hstops := hvalue.mp hfault
          exact .inr ⟨c₁, fault, hfold, hstops, hstops.isSemantic, rfl⟩
        · cases h
    · rintro (hfold | ⟨c₁, fault, hfold, hstops, -, rfl⟩)
      · rw [hfold]
      · rw [hfold]
        simp only [hvalue.mpr hstops]

/-- An import, an empty statement and a message that ends in a semicolon. -/
def importing : SourceFile :=
  ⟨none, "import public \"b.proto\"; ; message M \x7b required .a.B c = 1; \x7d;"⟩

/-- A brace too many. -/
def unbalanced : SourceFile := ⟨none, "message M \x7b\x7d \x7d"⟩

/-- Any import is found. -/
def anyImport (_ : String) : SessionM FileId := pure ⟨0⟩

theorem importing_read : (Scan.ofText importing.text).ending = .endOfText 62 ∧
    ∃ id s', parse anyImport "a.proto" importing {} = .ok id s' := by
  have h : (Scan.ofText importing.text).ending = .endOfText 62 ∧
      errorOf? (parse anyImport "a.proto" importing {}) = none := by
    decide +kernel
  exact ⟨h.1, exists_ok_of_errorOf? h.2⟩

theorem unbalanced_read : (Scan.ofText unbalanced.text).ending = .endOfText 14 ∧
    ∃ c expected found span s', parse anyImport "a.proto" unbalanced {} =
      .error (.source (.unexpectedToken c expected found span) "a.proto" unbalanced.text) s' := by
  have h : (Scan.ofText unbalanced.text).ending = .endOfText 14 ∧
      errorOf? (parse anyImport "a.proto" unbalanced {}) =
        some (.source (.unexpectedToken .statement
          "'syntax', 'package', 'import', 'option', 'message', 'enum', 'extend' or ';'" "\x7d" ⟨13, 14⟩)
          "a.proto" unbalanced.text) := by
    decide +kernel
  obtain ⟨s', hparse⟩ := exists_error_of_errorOf? h.2
  exact ⟨h.1, _, _, _, _, s', hparse⟩

/-- The first file is one of the grammar since it is read to its end, and the second one is not, since
its fault is none of what it says. -/
theorem importing_mem_file : (Scan.ofText importing.text).tokens ∈ Grammar.file ∧
    (Scan.ofText unbalanced.text).tokens ∉ Grammar.file := by
  obtain ⟨hscan, id, s', hread⟩ := importing_read
  obtain ⟨hscan', c, expected, found, span, s'', hfault⟩ := unbalanced_read
  refine ⟨(parse_grammar anyImport "a.proto" importing {} hscan).1 id s' hread, fun hmem => ?_⟩
  have hfails := ((parse_grammar anyImport "a.proto" unbalanced {} hscan').2 hmem _ _).mp hfault
  rcases hfails with ⟨_, _, _, _, fault, -, -, -, hsemantic, he⟩ | ⟨_, _, _, _, _, _, _, -, -, hload, -⟩ |
    ⟨_, fault, -, -, hsemantic, he⟩
  · cases he
    exact hsemantic
  · cases hload
  · cases he
    exact hsemantic

end Session

end ProtoSchema
