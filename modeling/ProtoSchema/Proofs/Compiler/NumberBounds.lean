import ProtoSchema.Proofs.Compiler.Declarations
import ProtoSchema.Proofs.Compiler.Termination
import ProtoSchema.Proofs.Descriptor.Words
import ProtoSchema.Proofs.Event.Misfits
import ProtoSchema.Proofs.Session.Warnings

/-! # Numbers stay in their bounds

After any calls the numbers of fields, ranges and enum values in complete files are in their bounds, those of
enum values are the numbers that the text writes, and descriptors hold the same numbers in words of 32 bits
(`numbersBounded_after`).  A text with a number out of bounds is not read to its end: its first such number
is the fault that the reading ends with, and no file comes from it. -/

namespace ProtoSchema

/-- No text yields an event with a number out of bounds. -/
theorem Event.inBounds_ofText (source : String) : ∀ e ∈ (ofText source).1, e.InBounds := by
  intro e he
  have hlegible := legible_ofText source e he
  cases e with
  | field f =>
    have hfield : f.Legible := hlegible
    exact ⟨hfield.form, hfield.number⟩
  | value v =>
    have hvalue : v.Legible := hlegible
    exact hvalue.number
  | reservedRanges rs | extensionRanges rs => exact hlegible.2
  | _ => trivial

/-- Each event that is spelled by some tokens is the event of a statement among them. -/
theorem Spelling.Source.exists_statement {fs : Frames} {ts : List Token} {es : List Event} {e : Event}
    (h : Spelling.Source fs ts es) (he : e ∈ es) : ∃ used, used <:+: ts ∧ Spelling.Statement used e := by
  induction h with
  | done => cases he
  | @step fs fs' ts us event? es first rest ih =>
    rcases List.mem_append.mp he with hfirst | hrest
    · cases first with
      | empty => cases hfirst
      | brace => cases hfirst
      | statement written place =>
        obtain rfl := List.mem_singleton.mp hfirst
        exact ⟨ts, (List.prefix_append ts us).isInfix, written⟩
    · obtain ⟨used, hused, hwritten⟩ := ih hrest
      exact ⟨used, hused.trans (List.suffix_append ts us).isInfix, hwritten⟩

/-- Among some tokens a number is written behind a name: digits with their value, and a sign if it is
negative. -/
inductive Spelling.Numbered (ts : List Token) (name : String) (n : Int) : Prop
  | mk {t equals u} (tokens : t :: equals :: u <:+: ts) (ident : t.kind = .ident) (same : t.text = name)
      (mark : equals.kind = .punct .equals) (number : Spelling.Number u n) : Numbered ts name n

theorem Spelling.Source.numbered {fs : Frames} {ts : List Token} {es : List Event} {v : ValueDecl}
    (h : Spelling.Source fs ts es) (hv : .value v ∈ es) :
    Spelling.Numbered ts v.name.value v.number.value := by
  obtain ⟨used, hused, hwritten⟩ := h.exists_statement hv
  cases hwritten with
  | @value name equals u w _ semicolon ident mark number options same stop =>
    refine .mk (List.IsInfix.trans ?_ hused) ident same.symm mark number
    exact ⟨[], w ++ [semicolon], by simp⟩

namespace Session

/-- A file with a number out of bounds is never complete: its reading ends with the fault of that number, or
with an error in front of it. -/
theorem Runs.of_fault {r : Resolver} {reading names : List String} {name : String} {file : SourceFile}
    {s : Session} {result : Outcome FileId} {fault : Fault} (h : Runs r reading (.read name file) s result names)
    (hfault : (Event.ofText file.text).2 = some fault) : ∃ e s', result = .error e s' ∧
      (e = .source fault name file.text ∨ Runs r (reading ++ [name])
        (.apply name file.text (.start ⟨s.pool.files.size⟩) (Event.ofText file.text).1) (s.begin name file)
        (.error e s') names.tail) := by
  cases h with
  | @failed _ _ _ _ es fault? e s' names free fresh text events =>
    rw [Event.takesText_iff.mp text]
    exact ⟨e, s', rfl, .inr events⟩
  | @finished _ _ _ _ es fault? id s' names free fresh text events =>
    rw [Event.takesText_iff.mp text] at hfault
    obtain rfl : fault? = some fault := hfault
    exact ⟨_, s', rfl, .inl rfl⟩

end Session

namespace Compiler

variable {c : Compiler} {f : FileId}

/-! ### What is so of numbers -/

/-- The numbers in a complete file are in their bounds. -/
structure FileBounded (c : Compiler) (f : FileId) : Prop where
  field : ∀ d, c.pool.FieldOf f d →
    1 ≤ c.number d ∧ c.number d ≤ 536870911 ∧ ¬(19000 ≤ c.number d ∧ c.number d ≤ 19999)
  range : ∀ b ∈ c.pool.blocksOf f, ∀ r,
    r ∈ (c.pool.block b).extensionRanges ∨ r ∈ (c.pool.block b).reservedRanges →
      1 ≤ r.first ∧ r.first ≤ r.last ∧ r.last ≤ 536870911
  value : ∀ e, c.pool.EnumOf f e → ∀ n ∈ (c.pool.enum e).values.keys, (Int32.ofInt n).toInt = n

/-- The statements `es`, which are spelled by the tokens `ts`, write the enum values of a file. -/
structure ValuesWritten (c : Compiler) (f : FileId) (ts : List Token) (es : List Event) : Prop where
  source : Spelling.Source [] ts es
  /-- Each number of an enum is written behind the name of its value. -/
  written : ∀ e, c.pool.EnumOf f e → ∀ n v, (n, v) ∈ (c.pool.enum e).values.entries →
    Spelling.Numbered ts v.name.value n
  /-- Each value that is written has the number that is written. -/
  kept : ∀ v, .value v ∈ es → ∃ e, c.pool.EnumOf f e ∧
    (v.number.value, ⟨v.name, v.options⟩) ∈ (c.pool.enum e).values.entries

/-- What becomes of a text with a number out of bounds. -/
structure Rejects (c : Compiler) (name : String) (file : SourceFile) (fault : Fault) : Prop where
  /-- The reading ends with the fault of the number. -/
  read : (Event.ofText file.text).2 = some fault
  /-- No complete file comes from the text. -/
  incomplete : c.file? name = none
  /-- Where the text is opened, the fault is reported, or an error in front of the number. -/
  reported : ∀ path, nameOf c.resolver path = .ok name → openText c.resolver path name = .ok file →
    ∃ e session, openFile path c = .error e { c with session } ∧
      (e = .source fault name file.text ∨ ∃ names, Session.Runs c.resolver [name]
        (.apply name file.text (.start ⟨c.pool.files.size⟩) (Event.ofText file.text).1)
        (c.session.begin name file) (.error e session) names)

/-- What is so of the numbers in texts, in complete files and in descriptors. -/
structure NumbersBounded (c : Compiler) : Prop where
  /-- No text yields a field, range or enum value with other numbers, not even one that is not read to its
  end. -/
  yielded : ∀ name file, c.resolver.openFile name = .ok file →
    ∀ e ∈ (Event.ofText file.text).1, e.InBounds
  bounded : ∀ f, c.session.Registered f → c.FileBounded f
  written : ∀ name f file, c.file? name = some f → c.resolver.openFile name = .ok file →
    c.ValuesWritten f (Scan.ofText file.text).tokens (Event.ofText file.text).1
  exported : ∀ f, c.session.Registered f → c.pool.ExportsExactly f
  /-- A place in the list of dependencies fits in a word, if the text is not too large. -/
  places : ∀ name f file, c.file? name = some f → c.resolver.openFile name = .ok file →
    file.text.utf8ByteSize ≤ maxFileSize → ∀ k,
      k ∈ (c.pool.descriptor f).publicDependencies ∨ k ∈ (c.pool.descriptor f).weakDependencies →
        (Int32.ofNat k).toInt = k
  rejected : ∀ name file fault, c.resolver.openFile name = .ok file →
    Event.Meets (Scan.ofText file.text).ending [] (Scan.ofText file.text).tokens fault →
      c.Rejects name file fault

/-! ### Complete files -/

theorem Settled.fileBounded (hc : c.Settled) (hf : c.session.Registered f) : c.FileBounded f where
  field d hd := FieldNumber.isValid_iff.mp (hc.legible.pool.field d hd.1).number
  range b hb r hr := by
    have hb := (hc.tree.mem_blocksOf_iff (hc.sound.hasFile hf)).mp hb
    have hblock := hc.legible.pool.block b hb.1
    have hlegible : r.Legible := hr.elim (hblock.extensionRanges r) (hblock.reservedRanges r)
    exact ⟨(FieldNumber.isValid_iff.mp hlegible.first).1, hlegible.ordered, hlegible.last⟩
  value e he n hn := by
    obtain ⟨entry, hentry, rfl⟩ := List.mem_map.mp hn
    exact toInt_ofInt_of_isEnumNumber ((hc.legible.pool.enum e he.1).values entry hentry).number

theorem Settled.valuesWritten {name : String} {file : SourceFile} (hc : c.Settled)
    (h : Session.Completed c.resolver c.session name f) (opened : c.resolver.openFile name = .ok file) :
    c.ValuesWritten f (Scan.ofText file.text).tokens (Event.ofText file.text).1 := by
  obtain ⟨noFault, -⟩ := h.declare hc.tree opened
  obtain ⟨-, hsource⟩ := Event.source_ofText noFault
  refine ⟨hsource, fun e he n v hentry => ?_, fun v hv => h.value_mem opened hv⟩
  obtain ⟨front, header, body, back, hevents, written, -⟩ := h.writes he opened
  obtain ⟨w, hw, rfl, hname⟩ := written.exists_value hentry
  rw [← hname]
  refine hsource.numbered ?_
  rw [hevents]
  exact List.mem_append_right _ (List.mem_cons_of_mem _ (List.mem_append_left _ hw))

/-- The dependencies of a file are fewer than the bytes of its text. -/
theorem length_dependencies {name : String} {file : SourceFile}
    (h : Session.Completed c.resolver c.session name f) (opened : c.resolver.openFile name = .ok file) :
    (c.pool.file f).imports.values.length ≤ file.text.utf8ByteSize :=
  calc (c.pool.file f).imports.values.length
    _ = (c.pool.importNames f).length := by rw [Table.values, Pool.importNames, List.length_map, List.length_map]
    _ = (Event.firstImports (Event.ofText file.text).1).length :=
      congrArg List.length (h.importNames_eq opened)
    _ ≤ (Event.ofText file.text).1.length := Event.length_firstImports _
    _ ≤ (Scan.ofText file.text).tokens.length := Event.length_ofTokens _ _ _
    _ ≤ file.text.toList.length := Scan.length_tokens _ _ _
    _ ≤ file.text.utf8ByteSize := length_le_utf8ByteSize _

/-! ### Texts with a number out of bounds -/

theorem Settled.rejects {name : String} {file : SourceFile} {fault : Fault} (hc : c.Settled) (hl : Lawful c)
    (opened : c.resolver.openFile name = .ok file)
    (meets : Event.Meets (Scan.ofText file.text).ending [] (Scan.ofText file.text).tokens fault) :
    c.Rejects name file fault := by
  have hread : (Event.ofText file.text).2 = some fault := Event.ofTokens_of_meets meets
  have hincomplete : c.file? name = none := by
    cases hname : c.file? name with
    | none => rfl
    | some f =>
      obtain ⟨noFault, -⟩ := (hl.history.registered name f hname).declare hc.tree opened
      rw [noFault] at hread
      cases hread
  refine ⟨hread, hincomplete, fun path named hopen => ?_⟩
  obtain ⟨names, run⟩ := (Session.runs_iff opened hincomplete).mpr rfl
  obtain ⟨e, session, hresult, hcause⟩ := run.of_fault hread
  rw [hresult] at run
  exact ⟨e, session, opens_iff.mp ⟨_, .failed named hopen run⟩, hcause.imp_right fun h => ⟨_, h⟩⟩

/-- After any calls the numbers in complete files and in descriptors are in their bounds, and texts with
other numbers are rejected. -/
theorem numbersBounded_after (resolver : Resolver) (calls : List Call) :
    (after (fresh resolver) calls).NumbersBounded := by
  have hc := settled_after resolver calls
  have hl := lawful_after resolver calls
  generalize after (fresh resolver) calls = c at *
  refine ⟨fun name file _ => Event.inBounds_ofText file.text, fun f hf => hc.fileBounded hf,
    fun name f file hname opened => ?_, fun f hf => ?_, fun name f file hname opened hsize k hk => ?_,
    fun name file fault => hc.rejects hl⟩
  · exact hc.valuesWritten (hl.history.registered name f hname) opened
  · exact Pool.exportsExactly hc.tree hc.legible.pool (hc.sound.hasFile hf)
  · have hlength := length_dependencies (hl.history.registered name f hname) opened
    have hlt : k < (c.pool.file f).imports.values.length :=
      hk.elim Pool.lt_of_mem_importPlaces Pool.lt_of_mem_importPlaces
    unfold maxFileSize at hsize
    exact Int32.toInt_ofNat_of_lt (by omega)

/-- Numbers at their limits. -/
def limitsText : String :=
  "message M \x7b optional int32 a = 1; optional int32 b = 536870911; map<int32, E> c = 2; " ++
    "reserved 3 to 19500; extensions 20000 to 536870910; " ++
    "enum E \x7b Z = 0; MIN = -2147483648; MAX = 2147483647; \x7d \x7d"

/-- A number beyond its limit. -/
def beyondText : String := "enum E \x7b A = -2147483649; \x7d"

def limits : Resolver := .memory [("a.proto", limitsText), ("b.proto", beyondText)]

/-- A file is opened with numbers at their limits, and then one with a number beyond them. -/
def atLimits : Compiler := after (fresh limits) [.openFile "a.proto", .openFile "b.proto"]

/-- In a text the digits of the number of an enum value are blamed. -/
theorem meets_beyondText : Event.Meets (Scan.ofText beyondText).ending [] (Scan.ofText beyondText).tokens
    (.invalidEnumNumber ⟨14, 24⟩) := by
  have htokens : (Scan.ofText beyondText).tokens =
      [⟨.keyword .enum, "enum", ⟨0, 4⟩, ⟨1, 1⟩⟩, ⟨.ident, "E", ⟨5, 6⟩, ⟨1, 6⟩⟩,
        ⟨.punct .leftBrace, "\x7b", ⟨7, 8⟩, ⟨1, 8⟩⟩, ⟨.ident, "A", ⟨9, 10⟩, ⟨1, 10⟩⟩,
        ⟨.punct .equals, "=", ⟨11, 12⟩, ⟨1, 12⟩⟩, ⟨.punct .minus, "-", ⟨13, 14⟩, ⟨1, 14⟩⟩,
        ⟨.int 2147483649, "2147483649", ⟨14, 24⟩, ⟨1, 15⟩⟩, ⟨.punct .semicolon, ";", ⟨24, 25⟩, ⟨1, 25⟩⟩,
        ⟨.punct .rightBrace, "\x7d", ⟨26, 27⟩, ⟨1, 27⟩⟩] := by
    decide +kernel
  have hexcess : Spelling.Excess [.body .enum]
      [⟨.ident, "A", ⟨9, 10⟩, ⟨1, 10⟩⟩, ⟨.punct .equals, "=", ⟨11, 12⟩, ⟨1, 12⟩⟩,
        ⟨.punct .minus, "-", ⟨13, 14⟩, ⟨1, 14⟩⟩, ⟨.int 2147483649, "2147483649", ⟨14, 24⟩, ⟨1, 15⟩⟩]
      (.invalidEnumNumber ⟨14, 24⟩) :=
    .value rfl rfl (.negative (n := 2147483649) rfl rfl) rfl (by decide)
  rw [htokens]
  exact .later rfl (.later rfl (.here hexcess))

theorem numbersBounded_atLimits :
    atLimits.session.Registered ⟨0⟩ ∧ atLimits.FileBounded ⟨0⟩ ∧ atLimits.pool.ExportsExactly ⟨0⟩ ∧
      (atLimits.pool.declared .asWritten (.block ⟨0⟩)).numbers = [1, 536870911, 2] ∧
      (atLimits.pool.messageDescriptor ⟨0⟩).extensionRanges = [⟨20000, 536870911⟩] ∧
      (atLimits.pool.messageDescriptor ⟨0⟩).reservedRanges = [⟨3, 19501⟩] ∧
      (atLimits.pool.enum ⟨0⟩).values.keys = [0, -2147483648, 2147483647] ∧
      atLimits.Rejects "b.proto" ⟨none, beyondText⟩ (.invalidEnumNumber ⟨14, 24⟩) := by
  have hread : atLimits.file? "a.proto" = some ⟨0⟩ ∧
      (atLimits.pool.declared .asWritten (.block ⟨0⟩)).numbers = [1, 536870911, 2] ∧
      (atLimits.pool.messageDescriptor ⟨0⟩).extensionRanges = [⟨20000, 536870911⟩] ∧
      (atLimits.pool.messageDescriptor ⟨0⟩).reservedRanges = [⟨3, 19501⟩] ∧
      (atLimits.pool.enum ⟨0⟩).values.keys = [0, -2147483648, 2147483647] := by
    decide +kernel
  obtain ⟨hfile, hnumbers, hextensions, hreserved, hvalues⟩ := hread
  have hregistered : atLimits.session.Registered ⟨0⟩ := ⟨_, hfile⟩
  have hopened : atLimits.resolver.openFile "b.proto" = .ok ⟨none, beyondText⟩ := by
    have hresolver : atLimits.resolver = limits := (goes_after _ (fresh limits)).resolver
    rw [hresolver]
    decide +kernel
  have hall : atLimits.NumbersBounded := numbersBounded_after limits _
  exact ⟨hregistered, hall.bounded _ hregistered, hall.exported _ hregistered, hnumbers, hextensions,
    hreserved, hvalues, hall.rejected _ _ _ hopened meets_beyondText⟩

end Compiler

end ProtoSchema
