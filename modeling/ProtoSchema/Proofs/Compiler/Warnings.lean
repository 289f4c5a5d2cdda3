import ProtoSchema.Proofs.Compiler.Termination
import ProtoSchema.Proofs.Session.Imports
import ProtoSchema.Proofs.Session.Successes
import ProtoSchema.Proofs.Session.Warnings

/-! # Warnings match the tree

While no call fails, every file that is read is complete in the end (`AllSucceed.complete`).  Then the
warnings are those about the enums of complete files that have no value numbered zero, one for each of
them (`warnings_match`): it is about the file that declares the enum, tells its full name, shows the name in
its header, and names the value that is its default, which is the first one that is written. -/

namespace ProtoSchema

/-- Without a value numbered zero the first value is the default. -/
theorem EnumType.default?_of_not_hasZero {E : EnumType} (h : E.hasZero = false) :
    E.default? = E.values.entries.head? := by
  have hnone : E.values.find? 0 = none := by simpa [hasZero, Table.contains] using h
  rw [default?, List.find?_eq_none.mpr fun v hv => ?_, Option.none_or]
  intro hzero
  refine Table.find?_eq_none_iff.mp hnone (List.mem_map.mpr ⟨v, hv, ?_⟩)
  simpa using hzero

/-- The first value of an enum is the first one that is declared in it. -/
theorem EnumType.WrittenAs.head?_entries {E : EnumType} {name : Located String} {body : List Event}
    (h : E.WrittenAs name body) : E.values.entries.head? =
      (body.findSome? Event.value?).map fun v => (v.number.value, ⟨v.name, v.options⟩) := by
  rw [h.values, List.head?_map, List.head?_filterMap]

namespace Compiler

variable {c : Compiler} {path : String} {resolver : Resolver} {calls : List Call}

/-! ### Calls that succeed -/

/-- The call ends without an error. -/
def Call.Succeeds (c : Compiler) : Call → Prop
  | .openFile path => errorOf? (Compiler.openFile path c) = none
  | .openFiles paths => errorOf? (Compiler.openFiles paths c) = none
  | .includeImports _ => True

/-- Each call ends without an error. -/
def AllSucceed : Compiler → List Call → Prop
  | _, [] => True
  | c, call :: calls => call.Succeeds c ∧ AllSucceed (call.run c) calls

/-- Every file of the pool is complete. -/
def Complete (c : Compiler) : Prop := ∀ f, c.pool.HasFile f → c.session.Registered f

theorem complete_fresh (resolver : Resolver) : (fresh resolver).Complete :=
  fun _ hf => absurd hf (Nat.not_lt_zero _)

theorem Complete.addRoot (h : c.Complete) (id : FileId) : (c.addRoot id).Complete := by
  unfold Compiler.addRoot
  split
  · exact h
  · exact h

theorem Opens.complete {result : EStateM.Result Error Compiler Unit} {names : List String}
    (h : Opens c path result names) (hc : c.Complete) :
    Ends result (fun _ c' => c'.Complete) fun _ => True := by
  cases h with
  | registered => exact hc.addRoot _
  | @opened name file id session names named opened run =>
    refine Complete.addRoot (c := { c with session }) (fun f hf => ?_) id
    have hfinishes := run.finishes rfl
    exact (hfinishes.files f hf).elim (fun hf => hfinishes.registered f (hc f hf)) fun h => h
  | unnamed | shadowed | unopened | failed => trivial

theorem openFile_complete (path : String) (hc : c.Complete) :
    Ends (openFile path c) (fun _ c' => c'.Complete) fun _ => True := by
  obtain ⟨names, hopens⟩ := opens_iff.mpr (rfl : openFile path c = _)
  exact hopens.complete hc

theorem openFiles_complete (paths : List String) (hc : c.Complete) :
    Ends (openFiles paths c) (fun _ c' => c'.Complete) fun _ => True := by
  refine Ends.forM (p := fun _ c' => c'.Complete) paths (fun path _ _ c' h => ?_) [] c hc
  exact openFile_complete path h

theorem Call.Succeeds.complete {call : Call} (h : call.Succeeds c) (hc : c.Complete) :
    (call.run c).Complete := by
  have hends : ∀ {result : EStateM.Result Error Compiler Unit}, errorOf? result = none →
      Ends result (fun _ c' => c'.Complete) (fun _ => True) → (stateOf result).Complete := by
    intro result hok hends
    rw [eq_ok_of_errorOf? hok] at hends
    exact hends
  cases call with
  | openFile path => exact hends h (openFile_complete path hc)
  | openFiles paths => exact hends h (openFiles_complete paths hc)
  | includeImports yes => exact hc

/-- While no call fails, all files are complete. -/
theorem AllSucceed.complete (h : AllSucceed c calls) (hc : c.Complete) : (after c calls).Complete := by
  induction calls generalizing c with
  | nil => exact hc
  | cons call calls ih => exact ih h.2 (h.1.complete hc)

/-! ### One warning for each enum -/

/-- The enum is listed in a complete file or in one of its messages, at any depth. -/
def IsEnum (c : Compiler) (e : EnumId) : Prop :=
  ∃ f s, c.session.Registered f ∧ s ∈ Scope.file f :: (c.pool.messagesIn (.file f)).map Scope.block ∧
    e ∈ (c.pool.members s).enums.values

theorem isEnum_iff (hs : Session.Sound (c.session, [])) {e : EnumId} :
    c.IsEnum e ↔ ∃ f, c.session.Registered f ∧ c.pool.EnumOf f e := by
  constructor
  · rintro ⟨f, s, hf, hscope, he⟩
    obtain ⟨hhas, rfl⟩ := hs.tree.mem_enums_iff.mp he
    have hfile := ((hs.tree.mem_scopes_iff (hs.hasFile hf)).mp hscope).2
    exact ⟨f, hf, hhas, (hs.tree.enum_scope e hhas).2.symm.trans hfile⟩
  · rintro ⟨f, hf, he, hfile⟩
    obtain ⟨hscope, hsf⟩ := hs.tree.enum_scope e he
    exact ⟨f, _, hf, (hs.tree.mem_scopes_iff (hs.hasFile hf)).mpr ⟨hscope, hsf.trans hfile⟩,
      hs.tree.mem_enums_iff.mpr ⟨he, rfl⟩⟩

/-- What the warning says about the enum, which is written among some events with its header `header` and
the statements `body` in it, of which `value` is the first value. -/
structure Tells (c : Compiler) (e : EnumId) (w : Warning) (events : List Event) (header : Located String)
    (body : List Event) (value : ValueDecl) : Prop where
  written : ∃ front back, events = front ++ .openEnum header :: (body ++ .close :: back)
  inside : .close ∉ body
  named : (c.pool.enum e).name = header.value
  first : body.findSome? Event.value? = some value
  default : (c.pool.enum e).default? = some (value.number.value, ⟨value.name, value.options⟩)
  notice : w.notice = .enumMissingZero (c.pool.enum e).fullName.text value.name.value header.span
  labels : w.notice.labels = [("defined here", header.span)]

/-- The warning is about the enum and the file that it is written in. -/
def WarnsOf (c : Compiler) (e : EnumId) (w : Warning) : Prop :=
  c.file? w.file = some (c.pool.enum e).file ∧ ∃ file header body value,
    c.resolver.openFile w.file = .ok file ∧ c.Tells e w (Event.ofText file.text).1 header body value

theorem Lawful.warnsOf (hc : Lawful c) {e : EnumId} {w : Warning} (he : c.pool.HasEnum e)
    (hf : c.session.Registered (c.pool.enum e).file) (hzero : (c.pool.enum e).hasZero = false)
    (hw : c.pool.Warns e w) : c.WarnsOf e w := by
  obtain ⟨first, hfirst, rfl⟩ := hw
  obtain ⟨name, hname⟩ := hf
  have hnamed : (c.pool.file (c.pool.enum e).file).name = name :=
    (hc.regular.sound.named name _ hname).2
  have hcompleted := hc.history.registered name _ hname
  obtain ⟨file, opened⟩ := hcompleted.exists_file
  obtain ⟨front, header, body, back, hevents, hwritten, inside⟩ := hcompleted.writes ⟨he, rfl⟩ opened
  have hwritten : (c.pool.enum e).WrittenAs header body := hwritten
  -- the first value in the table is the first one that is written
  have hhead := hwritten.head?_entries
  obtain ⟨value, hvalue, rfl⟩ : ∃ value, body.findSome? Event.value? = some value ∧
      first = ⟨value.name, value.options⟩ := by
    rw [Table.values, List.head?_map, hhead, Option.map_map, Option.map_eq_some_iff] at hfirst
    obtain ⟨value, hvalue, rfl⟩ := hfirst
    exact ⟨value, hvalue, rfl⟩
  have hspan : (c.pool.enum e).span = header.span := hwritten.placed
  refine ⟨hnamed ▸ hname, file, header, body, value, hnamed ▸ opened, ?_⟩
  exact {
    written := ⟨front, back, hevents⟩
    inside
    named := hwritten.named
    first := hvalue
    default := by rw [EnumType.default?_of_not_hasZero hzero, hhead, hvalue]; rfl
    notice := by rw [← hspan]
    labels := by rw [← hspan]; rfl }

/-- After calls that all have succeeded: the warnings are those about the enums of complete files, at any
depth, that have no value numbered zero, and there is one warning for each of these. -/
theorem warnings_match (resolver : Resolver) (calls : List Call)
    (succeeded : AllSucceed (fresh resolver) calls) :
    ∃ enums : List EnumId, enums.Nodup ∧
      (∀ e, e ∈ enums ↔ (after (fresh resolver) calls).IsEnum e ∧
        ((after (fresh resolver) calls).pool.enum e).hasZero = false) ∧
      List.Forall₂ (after (fresh resolver) calls).WarnsOf enums (after (fresh resolver) calls).warnings := by
  have hc := lawful_after resolver calls
  have hcomplete := succeeded.complete (complete_fresh resolver)
  obtain ⟨enums, hwarned⟩ := Session.warned_empty.steps Session.regular_empty Session.history_empty
    (goes_after calls (fresh resolver)).steps
  generalize after (fresh resolver) calls = c at *
  have hsound := hc.regular.sound
  have hregistered : ∀ e, c.pool.HasEnum e → c.session.Registered (c.pool.enum e).file := fun e he =>
    hcomplete _ (hsound.tree.hasFile_of_enumOf ⟨he, rfl⟩)
  refine ⟨enums, hwarned.nodup, fun e => ⟨fun he => ?_, fun ⟨he, hzero⟩ => ?_⟩, ?_⟩
  · obtain ⟨hhas, hzero, -⟩ := hwarned.sound e he
    exact ⟨(isEnum_iff hsound).mpr ⟨_, hregistered e hhas, hhas, rfl⟩, hzero⟩
  · obtain ⟨f, hf, he⟩ := (isEnum_iff hsound).mp he
    refine (hwarned.complete f e (.inl hf) he hzero).resolve_right ?_
    rintro ⟨rd, hrd, -⟩
    cases hrd
  · refine ((List.forall₂_and_left _ _).mpr ⟨hwarned.sound, hwarned.warns⟩).imp ?_
    rintro e w ⟨⟨hhas, hzero, -⟩, hwarns⟩
    exact hc.warnsOf hhas (hregistered e hhas) hzero hwarns

/-- An enum in a message and one in an imported file have no value numbered zero, and one has. -/
def sharing : Resolver :=
  .memory [("a.proto", "import \"b.proto\"; message M \x7b enum E \x7b A = 1; B = 2; \x7d \x7d"),
    ("b.proto", "package p; enum D \x7b FIRST = 5; SECOND = -6; \x7d enum Z \x7b N = 1; O = 0; \x7d"),
    ("c.proto", "import \"b.proto\";")]

/-- Files that share an import, some of them opened again. -/
def sharingCalls : List Call := [.openFile "a.proto", .includeImports true, .openFiles ["c.proto", "a.proto"]]

/-- However often the files are opened, there are two warnings. -/
theorem warnings_match_sharing :
    AllSucceed (fresh sharing) sharingCalls ∧
      (after (fresh sharing) sharingCalls).warnings =
        [⟨.enumMissingZero "p.D" "FIRST" ⟨16, 17⟩, "b.proto"⟩,
          ⟨.enumMissingZero "M.E" "A" ⟨35, 36⟩, "a.proto"⟩] ∧
      ∃ enums : List EnumId, enums.Nodup ∧ enums.length = 2 ∧
        ∀ e, e ∈ enums ↔ (after (fresh sharing) sharingCalls).IsEnum e ∧
          ((after (fresh sharing) sharingCalls).pool.enum e).hasZero = false := by
  have hfirst : errorOf? (openFile "a.proto" (fresh sharing)) = none := by
    decide +kernel
  have hagain : errorOf? (openFiles ["c.proto", "a.proto"]
      (after (fresh sharing) [.openFile "a.proto", .includeImports true])) = none := by
    decide +kernel
  have hwarnings : (after (fresh sharing) sharingCalls).warnings =
      [⟨.enumMissingZero "p.D" "FIRST" ⟨16, 17⟩, "b.proto"⟩,
        ⟨.enumMissingZero "M.E" "A" ⟨35, 36⟩, "a.proto"⟩] := by
    decide +kernel
  have hsucceeded : AllSucceed (fresh sharing) sharingCalls := ⟨hfirst, trivial, hagain, trivial⟩
  obtain ⟨enums, hnodup, hmem, htells⟩ := warnings_match sharing sharingCalls hsucceeded
  refine ⟨hsucceeded, hwarnings, enums, hnodup, ?_, hmem⟩
  rw [htells.length_eq, hwarnings]
  rfl

end Compiler

end ProtoSchema
