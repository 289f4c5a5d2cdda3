import ProtoSchema.Proofs.Compiler.Failures
import ProtoSchema.Proofs.Session.Places

/-! # Diagnostics

When a path cannot be opened because of an error inside a text, the error names the file whose text was
being read, and everything that it shows is found there (`openFile_diagnosed`).  The only other errors of
this kind are those that a resolver hands out itself, and the resolvers for texts in memory and for
include directories hand out none (`Resolver.quiet_memory`, `Resolver.quiet_directories`). -/

namespace ProtoSchema

/-! ### Resolvers -/

namespace Resolver

/-- The resolver hands out no errors inside texts. -/
def Quiet (r : Resolver) : Prop := ∀ name e, r.openFile name = .error e → e.span? = none

theorem error_of_memory {files : List (String × String)} {name : String} {e : Error}
    (h : (memory files).openFile name = .error e) : e = .fileNotFound name ∨ e = .fileTooLarge name := by
  simp only [memory] at h
  split at h
  · cases h
    exact .inl rfl
  · split at h <;> cases h
    exact .inr rfl

theorem error_of_directory {disk : Disk} {dir name : String} {e : Error}
    (h : (directory disk dir).openFile name = .error e) :
    e = .fileNotFound name ∨ e = .fileTooLarge name ∨ e = .fileNotUtf8 name ∨
      ∃ path cause, e = .openFailed name path cause := by
  simp only [directory, readFile] at h
  split at h
  · cases h
    exact .inl rfl
  · cases h
    exact .inr (.inr (.inr ⟨_, _, rfl⟩))
  · split at h
    · cases h
      exact .inr (.inl rfl)
    · split at h <;> cases h
      exact .inr (.inr (.inl rfl))

/-- What ends a search in several resolvers is that none of them has the file, or one of them says so. -/
theorem error_of_openFirst {rs : List Resolver} {name : String} {e : Error} (h : openFirst name rs = .error e) :
    e = .fileNotFound name ∨ ∃ r ∈ rs, r.openFile name = .error e := by
  induction rs with
  | nil =>
    cases h
    exact .inl rfl
  | cons r rs ih =>
    unfold openFirst at h
    split at h
    · cases h
    · next e' he' =>
      split at h
      · exact (ih h).imp_right fun ⟨r', hr', he⟩ => ⟨r', List.mem_cons_of_mem _ hr', he⟩
      · cases h
        exact .inr ⟨r, List.mem_cons_self .., he'⟩

theorem quiet_memory (files : List (String × String)) : (memory files).Quiet := by
  intro name e h
  rcases error_of_memory h with rfl | rfl <;> rfl

theorem quiet_directory (disk : Disk) (dir : String) : (directory disk dir).Quiet := by
  intro name e h
  rcases error_of_directory h with rfl | rfl | rfl | ⟨path, cause, rfl⟩ <;> rfl

theorem quiet_chain {rs : List Resolver} (h : ∀ r ∈ rs, r.Quiet) : (chain rs).Quiet := by
  intro name e he
  rcases error_of_openFirst he with rfl | ⟨r, hr, he⟩
  · rfl
  · exact h r hr name e he

theorem quiet_directories (disk : Disk) (dirs : List String) : (directories disk dirs).Quiet := by
  refine quiet_chain fun r hr => ?_
  obtain ⟨dir, -, rfl⟩ := List.mem_map.mp hr
  exact quiet_directory disk dir

end Resolver

namespace Compiler

variable {c : Compiler} {path name : String} {e : Error} {x : Session} {span : Span}

/-! ### Errors of an opening -/

theorem error_of_nameOf {resolver : Resolver} (h : nameOf resolver path = .error e) :
    e = .fileNotIncluded path := by
  unfold nameOf at h
  split at h <;> cases h
  rfl

theorem error_of_checkShadow {expected : String} {actual : Option String}
    (h : checkShadow name actual expected = .error e) : ∃ shadow, e = .fileShadowed name expected shadow := by
  unfold checkShadow at h
  split at h
  · cases h
  · split at h <;> cases h
    exact ⟨_, rfl⟩

/-- A text is not opened for a reason of the resolver, or the file is missing or lies elsewhere. -/
theorem error_of_openText {resolver : Resolver} (h : openText resolver path name = .error e) :
    resolver.openFile name = .error e ∨ e = .fileNotIncluded path ∨
      ∃ shadow, e = .fileShadowed name path shadow := by
  rw [openText_eq] at h
  cases hopen : resolver.openFile name with
  | error e' =>
    simp only [hopen, Except.error.injEq] at h
    split at h
    · exact .inr (.inl h.symm)
    · exact .inl (congrArg Except.error h)
  | ok file =>
    simp only [hopen] at h
    cases hshadow : checkShadow name file.path path with
    | ok u =>
      simp only [hshadow] at h
      cases h
    | error e' =>
      simp only [hshadow] at h
      cases h
      exact .inr (.inr (error_of_checkShadow hshadow))

/-- An error inside a text for a file that is to be opened is the resolver's. -/
theorem openFile_of_openText {resolver : Resolver} (h : openText resolver path name = .error e)
    (hspan : e.span? = some span) : resolver.openFile name = .error e := by
  rcases error_of_openText h with h | rfl | ⟨shadow, rfl⟩
  · exact h
  · cases hspan
  · cases hspan

/-- An error inside a text that ends the opening of a path.  `x` is the session that is left. -/
inductive Diagnosed (resolver : Resolver) (path : String) (x : Session) (e : Error) (span : Span) : Prop
  /-- A file that the path leads to could not be opened, for this reason. -/
  | handedOut {name n : String} (named : nameOf resolver path = .ok name)
      (imported : Relation.ReflTransGen resolver.Imports name n) (unopened : resolver.openFile n = .error e) :
      Diagnosed resolver path x e span
  /-- The error was met while a file was read that the path leads to, and is shown in the text of that
  file. -/
  | shown {name : String} {s : Session} {rd : Session.Reading} {file : SourceFile}
      (named : nameOf resolver path = .ok name) (imported : Relation.ReflTransGen resolver.Imports name rd.name)
      (underway : Session.Underway resolver x s rd) (met : rd.Meets resolver s e)
      (opened : resolver.openFile rd.name = .ok file) (shown : e.ShownIn rd.name file.text span) :
      Diagnosed resolver path x e span

theorem diagnosed_of_comesFrom {resolver : Resolver} (named : nameOf resolver path = .ok name)
    (h : Session.ComesFrom resolver x name e) (hspan : e.span? = some span) :
    Diagnosed resolver path x e span := by
  cases h with
  | resolver imported unopened => exact .handedOut named imported unopened
  | reading imported underway met =>
    obtain ⟨file, opened, htext, -⟩ := underway.traced.opened
    exact .shown named imported underway met opened
      (htext ▸ met.shownIn underway.traced underway.regular hspan)

/-- A file whose text was opened and that is not loaded. -/
theorem comesFrom_of_loadOpened (hc : Lawful c) (free : c.session.registry.find? name = none)
    {file : SourceFile} (opened : c.resolver.openFile name = .ok file)
    (failed : Session.loadOpened c.resolver name file c.session = .error e x) (hspan : e.span? = some span) :
    Session.ComesFrom c.resolver x name e := by
  rw [Session.loadOpened_eq free opened] at failed
  have hfails : Session.Fails c.resolver x _ [] name e :=
    Session.failsSoundly c.resolver _ hc.regular hc.history failed
  exact hfails.comesFrom hspan

/-- After any calls, an error inside a text that ends the opening of a path names the file that was being
read, the one at the path or one that it imports, unless the resolver has handed it out.  All that the
error shows lies between characters of the text of that file, one place before the other, and its line
and column count the newlines in front of the place that it reports, and the bytes behind the last of
them. -/
theorem openFile_diagnosed (resolver : Resolver) (calls : List Call) (path : String) (e : Error) (span : Span)
    (c' : Compiler) (failed : openFile path (after (fresh resolver) calls) = .error e c')
    (located : e.span? = some span) : Diagnosed resolver path c'.session e span := by
  have hc := lawful_after resolver calls
  have hresolver : (after (fresh resolver) calls).resolver = resolver := (goes_after calls _).resolver
  generalize after (fresh resolver) calls = c at *
  subst hresolver
  rw [openFile_eq] at failed
  cases named : nameOf c.resolver path with
  | error e' =>
    simp only [named] at failed
    cases failed
    obtain rfl := error_of_nameOf named
    cases located
  | ok name =>
    simp only [named] at failed
    cases free : c.session.registry.find? name with
    | some f =>
      rw [loadAt_of_registered free] at failed
      cases hshadow : checkShadow name (c.pool.file f).path path with
      | ok u =>
        simp only [hshadow] at failed
        cases failed
      | error e' =>
        simp only [hshadow] at failed
        cases failed
        obtain ⟨shadow, rfl⟩ := error_of_checkShadow hshadow
        cases located
    | none =>
      rw [loadAt_of_free free] at failed
      cases opened : openText c.resolver path name with
      | error e' =>
        simp only [opened] at failed
        cases failed
        exact .handedOut named .refl (openFile_of_openText opened located)
      | ok file =>
        simp only [opened] at failed
        cases hload : Session.loadOpened c.resolver name file c.session with
        | ok id x =>
          simp only [hload] at failed
          cases failed
        | error e' x =>
          simp only [hload] at failed
          cases failed
          have hopen := openText_eq_ok opened
          exact diagnosed_of_comesFrom named (comesFrom_of_loadOpened hc free hopen hload located) located

/-! ### A fault in an imported file -/

/-- A text that declares a message twice, behind a character of two bytes. -/
def doubledText : String := "/* é */ message M {}\nmessage M {}"

/-- A file that imports the text. -/
def doubled : Resolver := .memory [("a.proto", "import \"b.proto\";"), ("b.proto", doubledText)]

/-- The fault is reported where the imported file declares the message again. -/
theorem openFile_diagnosed_doubled :
    let error := Error.source (.duplicateName "M" "b.proto" ⟨17, 18⟩ ⟨30, 31⟩) "b.proto" doubledText
    let failed := stateOf (openFile "a.proto" (fresh doubled))
    openFile "a.proto" (fresh doubled) = .error error failed ∧ error.span? = some ⟨30, 31⟩ ∧
      error.location? = some ("b.proto", ⟨2, 9⟩) ∧
      Diagnosed doubled "a.proto" failed.session error ⟨30, 31⟩ := by
  intro error failed
  have hfailed : openFile "a.proto" (fresh doubled) = .error error failed :=
    eq_error_of_errorOf? (by decide +kernel)
  exact ⟨hfailed, rfl, by decide +kernel, openFile_diagnosed doubled [] _ _ _ _ hfailed rfl⟩

end Compiler

end ProtoSchema
