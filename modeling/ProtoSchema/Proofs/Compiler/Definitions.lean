import ProtoSchema.Pool.Lookup
import ProtoSchema.Proofs.Compiler.Visibility
import ProtoSchema.Proofs.Compiler.Outlines
import ProtoSchema.Proofs.Session.Listings
import ProtoSchema.Proofs.Token.Names

/-! # Types by full name

A complete file is asked for a type by the text of a full name.  It answers with the type that it
declares under that name, at whatever depth, and there is at most one; where it declares none, the first
of its public imports that has an answer decides (`definitions_exact`). -/

namespace ProtoSchema

namespace Pool

variable {pool : Pool} {f : FileId} {s : Scope} {path : List String} {t : TypeId} {name : String}

/-! ### Declared types -/

/-- A type is declared in a scope, directly or in a message there.  The path to it consists of the names
of the messages around it, outermost first, and of its own name. -/
inductive DeclaredAt (pool : Pool) : Scope → List String → TypeId → Prop
  | message {s n b} (here : (pool.members s).messages.find? n = some b) :
      DeclaredAt pool s [n] (.message b)
  | enum {s n e} (here : (pool.members s).enums.find? n = some e) : DeclaredAt pool s [n] (.enum e)
  | inside {s n b path t} (around : (pool.members s).messages.find? n = some b)
      (declared : DeclaredAt pool (.block b) path t) : DeclaredAt pool s (n :: path) t

/-- A declared type is there, in the file of its scope, and its full name is that of the scope with the
path behind it. -/
theorem WellFormed.of_declaredAt (hw : pool.WellFormed) (h : pool.DeclaredAt s path t) :
    pool.HasType t ∧ pool.typeFile t = pool.scopeFile s ∧
      pool.typeName t = pool.scopeName s ++ path := by
  induction h with
  | @message s n b here =>
    obtain ⟨hb, rfl, hheading⟩ := (hw.message_iff s n b).mp here
    obtain ⟨hx, hname⟩ := heading_eq_message_iff.mp hheading
    exact ⟨⟨hb, hx⟩, (hw.block_scope b hb).2.symm, hname⟩
  | @enum s n e here =>
    obtain ⟨he, rfl, hname⟩ := (hw.enum_iff s n e).mp here
    exact ⟨he, (hw.enum_scope e he).2.symm, hname⟩
  | @inside s n b path t around declared ih =>
    obtain ⟨hb, rfl, hheading⟩ := (hw.message_iff s n b).mp around
    obtain ⟨ht, hfile, hname⟩ := ih
    refine ⟨ht, hfile.trans (hw.block_scope b hb).2.symm, ?_⟩
    have hscope : pool.scopeName (.block b) = pool.scopeName (pool.block b).parent ++ [n] :=
      (heading_eq_message_iff.mp hheading).2
    rw [hname, hscope, List.append_assoc]
    rfl

/-- What is declared in a scope is declared in the file around it. -/
theorem WellFormed.declaredAt_file (hw : pool.WellFormed) (hs : pool.HasScope s)
    (h : pool.DeclaredAt s path t) : ∃ path, pool.DeclaredAt (.file (pool.scopeFile s)) path t := by
  induction hn : scopeRank s using Nat.strongRecOn generalizing s path with
  | ind n ih =>
    cases s with
    | file i => exact ⟨path, h⟩
    | block b =>
      -- one step out, to the parent
      obtain ⟨hparent, hfile⟩ := hw.block_scope b hs.1
      have hlt : scopeRank (pool.block b).parent < n := by
        rw [← hn]
        cases hp : (pool.block b).parent with
        | file i => exact Nat.succ_pos _
        | block p => exact Nat.succ_lt_succ (hw.block_later b p hs.1 hp)
      have hheading := heading_eq_message_iff.mpr ⟨hs.2, rfl⟩
      obtain ⟨m, hm⟩ := hw.message_name b _ hs.1 hheading
      have hfind : (pool.members (pool.block b).parent).messages.find? m = some b :=
        (hw.message_iff _ m b).mpr ⟨hs.1, rfl, hm ▸ hheading⟩
      have hout := ih _ hlt hparent (.inside hfind h) rfl
      rwa [hfile] at hout

/-- The types of a file are those that are declared in it. -/
theorem WellFormed.declaredAt_iff (hw : pool.WellFormed) :
    (∃ path, pool.DeclaredAt (.file f) path t) ↔ pool.HasType t ∧ pool.typeFile t = f := by
  constructor
  · rintro ⟨path, h⟩
    obtain ⟨ht, hfile, -⟩ := hw.of_declaredAt h
    exact ⟨ht, hfile⟩
  · rintro ⟨ht, rfl⟩
    rw [hw.typeFile_eq ht]
    cases t with
    | message b =>
      obtain ⟨n, hn⟩ := hw.message_name b _ ht.1 (heading_eq_message_iff.mpr ⟨ht.2, rfl⟩)
      have hfind : (pool.members (pool.block b).parent).messages.find? n = some b :=
        (hw.message_iff _ n b).mpr ⟨ht.1, rfl, heading_eq_message_iff.mpr ⟨ht.2, hn⟩⟩
      exact hw.declaredAt_file (hw.block_scope b ht.1).1 (.message hfind)
    | enum e =>
      obtain ⟨n, hn⟩ := hw.enum_name e ht
      have hfind := (hw.enum_iff _ n e).mpr ⟨ht, rfl, hn⟩
      exact hw.declaredAt_file (hw.enum_scope e ht).1 (.enum hfind)

/-! ### Questions by name -/

/-- A name without the dot in front of it, if there is one. -/
def withoutDot (name : String) : String :=
  match name.toList with
  | '.' :: rest => String.ofList rest
  | _ => name

theorem definition?_eq : pool.definition? f name =
    (pool.file f).types.find? (DottedName.ofText (withoutDot name)) := rfl

theorem withoutDot_dot (s : String) : withoutDot ("." ++ s) = s := by
  have hlist : ("." ++ s).toList = '.' :: s.toList := by
    rw [String.toList_append]
    rfl
  rw [withoutDot, hlist]
  exact String.ofList_toList

/-- The text of a name of identifiers has no dot in front. -/
theorem withoutDot_text {full : DottedName} (h : ∀ w ∈ full, IsIdent w) :
    withoutDot full.text = full.text := by
  unfold withoutDot
  split
  · next rest hdot =>
    exfalso
    cases full with
    | nil => cases hdot
    | cons w ws =>
      have hname := (h w (List.mem_cons_self ..)).word
      obtain ⟨more, hmore⟩ := exists_intercalate_cons "." w ws
      obtain ⟨c, cs, hw, -⟩ := id hname
      rw [DottedName.text, hmore, String.toList_append, hw] at hdot
      injection hdot with hc
      exact DottedName.not_mem_of_isName hname (by rw [hw, hc]; exact List.mem_cons_self ..)
  · rfl

/-- The files that a file imports publicly, in the order of their imports. -/
def publicImports (pool : Pool) (f : FileId) : List FileId :=
  ((pool.file f).imports.values.filter (·.kind = .publicly)).map Import.file

/-- What a file answers when it is asked for types by name. -/
structure AnswersExactly (pool : Pool) (f : FileId) : Prop where
  /-- The full name of a type of the file is the package with the path of the type behind it. -/
  named : ∀ path t, pool.DeclaredAt (.file f) path t →
    pool.typeName t = (pool.file f).packageName ++ path
  /-- The types of the file are those declared in it. -/
  declared : ∀ t, pool.HasType t → pool.typeFile t = f → ∃ path, pool.DeclaredAt (.file f) path t
  /-- A type of the file is found by its full name, with or without a dot in front. -/
  found : ∀ path t, pool.DeclaredAt (.file f) path t →
    pool.definition? f (pool.typeName t).text = some t ∧
      pool.definition? f ("." ++ (pool.typeName t).text) = some t
  /-- A name that is the full name of a type of the file denotes that type. -/
  own : ∀ name path t, pool.DeclaredAt (.file f) path t → (pool.typeName t).text = withoutDot name →
    pool.definition? f name = some t
  /-- Any other name denotes what it denotes in the first public import where it denotes a type. -/
  passedOn : ∀ name, (∀ path t, pool.DeclaredAt (.file f) path t →
      (pool.typeName t).text ≠ withoutDot name) →
    pool.definition? f name = (pool.publicImports f).findSome? fun g => pool.definition? g name

/-- What is listed under full names is what is answered to questions by name. -/
theorem ListsTypes.answersExactly (h : pool.ListsTypes f) (hw : pool.WellFormed)
    (hl : pool.Legible) : pool.AnswersExactly f := by
  have hown : ∀ name path t, pool.DeclaredAt (.file f) path t →
      (pool.typeName t).text = withoutDot name → pool.definition? f name = some t := by
    intro name path t hd hname
    obtain ⟨ht, hfile, -⟩ := hw.of_declaredAt hd
    have hfind : pool.inFile f (pool.typeName t) = some t := by
      obtain rfl : pool.typeFile t = f := hfile
      exact hw.inFile_typeName ht
    rw [definition?_eq, ← hname, DottedName.ofText_text (hl.typeName hw ht).ident, h, hfind]
    rfl
  refine ⟨fun path t hd => (hw.of_declaredAt hd).2.2,
    fun t ht hfile => hw.declaredAt_iff.mpr ⟨ht, hfile⟩, fun path t hd => ?_, hown, fun name hnot => ?_⟩
  · have hidents := (hl.typeName hw (hw.of_declaredAt hd).1).ident
    exact ⟨hown _ path t hd (withoutDot_text hidents).symm, hown _ path t hd (withoutDot_dot _).symm⟩
  · have hnone : pool.inFile f (DottedName.ofText (withoutDot name)) = none := by
      refine Option.eq_none_iff_forall_ne_some.mpr fun t hfind => ?_
      have ht := hw.hasType_of_inFile hfind
      obtain ⟨hfile, hname⟩ := hw.of_inFile hfind
      obtain ⟨path, hd⟩ := hw.declaredAt_iff.mpr ⟨ht, hfile⟩
      exact hnot path t hd (by rw [hname, DottedName.text_ofText])
    rw [definition?_eq, h, hnone, Option.none_or, listedByImports, publicImports, List.findSome?_map]
    rfl

end Pool

namespace Compiler

variable {f : FileId}

/-- After any calls, a complete file answers exactly: with the type that it declares under a full name,
at any depth, and otherwise with the first answer of its public imports.  These are the imports that its
source has as public ones, each in the place of its first statement. -/
theorem definitions_exact (resolver : Resolver) (calls : List Call)
    (registered : (after (fresh resolver) calls).session.Registered f) :
    (after (fresh resolver) calls).pool.AnswersExactly f ∧
      ∃ name file, (after (fresh resolver) calls).file? name = some f ∧
        resolver.openFile name = .ok file ∧
        (after (fresh resolver) calls).pool.importNames f =
          Event.firstImports (Event.ofText file.text).1 := by
  have hsteps := (goes_after calls (fresh resolver)).steps
  have hlists := Session.listings_empty.steps Session.sound_empty hsteps
  have hc := settled_after resolver calls
  refine ⟨(hlists f registered).answersExactly hc.tree hc.legible.pool, ?_⟩
  obtain ⟨name, hname⟩ := registered
  have hcompleted := (lawful_after resolver calls).history.registered name f hname
  rw [(goes_after calls (fresh resolver)).resolver] at hcompleted
  obtain ⟨file, opened⟩ := hcompleted.exists_file
  exact ⟨name, file, hname, opened, hcompleted.importNames_eq opened⟩

/-- A file in a package with an enum in a message, which passes on a message of another package. -/
def exporting : Compiler :=
  openedFirst "package p; import public \"b.proto\"; message M \x7b enum E \x7b Z = 0; \x7d \x7d"
    [("b.proto", "package q; message N \x7b\x7d")]

/-- The enum is found by the path to it, and the message in the public import. -/
theorem definitions_exporting :
    exporting.session.Registered ⟨0⟩ ∧ exporting.pool.AnswersExactly ⟨0⟩ ∧
      exporting.pool.definition? ⟨0⟩ ".p.M.E" = some (.enum ⟨0⟩) ∧
      exporting.pool.definition? ⟨0⟩ "q.N" = some (.message ⟨0⟩) := by
  have hread : exporting.file? "a.proto" = some ⟨0⟩ ∧
      exporting.pool.definition? ⟨0⟩ ".p.M.E" = some (.enum ⟨0⟩) ∧
      exporting.pool.definition? ⟨0⟩ "q.N" = some (.message ⟨0⟩) := by
    decide +kernel
  obtain ⟨hfile, henum, hmessage⟩ := hread
  exact ⟨⟨_, hfile⟩, (definitions_exact (.memory [("a.proto", _), _]) [.openFile "a.proto"]
    ⟨_, hfile⟩).1, henum, hmessage⟩

end Compiler

end ProtoSchema
