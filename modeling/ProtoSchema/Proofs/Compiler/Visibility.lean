import ProtoSchema.Proofs.Compiler.Bindings
import ProtoSchema.Proofs.Pool.FlatLookup
import ProtoSchema.Proofs.Session.Hiding

/-! # Visible types

After any calls, the references of complete files are bound to visible types: to types of the file
itself, or of files whose types some import passes on (`reference_visible`).  Sources and descriptors write
the absolute name of the type that a reference is bound to.  Nothing keeps two visible types from having the
same full name (`sameNames_visible`), and the absolute name denotes the bound type and nothing else exactly
if no other type is in front of it (`reference_denotesOnly_iff`). -/

namespace ProtoSchema

namespace Session

variable {x : State} {f g : FileId}

/-- In a complete file no reference is left unbound. -/
theorem Numbered.exists_target {s : Session} (h : Numbered s) (hf : s.Registered f) {scope : Scope}
    {name : TypeName} {offset : Nat} {target : Option TypeId}
    (hr : s.pool.Refers f scope name offset target) : ∃ t, target = some t :=
  (h.bound f hf).exists_target hr

/-- All files that a complete file reaches by imports are complete. -/
theorem Sound.registered_of_reaches (hx : Sound x) (hf : x.1.Registered f)
    (hg : x.1.pool.Reaches f g) : x.1.Registered g := by
  induction hg with
  | refl => exact hf
  | tail _ hi ih =>
    obtain ⟨i, hi, rfl⟩ := hi
    obtain ⟨target, htarget⟩ := Table.mem_values_iff.mp hi
    exact ⟨target, hx.imported ih htarget⟩

end Session

namespace Compiler

open Pool (Refers)

/-- After any calls, every reference of a complete file is bound to a type that is declared in a complete
file: in the file itself, in one that it imports, or in one to which a chain of public imports leads from
a file that it imports.  So no reference is bound to a type that is reached only through a plain or
weak import of an imported file. -/
theorem reference_visible (resolver : Resolver) (calls : List Call) {f : FileId} {s : Scope}
    {name : TypeName} {offset : Nat} {target : Option TypeId}
    (registered : (after (fresh resolver) calls).session.Registered f)
    (reference : (after (fresh resolver) calls).pool.Refers f s name offset target) :
    ∃ t, target = some t ∧ (after (fresh resolver) calls).pool.HasType t ∧
      (after (fresh resolver) calls).session.Registered
        ((after (fresh resolver) calls).pool.typeFile t) ∧
      (after (fresh resolver) calls).pool.Visible f
        ((after (fresh resolver) calls).pool.typeFile t) := by
  have hsteps := (goes_after calls (fresh resolver)).steps
  have hgrounds := Session.grounds_empty.steps Session.sound_empty hsteps
  have hnumbered := Session.numbered_empty.steps Session.sound_empty hsteps
  obtain ⟨t, rfl⟩ := hnumbered.exists_target registered reference
  obtain ⟨there, visible⟩ := (hgrounds.registered f registered).bound reference
  exact ⟨t, rfl, there, (sound_after resolver calls).registered_of_reaches registered visible.reaches,
    visible⟩

/-- A compiler that has opened the first of some files. -/
def openedFirst (text : String) (imported : List (String × String)) : Compiler :=
  after (fresh (.memory (("a.proto", text) :: imported))) [.openFile "a.proto"]

/-- The type of a field comes from a file that the imported file imports publicly. -/
def passedOn : Compiler :=
  openedFirst "import \"b.proto\"; message M \x7b optional C c = 1; \x7d"
    [("b.proto", "import public \"c.proto\";"), ("c.proto", "message C \x7b\x7d")]

/-- A reference is bound through an import and a public import behind it. -/
theorem reference_passed_on :
    passedOn.session.Registered ⟨0⟩ ∧
      passedOn.pool.Refers ⟨0⟩ (.block ⟨1⟩) ⟨false, ["C"]⟩ 39 (some (.message ⟨0⟩)) ∧
      ∃ t, some (.message ⟨0⟩) = some t ∧ passedOn.pool.HasType t ∧
        passedOn.session.Registered (passedOn.pool.typeFile t) ∧
        passedOn.pool.Visible ⟨0⟩ (passedOn.pool.typeFile t) := by
  have hread : passedOn.file? "a.proto" = some ⟨0⟩ ∧
      (passedOn.pool.HasField ⟨0⟩ ∧ passedOn.pool.HasBlock (passedOn.pool.field ⟨0⟩).block ∧
        (passedOn.pool.block (passedOn.pool.field ⟨0⟩).block).file = ⟨0⟩) ∧
      (passedOn.pool.field ⟨0⟩).type = .named ⟨false, ["C"]⟩ (some (.message ⟨0⟩)) ∧
      (passedOn.pool.field ⟨0⟩).block = ⟨1⟩ ∧ (passedOn.pool.field ⟨0⟩).typeSpan.start = 39 := by
    decide +kernel
  obtain ⟨hfile, hthere, htype, hblock, hplace⟩ := hread
  have hreg : passedOn.session.Registered ⟨0⟩ := ⟨"a.proto", hfile⟩
  have href := refers_field ⟨0⟩ hthere htype (congrArg Scope.block hblock) hplace
  exact ⟨hreg, href, reference_visible (.memory [("a.proto", _), _, _]) [.openFile "a.proto"] hreg href⟩

/-! ### Visible types of one name -/

/-- The type `t` is visible in the complete file `f`. -/
structure VisibleType (c : Compiler) (f : FileId) (t : TypeId) : Prop where
  registered : c.session.Registered f
  there : c.pool.HasType t
  visible : c.pool.Visible f (c.pool.typeFile t)

/-- After any calls, the absolute name of the type that a reference of a complete file is bound to denotes
that type and nothing else if and only if no other type is in front of it.  Whatever that name leads to is
visible as well and has a full name that ends in it, and a visible type with just that full name is another
one exactly if another file declares it. -/
theorem reference_denotesOnly_iff (resolver : Resolver) (calls : List Call) {f : FileId} {s : Scope}
    {name : TypeName} {offset : Nat} {t : TypeId}
    (registered : (after (fresh resolver) calls).session.Registered f)
    (reference : (after (fresh resolver) calls).pool.Refers f s name offset (some t)) :
    ((after (fresh resolver) calls).pool.DenotesOnly f t ↔
        (after (fresh resolver) calls).pool.Unhidden f t) ∧
      (∀ u, (after (fresh resolver) calls).pool.LeadsTo f ((after (fresh resolver) calls).pool.typeName t) u →
        (after (fresh resolver) calls).VisibleType f u ∧ (after (fresh resolver) calls).pool.typeName t <:+
          (after (fresh resolver) calls).pool.typeName u) ∧
      ∀ u, (after (fresh resolver) calls).VisibleType f u →
        (after (fresh resolver) calls).pool.typeName u = (after (fresh resolver) calls).pool.typeName t →
        (u ≠ t ↔ (after (fresh resolver) calls).pool.typeFile u ≠
          (after (fresh resolver) calls).pool.typeFile t) := by
  have hsteps := (goes_after calls (fresh resolver)).steps
  have hsound := sound_after resolver calls
  have hnamed := Session.sound_empty.typesNamed Session.typesNamed_empty hsteps
  have hlistings := Session.listings_empty.steps Session.sound_empty hsteps
  have hgrounds := Session.grounds_empty.steps Session.sound_empty hsteps
  obtain ⟨hthere, hvisible⟩ := (hgrounds.registered f registered).bound reference
  refine ⟨?_, fun u hu => ?_, fun u hu hname => not_congr ⟨fun he => by rw [he], fun hfile => ?_⟩⟩
  · exact hsound.tree.denotesOnly_iff hnamed
      (fun g hg => hlistings g (hsound.registered_of_reaches registered hg)) hthere hvisible
  · obtain ⟨hu, hv, hsuffix⟩ := hu.visible hsound.tree hnamed fun i hi =>
      hgrounds.registered _ (hsound.registered_import registered hi)
    exact ⟨⟨registered, hu, hv⟩, hsuffix⟩
  · exact hsound.tree.eq_of_typeName hu.there hthere hfile hname

/-- Two imports declare messages of one full name; the field is bound to that of the first one. -/
def firstOfTwo : Compiler :=
  openedFirst ("package p; import \"x.proto\"; import \"y.proto\"; " ++
    "message M \x7b optional A a = 1; \x7d")
    [("x.proto", "package p; message A \x7b\x7d"), ("y.proto", "package p; message A \x7b\x7d")]

/-- The absolute name of the first message denotes that message only, since it is in front of the other. -/
theorem firstOfTwo_denotesOnly :
    firstOfTwo.session.Registered ⟨0⟩ ∧
      firstOfTwo.pool.Refers ⟨0⟩ (.block ⟨2⟩) ⟨false, ["A"]⟩ 68 (some (.message ⟨0⟩)) ∧
      firstOfTwo.pool.typeName (.message ⟨0⟩) = ["p", "A"] ∧
      firstOfTwo.pool.typeName (.message ⟨1⟩) = ["p", "A"] ∧
      firstOfTwo.pool.Unhidden ⟨0⟩ (.message ⟨0⟩) ∧ firstOfTwo.pool.DenotesOnly ⟨0⟩ (.message ⟨0⟩) := by
  have hread : firstOfTwo.file? "a.proto" = some ⟨0⟩ ∧
      (firstOfTwo.pool.HasField ⟨0⟩ ∧ firstOfTwo.pool.HasBlock (firstOfTwo.pool.field ⟨0⟩).block ∧
        (firstOfTwo.pool.block (firstOfTwo.pool.field ⟨0⟩).block).file = ⟨0⟩) ∧
      (firstOfTwo.pool.field ⟨0⟩).type = .named ⟨false, ["A"]⟩ (some (.message ⟨0⟩)) ∧
      (firstOfTwo.pool.field ⟨0⟩).block = ⟨2⟩ ∧ (firstOfTwo.pool.field ⟨0⟩).typeSpan.start = 68 := by
    decide +kernel
  have hnames : firstOfTwo.pool.typeName (.message ⟨0⟩) = ["p", "A"] ∧
      firstOfTwo.pool.typeName (.message ⟨1⟩) = ["p", "A"] ∧
      (∀ u ∈ firstOfTwo.pool.allTypes, firstOfTwo.pool.typeFile u ≠ ⟨0⟩ ∨
        firstOfTwo.pool.typeName u ≠ ["p", "A"]) ∧
      (firstOfTwo.pool.file ⟨0⟩).imports.values = [⟨⟨1⟩, .plain⟩, ⟨⟨2⟩, .plain⟩] ∧
      (firstOfTwo.pool.file ⟨1⟩).types.find? ["p", "A"] = some (.message ⟨0⟩) := by
    decide +kernel
  obtain ⟨hfile, hthere, htype, hblock, hplace⟩ := hread
  obtain ⟨hname, hname', hown, himports, hfirst⟩ := hnames
  have hreg : firstOfTwo.session.Registered ⟨0⟩ := ⟨"a.proto", hfile⟩
  have href := refers_field ⟨0⟩ hthere htype (congrArg Scope.block hblock) hplace
  have hunhidden : firstOfTwo.pool.Unhidden ⟨0⟩ (.message ⟨0⟩) := by
    refine ⟨fun u hu hfile hsame => ?_, fun before j after hsplit front u _ _ => ⟨⟨⟨1⟩, .plain⟩, ?_, ?_⟩⟩
    · exact ((hown u (Pool.mem_allTypes_iff.mpr hu)).elim (absurd hfile) (absurd (hsame.trans hname)))
    · rcases List.cons_eq_append_iff.mp (himports.symm.trans hsplit) with ⟨rfl, h⟩ | ⟨rest, rfl, -⟩
      · rw [(List.cons.inj h).1]
        exact List.mem_cons_self ..
      · exact List.mem_append_left _ (List.mem_cons_self ..)
    · rw [hname]
      exact hfirst
  exact ⟨hreg, href, hname, hname', hunhidden, (reference_denotesOnly_iff
    (.memory [("a.proto", _), _, _]) [.openFile "a.proto"] hreg href).1.mpr hunhidden⟩

/-- A file and its import declare types of one full name. -/
def sameNames : Compiler :=
  openedFirst ("package p; import \"x.proto\"; message M \x7b optional A a = 1; \x7d " ++
    "enum A \x7b Z = 0; \x7d") [("x.proto", "package p; message A \x7b\x7d")]

/-- What the files declare and import, and what the field is bound to. -/
theorem sameNames_read :
    sameNames.file? "a.proto" = some ⟨0⟩ ∧
      ⟨⟨1⟩, .plain⟩ ∈ (sameNames.pool.file ⟨0⟩).imports.values ∧
      (sameNames.pool.HasBlock ⟨0⟩ ∧ (sameNames.pool.block ⟨0⟩).isExtend = false) ∧
      sameNames.pool.HasEnum ⟨0⟩ ∧ (sameNames.pool.block ⟨0⟩).file = ⟨1⟩ ∧
      (sameNames.pool.enum ⟨0⟩).file = ⟨0⟩ ∧ (sameNames.pool.block ⟨0⟩).fullName = ["p", "A"] ∧
      (sameNames.pool.enum ⟨0⟩).fullName = ["p", "A"] ∧
      (sameNames.pool.field ⟨0⟩).type = .named ⟨false, ["A"]⟩ (some (.message ⟨0⟩)) ∧
      sameNames.pool.resolve? ⟨0⟩ (.block ⟨1⟩) ⟨true, ["p", "A"]⟩ = some (.enum ⟨0⟩) := by
  decide +kernel

theorem visible_sameNames : sameNames.VisibleType ⟨0⟩ (.message ⟨0⟩) ∧
    sameNames.VisibleType ⟨0⟩ (.enum ⟨0⟩) := by
  obtain ⟨hfile, himport, hblock, henum, hx, ha, -⟩ := sameNames_read
  exact ⟨⟨⟨_, hfile⟩, hblock, .inr ⟨⟨1⟩, ⟨_, himport, rfl⟩, .of_eq hx⟩⟩, ⟨_, hfile⟩, henum, .inl ha⟩

/-- Full names do not tell visible types apart: in a complete file a message of its import and an enum of
its own are visible and have one full name.  Its field is bound to the message, and looked up as an
absolute name, that full name denotes the enum. -/
theorem sameNames_visible :
    (sameNames.VisibleType ⟨0⟩ (.message ⟨0⟩) ∧ sameNames.VisibleType ⟨0⟩ (.enum ⟨0⟩)) ∧
      sameNames.pool.typeName (.message ⟨0⟩) = ["p", "A"] ∧
      sameNames.pool.typeName (.enum ⟨0⟩) = ["p", "A"] ∧
      (sameNames.pool.field ⟨0⟩).type = .named ⟨false, ["A"]⟩ (some (.message ⟨0⟩)) ∧
      sameNames.pool.resolve? ⟨0⟩ (.block ⟨1⟩) ⟨true, ["p", "A"]⟩ = some (.enum ⟨0⟩) := by
  obtain ⟨-, -, -, -, -, -, hx, ha, hfield, hlookup⟩ := sameNames_read
  exact ⟨visible_sameNames, hx, ha, hfield, hlookup⟩

end Compiler

end ProtoSchema
