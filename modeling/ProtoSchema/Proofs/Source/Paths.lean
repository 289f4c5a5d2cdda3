import Mathlib.Data.List.Basic
import ProtoSchema.Proofs.Token.Names
import ProtoSchema.Source.Path

/-! # Paths below a directory

The components of the path of a name below a directory are those of the directory and those that the
name spells (`Path.components_join`).  A plain name is spelled in one way only, so two plain names below
the same directory have different paths (`Path.eq_of_components_join`), and the names that are made from
paths are plain (`Path.isPlain_of_nameUnder?`).  Below two directories the paths of different plain names
agree exactly if one of the directories lies below the other (`Path.components_join_eq_iff`). -/

namespace ProtoSchema

theorem Text.splitAt_append_sep (sep : Char) (cs ds : List Char) :
    splitAt sep (cs ++ sep :: ds) = splitAt sep cs ++ splitAt sep ds := by
  fun_induction splitAt sep cs with
  | case1 => simp [splitAt]
  | case2 cs ih => simp [splitAt, ih]
  | case3 c cs hc hnil => exact absurd hnil (splitAt_ne_nil _ _)
  | case4 c cs hc p ps hcs ih =>
    rw [hcs] at ih
    simp [splitAt, hc, ih]

namespace Path

/-- The components of a path without the mark of its beginning. -/
def named (path : String) : List Component := (Text.split '/' path).filterMap Component.ofPiece?

/-- The mark of the beginning of a path. -/
def lead (path : String) : List Component :=
  let first : Option Component :=
    if isAbsolute path then some .root
    else if (Text.split '/' path).head? = some "." then some .current
    else none
  first.toList

theorem components_eq (path : String) : components path = lead path ++ named path := rfl

/-- A name of a file is plain if it is the name of the file at itself. -/
def IsPlain (name : String) : Prop := fileName? name = some name

variable {base name name' path : String}

/-! ### The path of a name -/

theorem split_append (base name : String) :
    Text.split '/' (base ++ "/" ++ name) = Text.split '/' base ++ Text.split '/' name := by
  have hlist : (base ++ "/" ++ name).toList = base.toList ++ '/' :: name.toList := by
    simp
  rw [Text.split, hlist, Text.splitAt_append_sep, List.map_append]
  rfl

theorem split_ne_nil (path : String) : Text.split '/' path ≠ [] := by
  simp [Text.split, Text.splitAt_ne_nil]

theorem named_append (base name : String) : named (base ++ "/" ++ name) = named base ++ named name := by
  rw [named, split_append, List.filterMap_append]
  rfl

theorem isAbsolute_append (h : base ≠ "") (more : String) : isAbsolute (base ++ more) = isAbsolute base := by
  have hne : base.toList ≠ [] := by simpa using h
  simp only [isAbsolute, String.toList_append, List.head?_append_of_ne_nil _ hne]

theorem lead_append (h : base ≠ "") (name : String) : lead (base ++ "/" ++ name) = lead base := by
  have hhead : (Text.split '/' (base ++ "/" ++ name)).head? = (Text.split '/' base).head? := by
    rw [split_append, List.head?_append_of_ne_nil _ (split_ne_nil base)]
  have habsolute : isAbsolute (base ++ "/" ++ name) = isAbsolute base := by
    rw [String.append_assoc, isAbsolute_append h]
  simp only [lead, hhead, habsolute]

/-- What follows a slash does not change how a path begins. -/
theorem lead_slash (front name : String) : lead (front ++ "/" ++ name) = lead (front ++ "/") := by
  by_cases hfront : front = ""
  · subst hfront
    simp [lead, isAbsolute]
  · have := lead_append hfront ""
    rw [lead_append hfront, ← this, String.append_empty]

/-- A relative name below a directory: its components stand behind those of the directory. -/
theorem components_join (hname : isAbsolute name = false) (hbase : base ≠ "") :
    components (join base name) = components base ++ named name := by
  unfold join
  rw [if_neg (by simp [hname])]
  split
  · next hslash =>
    obtain ⟨cs, hcs⟩ := List.getLast?_eq_some_iff.mp (hslash.resolve_left hbase)
    obtain rfl : base = String.ofList cs ++ "/" := by
      rw [← String.ofList_toList (s := base), hcs, String.ofList_append]
    have hempty : named (String.ofList cs ++ "/") = named (String.ofList cs) := by
      have := named_append (String.ofList cs) ""
      rw [String.append_empty] at this
      rw [this]
      simp [named, Text.split, Text.splitAt, Component.ofPiece?]
    rw [components_eq, components_eq, lead_slash, named_append, hempty, List.append_assoc]
  · rw [components_eq, components_eq, lead_append hbase, named_append, List.append_assoc]

/-! ### Plain names -/

theorem lead_of_relative (h : isAbsolute path = false) : lead path ⊆ [.current] := by
  unfold lead
  rw [if_neg (by simp [h])]
  split <;> simp

/-- Only what a name spells is part of the name of its file. -/
theorem fileName?_eq (h : isAbsolute path = false) : fileName? path = nameOf? (named path) := by
  have hlead : (lead path).filter (· ≠ .current) = [] := by
    rw [List.filter_eq_nil_iff]
    intro c hc
    have := lead_of_relative h hc
    simp_all
  simp only [fileName?, nameOf?, components_eq, List.filter_append, hlead, List.nil_append]

/-- The name of a component that has one. -/
def plain? : Component → Option String
  | .normal name => some name
  | _ => none

theorem nameOf?_eq (cs : List Component) :
    nameOf? cs =
      match (cs.filter (· ≠ .current)).mapM plain? with
      | some [] | none => none
      | some names => some ("/".intercalate names) := rfl

theorem mapM_plain? {cs : List Component} : ∀ {names : List String},
    cs.mapM plain? = some names ↔ cs = names.map .normal := by
  induction cs with
  | nil =>
    intro names
    cases names <;> simp
  | cons c cs ih =>
    intro names
    cases c with
    | normal piece =>
      cases names with
      | nil => cases h : cs.mapM plain? <;> simp [plain?, h]
      | cons name names =>
        rw [List.map_cons, List.cons.injEq, ← ih]
        cases h : cs.mapM plain? <;> simp [plain?, h]
    | root | current | parent => cases names <;> simp [plain?]

/-- The components of a plain name, and how it is put together from them. -/
theorem nameOf?_eq_some {cs : List Component} (h : nameOf? cs = some name) :
    ∃ names, names ≠ [] ∧ cs.filter (· ≠ .current) = names.map .normal ∧ name = "/".intercalate names := by
  rw [nameOf?_eq] at h
  split at h
  · cases h
  · cases h
  · next names hne hnames =>
    cases h
    exact ⟨names, fun hnil => hne hnil, mapM_plain?.mp hnames, rfl⟩

theorem nameOf?_map {names : List String} (h : names ≠ []) :
    nameOf? (names.map .normal) = some ("/".intercalate names) := by
  have hfilter : (names.map Component.normal).filter (· ≠ .current) = names.map .normal := by
    rw [List.filter_eq_self]
    intro c hc
    obtain ⟨piece, -, rfl⟩ := List.mem_map.mp hc
    rfl
  rw [nameOf?_eq, hfilter, mapM_plain?.mpr rfl]
  obtain ⟨piece, names, rfl⟩ := List.exists_cons_of_ne_nil h
  rfl

/-- A piece of a path that is a component of its own. -/
def IsPiece (piece : String) : Prop := piece ≠ "" ∧ piece ≠ "." ∧ piece ≠ ".." ∧ '/' ∉ piece.toList

theorem isPiece_of_mem_components {piece : String} (h : .normal piece ∈ components path) : IsPiece piece := by
  rw [components_eq] at h
  obtain hlead | hnamed := List.mem_append.mp h
  · unfold lead at hlead
    split at hlead
    · simp at hlead
    · split at hlead <;> simp at hlead
  · obtain ⟨p, hp, hpiece⟩ := List.mem_filterMap.mp hnamed
    unfold Component.ofPiece? at hpiece
    split at hpiece
    · cases hpiece
    · next hdot =>
      split at hpiece
      · cases hpiece
      · next hparent =>
        cases hpiece
        obtain ⟨cs, hcs, rfl⟩ := List.mem_map.mp hp
        refine ⟨fun h => hdot (.inl h), fun h => hdot (.inr h), hparent, ?_⟩
        rw [String.toList_ofList]
        exact Text.not_mem_of_mem_splitAt hcs

theorem split_of_isPiece {piece : String} (h : IsPiece piece) : Text.split '/' piece = [piece] := by
  rw [Text.split, Text.splitAt_of_not_mem h.2.2.2, List.map_singleton, String.ofList_toList]

theorem named_of_isPiece {piece : String} (h : IsPiece piece) : named piece = [.normal piece] := by
  simp [named, split_of_isPiece h, Component.ofPiece?, h.1, h.2.1, h.2.2.1]

theorem isAbsolute_of_isPiece {piece : String} (h : IsPiece piece) : isAbsolute piece = false := by
  have hslash := h.2.2.2
  unfold isAbsolute
  cases hlist : piece.toList with
  | nil => rfl
  | cons c cs =>
    rw [hlist, List.mem_cons, not_or] at hslash
    simpa using fun hc => hslash.1 hc.symm

/-- Pieces with slashes between them spell these pieces. -/
theorem named_intercalate {piece : String} {pieces : List String} (h : ∀ p ∈ piece :: pieces, IsPiece p) :
    isAbsolute ("/".intercalate (piece :: pieces)) = false ∧
      named ("/".intercalate (piece :: pieces)) = (piece :: pieces).map .normal := by
  induction pieces generalizing piece with
  | nil =>
    have hpiece := h piece (List.mem_singleton_self _)
    rw [String.intercalate_singleton]
    exact ⟨isAbsolute_of_isPiece hpiece, named_of_isPiece hpiece⟩
  | cons next pieces ih =>
    obtain ⟨hpiece, hmore⟩ := List.forall_mem_cons.mp h
    rw [String.intercalate_cons_cons, named_append, named_of_isPiece hpiece, (ih hmore).2]
    refine ⟨?_, rfl⟩
    rw [String.append_assoc, isAbsolute_append hpiece.1, isAbsolute_of_isPiece hpiece]

/-- A name that is made from components of a path spells those that it is made from. -/
theorem named_of_nameOf? {cs : List Component} (hcs : cs ⊆ components path) (h : nameOf? cs = some name) :
    isAbsolute name = false ∧ named name = cs.filter (· ≠ .current) := by
  obtain ⟨names, hne, hnames, rfl⟩ := nameOf?_eq_some h
  obtain ⟨piece, pieces, rfl⟩ := List.exists_cons_of_ne_nil hne
  have hpieces : ∀ p ∈ piece :: pieces, IsPiece p := by
    intro p hp
    have hmem : Component.normal p ∈ cs.filter (· ≠ .current) := hnames ▸ List.mem_map_of_mem hp
    exact isPiece_of_mem_components (hcs (List.mem_of_mem_filter hmem))
  exact hnames ▸ named_intercalate hpieces

/-- Such a name is plain. -/
theorem isPlain_of_nameOf? {cs : List Component} (hcs : cs ⊆ components path) (h : nameOf? cs = some name) :
    IsPlain name := by
  obtain ⟨hrelative, hnamed⟩ := named_of_nameOf? hcs h
  obtain ⟨names, hne, hnames, rfl⟩ := nameOf?_eq_some h
  rw [IsPlain, fileName?_eq hrelative, hnamed, hnames, nameOf?_map hne]

theorem after?_suffix {cs front rest : List Component} (h : after? cs front = some rest) : rest <:+ cs := by
  fun_induction after? cs front with
  | case1 =>
    cases h
    exact List.suffix_rfl
  | case4 =>
    cases h
    exact List.suffix_rfl
  | case3 _ _ ih => exact (ih h).trans (List.suffix_cons _ _)
  | case5 _ _ _ _ _ _ ih => exact (ih h).trans (List.suffix_cons _ _)
  | case2 | case6 => cases h

theorem isPlain_of_nameUnder? {directory : String} (h : nameUnder? directory path = some name) :
    IsPlain name := by
  obtain ⟨rest, hrest, hname⟩ := Option.bind_eq_some_iff.mp h
  exact isPlain_of_nameOf? (after?_suffix hrest).subset hname

theorem isPlain_of_fileName? (h : fileName? path = some name) : IsPlain name :=
  isPlain_of_nameOf? (List.Subset.refl _) h

theorem isAbsolute_of_fileName? (h : fileName? path = some name) : isAbsolute path = false := by
  obtain ⟨names, -, hnames, -⟩ := nameOf?_eq_some h
  by_contra habsolute
  have hroot : Component.root ∈ (components path).filter (· ≠ .current) := by
    simp [components_eq, lead, habsolute]
  rw [hnames] at hroot
  simp at hroot

theorem lead_of_isPlain (h : IsPlain name) : lead name = [] := by
  obtain ⟨names, hne, hnames, heq⟩ := nameOf?_eq_some h
  obtain ⟨piece, pieces, rfl⟩ := List.exists_cons_of_ne_nil hne
  have hpiece : IsPiece piece := by
    have hmem : Component.normal piece ∈ (components name).filter (· ≠ .current) := by
      rw [hnames]
      exact List.mem_cons_self ..
    exact isPiece_of_mem_components (List.mem_of_mem_filter hmem)
  have hhead : (Text.split '/' name).head? = some piece := by
    cases pieces with
    | nil => rw [heq, String.intercalate_singleton, split_of_isPiece hpiece, List.head?_cons]
    | cons next pieces =>
      rw [heq, String.intercalate_cons_cons, split_append, split_of_isPiece hpiece, List.singleton_append,
        List.head?_cons]
  simp [lead, isAbsolute_of_fileName? h, hhead, hpiece.2.1]

theorem components_of_isPlain (h : IsPlain name) : components name = named name := by
  rw [components_eq, lead_of_isPlain h, List.nil_append]

/-- A plain name below a directory: its components stand behind those of the directory. -/
theorem components_join_of_isPlain (base : String) (h : IsPlain name) :
    components (join base name) = components base ++ components name := by
  by_cases hbase : base = ""
  · subst hbase
    have hempty : components "" = [] := by decide +kernel
    simp [join, isAbsolute_of_fileName? h, hempty]
  · rw [components_join (isAbsolute_of_fileName? h) hbase, components_of_isPlain h]

/-- A plain name is known by its components. -/
theorem eq_of_components (hname : IsPlain name) (hname' : IsPlain name')
    (h : components name = components name') : name = name' := by
  have hsame : fileName? name = fileName? name' := by rw [fileName?, h, fileName?]
  exact Option.some.inj (hname.symm.trans (hsame.trans hname'))

/-- Two plain names below the same directory are the same if their paths have the same components. -/
theorem eq_of_components_join (hname : IsPlain name) (hname' : IsPlain name')
    (h : components (join base name) = components (join base name')) : name = name' := by
  rw [components_join_of_isPlain base hname, components_join_of_isPlain base hname'] at h
  exact eq_of_components hname hname' (List.append_cancel_left h)

/-- The directory `inner` lies below `outer`, and what is called `short` below `inner` is called `long`
below `outer`. -/
def Overlaps (outer inner long short : String) : Prop :=
  ∃ between ≠ [], components inner = components outer ++ between ∧
    components long = between ++ components short

/-- Different plain names have paths with the same components exactly if one of the directories lies
below the other. -/
theorem components_join_eq_iff {base' : String} (hname : IsPlain name) (hname' : IsPlain name')
    (hne : name ≠ name') : components (join base name) = components (join base' name') ↔
      Overlaps base base' name name' ∨ Overlaps base' base name' name := by
  rw [components_join_of_isPlain base hname, components_join_of_isPlain base' hname',
    List.append_eq_append_iff]
  have hbetween : ∀ {between}, components name = between ++ components name' → between ≠ [] := by
    rintro between h rfl
    exact hne (eq_of_components hname hname' h)
  have hbetween' : ∀ {between}, components name' = between ++ components name → between ≠ [] := by
    rintro between h rfl
    exact hne (eq_of_components hname' hname h).symm
  constructor
  · rintro (⟨between, hbase, hrest⟩ | ⟨between, hbase, hrest⟩)
    · exact .inl ⟨between, hbetween hrest, hbase, hrest⟩
    · exact .inr ⟨between, hbetween' hrest, hbase, hrest⟩
  · rintro (⟨between, -, hbase, hrest⟩ | ⟨between, -, hbase, hrest⟩)
    · exact .inl ⟨between, hbase, hrest⟩
    · exact .inr ⟨between, hbase, hrest⟩

end Path

end ProtoSchema
