import ProtoSchema.Proofs.Source.Paths

/-! # Beginnings and endings of paths

Paths are compared by their proper components: those other than `.`.  One path is found at the front of
another one exactly if its proper components begin those of the other (`Path.isSome_after?`), and so for
the ends (`Path.endsWith_iff`).  Behind the path of a directory stands what the name of a file spells, so
whether the file of a name below one directory passes for the file below another one depends on the two
directories alone: the proper components of the one must end in those of the other
(`Path.endsWith_join_iff`). -/

namespace ProtoSchema

namespace Path

variable {cs ds front rest : List Component} {base directory name path : String}

/-- The components other than `.`. -/
def proper (cs : List Component) : List Component := cs.filter (· ≠ .current)

@[simp] theorem proper_nil : proper [] = [] := rfl

@[simp] theorem proper_current : proper (.current :: cs) = proper cs := rfl

theorem proper_cons {c : Component} (h : c ≠ .current) : proper (c :: cs) = c :: proper cs :=
  List.filter_cons_of_pos (by simpa using h)

theorem proper_append (cs ds : List Component) : proper (cs ++ ds) = proper cs ++ proper ds :=
  List.filter_append ..

theorem proper_reverse (cs : List Component) : proper cs.reverse = (proper cs).reverse :=
  List.filter_reverse ..

theorem proper_eq_nil_iff : proper cs = [] ↔ cs.all (· = .current) = true := by
  simp [proper, List.filter_eq_nil_iff]

/-- Components `.` in front do not count. -/
theorem proper_of_dropWhile (h : cs.dropWhile (· = .current) = ds) : proper cs = proper ds := by
  subst h
  induction cs with
  | nil => rfl
  | cons c cs ih =>
    by_cases hc : c = .current
    · subst hc
      exact ih
    · rw [List.dropWhile_cons_of_neg (by simpa using hc)]

theorem ne_current_of_dropWhile {c : Component} (h : cs.dropWhile (· = .current) = c :: ds) :
    c ≠ .current := by
  have hhead := List.head?_dropWhile_not (fun c => decide (c = Component.current)) cs
  rw [h] at hhead
  exact of_decide_eq_false hhead

/-! ### Beginnings -/

/-- A path that begins with `front` goes on with what is left. -/
theorem proper_of_after? (h : after? cs front = some rest) :
    proper cs = proper front ++ proper rest := by
  fun_induction after? cs front with
  | case1 front hall =>
    cases h
    rw [proper_eq_nil_iff.mpr hall]
    rfl
  | case2 => cases h
  | case3 cs front ih => exact ih h
  | case4 c cs front hc hfront =>
    cases h
    rw [proper_of_dropWhile hfront]
    rfl
  | case5 cs front c front' hfront hc ih =>
    rw [proper_of_dropWhile hfront, proper_cons hc, proper_cons hc, ih h]
    rfl
  | case6 => cases h

theorem isSome_after? : (after? cs front).isSome = true ↔ proper front <+: proper cs := by
  constructor
  · intro h
    obtain ⟨rest, hrest⟩ := Option.isSome_iff_exists.mp h
    exact ⟨proper rest, (proper_of_after? hrest).symm⟩
  · intro h
    fun_induction after? cs front with
    | case1 | case4 => rfl
    | case2 front hall => exact absurd (proper_eq_nil_iff.mp (List.prefix_nil.mp h)) hall
    | case3 cs front ih => exact ih h
    | case5 cs front c front' hfront hc ih =>
      rw [proper_of_dropWhile hfront, proper_cons hc, proper_cons hc] at h
      exact ih (List.cons_prefix_cons.mp h).2
    | case6 c cs front hc f front' hfront hne =>
      rw [proper_of_dropWhile hfront, proper_cons (ne_current_of_dropWhile hfront), proper_cons hc] at h
      exact absurd (List.cons_prefix_cons.mp h).1.symm hne

/-- Does a path end in another one? -/
theorem endsWith_iff {ending : String} :
    endsWith path ending = true ↔ proper (components ending) <:+ proper (components path) := by
  rw [endsWith, isSome_after?, proper_reverse, proper_reverse, List.reverse_prefix]

/-! ### Files below directories -/

theorem proper_lead (h : isAbsolute path = false) : proper (lead path) = [] := by
  refine List.filter_eq_nil_iff.mpr fun c hc => ?_
  have hcurrent := List.mem_singleton.mp (lead_of_relative h hc)
  simp [hcurrent]

theorem proper_components (h : isAbsolute path = false) :
    proper (components path) = proper (named path) := by
  rw [components_eq, proper_append, proper_lead h, List.nil_append]

/-- Behind the path of a directory stands what a relative name spells. -/
theorem proper_join (h : isAbsolute name = false) (base : String) :
    proper (components (join base name)) =
      proper (components base) ++ proper (components name) := by
  rw [proper_components h]
  by_cases hbase : base = ""
  · subst hbase
    have hjoin : join "" name = name := by simp [join, h]
    rw [hjoin, proper_components h]
    rfl
  · rw [components_join h hbase, proper_append]

/-- A path below a directory: behind the directory stands what the name of its file spells. -/
theorem proper_of_nameUnder? (h : nameUnder? directory path = some name) :
    isAbsolute name = false ∧
      proper (components path) = proper (components directory) ++ proper (components name) := by
  obtain ⟨rest, hrest, hname⟩ := Option.bind_eq_some_iff.mp h
  obtain ⟨hrelative, hnamed⟩ := named_of_nameOf? (after?_suffix hrest).subset hname
  refine ⟨hrelative, ?_⟩
  rw [proper_of_after? hrest, proper_components hrelative, hnamed, proper, proper, proper,
    List.filter_filter]
  simp only [Bool.and_self]

/-- Whether the file of the same name below the directory `base` passes for the one at a path. -/
theorem endsWith_join_iff (h : nameUnder? directory path = some name) (base : String) :
    endsWith (join base name) path = true ↔
      proper (components directory) <:+ proper (components base) := by
  obtain ⟨hrelative, hpath⟩ := proper_of_nameUnder? h
  rw [endsWith_iff, proper_join hrelative, hpath]
  exact List.suffix_append_self_iff

/-- The file of the same name below the directory `base` is at the same path only if the directories
are the same. -/
theorem proper_join_eq_iff (h : nameUnder? directory path = some name) (base : String) :
    proper (components (join base name)) = proper (components path) ↔
      proper (components base) = proper (components directory) := by
  obtain ⟨hrelative, hpath⟩ := proper_of_nameUnder? h
  rw [proper_join hrelative, hpath, List.append_left_inj]

/-- The mark of the beginning stands nowhere else in a path. -/
theorem root_not_mem_named (path : String) : Component.root ∉ named path := by
  intro h
  obtain ⟨piece, -, hpiece⟩ := List.mem_filterMap.mp h
  unfold Component.ofPiece? at hpiece
  split at hpiece
  · cases hpiece
  · split at hpiece <;> cases hpiece

theorem proper_of_absolute (h : isAbsolute path = true) :
    proper (components path) = .root :: proper (named path) := by
  rw [components_eq, lead, if_pos h]
  rfl

/-- No other path ends in an absolute one. -/
theorem eq_of_suffix (h : isAbsolute directory = true)
    (hsuffix : proper (components directory) <:+ proper (components base)) :
    proper (components base) = proper (components directory) := by
  have hroot : Component.root ∉ proper (named base) := fun hmem =>
    root_not_mem_named base (List.mem_of_mem_filter hmem)
  have hmem : Component.root ∈ proper (components directory) := by
    rw [proper_of_absolute h]
    exact List.mem_cons_self ..
  cases hbase : isAbsolute base with
  | false =>
    rw [proper_components hbase] at hsuffix
    exact absurd (hsuffix.mem hmem) hroot
  | true =>
    rw [proper_of_absolute hbase] at hsuffix ⊢
    obtain heq | hlater := List.suffix_cons_iff.mp hsuffix
    · exact heq.symm
    · exact absurd (hlater.mem hmem) hroot

end Path

end ProtoSchema
