import ProtoSchema.Pool.Statements
import ProtoSchema.Proofs.Session.AbsoluteNames

/-! # Hidden full names

The absolute name of a type that is visible in a file leads somewhere, though not always to that type: the
file may declare another type with the name, and an import in front of the one that lists the type may list
another one, under that name or behind a front part of its package.  If nothing is in front of the type in
this sense, then its absolute name denotes the type and nothing else (`denotesOnly_iff`). -/

namespace ProtoSchema.Pool

variable {pool : Pool} {f : FileId} {own imported front name N : DottedName} {t u : TypeId}

/-- The absolute name of the type denotes the type in every scope of the file, and neither the file nor its
imports have another type for that name. -/
structure DenotesOnly (pool : Pool) (f : FileId) (t : TypeId) : Prop where
  found : ∀ s, pool.resolve? f s (pool.absoluteName t) = some t
  only : ∀ u, pool.LeadsTo f (pool.absoluteName t).segments u → u = t

/-- No other type is in front of the type `t` where its full name is looked up in the file. -/
structure Unhidden (pool : Pool) (f : FileId) (t : TypeId) : Prop where
  /-- The file declares no other type with that full name. -/
  own : ∀ u, pool.HasType u → pool.typeFile u = f → pool.typeName u = pool.typeName t → u = t
  /-- Whatever an import lists under that name, or behind a front part of its package that is not shorter
  than what the packages share, that import or one in front of it lists `t` under just that name. -/
  imported : ∀ before j after, (pool.file f).imports.values = before ++ j :: after → ∀ front u,
    (front = [] ∨ front <+: (pool.file j.file).packageName ∧
      (pool.file f).packageName.sharedLength (pool.file j.file).packageName ≤ front.length) →
    (pool.file j.file).types.find? (front ++ pool.typeName t) = some u →
    ∃ i ∈ before ++ [j], (pool.file i.file).types.find? (pool.typeName t) = some t

theorem mem_qualifications_iff : name ∈ qualifications own imported N ↔
    ∃ front, name = front ++ N ∧
      (front = [] ∨ front <+: imported ∧ own.sharedLength imported ≤ front.length) := by
  refine ⟨mem_qualifications, ?_⟩
  rintro ⟨front, rfl, rfl | ⟨hfront, hlength⟩⟩
  · exact List.mem_cons_self ..
  · by_cases hempty : imported = []
    · subst hempty
      rw [List.prefix_nil.mp hfront]
      exact List.mem_cons_self ..
    · refine List.mem_cons_of_mem _ ?_
      rw [if_neg hempty]
      refine List.mem_map.mpr ⟨front.length, ?_, by rw [← List.prefix_iff_eq_take.mp hfront]⟩
      have hle := hfront.length_le
      rw [List.mem_reverse, List.mem_range'_1]
      omega

/-! ### Visible types -/

/-- The full name of a visible type leads to some type. -/
theorem WellFormed.exists_leadsTo (hw : pool.WellFormed)
    (hlists : ∀ g, pool.Reaches f g → pool.ListsTypes g) (ht : pool.HasType t)
    (hv : pool.Visible f (pool.typeFile t)) : ∃ u, pool.LeadsTo f (pool.typeName t) u := by
  have hlisted : ∀ {i}, pool.Reaches f i → pool.PassesOn i (pool.typeFile t) →
      ∃ u, (pool.file i).types.find? (pool.typeName t) = some u := by
    intro i hi hp
    induction hp using Relation.ReflTransGen.head_induction_on with
    | refl =>
      rw [hlists _ hi, hw.inFile_typeName ht]
      exact ⟨t, rfl⟩
    | head hk _ ih =>
      obtain ⟨u, hu⟩ := ih (hi.tail hk.importsFile)
      obtain ⟨k, hk, hkind, rfl⟩ := hk
      rw [hlists _ hi]
      refine Option.ne_none_iff_exists'.mp fun hnone => ?_
      have hall := List.findSome?_eq_none_iff.mp (Option.or_eq_none_iff.mp hnone).2 k
        (List.mem_filter.mpr ⟨hk, by simp [hkind]⟩)
      exact Option.some_ne_none _ (hu.symm.trans hall)
  rcases hv with hv | ⟨i, hi, hp⟩
  · exact ⟨t, .inl (hv ▸ hw.inFile_typeName ht)⟩
  · obtain ⟨u, hu⟩ := hlisted (.single hi) hp
    obtain ⟨k, hk, rfl⟩ := hi
    have hsome : ∃ u, pool.inImports f (pool.typeName t) = some u := by
      refine Option.ne_none_iff_exists'.mp fun hnone => ?_
      have hall := List.findSome?_eq_none_iff.mp
        (List.findSome?_eq_none_iff.mp hnone k hk) _ (List.mem_cons_self ..)
      exact Option.some_ne_none _ (hu.symm.trans hall)
    exact hsome.imp fun _ => .inr

/-- What a full name leads to is visible, and its own full name ends in that name. -/
theorem LeadsTo.visible (h : pool.LeadsTo f N u) (hw : pool.WellFormed) (hn : pool.TypesNamed)
    (hg : ∀ i ∈ (pool.file f).imports.values, pool.Grounded i.file) :
    pool.HasType u ∧ pool.Visible f (pool.typeFile u) ∧ N <:+ pool.typeName u := by
  rcases h with h | h
  · obtain ⟨hfile, hname⟩ := hw.of_inFile h
    exact ⟨hw.hasType_of_inFile h, .inl hfile, hname ▸ List.suffix_rfl⟩
  · obtain ⟨i, hi, front, hname, hfind, -⟩ := hn.of_inImports h
    obtain ⟨hthere, hpassed⟩ := (hg i hi).listed hfind
    exact ⟨hthere, .inr ⟨_, ⟨i, hi, rfl⟩, hpassed⟩, front, hname.symm⟩

/-! ### Lookups of a full name -/

/-- If a full name leads to one type only, then it denotes that type. -/
theorem denotesOnly_of_leadsTo (hsome : ∃ u, pool.LeadsTo f (pool.typeName t) u)
    (honly : ∀ u, pool.LeadsTo f (pool.typeName t) u → u = t) : pool.DenotesOnly f t := by
  refine ⟨fun s => ?_, honly⟩
  show (pool.inFile f (pool.typeName t)).or (pool.inImports f (pool.typeName t)) = some t
  obtain ⟨u, hu⟩ := hsome
  obtain rfl := honly u hu
  cases hfile : pool.inFile f (pool.typeName u) with
  | some v => exact congrArg some (honly v (.inl hfile))
  | none => exact hu.resolve_left fun h => Option.some_ne_none _ (h.symm.trans hfile)

theorem Unhidden.inImports_eq (h : pool.Unhidden f t) (hu : pool.inImports f (pool.typeName t) = some u) :
    u = t := by
  obtain ⟨before, j, after, himports, hj, hnone⟩ := List.findSome?_eq_some_iff.mp hu
  obtain ⟨q, hq, hfind⟩ := List.exists_of_findSome?_eq_some hj
  obtain ⟨front, rfl, hfront⟩ := mem_qualifications hq
  obtain ⟨i, hi, hlists⟩ := h.imported before j after himports front u hfront hfind
  rcases List.mem_append.mp hi with hi | hi
  · -- an import in front would have been taken
    have hall := List.findSome?_eq_none_iff.mp (hnone i hi) _ (List.mem_cons_self ..)
    exact absurd (hlists.symm.trans hall) (Option.some_ne_none t)
  · obtain rfl := List.mem_singleton.mp hi
    have hfirst : (qualifications (pool.file f).packageName (pool.file i.file).packageName
        (pool.typeName t)).findSome? (pool.file i.file).types.find? = some t := by
      rw [qualifications, List.findSome?_cons, hlists]
    exact Option.some.inj (hj.symm.trans hfirst)

theorem mem_of_append_cons_eq {α : Type} {a b : α} {as bs cs ds : List α}
    (h : as ++ a :: bs = cs ++ b :: ds) (hb : b ∉ as) : a ∈ cs ++ [b] := by
  rcases List.append_eq_append_iff.mp h with ⟨rest, rfl, hrest⟩ | ⟨rest, rfl, hrest⟩
  · rcases List.cons_eq_append_iff.mp hrest with ⟨rfl, hcons⟩ | ⟨more, rfl, -⟩
    · obtain rfl : b = a := (List.cons.inj hcons).1
      simp
    · simp
  · rcases List.cons_eq_append_iff.mp hrest with ⟨rfl, hcons⟩ | ⟨more, rfl, -⟩
    · obtain rfl : a = b := (List.cons.inj hcons).1
      simp
    · exact absurd (by simp) hb

/-- The imports list `t` in front of all else, if they find nothing else. -/
theorem TypesNamed.exists_listed (hn : pool.TypesNamed)
    (hall : ∀ u, pool.inImports f (pool.typeName t) = some u → u = t) {before after : List Import}
    {j : Import} (himports : (pool.file f).imports.values = before ++ j :: after)
    (hq : name ∈ qualifications (pool.file f).packageName (pool.file j.file).packageName (pool.typeName t))
    (hfind : (pool.file j.file).types.find? name = some u) :
    ∃ i ∈ before ++ [j], (pool.file i.file).types.find? (pool.typeName t) = some t := by
  have hsome : ∃ v, pool.inImports f (pool.typeName t) = some v := by
    refine Option.ne_none_iff_exists'.mp fun hnone => ?_
    have hj : j ∈ (pool.file f).imports.values := himports ▸ by simp
    have hall := List.findSome?_eq_none_iff.mp (List.findSome?_eq_none_iff.mp hnone j hj) _ hq
    exact Option.some_ne_none _ (hfind.symm.trans hall)
  obtain ⟨v, hv⟩ := hsome
  obtain rfl := hall v hv
  obtain ⟨front, i, back, hsplit, hi, hnone⟩ := List.findSome?_eq_some_iff.mp hv
  refine ⟨i, ?_, ?_⟩
  · -- the import that decides does not stand behind `j`
    refine mem_of_append_cons_eq (hsplit.symm.trans himports) fun hj => ?_
    exact Option.some_ne_none _ (hfind.symm.trans (List.findSome?_eq_none_iff.mp (hnone j hj) _ hq))
  · obtain ⟨q, hq, hlists⟩ := List.exists_of_findSome?_eq_some hi
    obtain ⟨part, rfl, -⟩ := mem_qualifications hq
    rwa [← hn _ _ _ hlists] at hlists

/-- The absolute name of a visible type denotes that type and nothing else if and only if no other type is
in front of it. -/
theorem WellFormed.denotesOnly_iff (hw : pool.WellFormed) (hn : pool.TypesNamed)
    (hlists : ∀ g, pool.Reaches f g → pool.ListsTypes g) (ht : pool.HasType t)
    (hv : pool.Visible f (pool.typeFile t)) : pool.DenotesOnly f t ↔ pool.Unhidden f t := by
  constructor
  · intro h
    refine ⟨fun u hu hfile hname => h.only u (.inl ?_), ?_⟩
    · show pool.inFile f (pool.typeName t) = some u
      rw [← hname, ← hfile, hw.inFile_typeName hu]
    · intro before j after himports front u hfront hfind
      exact hn.exists_listed (fun v hv => h.only v (.inr hv)) himports
        (mem_qualifications_iff.mpr ⟨front, rfl, hfront⟩) hfind
  · intro h
    refine denotesOnly_of_leadsTo (hw.exists_leadsTo hlists ht hv) ?_
    rintro u (hu | hu)
    · obtain ⟨hfile, hname⟩ := hw.of_inFile hu
      exact h.own u (hw.hasType_of_inFile hu) hfile hname
    · exact h.inImports_eq hu

end ProtoSchema.Pool
