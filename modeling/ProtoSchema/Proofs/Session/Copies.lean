import ProtoSchema.Proofs.Pool.OutlineBlocks
import ProtoSchema.Proofs.Pool.OutlineSources
import ProtoSchema.Proofs.Session.Hiding

/-! # Copies of files

A copy of a file declares what the file declares, and writes each type as its absolute name.  Its imports
are copies of the imports of the file, in the same order.  So a full name leads from the copy to a type
of the same name in a copy of the file that it leads to from the file (`leadsTo_address`).  If the full
names of the types that the file refers to lead to no other types (`Unrivalled`), then the copy refers
to the same types (`determines`). -/

namespace ProtoSchema

/-- Names are shown as the addresses of what they denote, and constants as they are read again. -/
def View.asBound (pool : Pool) : View :=
  ⟨fun name target => (target.map pool.address).getD name, Constant.reread⟩

theorem findSome?_map_of_forall₂ {α β γ δ ε : Type} {F : α → Option γ} {G : β → Option δ} {k : γ → ε}
    {k' : δ → ε} {as : List α} {bs : List β}
    (h : List.Forall₂ (fun a b => (F a).map k = (G b).map k') as bs) :
    (as.findSome? F).map k = (bs.findSome? G).map k' := by
  induction h with
  | nil => rfl
  | @cons a b _ _ head _ ih =>
    rw [List.findSome?_cons, List.findSome?_cons]
    cases hF : F a with
    | none =>
      rw [hF] at head
      rw [Option.map_eq_none_iff.mp head.symm]
      exact ih
    | some c =>
      rw [hF] at head
      obtain ⟨d, hG, -⟩ := Option.map_eq_some_iff.mp head.symm
      rw [hG] at head ⊢
      exact head

namespace Pool

/-- The full name of each type that the file refers to leads to no other type. -/
def Unrivalled (pool : Pool) (f : FileId) : Prop :=
  ∀ {s name offset t}, Refers pool f s name offset (some t) →
    ∀ t', pool.LeadsTo f (pool.typeName t) t' → t' = t

/-- Where `R f g`, the file `g` of the pool `other` is a copy of the file `f` of `pool`. -/
structure Copies (R : FileId → FileId → Prop) (pool other : Pool) : Prop where
  left : pool.WellFormed
  right : other.WellFormed
  name : ∀ {f g}, R f g → (pool.file f).name = (other.file g).name
  unique : ∀ {f g f' g'}, R f g → R f' g' → (pool.file f).name = (pool.file f').name → f = f' ∧ g = g'
  outline : ∀ {f g}, R f g → pool.outline (.asPrinted pool) f = other.outline .asWritten g
  imports : ∀ {f g}, R f g → List.Forall₂ (fun i j => i.kind = j.kind ∧ R i.file j.file)
    (pool.file f).imports.values (other.file g).imports.values
  lists : ∀ {f g}, R f g → pool.ListsTypes f ∧ other.ListsTypes g
  grounded : ∀ {f g}, R f g → pool.Grounded f ∧ other.Grounded g
  acyclic : ∃ rank : FileId → Nat, ∀ {f g}, R f g →
    ∀ i ∈ (pool.file f).imports.values, rank i.file < rank f

namespace Copies

variable {R : FileId → FileId → Prop} {pool other : Pool} {f g i j : FileId} {t t' : TypeId}
  {N : DottedName} (h : Copies R pool other)
include h

/-! ### Lookups -/

theorem packageName (hR : R f g) : (pool.file f).packageName = (other.file g).packageName :=
  congrArg (fun o : FileOutline => o.package.getD []) (h.outline hR)

theorem inFile_address (hR : R f g) (N : DottedName) :
    (pool.inFile f N).map pool.address = (other.inFile g N).map other.address :=
  Pool.inFile_address h.left h.right (h.outline hR) (h.name hR) N

/-- A file and its copy list types of the same names. -/
theorem types_address (hR : R f g) (N : DottedName) :
    ((pool.file f).types.find? N).map pool.address =
      ((other.file g).types.find? N).map other.address := by
  obtain ⟨rank, hrank⟩ := h.acyclic
  induction hn : rank f using Nat.strongRecOn generalizing f g with
  | ind n ih =>
    have htypes : List.Forall₂ (fun i j => i.kind = j.kind ∧
        ((pool.file i.file).types.find? N).map pool.address =
          ((other.file j.file).types.find? N).map other.address)
        (pool.file f).imports.values (other.file g).imports.values :=
      forall₂_imp_of_mem (h.imports hR) fun i hi j _ hij =>
        ⟨hij.1, ih _ (hn ▸ hrank hR i hi) hij.2 rfl⟩
    have hfilter : List.Forall₂ (fun i j => i.kind = j.kind ∧
        ((pool.file i.file).types.find? N).map pool.address =
          ((other.file j.file).types.find? N).map other.address)
        ((pool.file f).imports.values.filter (·.kind = .publicly))
        ((other.file g).imports.values.filter (·.kind = .publicly)) :=
      List.rel_filter (fun i j hij => by simp [hij.1]) htypes
    have himports : (pool.listedByImports f N).map pool.address =
        (other.listedByImports g N).map other.address :=
      findSome?_map_of_forall₂ (hfilter.imp fun _ _ hij => hij.2)
    rw [(h.lists hR).1, (h.lists hR).2, map_or, map_or, h.inFile_address hR, himports]

theorem inImports_address (hR : R f g) (N : DottedName) :
    (pool.inImports f N).map pool.address = (other.inImports g N).map other.address := by
  refine findSome?_map_of_forall₂ ((h.imports hR).imp fun i j hij => ?_)
  dsimp only
  rw [h.packageName hR, h.packageName hij.2]
  exact findSome?_map_of_forall₂ (List.forall₂_same.mpr fun q _ => h.types_address hij.2 q)

/-- From a copy a full name leads where it leads from the file. -/
theorem leadsTo_address (hR : R f g) (ht' : other.LeadsTo g N t') :
    ∃ t, pool.LeadsTo f N t ∧ pool.address t = other.address t' := by
  rcases ht' with ht' | ht'
  · obtain ⟨t, ht, he⟩ := Option.map_eq_some_iff.mp
      ((h.inFile_address hR N).trans (congrArg (Option.map other.address) ht'))
    exact ⟨t, .inl ht, he⟩
  · obtain ⟨t, ht, he⟩ := Option.map_eq_some_iff.mp
      ((h.inImports_address hR N).trans (congrArg (Option.map other.address) ht'))
    exact ⟨t, .inr ht, he⟩

/-- Where a full name leads anywhere from the file, an absolute name denotes something in the copy. -/
theorem exists_resolve? (hR : R f g) (ht : pool.LeadsTo f N t) {s : Scope} :
    ∃ t', other.resolve? g s ⟨true, N⟩ = some t' := by
  have hnone : ∀ {a b : Option TypeId}, a.map pool.address = b.map other.address → b = none →
      a = none := by
    rintro a b he rfl
    exact Option.map_eq_none_iff.mp he
  by_contra hno
  have hno : (other.inFile g N).or (other.inImports g N) = none :=
    Option.eq_none_iff_forall_ne_some.mpr fun t' ht' => hno ⟨t', ht'⟩
  obtain ⟨hfile, himports⟩ := Option.or_eq_none_iff.mp hno
  rcases ht with ht | ht
  · cases ht.symm.trans (hnone (h.inFile_address hR N) hfile)
  · cases ht.symm.trans (hnone (h.inImports_address hR N) himports)

/-! ### Files that are imported -/

theorem exists_right (hR : R f g) (hi : pool.Reaches f i) : ∃ j, R i j := by
  induction hi with
  | refl => exact ⟨g, hR⟩
  | tail _ himport ih =>
    obtain ⟨j, hj⟩ := ih
    obtain ⟨k, hk, rfl⟩ := himport
    obtain ⟨l, -, -, hl⟩ := exists_of_forall₂_left (h.imports hj) hk
    exact ⟨_, hl⟩

theorem exists_left (hR : R f g) (hj : other.Reaches g j) : ∃ i, R i j := by
  induction hj with
  | refl => exact ⟨f, hR⟩
  | tail _ himport ih =>
    obtain ⟨i, hi⟩ := ih
    obtain ⟨l, hl, rfl⟩ := himport
    obtain ⟨k, -, -, hk⟩ := exists_of_forall₂_right (h.imports hi) hl
    exact ⟨_, hk⟩

/-- The full name of a visible type leads to some type. -/
theorem exists_leadsTo (hR : R f g) (ht : pool.HasType t) (hv : pool.Visible f (pool.typeFile t)) :
    ∃ t', pool.LeadsTo f (pool.typeName t) t' := by
  refine h.left.exists_leadsTo (fun i hi => ?_) ht hv
  obtain ⟨j, hj⟩ := h.exists_right hR hi
  exact (h.lists hj).1

/-- Types with one address, each in a file that is copied or a copy, are declared alike. -/
theorem alike_of_address (ht : pool.HasType t) (ht' : other.HasType t') (hl : R (pool.typeFile t) g)
    (hr : R f (other.typeFile t')) (he : pool.address t = other.address t') :
    R (pool.typeFile t) (other.typeFile t') ∧
      AlikeTypes (.asPrinted pool) .asWritten pool other t t' := by
  obtain ⟨hfile, hname⟩ := address_eq_iff.mp he
  obtain ⟨hf, rfl⟩ := h.unique hl hr (hfile.trans (h.name hr).symm)
  refine ⟨hl, ?_⟩
  obtain ⟨t₁, ht₁, hfile₁, halike⟩ := exists_alike h.left h.right (h.outline hl) ht' rfl
  obtain rfl : t₁ = t := h.left.eq_of_typeName ht₁ ht hfile₁ (halike.typeName.trans hname.symm)
  exact halike

/-! ### References -/

/-- A reference of the copy, beside one of the file that shows the same, is bound to a type of the same
address. -/
theorem address_eq (hR : R f g) (hun : pool.Unrivalled f) (habs : other.BindsAbsolutes g)
    {s s' : Scope} {name name' : TypeName} {offset offset' : Nat}
    (hr : pool.Refers f s name offset (some t)) (hr' : other.Refers g s' name' offset' (some t'))
    (he : pool.boundName name (some t) = name') : pool.address t = other.address t' := by
  subst he
  obtain ⟨t₁, ht₁, haddress⟩ := h.leadsTo_address hR (habs.leadsTo hr' rfl)
  rw [← haddress, hun hr t₁ ht₁]

/-- What a file shows in print determines what it and its copy refer to, if all references are bound. -/
theorem determines (hR : R f g) (hun : pool.Unrivalled f) (habs : other.BindsAbsolutes g)
    (hbound : ∀ {s name offset target}, pool.Refers f s name offset target → ∃ t, target = some t)
    (hbound' : ∀ {s name offset target}, other.Refers g s name offset target → ∃ t, target = some t) :
    View.Determines (.asPrinted pool) .asWritten (.asBound pool) (.asBound other) pool other f g ∧
      View.Determines (.asPrinted pool) .asWritten (.asPrinted pool) (.asPrinted other) pool other f
        g := by
  have hconstant : ∀ k k', Constant.reread k = k' → Constant.reread k = Constant.reread k' := by
    rintro k _ rfl
    exact k.reread_reread.symm
  refine ⟨⟨fun hr hr' he => ?_, hconstant⟩, ⟨fun hr hr' he => ?_, hconstant⟩⟩
  · obtain ⟨t, rfl⟩ := hbound hr
    obtain ⟨t', rfl⟩ := hbound' hr'
    exact h.address_eq hR hun habs hr hr' he
  · obtain ⟨t, rfl⟩ := hbound hr
    obtain ⟨t', rfl⟩ := hbound' hr'
    have hname := (address_eq_iff.mp (h.address_eq hR hun habs hr hr' he)).2
    exact congrArg (TypeName.mk true) hname

end Copies

end Pool

end ProtoSchema
