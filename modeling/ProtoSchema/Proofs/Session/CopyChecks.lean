import ProtoSchema.Proofs.Pool.Passing
import ProtoSchema.Proofs.Pool.Rechecks
import ProtoSchema.Proofs.Session.Copies

/-! # The checks of a copy

Where files and their copies are bound, each extend block of a copy extends a message that is declared
like the one that the file extends, since the two have one address (`BoundCopies.exists_extend`).  So what
the file may do its copy may do: the same fields and numbers fit in messages with the same ranges.  And as
no two messages have one address, numbers that are different extensions in the copies are different
extensions in the files (`BoundCopies.admissible`). -/

namespace ProtoSchema.Pool

variable {pool other : Pool} {R : FileId → FileId → Prop} {f g f₁ g₁ : FileId} {t t' : TypeId}
  {b b' m m' m₁ : BlockId} {d' : FieldId} {n : Nat}

/-- Whether a field fits depends on its name, its number and what is reserved. -/
theorem fieldFault_eq_none_iff {B B' : Block} {F F' : Field}
    (hranges : B.reservedRanges = B'.reservedRanges) (hnames : B.reservedNames = B'.reservedNames)
    (hextensions : B.extensionRanges = B'.extensionRanges) (hname : F.name.value = F'.name.value)
    (hnumber : F.number.value = F'.number.value) : fieldFault B F = none ↔ fieldFault B' F' = none := by
  simp only [fieldFault, hranges, hnames, hextensions, hname, hnumber]
  split
  · simp
  split
  · simp
  split <;> simp

/-- Files and their copies, all references of which are bound: those of the files to types without
rivals. -/
structure BoundCopies (R : FileId → FileId → Prop) (pool other : Pool) : Prop where
  copies : Copies R pool other
  unrivalled : ∀ {f g}, R f g → pool.Unrivalled f
  absolutes : ∀ {f g}, R f g → other.BindsAbsolutes g
  bound : ∀ {f g}, R f g → pool.AllBound f ∧ other.AllBound g

namespace BoundCopies

variable (h : BoundCopies R pool other)
include h

theorem determines (hR : R f g) :
    View.Determines (.asPrinted pool) .asWritten (.asBound pool) (.asBound other) pool other f g ∧
      View.Determines (.asPrinted pool) .asWritten (.asPrinted pool) (.asPrinted other) pool other f g :=
  h.copies.determines hR (h.unrivalled hR) (h.absolutes hR) (h.bound hR).1.exists_target
    (h.bound hR).2.exists_target

/-- What the file and its copy refer to has the same addresses. -/
theorem outline (hR : R f g) : pool.outline (.asBound pool) f = other.outline (.asBound other) g :=
  (h.determines hR).1.outline h.copies.left h.copies.right (h.copies.outline hR)

/-! ### Blocks -/

theorem exists_beside (hR : R f g) (hb' : other.BlockOf g b') :
    ∃ b, Beside (.asBound pool) (.asBound other) pool other f g b b' :=
  Pool.exists_beside h.copies.left h.copies.right (h.outline hR) hb'

/-- Types with one address that a file and its copy refer to are declared alike. -/
theorem alike (hR : R f g) {s s' : Scope} {name name' : TypeName} {offset offset' : Nat}
    (hr : pool.Refers f s name offset (some t)) (hr' : other.Refers g s' name' offset' (some t'))
    (he : pool.address t = other.address t') :
    pool.HasType t ∧ R (pool.typeFile t) (other.typeFile t') ∧
      AlikeTypes (.asPrinted pool) .asWritten pool other t t' := by
  obtain ⟨ht, hv⟩ := (h.copies.grounded hR).1.bound hr
  obtain ⟨ht', hv'⟩ := (h.copies.grounded hR).2.bound hr'
  obtain ⟨j, hj⟩ := h.copies.exists_right hR hv.reaches
  obtain ⟨i, hi⟩ := h.copies.exists_left hR hv'.reaches
  exact ⟨ht, h.copies.alike_of_address ht ht' hj hi he⟩

/-- Beside an extend block there is one that extends a type which is declared alike. -/
theorem exists_extend (hR : R f g) (hb' : other.BlockOf g b')
    (hbeside : Beside (.asBound pool) (.asBound other) pool other f g b b') {type' : TypeName}
    (hh' : (other.block b').heading = .extend type' (some t')) :
    ∃ type t, (pool.block b).heading = .extend type (some t) ∧ pool.HasType t ∧
      R (pool.typeFile t) (other.typeFile t') ∧
      AlikeTypes (.asPrinted pool) .asWritten pool other t t' := by
  have hb := hbeside.blockOf h.copies.left
  have hx : (pool.block b).isExtend = true := by
    rw [hbeside.isExtend h.copies.left h.copies.right, Block.isExtend, hh']
  obtain ⟨type, target, hh⟩ := Block.exists_extend hx
  obtain ⟨t, rfl⟩ := (h.bound hR).1.exists_target (.extend hb hh)
  have he := (ExtendOutline.mk.inj (hbeside.extendOutline h.copies.left h.copies.right)).1
  simp only [View.extendee, hh, hh'] at he
  exact ⟨type, t, hh, h.alike hR (.extend hb hh) (.extend hb' hh') he⟩

/-- Beside a message in which all fields fit they fit as well. -/
theorem fieldsFit (hbeside : Beside (.asBound pool) (.asBound other) pool other f g b b')
    (hx' : (other.block b').isExtend = false) (hfit : pool.FieldsFit b) : other.FieldsFit b' := by
  cases hbeside with
  | message there there' aligned =>
    intro d' hd'
    obtain ⟨d, hd, he⟩ := exists_of_forall₂_right aligned.paired.fields hd'
    refine (fieldFault_eq_none_iff aligned.paired.reservedRanges aligned.paired.reservedNames
      aligned.paired.extensionRanges ?_ ?_).mp (hfit d hd)
    · exact congrArg (fun F : FieldDecl => F.name.value) he
    · exact congrArg (fun F : FieldDecl => F.number.value) he
  | extend _ _ _ zipped =>
    have := ((h.copies.right.extend_iff _ b').mp (List.of_mem_zip zipped).2).2.2
    rw [hx'] at this
    cases this

/-! ### Extensions -/

/-- Each extension of the copy has one of the file beside it, of a message that is declared alike. -/
theorem exists_extends (hR : R f g) (hd' : other.FieldOf g d') (hext : other.Extends m' n d') :
    ∃ d m, pool.FieldOf f d ∧ pool.Extends m n d ∧
      Beside (.asBound pool) (.asBound other) pool other f g (pool.field d).block
        (other.field d').block ∧
      pool.HasType (.message m) ∧ R (pool.block m).file (other.block m').file ∧
      Aligned (.asPrinted pool) .asWritten pool other (.block m) (.block m') := by
  obtain ⟨d, hd, hbeside, he⟩ := exists_field h.copies.left h.copies.right (h.outline hR) hd'
  obtain ⟨⟨type', hh'⟩, rfl⟩ := hext
  obtain ⟨type, t, hh, ht, hfile, halike⟩ := h.exists_extend hR hd'.2 hbeside hh'
  have hnumber : (pool.field d).number.value = (other.field d').number.value :=
    congrArg (fun F : FieldDecl => F.number.value) he
  cases halike with
  | message haligned => exact ⟨d, _, hd, ⟨⟨type, hh⟩, hnumber⟩, hbeside, ht, hfile, haligned⟩

/-- Messages that are declared like one message of a copy are the same. -/
theorem eq_of_aligned (hm : pool.HasType (.message m)) (hm₁ : pool.HasType (.message m₁))
    (hfile : R (pool.block m).file (other.block m').file)
    (hfile₁ : R (pool.block m₁).file (other.block m').file)
    (ha : Aligned (.asPrinted pool) .asWritten pool other (.block m) (.block m'))
    (ha₁ : Aligned (.asPrinted pool) .asWritten pool other (.block m₁) (.block m')) : m = m₁ := by
  have hname := (h.copies.name hfile).trans (h.copies.name hfile₁).symm
  exact TypeId.message.inj (h.copies.left.eq_of_typeName hm hm₁ (h.copies.unique hfile hfile₁ hname).1
    (ha.name.trans ha₁.name.symm))

/-- Extensions of one message with one number have one extension beside them. -/
theorem exists_common {e' : FieldId} (hpasses : ∀ {f g}, R f g → pool.Passes f) (hR : R f g)
    (hR₁ : R f₁ g₁) (hd' : other.FieldOf g d') (hext : other.Extends m' n d')
    (he' : other.FieldOf g₁ e') (hext₁ : other.Extends m' n e') : f₁ = f ∧ g₁ = g ∧
      ∃ b, Beside (.asBound pool) (.asBound other) pool other f g b (other.field d').block ∧
        Beside (.asBound pool) (.asBound other) pool other f g b (other.field e').block := by
  obtain ⟨d, m, hd, hextends, hbeside, hm, hfile, haligned⟩ := h.exists_extends hR hd' hext
  obtain ⟨e, m₁, he, hextends₁, hbeside₁, hm₁, hfile₁, haligned₁⟩ := h.exists_extends hR₁ he' hext₁
  obtain rfl := h.eq_of_aligned hm hm₁ hfile hfile₁ haligned haligned₁
  -- the number of the message is in use by one field only
  obtain rfl : d = e := Option.some.inj (((hpasses hR).inUse d m n hd hextends).symm.trans
    ((hpasses hR₁).inUse e m n he hextends₁))
  obtain rfl : f₁ = f := he.2.2.symm.trans hd.2.2
  obtain ⟨-, rfl⟩ := h.copies.unique hR₁ hR rfl
  exact ⟨rfl, rfl, _, hbeside, hbeside₁⟩

/-- What the file has passed its copy passes as well, where the numbers in use are those of other
copies. -/
theorem admissible (hpasses : ∀ {f g}, R f g → pool.Passes f) (hR : R f g) (hg : other.HasFile g)
    (hinUse : ∀ m n e, other.extensions.find? (m, n) = some e →
      ∃ f₁ g₁, R f₁ g₁ ∧ g₁ ≠ g ∧ other.FieldOf g₁ e ∧ other.Extends m n e) :
    other.Admissible g where
  fits b' hb' := by
    obtain ⟨b, hbeside⟩ := h.exists_beside hR hb'
    have hfits := (hpasses hR).fits b (hbeside.blockOf h.copies.left)
    have hx := hbeside.isExtend h.copies.left h.copies.right
    refine ⟨fun hx' => h.fieldsFit hbeside hx' (hfits.message (hx.trans hx')), fun type' t' hh' => ?_⟩
    obtain ⟨type, t, hh, -, -, halike⟩ := h.exists_extend hR hb' hbeside hh'
    obtain ⟨m, rfl⟩ := hfits.extend type t hh
    cases halike with
    | message => exact ⟨_, rfl⟩
  extensible b' hb' type' m' hh' := by
    obtain ⟨b, hbeside⟩ := h.exists_beside hR hb'
    obtain ⟨type, t, hh, -, -, halike⟩ := h.exists_extend hR hb' hbeside hh'
    cases halike with
    | @message m _ haligned =>
      have hne := (hpasses hR).extensible b (hbeside.blockOf h.copies.left) type m hh
      exact fun hnil => hne (haligned.paired.extensionRanges.trans hnil)
  room d' m' n hd' hext := by
    obtain ⟨d, m, hd, hextends, -, -, -, haligned⟩ := h.exists_extends hR hd' hext
    obtain ⟨r, hr, hn⟩ := (hpasses hR).room d m n hd hextends
    have hranges : (pool.block m).extensionRanges = (other.block m').extensionRanges :=
      haligned.paired.extensionRanges
    exact ⟨r, hranges ▸ hr, hn⟩
  free d' m' n hd' hext e' he' := by
    obtain ⟨f₁, g₁, hR₁, hne, he', hext₁⟩ := hinUse m' n e' he'
    exact absurd (h.exists_common hpasses hR hR₁ hd' hext he' hext₁).2.1 hne
  unique d' e' m' n hd' hext he' hext₁ := by
    obtain ⟨-, -, b, hbeside, hbeside₁⟩ := h.exists_common hpasses hR hR hd' hext he' hext₁
    have hblock := hbeside.unique h.copies.left h.copies.right hg hbeside₁
    have hfind := (h.copies.right.field_iff _ n d').mpr ⟨hd'.1, hblock, hext.2⟩
    have hfind₁ := (h.copies.right.field_iff _ n e').mpr ⟨he'.1, rfl, hext₁.2⟩
    exact Option.some.inj (hfind₁.symm.trans hfind)

end BoundCopies

end ProtoSchema.Pool
