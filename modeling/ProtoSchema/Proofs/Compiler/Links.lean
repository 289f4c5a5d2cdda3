import ProtoSchema.Pool.Lookup
import ProtoSchema.Proofs.Compiler.Runs
import ProtoSchema.Proofs.Session.Bindings
import ProtoSchema.Proofs.Session.Links
import ProtoSchema.Proofs.Session.Numbers

/-! # Links of complete files

Questions to a complete file have an answer: the type of a field is a scalar or denotes a type that
is there, an extend block is bound to a message, so that each of its fields belongs to a message, and
an enum has a default value.  A link that is made is never made anew, neither by later calls nor
while a file is being read, swept or given up (`links_after`). -/

namespace ProtoSchema

/-- Every link of one pool is the same in the other. -/
structure Pool.KeepsTargets (pool other : Pool) : Prop where
  extend : ∀ b type t, (pool.block b).heading = .extend type (some t) →
    (other.block b).heading = .extend type (some t)
  field : ∀ d name t, (pool.field d).type = .named name (some t) →
    (other.field d).type = .named name (some t)

theorem Pool.KeepsTargets.trans {a b c : Pool} (h : KeepsTargets a b) (h' : KeepsTargets b c) :
    KeepsTargets a c :=
  ⟨fun i type t hi => h'.extend i type t (h.extend i type t hi),
    fun i name t hi => h'.field i name t (h.field i name t hi)⟩

/-- A change to one file makes links and changes none. -/
theorem Pool.Touches.keepsTargets {g : FileId} {pool other : Pool} (ht : Touches g pool other) :
    KeepsTargets pool other where
  extend b type t hb := by
    have hhas : pool.HasBlock b := by
      by_contra hno
      rw [block_of_not_hasBlock hno] at hb
      cases hb
    rcases (ht.block b hhas).2.1.heading with he | ⟨type', t', he, -⟩
    · exact he.trans hb
    · rw [he] at hb
      cases hb
  field d name t hd := by
    have hhas : pool.HasField d := by
      by_contra hno
      rw [field_of_not_hasField hno] at hd
      cases hd
    rcases (ht.field d hhas).2.1.type with he | ⟨name', t', he, -⟩
    · exact he.trans hd
    · rw [he] at hd
      cases hd

/-- No step makes a link anew. -/
theorem Session.Sound.keepsTargets {r : Resolver} {x y : State} (hx : Sound x) (hs : Steps r x y) :
    Pool.KeepsTargets x.1.pool y.1.pool := by
  induction hs with
  | refl => exact ⟨fun _ _ _ h => h, fun _ _ _ h => h⟩
  | tail hsteps hstep ih =>
    obtain ⟨g, ht, -⟩ := (hx.steps hsteps).kept hstep
    exact ih.trans ht.keepsTargets

namespace Compiler

/-- What is so of the links in complete files. -/
structure LinksSound (c : Compiler) : Prop where
  field : ∀ f d, c.session.Registered f → c.pool.FieldOf f d →
    (∃ s, (c.pool.field d).type = .scalar s) ∨
      ∃ name t, (c.pool.field d).type = .named name (some t) ∧ c.pool.HasType t
  extend : ∀ f b, c.session.Registered f → c.pool.BlockOf f b → (c.pool.block b).isExtend = true →
    ∃ type m, (c.pool.block b).heading = .extend type (some (.message m)) ∧
      c.pool.HasType (.message m)
  value : ∀ f e, c.session.Registered f → c.pool.EnumOf f e →
    (c.pool.enum e).values.values ≠ []
  /-- Every block has a message that its fields belong to, and so has every field. -/
  owner : ∀ f b, c.session.Registered f → c.pool.BlockOf f b → ∃ m, c.pool.owner? b = some m
  fieldOwner : ∀ f d, c.session.Registered f → c.pool.FieldOf f d →
    ∃ m, c.pool.fieldOwner? d = some m
  default : ∀ f e, c.session.Registered f → c.pool.EnumOf f e →
    ∃ v, (c.pool.enum e).default? = some v

theorem exists_default {e : EnumType} (h : e.values.values ≠ []) : ∃ v, e.default? = some v := by
  have hne : e.values.entries ≠ [] := fun he => h (by rw [Table.values, he]; rfl)
  obtain ⟨v, vs, hv⟩ := List.exists_cons_of_ne_nil hne
  unfold EnumType.default?
  cases e.values.entries.find? (·.1 = 0) with
  | some v' => exact ⟨v', rfl⟩
  | none => exact ⟨v, by rw [hv]; rfl⟩

section invariants

variable {c : Compiler} (hn : Session.Numbered c.session) (hb : Session.Bindings (c.session, []))
  (hfilled : Session.Filled (c.session, []))
include hn hb

theorem field_linked {f : FileId} {d : FieldId} (hf : c.session.Registered f)
    (hd : c.pool.FieldOf f d) : (∃ s, (c.pool.field d).type = .scalar s) ∨
      ∃ name t, (c.pool.field d).type = .named name (some t) ∧ c.pool.HasType t := by
  cases htype : (c.pool.field d).type with
  | scalar s => exact .inl ⟨s, rfl⟩
  | named name target =>
    cases target with
    | none => exact absurd ⟨name, htype⟩ ((hn.bound f hf).field d hd)
    | some t => exact .inr ⟨name, t, rfl, (hb.registered f hf _ _ _ t (.field hd htype)).1⟩

theorem extend_linked {f : FileId} {b : BlockId} (hf : c.session.Registered f)
    (hbo : c.pool.BlockOf f b) (hx : (c.pool.block b).isExtend = true) :
    ∃ type m, (c.pool.block b).heading = .extend type (some (.message m)) ∧
      c.pool.HasType (.message m) := by
  cases hh : (c.pool.block b).heading with
  | message name =>
    rw [Block.isExtend, hh] at hx
    cases hx
  | extend type target =>
    cases target with
    | none => exact absurd ⟨type, hh⟩ ((hn.bound f hf).block b hbo)
    | some t =>
      obtain ⟨m, rfl⟩ := (hn.fits f b hf hbo).extend type t hh
      exact ⟨type, m, rfl, (hb.registered f hf _ _ _ _ (.extend hbo hh)).1⟩

theorem block_owner {f : FileId} {b : BlockId} (hf : c.session.Registered f)
    (hbo : c.pool.BlockOf f b) : ∃ m, c.pool.owner? b = some m := by
  unfold Pool.owner?
  cases hx : (c.pool.block b).isExtend with
  | true =>
    obtain ⟨type, m, hh, -⟩ := extend_linked hn hb hf hbo hx
    exact ⟨m, by rw [hh]⟩
  | false =>
    rw [Pool.heading_eq_message_iff.mpr ⟨hx, rfl⟩]
    exact ⟨b, rfl⟩

include hfilled

theorem linksSound : c.LinksSound where
  field _ _ := field_linked hn hb
  extend _ _ := extend_linked hn hb
  value := hfilled.enums
  owner _ _ := block_owner hn hb
  fieldOwner _ _ hf hd := block_owner hn hb hf hd.2
  default f e hf he := exists_default (hfilled.enums f e hf he)

end invariants

/-- After any calls all links of complete files are made; and whatever is done next, call by call or
step by step, no link of any file changes. -/
theorem links_after (resolver : Resolver) (calls more : List Call) :
    (after (fresh resolver) calls).LinksSound ∧
      Pool.KeepsTargets (after (fresh resolver) calls).pool
        (after (fresh resolver) (calls ++ more)).pool ∧
      ∀ x y, Session.Steps resolver ({}, []) x → Session.Steps resolver x y →
        Pool.KeepsTargets x.1.pool y.1.pool := by
  have hsteps := (goes_after calls (fresh resolver)).steps
  refine ⟨linksSound ?_ ?_ ?_, ?_, fun x y hx hy => (Session.sound_empty.steps hx).keepsTargets hy⟩
  · exact Session.numbered_empty.steps Session.sound_empty hsteps
  · exact Session.bindings_empty.steps Session.sound_empty hsteps
  · exact Session.filled_empty.steps Session.sound_empty hsteps
  · rw [after_append]
    exact (sound_after resolver calls).keepsTargets
      (goes_after more (after (fresh resolver) calls)).steps

end Compiler

end ProtoSchema
