import Mathlib.Tactic.Tauto
import ProtoSchema.Compiler.Output
import ProtoSchema.Proofs.Compiler.Openings
import ProtoSchema.Proofs.Renaming.Output

/-! # The order of paths

Which files a compiler has read, which of them are roots, and what it puts out of each does not depend
on the order in which paths were opened, nor on how often each was (`openFiles_order`). -/

namespace ProtoSchema

namespace Session

variable {x t : Session} {ρ : Renaming} {f : FileId}

/-- Known files are the same in both sessions, and so are all that they import. -/
theorem Twin.alike (h : Twin x ρ t) (hx : Regular (x, [])) (hf : Known x t f) :
    Pool.Alike ρ f x.pool t.pool := by
  have hknown : ∀ {g}, x.pool.Reaches f g → Known x t g := fun hg => h.known_of_reaches hx hf hg
  refine ⟨hx.sound.tree, h.regular.sound.tree, fun g hg => ?_, fun g hg => ?_, fun g hg => ?_,
    fun g g' hg hg' => h.injective (hknown hg) (hknown hg')⟩
  · obtain ⟨name, hname, hname', -⟩ := h.of_known (hknown hg)
    exact ⟨(hx.sound.named name g hname).1, (h.regular.sound.named name _ hname').1⟩
  · exact hx.grounds.registered g (hknown hg).registered
  · obtain ⟨name, -, -, hm⟩ := h.of_known (hknown hg)
    exact hm

end Session

namespace Compiler

variable {c c' d : Compiler} {f : FileId} {name : String}

/-! ### Several paths -/

theorem mem_roots_addRoot {g : FileId} : g ∈ (c.addRoot f).roots ↔ g ∈ c.roots ∨ g = f := by
  unfold addRoot
  split
  · next hf => exact ⟨.inl, fun h => h.elim id fun e => e ▸ hf⟩
  · simp

/-- What is so when some paths were opened: they lead to roots, and no other files are new roots. -/
theorem leads_of_openFiles (paths : List String) : ∀ {c : Compiler}, Lawful c →
    openFiles paths c = .ok () c' →
    Goes c c' ∧ (∀ f ∈ c.roots, f ∈ c'.roots) ∧
      (∀ path ∈ paths, ∃ name f, Leads c' path name f ∧ f ∈ c'.roots) ∧
      ∀ f ∈ c'.roots, f ∈ c.roots ∨ ∃ path ∈ paths, ∃ name, Leads c' path name f := by
  induction paths with
  | nil =>
    intro c hc h
    cases h
    exact ⟨.refl _, fun f hf => hf, fun path hp => (by cases hp), fun f hf => .inl hf⟩
  | cons path paths ih =>
    intro c hc h
    cases hopen : openFile path c with
    | error e d => cases (bind_of_error hopen fun _ => openFiles paths).symm.trans h
    | ok u d =>
      have hends := openFile_ends path c
      rw [hopen] at hends
      have hd : Goes c d := hends
      obtain ⟨name, f, hleads, hroots⟩ := leads_of_openFile hc hopen
      obtain ⟨hgoes, hkeep, hall, honly⟩ :=
        ih (hc.goes hd) ((bind_of_ok hopen fun _ => openFiles paths).symm.trans h)
      have hf : f ∈ d.roots := hroots ▸ mem_roots_addRoot.mpr (.inr rfl)
      have hleads' := hleads.goes (hc.goes hd) hgoes
      refine ⟨hd.trans hgoes, fun g hg => hkeep g (hroots ▸ mem_roots_addRoot.mpr (.inl hg)),
        List.forall_mem_cons.mpr ⟨⟨name, f, hleads', hkeep f hf⟩, hall⟩, fun g hg => ?_⟩
      rcases honly g hg with hg | ⟨path', hpath, name', hg⟩
      · rw [hroots] at hg
        rcases mem_roots_addRoot.mp hg with hg | rfl
        · exact .inl hg
        · exact .inr ⟨path, List.mem_cons_self .., name, hleads'⟩
      · exact .inr ⟨path', List.mem_cons_of_mem path hpath, name', hg⟩

/-- Paths that lead to files of the one compiler can be opened by the other one. -/
theorem openFiles_again (hc : Lawful c) (paths : List String)
    (h : ∀ path ∈ paths, ∃ name f, Leads c path name f) : ∀ d, Shadows c d →
    ∃ d', openFiles paths d = .ok () d' ∧ Shadows c d' := by
  induction paths with
  | nil => exact fun d hd => ⟨d, rfl, hd⟩
  | cons path paths ih =>
    intro d hd
    rw [List.forall_mem_cons] at h
    obtain ⟨⟨name, f, hleads⟩, h⟩ := h
    obtain ⟨d', hopen, hd'⟩ := openFile_again hc hd hleads
    obtain ⟨d'', hopens, hd''⟩ := ih h d' hd'
    exact ⟨d'', (bind_of_ok hopen _).trans hopens, hd''⟩

/-- The roots of a compiler that has opened some paths have the names of the paths. -/
theorem mem_rootNames {r : Resolver} {paths : List String} (h : openFiles paths (fresh r) = .ok () c) :
    name ∈ c.roots.map c.fileName ↔ ∃ path ∈ paths, nameOf r path = .ok name := by
  obtain ⟨hgoes, -, hall, honly⟩ := leads_of_openFiles paths (lawful_fresh r) h
  have hlawful := (lawful_fresh r).goes hgoes
  have hr : c.resolver = r := hgoes.resolver
  have hname : ∀ {path name f}, Leads c path name f → c.fileName f = name := fun hl =>
    (hlawful.regular.sound.named _ _ hl.registered).2
  constructor
  · intro hm
    obtain ⟨f, hf, rfl⟩ := List.mem_map.mp hm
    rcases honly f hf with hf | ⟨path, hpath, name, hl⟩
    · cases hf
    · exact ⟨path, hpath, by rw [hname hl, ← hl.named, hr]⟩
  · rintro ⟨path, hpath, hn⟩
    obtain ⟨name', f, hl, hf⟩ := hall path hpath
    have hn' := hl.named
    rw [hr, hn] at hn'
    cases hn'
    exact List.mem_map.mpr ⟨f, hf, hname hl⟩

/-- If some paths can be opened, then they can in every order, however often each is repeated.  The
same files are registered then, the same are roots, and each has the same source and the same
descriptor. -/
theorem openFiles_order (r : Resolver) (paths paths' : List String)
    (same : ∀ path, path ∈ paths' ↔ path ∈ paths) (c : Compiler)
    (opened : openFiles paths (fresh r) = .ok () c) :
    ∃ c', openFiles paths' (fresh r) = .ok () c' ∧
      (∀ name, (∃ f, c'.file? name = some f) ↔ ∃ f, c.file? name = some f) ∧
      (∀ name, name ∈ c'.roots.map c'.fileName ↔ name ∈ c.roots.map c.fileName) ∧
      ∀ name f f', c.file? name = some f → c'.file? name = some f' →
        c'.pool.source f' = c.pool.source f ∧ c'.pool.descriptor f' = c.pool.descriptor f := by
  obtain ⟨hgoes, -, hall, -⟩ := leads_of_openFiles paths (lawful_fresh r) opened
  have hc := (lawful_fresh r).goes hgoes
  obtain ⟨c', opened', hresolver, ρ, htwin⟩ := openFiles_again hc paths'
    (fun path hp => (hall path ((same path).mp hp)).imp fun name h => h.imp fun f h => h.1)
    (fresh r) ⟨hgoes.resolver.symm, ⟨id, id, id, id⟩, Session.twin_empty ..⟩
  -- the other way round the first paths are opened again
  obtain ⟨hgoes', -, hall', -⟩ := leads_of_openFiles paths' (lawful_fresh r) opened'
  have hc' := (lawful_fresh r).goes hgoes'
  obtain ⟨c'', opened'', -, ρ', htwin'⟩ := openFiles_again hc' paths
    (fun path hp => (hall' path ((same path).mpr hp)).imp fun name h => h.imp fun f h => h.1)
    (fresh r) ⟨hgoes'.resolver.symm, ⟨id, id, id, id⟩, Session.twin_empty ..⟩
  cases opened.symm.trans opened''
  refine ⟨c', opened', fun name => ⟨fun ⟨f, hf⟩ => ?_, fun ⟨f, hf⟩ => ?_⟩, fun name => ?_,
    fun name f f' hf hf' => ?_⟩
  · obtain ⟨g, hg, -⟩ := htwin.files name f hf
    exact ⟨g, hg⟩
  · obtain ⟨g, hg, -⟩ := htwin'.files name f hf
    exact ⟨g, hg⟩
  · rw [mem_rootNames opened, mem_rootNames opened']
    exact exists_congr fun path => and_congr_left fun _ => same path
  · obtain ⟨g, hg, rfl, -⟩ := htwin.files name f' hf'
    cases hf.symm.trans hg
    have halike := htwin.alike hc.regular ⟨name, hf, _, hf'⟩
    exact ⟨halike.source, halike.descriptor⟩

/-! ### Two orders of two paths -/

/-- Two files that extend a message of a third one. -/
def extending : Resolver := .memory [
  ("a.proto", "import \"m.proto\"; message A {} extend M { optional A a = 4; }"),
  ("b.proto", "import \"m.proto\"; extend M { optional M b = 5; }"),
  ("m.proto", "message M { extensions 4 to 9; }")]

/-- A compiler that has opened the first two files. -/
def extended : Compiler := stateOf (openFiles ["a.proto", "b.proto"] (fresh extending))

/-- Here the files take other places when they are opened the other way round. -/
theorem openFiles_order_extending :
    openFiles ["a.proto", "b.proto"] (fresh extending) = .ok () extended ∧
      ∃ c', openFiles ["b.proto", "a.proto", "b.proto"] (fresh extending) = .ok () c' ∧
        (∀ name, (∃ f, c'.file? name = some f) ↔ ∃ f, extended.file? name = some f) ∧
        (∀ name, name ∈ c'.roots.map c'.fileName ↔ name ∈ extended.roots.map extended.fileName) ∧
        ∀ name f f', extended.file? name = some f → c'.file? name = some f' →
          c'.pool.source f' = extended.pool.source f ∧
            c'.pool.descriptor f' = extended.pool.descriptor f := by
  have opened : openFiles ["a.proto", "b.proto"] (fresh extending) = .ok () extended :=
    eq_ok_of_errorOf? (by decide +kernel)
  refine ⟨opened, openFiles_order extending _ _ (fun path => ?_) extended opened⟩
  simp only [List.mem_cons, List.not_mem_nil, or_false]
  tauto

end Compiler

end ProtoSchema
