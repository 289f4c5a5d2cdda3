import Mathlib.Data.List.Perm.Subperm
import Mathlib.Data.String.Basic
import ProtoSchema.Proofs.Session.Completions

/-! # How deep imports go

Files that are being read within each other have different names, and all names but that of the
outermost file are import targets of texts that the resolver serves (`Chain`).  There are fewer targets
than bytes in these texts, so `importLimit` is never in the way (`Chain.length_lt`), and each file that
was completed in one session is loaded in another one, too (`loadUpTo_again`). -/

namespace ProtoSchema

/-! ### Imports of a text -/

theorem length_le_utf8ByteSize (s : String) : s.toList.length ≤ s.utf8ByteSize := by
  have hlen : ∀ cs : List Char, cs.length ≤ String.utf8Len cs := by
    intro cs
    induction cs with
    | nil => exact Nat.zero_le _
    | cons c cs ih =>
      have := c.utf8Size_pos
      simp only [String.utf8Len_cons, List.length_cons]
      omega
  refine (hlen s.toList).trans (Nat.le_of_eq ?_)
  rw [← String.utf8ByteSize_ofList, String.ofList_toList]

theorem Scan.length_tokens (lines : LineIndex) (offset : Nat) (cs : List Char) :
    (Scan.ofChars lines offset cs).tokens.length ≤ cs.length := by
  fun_induction Scan.ofChars lines offset cs with
  | case1 | case2 => exact Nat.zero_le _
  | case3 offset c cs n text stop rest hread ih =>
    refine ih.trans ?_
    simp only [List.length_drop, List.length_cons]
    omega
  | case4 offset c cs n text stop rest kind hread ih =>
    have : rest.tokens.length ≤ (cs.drop n).length := ih
    simp only [List.length_drop, List.length_cons] at this ⊢
    omega

namespace Event

theorem length_ofTokens (e : Ending) (fs : Frames) (ts : List Token) :
    (ofTokens e fs ts).1.length ≤ ts.length := by
  fun_induction ofTokens e fs ts with
  | case1 | case2 => exact Nat.zero_le _
  | case3 fs t rest event? fs' rest' hrun hlen more ih =>
    have hevent : event?.toList.length ≤ 1 := by cases event? <;> simp
    have : more.1.length ≤ rest'.length := ih
    simp only [List.length_append, List.length_cons]
    omega

/-- The file that an event imports. -/
def target? : Event → Option String
  | importFile _ target => some target.value
  | _ => none

/-- The files that a text imports. -/
def targets (source : String) : List String := (ofText source).1.filterMap target?

theorem mem_targets {source : String} {kind : ImportKind} {target : Located String}
    (h : importFile kind target ∈ (ofText source).1) : target.value ∈ targets source :=
  List.mem_filterMap.mpr ⟨_, h, rfl⟩

theorem length_targets (source : String) : (targets source).length ≤ source.utf8ByteSize :=
  calc (targets source).length
    _ ≤ (ofText source).1.length := List.length_filterMap_le _ _
    _ ≤ (Scan.ofText source).tokens.length := length_ofTokens _ _ _
    _ ≤ source.toList.length := Scan.length_tokens _ _ _
    _ ≤ source.utf8ByteSize := length_le_utf8ByteSize source

end Event

namespace Resolver

/-- The files that are imported by any text that is served. -/
def targets (r : Resolver) : List String := r.texts.flatMap Event.targets

theorem length_targets (r : Resolver) : r.targets.length + 2 ≤ Session.importLimit r := by
  unfold targets Session.importLimit
  induction r.texts with
  | nil => exact Nat.le_refl _
  | cons text texts ih =>
    have := Event.length_targets text
    simp only [List.flatMap_cons, List.length_append, List.foldr_cons]
    omega

theorem mem_targets {r : Resolver} {name : String} {file : SourceFile} {kind : ImportKind}
    {target : Located String} (opened : r.openFile name = .ok file)
    (h : Event.importFile kind target ∈ (Event.ofText file.text).1) : target.value ∈ r.targets :=
  List.mem_flatMap.mpr ⟨_, r.mem_texts opened, Event.mem_targets h⟩

end Resolver

namespace Session

variable {r : Resolver} {x s s' t t' : Session} {st : List Reading} {rd : Reading}
  {ρ σ : Renaming} {f : FileId} {name : String}

/-! ### Files within each other -/

/-- The file `name` and all files of the stack but the outermost one are imported by texts. -/
def Chain (r : Resolver) (st : List Reading) (name : String) : Prop :=
  ∀ n ∈ name :: st.dropLast.map Reading.name, n ∈ r.targets

/-- There is room for one more file. -/
theorem Chain.length_lt (h : Chain r st name) (hd : (st.map Reading.name).Nodup)
    (fresh : ∀ rd ∈ st, rd.name ≠ name) : st.length < importLimit r := by
  have hnodup : (name :: st.dropLast.map Reading.name).Nodup := by
    refine List.nodup_cons.mpr ⟨fun hm => ?_, hd.sublist ((List.dropLast_sublist st).map _)⟩
    obtain ⟨rd, hrd, he⟩ := List.mem_map.mp hm
    exact fresh rd (List.dropLast_subset st hrd) he
  have hlen := (List.subperm_of_subset hnodup h).length_le
  have htargets := r.length_targets
  simp only [List.length_cons, List.length_map, List.length_dropLast] at hlen
  omega

theorem Chain.cons {file : SourceFile} {kind : ImportKind} {target : Located String}
    (h : st = [] ∨ Chain r st rd.name) (opened : r.openFile rd.name = .ok file)
    (hi : .importFile kind target ∈ (Event.ofText file.text).1) :
    Chain r (rd :: st) target.value := by
  intro n hn
  rcases List.mem_cons.mp hn with rfl | hn
  · exact Resolver.mem_targets opened hi
  · rcases h with rfl | h
    · cases hn
    · cases st with
      | nil => cases hn
      | cons rd' st => exact h n hn

/-! ### Loading again -/

/-- A name stands at one position in the registry. -/
theorem position_unique {j k : Nat} {g : FileId} (hj : x.registry.entries[j]? = some (name, g))
    (hk : x.registry.entries[k]? = some (name, f)) : j = k := by
  have hkey : ∀ {i : Nat} {e : String × FileId}, x.registry.entries[i]? = some e →
      (x.registry.entries.map Prod.fst)[i]? = some e.1 := fun hi => by
    rw [List.getElem?_map, hi]
    rfl
  have hj' := (List.getElem?_eq_some_iff.mp (hkey hj)).1
  exact (List.getElem?_inj hj' x.registry.nodup).mp ((hkey hj).trans (hkey hk).symm)

/-- No file of the stack stands at the position `k` in the registry, or in front of it. -/
def Above (x : Session) (k : Nat) (st : List Reading) : Prop :=
  ∀ rd ∈ st, ∀ (j : Nat) g, x.registry.entries[j]? = some (rd.name, g) → k < j

theorem Above.fresh {k : Nat} (h : Above x k st) (hk : x.registry.entries[k]? = some (name, f)) :
    ∀ rd ∈ st, rd.name ≠ name := by
  rintro rd hrd rfl
  exact Nat.lt_irrefl k (h rd hrd k f hk)

/-- The file at the position `k` of the registry is loaded again, with any files being read. -/
def LoadsAgain (r : Resolver) (x : Session) (k : Nat) : Prop :=
  ∀ name f, x.registry.entries[k]? = some (name, f) → ∀ st limit, Chain r st name → Above x k st →
    limit + st.length = importLimit r + 1 → ∀ ρ t, Twin x ρ t → Regular (t, st) →
    ∃ σ t' id, loadUpTo r limit (st.map Reading.name).reverse name t = .ok id t' ∧
      t'.registry.find? name = some id ∧ Regular (t', st) ∧ Twin x σ t' ∧ Grows x t t' ρ σ

/-- A file is completed again if the files in front of it are loaded again. -/
theorem complete_again (hx : Regular (x, [])) (hh : History r (x, [])) {k : Nat}
    (ih : ∀ j < k, LoadsAgain r x j) (hk : x.registry.entries[k]? = some (name, f))
    (hchain : st = [] ∨ Chain r st name) (habove : Above x k st) {limit : Nat}
    (hlimit : limit + (st.length + 1) = importLimit r + 1) (ht : Twin x ρ t) (hr : Regular (t, st))
    (free : t.registry.find? name = none) :
    ∃ file, r.openFile name = .ok file ∧ ∃ σ t' id,
      complete (loadUpTo r limit ((st.map Reading.name).reverse ++ [name])) name file t = .ok id t' ∧
      t'.registry.find? name = some id ∧ Regular (t', st) ∧ Twin x σ t' ∧ Grows x t t' ρ σ := by
  have hf : x.registry.find? name = some f := Table.mem_entries_iff.mp (List.mem_of_getElem? hk)
  have hcompleted := hh.registered name f hf
  refine hcompleted.replay hx hf (K := fun n => ∃ file kind target, r.openFile name = .ok file ∧
      .importFile kind target ∈ (Event.ofText file.text).1 ∧ target.value = n)
    (fun file opened kind target hi => ⟨file, kind, target, opened, hi, rfl⟩) ht hr free
    (habove.fresh hk) ?_
  rintro rd' rfl _ ⟨file, kind, target, opened, hi, rfl⟩ ρ t - ht hr
  -- the import stands in front of the file in the registry
  obtain ⟨i, hi'⟩ := hcompleted.imports opened hi
  obtain ⟨j, hj, hentry⟩ := hx.sound.ordered k rd'.name f hk target.value i hi'
  have := ih j hj target.value i.file hentry (rd' :: st) limit (Chain.cons hchain opened hi) ?_ hlimit
    ρ t ht hr
  · rwa [List.map_cons, List.reverse_cons] at this
  · intro rd hrd j' g hj'
    rcases List.mem_cons.mp hrd with rfl | hrd
    · exact hj.trans_eq (position_unique hk hj')
    · exact hj.trans (habove rd hrd j' g hj')

/-- Every file that is complete in one session is loaded in another one. -/
theorem loadUpTo_again (hx : Regular (x, [])) (hh : History r (x, [])) (k : Nat) :
    LoadsAgain r x k := by
  induction k using Nat.strongRecOn with
  | _ k ih =>
    intro name f hk st limit hchain habove hlimit ρ t ht hr
    cases hfree : t.registry.find? name with
    | some id =>
      exact ⟨ρ, t, id, loadUpTo_of_registered hfree, hfree, hr, ht, .refl x t ρ⟩
    | none =>
      have fresh := habove.fresh hk
      have hlt := hchain.length_lt hr.sound.distinct.nodup fresh
      obtain ⟨limit, rfl⟩ : ∃ n, limit = n + 1 := Nat.exists_eq_succ_of_ne_zero (by omega)
      have hlimit' : limit + (st.length + 1) = importLimit r + 1 := by omega
      obtain ⟨file, opened, hrun⟩ := complete_again hx hh ih hk (.inr hchain) habove hlimit' ht hr
        hfree
      have hn : name ∉ (st.map Reading.name).reverse := fun hm => by
        obtain ⟨rd, hrd, he⟩ := List.mem_map.mp (List.mem_reverse.mp hm)
        exact fresh rd hrd he
      rw [loadUpTo_succ r limit _ hfree, if_neg hn, opened]
      exact hrun

end Session

end ProtoSchema
