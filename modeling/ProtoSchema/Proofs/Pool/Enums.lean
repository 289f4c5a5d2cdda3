import ProtoSchema.Proofs.Event.Declaring
import ProtoSchema.Proofs.Pool.Effects

/-! # Enums as they are read

An enum is opened without values, takes its values one by one, and is closed at its end; whatever else
happens leaves it as it is, but for its options (`EnumEffect`).  So each enum of a file is written among the
events in front of the cursor (`EnumEffect.writes`): its header, its values in their order, and its end,
unless it is still open. -/

namespace ProtoSchema

namespace Event

/-- The value that an event declares. -/
def value? : Event → Option ValueDecl
  | value v => some v
  | _ => none

variable {ks ks'' : OpenBlocks} {es es' : List Event}

theorem Nested.of_append (h : Nested ks (es ++ es') ks'') :
    ∃ ks', Nested ks es ks' ∧ Nested ks' es' ks'' := by
  induction es generalizing ks with
  | nil => exact ⟨ks, .nil, h⟩
  | cons e es ih =>
    cases h with
    | cons head tail =>
      obtain ⟨ks', hfront, hback⟩ := ih tail
      exact ⟨ks', .cons head hfront, hback⟩

/-- Without ends of blocks, no block is closed. -/
theorem depth_nonneg_of_not_mem (h : .close ∉ es) : 0 ≤ depth es := by
  refine List.sum_nonneg fun w hw => ?_
  obtain ⟨e, he, rfl⟩ := List.mem_map.mp hw
  cases e with
  | close => exact absurd he h
  | _ => simp [weight]

/-- A block that is opened is closed again, when all blocks are. -/
theorem Nested.close_mem {front body : List Event} {e : Event} (h : Nested [] (front ++ e :: body) [])
    (he : e.weight = 1) : .close ∈ body := by
  by_contra hbody
  obtain ⟨ks, -, hback⟩ := h.of_append
  have hdepth := hback.depth_eq
  have hinside := depth_nonneg_of_not_mem hbody
  rw [depth_cons, he, List.length_nil] at hdepth
  omega

end Event

/-- The enum is what its header and the statements behind it declare. -/
structure EnumType.WrittenAs (E : EnumType) (name : Located String) (body : List Event) : Prop where
  named : E.name = name.value
  placed : E.span = name.span
  values : E.values.entries =
    (body.filterMap Event.value?).map fun v => (v.number.value, ⟨v.name, v.options⟩)

/-- Each value of the enum is declared by a statement. -/
theorem EnumType.WrittenAs.exists_value {E : EnumType} {name : Located String} {body : List Event}
    (h : E.WrittenAs name body) {n : Int} {v : EnumValue} (hentry : (n, v) ∈ E.values.entries) :
    ∃ w, .value w ∈ body ∧ w.number.value = n ∧ w.name = v.name := by
  rw [h.values] at hentry
  obtain ⟨w, hw, heq⟩ := List.mem_map.mp hentry
  obtain ⟨e, he, hvalue⟩ := List.mem_filterMap.mp hw
  cases heq
  cases e <;> cases hvalue
  exact ⟨w, he, rfl, rfl⟩

namespace Cursor

/-! ### What an event does -/

/-- What an event can do to enums. -/
inductive EnumEffect (c : Cursor) (pool : Pool) : Event → Option Notice → Cursor → Pool → Prop
  | still {ev c' other} (enums : other.HasEnum = pool.HasEnum)
      (same : ∀ e, other.enum e = { pool.enum e with options := (other.enum e).options })
      (cursor : c'.openEnum = c.openEnum)
      (inside : c.openEnum ≠ none → ev.value? = none ∧ ev ≠ .close) : EnumEffect c pool ev none c' other
  | opened {name other m} (noEnum : c.openEnum = none)
      (added : Pool.EnumAdded pool other (pool.newEnum c.file c.scope name) m) :
      EnumEffect c pool (.openEnum name) none
        { c with openEnum := some ⟨pool.enums.size⟩, defined := true } other
  | grown {v id} (inEnum : c.openEnum = some id)
      (free : (pool.enum id).values.find? v.number.value = none) :
      EnumEffect c pool (.value v) none c (pool.modifyEnum id fun e =>
        { e with values := e.values.insert v.number.value ⟨v.name, v.options⟩ })
  | closed {id notice} (inEnum : c.openEnum = some id)
      (valid : closeEnum (pool.enum id) = .ok notice) :
      EnumEffect c pool .close notice { c with openEnum := none } pool

variable {c c' : Cursor} {pool other : Pool} {ev : Event} {notice : Option Notice}
  {ks ks' : OpenBlocks} {es : List Event} {e : EnumId}

/-- Only the end of an enum is worth a notice. -/
theorem notice_of_apply (h : c.apply pool ev = .ok (c', other, notice)) :
    notice = none ∧ (ev = .close → c.openEnum = none) ∨
      ∃ id, ev = .close ∧ c.openEnum = some id ∧ closeEnum (pool.enum id) = .ok notice := by
  cases ev with
  | close =>
    simp only [apply] at h
    split at h
    · next id inEnum =>
      obtain ⟨n, valid, he⟩ := map_eq_ok_iff.mp h
      cases he
      exact .inr ⟨id, rfl, inEnum, valid⟩
    · next noEnum =>
      cases h
      exact .inl ⟨rfl, fun _ => noEnum⟩
  | edition | package | openMessage | openEnum | field =>
    obtain ⟨result, -, he⟩ := map_eq_ok_iff.mp h
    cases he
    exact .inl ⟨rfl, by simp⟩
  | required =>
    simp only [apply] at h
    split at h <;> cases h
    exact .inl ⟨rfl, by simp⟩
  | value =>
    simp only [apply] at h
    split at h
    · obtain ⟨result, -, he⟩ := map_eq_ok_iff.mp h
      cases he
      exact .inl ⟨rfl, by simp⟩
    · cases h
      exact .inl ⟨rfl, by simp⟩
  | importFile | option | openExtend | reservedRanges | reservedNames | extensionRanges =>
    cases h
    exact .inl ⟨rfl, by simp⟩

/-- Nothing happens to enums. -/
theorem enumEffect_of_eq (enums : other.HasEnum = pool.HasEnum) (enum : other.enum = pool.enum)
    (cursor : c'.openEnum = c.openEnum)
    (inside : c.openEnum ≠ none → ev.value? = none ∧ ev ≠ .close) : EnumEffect c pool ev none c' other :=
  .still enums (fun e => by rw [enum]) cursor inside

theorem enumEffect_of_apply (h : c.apply pool ev = .ok (c', other, notice)) (hn : ev.Nests ks ks')
    (hf : c.Fits pool ks) : EnumEffect c pool ev notice c' other := by
  have heff := effect_of_apply h
  rcases notice_of_apply h with ⟨rfl, hclose⟩ | ⟨id, rfl, inEnum, valid⟩
  · cases heff with
    | edition | package | fileOption | blockOption | importFile | required | strayField =>
      exact enumEffect_of_eq rfl rfl rfl fun _ => ⟨rfl, nofun⟩
    | enumOption inEnum =>
      refine .still (Pool.hasEnum_modifyEnum _ _) (fun e => ?_) rfl fun _ => ⟨rfl, nofun⟩
      rw [Pool.enum_modifyEnum]
      split <;> rfl
    | message added =>
      cases hn with
      | openMessage hks =>
        have hadded := Pool.blockAdded_addMessage added (hf.hasScope hks).1
        exact enumEffect_of_eq hadded.enums hadded.enum rfl fun _ => ⟨rfl, nofun⟩
    | @extend type =>
      cases hn with
      | openExtend hks =>
        have hadded := Pool.blockAdded_addExtend c.file type
          (pool.resolve? c.file c.scope type.value) (hf.hasScope hks).1
        exact enumEffect_of_eq hadded.enums hadded.enum rfl fun _ => ⟨rfl, nofun⟩
    | enum added =>
      cases hn with
      | openEnum hks =>
        obtain ⟨-, rfl, -⟩ := Pool.addEnum_eq_ok added
        exact .opened (hf.scopeFits hks).1 (Pool.enumAdded_addEnum added (hf.hasScope hks).1)
    | field scope added =>
      have hadded := Pool.fieldAdded added (hf.scope_block scope).1
      exact enumEffect_of_eq hadded.enums hadded.enum rfl fun _ => ⟨rfl, nofun⟩
    | value inEnum added =>
      obtain ⟨free, -, rfl⟩ := Pool.addValue_eq_ok added
      exact .grown inEnum free
    | strayValue noEnum => exact enumEffect_of_eq rfl rfl rfl fun h => absurd noEnum h
    | reservedRanges | reservedNames | extensionRanges =>
      unfold modifyOpen
      split <;> exact enumEffect_of_eq rfl rfl rfl fun _ => ⟨rfl, nofun⟩
    | closeEnum inEnum =>
      rw [hclose rfl] at inEnum
      cases inEnum
    | closeBlock noEnum => exact enumEffect_of_eq rfl rfl rfl fun h => absurd noEnum h
  · cases heff with
    | closeEnum inEnum' => exact .closed inEnum valid
    | closeBlock noEnum =>
      rw [noEnum] at inEnum
      cases inEnum

/-- An enum that is not open stays as it is, but for its options. -/
theorem EnumEffect.same (h : EnumEffect c pool ev notice c' other) (he : pool.HasEnum e)
    (hclosed : c.openEnum ≠ some e) :
    other.HasEnum e ∧ other.enum e = { pool.enum e with options := (other.enum e).options } := by
  cases h with
  | still enums same => exact ⟨enums ▸ he, same e⟩
  | opened noEnum added => exact ⟨(added.enums e).mpr (.inl he), by rw [added.enum e he]⟩
  | @grown v id inEnum free =>
    have hid : id ≠ e := fun h => hclosed (h ▸ inEnum)
    rw [Pool.hasEnum_modifyEnum, Pool.enum_modifyEnum, if_neg fun h => hid h.1]
    exact ⟨he, rfl⟩
  | closed => exact ⟨he, rfl⟩

/-- Only an enum that was open is open behind an event, or a new one. -/
theorem EnumEffect.openEnum (h : EnumEffect c pool ev notice c' other) (he : pool.HasEnum e)
    (hopen : c'.openEnum = some e) : c.openEnum = some e := by
  cases h with
  | still _ _ cursor => exact cursor ▸ hopen
  | opened =>
    cases hopen
    exact absurd he Pool.not_hasEnum_size
  | grown => exact hopen
  | closed => cases hopen

/-- Behind an event, an enum is open, or it was there and was closed, if not by that event. -/
theorem EnumEffect.before (h : EnumEffect c pool ev notice c' other) (he : other.HasEnum e) :
    c'.openEnum = some e ∨ pool.HasEnum e ∧ (other.enum e).file = (pool.enum e).file ∧
      (c.openEnum = some e → other = pool ∧ closeEnum (pool.enum e) = .ok notice) := by
  cases h with
  | still enums same cursor =>
    by_cases hopen : c.openEnum = some e
    · exact .inl (cursor.trans hopen)
    · exact .inr ⟨enums ▸ he, by rw [same e], fun h => absurd h hopen⟩
  | opened noEnum added =>
    rcases (added.enums e).mp he with hold | rfl
    · exact .inr ⟨hold, by rw [added.enum e hold], by simp [noEnum]⟩
    · exact .inl rfl
  | @grown v id inEnum free =>
    rw [Pool.hasEnum_modifyEnum] at he
    by_cases hid : id = e
    · exact .inl (hid ▸ inEnum)
    · rw [Pool.enum_modifyEnum, if_neg fun h => hid h.1]
      exact .inr ⟨he, rfl, fun h => absurd (Option.some.inj (inEnum.symm.trans h)) hid⟩
  | closed inEnum valid =>
    refine .inr ⟨he, rfl, fun h => ⟨rfl, ?_⟩⟩
    cases inEnum.symm.trans h
    exact valid

/-- An enum stays in its file, and none of its values is lost. -/
theorem EnumEffect.keeps (h : EnumEffect c pool ev notice c' other) {f : FileId} (he : pool.EnumOf f e) :
    other.EnumOf f e ∧ (pool.enum e).values.entries <+: (other.enum e).values.entries := by
  cases h with
  | still enums same =>
    refine ⟨⟨enums ▸ he.1, ?_⟩, ?_⟩
    · rw [same e]
      exact he.2
    · rw [same e]
  | opened noEnum added =>
    rw [Pool.EnumOf, added.enum e he.1]
    exact ⟨⟨(added.enums e).mpr (.inl he.1), he.2⟩, List.prefix_refl _⟩
  | @grown v id inEnum free =>
    rw [Pool.EnumOf, Pool.hasEnum_modifyEnum, Pool.enum_modifyEnum]
    split
    · next hid =>
      obtain ⟨rfl, -⟩ := hid
      exact ⟨he, by rw [Table.entries_insert free]; exact List.prefix_append _ _⟩
    · exact ⟨he, List.prefix_refl _⟩
  | closed => exact ⟨he, List.prefix_refl _⟩

/-- A value in an enum is one of the values of that enum. -/
theorem EnumEffect.value_mem {v : ValueDecl} (h : EnumEffect c pool (.value v) notice c' other)
    (inEnum : c.openEnum = some e) (he : pool.HasEnum e) :
    (v.number.value, ⟨v.name, v.options⟩) ∈ (other.enum e).values.entries := by
  cases h with
  | still _ _ _ inside => cases (inside (by simp [inEnum])).1
  | @grown _ id inEnum' free =>
    cases inEnum.symm.trans inEnum'
    rw [Pool.enum_modifyEnum, if_pos ⟨rfl, he⟩, Table.entries_insert free]
    exact List.mem_append_right _ (List.mem_singleton_self _)

/-! ### Where an enum is written -/

/-- The enum is written among the events in front of the cursor. -/
inductive Writes (c : Cursor) (pool : Pool) (e : EnumId) : List Event → Prop
  | opened {front name body} (here : c.openEnum = some e) (written : (pool.enum e).WrittenAs name body)
      (inside : .close ∉ body) : Writes c pool e (front ++ .openEnum name :: body)
  | closed {front name body back} (behind : c.openEnum ≠ some e)
      (written : (pool.enum e).WrittenAs name body) (inside : .close ∉ body) :
      Writes c pool e (front ++ .openEnum name :: (body ++ .close :: back))

theorem Writes.of_opened (h : c.Writes pool e es) (here : c.openEnum = some e) : ∃ front name body,
    es = front ++ .openEnum name :: body ∧ (pool.enum e).WrittenAs name body ∧ .close ∉ body := by
  cases h with
  | opened _ written inside => exact ⟨_, _, _, rfl, written, inside⟩
  | closed behind => exact absurd here behind

theorem Writes.of_closed (h : c.Writes pool e es) (behind : c.openEnum ≠ some e) :
    ∃ front name body back, es = front ++ .openEnum name :: (body ++ .close :: back) ∧
      (pool.enum e).WrittenAs name body ∧ .close ∉ body := by
  cases h with
  | opened here => exact absurd here behind
  | closed _ written inside => exact ⟨_, _, _, _, rfl, written, inside⟩

theorem Writes.kept (h : c.Writes pool e es) (same : other.enum e = pool.enum e) :
    c.Writes other e es := by
  cases h with
  | opened here written inside => exact .opened here (same ▸ written) inside
  | closed behind written inside => exact .closed behind (same ▸ written) inside

/-- Behind a closed enum more events may follow. -/
theorem Writes.later (h : c.Writes pool e es) (behind : c.openEnum ≠ some e)
    (behind' : c'.openEnum ≠ some e) (same : other.enum e = pool.enum e) (ev : Event) :
    c'.Writes other e (es ++ [ev]) := by
  obtain ⟨front, name, body, back, rfl, written, inside⟩ := h.of_closed behind
  simp only [List.append_assoc, List.cons_append]
  exact .closed behind' (same ▸ written) inside

/-- If each enum of the file is written among the events, it is so behind the next event. -/
theorem EnumEffect.writes (h : EnumEffect c pool ev notice c' other)
    (hwrites : ∀ e, pool.EnumOf c.file e → c.Writes pool e es) (he : other.EnumOf c.file e) :
    c'.Writes other e (es ++ [ev]) := by
  cases h with
  | still enums same cursor inside =>
    have hold := hwrites e ⟨enums ▸ he.1, by rw [← he.2, same e]⟩
    have hsame : ∀ {name body}, (pool.enum e).WrittenAs name body → (other.enum e).WrittenAs name body := by
      rintro name body ⟨hname, hspan, hvalues⟩
      rw [same e]
      exact ⟨hname, hspan, hvalues⟩
    cases hold with
    | opened here written inBody =>
      obtain ⟨hvalue, hne⟩ := inside (by simp [here])
      obtain ⟨hname, hspan, hvalues⟩ := hsame written
      rw [List.append_assoc, List.cons_append]
      refine .opened (cursor.trans here) ⟨hname, hspan, ?_⟩ (by simp [inBody, Ne.symm hne])
      rw [List.filterMap_append, List.filterMap_cons_none hvalue, List.filterMap_nil, List.append_nil,
        hvalues]
    | closed behind written inBody =>
      simp only [List.append_assoc, List.cons_append]
      exact .closed (cursor ▸ behind) (hsame written) inBody
  | opened noEnum added =>
    rcases (added.enumOf_iff rfl).mp he with hold | rfl
    · refine (hwrites e hold).later (by simp [noEnum]) (fun h => ?_) (added.enum e hold.1) _
      cases h
      exact Pool.not_hasEnum_size hold.1
    · refine .opened rfl ?_ List.not_mem_nil
      rw [added.enum_new]
      exact ⟨by simp [EnumType.name, Pool.newEnum], rfl, rfl⟩
  | @grown v id inEnum free =>
    have hold := hwrites e ⟨by rw [← Pool.hasEnum_modifyEnum]; exact he.1, ?_⟩
    · by_cases hid : e = id
      · subst hid
        obtain ⟨front, name, body, rfl, ⟨hname, hspan, hvalues⟩, inside⟩ := hold.of_opened inEnum
        rw [List.append_assoc, List.cons_append]
        refine .opened inEnum ?_ (by simp [inside])
        rw [Pool.enum_modifyEnum, if_pos ⟨rfl, by rw [← Pool.hasEnum_modifyEnum]; exact he.1⟩]
        refine ⟨hname, hspan, ?_⟩
        rw [Table.entries_insert free, hvalues, List.filterMap_append, List.map_append]
        rfl
      · have hne : c.openEnum ≠ some e := fun h => hid (Option.some.inj (h.symm.trans inEnum))
        refine hold.later hne hne ?_ _
        rw [Pool.enum_modifyEnum, if_neg fun h => hid h.1.symm]
    · rw [← he.2, Pool.enum_modifyEnum]
      split <;> rfl
  | @closed id notice inEnum valid =>
    have hold := hwrites e he
    by_cases hid : c.openEnum = some e
    · obtain ⟨front, name, body, rfl, written, inside⟩ := hold.of_opened hid
      rw [List.append_assoc, List.cons_append]
      exact .closed (by simp) written inside
    · exact hold.later hid (by simp) rfl _

/-! ### The end of an enum -/

/-- An enum with values is closed; if none of them is numbered zero, its first value is told. -/
theorem closeEnum_eq_ok_iff {E : EnumType} : closeEnum E = .ok notice ↔
    ∃ first, E.values.values.head? = some first ∧ notice =
      if E.hasZero then none
      else some (.enumMissingZero E.fullName.text first.name.value E.span) := by
  unfold closeEnum
  cases E.values.values.head? with
  | none => simp
  | some first => cases E.hasZero <;> simp [eq_comm]

end Cursor

end ProtoSchema
