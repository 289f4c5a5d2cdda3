import ProtoSchema.Proofs.Event.Lines
import ProtoSchema.Proofs.Event.Statements
import ProtoSchema.Proofs.Token.Legibility

/-! # The events of a text

What the tokens of a text spell can be written again: all names are words, and all numbers are in their
bounds.  So every event of a text is legible (`Event.legible_ofText`). -/

namespace ProtoSchema

open Reader

/-- Some tokens of a text. -/
abbrev Legibles (ts : List Token) : Prop := ∀ t ∈ ts, t.Legible

variable {t : Token} {ts u v : List Token}

theorem Legibles.head (h : Legibles (t :: ts)) : t.Legible := h t (List.mem_cons_self ..)

theorem Legibles.tail (h : Legibles (t :: ts)) : Legibles ts := fun x hx => h x (List.mem_cons_of_mem _ hx)

theorem Legibles.left (h : Legibles (u ++ v)) : Legibles u := fun x hx => h x (List.mem_append_left _ hx)

theorem Legibles.right (h : Legibles (u ++ v)) : Legibles v := fun x hx => h x (List.mem_append_right _ hx)

/-- What holds of values that are spelled holds of all values that are spelled behind each other. -/
theorem Reader.Repeats.forall_legible {α : Type} {m : Punct} {R : List Token → α → Prop} {P : α → Prop}
    {as : List α} (hR : ∀ u a, Legibles u → R u a → P a) (h : Repeats m R ts as) (ht : Legibles ts) :
    ∀ a ∈ as, P a := by
  induction h with
  | nil => exact List.forall_mem_nil _
  | cons between head _ ih =>
    exact List.forall_mem_cons.mpr ⟨hR _ _ ht.tail.left head, ih ht.tail.right⟩

namespace Spelling

theorem Ident.isIdent {w : String} (ht : Legibles ts) (h : Ident ts w) : IsIdent w := by
  cases h with
  | mk kind => exact ht.head.ident kind

theorem Word.isName {w : String} (ht : Legibles ts) (h : Word ts w) : IsName w := by
  cases h with
  | mk kind => exact ht.head.word kind

theorem Dotted.legible {name : DottedName} (ht : Legibles ts) (h : Dotted ts name) : name.Legible := by
  cases h with
  | mk head tail =>
    refine ⟨List.cons_ne_nil _ _, List.forall_mem_cons.mpr ⟨ht.head.ident head, ?_⟩⟩
    exact tail.forall_legible (fun u a => Ident.isIdent) ht.tail

theorem TypeName.legible {name : ProtoSchema.TypeName} (ht : Legibles ts) (h : TypeName ts name) :
    name.segments.Legible := by
  cases h with
  | absolute _ segments => exact segments.legible ht.tail
  | relative segments => exact segments.legible ht

theorem legible_of_constantStart {c : ProtoSchema.Constant} (ht : t.Legible)
    (h : constantStart t = some (.whole c)) : c.Legible := by
  unfold constantStart at h
  split at h <;> cases h
  · next hk => exact ht.int _ hk
  · next hk => exact ht.float _ hk
  · trivial
  · trivial

theorem legible_of_signed {negative : Bool} {c : ProtoSchema.Constant} (ht : t.Legible)
    (h : signed negative t = some c) : c.Legible := by
  have hsign : ∀ x : Binary64, x.Proper → (if negative then x.neg else x).Proper := by
    intro x hx
    split
    · exact Binary64.proper_neg hx
    · exact hx
  simp only [signed] at h
  split at h
  · next hk =>
    cases h
    exact ht.int _ hk
  · next hk =>
    cases h
    exact hsign _ (ht.float _ hk)
  · split at h
    · cases h
      exact hsign _ trivial
    · split at h
      · cases h
        exact hsign _ trivial
      · cases h
  · cases h

theorem Constant.legible {c : ProtoSchema.Constant} (ht : Legibles ts) (h : Constant ts c) :
    c.Legible := by
  cases h with
  | whole all => exact legible_of_constantStart ht.head all
  | signed _ number => exact legible_of_signed ht.tail.head number
  | name segments => exact segments.legible ht

theorem Root.legible {root : OptionRoot} (ht : Legibles ts) (h : Root ts root) : root.Legible := by
  cases h with
  | extension _ type => exact type.legible ht.tail.left
  | word any => exact any.isName ht

theorem OptionBody.legible {o : OptionDecl} (ht : Legibles ts) (h : OptionBody ts o) : o.Legible := by
  cases h with
  | mk first more _ value =>
    refine ⟨⟨first.legible ht.left, ?_⟩, value.legible ht.right.right.tail⟩
    exact more.forall_legible (fun u a => Word.isName) ht.right.left

theorem Options.legible {os : List OptionDecl} (ht : Legibles ts) (h : Options ts os) :
    ∀ o ∈ os, o.Legible := by
  cases h with
  | none => exact List.forall_mem_nil _
  | some _ head tail =>
    refine List.forall_mem_cons.mpr ⟨head.legible ht.tail.left, ?_⟩
    exact tail.forall_legible (fun u a => OptionBody.legible) ht.tail.right.left

theorem FieldType.legible {type : WrittenType} (ht : Legibles ts) (h : FieldType ts type) :
    type.Legible := by
  cases h with
  | scalar => trivial
  | named type => exact type.legible ht

theorem Front.legible {form : FieldForm} {type : WrittenType} (ht : Legibles ts)
    (h : Front ts form type) : type.Legible := by
  cases h with
  | plain written | required written => exact written.legible ht
  | label _ _ written => exact written.legible ht.tail
  | map _ _ _ _ written => exact written.legible ht.tail.tail.tail.tail.left

theorem FieldTail.legible {name : String} {n : Nat} {os : List OptionDecl} (ht : Legibles ts)
    (h : FieldTail ts name n os) : IsIdent name ∧ ∀ o ∈ os, o.Legible := by
  cases h with
  | mk ident _ _ options => exact ⟨ht.head.ident ident, options.legible ht.tail.tail.tail.left⟩

theorem Listed.ne_nil {α : Type} {R : List Token → α → Prop} {as : List α} (h : Listed R ts as) :
    as ≠ [] := by
  cases h with
  | mk => exact List.cons_ne_nil _ _

/-- The tokens of a text spell legible events. -/
theorem Statement.legible {e : Event} (ht : Legibles ts) (h : Statement ts e) (hb : e.InBounds) :
    e.Legible := by
  cases h with
  | edition | importFile | required | close | closeBlock => trivial
  | package _ segments => exact segments.legible ht.tail.left
  | option _ body => exact body.legible ht.tail.left
  | openMessage _ ident => exact ident.isIdent ht.tail
  | openExtend _ written => exact written.legible ht.tail
  | openEnum _ ident => exact ident.isIdent ht.tail
  | field front tail =>
    obtain ⟨hname, hoptions⟩ := tail.legible ht.right
    exact ⟨hb.1, front.legible ht.left, hname, hb.2, hoptions⟩
  | value ident _ _ options same =>
    refine ⟨?_, hb, options.legible ht.tail.tail.right.left⟩
    rw [same]
    exact ht.head.ident ident
  | reservedRanges _ list | extensionRanges _ list => exact ⟨list.ne_nil, hb⟩
  | reservedNames _ list => exact list.ne_nil

end Spelling

namespace Event

theorem legible_ofTokens (e : Ending) (ts : List Token) : ∀ fs : Frames, Legibles ts →
    ∀ event ∈ (ofTokens e fs ts).1, event.Legible := by
  induction h : ts.length using Nat.strongRecOn generalizing ts with
  | _ m ih =>
    intro fs ht
    unfold ofTokens
    split
    · exact List.forall_mem_nil _
    · next t rest =>
      split
      · exact List.forall_mem_nil _
      · next event? fs' rest' hr =>
        obtain ⟨used, rfl, hstep, hbounds⟩ := yields_next_spelling fs _ _ _ _ hr
        rw [← List.cons_append] at ht
        have hlater := ih rest'.length (by simp at h; omega) rest' rfl fs' ht.right
        refine fun event hevent => (List.mem_append.mp hevent).elim (fun hm => ?_) (hlater event)
        cases hstep with
        | empty | brace => cases hm
        | statement written =>
          rw [Option.toList_some, List.mem_singleton] at hm
          subst hm
          exact written.legible ht.left (hbounds _ rfl)

/-- Every event of a text is legible. -/
theorem legible_ofText (source : String) : ∀ e ∈ (ofText source).1, e.Legible :=
  legible_ofTokens _ _ [] (Scan.legible_ofText source)

end Event

end ProtoSchema
