import ProtoSchema.Proofs.Event.Grammar
import ProtoSchema.Proofs.Event.Statements

/-! # Productions and spellings

The phrases of each part of the grammar are the tokens that spell some value of that part. -/

namespace ProtoSchema.Grammar

open Computability
open Reader (Repeats)
open Spelling (Dotted Ident Word Str)

variable {α : Type} {L M : Language Token} {P : Token → Prop} {ts u v : List Token} {t : Token}

/-! ### Combinations of phrases -/

theorem mem_one : ts ∈ one P ↔ ∃ t, P t ∧ ts = [t] := Iff.rfl

theorem mem_optional : ts ∈ optional L ↔ ts = [] ∨ ts ∈ L := by
  rw [optional, Language.mem_add, Language.mem_one]

theorem mem_one_mul : ts ∈ one P * L ↔ ∃ t u, P t ∧ u ∈ L ∧ ts = t :: u := by
  rw [Language.mem_mul]
  constructor
  · rintro ⟨_, ⟨t, ht, rfl⟩, u, hu, rfl⟩
    exact ⟨t, u, ht, hu, rfl⟩
  · rintro ⟨t, u, ht, hu, rfl⟩
    exact ⟨[t], ⟨t, ht, rfl⟩, u, hu, rfl⟩

theorem mem_mul_one : ts ∈ L * one P ↔ ∃ u t, u ∈ L ∧ P t ∧ ts = u ++ [t] := by
  rw [Language.mem_mul]
  constructor
  · rintro ⟨u, hu, _, ⟨t, ht, rfl⟩, rfl⟩
    exact ⟨u, t, hu, ht, rfl⟩
  · rintro ⟨u, t, hu, ht, rfl⟩
    exact ⟨u, hu, [t], ⟨t, ht, rfl⟩, rfl⟩

/-- Phrases behind marks spell lists of values. -/
theorem mem_repeated {R : List Token → α → Prop} {m : Punct} (h : ∀ {u}, u ∈ L ↔ ∃ a, R u a) :
    ts ∈ (mark m * L)∗ ↔ ∃ as, Repeats m R ts as := by
  rw [Language.mem_kstar]
  constructor
  · rintro ⟨phrases, rfl, hphrases⟩
    induction phrases with
    | nil => exact ⟨[], .nil⟩
    | cons phrase phrases ih =>
      rw [List.forall_mem_cons] at hphrases
      obtain ⟨as, has⟩ := ih hphrases.2
      obtain ⟨t, u, between, hu, rfl⟩ := mem_one_mul.mp hphrases.1
      obtain ⟨a, ha⟩ := h.mp hu
      exact ⟨a :: as, .cons between ha has⟩
  · rintro ⟨as, has⟩
    induction has with
    | nil => exact ⟨[], rfl, List.forall_mem_nil _⟩
    | @cons t u v a as between head tail ih =>
      obtain ⟨phrases, rfl, hphrases⟩ := ih
      refine ⟨(t :: u) :: phrases, rfl, List.forall_mem_cons.mpr ⟨?_, hphrases⟩⟩
      exact mem_one_mul.mpr ⟨t, u, between, h.mpr ⟨a, head⟩, rfl⟩

theorem mem_listed {R : List Token → α → Prop} (h : ∀ {u}, u ∈ L ↔ ∃ a, R u a) :
    ts ∈ listed L ↔ ∃ as, Spelling.Listed R ts as := by
  rw [listed, Language.mem_mul]
  constructor
  · rintro ⟨u, hu, v, hv, rfl⟩
    obtain ⟨a, ha⟩ := h.mp hu
    obtain ⟨as, has⟩ := (mem_repeated h).mp hv
    exact ⟨a :: as, .mk ha has⟩
  · rintro ⟨_, ⟨head, tail⟩⟩
    exact ⟨_, h.mpr ⟨_, head⟩, _, (mem_repeated h).mpr ⟨_, tail⟩, rfl⟩

/-! ### Names -/

theorem mem_ident : ts ∈ ident ↔ ∃ w, Ident ts w := by
  constructor
  · rintro ⟨t, kind, rfl⟩
    exact ⟨_, .mk kind⟩
  · rintro ⟨_, ⟨kind⟩⟩
    exact ⟨_, kind, rfl⟩

theorem mem_word : ts ∈ word ↔ ∃ w, Word ts w := by
  constructor
  · rintro ⟨t, kind, rfl⟩
    exact ⟨_, .mk kind⟩
  · rintro ⟨_, ⟨kind⟩⟩
    exact ⟨_, kind, rfl⟩

theorem mem_string : ts ∈ string ↔ ∃ s, Str ts s := by
  constructor
  · rintro ⟨t, ⟨s, kind⟩, rfl⟩
    exact ⟨s, .mk kind⟩
  · rintro ⟨s, ⟨kind⟩⟩
    exact ⟨_, ⟨s, kind⟩, rfl⟩

theorem mem_fullIdent : ts ∈ fullIdent ↔ ∃ name, Dotted ts name := by
  rw [fullIdent, mem_one_mul]
  constructor
  · rintro ⟨t, u, head, hu, rfl⟩
    obtain ⟨more, tail⟩ := (mem_repeated mem_ident).mp hu
    exact ⟨_, .mk head tail⟩
  · rintro ⟨_, ⟨head, tail⟩⟩
    exact ⟨_, _, head, (mem_repeated mem_ident).mpr ⟨_, tail⟩, rfl⟩

theorem mem_typeName : ts ∈ typeName ↔ ∃ name, Spelling.TypeName ts name := by
  rw [typeName, Language.mem_mul]
  constructor
  · rintro ⟨u, hu, v, hv, rfl⟩
    obtain ⟨name, segments⟩ := mem_fullIdent.mp hv
    rcases mem_optional.mp hu with rfl | ⟨t, dot, rfl⟩
    · exact ⟨_, .relative segments⟩
    · exact ⟨_, .absolute dot segments⟩
  · rintro ⟨_, ⟨dot, segments⟩ | segments⟩
    · exact ⟨[_], mem_optional.mpr (.inr ⟨_, dot, rfl⟩), _, mem_fullIdent.mpr ⟨_, segments⟩, rfl⟩
    · exact ⟨[], mem_optional.mpr (.inl rfl), _, mem_fullIdent.mpr ⟨_, ‹_›⟩, rfl⟩

/-! ### Constants and options -/

theorem constantStart_sign : (∃ negative, Reader.constantStart t = some (.sign negative)) ↔
    t.kind = .punct .plus ∨ t.kind = .punct .minus := by
  unfold Reader.constantStart
  split <;> simp_all

theorem constantStart_whole : (∃ c, Reader.constantStart t = some (.whole c)) ↔
    (∃ n, t.kind = .int n) ∨ (∃ x, t.kind = .float x) ∨ (∃ s, t.kind = .string s) ∨
      ∃ b, t.kind = .bool b := by
  unfold Reader.constantStart
  split <;> simp_all

theorem signed_isSome (negative : Bool) : (∃ c, Reader.signed negative t = some c) ↔
    (∃ n, t.kind = .int n) ∨ (∃ x, t.kind = .float x) ∨
      t.kind = .ident ∧ (t.text = "inf" ∨ t.text = "nan") := by
  obtain ⟨kind, text, span⟩ := t
  cases kind with
  | ident =>
    by_cases hinf : text = "inf"
    · simp [Reader.signed, hinf]
    · by_cases hnan : text = "nan" <;> simp [Reader.signed, hinf, hnan]
  | _ => simp [Reader.signed]

theorem mem_sign : ts ∈ sign ↔ ∃ t negative, ts = [t] ∧ Reader.constantStart t = some (.sign negative) := by
  rw [sign, Language.mem_add, mem_one, mem_one]
  constructor
  · rintro (⟨t, kind, rfl⟩ | ⟨t, kind, rfl⟩)
    · obtain ⟨negative, h⟩ := constantStart_sign.mpr (.inl kind)
      exact ⟨t, negative, rfl, h⟩
    · obtain ⟨negative, h⟩ := constantStart_sign.mpr (.inr kind)
      exact ⟨t, negative, rfl, h⟩
  · rintro ⟨t, negative, rfl, h⟩
    rcases constantStart_sign.mp ⟨negative, h⟩ with kind | kind
    · exact .inl ⟨t, kind, rfl⟩
    · exact .inr ⟨t, kind, rfl⟩

theorem mem_number : ts ∈ int + float ↔
    ∃ t, ts = [t] ∧ ((∃ n, t.kind = .int n) ∨ ∃ x, t.kind = .float x) := by
  rw [Language.mem_add, mem_one, mem_one]
  constructor
  · rintro (⟨t, kind, rfl⟩ | ⟨t, kind, rfl⟩)
    · exact ⟨t, rfl, .inl kind⟩
    · exact ⟨t, rfl, .inr kind⟩
  · rintro ⟨t, rfl, kind | kind⟩
    · exact .inl ⟨t, kind, rfl⟩
    · exact .inr ⟨t, kind, rfl⟩

theorem mem_constant : ts ∈ constant ↔ ∃ c, Spelling.Constant ts c := by
  have hsigned : ∀ u v, u ∈ sign → (∀ negative, ∃ c, Reader.signed negative v = some c) →
      ∃ c, Spelling.Constant (u ++ [v]) c := by
    intro u v hu hv
    obtain ⟨t, negative, rfl, hsign⟩ := mem_sign.mp hu
    obtain ⟨c, hc⟩ := hv negative
    exact ⟨c, .signed hsign hc⟩
  have hwhole : ∀ t, (∃ c, Reader.constantStart t = some (.whole c)) → ∃ c, Spelling.Constant [t] c :=
    fun t ⟨c, hc⟩ => ⟨c, .whole hc⟩
  simp only [constant, Language.mem_add (l := _ + _)]
  constructor
  · rintro ((((h | h) | h) | h) | h)
    · obtain ⟨u, hu, v, hv, rfl⟩ := Language.mem_mul.mp h
      obtain ⟨t, rfl, ht⟩ := mem_number.mp hv
      rcases mem_optional.mp hu with rfl | hu
      · exact hwhole t (constantStart_whole.mpr (ht.imp_right .inl))
      · exact hsigned _ _ hu fun negative => (signed_isSome negative).mpr (ht.imp_right .inl)
    · obtain ⟨u, hu, _, ⟨t, ht, rfl⟩, rfl⟩ := Language.mem_mul.mp h
      exact hsigned _ _ hu fun negative => (signed_isSome negative).mpr (.inr (.inr ht))
    · obtain ⟨t, kind, rfl⟩ := h
      exact hwhole t (constantStart_whole.mpr (.inr (.inr (.inl kind))))
    · obtain ⟨t, kind, rfl⟩ := h
      exact hwhole t (constantStart_whole.mpr (.inr (.inr (.inr kind))))
    · obtain ⟨name, segments⟩ := mem_fullIdent.mp h
      exact ⟨_, .name segments⟩
  · rintro ⟨c, h⟩
    cases h with
    | whole all =>
      rcases constantStart_whole.mp ⟨_, all⟩ with kind | kind | kind | kind
      · exact .inl (.inl (.inl (.inl (Language.mem_mul.mpr
          ⟨[], mem_optional.mpr (.inl rfl), _, mem_number.mpr ⟨_, rfl, .inl kind⟩, rfl⟩))))
      · exact .inl (.inl (.inl (.inl (Language.mem_mul.mpr
          ⟨[], mem_optional.mpr (.inl rfl), _, mem_number.mpr ⟨_, rfl, .inr kind⟩, rfl⟩))))
      · exact .inl (.inl (.inr ⟨_, kind, rfl⟩))
      · exact .inl (.inr ⟨_, kind, rfl⟩)
    | @signed t v negative c hsign number =>
      have ht : [t] ∈ sign := mem_sign.mpr ⟨t, negative, rfl, hsign⟩
      rcases (signed_isSome negative).mp ⟨c, number⟩ with kind | kind | kind
      · exact .inl (.inl (.inl (.inl (Language.mem_mul.mpr
          ⟨[t], mem_optional.mpr (.inr ht), _, mem_number.mpr ⟨v, rfl, .inl kind⟩, rfl⟩))))
      · exact .inl (.inl (.inl (.inl (Language.mem_mul.mpr
          ⟨[t], mem_optional.mpr (.inr ht), _, mem_number.mpr ⟨v, rfl, .inr kind⟩, rfl⟩))))
      · exact .inl (.inl (.inl (.inr (Language.mem_mul.mpr ⟨[t], ht, _, ⟨v, kind, rfl⟩, rfl⟩))))
    | name segments => exact .inr (mem_fullIdent.mpr ⟨_, segments⟩)

theorem mem_optionName : ts ∈ optionName ↔ ∃ u root v parts, Spelling.Root u root ∧
    Repeats .dot Word v parts ∧ ts = u ++ v := by
  have hroot : ∀ u, u ∈ mark .leftParen * typeName * mark .rightParen + word ↔
      ∃ root, Spelling.Root u root := by
    intro u
    rw [Language.mem_add, mul_assoc, mem_one_mul]
    constructor
    · rintro (⟨t, v, left, hv, rfl⟩ | h)
      · obtain ⟨w, t', hw, right, rfl⟩ := mem_mul_one.mp hv
        obtain ⟨name, type⟩ := mem_typeName.mp hw
        exact ⟨_, .extension left type right⟩
      · obtain ⟨w, any⟩ := mem_word.mp h
        exact ⟨_, .word any⟩
    · rintro ⟨_, ⟨left, type, right⟩ | any⟩
      · exact .inl ⟨_, _, left, mem_mul_one.mpr ⟨_, _, mem_typeName.mpr ⟨_, type⟩, right, rfl⟩, rfl⟩
      · exact .inr (mem_word.mpr ⟨_, ‹_›⟩)
  rw [optionName, Language.mem_mul]
  constructor
  · rintro ⟨u, hu, v, hv, rfl⟩
    obtain ⟨root, first⟩ := (hroot u).mp hu
    obtain ⟨parts, more⟩ := (mem_repeated mem_word).mp hv
    exact ⟨u, root, v, parts, first, more, rfl⟩
  · rintro ⟨u, root, v, parts, first, more, rfl⟩
    exact ⟨u, (hroot u).mpr ⟨root, first⟩, v, (mem_repeated mem_word).mpr ⟨parts, more⟩, rfl⟩

theorem mem_optionBody : ts ∈ optionBody ↔ ∃ o, Spelling.OptionBody ts o := by
  rw [optionBody, mul_assoc, Language.mem_mul]
  constructor
  · rintro ⟨_, hname, _, htail, rfl⟩
    obtain ⟨u, root, v, parts, first, more, rfl⟩ := mem_optionName.mp hname
    obtain ⟨t, w, equals, hw, rfl⟩ := mem_one_mul.mp htail
    obtain ⟨c, value⟩ := mem_constant.mp hw
    exact ⟨_, by simpa only [List.append_assoc] using .mk first more equals value⟩
  · rintro ⟨_, ⟨first, more, equals, value⟩⟩
    refine ⟨_, mem_optionName.mpr ⟨_, _, _, _, first, more, rfl⟩, _,
      mem_one_mul.mpr ⟨_, _, equals, mem_constant.mpr ⟨_, value⟩, rfl⟩, ?_⟩
    rw [List.append_assoc]

theorem mem_options : ts ∈ optional options ↔ ∃ os, Spelling.Options ts os := by
  rw [mem_optional, options, mul_assoc, mem_one_mul]
  constructor
  · rintro (rfl | ⟨t, u, left, hu, rfl⟩)
    · exact ⟨[], .none⟩
    · obtain ⟨v, w, hv, right, rfl⟩ := mem_mul_one.mp hu
      obtain ⟨_, ⟨head, tail⟩⟩ := (mem_listed mem_optionBody).mp hv
      exact ⟨_, by simpa only [List.append_assoc] using .some left head tail right⟩
  · rintro ⟨_, _ | ⟨left, head, tail, right⟩⟩
    · exact .inl rfl
    · refine .inr ⟨_, _, left, mem_mul_one.mpr
        ⟨_, _, (mem_listed mem_optionBody).mpr ⟨_, .mk head tail⟩, right, rfl⟩, ?_⟩
      rw [List.append_assoc]

/-! ### Types, ranges and numbers -/

theorem mem_type : ts ∈ type ↔ ∃ type, Spelling.FieldType ts type := by
  rw [type, Language.mem_add]
  constructor
  · rintro (⟨t, ⟨s, kind⟩, rfl⟩ | h)
    · exact ⟨_, .scalar kind⟩
    · obtain ⟨name, type⟩ := mem_typeName.mp h
      exact ⟨_, .named type⟩
  · rintro ⟨_, kind | type⟩
    · exact .inl ⟨_, ⟨_, kind⟩, rfl⟩
    · exact .inr (mem_typeName.mpr ⟨_, type⟩)

theorem mem_range : ts ∈ range ↔ ∃ r, Spelling.Range ts r := by
  rw [range, mem_one_mul]
  constructor
  · rintro ⟨t, u, ⟨n, first⟩, hu, rfl⟩
    rcases mem_optional.mp hu with rfl | hu
    · exact ⟨_, .single first⟩
    · obtain ⟨b, w, between, hw, rfl⟩ := mem_one_mul.mp hu
      rcases (Language.mem_add _ _ _).mp hw with ⟨v, ⟨m, last⟩, rfl⟩ | ⟨v, last, rfl⟩
      · exact ⟨_, .bounded first between last⟩
      · exact ⟨_, .unbounded first between last⟩
  · rintro ⟨_, first | ⟨first, between, last⟩ | ⟨first, between, last⟩⟩
    · exact ⟨_, [], ⟨_, first⟩, mem_optional.mpr (.inl rfl), rfl⟩
    · exact ⟨_, _, ⟨_, first⟩, mem_optional.mpr (.inr (mem_one_mul.mpr
        ⟨_, _, between, .inl ⟨_, ⟨_, last⟩, rfl⟩, rfl⟩)), rfl⟩
    · exact ⟨_, _, ⟨_, first⟩, mem_optional.mpr (.inr (mem_one_mul.mpr
        ⟨_, _, between, .inr ⟨_, last, rfl⟩, rfl⟩)), rfl⟩

theorem mem_fieldTail : ts ∈ fieldTail ↔ ∃ name n os, Spelling.FieldTail ts name n os := by
  rw [fieldTail, mul_assoc, mul_assoc, mul_assoc, mem_one_mul]
  constructor
  · rintro ⟨name, u, ident, hu, rfl⟩
    obtain ⟨equals, v, mark, hv, rfl⟩ := mem_one_mul.mp hu
    obtain ⟨number, w, ⟨n, int⟩, hw, rfl⟩ := mem_one_mul.mp hv
    obtain ⟨x, semicolon, hx, stop, rfl⟩ := mem_mul_one.mp hw
    obtain ⟨os, options⟩ := mem_options.mp hx
    exact ⟨_, n, os, .mk ident mark int options stop⟩
  · rintro ⟨_, n, os, ⟨ident, mark, int, options, stop⟩⟩
    exact ⟨_, _, ident, mem_one_mul.mpr ⟨_, _, mark, mem_one_mul.mpr ⟨_, _, ⟨n, int⟩,
      mem_mul_one.mpr ⟨_, _, mem_options.mpr ⟨os, options⟩, stop, rfl⟩, rfl⟩, rfl⟩, rfl⟩

theorem mem_importWord : ts ∈ optional (keyword .publicImport + keyword .weakImport) ↔
    ∃ way, Spelling.Import ts way := by
  rw [mem_optional, Language.mem_add]
  constructor
  · rintro (rfl | ⟨t, kind, rfl⟩ | ⟨t, kind, rfl⟩)
    · exact ⟨_, .plain⟩
    · exact ⟨_, .publicly kind⟩
    · exact ⟨_, .weakly kind⟩
  · rintro ⟨_, _ | kind | kind⟩
    · exact .inl rfl
    · exact .inr (.inl ⟨_, kind, rfl⟩)
    · exact .inr (.inr ⟨_, kind, rfl⟩)

theorem mem_signedInt : ts ∈ optional (mark .minus) * int ↔ ∃ n, Spelling.Number ts n := by
  rw [mem_mul_one]
  constructor
  · rintro ⟨u, t, hu, ⟨n, int⟩, rfl⟩
    rcases mem_optional.mp hu with rfl | ⟨m, minus, rfl⟩
    · exact ⟨_, .positive int⟩
    · exact ⟨_, .negative minus int⟩
  · rintro ⟨_, int | ⟨minus, int⟩⟩
    · exact ⟨[], _, mem_optional.mpr (.inl rfl), ⟨_, int⟩, rfl⟩
    · exact ⟨[_], _, mem_optional.mpr (.inr ⟨_, minus, rfl⟩), ⟨_, int⟩, rfl⟩

/-! ### Statements -/

/-- A phrase behind a token and in front of another one. -/
theorem mem_enclosed {Q : Token → Prop} : ts ∈ one P * L * one Q ↔
    ∃ t u t', P t ∧ u ∈ L ∧ Q t' ∧ ts = t :: (u ++ [t']) := by
  rw [mul_assoc, mem_one_mul]
  constructor
  · rintro ⟨t, v, ht, hv, rfl⟩
    obtain ⟨u, t', hu, ht', rfl⟩ := mem_mul_one.mp hv
    exact ⟨t, u, t', ht, hu, ht', rfl⟩
  · rintro ⟨t, u, t', ht, hu, ht', rfl⟩
    exact ⟨t, _, ht, mem_mul_one.mpr ⟨u, t', hu, ht', rfl⟩, rfl⟩

theorem mem_edition : ts ∈ edition ↔ ∃ t equals name semicolon s, t.kind = .keyword .edition ∧
    equals.kind = .punct .equals ∧ name.kind = .string s ∧ semicolon.kind = .punct .semicolon ∧
      ts = [t, equals, name, semicolon] := by
  rw [edition, mul_assoc, mul_assoc, mem_one_mul]
  constructor
  · rintro ⟨t, u, kind, hu, rfl⟩
    obtain ⟨equals, v, mark, hv, rfl⟩ := mem_one_mul.mp hu
    obtain ⟨name, w, ⟨s, string⟩, ⟨semicolon, stop, rfl⟩, rfl⟩ := mem_one_mul.mp hv
    exact ⟨t, equals, name, semicolon, s, kind, mark, string, stop, rfl⟩
  · rintro ⟨t, equals, name, semicolon, s, kind, mark, string, stop, rfl⟩
    exact ⟨_, _, kind, mem_one_mul.mpr ⟨_, _, mark,
      mem_one_mul.mpr ⟨_, _, ⟨s, string⟩, ⟨_, stop, rfl⟩, rfl⟩, rfl⟩, rfl⟩

theorem mem_package : ts ∈ package ↔ ∃ name, Spelling.Statement ts (.package name) := by
  rw [package, mem_enclosed]
  constructor
  · rintro ⟨t, u, t', kind, hu, stop, rfl⟩
    obtain ⟨name, segments⟩ := mem_fullIdent.mp hu
    exact ⟨⟨name, default⟩, .package kind segments stop⟩
  · rintro ⟨_, ⟨⟩⟩
    exact ⟨_, _, _, ‹_›, mem_fullIdent.mpr ⟨_, ‹_›⟩, ‹_›, rfl⟩

theorem mem_importFile : ts ∈ importFile ↔
    ∃ way file, Spelling.Statement ts (.importFile way file) := by
  rw [importFile, mul_assoc, mul_assoc, mem_one_mul]
  constructor
  · rintro ⟨t, u, kind, hu, rfl⟩
    obtain ⟨v, hv, w, hw, rfl⟩ := Language.mem_mul.mp hu
    obtain ⟨way, word⟩ := mem_importWord.mp hv
    obtain ⟨name, x, ⟨s, string⟩, ⟨semicolon, stop, rfl⟩, rfl⟩ := mem_one_mul.mp hw
    exact ⟨way, ⟨s, default⟩, .importFile kind word string stop⟩
  · rintro ⟨way, _, ⟨⟩⟩
    exact ⟨_, _, ‹_›, Language.mem_mul.mpr ⟨_, mem_importWord.mpr ⟨_, ‹_›⟩, _,
      mem_one_mul.mpr ⟨_, _, ⟨_, ‹_›⟩, ⟨_, ‹_›, rfl⟩, rfl⟩, rfl⟩, rfl⟩

theorem mem_option : ts ∈ option ↔ ∃ o, Spelling.Statement ts (.option o) := by
  rw [option, mem_enclosed]
  constructor
  · rintro ⟨t, u, t', kind, hu, stop, rfl⟩
    obtain ⟨o, body⟩ := mem_optionBody.mp hu
    exact ⟨o, .option kind body stop⟩
  · rintro ⟨_, ⟨⟩⟩
    exact ⟨_, _, _, ‹_›, mem_optionBody.mpr ⟨_, ‹_›⟩, ‹_›, rfl⟩

theorem mem_reserved : ts ∈ reserved ↔ (∃ rs, Spelling.Statement ts (.reservedRanges rs)) ∨
    ∃ names, Spelling.Statement ts (.reservedNames names) := by
  rw [reserved, mem_enclosed]
  constructor
  · rintro ⟨t, u, t', kind, hu | hu, stop, rfl⟩
    · obtain ⟨rs, list⟩ := (mem_listed mem_range).mp hu
      exact .inl ⟨rs, .reservedRanges kind list stop⟩
    · obtain ⟨names, list⟩ := (mem_listed mem_string).mp hu
      exact .inr ⟨names, .reservedNames kind list stop⟩
  · rintro (⟨_, ⟨⟩⟩ | ⟨_, ⟨⟩⟩)
    · exact ⟨_, _, _, ‹_›, .inl ((mem_listed mem_range).mpr ⟨_, ‹_›⟩), ‹_›, rfl⟩
    · exact ⟨_, _, _, ‹_›, .inr ((mem_listed mem_string).mpr ⟨_, ‹_›⟩), ‹_›, rfl⟩

theorem mem_extensions : ts ∈ extensions ↔ ∃ rs, Spelling.Statement ts (.extensionRanges rs) := by
  rw [extensions, mul_assoc (keyword _) _ _, mem_enclosed]
  constructor
  · rintro ⟨t, u, t', kind, hu, stop, rfl⟩
    obtain ⟨v, hv, w, hw, rfl⟩ := Language.mem_mul.mp hu
    obtain ⟨rs, list⟩ := (mem_listed mem_range).mp hv
    obtain ⟨os, options⟩ := mem_options.mp hw
    exact ⟨rs, by simpa only [List.append_assoc] using .extensionRanges kind list options stop⟩
  · rintro ⟨rs, ⟨⟩⟩
    exact ⟨_, _, _, ‹_›, Language.mem_mul.mpr ⟨_, (mem_listed mem_range).mpr ⟨_, ‹_›⟩, _,
      mem_options.mpr ⟨_, ‹_›⟩, rfl⟩, ‹_›, by rw [List.append_assoc]⟩

theorem mem_value : ts ∈ value ↔ ∃ v, Spelling.Statement ts (.value v) := by
  have heq : value = ident * (mark .equals * ((optional (mark .minus) * int) *
      (optional options * mark .semicolon))) := by
    simp only [value, mul_assoc]
  rw [heq, mem_one_mul]
  constructor
  · rintro ⟨name, u, ident, hu, rfl⟩
    obtain ⟨equals, v, mark, hv, rfl⟩ := mem_one_mul.mp hu
    obtain ⟨w, hw, x, hx, rfl⟩ := Language.mem_mul.mp hv
    obtain ⟨n, number⟩ := mem_signedInt.mp hw
    obtain ⟨y, semicolon, hy, stop, rfl⟩ := mem_mul_one.mp hx
    obtain ⟨os, options⟩ := mem_options.mp hy
    exact ⟨⟨⟨name.text, default⟩, ⟨n, default⟩, os⟩, .value ident mark number options rfl stop⟩
  · rintro ⟨v, ⟨⟩⟩
    exact ⟨_, _, ‹_›, mem_one_mul.mpr ⟨_, _, ‹_›, Language.mem_mul.mpr ⟨_,
      mem_signedInt.mpr ⟨_, ‹_›⟩, _, mem_mul_one.mpr ⟨_, _, mem_options.mpr ⟨_, ‹_›⟩, ‹_›, rfl⟩,
      rfl⟩, rfl⟩, rfl⟩

/-! ### Fields -/

/-- A field of a form, with some type and what stands behind it. -/
theorem exists_field {form : FieldForm} {type : WrittenType} (front : Spelling.Front u form type)
    (hv : v ∈ fieldTail) : ∃ f : FieldDecl, f.form = form ∧ Spelling.Statement (u ++ v) (.field f) := by
  obtain ⟨name, n, os, tail⟩ := mem_fieldTail.mp hv
  exact ⟨⟨form, ⟨type, default⟩, ⟨name, default⟩, ⟨n, default⟩, os⟩, rfl, .field front tail⟩

/-- What stands behind the label of a required field. -/
theorem mem_requiredField : ts ∈ type * fieldTail ↔ ∃ f : FieldDecl,
    f.form = .plain (some .required) ∧ Spelling.Statement ts (.field f) := by
  rw [Language.mem_mul]
  constructor
  · rintro ⟨u, hu, v, hv, rfl⟩
    obtain ⟨type, written⟩ := mem_type.mp hu
    exact exists_field (.required written) hv
  · rintro ⟨f, hform, ⟨⟩⟩
    next u v front tail =>
    rw [hform] at front
    cases front with
    | label _ other => exact absurd rfl other
    | required written =>
      exact ⟨u, mem_type.mpr ⟨_, written⟩, v, mem_fieldTail.mpr ⟨_, _, _, tail⟩, rfl⟩

theorem mem_field : ts ∈ field ↔
    (∃ (f : FieldDecl) (l : Option Label), f.form = .plain l ∧ l ≠ some .required ∧
      Spelling.Statement ts (.field f)) ∨
    ∃ t u, t.kind = .specifier (.label .required) ∧ u ∈ type * fieldTail ∧ ts = t :: u := by
  rw [field, mul_assoc, Language.mem_mul]
  constructor
  · rintro ⟨u, hu, v, hv, rfl⟩
    rcases mem_optional.mp hu with rfl | ⟨t, ⟨l, kind⟩, rfl⟩
    · obtain ⟨w, hw, x, hx, rfl⟩ := Language.mem_mul.mp hv
      obtain ⟨type, written⟩ := mem_type.mp hw
      obtain ⟨f, hform, hf⟩ := exists_field (.plain written) hx
      exact .inl ⟨f, none, hform, by simp, hf⟩
    · by_cases hl : l = .required
      · subst hl
        exact .inr ⟨t, v, kind, hv, rfl⟩
      · obtain ⟨w, hw, x, hx, rfl⟩ := Language.mem_mul.mp hv
        obtain ⟨type, written⟩ := mem_type.mp hw
        obtain ⟨f, hform, hf⟩ := exists_field (.label kind hl written) hx
        exact .inl ⟨f, some l, hform, by simpa using hl, hf⟩
  · rintro (⟨f, l, hform, hl, ⟨⟩⟩ | ⟨t, u, kind, hu, rfl⟩)
    · next u v front tail =>
      have hv : v ∈ fieldTail := mem_fieldTail.mpr ⟨_, _, _, tail⟩
      rw [hform] at front
      cases front with
      | plain written =>
        exact ⟨[], mem_optional.mpr (.inl rfl), _,
          Language.mem_mul.mpr ⟨u, mem_type.mpr ⟨_, written⟩, v, hv, rfl⟩, rfl⟩
      | @label t u l _ kind other written =>
        exact ⟨[t], mem_optional.mpr (.inr ⟨t, ⟨l, kind⟩, rfl⟩), _,
          Language.mem_mul.mpr ⟨u, mem_type.mpr ⟨_, written⟩, v, hv, rfl⟩, rfl⟩
      | required => exact absurd rfl hl
    · exact ⟨[t], mem_optional.mpr (.inr ⟨t, ⟨.required, kind⟩, rfl⟩), u, hu, rfl⟩

theorem mem_mapField : ts ∈ mapField ↔ ∃ (f : FieldDecl) (key : Scalar), f.form = .map key ∧
    Spelling.Statement ts (.field f) := by
  rw [mapField, mul_assoc, mul_assoc, mul_assoc, mul_assoc, mul_assoc, mem_one_mul]
  constructor
  · rintro ⟨t, u, kind, hu, rfl⟩
    obtain ⟨left, v, opening, hv, rfl⟩ := mem_one_mul.mp hu
    obtain ⟨key, w, ⟨s, scalar⟩, hw, rfl⟩ := mem_one_mul.mp hv
    obtain ⟨comma, x, between, hx, rfl⟩ := mem_one_mul.mp hw
    obtain ⟨y, hy, z, hz, rfl⟩ := Language.mem_mul.mp hx
    obtain ⟨right, tail, closing, htail, rfl⟩ := mem_one_mul.mp hz
    obtain ⟨type, written⟩ := mem_type.mp hy
    obtain ⟨f, hform, hf⟩ :=
      exists_field (.map kind opening scalar between written closing) htail
    refine ⟨f, s, hform, ?_⟩
    simpa only [List.cons_append, List.nil_append, List.append_assoc] using hf
  · rintro ⟨f, key, hform, ⟨⟩⟩
    next u v front tail =>
    have hv : v ∈ fieldTail := mem_fieldTail.mpr ⟨_, _, _, tail⟩
    rw [hform] at front
    cases front with
    | @map t left key comma u right s _ kind opening scalar between written closing =>
      refine ⟨t, left :: key :: comma :: (u ++ (right :: v)), kind, ?_, by simp⟩
      refine mem_one_mul.mpr ⟨left, _, opening, ?_, rfl⟩
      refine mem_one_mul.mpr ⟨key, _, ⟨_, scalar⟩, ?_, rfl⟩
      refine mem_one_mul.mpr ⟨comma, _, between, ?_, rfl⟩
      exact Language.mem_mul.mpr ⟨u, mem_type.mpr ⟨_, written⟩, _,
        mem_one_mul.mpr ⟨right, v, closing, hv, rfl⟩, rfl⟩

end ProtoSchema.Grammar
