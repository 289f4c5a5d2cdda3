/-! # Tables in insertion order

A `Table` finds values by key and lists its entries in the order in which their keys were added.
Adding a key again changes nothing, so no key has two entries. -/

namespace ProtoSchema

/-- Entries with different keys, in the order in which they were added. -/
structure Table (κ α : Type) where
  entries : List (κ × α) := []
  nodup : (entries.map Prod.fst).Nodup := by exact List.nodup_nil
deriving Repr

namespace Table

variable {κ α : Type}

/-- A table without entries. -/
def empty : Table κ α := {}

instance : Inhabited (Table κ α) := ⟨empty⟩

def keys (t : Table κ α) : List κ := t.entries.map Prod.fst

def values (t : Table κ α) : List α := t.entries.map Prod.snd

variable [DecidableEq κ]

/-- The value of a key. -/
def find? (t : Table κ α) (k : κ) : Option α := t.entries.lookup k

def contains (t : Table κ α) (k : κ) : Bool := (t.find? k).isSome

theorem contains_iff {t : Table κ α} {k : κ} : t.contains k = true ↔ ∃ a, t.find? k = some a := by
  simp [contains, Option.isSome_iff_exists]

theorem find?_eq_none_iff {t : Table κ α} {k : κ} : t.find? k = none ↔ k ∉ t.keys := by
  unfold find? keys
  induction t.entries with
  | nil => simp
  | cons e es ih =>
    obtain ⟨k', a⟩ := e
    by_cases h : k = k'
    · subst h; simp
    · have : (k == k') = false := by simp [h]
      simp [List.lookup_cons, this, ih, h]

theorem not_mem_keys_of_not_contains {t : Table κ α} {k : κ} (h : ¬t.contains k) :
    k ∉ t.keys := by
  apply find?_eq_none_iff.mp
  cases hf : t.find? k with
  | none => rfl
  | some a => exact absurd (contains_iff.mpr ⟨a, hf⟩) h

omit [DecidableEq κ] in
theorem nodup_append_entry {t : Table κ α} {k : κ} (h : k ∉ t.keys) (a : α) :
    ((t.entries ++ [(k, a)]).map Prod.fst).Nodup := by
  rw [List.map_append, List.nodup_append]
  refine ⟨t.nodup, by simp, ?_⟩
  intro x hx y hy e
  simp only [List.map_cons, List.map_nil, List.mem_singleton] at hy
  exact h (hy ▸ e ▸ hx)

/-- Adds an entry at the end, unless there is one with its key. -/
def insert (t : Table κ α) (k : κ) (a : α) : Table κ α :=
  if h : t.contains k then t
  else ⟨t.entries ++ [(k, a)], nodup_append_entry (not_mem_keys_of_not_contains h) a⟩

/-- Adds several entries in turn. -/
def insertAll (t : Table κ α) (es : List (κ × α)) : Table κ α :=
  es.foldl (fun t e => t.insert e.1 e.2) t

@[simp] theorem find?_empty (k : κ) : (empty : Table κ α).find? k = none := rfl

/-- An entry that is there stays, and a new one is found from then on. -/
theorem find?_insert (t : Table κ α) (k k' : κ) (a : α) :
    (t.insert k a).find? k' = (t.find? k').or (if k' = k then some a else none) := by
  unfold insert
  split
  · next h =>
    obtain ⟨b, hb⟩ := contains_iff.mp h
    by_cases e : k' = k
    · subst e; simp [hb]
    · simp [e]
  · by_cases e : k' = k
    · subst e; simp [find?, List.lookup_append]
    · have : (k' == k) = false := by simp [e]
      simp [find?, List.lookup_append, List.lookup_cons, e, this]

/-- Of several entries with one key the first is added, unless the key is there. -/
theorem find?_insertAll (es : List (κ × α)) (t : Table κ α) (k : κ) :
    (t.insertAll es).find? k = (t.find? k).or (es.lookup k) := by
  induction es generalizing t with
  | nil => simp [insertAll]
  | cons e es ih =>
    have hcons : t.insertAll (e :: es) = (t.insert e.1 e.2).insertAll es := rfl
    rw [hcons, ih, find?_insert, Option.or_assoc, List.lookup_cons]
    by_cases h : k = e.1
    · simp [h]
    · have : (k == e.1) = false := by simp [h]
      simp [h, this]

theorem of_find?_insertAll {es : List (κ × α)} {t : Table κ α} {k : κ} {a : α}
    (h : (t.insertAll es).find? k = some a) : t.find? k = some a ∨ (k, a) ∈ es := by
  rw [find?_insertAll, Option.or_eq_some_iff] at h
  refine h.imp_right fun h => ?_
  obtain ⟨before, after, he, -⟩ := List.lookup_eq_some_iff.mp h.2
  rw [he]
  exact List.mem_append_right _ (List.mem_cons_self ..)

/-- A key that is not there is added at the end. -/
theorem entries_insert {t : Table κ α} {k : κ} (h : t.find? k = none) (a : α) :
    (t.insert k a).entries = t.entries ++ [(k, a)] := by
  simp [insert, contains, h]

theorem values_insert (t : Table κ α) (k : κ) (a : α) :
    (t.insert k a).values = t.values ∨ ∃ b, (t.insert k a).values = t.values ++ [b] := by
  unfold insert
  split
  · exact .inl rfl
  · exact .inr ⟨a, by simp [values]⟩

/-- A key that is there is not added. -/
theorem insert_of_find? {t : Table κ α} {k : κ} {b : α} (h : t.find? k = some b) (a : α) :
    t.insert k a = t := by
  simp [insert, contains, h]

/-- No key has two entries, so the entries are what is found. -/
theorem mem_entries_iff {t : Table κ α} {k : κ} {a : α} :
    (k, a) ∈ t.entries ↔ t.find? k = some a := by
  obtain ⟨es, nodup⟩ := t
  unfold find?
  induction es with
  | nil => simp
  | cons e es ih =>
    obtain ⟨k', b⟩ := e
    simp only [List.map_cons, List.nodup_cons] at nodup
    by_cases h : k = k'
    · subst h
      have : (k, a) ∉ es := fun hm => nodup.1 (List.mem_map.mpr ⟨_, hm, rfl⟩)
      simp [this, eq_comm]
    · have hb : (k == k') = false := by simp [h]
      simp [List.lookup_cons, hb, h, ih nodup.2]

theorem mem_values_iff {t : Table κ α} {a : α} : a ∈ t.values ↔ ∃ k, t.find? k = some a := by
  simp [values, ← mem_entries_iff]

theorem mem_keys_iff {t : Table κ α} {k : κ} : k ∈ t.keys ↔ ∃ a, t.find? k = some a := by
  simp [keys, ← mem_entries_iff]

end Table

end ProtoSchema
