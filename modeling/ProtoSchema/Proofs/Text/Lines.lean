import Mathlib.Data.Finset.Lattice.Fold
import Mathlib.Data.Prod.Lex
import Mathlib.Order.Lattice.Nat
import ProtoSchema.Proofs.Text.Positions

/-! # Lines and columns of all offsets

The line of an offset counts the newlines among the bytes in front of it, and its column the bytes behind
the last of them (`LineIndex.position_ofText`), also where the offset is inside a character or past the
end of the text.  So a later offset has a later position (`Position.lt_inText`).  Where the lines of a text
begin is an ascending list, and a binary search through it finds the line (`LineIndex.positionAt_bisect`). -/

namespace ProtoSchema

/-! ### Newlines -/

/-- The bytes in front of `offset` that are newlines. -/
def newlinesBefore (text : String) (offset : Nat) : Finset Nat :=
  {i ∈ Finset.range offset | text.toUTF8.data[i]? = some 10}

theorem mem_newlinesBefore {text : String} {offset i : Nat} :
    i ∈ newlinesBefore text offset ↔ i < offset ∧ text.toUTF8.data[i]? = some 10 := by
  rw [newlinesBefore, Finset.mem_filter, Finset.mem_range]

theorem newlinesBefore_mono (text : String) {m n : Nat} (h : m ≤ n) :
    newlinesBefore text m ⊆ newlinesBefore text n := by
  intro i hi
  obtain ⟨hlt, hbyte⟩ := mem_newlinesBefore.mp hi
  exact mem_newlinesBefore.mpr ⟨hlt.trans_le h, hbyte⟩

/-- The end of the last newline in front of an offset is not behind it. -/
theorem sup_newlinesBefore_le (text : String) (offset : Nat) :
    (newlinesBefore text offset).sup Nat.succ ≤ offset :=
  Finset.sup_le fun _ hi => (mem_newlinesBefore.mp hi).1

/-- Only a newline has the byte of a newline among its bytes. -/
theorem newline_mem_utf8EncodeChar {c : Char} : 10 ∈ String.utf8EncodeChar c ↔ c = '\n' := by
  have hbyte : ∀ n, 128 ≤ n → n < 256 → UInt8.ofNat n ≠ 10 := by
    intro n hle hlt h
    have hten : n = (10 : UInt8).toNat := by
      rw [← h, UInt8.toNat_ofNat', Nat.mod_eq_of_lt hlt]
    have : (10 : UInt8).toNat = 10 := rfl
    omega
  constructor
  · intro h
    unfold String.utf8EncodeChar at h
    simp only at h
    split at h
    · next hsmall =>
      have := congrArg UInt8.toNat (List.mem_singleton.mp h)
      rw [UInt8.toNat_ofNat', Nat.mod_eq_of_lt (by omega)] at this
      exact Char.ext (UInt32.toNat_inj.mp this.symm)
    · exfalso
      split at h
      · simp only [List.mem_cons, List.not_mem_nil, or_false] at h
        rcases h with h | h <;> exact hbyte _ (by omega) (by omega) h.symm
      split at h <;> simp only [List.mem_cons, List.not_mem_nil, or_false] at h
      · rcases h with h | h | h <;> exact hbyte _ (by omega) (by omega) h.symm
      · rcases h with h | h | h | h <;> exact hbyte _ (by omega) (by omega) h.symm
  · rintro rfl
    decide

theorem data_toUTF8 (text : String) :
    text.toUTF8.data = (text.toList.flatMap String.utf8EncodeChar).toArray := by
  conv_lhs => rw [← String.ofList_toList (s := text)]
  rw [String.toUTF8_eq_toByteArray, String.toByteArray_ofList, List.utf8Encode, List.data_toByteArray]

namespace LineIndex

/-- A line begins right behind each newline. -/
theorem mem_startsFrom_iff {start offset : Nat} {cs : List Char} :
    start ∈ startsFrom offset cs ↔
      ∃ i, (cs.flatMap String.utf8EncodeChar)[i]? = some 10 ∧ start = offset + i + 1 := by
  induction cs generalizing offset with
  | nil => simp [startsFrom]
  | cons c cs ih =>
    have hlength := String.length_utf8EncodeChar c
    have hrest : start ∈ startsFrom (offset + c.utf8Size) cs ↔
        ∃ i, c.utf8Size ≤ i ∧ ((c :: cs).flatMap String.utf8EncodeChar)[i]? = some 10 ∧
          start = offset + i + 1 := by
      rw [ih, List.flatMap_cons]
      constructor
      · rintro ⟨i, hi, rfl⟩
        refine ⟨c.utf8Size + i, Nat.le_add_right .., ?_, by omega⟩
        rwa [List.getElem?_append_right (by omega), hlength, Nat.add_sub_cancel_left]
      · rintro ⟨i, hle, hi, rfl⟩
        rw [List.getElem?_append_right (by omega), hlength] at hi
        exact ⟨_, hi, by omega⟩
    simp only [startsFrom]
    by_cases hc : c = '\n'
    · subst hc
      rw [if_pos rfl, List.mem_cons, hrest]
      have hsize : '\n'.utf8Size = 1 := rfl
      constructor
      · rintro (rfl | ⟨i, -, hi⟩)
        · exact ⟨0, rfl, by rw [hsize]⟩
        · exact ⟨i, hi⟩
      · rintro ⟨i, hi, rfl⟩
        cases i with
        | zero => exact .inl (by rw [hsize])
        | succ i => exact .inr ⟨i + 1, by omega, hi, rfl⟩
    · rw [if_neg hc, hrest]
      constructor
      · rintro ⟨i, -, hi⟩
        exact ⟨i, hi⟩
      · rintro ⟨i, hi, rfl⟩
        refine ⟨i, ?_, hi, rfl⟩
        by_contra hlt
        rw [List.flatMap_cons, List.getElem?_append_left (by omega)] at hi
        exact hc (newline_mem_utf8EncodeChar.mp (List.mem_of_getElem? hi))

theorem pairwise_startsFrom (offset : Nat) (cs : List Char) : (startsFrom offset cs).Pairwise (· < ·) := by
  induction cs generalizing offset with
  | nil => exact .nil
  | cons c cs ih =>
    simp only [startsFrom]
    split
    · exact List.pairwise_cons.mpr ⟨fun start hstart => (mem_startsFrom hstart).1, ih _⟩
    · exact ih _

/-! ### Ascending lists -/

variable {xs : List Nat} {x : Nat}

/-- The elements of an ascending list up to a bound stand in front of the others. -/
theorem takeWhile_eq_filter (h : xs.Pairwise (· < ·)) :
    xs.takeWhile (· ≤ x) = xs.filter (· ≤ x) := by
  induction xs with
  | nil => rfl
  | cons y ys ih =>
    obtain ⟨hless, hmore⟩ := List.pairwise_cons.mp h
    by_cases hy : y ≤ x
    · rw [List.takeWhile_cons_of_pos (by simpa using hy), List.filter_cons_of_pos (by simpa using hy), ih hmore]
    · rw [List.takeWhile_cons_of_neg (by simpa using hy), List.filter_cons_of_neg (by simpa using hy), eq_comm,
        List.filter_eq_nil_iff]
      intro z hz
      have := hless z hz
      simp only [decide_eq_true_eq]
      omega

/-- The last element of an ascending list is the greatest one. -/
theorem getLastD_eq_sup (h : xs.Pairwise (· < ·)) : xs.getLastD 0 = xs.toFinset.sup id := by
  induction xs using List.reverseRecOn with
  | nil => rfl
  | append_singleton ys y ih =>
    obtain ⟨hys, -, hless⟩ := List.pairwise_append.mp h
    have hle : ys.toFinset.sup id ≤ y :=
      Finset.sup_le fun z hz => (hless z (List.mem_toFinset.mp hz) y (List.mem_singleton_self y)).le
    rw [List.getLastD_concat, List.toFinset_append, Finset.sup_union, sup_eq_right.mpr]
    · simp
    · simpa using hle

/-! ### Positions -/

/-- The lines that have begun at an offset begin right behind the newlines in front of it. -/
theorem toFinset_filter_startsFrom (text : String) (offset : Nat) :
    ((startsFrom 0 text.toList).filter (· ≤ offset)).toFinset =
      (newlinesBefore text offset).image Nat.succ := by
  ext start
  simp only [List.mem_toFinset, List.mem_filter, mem_startsFrom_iff, decide_eq_true_eq, Finset.mem_image,
    mem_newlinesBefore, data_toUTF8, List.getElem?_toArray]
  constructor
  · rintro ⟨⟨i, hi, rfl⟩, hle⟩
    exact ⟨i, ⟨by omega, hi⟩, by omega⟩
  · rintro ⟨i, ⟨hlt, hi⟩, rfl⟩
    exact ⟨⟨i, hi, by omega⟩, hlt⟩

theorem position_ofText (text : String) (offset : Nat) :
    (ofText text).position offset =
      ⟨1 + (newlinesBefore text offset).card,
        1 + (offset - (newlinesBefore text offset).sup Nat.succ)⟩ := by
  have hascending := pairwise_startsFrom 0 text.toList
  have hfilter := hascending.filter (· ≤ offset)
  have himage := toFinset_filter_startsFrom text offset
  have hlength : ((startsFrom 0 text.toList).filter (· ≤ offset)).length =
      (newlinesBefore text offset).card := by
    rw [← List.toFinset_card_of_nodup (hfilter.imp Nat.ne_of_lt), himage,
      Finset.card_image_of_injective _ Nat.succ_injective]
  have hlast : ((startsFrom 0 text.toList).filter (· ≤ offset)).getLastD 0 =
      (newlinesBefore text offset).sup Nat.succ := by
    rw [getLastD_eq_sup hfilter, himage, Finset.sup_image, Function.id_comp]
  simp only [position, ofText, takeWhile_eq_filter hascending, hlength, hlast, Position.mk.injEq]
  omega

/-! ### Searching -/

/-- Looks for `x` between the places `lo` and `hi` of an ascending list, halving the stretch until `x` is
found there or nothing is left; then the answer is where `x` would have to stand. -/
def bisect (xs : List Nat) (x lo hi : Nat) : Except Nat Nat :=
  if lo < hi then
    let middle := (lo + hi) / 2
    match compare (xs.getD middle 0) x with
    | .lt => bisect xs x (middle + 1) hi
    | .eq => .ok middle
    | .gt => bisect xs x lo middle
  else .error lo
termination_by hi - lo

/-- An answer to the search for `x` in an ascending list. -/
inductive Finds (xs : List Nat) (x : Nat) : Except Nat Nat → Prop
  | there {i} (found : xs[i]? = some x) : Finds xs x (.ok i)
  | missing {i} (inside : i ≤ xs.length) (smaller : ∀ y ∈ xs.take i, y < x) (greater : ∀ y ∈ xs.drop i, x < y) :
      Finds xs x (.error i)

/-- An element of an ascending list is greater than those in front of it and smaller than those behind. -/
theorem ascending_around (h : xs.Pairwise (· < ·)) {i : Nat} (hi : i < xs.length) :
    xs[i]? = some (xs.getD i 0) ∧ (∀ y ∈ xs.take i, y < xs.getD i 0) ∧ ∀ y ∈ xs.drop (i + 1), xs.getD i 0 < y := by
  have hget : xs[i]? = some xs[i] := List.getElem?_eq_getElem hi
  rw [List.getD_eq_getElem?_getD, hget, Option.getD_some]
  rw [← List.take_append_drop i xs, List.drop_eq_getElem_cons hi] at h
  obtain ⟨-, hbehind, hfront⟩ := List.pairwise_append.mp h
  exact ⟨rfl, fun y hy => hfront y hy _ (List.mem_cons_self ..), (List.pairwise_cons.mp hbehind).1⟩

/-- What lies in front of the stretch is smaller than `x`, and what lies behind it is greater. -/
theorem finds_bisect (h : xs.Pairwise (· < ·)) {lo hi : Nat} (ordered : lo ≤ hi) (inside : hi ≤ xs.length)
    (smaller : ∀ y ∈ xs.take lo, y < x) (greater : ∀ y ∈ xs.drop hi, x < y) :
    Finds xs x (bisect xs x lo hi) := by
  fun_induction bisect xs x lo hi with
  | case1 lo hi hlt middle hcompare ih =>
    have hmiddle : middle < xs.length := by omega
    obtain ⟨hget, hfront, -⟩ := ascending_around h hmiddle
    have hless := Nat.compare_eq_lt.mp hcompare
    refine ih (by omega) inside (fun y hy => ?_) greater
    rw [List.take_add_one, hget] at hy
    obtain hy | hy := List.mem_append.mp hy
    · exact (hfront y hy).trans hless
    · rwa [List.mem_singleton.mp hy]
  | case2 lo hi hlt middle hcompare =>
    have hmiddle : middle < xs.length := by omega
    obtain ⟨hget, -, -⟩ := ascending_around h hmiddle
    rw [Nat.compare_eq_eq.mp hcompare] at hget
    exact .there hget
  | case3 lo hi hlt middle hcompare ih =>
    have hmiddle : middle < xs.length := by omega
    obtain ⟨hget, -, hbehind⟩ := ascending_around h hmiddle
    have hgreater := Nat.compare_eq_gt.mp hcompare
    refine ih (by omega) (by omega) smaller fun y hy => ?_
    rw [List.drop_eq_getElem_cons hmiddle, (List.getElem?_eq_some_iff.mp hget).2] at hy
    obtain rfl | hy := List.mem_cons.mp hy
    · exact hgreater
    · exact hgreater.trans (hbehind y hy)
  | case4 lo hi hlt =>
    obtain rfl : lo = hi := by omega
    exact .missing inside smaller greater

/-- The position that an answer stands for. -/
def positionAt (starts : List Nat) (offset : Nat) : Except Nat Nat → Position
  | .ok i => ⟨i + 2, 1⟩
  | .error 0 => ⟨1, offset + 1⟩
  | .error (i + 1) => ⟨i + 2, offset - starts.getD i 0 + 1⟩

/-- The elements up to `x` are those in front of a place behind which all are greater. -/
theorem takeWhile_eq_take {i : Nat} (front : ∀ y ∈ xs.take i, y ≤ x) (behind : ∀ y ∈ xs.drop i, x < y) :
    xs.takeWhile (· ≤ x) = xs.take i := by
  have hbehind : (xs.drop i).takeWhile (· ≤ x) = [] := by
    rw [List.takeWhile_eq_nil_iff]
    intro hlength
    have := behind _ (List.get_mem _ ⟨0, hlength⟩)
    simp only [decide_eq_true_eq]
    omega
  conv_lhs => rw [← List.take_append_drop i xs]
  rw [List.takeWhile_append_of_pos (by simpa using front), hbehind, List.append_nil]

/-- Where the search for an offset ends, the position of the offset is known. -/
theorem positionAt_of_finds {starts : List Nat} {offset : Nat} (h : starts.Pairwise (· < ·))
    {answer : Except Nat Nat} (found : Finds starts offset answer) :
    positionAt starts offset answer = position ⟨starts⟩ offset := by
  have hlast : ∀ {i}, i < starts.length → (starts.take (i + 1)).getLastD 0 = starts.getD i 0 := fun hi => by
    rw [List.take_add_one, (ascending_around h hi).1, Option.toList_some, List.getLastD_concat]
  cases found with
  | @there i found =>
    have hi := (List.getElem?_eq_some_iff.mp found).1
    obtain ⟨hget, hfront, hbehind⟩ := ascending_around h hi
    obtain rfl : offset = starts.getD i 0 := Option.some.inj (found.symm.trans hget)
    have htake : starts.takeWhile (· ≤ starts.getD i 0) = starts.take (i + 1) := by
      refine takeWhile_eq_take (fun y hy => ?_) hbehind
      rw [List.take_add_one, hget] at hy
      obtain hy | hy := List.mem_append.mp hy
      · exact (hfront y hy).le
      · exact (List.mem_singleton.mp hy).le
    simp only [positionAt, position, htake, hlast hi, List.length_take, Position.mk.injEq]
    omega
  | @missing i inside smaller greater =>
    have htake := takeWhile_eq_take (fun y hy => (smaller y hy).le) greater
    cases i with
    | zero =>
      simp only [positionAt, position, htake, List.take_zero, List.length_nil, List.getLastD_nil, Nat.sub_zero,
        Nat.zero_add]
    | succ i =>
      simp only [positionAt, position, htake, hlast inside, List.length_take, Nat.min_eq_left inside]

theorem positionAt_bisect (text : String) (offset : Nat) :
    positionAt (ofText text).starts offset (bisect (ofText text).starts offset 0 (ofText text).starts.length) =
      (ofText text).position offset := by
  have hascending : (ofText text).starts.Pairwise (· < ·) := pairwise_startsFrom 0 text.toList
  refine positionAt_of_finds hascending (finds_bisect hascending (Nat.zero_le _) le_rfl ?_ ?_)
  · rw [List.take_zero]
    exact List.forall_mem_nil _
  · rw [List.drop_length]
    exact List.forall_mem_nil _

end LineIndex

namespace Position

/-- A later offset has a greater line, or a greater column on the same line. -/
theorem lt_inText (text : String) {m n : Nat} (h : m < n) :
    (inText text m).line < (inText text n).line ∨
      (inText text m).line = (inText text n).line ∧ (inText text m).column < (inText text n).column := by
  have hsubset := newlinesBefore_mono text h.le
  simp only [inText, LineIndex.position_ofText]
  obtain hlt | heq := (Finset.card_le_card hsubset).lt_or_eq
  · exact .inl (by omega)
  · -- no newline lies between the two offsets
    have hsame := Finset.eq_of_subset_of_card_le hsubset heq.ge
    have := sup_newlinesBefore_le text m
    refine .inr ⟨by omega, ?_⟩
    rw [← hsame]
    omega

/-- For every text and every offset, also one inside a character or past the end, the line is one more than
the number of newlines in front of the offset, and the column one more than the distance from the end of
the last of them, or else from the beginning.  A binary search through the beginnings of the lines gives
the same, and different offsets have different positions, in ascending order. -/
theorem inText_exact (text : String) :
    (∀ offset, inText text offset =
      ⟨1 + (newlinesBefore text offset).card, 1 + (offset - (newlinesBefore text offset).sup Nat.succ)⟩) ∧
    (∀ offset, inText text offset =
      let starts := (LineIndex.ofText text).starts
      LineIndex.positionAt starts offset (LineIndex.bisect starts offset 0 starts.length)) ∧
    Function.Injective (inText text) ∧
    StrictMono fun offset => toLex ((inText text offset).line, (inText text offset).column) := by
  have hmono : StrictMono fun offset => toLex ((inText text offset).line, (inText text offset).column) :=
    fun m n h => Prod.Lex.toLex_lt_toLex.mpr (lt_inText text h)
  refine ⟨LineIndex.position_ofText text, fun offset => (LineIndex.positionAt_bisect text offset).symm, ?_, hmono⟩
  intro m n h
  refine hmono.injective ?_
  simp only [h]

end Position

end ProtoSchema
