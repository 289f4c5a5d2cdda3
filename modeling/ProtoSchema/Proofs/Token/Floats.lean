import ProtoSchema.Proofs.Number.Shortest
import ProtoSchema.Proofs.Token.Literals

/-! # Texts of floating-point numbers

The text of a proper number stands as one piece, and it is read back as that number
(`float_stands`).  The text spells digits and a decimal exponent in one of several forms; each form
is read as digits and an exponent of the same value, and the digits are those of the shortest
decimal. -/

namespace ProtoSchema

open Token.Number (value digits exponent read)

namespace Token.Number

/-! ### Digits -/

/-- Decimal digits. -/
def AllDigits (ds : List Char) : Prop := ∀ c ∈ ds, c.isDigit = true

theorem allDigits_append {ds es : List Char} (h : AllDigits ds) (h' : AllDigits es) :
    AllDigits (ds ++ es) :=
  List.forall_mem_append.mpr ⟨h, h'⟩

theorem allDigits_zeros (n : Nat) : AllDigits (List.replicate n '0') := by
  intro c hc
  rw [(List.mem_replicate.mp hc).2]
  rfl

theorem value_append_zeros {ds : List Char} (h : AllDigits ds) (n : Nat) :
    value 10 (ds ++ List.replicate n '0') = value 10 ds * 10 ^ n := by
  rw [value_eq _ (allDigits_append h (allDigits_zeros n)), Nat.ofDigitChars_append,
    Nat.ofDigitChars_replicate_zero, value_eq _ h, Nat.mul_comm]

theorem value_zeros_append {ds : List Char} (h : AllDigits ds) (n : Nat) :
    value 10 (List.replicate n '0' ++ ds) = value 10 ds := by
  rw [value_eq _ (allDigits_append (allDigits_zeros n) h), Nat.ofDigitChars_append,
    Nat.ofDigitChars_replicate_zero, value_eq _ h, Nat.mul_zero]

/-! ### Exponents -/

/-- The text `tail` is read as the exponent `e` of a number that ends with it. -/
structure Tail (tail : List Char) (e : ℤ) : Prop where
  noDigit : ∀ rest, Free rest → ∀ c, (tail ++ rest).head? = some c → c.isDigit = false
  noPoint : ∀ rest, Free rest → ∀ c, (tail ++ rest).head? = some c → c ≠ '.'
  exponent : ∀ rest, Free rest → exponent (tail ++ rest) = (tail.length, e)

theorem not_isDigit_of_free {rest : List Char} (h : Free rest) :
    ∀ c, rest.head? = some c → c.isDigit = false := by
  intro c hc
  by_contra hd
  rw [Bool.not_eq_false] at hd
  have hw := (h c hc).1
  rw [isWordPart_of_isDigit hd] at hw
  cases hw

theorem tail_nil : Tail [] 0 where
  noDigit _ := not_isDigit_of_free
  noPoint _ h c hc := (h c hc).2
  exponent _ := exponent_of_free

theorem tail_scientific (e : ℤ) :
    Tail ('e' :: (if e < 0 then ['-'] else []) ++ Nat.toDigits 10 e.natAbs) e where
  noDigit rest _ c hc := by
    cases hc
    rfl
  noPoint rest _ c hc := by
    cases hc
    decide
  exponent rest hr := by
    have hds : digits (Nat.toDigits 10 e.natAbs ++ rest) = Nat.toDigits 10 e.natAbs :=
      digits_append (fun c => isDigit_of_mem_digits) hr
    have hne : Nat.toDigits 10 e.natAbs ≠ [] := Nat.toDigits_ne_nil
    have hv := value_digits e.natAbs
    split
    · next he =>
      simp only [List.cons_append, List.nil_append, exponent, true_or, if_true, List.drop_succ_cons,
        List.drop_zero, hds, if_neg hne, hv]
      refine Prod.ext ?_ ?_
      · simp only [List.length_cons]
        omega
      · simp only
        omega
    · next he =>
      obtain ⟨d, ds, hd⟩ := List.exists_cons_of_ne_nil hne
      have hdigit : d.isDigit = true := isDigit_of_mem_digits (n := e.natAbs) (by simp [hd])
      have hm : d ≠ '-' := by
        rintro rfl
        revert hdigit
        decide
      have hp : d ≠ '+' := by
        rintro rfl
        revert hdigit
        decide
      rw [hd, List.cons_append] at hds
      simp only [hd, List.nil_append, List.cons_append, exponent, true_or, if_true]
      split
      · next h => exact absurd (List.cons.inj h).1 hm
      · next h => exact absurd (List.cons.inj h).1 hp
      · rw [List.drop_zero, hds, if_neg (List.cons_ne_nil _ _), ← hd, hv]
        refine Prod.ext ?_ ?_
        · simp only [List.length_cons]
          omega
        · simp only [Bool.false_eq_true, if_false]
          omega

/-! ### Numbers -/

/-- A number with a point. -/
theorem read_point {c : Char} {more fraction tail rest : List Char} {e : ℤ}
    (hm : AllDigits more) (hf : AllDigits fraction) (ht : Tail tail e) (hr : Free rest) :
    read c (more ++ '.' :: (fraction ++ tail) ++ rest) =
      (some (.float (.ofDecimal (value 10 (c :: more ++ fraction)) (e - fraction.length))),
        (more ++ '.' :: (fraction ++ tail)).length) := by
  have hmore : digits (more ++ '.' :: (fraction ++ (tail ++ rest))) = more :=
    takeWhile_append_of_head hm fun d hd => by cases hd; rfl
  have hfraction : digits (fraction ++ (tail ++ rest)) = fraction :=
    takeWhile_append_of_head hf (ht.noDigit rest hr)
  rw [List.append_assoc, List.cons_append, List.append_assoc]
  simp only [read, hmore, List.drop_left, hfraction, float, ht.exponent rest hr]
  refine Prod.ext rfl ?_
  simp only [List.length_append, List.length_cons]
  omega

/-- A number without a point, with an exponent. -/
theorem read_exponent {c : Char} {more tail rest : List Char} {e : ℤ} (hm : AllDigits more)
    (ht : Tail tail e) (hne : tail ≠ []) (hr : Free rest) :
    read c (more ++ tail ++ rest) =
      (some (.float (.ofDecimal (value 10 (c :: more)) e)), (more ++ tail).length) := by
  have hmore : digits (more ++ (tail ++ rest)) = more :=
    takeWhile_append_of_head hm (ht.noDigit rest hr)
  have hlen : 0 < tail.length := List.length_pos_iff.mpr hne
  rw [List.append_assoc]
  simp only [read, hmore, List.drop_left, float, ht.exponent rest hr]
  split
  · next rest' h => exact absurd rfl (ht.noPoint rest hr '.' (by rw [h]; rfl))
  · simp [hlen]

/-! ### Decimals -/

/-- The text `cs` is read as the decimal of value `x`. -/
def ReadsAs (cs : List Char) (x : ℚ) : Prop :=
  ∃ c more, cs = c :: more ∧ c.isDigit = true ∧ ∀ rest, Free rest → ∃ (n : ℕ) (e : ℤ),
    read c (more ++ rest) = (some (.float (.ofDecimal n e)), more.length) ∧ (n * 10 ^ e : ℚ) = x

theorem readsAs_point (whole fraction : List Char) {tail : List Char} {e : ℤ}
    (hne : whole ≠ []) (hw : AllDigits whole) (hf : AllDigits fraction) (ht : Tail tail e) :
    ReadsAs (whole ++ '.' :: (fraction ++ tail))
      (value 10 (whole ++ fraction) * 10 ^ (e - fraction.length)) := by
  obtain ⟨c, more, rfl⟩ := List.exists_cons_of_ne_nil hne
  refine ⟨c, more ++ '.' :: (fraction ++ tail), rfl, hw c (List.mem_cons_self ..), fun rest hr => ?_⟩
  have hmore : AllDigits more := fun d hd => hw d (List.mem_cons_of_mem _ hd)
  exact ⟨_, _, read_point hmore hf ht hr, rfl⟩

theorem readsAs_exponent (whole : List Char) {tail : List Char} {e : ℤ} (hne : whole ≠ [])
    (hw : AllDigits whole) (ht : Tail tail e) (htail : tail ≠ []) : ReadsAs (whole ++ tail) (value 10 whole * 10 ^ e) := by
  obtain ⟨c, more, rfl⟩ := List.exists_cons_of_ne_nil hne
  refine ⟨c, more ++ tail, rfl, hw c (List.mem_cons_self ..), fun rest hr => ?_⟩
  have hmore : AllDigits more := fun d hd => hw d (List.mem_cons_of_mem _ hd)
  exact ⟨_, _, read_exponent hmore ht htail hr, rfl⟩

/-- Each form of a decimal is read as that decimal. -/
theorem readsAs_decimalText {ds : List Char} (hne : ds ≠ []) (hd : AllDigits ds) (p : ℤ) :
    ReadsAs (Binary64.decimalText ds p) (value 10 ds * 10 ^ p) := by
  have hlen : 0 < ds.length := List.length_pos_iff.mpr hne
  unfold Binary64.decimalText
  dsimp only
  split
  · split
    · -- an integer
      next hp =>
      obtain ⟨k, rfl⟩ := Int.eq_ofNat_of_zero_le hp
      have h := readsAs_point (ds ++ List.replicate k '0') ['0']
        (by simp [hne]) (allDigits_append hd (allDigits_zeros _)) (allDigits_zeros 1) tail_nil
      have hvalue : value 10 (ds ++ List.replicate k '0' ++ ['0']) = value 10 ds * 10 ^ (k + 1) := by
        rw [List.append_assoc, ← value_append_zeros hd, List.replicate_succ']
      have hx : ((value 10 ds * 10 ^ (k + 1) : ℕ) * 10 ^ (0 - (['0'].length : ℤ)) : ℚ) =
          value 10 ds * 10 ^ (k : ℤ) := by
        rw [zpow_natCast, pow_succ]
        push_cast
        norm_num
        ring
      rw [hvalue, hx] at h
      exact h
    · next hp =>
      split
      · -- the point stands among the digits
        next he =>
        obtain ⟨k, hk⟩ : ∃ k : ℕ, (p + ds.length - 1).toNat + 1 = k := ⟨_, rfl⟩
        have hk₁ : 0 < k := by omega
        have hk₂ : (k : ℤ) = p + ds.length := by omega
        have htake : ds.take k ≠ [] := fun h => by
          rcases List.take_eq_nil_iff.mp h with h | h
          · omega
          · exact hne h
        have h := readsAs_point (ds.take k) (ds.drop k) htake
          (fun c hc => hd c (List.mem_of_mem_take hc)) (fun c hc => hd c (List.mem_of_mem_drop hc))
          tail_nil
        have hexp : (0 : ℤ) - (ds.drop k).length = p := by
          rw [List.length_drop]
          omega
        rw [List.take_append_drop, List.append_nil, hexp] at h
        rw [hk]
        exact h
      · -- the point stands in front of the digits
        next he =>
        obtain ⟨k, hk⟩ : ∃ k : ℕ, (-(p + ds.length - 1) - 1).toNat = k := ⟨_, rfl⟩
        have h := readsAs_point ['0'] (List.replicate k '0' ++ ds) (List.cons_ne_nil _ _) (allDigits_zeros 1)
          (allDigits_append (allDigits_zeros k) hd) tail_nil
        have hvalue : value 10 (['0'] ++ (List.replicate k '0' ++ ds)) = value 10 ds :=
          value_zeros_append hd (k + 1)
        have hexp : (0 : ℤ) - (List.replicate k '0' ++ ds).length = p := by
          rw [List.length_append, List.length_replicate]
          omega
        rw [hvalue, List.append_nil, hexp] at h
        rw [hk]
        exact h
  · -- scientific
    obtain ⟨e, he⟩ : ∃ e, p + ds.length - 1 = e := ⟨_, rfl⟩
    have htail := tail_scientific e
    rw [he]
    match ds, hne with
    | [d], _ =>
      have hexp : e = p := by
        rw [List.length_singleton] at he
        omega
      have h := readsAs_exponent [d] (List.cons_ne_nil _ _) hd htail (List.cons_ne_nil _ _)
      rwa [hexp] at h ⊢
    | d :: d' :: rest, _ =>
      have hexp : e - (d' :: rest).length = p := by
        rw [List.length_cons] at he
        omega
      have h := readsAs_point [d] (d' :: rest) (List.cons_ne_nil _ _)
        (fun c hc => hd c (List.mem_cons.mpr (.inl (List.mem_singleton.mp hc))))
        (fun c hc => hd c (List.mem_cons_of_mem _ hc)) htail
      rw [hexp] at h
      simpa only [List.cons_append, List.nil_append, List.append_assoc] using h

/-- The digits of the shortest decimal spell it, up to the zeros at their end. -/
theorem significant_spec {d : ℕ} (hd : 0 < d) :
    (Binary64.significant d).1 ≠ [] ∧ AllDigits (Binary64.significant d).1 ∧
      value 10 (Binary64.significant d).1 * 10 ^ (Binary64.significant d).2 = d := by
  obtain ⟨ds, hds⟩ : ∃ ds, Nat.toDigits 10 d = ds := ⟨_, rfl⟩
  have hall : AllDigits ds := hds ▸ fun c => isDigit_of_mem_digits
  have hvalue : value 10 ds = d := hds ▸ value_digits d
  obtain ⟨zs, hzs⟩ : ∃ zs, ds.reverse.takeWhile (· = '0') = zs := ⟨_, rfl⟩
  have hsplit : ds = (ds.reverse.dropWhile (· = '0')).reverse ++ zs.reverse := by
    rw [← List.reverse_append, ← hzs, List.takeWhile_append_dropWhile, List.reverse_reverse]
  have hzeros : zs.reverse = List.replicate zs.length '0' := by
    rw [List.eq_replicate_iff]
    refine ⟨List.length_reverse, fun c hc => ?_⟩
    have hmem : c ∈ ds.reverse.takeWhile (· = '0') := hzs.symm ▸ List.mem_reverse.mp hc
    have hall := List.all_takeWhile (l := ds.reverse) (p := fun c => decide (c = '0'))
    exact of_decide_eq_true (List.all_eq_true.mp hall c hmem)
  obtain ⟨front, hfront⟩ : ∃ front, (ds.reverse.dropWhile (· = '0')).reverse = front := ⟨_, rfl⟩
  rw [hfront, hzeros] at hsplit
  have hsig : Binary64.significant d = (front, zs.length) := by
    simp only [Binary64.significant, hds, hzs]
    rw [hsplit]
    simp
  have hdigits : AllDigits front := fun c hc => hall c (by rw [hsplit]; exact List.mem_append_left _ hc)
  have hv : value 10 front * 10 ^ zs.length = d := by
    rw [← value_append_zeros hdigits, ← hsplit, hvalue]
  rw [hsig]
  refine ⟨fun hnil => ?_, hdigits, hv⟩
  simp only at hnil
  rw [hnil] at hv
  simp only [value, List.foldl_nil, Nat.zero_mul] at hv
  omega

end Token.Number

namespace Binary64

open Token.Number (ReadsAs readsAs_decimalText significant_spec)

/-- The text of a number is read as that number. -/
theorem read_text {m : ℕ} {q : ℤ} (hp : ProperFinite m q) :
    ∃ c more, (text (finite false m q)).toList = c :: more ∧ c.isDigit = true ∧
      ∀ rest, Free rest → read c (more ++ rest) = (some (.float (finite false m q)), more.length) := by
  rcases Nat.eq_zero_or_pos m with rfl | hm
  · have hq : q = minExponent := hp.normal.resolve_right (by decide)
    obtain ⟨c, more, hcs, hc, h⟩ :
        ReadsAs "0.0".toList (Token.Number.value 10 ['0', '0'] * 10 ^ (-1 : ℤ)) :=
      Token.Number.readsAs_point ['0'] ['0'] (List.cons_ne_nil '0' []) (Token.Number.allDigits_zeros 1)
        (Token.Number.allDigits_zeros 1) Token.Number.tail_nil
    refine ⟨c, more, ?_, hc, fun rest hr => ?_⟩
    · simpa [text] using hcs
    · obtain ⟨n, e, hread, hx⟩ := h rest hr
      have hzero : (n * 10 ^ e : ℚ) = 0 := by
        rw [hx]
        simp [Token.Number.value, Token.Number.digit]
      have hn : n = 0 := by
        rcases mul_eq_zero.mp hzero with h | h
        · exact Nat.cast_eq_zero.mp h
        · exact absurd h (ten_zpow_pos e).ne'
      rw [hread, hn, hq]
      rfl
  · have hr := shortest_rounds hp hm
    obtain ⟨d, p, hdp⟩ : ∃ d p, shortest m q = (d, p) := ⟨_, _, rfl⟩
    rw [hdp] at hr
    have hd : 0 < d := by
      rcases Nat.eq_zero_or_pos d with rfl | hd
      · have hlow := (hr.bounds hp hm).1
        rw [Nat.cast_zero, zero_mul] at hlow
        exact absurd hlow (not_le.mpr (two_zpow_pos _))
      · exact hd
    obtain ⟨ds, zeros, hs⟩ : ∃ ds zeros, significant d = (ds, zeros) := ⟨_, _, rfl⟩
    obtain ⟨hne, hdigits, hvalue⟩ := significant_spec hd
    rw [hs] at hne hdigits hvalue
    obtain ⟨c, more, hcs, hc, h⟩ := readsAs_decimalText hne hdigits (p + zeros)
    refine ⟨c, more, ?_, hc, fun rest hrest => ?_⟩
    · simpa [text, hm.ne', hdp, hs] using hcs
    · obtain ⟨n, e, hread, hx⟩ := h rest hrest
      have hx' : (n * 10 ^ e : ℚ) = d * 10 ^ p := by
        rw [hx, ← hvalue, zpow_add₀ (by norm_num), zpow_natCast]
        push_cast
        ring
      rw [hread, ofDecimal_of_rounds hp hm (hx' ▸ hr)]

end Binary64

/-- The text of a number that is not negative. -/
def Piece.float (m : ℕ) (q : ℤ) : Piece :=
  let cs := (Binary64.text (.finite false m q)).toList
  .token (.float (.finite false m q)) (cs.headD '0') cs.tail

theorem float_chars {m : ℕ} {q : ℤ} (hp : Binary64.ProperFinite m q) :
    (Piece.float m q).chars = (Binary64.text (.finite false m q)).toList := by
  obtain ⟨c, more, hcs, -⟩ := Binary64.read_text hp
  simp [Piece.float, Piece.chars, hcs]

theorem float_stands {m : ℕ} {q : ℤ} {rest : List Char} (hp : Binary64.ProperFinite m q)
    (hr : Free rest) : (Piece.float m q).Stands rest := by
  intro offset
  obtain ⟨c, more, hcs, hc, hread⟩ := Binary64.read_text hp
  have hb := not_isBlank_of_isWordPart (isWordPart_of_isDigit hc)
  have hw := isWordStart_of_isDigit hc
  simp only [hcs, List.headD_cons, List.tail_cons, Lexeme.read, hb, hw, hc, hread rest hr]
  rfl

end ProtoSchema
