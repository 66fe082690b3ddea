import ChartAdvisor.Json.Reader
import ChartAdvisor.Json.Printer

/-!
# Numbers in JSON texts

A numeral ends at the first character that no numeral has in it, so that the reader takes the same
number out of a longer text as out of the numeral alone. Every integer reads back from its own
text. A floating point number need not: the reader computes it in rounded steps.
-/
namespace ChartAdvisor

namespace Text

/-- A text that does not go on with a character that a test accepts. -/
def StopsAt (p : Char → Bool) (rest : List Char) : Prop := ∀ c ∈ rest.head?, p c = false

theorem stopsAt_nil (p : Char → Bool) : StopsAt p [] := by
  intro c hc
  contradiction

theorem stopsAt_cons {p : Char → Bool} {c : Char} (h : p c = false) (rest : List Char) :
    StopsAt p (c :: rest) := by
  intro d hd
  cases hd
  exact h

theorem StopsAt.mono {p q : Char → Bool} {rest : List Char} (h : StopsAt p rest)
    (hpq : ∀ c, q c = true → p c = true) : StopsAt q rest := by
  intro c hc
  have hp := h c hc
  cases hq : q c with
  | false => rfl
  | true => exact absurd (hpq c hq) (by simp [hp])

theorem takeWhile_append_of_stopsAt {p : Char → Bool} (cs : List Char) {rest : List Char}
    (h : StopsAt p rest) : (cs ++ rest).takeWhile p = cs.takeWhile p := by
  induction cs with
  | nil =>
    cases rest with
    | nil => rfl
    | cons c rest => simp [h c rfl]
  | cons c cs ih =>
    rw [List.cons_append, List.takeWhile_cons, List.takeWhile_cons, ih]

theorem dropWhile_append_of_stopsAt {p : Char → Bool} (cs : List Char) {rest : List Char}
    (h : StopsAt p rest) : (cs ++ rest).dropWhile p = cs.dropWhile p ++ rest := by
  induction cs with
  | nil =>
    cases rest with
    | nil => rfl
    | cons c rest => simp [h c rfl]
  | cons c cs ih =>
    rw [List.cons_append, List.dropWhile_cons, List.dropWhile_cons, ih]
    split <;> rfl

theorem takeWhile_append_stop {p : Char → Bool} {cs rest : List Char} (hcs : ∀ c ∈ cs, p c = true)
    (h : StopsAt p rest) : (cs ++ rest).takeWhile p = cs := by
  have hnil : rest.takeWhile p = [] := takeWhile_append_of_stopsAt [] h
  rw [List.takeWhile_append_of_pos hcs, hnil, List.append_nil]

theorem dropWhile_append_stop {p : Char → Bool} {cs rest : List Char} (hcs : ∀ c ∈ cs, p c = true)
    (h : StopsAt p rest) : (cs ++ rest).dropWhile p = rest := by
  rw [List.dropWhile_append_of_pos hcs]
  exact dropWhile_append_of_stopsAt [] h

end Text

namespace Number

open Text Scientific

/-- The characters that numerals are made of. -/
def isNumeral (c : Char) : Bool := c.isDigit || c == '.' || c == 'e' || c == 'E' || c == '+' || c == '-'

/-- The reader makes the number of its own text. -/
def IsLegible (n : Number) : Prop := Json.readNumber? n.chars = some (.number n, [])

instance (n : Number) : Decidable n.IsLegible := inferInstanceAs (Decidable (_ = _))

/-! ## Numerals inside longer texts -/

theorem stopsAt_digit {rest : List Char} (h : StopsAt isNumeral rest) : StopsAt Char.isDigit rest :=
  h.mono fun c hc => by simp [isNumeral, hc]

theorem readFraction?_of_ne {c : Char} (hc : c ≠ '.') (cs : List Char) :
    readFraction? (c :: cs) = some ([], c :: cs) := by
  unfold readFraction?
  split
  · next heq => exact absurd (List.cons.inj heq).1 hc
  · rfl

theorem readFraction?_of_stopsAt {rest : List Char} (h : StopsAt isNumeral rest) :
    readFraction? rest = some ([], rest) := by
  cases rest with
  | nil => rfl
  | cons c rest =>
    refine readFraction?_of_ne ?_ rest
    rintro rfl
    exact absurd (h '.' rfl) (by decide)

theorem readFraction?_append {cs digits left rest : List Char}
    (h : readFraction? cs = some (digits, left)) (hrest : StopsAt isNumeral rest) :
    readFraction? (cs ++ rest) = some (digits, left ++ rest) := by
  have hdigit := stopsAt_digit hrest
  cases cs with
  | nil =>
    cases h
    exact readFraction?_of_stopsAt hrest
  | cons c cs =>
    by_cases hc : c = '.'
    · subst hc
      simp only [readFraction?, List.cons_append] at h ⊢
      rw [takeWhile_append_of_stopsAt cs hdigit, dropWhile_append_of_stopsAt cs hdigit]
      split at h
      · contradiction
      · next hne =>
        rw [if_neg hne]
        cases h
        rfl
    · rw [readFraction?_of_ne hc] at h
      cases h
      exact readFraction?_of_ne hc (cs ++ rest)

theorem readExponent?_of_ne {c : Char} (hc : ¬(c = 'e' ∨ c = 'E')) (cs : List Char) :
    readExponent? (c :: cs) = some (none, c :: cs) := by
  simp only [readExponent?, if_neg hc]

theorem readExponent?_of_stopsAt {rest : List Char} (h : StopsAt isNumeral rest) :
    readExponent? rest = some (none, rest) := by
  cases rest with
  | nil => rfl
  | cons c rest =>
    refine readExponent?_of_ne ?_ rest
    rintro (rfl | rfl)
    · exact absurd (h 'e' rfl) (by decide)
    · exact absurd (h 'E' rfl) (by decide)

/-- The digits of an exponent in a longer text. -/
theorem exponentDigits_append {α : Type} (value : List Char → α) {cs left rest : List Char} {a : α}
    (h : (if (cs.takeWhile Char.isDigit).isEmpty then none
      else some (value (cs.takeWhile Char.isDigit), cs.dropWhile Char.isDigit)) = some (a, left))
    (hrest : StopsAt isNumeral rest) :
    (if ((cs ++ rest).takeWhile Char.isDigit).isEmpty then none
      else some (value ((cs ++ rest).takeWhile Char.isDigit), (cs ++ rest).dropWhile Char.isDigit)) =
      some (a, left ++ rest) := by
  have hdigit := stopsAt_digit hrest
  rw [takeWhile_append_of_stopsAt cs hdigit, dropWhile_append_of_stopsAt cs hdigit]
  split at h
  · contradiction
  · next hne =>
    rw [if_neg hne]
    cases h
    rfl

theorem readExponent?_append {cs left rest : List Char} {exponent : Option Int}
    (h : readExponent? cs = some (exponent, left)) (hrest : StopsAt isNumeral rest) :
    readExponent? (cs ++ rest) = some (exponent, left ++ rest) := by
  cases cs with
  | nil =>
    cases h
    exact readExponent?_of_stopsAt hrest
  | cons c cs =>
    by_cases hc : c = 'e' ∨ c = 'E'
    · simp only [readExponent?, List.cons_append, if_pos hc] at h ⊢
      cases cs with
      | nil => simp at h
      | cons d cs =>
        by_cases hplus : d = '+'
        · subst hplus
          exact exponentDigits_append (fun ds => some (digitsValue ds : Int)) h hrest
        · by_cases hminus : d = '-'
          · subst hminus
            exact exponentDigits_append (fun ds => some (-(digitsValue ds : Int))) h hrest
          · split at h
            · next heq => exact absurd (List.cons.inj heq).1 hplus
            · next heq => exact absurd (List.cons.inj heq).1 hminus
            · split
              · next heq => exact absurd (List.cons.inj heq).1 hplus
              · next heq => exact absurd (List.cons.inj heq).1 hminus
              · exact exponentDigits_append (fun ds => some (digitsValue ds : Int)) h hrest
    · rw [readExponent?_of_ne hc] at h
      cases h
      exact readExponent?_of_ne hc (cs ++ rest)

/-- A number whose sign has been read. -/
def readUnsigned? (negative : Bool) (cs : List Char) : Option (Scalar × List Char) :=
  let whole := cs.takeWhile Char.isDigit
  if whole.isEmpty ∨ (whole.head? = some '0' ∧ whole.length ≠ 1) then none
  else do
    let (fraction, cs) ← readFraction? (cs.dropWhile Char.isDigit)
    let (exponent, cs) ← readExponent? cs
    match Json.numberOf? negative whole fraction exponent with
    | some n => return (.number n, cs)
    | none => return (.unreadable, cs)

theorem readNumber?_minus (cs : List Char) : Json.readNumber? ('-' :: cs) = readUnsigned? true cs :=
  rfl

theorem readNumber?_of_ne {c : Char} (hc : c ≠ '-') (cs : List Char) :
    Json.readNumber? (c :: cs) = readUnsigned? false (c :: cs) := by
  unfold Json.readNumber?
  split
  next heq =>
    split at heq
    · next hl => exact absurd (List.cons.inj hl).1 hc
    · cases heq
      rfl

theorem readUnsigned?_append {negative : Bool} {cs left rest : List Char} {n : Scalar}
    (h : readUnsigned? negative cs = some (n, left)) (hrest : StopsAt isNumeral rest) :
    readUnsigned? negative (cs ++ rest) = some (n, left ++ rest) := by
  have hdigit := stopsAt_digit hrest
  unfold readUnsigned? at h ⊢
  rw [takeWhile_append_of_stopsAt cs hdigit, dropWhile_append_of_stopsAt cs hdigit]
  simp only at h ⊢
  split at h
  · contradiction
  · next hwhole =>
    rw [if_neg hwhole]
    obtain ⟨⟨fraction, afterFraction⟩, hf, h⟩ := Option.bind_eq_some_iff.mp h
    obtain ⟨⟨exponent, afterExponent⟩, he, h⟩ := Option.bind_eq_some_iff.mp h
    rw [readFraction?_append hf hrest, Option.bind_eq_bind, Option.bind_some]
    simp only
    rw [readExponent?_append he hrest, Option.bind_eq_bind, Option.bind_some]
    simp only at h ⊢
    split at h <;> cases h <;> rfl

theorem readNumber?_append {cs left rest : List Char} {n : Scalar}
    (h : Json.readNumber? cs = some (n, left)) (hrest : StopsAt isNumeral rest) :
    Json.readNumber? (cs ++ rest) = some (n, left ++ rest) := by
  cases cs with
  | nil => contradiction
  | cons c cs =>
    by_cases hc : c = '-'
    · subst hc
      rw [readNumber?_minus] at h
      exact readUnsigned?_append h hrest
    · rw [readNumber?_of_ne hc] at h
      rw [List.cons_append, readNumber?_of_ne hc]
      exact readUnsigned?_append h hrest

/-! ## Integers -/

theorem head?_toDigits_ne_zero {k : Nat} (h : 0 < k) : (Nat.toDigits 10 k).head? ≠ some '0' := by
  induction k using Nat.strongRecOn with
  | ind k ih =>
    rw [Nat.toDigits_eq_if (by decide)]
    split
    · next hk =>
      have hdigit : ∀ k < 10, 0 < k → Nat.digitChar k ≠ '0' := by decide
      simpa using hdigit k hk h
    · next hk =>
      rw [List.head?_append, Option.or_of_isSome (by simp [Nat.toDigits_ne_nil])]
      exact ih (k / 10) (by omega) (by omega)

theorem digitsValue_toDigits (k : Nat) : digitsValue (Nat.toDigits 10 k) = k := by
  have h : Nat.ofDigitChars 10 (Nat.toDigits 10 k) 0 = k := Nat.ofDigitChars_ten_toDigits
  rw [Nat.ofDigitChars_eq_foldl] at h
  unfold digitsValue digitValue
  simpa only [Nat.mul_comm] using h

theorem readUnsigned?_toDigits {negative : Bool} {k : Nat} {n : Number}
    (h : Json.numberOf? negative (Nat.toDigits 10 k) [] none = some n) :
    readUnsigned? negative (Nat.toDigits 10 k) = some (.number n, []) := by
  have hdigits : ∀ c ∈ Nat.toDigits 10 k, c.isDigit = true := fun c hc =>
    Nat.isDigit_of_mem_toDigits (by decide) (by decide) hc
  have hall := takeWhile_append_stop hdigits (stopsAt_nil _)
  have hnone := dropWhile_append_stop hdigits (stopsAt_nil _)
  rw [List.append_nil] at hall hnone
  have hzero : ¬((Nat.toDigits 10 k).isEmpty ∨
      ((Nat.toDigits 10 k).head? = some '0' ∧ (Nat.toDigits 10 k).length ≠ 1)) := by
    rintro (hempty | ⟨hhead, hlength⟩)
    · exact Nat.toDigits_ne_nil (List.isEmpty_iff.mp hempty)
    · rcases Nat.eq_zero_or_pos k with rfl | hk
      · exact hlength rfl
      · exact head?_toDigits_ne_zero hk hhead
  unfold readUnsigned?
  rw [hall, hnone]
  simp only [if_neg hzero]
  simp [readFraction?, readExponent?, h]

theorem isLegible_int (n : Int) (sized : WordSized n) : (int n sized).IsLegible := by
  have hchars : (int n sized).chars = (toString n).toList := rfl
  unfold IsLegible
  rw [hchars, Int.toString_eq_repr, Int.repr_eq_if]
  split
  · next hn =>
    have hread : Json.numberOf? false (Nat.toDigits 10 n.toNat) [] none = some (int n sized) := by
      simp [Json.numberOf?, digitsValue_toDigits, Int.toNat_of_nonneg hn, sized]
    rw [Nat.toList_repr]
    obtain ⟨c, cs, hcs⟩ := List.exists_cons_of_ne_nil (Nat.toDigits_ne_nil (n := n.toNat) (b := 10))
    have hc : c ≠ '-' := by
      have hdigit : c.isDigit = true :=
        Nat.isDigit_of_mem_toDigits (by decide) (by decide) (hcs ▸ List.mem_cons_self)
      rintro rfl
      exact absurd hdigit (by decide)
    have hunsigned := readUnsigned?_toDigits hread
    rw [hcs] at hunsigned ⊢
    rw [readNumber?_of_ne hc, hunsigned]
  · next hn =>
    obtain ⟨k, rfl, hk⟩ : ∃ k : Nat, n = -(k : Int) ∧ k ≠ 0 := ⟨(-n).toNat, by omega, by omega⟩
    have hread : Json.numberOf? true (Nat.toDigits 10 k) [] none = some (int (-k) sized) := by
      simp [Json.numberOf?, digitsValue_toDigits, hk, sized]
    rw [String.toList_append, Nat.toList_repr, Int.neg_neg, Int.toNat_natCast]
    exact readUnsigned?_toDigits hread

/-! ## What numerals look like -/

theorem isNumeral_of_isDigit {c : Char} (h : c.isDigit = true) : isNumeral c = true := by
  simp [isNumeral, h]

theorem isNumeral_toDigits (k : Nat) : ∀ c ∈ Nat.toDigits 10 k, isNumeral c = true := fun _ hc =>
  isNumeral_of_isDigit (Nat.isDigit_of_mem_toDigits (by decide) (by decide) hc)

theorem isNumeral_zeros (k : Nat) : ∀ c ∈ (DecimalLayout.zeros k).toList, isNumeral c = true := by
  intro c hc
  rw [DecimalLayout.zeros, String.toList_ofList] at hc
  rw [List.eq_of_mem_replicate hc]
  decide

theorem isNumeral_pointed (layout : DecimalLayout) (k : Nat) (whole : Int) :
    ∀ c ∈ (layout.pointed (toString k) whole).toList, isNumeral c = true := by
  have hdigits := isNumeral_toDigits k
  intro c hc
  unfold DecimalLayout.pointed at hc
  simp only [Nat.toString_eq_repr, Nat.toList_repr] at hc
  split at hc
  · rw [String.toList_append, String.toList_append, Nat.toList_repr] at hc
    rcases List.mem_append.mp hc with hc | hc
    · exact (List.mem_append.mp hc).elim (hdigits c) (isNumeral_zeros _ c)
    · split at hc
      · exact List.all_eq_true.mp (by rfl : ".0".toList.all isNumeral = true) c hc
      · contradiction
  · split at hc
    · simp only [String.toList_append, String.toList_ofList, List.mem_append] at hc
      rcases hc with (hc | hc) | hc
      · exact hdigits c (List.mem_of_mem_take hc)
      · exact List.all_eq_true.mp (by rfl : ".".toList.all isNumeral = true) c hc
      · exact hdigits c (List.mem_of_mem_drop hc)
    · simp only [String.toList_append, Nat.toList_repr, List.mem_append] at hc
      rcases hc with (hc | hc) | hc
      · exact List.all_eq_true.mp (by rfl : "0.".toList.all isNumeral = true) c hc
      · exact isNumeral_zeros _ c hc
      · exact hdigits c hc

theorem isNumeral_scientific (k : Nat) (exponent : Int) :
    ∀ c ∈ (DecimalLayout.scientific (toString k) exponent).toList, isNumeral c = true := by
  have hdigits := isNumeral_toDigits k
  intro c hc
  unfold DecimalLayout.scientific at hc
  simp only [Nat.toString_eq_repr, Nat.toList_repr, String.toList_append, String.toList_ofList,
    List.mem_append] at hc
  rcases hc with (((hc | hc) | hc) | hc) | hc
  · exact hdigits c (List.mem_of_mem_take hc)
  · split at hc
    · contradiction
    · simp only [String.toList_append, String.toList_ofList] at hc
      rcases List.mem_append.mp hc with hc | hc
      · exact List.all_eq_true.mp (by rfl : ".".toList.all isNumeral = true) c hc
      · exact hdigits c (List.mem_of_mem_drop hc)
  · exact List.all_eq_true.mp (by rfl : "e".toList.all isNumeral = true) c hc
  · split at hc
    · exact List.all_eq_true.mp (by rfl : "-".toList.all isNumeral = true) c hc
    · exact List.all_eq_true.mp (by rfl : "+".toList.all isNumeral = true) c hc
  · exact isNumeral_toDigits _ c hc

theorem isNumeral_render (layout : DecimalLayout) (x : Binary64) :
    ∀ c ∈ (layout.render x).toList, isNumeral c = true := by
  intro c hc
  unfold DecimalLayout.render at hc
  rw [String.toList_append] at hc
  rcases List.mem_append.mp hc with hc | hc
  · split at hc
    · exact List.all_eq_true.mp (by rfl : "-".toList.all isNumeral = true) c hc
    · contradiction
  · split at hc
    · exact isNumeral_pointed layout _ _ c hc
    · split at hc
      · exact isNumeral_pointed layout _ _ c hc
      · exact isNumeral_scientific _ _ c hc

/-- A numeral has no other characters than those of numerals. -/
theorem isNumeral_chars (n : Number) : ∀ c ∈ n.chars, isNumeral c = true := by
  intro c hc
  cases n with
  | int n sized =>
    have hchars : (int n sized).chars = (toString n).toList := rfl
    rw [hchars, Int.toString_eq_repr, Int.repr_eq_if] at hc
    split at hc
    · rw [Nat.toList_repr] at hc
      exact isNumeral_toDigits _ c hc
    · rw [String.toList_append, Nat.toList_repr] at hc
      rcases List.mem_append.mp hc with hc | hc
      · exact List.all_eq_true.mp (by rfl : "-".toList.all isNumeral = true) c hc
      · exact isNumeral_toDigits _ c hc
  | float x => exact isNumeral_render layout x c hc

theorem chars_ne_nil_of_isLegible {n : Number} (h : n.IsLegible) : n.chars ≠ [] := by
  intro hnil
  unfold IsLegible at h
  rw [hnil] at h
  contradiction

end Number
end ChartAdvisor
