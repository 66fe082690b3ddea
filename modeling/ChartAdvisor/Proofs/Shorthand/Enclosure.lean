import ChartAdvisor.Proofs.Json.Reading
import ChartAdvisor.Shorthand.Scanner

/-!
# Texts that a scan passes over

A text is enclosed when its quotes and brackets match. Cutting a longer text at a delimiter that
does not stand outside the brackets of an enclosed text leaves that text in one piece, and looking
for a closing bracket does not end inside of it. The text of a JSON value is enclosed, whatever
the value is.
-/
namespace ChartAdvisor
namespace Shorthand

/-- What may stand between two quotes. -/
inductive Quotable : List Char → Prop
  | nil : Quotable []
  | plain {c : Char} {rest : List Char} (hquote : c ≠ '"') (hescape : c ≠ '\\')
      (h : Quotable rest) : Quotable (c :: rest)
  | escaped (c : Char) {rest : List Char} (h : Quotable rest) : Quotable ('\\' :: c :: rest)

/-- Neither a quote nor a bracket. -/
def IsPlain (c : Char) : Prop := c ≠ '"' ∧ isOpening c = false ∧ isClosing c = false

instance (c : Char) : Decidable (IsPlain c) := inferInstanceAs (Decidable (_ ∧ _))

/-- Texts whose quotes and brackets match; outside the brackets and quotes there are only
characters that a test accepts. -/
inductive Enclosed : (Char → Bool) → List Char → Prop
  | nil {p : Char → Bool} : Enclosed p []
  | plain {p : Char → Bool} {c : Char} {rest : List Char} (accepted : p c = true)
      (hplain : IsPlain c) (h : Enclosed p rest) : Enclosed p (c :: rest)
  | quoted {p : Char → Bool} {body rest : List Char} (inner : Quotable body)
      (h : Enclosed p rest) : Enclosed p ('"' :: (body ++ '"' :: rest))
  | bracketed {p : Char → Bool} {o c : Char} {body rest : List Char} (opening : isOpening o = true)
      (closing : isClosing c = true) (inner : Enclosed (fun _ => true) body)
      (h : Enclosed p rest) : Enclosed p (o :: (body ++ c :: rest))

theorem Quotable.append {a b : List Char} (ha : Quotable a) (hb : Quotable b) :
    Quotable (a ++ b) := by
  induction ha with
  | nil => exact hb
  | plain hquote hescape _ ih => exact .plain hquote hescape ih
  | escaped c _ ih => exact .escaped c ih

namespace Enclosed

theorem append {p : Char → Bool} {a b : List Char} (ha : Enclosed p a) (hb : Enclosed p b) :
    Enclosed p (a ++ b) := by
  induction ha with
  | nil => exact hb
  | plain accepted hplain _ ih => exact .plain accepted hplain (ih hb)
  | quoted inner _ ih =>
    rw [List.cons_append, List.append_assoc]
    exact .quoted inner (ih hb)
  | bracketed opening closing inner _ _ ih =>
    rw [List.cons_append, List.append_assoc]
    exact .bracketed opening closing inner (ih hb)

theorem mono {p q : Char → Bool} {text : List Char} (h : Enclosed p text)
    (hpq : ∀ c, p c = true → q c = true) : Enclosed q text := by
  induction h with
  | nil => exact .nil
  | plain accepted hplain _ ih => exact .plain (hpq _ accepted) hplain (ih hpq)
  | quoted inner _ ih => exact .quoted inner (ih hpq)
  | bracketed opening closing inner _ _ ih => exact .bracketed opening closing inner (ih hpq)

theorem of_forall {p : Char → Bool} {text : List Char}
    (h : ∀ c ∈ text, p c = true ∧ IsPlain c) : Enclosed p text := by
  induction text with
  | nil => exact .nil
  | cons c rest ih =>
    obtain ⟨accepted, hplain⟩ := h c List.mem_cons_self
    exact .plain accepted hplain (ih fun d hd => h d (List.mem_cons_of_mem _ hd))

/-- Where an enclosed text ends, there is an accepted character, or a quote or a bracket closes. -/
theorem getLast? {p : Char → Bool} {text : List Char} (h : Enclosed p text) :
    ∀ c ∈ text.getLast?, p c = true ∨ c = '"' ∨ isClosing c = true := by
  have hlast (start : List Char) {rest : List Char} {c d : Char} (hd : d ∈ (start ++ c :: rest).getLast?) :
      d = c ∨ d ∈ rest.getLast? := by
    rw [List.getLast?_append, List.getLast?_cons] at hd
    cases hrest : rest.getLast? with
    | none =>
      rw [hrest] at hd
      exact .inl (Option.some.inj hd).symm
    | some e =>
      rw [hrest] at hd
      exact .inr hd
  induction h with
  | nil => nofun
  | @plain p c rest accepted _ _ ih =>
    intro d hd
    rcases hlast [] hd with rfl | hd
    · exact .inl accepted
    · exact ih d hd
  | @quoted p body rest _ _ ih =>
    intro d hd
    rcases hlast ('"' :: body) hd with rfl | hd
    · exact .inr (.inl rfl)
    · exact ih d hd
  | @bracketed p o c body rest _ closing _ _ _ ih =>
    intro d hd
    rcases hlast (o :: body) hd with rfl | hd
    · exact .inr (.inr closing)
    · exact ih d hd

end Enclosed

/-! ## Cutting at a delimiter -/

section Split

variable {delimiter : Char}

theorem splitTop_ne_nil (depth : Int) (quoting : Quoting) (text : List Char) :
    splitTop delimiter depth quoting text ≠ [] := by
  cases text with
  | nil => simp [splitTop]
  | cons c rest =>
    rw [splitTop]
    split
    · exact List.cons_ne_nil _ _
    · simp only
      split <;> exact List.cons_ne_nil _ _

/-- Pieces of a text, with something put before the first. -/
def prepend (text : List Char) : List (List Char) → List (List Char)
  | [] => []
  | piece :: pieces => (text ++ piece) :: pieces

theorem prepend_nil (pieces : List (List Char)) : prepend [] pieces = pieces := by
  cases pieces <;> rfl

theorem prepend_prepend (a b : List Char) (pieces : List (List Char)) :
    prepend a (prepend b pieces) = prepend (a ++ b) pieces := by
  cases pieces with
  | nil => rfl
  | cons piece pieces => simp [prepend]

/-- A character at which the text is not cut goes to the piece behind it. -/
theorem splitTop_cons {depth : Int} {quoting : Quoting} {c : Char}
    (h : ¬(quoting = .outside ∧ depth = 0 ∧ c = delimiter)) (rest : List Char) :
    splitTop delimiter depth quoting (c :: rest) =
      prepend [c] (splitTop delimiter (if quoting = .outside then depth + bracketStep c else depth)
        (quoting.next c) rest) := by
  rw [splitTop, if_neg h]
  simp only
  split
  · next heq => exact absurd heq (splitTop_ne_nil _ _ _)
  · next heq =>
    rw [heq]
    rfl

theorem Quoting.next_inside {c : Char} (hquote : c ≠ '"') (hescape : c ≠ '\\') :
    Quoting.inside.next c = .inside := by
  rw [Quoting.next, if_neg hescape, if_neg hquote]

theorem Quoting.next_outside {c : Char} (h : c ≠ '"') : Quoting.outside.next c = .outside := by
  rw [Quoting.next, if_neg h]

theorem splitTop_quotable {body : List Char} (h : Quotable body) (depth : Int) (rest : List Char) :
    splitTop delimiter depth .inside (body ++ '"' :: rest) =
      prepend (body ++ ['"']) (splitTop delimiter depth .outside rest) := by
  induction h with
  | nil => exact splitTop_cons (by simp) rest
  | plain hquote hescape _ ih =>
    rw [List.cons_append, splitTop_cons (by simp), Quoting.next_inside hquote hescape]
    simp only [reduceCtorEq, if_false]
    rw [ih, prepend_prepend]
    rfl
  | escaped c _ ih =>
    rw [List.cons_append, List.cons_append, splitTop_cons (by simp)]
    simp only [reduceCtorEq, if_false]
    rw [show Quoting.inside.next '\\' = .escaped from rfl, splitTop_cons (by simp)]
    simp only [reduceCtorEq, if_false]
    rw [show Quoting.escaped.next c = .inside from rfl, ih, prepend_prepend, prepend_prepend]
    rfl

theorem not_isOpening {c : Char} (h : isClosing c = true) : isOpening c = false := by
  simp only [isClosing, Bool.or_eq_true, beq_iff_eq] at h
  rcases h with rfl | rfl <;> rfl

theorem bracketStep_of_isPlain {c : Char} (h : IsPlain c) : bracketStep c = 0 := by
  rw [bracketStep, if_neg (by simp [h.2.1]), if_neg (by simp [h.2.2])]

theorem bracketStep_of_isClosing {c : Char} (h : isClosing c = true) : bracketStep c = -1 := by
  rw [bracketStep, if_neg (by simp [not_isOpening h]), if_pos h]

theorem ne_of_isPlain {c d : Char} (hc : IsPlain c) (hd : d = '"' ∨ isOpening d ∨ isClosing d) :
    d ≠ c := by
  rintro rfl
  rcases hd with rfl | hd | hd
  · exact hc.1 rfl
  · simp [hc.2.1] at hd
  · simp [hc.2.2] at hd

/-- A text whose brackets match is not cut at a delimiter that does not stand outside of them. -/
theorem splitTop_enclosed {p : Char → Bool} {text : List Char} (h : Enclosed p text) {depth : Int}
    (hdepth : 0 ≤ depth) (hp : depth = 0 → p delimiter = false) (hplain : IsPlain delimiter)
    (rest : List Char) :
    splitTop delimiter depth .outside (text ++ rest) =
      prepend text (splitTop delimiter depth .outside rest) := by
  induction h generalizing depth rest with
  | nil =>
    rw [prepend_nil]
    rfl
  | @plain p c text accepted hc _ ih =>
    have hcut : ¬(Quoting.outside = .outside ∧ depth = 0 ∧ c = delimiter) := by
      rintro ⟨-, hzero, rfl⟩
      rw [hp hzero] at accepted
      contradiction
    rw [List.cons_append, splitTop_cons hcut, if_pos rfl, bracketStep_of_isPlain hc,
      Quoting.next_outside hc.1, Int.add_zero, ih hdepth hp, prepend_prepend]
    rfl
  | @quoted p body text inner _ ih =>
    have hcut : ¬(Quoting.outside = .outside ∧ depth = 0 ∧ '"' = delimiter) := fun h =>
      ne_of_isPlain hplain (.inl rfl) h.2.2
    rw [List.cons_append, List.append_assoc, List.cons_append, splitTop_cons hcut, if_pos rfl,
      show depth + bracketStep '"' = depth from Int.add_zero depth,
      show Quoting.outside.next '"' = .inside from rfl, splitTop_quotable inner, ih hdepth hp,
      prepend_prepend, prepend_prepend]
    simp
  | @bracketed p o c body text opening closing inner _ ihinner ih =>
    have hcut : ¬(Quoting.outside = .outside ∧ depth = 0 ∧ o = delimiter) := fun h =>
      ne_of_isPlain hplain (.inr (.inl opening)) h.2.2
    have hcut' : ¬(Quoting.outside = .outside ∧ depth + 1 = 0 ∧ c = delimiter) := by omega
    have hclose : c ≠ '"' := by
      rintro rfl
      contradiction
    have hopen : o ≠ '"' := by
      rintro rfl
      contradiction
    rw [List.cons_append, List.append_assoc, List.cons_append, splitTop_cons hcut, if_pos rfl,
      show bracketStep o = 1 from if_pos opening, Quoting.next_outside hopen,
      ihinner (by omega) (by omega), splitTop_cons hcut', if_pos rfl,
      bracketStep_of_isClosing closing, Quoting.next_outside hclose,
      show depth + 1 + -1 = depth from by omega, ih hdepth hp, prepend_prepend, prepend_prepend,
      prepend_prepend]
    simp

end Split

/-! ## Looking for a closing bracket -/

/-- What is found in a text, with something put before it. -/
def found (text : List Char) (r : Option (List Char × List Char)) : Option (List Char × List Char) :=
  r.map fun (found, rest) => (text ++ found, rest)

theorem found_found (a b : List Char) (r : Option (List Char × List Char)) :
    found a (found b r) = found (a ++ b) r := by
  cases r with
  | none => rfl
  | some r => simp [found]

theorem bracketed?_plain {depth : Nat} {c : Char} (h : IsPlain c) (rest : List Char) :
    bracketed? depth .outside (c :: rest) = found [c] (bracketed? depth .outside rest) := by
  rw [bracketed?.eq_def]
  simp only [h.2.1, h.2.2, Quoting.next_outside h.1]
  rfl

theorem bracketed?_opening {depth : Nat} {c : Char} (h : isOpening c = true) (rest : List Char) :
    bracketed? depth .outside (c :: rest) = found [c] (bracketed? (depth + 1) .outside rest) := by
  rw [bracketed?.eq_def]
  simp only [h]
  rfl

theorem bracketed?_closing {depth : Nat} {c : Char} (h : isClosing c = true) (rest : List Char) :
    bracketed? (depth + 2) .outside (c :: rest) = found [c] (bracketed? (depth + 1) .outside rest) := by
  rw [bracketed?, if_neg (by simp [not_isOpening h]), if_pos h]
  rfl

theorem bracketed?_quotable {body : List Char} (h : Quotable body) (depth : Nat) (rest : List Char) :
    bracketed? depth .inside (body ++ '"' :: rest) =
      found (body ++ ['"']) (bracketed? depth .outside rest) := by
  have hstep (quoting : Quoting) (hq : quoting ≠ .outside) (c : Char) (rest : List Char) :
      bracketed? depth quoting (c :: rest) = found [c] (bracketed? depth (quoting.next c) rest) := by
    cases quoting with
    | outside => contradiction
    | inside | escaped => rfl
  induction h with
  | nil => exact hstep .inside (by decide) '"' rest
  | @plain c body hquote hescape _ ih =>
    rw [List.cons_append, hstep .inside (by decide), Quoting.next_inside hquote hescape, ih,
      found_found]
    rfl
  | @escaped c body _ ih =>
    rw [List.cons_append, List.cons_append, hstep .inside (by decide),
      show Quoting.inside.next '\\' = .escaped from rfl, hstep .escaped (by decide),
      show Quoting.escaped.next c = .inside from rfl, ih, found_found, found_found]
    rfl

/-- The closing bracket that is looked for stands behind a text whose own brackets match. -/
theorem bracketed?_enclosed {p : Char → Bool} {text : List Char} (h : Enclosed p text) (depth : Nat)
    (rest : List Char) :
    bracketed? (depth + 1) .outside (text ++ rest) =
      found text (bracketed? (depth + 1) .outside rest) := by
  induction h generalizing depth rest with
  | nil => cases hr : bracketed? (depth + 1) .outside rest <;> simp [found, hr]
  | plain _ hc _ ih =>
    rw [List.cons_append, bracketed?_plain hc, ih, found_found]
    rfl
  | @quoted p body text inner _ ih =>
    have hquote (cs : List Char) : bracketed? (depth + 1) .outside ('"' :: cs) =
        found ['"'] (bracketed? (depth + 1) .inside cs) := rfl
    rw [List.cons_append, List.append_assoc, List.cons_append, hquote, bracketed?_quotable inner, ih,
      found_found, found_found]
    simp
  | @bracketed p o c body text opening closing inner _ ihinner ih =>
    rw [List.cons_append, List.append_assoc, List.cons_append, bracketed?_opening opening, ihinner,
      bracketed?_closing closing, ih, found_found, found_found, found_found]
    simp

theorem bracketed?_whole {o c : Char} {body : List Char} (opening : isOpening o = true)
    (closing : isClosing c = true) (inner : Enclosed (fun _ => true) body) (rest : List Char) :
    bracketed? 0 .outside (o :: (body ++ c :: rest)) = some (o :: (body ++ [c]), rest) := by
  have hclose : bracketed? 1 .outside (c :: rest) = some ([c], rest) := by
    rw [bracketed?, if_neg (by simp [not_isOpening closing]), if_pos closing]
  rw [bracketed?_opening opening, bracketed?_enclosed inner, hclose]
  rfl

/-! ## The text of a JSON value -/

/-- The characters of JSON texts outside brackets and quotes. -/
def isScalar (c : Char) : Bool := c.isAlphanum || c == '.' || c == '+' || c == '-'

theorem isPlain_of_isScalar {c : Char} (h : isScalar c = true) : IsPlain c := by
  refine ⟨?_, ?_, ?_⟩
  · rintro rfl
    exact absurd h (by decide)
  · cases ho : isOpening c with
    | false => rfl
    | true =>
      simp only [isOpening, Bool.or_eq_true, beq_iff_eq] at ho
      rcases ho with rfl | rfl <;> exact absurd h (by decide)
  · cases hc : isClosing c with
    | false => rfl
    | true =>
      simp only [isClosing, Bool.or_eq_true, beq_iff_eq] at hc
      rcases hc with rfl | rfl <;> exact absurd h (by decide)

theorem isScalar_of_isNumeral {c : Char} (h : Number.isNumeral c = true) : isScalar c = true := by
  simp only [Number.isNumeral, Bool.or_eq_true, beq_iff_eq] at h
  rcases h with ((((h | rfl) | rfl) | rfl) | rfl) | rfl
  · simp [isScalar, Char.isAlphanum, h]
  all_goals rfl

theorem hexDigit_ne : ∀ n < 16, Json.hexDigit n ≠ '"' ∧ Json.hexDigit n ≠ '\\' := by decide

theorem quotable_escapeChar (c : Char) : Quotable (Json.escapeChar c) := by
  unfold Json.escapeChar
  split
  · exact .escaped '"' .nil
  · next hquote =>
    split
    · exact .escaped '\\' .nil
    · next hescape =>
      split
      · next hcontrol =>
        split
        · exact .escaped 'b' .nil
        · exact .escaped 't' .nil
        · exact .escaped 'n' .nil
        · exact .escaped 'f' .nil
        · exact .escaped 'r' .nil
        · have hhigh := hexDigit_ne (c.toNat / 16) (by omega)
          have hlow := hexDigit_ne (c.toNat % 16) (by omega)
          exact .escaped 'u' (.plain (by decide) (by decide) (.plain (by decide) (by decide)
            (.plain hhigh.1 hhigh.2 (.plain hlow.1 hlow.2 .nil))))
      · exact .plain hquote hescape .nil

theorem quotable_escaped (cs : List Char) : Quotable (cs.flatMap Json.escapeChar) := by
  induction cs with
  | nil => exact .nil
  | cons c cs ih => exact (quotable_escapeChar c).append ih

theorem enclosed_quote {p : Char → Bool} (s : String) {rest : List Char} (h : Enclosed p rest) :
    Enclosed p (Json.quote s ++ rest) := by
  rw [Json.quote, List.cons_append, List.append_assoc]
  exact .quoted (quotable_escaped _) h

theorem enclosed_itemChars {items : List Json} (h : ∀ v ∈ items, Enclosed isScalar v.chars) :
    Enclosed (fun _ => true) (Json.itemChars items) := by
  induction items with
  | nil => exact .nil
  | cons v rest ih =>
    have hv : Enclosed (fun _ => true) v.chars := (h v List.mem_cons_self).mono fun _ _ => rfl
    exact .plain rfl (by decide) (hv.append (ih fun w hw => h w (List.mem_cons_of_mem _ hw)))

theorem enclosed_memberChars {members : Json.Members}
    (h : ∀ m ∈ members, Enclosed isScalar m.2.chars) :
    Enclosed (fun _ => true) (Json.memberChars members) := by
  induction members with
  | nil => exact .nil
  | cons m rest ih =>
    obtain ⟨k, v⟩ := m
    have hv : Enclosed isScalar v.chars := h (k, v) List.mem_cons_self
    have hrest := ih fun n hn => h n (List.mem_cons_of_mem _ hn)
    exact .plain rfl (by decide) (enclosed_quote k (.plain rfl (by decide)
      ((hv.mono fun _ _ => rfl).append hrest)))

/-- The text of a list is two brackets around an enclosed text. -/
theorem chars_list {items : List Json} (h : ∀ v ∈ items, Enclosed isScalar v.chars) :
    ∃ body, (Json.list items).chars = '[' :: (body ++ [']']) ∧ Enclosed (fun _ => true) body := by
  cases items with
  | nil => exact ⟨[], rfl, .nil⟩
  | cons v rest =>
    have hv : Enclosed (fun _ => true) v.chars := (h v List.mem_cons_self).mono fun _ _ => rfl
    have hrest := enclosed_itemChars fun w hw => h w (List.mem_cons_of_mem _ hw)
    exact ⟨v.chars ++ Json.itemChars rest, by rw [Json.chars], hv.append hrest⟩

theorem chars_object {members : Json.Members} (h : ∀ m ∈ members, Enclosed isScalar m.2.chars) :
    ∃ body, (Json.object members).chars = '\x7b' :: (body ++ ['\x7d']) ∧
      Enclosed (fun _ => true) body := by
  cases members with
  | nil => exact ⟨[], rfl, .nil⟩
  | cons m rest =>
    obtain ⟨k, v⟩ := m
    have hv : Enclosed isScalar v.chars := h (k, v) List.mem_cons_self
    have hrest := enclosed_memberChars fun n hn => h n (List.mem_cons_of_mem _ hn)
    refine ⟨Json.quote k ++ ':' :: (v.chars ++ Json.memberChars rest), ?_, ?_⟩
    · rw [Json.chars]
      simp
    · exact enclosed_quote k (.plain rfl (by decide) ((hv.mono fun _ _ => rfl).append hrest))

theorem enclosed_scalar {text : List Char} (h : ∀ c ∈ text, isScalar c = true) :
    Enclosed isScalar text :=
  .of_forall fun c hc => ⟨h c hc, isPlain_of_isScalar (h c hc)⟩

/-- The text of a JSON value is enclosed. -/
theorem enclosed_chars (v : Json) : Enclosed isScalar v.chars := by
  induction v using Json.induct with
  | null => exact enclosed_scalar (List.all_eq_true.mp rfl)
  | bool b => cases b <;> exact enclosed_scalar (List.all_eq_true.mp rfl)
  | number n => exact enclosed_scalar fun c hc => isScalar_of_isNumeral (n.isNumeral_chars c hc)
  | text s =>
    have h := enclosed_quote (p := isScalar) s .nil
    rwa [List.append_nil] at h
  | list items ih =>
    obtain ⟨body, hbody, hinner⟩ := chars_list ih
    rw [hbody]
    exact .bracketed rfl rfl hinner .nil
  | object members ih =>
    obtain ⟨body, hbody, hinner⟩ := chars_object ih
    rw [hbody]
    exact .bracketed rfl rfl hinner .nil

end Shorthand
end ChartAdvisor
