import ChartAdvisor.Proofs.Shorthand.Enclosure
import ChartAdvisor.Shorthand.Parser

/-!
# Where the text of a shorthand is cut

Each of the cuts that reading a shorthand makes, at a bar, at a colon, at a comma, at the end of a
value, at the parentheses of a function, gives back the pieces that were put together, as long as
none of the pieces has the delimiter in it where it counts.
-/
namespace ChartAdvisor

namespace Text

variable {d : Char} {a : List Char}

theorem cutAt?_append (h : d ∉ a) (b : List Char) : cutAt? [d] (a ++ d :: b) = some (a, b) := by
  induction a with
  | nil => simp [cutAt?, dropStart?]
  | cons c a ih =>
    obtain ⟨hc, ha⟩ := not_or.mp (mt List.mem_cons.mpr h)
    rw [List.cons_append, cutAt?, dropStart?, if_neg hc]
    simp only [ih ha]
    rfl

theorem cutAt?_eq_none (h : d ∉ a) : cutAt? [d] a = none := by
  induction a with
  | nil => rfl
  | cons c a ih =>
    obtain ⟨hc, ha⟩ := not_or.mp (mt List.mem_cons.mpr h)
    rw [cutAt?, dropStart?, if_neg hc]
    simp only [ih ha]
    rfl

theorem splitWithTail_append (h : d ∉ a) (count : Nat) (b : List Char) :
    splitWithTail [d] (count + 1) (a ++ d :: b) = a :: splitWithTail [d] count b := by
  rw [splitWithTail, cutAt?_append h]
  rfl

theorem splitWithTail_of_not_mem (h : d ∉ a) (count : Nat) :
    splitWithTail [d] (count + 1) a = a :: List.replicate (count + 1) [] := by
  rw [splitWithTail, cutAt?_eq_none h]
  rfl

end Text

namespace Shorthand

open Text

/-! ## The value of a parameter -/

theorem value?_bare {c : Char} (hmark : c ≠ '?') (hc : IsPlain c) (tail : List Char) :
    value? (c :: tail) =
      .ok ((c :: tail).takeWhile (· != ','), (c :: tail).dropWhile (· != ',')) := by
  have hbare : (c :: tail).dropWhile (· == '?') = c :: tail := by simp [hmark]
  unfold value?
  simp only [hbare, List.head?_cons, Option.any_some, hc.2.1]
  rw [if_neg (by decide)]
  split
  · next heq => exact absurd (List.cons.inj heq).1 hc.1
  · rfl

theorem value?_scalar {text rest : List Char} (h : ∀ c ∈ text, isScalar c = true)
    (hrest : StopsAt (· != ',') rest) : value? (text ++ rest) = .ok (text, rest) := by
  have hcomma : ∀ c ∈ text, (c != ',') = true := by
    intro c hc
    have hs := h c hc
    rw [bne_iff_ne]
    rintro rfl
    exact absurd hs (by decide)
  have htake := takeWhile_append_stop hcomma hrest
  have hdrop := dropWhile_append_stop hcomma hrest
  cases hall : text ++ rest with
  | nil =>
    obtain ⟨rfl, rfl⟩ := List.append_eq_nil_iff.mp hall
    rfl
  | cons c tail =>
    have hc : c ≠ '?' ∧ IsPlain c := by
      cases text with
      | nil =>
        have hstop : c = ',' := by
          have h := hrest c (by rw [show rest = c :: tail from hall]; rfl)
          simpa using h
        rw [hstop]
        decide
      | cons d text =>
        obtain rfl : d = c := (List.cons.inj hall).1
        have hs := h d List.mem_cons_self
        refine ⟨?_, isPlain_of_isScalar hs⟩
        rintro rfl
        exact absurd hs (by decide)
    rw [value?_bare hc.1 hc.2, ← hall, htake, hdrop]

theorem value?_quoted {body : List Char} (h : '"' ∉ body) (rest : List Char) :
    value? ('"' :: (body ++ '"' :: rest)) = .ok ('"' :: (body ++ ['"']), rest) := by
  unfold value?
  have hbare (cs : List Char) : ('"' :: cs).dropWhile (· == '?') = '"' :: cs := by simp
  simp only [hbare, List.head?_cons, Option.any_some]
  rw [if_neg (by decide)]
  simp only [cutAt?_append h]
  have hcut : cut (body.length + 2) ('"' :: (body ++ '"' :: rest)) =
      ('"' :: (body ++ ['"']), rest) := by
    unfold cut
    rw [show '"' :: (body ++ '"' :: rest) = ('"' :: (body ++ ['"'])) ++ rest by simp]
    rw [List.take_left' (by simp), List.drop_left' (by simp)]
  rw [hcut]

theorem value?_bracketed {o c : Char} {body : List Char} (opening : isOpening o = true)
    (closing : isClosing c = true) (inner : Enclosed (fun _ => true) body) (rest : List Char) :
    value? (o :: (body ++ c :: rest)) = .ok (o :: (body ++ [c]), rest) := by
  have hmark : o ≠ '?' := by
    rintro rfl
    contradiction
  have hbare (cs : List Char) : (o :: cs).dropWhile (· == '?') = o :: cs := by simp [hmark]
  have hmarks (cs : List Char) : (o :: cs).takeWhile (· == '?') = [] := by simp [hmark]
  unfold value?
  simp only [hbare, hmarks, List.head?_cons, Option.any_some, opening]
  rw [if_pos trivial, bracketed?_whole opening closing inner]
  rfl

theorem not_mem_escapeChar {c : Char} (h : c ≠ '"') : '"' ∉ Json.escapeChar c := by
  unfold Json.escapeChar
  rw [if_neg h]
  split
  · decide
  · split
    · next hcontrol =>
      split
      · decide
      · decide
      · decide
      · decide
      · decide
      · have hhigh := (hexDigit_ne (c.toNat / 16) (by omega)).1
        have hlow := (hexDigit_ne (c.toNat % 16) (by omega)).1
        simp [Ne.symm hhigh, Ne.symm hlow]
    · simpa using Ne.symm h

/-- The value of a parameter ends where the text of a JSON value ends, unless that is a text with a
quote in it. -/
theorem value?_chars {v : Json} (hquote : ∀ s, v = .text s → '"' ∉ s.toList) {rest : List Char}
    (hrest : StopsAt (· != ',') rest) : value? (v.chars ++ rest) = .ok (v.chars, rest) := by
  cases v with
  | null => exact value?_scalar (List.all_eq_true.mp rfl) hrest
  | bool b => cases b <;> exact value?_scalar (List.all_eq_true.mp rfl) hrest
  | number n =>
    exact value?_scalar (fun c hc => isScalar_of_isNumeral (n.isNumeral_chars c hc)) hrest
  | text s =>
    have hbody : '"' ∉ s.toList.flatMap Json.escapeChar := by
      intro hmem
      obtain ⟨c, hc, hmem⟩ := List.mem_flatMap.mp hmem
      refine not_mem_escapeChar ?_ hmem
      rintro rfl
      exact hquote s rfl hc
    have h := value?_quoted hbody rest
    rw [Json.chars, Json.quote]
    simpa using h
  | list items =>
    obtain ⟨body, hbody, hinner⟩ := chars_list fun v (_ : v ∈ items) => enclosed_chars v
    rw [hbody, List.cons_append, List.append_assoc]
    exact value?_bracketed rfl rfl hinner rest
  | object members =>
    obtain ⟨body, hbody, hinner⟩ := chars_object fun m (_ : m ∈ members) => enclosed_chars m.2
    rw [hbody, List.cons_append, List.append_assoc]
    exact value?_bracketed rfl rfl hinner rest

/-- So does the value of an open slot without candidates, which is a mark alone. -/
theorem value?_mark {rest : List Char} (hrest : StopsAt (· != ',') rest) :
    value? ('?' :: rest) = .ok (['?'], rest) := by
  cases rest with
  | nil => rfl
  | cons c tail =>
    obtain rfl : c = ',' := by simpa using hrest c rfl
    rfl

theorem value?_marked (items : List Json) (rest : List Char) :
    value? ('?' :: ((Json.list items).chars ++ rest)) = .ok ('?' :: (Json.list items).chars, rest) := by
  obtain ⟨body, hbody, hinner⟩ := chars_list fun v (_ : v ∈ items) => enclosed_chars v
  have hbare (cs : List Char) : ('?' :: '[' :: cs).dropWhile (· == '?') = '[' :: cs := by simp
  have hmarks (cs : List Char) : ('?' :: '[' :: cs).takeWhile (· == '?') = ['?'] := by simp
  rw [hbody, List.cons_append, List.append_assoc]
  unfold value?
  simp only [hbare, hmarks, List.head?_cons, Option.any_some]
  rw [if_pos (by decide), List.singleton_append, bracketed?_whole rfl rfl hinner]
  rfl

/-! ## Lists of parameters -/

/-- A parameter whose value ends where its text does, and whose key ends at the equals sign. -/
structure IsParameter (key text : List Char) : Prop where
  key : '=' ∉ key
  value : ∀ rest, StopsAt (· != ',') rest → value? (text ++ rest) = .ok (text, rest)

/-- Parameters, each with a comma before it. -/
def parameterTail (parameters : List (List Char × List Char)) : List Char :=
  parameters.flatMap fun p => ',' :: (p.1 ++ '=' :: p.2)

theorem parameterTail_cons (p : List Char × List Char) (parameters : List (List Char × List Char)) :
    parameterTail (p :: parameters) = ',' :: (p.1 ++ '=' :: (p.2 ++ parameterTail parameters)) := by
  simp [parameterTail]

theorem stopsAt_parameterTail (parameters : List (List Char × List Char)) :
    StopsAt (· != ',') (parameterTail parameters) := by
  cases parameters with
  | nil => exact stopsAt_nil _
  | cons p rest => exact stopsAt_cons (by decide) _

theorem parameter?_append {key text : List Char} (h : IsParameter key text) {rest : List Char}
    (hrest : StopsAt (· != ',') rest) :
    ∃ shorter, parameter? (key ++ '=' :: (text ++ rest)) = .ok ((key, text), ⟨rest, shorter⟩) := by
  have hkey : ∀ c ∈ key, (c != '=') = true := by
    intro c hc
    rw [bne_iff_ne]
    rintro rfl
    exact h.key hc
  have hstop : StopsAt (· != '=') ('=' :: (text ++ rest)) := stopsAt_cons (by decide) _
  have htake := takeWhile_append_stop hkey hstop
  have hdrop := dropWhile_append_stop hkey hstop
  have hvalue := h.value rest hrest
  unfold parameter?
  simp only
  split
  · next hnil =>
    rw [hdrop] at hnil
    contradiction
  · next after hcons =>
    rw [hdrop] at hcons
    obtain ⟨rfl, rfl⟩ := List.cons.inj hcons
    split
    · next herror =>
      rw [hvalue] at herror
      contradiction
    · next hok =>
      rw [hvalue] at hok
      obtain ⟨rfl, rfl⟩ := Prod.mk.inj (Except.ok.inj hok)
      rw [htake]
      exact ⟨by simp only [List.length_append, List.length_cons]; omega, rfl⟩

/-- Parameters that are put one behind another with commas are found again. -/
theorem splitParameters_tail {p : List Char × List Char} {parameters : List (List Char × List Char)}
    (h : ∀ q ∈ p :: parameters, IsParameter q.1 q.2) :
    splitParameters (p.1 ++ '=' :: (p.2 ++ parameterTail parameters)) = .ok (p :: parameters) := by
  induction parameters generalizing p with
  | nil =>
    obtain ⟨_, hp⟩ := parameter?_append (h p List.mem_cons_self) (stopsAt_parameterTail [])
    rw [splitParameters, if_neg (by simp), hp]
    rfl
  | cons q parameters ih =>
    have hstop := stopsAt_parameterTail (q :: parameters)
    rw [parameterTail_cons] at hstop ⊢
    obtain ⟨_, hp⟩ := parameter?_append (h p List.mem_cons_self) hstop
    rw [splitParameters, if_neg (by simp), hp]
    simp only
    rw [if_pos trivial, ih fun r hr => h r (List.mem_cons_of_mem _ hr)]
    rfl

/-! ## Functions -/

def isLower (c : Char) : Bool := 'a' ≤ c && c ≤ 'z'

/-- The name of a function, which is made of lower case letters. -/
def IsFunctionName (name : List Char) : Prop := name ≠ [] ∧ ∀ c ∈ name, isLower c = true

theorem parenthesised?_append (inner : List Char) :
    parenthesised? ('(' :: (inner ++ [')'])) = some inner := by
  simp [parenthesised?]

/-- The text does not end with a parenthesis. -/
def EndsOpen (text : List Char) : Prop := ∀ c ∈ text.getLast?, c ≠ ')'

theorem EndsOpen.append {a b : List Char} (ha : EndsOpen a) (hb : EndsOpen b) : EndsOpen (a ++ b) := by
  intro c hc
  rw [List.getLast?_append] at hc
  rcases Option.or_eq_some_iff.mp hc with hc | ⟨-, hc⟩
  · exact hb c hc
  · exact ha c hc

theorem EndsOpen.cons {c : Char} {text : List Char} (hc : c ≠ ')') (h : EndsOpen text) :
    EndsOpen (c :: text) := by
  have hone : EndsOpen [c] := fun d hd => Option.some.inj hd ▸ hc
  exact hone.append h

theorem EndsOpen.append_cons {c : Char} {text : List Char} (h : EndsOpen (c :: text)) (start : List Char) :
    EndsOpen (start ++ c :: text) := by
  intro d hd
  rw [List.getLast?_append, List.getLast?_cons] at hd
  exact h d (List.getLast?_cons.trans hd)

theorem endsOpen_nil : EndsOpen [] := nofun

theorem Enclosed.endsOpen {p : Char → Bool} (hp : p ')' = false) {text : List Char} (h : Enclosed p text) :
    EndsOpen text := by
  rintro c hc rfl
  rcases h.getLast? _ hc with haccepted | hquote | hclosing
  · exact absurd (hp.symm.trans haccepted) Bool.false_ne_true
  · exact absurd hquote (by decide)
  · exact absurd hclosing (by decide)

/-- A text in parentheses ends with one. -/
theorem getLast?_of_parenthesised? {text inner : List Char} (h : parenthesised? text = some inner) :
    text.getLast? = some ')' := by
  unfold parenthesised? at h
  split at h
  · next rest =>
    split at h
    · next hlast => rw [List.getLast?_cons, hlast]; rfl
    · contradiction
  · contradiction

theorem functionCall?_eq (input : List Char) :
    functionCall? input =
      if (input.takeWhile isLower).isEmpty then none
      else
        match parenthesised? (input.dropWhile isLower) with
        | some inner => if inner.contains '\n' then none else some (input.takeWhile isLower, inner)
        | none => none := rfl

theorem functionCall?_call {name inner : List Char} (hname : IsFunctionName name)
    (hinner : '\n' ∉ inner) : functionCall? (name ++ '(' :: (inner ++ [')'])) = some (name, inner) := by
  have hstop : StopsAt isLower ('(' :: (inner ++ [')'])) := stopsAt_cons (by decide) _
  rw [functionCall?_eq, takeWhile_append_stop hname.2 hstop, dropWhile_append_stop hname.2 hstop,
    if_neg (by simpa using hname.1), parenthesised?_append]
  simp [hinner]

/-- A text that does not end with a parenthesis is no call of a function. -/
theorem functionCall?_eq_none {text : List Char} (h : EndsOpen text) : functionCall? text = none := by
  have hinner : parenthesised? (text.dropWhile isLower) = none := by
    cases hrest : parenthesised? (text.dropWhile isLower) with
    | none => rfl
    | some inner =>
      have hlast : text.getLast? = some ')' := by
        rw [← List.takeWhile_append_dropWhile (p := isLower) (l := text), List.getLast?_append,
          getLast?_of_parenthesised? hrest]
        rfl
      exact absurd rfl (h ')' hlast)
  rw [functionCall?_eq, hinner]
  split <;> rfl

/-! ## Parts -/

/-- Parts between bars are found again, when no bar stands outside the brackets of a part. -/
theorem splitTop_intercalate {p : Char → Bool} (hp : p '|' = false) {part : List Char}
    {parts : List (List Char)} (h : ∀ t ∈ part :: parts, Enclosed p t) :
    splitTop '|' 0 .outside (part ++ parts.flatMap ('|' :: ·)) = part :: parts := by
  induction parts generalizing part with
  | nil =>
    rw [splitTop_enclosed (h part List.mem_cons_self) (by decide) (fun _ => hp) (by decide)]
    simp [splitTop, prepend]
  | cons q parts ih =>
    have hrest := ih fun t ht => h t (List.mem_cons_of_mem _ ht)
    rw [splitTop_enclosed (h part List.mem_cons_self) (by decide) (fun _ => hp) (by decide),
      List.flatMap_cons, List.cons_append, splitTop, if_pos (by simp), hrest]
    simp [prepend]

end Shorthand
end ChartAdvisor
