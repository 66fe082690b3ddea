import ChartAdvisor.Proofs.Json.Numerals
import ChartAdvisor.Proofs.Json.Ordering

/-!
# JSON values read back from their own text

A value is legible when the reader can make it of its text: its objects list their members by
ascending key, its floating point numbers are what the reader computes, and not too many lists and
objects stand inside one another. Texts and integers are always legible.

The reader goes on from where the text of a value ends, so the lemmas are about a text with more
behind it; only a numeral minds what that is.
-/
namespace ChartAdvisor
namespace Json

open Text

/-! ## Quoted texts -/

theorem hexValue4?_control : ∀ n < 32, hexValue4? '0' '0' (hexDigit (n / 16)) (hexDigit (n % 16)) =
    some n := by
  decide

theorem readCodes?_unescape {e c : Char} (hu : e ≠ 'u') (h : unescape? e = some c)
    (tail : List Char) :
    readCodes? ('\\' :: e :: tail) = (readCodes? tail).map fun r => (c.toNat :: r.1, r.2) := by
  rw [readCodes?.eq_4 e tail fun _ _ _ _ _ hc _ => hu hc, h]
  cases readCodes? tail <;> rfl

theorem readCodes?_plain {c : Char} (hquote : c ≠ '"') (hescape : c ≠ '\\') (hc : ¬c.toNat < 32)
    (tail : List Char) :
    readCodes? (c :: tail) = (readCodes? tail).map fun r => (c.toNat :: r.1, r.2) := by
  rw [readCodes?.eq_5 c tail hquote (fun _ _ _ _ _ h _ => hescape h) (fun _ _ h _ => hescape h),
    if_neg (not_or.mpr ⟨hescape, hc⟩)]
  cases readCodes? tail <;> rfl

theorem readCodes?_escapeChar (c : Char) (tail : List Char) :
    readCodes? (escapeChar c ++ tail) = (readCodes? tail).map fun r => (c.toNat :: r.1, r.2) := by
  unfold escapeChar
  split
  · next h =>
    subst h
    exact readCodes?_unescape (by decide) rfl tail
  · next hquote =>
    split
    · next h =>
      subst h
      exact readCodes?_unescape (by decide) rfl tail
    · next hescape =>
      split
      · next hcontrol =>
        split
        · next h => exact h ▸ readCodes?_unescape (e := 'b') (c := '\x08') (by decide) rfl tail
        · next h => exact h ▸ readCodes?_unescape (e := 't') (c := '\t') (by decide) rfl tail
        · next h => exact h ▸ readCodes?_unescape (e := 'n') (c := '\n') (by decide) rfl tail
        · next h => exact h ▸ readCodes?_unescape (e := 'f') (c := '\x0c') (by decide) rfl tail
        · next h => exact h ▸ readCodes?_unescape (e := 'r') (c := '\r') (by decide) rfl tail
        · have hhex := hexValue4?_control c.toNat hcontrol
          simp only [List.cons_append, List.nil_append, readCodes?.eq_3, hhex]
          cases readCodes? tail <;> rfl
      · next hplain => exact readCodes?_plain hquote hescape hplain tail

theorem readCodes?_escaped (cs tail : List Char) :
    readCodes? (cs.flatMap escapeChar ++ '"' :: tail) = some (cs.map Char.toNat, tail) := by
  induction cs with
  | nil => rfl
  | cons c cs ih =>
    rw [List.flatMap_cons, List.append_assoc, readCodes?_escapeChar, ih]
    rfl

/-- A character is no half of another one. -/
theorem not_half (c : Char) : isLead c.toNat = false ∧ isTrail c.toNat = false := by
  have hvalid : c.toNat < 0xD800 ∨ 0xDFFF < c.toNat ∧ c.toNat < 0x110000 := c.valid
  unfold isLead isTrail
  simp only [Bool.and_eq_false_iff, decide_eq_false_iff_not]
  omega

theorem ofCodes?_toNat (cs : List Char) : ofCodes? (cs.map Char.toNat) = some cs := by
  induction cs with
  | nil => rfl
  | cons c cs ih =>
    obtain ⟨hlead, htrail⟩ := not_half c
    cases cs with
    | nil => simp [ofCodes?, hlead, htrail]
    | cons d cs =>
      rw [List.map_cons, List.map_cons, ofCodes?, ← List.map_cons, ih]
      simp [hlead, htrail]

theorem textOfCodes_toNat (s : String) : textOfCodes (s.toList.map Char.toNat) = .text s := by
  unfold textOfCodes
  rw [ofCodes?_toNat]
  simp

/-! ## Legible values -/

/-- Values that the reader makes of their text where at most `depth` lists and objects may stand
inside one another. -/
inductive Legible : (depth : Nat) → Json → Prop
  | null {depth : Nat} : Legible depth .null
  | bool {depth : Nat} (b : Bool) : Legible depth (.bool b)
  | number {depth : Nat} {n : Number} (legible : n.IsLegible) : Legible depth (.number n)
  | text {depth : Nat} (s : String) : Legible depth (.text s)
  | list {depth : Nat} {items : List Json} (legible : ∀ v ∈ items, Legible depth v) :
      Legible (depth + 1) (.list items)
  | object {depth : Nat} {members : Members} (ordered : Table.Ascending members)
      (legible : ∀ m ∈ members, Legible depth m.2) : Legible (depth + 1) (.object members)

theorem itemsToJson?_ofItems {depth : Nat} {items : List Json}
    (h : ∀ v ∈ items, (Document.ofJson v).toJson? .byMeaning depth = some v) :
    Document.itemsToJson? .byMeaning depth (Document.ofItems items) = some items := by
  induction items with
  | nil => rfl
  | cons v rest ih =>
    rw [Document.ofItems, Document.itemsToJson?, h v List.mem_cons_self,
      ih fun w hw => h w (List.mem_cons_of_mem _ hw)]
    rfl

theorem entriesToJson?_ofMembers {depth : Nat} {members : Members}
    (h : ∀ m ∈ members, (Document.ofJson m.2).toJson? .byMeaning depth = some m.2) :
    Document.entriesToJson? .byMeaning depth (Document.ofMembers members) = some members := by
  induction members with
  | nil => rfl
  | cons m rest ih =>
    obtain ⟨k, v⟩ := m
    have hv : (Document.ofJson v).toJson? .byMeaning depth = some v := h (k, v) List.mem_cons_self
    rw [Document.ofMembers, Document.entriesToJson?, hv,
      ih fun n hn => h n (List.mem_cons_of_mem _ hn)]
    rfl

/-- The document that a legible value is written as has the value as its meaning. -/
theorem Legible.toJson?_ofJson {depth : Nat} {v : Json} (h : v.Legible depth) :
    (Document.ofJson v).toJson? .byMeaning depth = some v := by
  induction h with
  | null => rw [Document.ofJson, Document.toJson?.eq_def]; rfl
  | bool b => rw [Document.ofJson, Document.toJson?.eq_def]; rfl
  | number _ => rw [Document.ofJson, Document.toJson?.eq_def]; rfl
  | text s => rw [Document.ofJson, Document.toJson?.eq_def]; rfl
  | list _ ih =>
    rw [Document.ofJson, Document.toJson?, itemsToJson?_ofItems ih]
    rfl
  | object ordered _ ih =>
    rw [Document.ofJson, Document.toJson?, entriesToJson?_ofMembers ih, Option.map_some,
      extend_nil_of_ascending ordered]

theorem Legible.ordered {depth : Nat} {v : Json} (h : v.Legible depth) : v.Ordered := by
  induction h with
  | null => exact .null
  | bool b => exact .bool b
  | number _ => exact .number _
  | text s => exact .text s
  | list _ ih => exact .list ih
  | object ascending _ ih => exact .object ascending ih

/-! ## Reading the text of a value -/

theorem skipBlanks_cons {c : Char} (h : isBlank c = false) (cs : List Char) :
    skipBlanks (c :: cs) = c :: cs := by
  rw [skipBlanks, List.dropWhile_cons, h]
  rfl

theorem isBlank_of_isNumeral {c : Char} (h : Number.isNumeral c = true) : isBlank c = false := by
  cases hb : isBlank c with
  | false => rfl
  | true =>
    simp only [isBlank, Bool.or_eq_true, beq_iff_eq] at hb
    rcases hb with ((rfl | rfl) | rfl) | rfl <;> exact absurd h (by decide)

/-- The text of a legible value starts with a character of its own. -/
theorem Legible.exists_cons {depth : Nat} {v : Json} (h : v.Legible depth) :
    ∃ c cs, v.chars = c :: cs ∧ isBlank c = false ∧ c ≠ ']' ∧ c ≠ '}' := by
  cases h with
  | null => exact ⟨_, _, rfl, by decide⟩
  | bool b => cases b <;> exact ⟨_, _, rfl, by decide⟩
  | @number _ n hn =>
    obtain ⟨c, cs, hcs⟩ := List.exists_cons_of_ne_nil (Number.chars_ne_nil_of_isLegible hn)
    have hc : Number.isNumeral c = true := n.isNumeral_chars c (hcs ▸ List.mem_cons_self)
    refine ⟨c, cs, hcs, ?_, ?_, ?_⟩
    · exact isBlank_of_isNumeral hc
    · rintro rfl
      exact absurd hc (by decide)
    · rintro rfl
      exact absurd hc (by decide)
  | text s => exact ⟨_, _, rfl, by decide⟩
  | @list _ items _ => cases items <;> exact ⟨_, _, rfl, by decide⟩
  | @object _ members _ _ => cases members <;> exact ⟨_, _, rfl, by decide⟩

/-- Given enough fuel, the reader takes the value out of a text that starts with its own text. -/
def IsTaken (v : Json) : Prop :=
  ∀ fuel rest, 2 * v.chars.length ≤ fuel → StopsAt Number.isNumeral rest →
    readValue? fuel (v.chars ++ rest) = some (Document.ofJson v, rest)

theorem isTaken_number {n : Number} (h : n.IsLegible) : (number n).IsTaken := by
  intro fuel rest hfuel hrest
  obtain ⟨c, cs, hcs⟩ := List.exists_cons_of_ne_nil (Number.chars_ne_nil_of_isLegible h)
  have hc : Number.isNumeral c = true := n.isNumeral_chars c (hcs ▸ List.mem_cons_self)
  have hread : readNumber? (c :: (cs ++ rest)) = some (.number n, rest) := by
    have happend := Number.readNumber?_append h hrest
    rwa [hcs] at happend
  rw [chars, hcs] at hfuel ⊢
  cases fuel with
  | zero => simp at hfuel
  | succ fuel =>
    rw [readValue?, List.cons_append, skipBlanks_cons (isBlank_of_isNumeral hc)]
    split
    all_goals
      first
      | next heq =>
        rw [(List.cons.inj heq).1] at hc
        exact absurd hc (by decide)
      | skip
    rw [hread]
    rfl

theorem isTaken_text (s : String) : (text s).IsTaken := by
  intro fuel rest hfuel hrest
  cases fuel with
  | zero => simp [chars, quote] at hfuel
  | succ fuel =>
    have hchars : (text s).chars ++ rest = '"' :: (s.toList.flatMap escapeChar ++ '"' :: rest) := by
      simp [chars, quote]
    rw [hchars, readValue?, skipBlanks_cons (by decide)]
    simp only [readCodes?_escaped, Option.bind_eq_bind, Option.bind_some, textOfCodes_toNat]
    rfl

theorem readItems?_chars {v : Json} {items : List Json} (hv : v.IsTaken)
    (hitems : ∀ w ∈ items, w.IsTaken) {fuel : Nat} (tail : List Char)
    (hfuel : 2 * (v.chars ++ itemChars items).length < fuel) :
    readItems? fuel (v.chars ++ (itemChars items ++ ']' :: tail)) =
      some (Document.ofItems (v :: items), tail) := by
  induction items generalizing v fuel with
  | nil =>
    cases fuel with
    | zero => omega
    | succ fuel =>
      rw [itemChars, List.append_nil] at hfuel
      have htaken := hv fuel (']' :: tail) (by omega) (stopsAt_cons (by decide) tail)
      simp only [readItems?, itemChars, List.nil_append, htaken]
      rfl
  | cons w items ih =>
    cases fuel with
    | zero => omega
    | succ fuel =>
      simp only [itemChars, List.length_append, List.length_cons] at hfuel
      have htaken := hv fuel (',' :: (w.chars ++ (itemChars items ++ ']' :: tail))) (by omega)
        (stopsAt_cons (by decide) _)
      have hlength : 2 * (w.chars ++ itemChars items).length < fuel := by
        rw [List.length_append]
        omega
      have hrest := ih (hitems w List.mem_cons_self)
        (fun u hu => hitems u (List.mem_cons_of_mem _ hu)) hlength
      have hskip (cs : List Char) : skipBlanks (',' :: cs) = ',' :: cs := rfl
      simp only [readItems?, itemChars, List.cons_append, List.append_assoc, htaken,
        Option.bind_eq_bind, Option.bind_some, hskip, hrest]
      rfl

theorem isTaken_list {depth : Nat} {items : List Json} (legible : ∀ v ∈ items, Legible depth v)
    (hitems : ∀ v ∈ items, v.IsTaken) : (list items).IsTaken := by
  intro fuel rest hfuel hrest
  cases fuel with
  | zero => cases items <;> simp [chars] at hfuel
  | succ fuel =>
    cases items with
    | nil => rfl
    | cons v items =>
      obtain ⟨c, cs, hcs, hblank, hclose, -⟩ := (legible v List.mem_cons_self).exists_cons
      have hlength : 2 * (v.chars ++ itemChars items).length < fuel := by
        simp only [chars, List.length_cons, List.length_append, List.length_nil] at hfuel ⊢
        omega
      have hread := readItems?_chars (hitems v List.mem_cons_self)
        (fun w hw => hitems w (List.mem_cons_of_mem _ hw)) rest hlength
      have hopen (cs : List Char) : skipBlanks ('[' :: cs) = '[' :: cs := rfl
      simp only [chars, List.cons_append, List.append_assoc, List.nil_append, readValue?, hopen]
      rw [hcs, List.cons_append] at hread ⊢
      rw [skipBlanks_cons hblank]
      split
      · next heq => exact absurd (List.cons.inj heq).1 hclose
      · rw [hread]
        rfl

theorem readEntries?_chars {k : String} {v : Json} {members : Members} (hv : v.IsTaken)
    (hmembers : ∀ m ∈ members, m.2.IsTaken) {fuel : Nat} (tail : List Char)
    (hfuel : 2 * (v.chars ++ memberChars members).length < fuel) :
    readEntries? fuel (quote k ++ ':' :: (v.chars ++ (memberChars members ++ '}' :: tail))) =
      some (Document.ofMembers ((k, v) :: members), tail) := by
  have hquote (k : String) (cs : List Char) :
      quote k ++ cs = '"' :: (k.toList.flatMap escapeChar ++ '"' :: cs) := by simp [quote]
  have hopen (cs : List Char) : skipBlanks ('"' :: cs) = '"' :: cs := rfl
  have hcolon (cs : List Char) : skipBlanks (':' :: cs) = ':' :: cs := rfl
  induction members generalizing k v fuel with
  | nil =>
    cases fuel with
    | zero => omega
    | succ fuel =>
      rw [memberChars, List.append_nil] at hfuel
      have htaken := hv fuel ('}' :: tail) (by omega) (stopsAt_cons (by decide) tail)
      simp only [readEntries?, memberChars, List.nil_append, hquote, hopen, readCodes?_escaped,
        Option.bind_eq_bind, Option.bind_some, hcolon, htaken, textOfCodes_toNat]
      rfl
  | cons m members ih =>
    obtain ⟨l, w⟩ := m
    cases fuel with
    | zero => omega
    | succ fuel =>
      simp only [memberChars, List.length_append, List.length_cons] at hfuel
      have htaken := hv fuel
        (',' :: (quote l ++ ':' :: (w.chars ++ (memberChars members ++ '}' :: tail)))) (by omega)
        (stopsAt_cons (by decide) _)
      have hlength : 2 * (w.chars ++ memberChars members).length < fuel := by
        rw [List.length_append]
        omega
      have hrest := ih (k := l) (hmembers (l, w) List.mem_cons_self)
        (fun n hn => hmembers n (List.mem_cons_of_mem _ hn)) hlength
      have hskip (cs : List Char) : skipBlanks (',' :: cs) = ',' :: cs := rfl
      rw [hquote, readEntries?, hopen]
      simp only [readCodes?_escaped, memberChars, List.cons_append, List.append_assoc,
        Option.bind_eq_bind, Option.bind_some, hcolon, htaken, hskip, hrest, textOfCodes_toNat]
      rfl

theorem isTaken_object {members : Members} (hmembers : ∀ m ∈ members, m.2.IsTaken) :
    (object members).IsTaken := by
  intro fuel rest hfuel hrest
  cases fuel with
  | zero => cases members <;> simp [chars] at hfuel
  | succ fuel =>
    cases members with
    | nil => rfl
    | cons m members =>
      obtain ⟨k, v⟩ := m
      have hlength : 2 * (v.chars ++ memberChars members).length < fuel := by
        simp only [chars, List.length_cons, List.length_append, List.length_nil] at hfuel ⊢
        omega
      have hv : v.IsTaken := hmembers (k, v) List.mem_cons_self
      have hread := readEntries?_chars (k := k) hv
        (fun n hn => hmembers n (List.mem_cons_of_mem _ hn)) rest hlength
      have hopen (cs : List Char) : skipBlanks ('\x7b' :: cs) = '\x7b' :: cs := rfl
      have hquote (cs : List Char) : quote k ++ cs = '"' :: ((quote k).tail ++ cs) := rfl
      simp only [chars, List.cons_append, List.append_assoc, List.nil_append, readValue?, hopen]
      rw [hquote] at hread ⊢
      rw [skipBlanks_cons (by decide)]
      split
      · next heq => exact absurd (List.cons.inj heq).1 (by decide)
      · rw [hread]
        rfl

theorem Legible.isTaken {depth : Nat} {v : Json} (h : v.Legible depth) : v.IsTaken := by
  induction h with
  | null =>
    intro fuel rest hfuel _
    cases fuel with
    | zero => simp [chars] at hfuel
    | succ fuel => rfl
  | bool b =>
    intro fuel rest hfuel _
    cases fuel with
    | zero => cases b <;> simp [chars] at hfuel
    | succ fuel => cases b <;> rfl
  | number h => exact isTaken_number h
  | text s => exact isTaken_text s
  | list h ih => exact isTaken_list h ih
  | object _ _ ih => exact isTaken_object ih

theorem Legible.readDocument?_chars {depth : Nat} {v : Json} (h : v.Legible depth) :
    readDocument? v.chars = some (Document.ofJson v) := by
  have htaken := h.isTaken (2 * v.chars.length + 2) [] (by omega) (stopsAt_nil _)
  rw [List.append_nil] at htaken
  rw [readDocument?, htaken]
  rfl

/-- A legible value reads back from its own text. -/
theorem Legible.read?_chars {v : Json} (h : v.Legible depthLimit) : read? v.chars = some v := by
  rw [read?, h.readDocument?_chars, Option.bind_some, h.toJson?_ofJson]

theorem mapM_read?_ofItems {depth : Nat} {items : List Json} (h : ∀ v ∈ items, v.Legible depth) :
    (Document.ofItems items).mapM (Readable.read? (α := Json) .byMeaning depth) = some items := by
  induction items with
  | nil => rfl
  | cons v rest ih =>
    have hv : Readable.read? (α := Json) .byMeaning depth (Document.ofJson v) = some v :=
      (h v List.mem_cons_self).toJson?_ofJson
    rw [Document.ofItems, List.mapM_cons, hv, ih fun w hw => h w (List.mem_cons_of_mem _ hw)]
    rfl

/-- So does a list of values, each inside one list. -/
theorem readTextAs?_list {items : List Json} (h : ∀ v ∈ items, v.Legible (depthLimit - 1)) :
    readTextAs? (List Json) (list items).chars = some items := by
  have hlegible : (list items).Legible depthLimit := .list h
  rw [readTextAs?, hlegible.readDocument?_chars, Option.bind_some]
  exact mapM_read?_ofItems h

end Json
end ChartAdvisor
