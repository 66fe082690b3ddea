import ChartAdvisor.Proofs.Shorthand.Enclosure

/-!
# Cutting a text and putting it together again

A text is cut at the delimiters that stand outside its brackets and quotes. Texts that a scan leaves as it
enters them, and that have no such delimiter themselves, are found again between the delimiters that join
them, whatever brackets they hold; and the pieces of any text at all make up the text again. A list or an
object in JSON ends, wherever it stands, at the bracket that closes its first one.
-/
namespace ChartAdvisor
namespace Shorthand

/-! ## Places -/

/-- A place in a text as a scan knows it: the brackets that are open there, and how it stands to quotes. -/
structure Place where
  depth : Int := 0
  quoting : Quoting := .outside
deriving DecidableEq

namespace Place

/-- The place behind a character. -/
def next (p : Place) (c : Char) : Place where
  depth := if p.quoting = .outside then p.depth + bracketStep c else p.depth
  quoting := p.quoting.next c

/-- The place behind a text. -/
def behind (p : Place) (text : List Char) : Place := text.foldl next p

theorem behind_cons (p : Place) (c : Char) (text : List Char) :
    p.behind (c :: text) = (p.next c).behind text := rfl

end Place

/-- No delimiter of a text stands where a scan that comes to the text at a place would cut it. -/
def Uncut (delimiter : Char) (p : Place) (text : List Char) : Prop :=
  ∀ n < text.length, text[n]? = some delimiter → p.behind (text.take n) ≠ {}

instance (delimiter : Char) (p : Place) (text : List Char) : Decidable (Uncut delimiter p text) :=
  inferInstanceAs (Decidable (∀ n < text.length, _))

/-- A text that is not cut, and behind which a scan stands outside quotes with as many brackets closed as
opened. The brackets need not match: a bracket may close before one opens. -/
structure IsPart (delimiter : Char) (text : List Char) : Prop where
  uncut : Uncut delimiter {} text
  ends : Place.behind {} text = {}

instance (delimiter : Char) (text : List Char) : Decidable (IsPart delimiter text) :=
  decidable_of_iff (Uncut delimiter {} text ∧ Place.behind {} text = {})
    ⟨fun h => ⟨h.1, h.2⟩, fun h => ⟨h.uncut, h.ends⟩⟩

/-! ## Parts -/

section Split

variable {delimiter : Char}

theorem Uncut.head {p : Place} {c : Char} {text : List Char} (h : Uncut delimiter p (c :: text)) :
    ¬(p.quoting = .outside ∧ p.depth = 0 ∧ c = delimiter) := by
  rintro ⟨hquoting, hdepth, rfl⟩
  refine h 0 (Nat.zero_lt_succ _) rfl ?_
  obtain ⟨depth, quoting⟩ := p
  obtain rfl : depth = 0 := hdepth
  obtain rfl : quoting = .outside := hquoting
  rfl

theorem Uncut.tail {p : Place} {c : Char} {text : List Char} (h : Uncut delimiter p (c :: text)) :
    Uncut delimiter (p.next c) text := fun n hn hc => h (n + 1) (Nat.succ_lt_succ hn) hc

/-- A text that is not cut goes to the piece behind it, which starts at the place behind the text. -/
theorem splitTop_uncut {p : Place} {text : List Char} (h : Uncut delimiter p text) (rest : List Char) :
    splitTop delimiter p.depth p.quoting (text ++ rest) =
      prepend text (splitTop delimiter (p.behind text).depth (p.behind text).quoting rest) := by
  induction text generalizing p with
  | nil => exact (prepend_nil _).symm
  | cons c text ih =>
    have htail := ih h.tail
    rw [List.cons_append, splitTop_cons h.head, Place.behind_cons]
    exact (congrArg (prepend [c]) htail).trans (prepend_prepend [c] text _)

theorem IsPart.splitTop_append {text : List Char} (h : IsPart delimiter text) (rest : List Char) :
    splitTop delimiter 0 .outside (text ++ rest) =
      prepend text (splitTop delimiter 0 .outside rest) := by
  have hsplit := splitTop_uncut h.uncut rest
  rwa [h.ends] at hsplit

/-- Parts that are joined by a delimiter are found again. -/
theorem splitTop_joined {parts : List (List Char)} (hne : parts ≠ [])
    (h : ∀ text ∈ parts, IsPart delimiter text) :
    splitTop delimiter 0 .outside (List.intercalate [delimiter] parts) = parts := by
  induction parts with
  | nil => contradiction
  | cons part parts ih =>
    have hpart := h part List.mem_cons_self
    cases parts with
    | nil =>
      have hsplit := hpart.splitTop_append []
      rw [List.append_nil] at hsplit
      rw [List.intercalate_singleton, hsplit]
      simp [splitTop, prepend]
    | cons q parts =>
      have hrest := ih (List.cons_ne_nil _ _) fun text ht => h text (List.mem_cons_of_mem _ ht)
      rw [List.intercalate_cons_cons, List.append_assoc, hpart.splitTop_append, List.singleton_append,
        splitTop, if_pos ⟨rfl, rfl, rfl⟩, hrest]
      simp [prepend]

theorem intercalate_prepend (text : List Char) {pieces : List (List Char)} (hne : pieces ≠ []) :
    List.intercalate [delimiter] (prepend text pieces) =
      text ++ List.intercalate [delimiter] pieces := by
  cases pieces with
  | nil => contradiction
  | cons piece pieces =>
    cases pieces with
    | nil => simp [prepend]
    | cons q pieces => simp [prepend, List.intercalate_cons_cons]

/-- Nothing is lost where a text is cut, from whatever place on it is scanned. -/
theorem intercalate_splitTop (depth : Int) (quoting : Quoting) (text : List Char) :
    List.intercalate [delimiter] (splitTop delimiter depth quoting text) = text := by
  induction text generalizing depth quoting with
  | nil => simp [splitTop]
  | cons c text ih =>
    by_cases hcut : quoting = .outside ∧ depth = 0 ∧ c = delimiter
    · have hne : splitTop delimiter depth quoting text ≠ [] := splitTop_ne_nil depth quoting text
      obtain ⟨piece, pieces, hpieces⟩ := List.exists_cons_of_ne_nil hne
      have hrest := ih depth quoting
      rw [splitTop, if_pos hcut, hcut.2.2]
      rw [hpieces] at hrest ⊢
      rw [List.intercalate_cons_cons, hrest]
      rfl
    · rw [splitTop_cons hcut, intercalate_prepend _ (splitTop_ne_nil _ _ _), ih]
      rfl

end Split

/-! ## Closing brackets -/

/-- The bytes that a text takes in UTF-8. -/
def byteLength : List Char → Nat
  | [] => 0
  | c :: text => c.utf8Size + byteLength text

theorem byteLength_append (a b : List Char) : byteLength (a ++ b) = byteLength a + byteLength b := by
  induction a with
  | nil => simp [byteLength]
  | cons c a ih => simp [byteLength, ih, Nat.add_assoc]

/-- The text behind a number of bytes; there is none if that is inside a character or behind the text. -/
def dropBytes? : Nat → List Char → Option (List Char)
  | 0, text => some text
  | _ + 1, [] => none
  | n + 1, c :: text => if c.utf8Size ≤ n + 1 then dropBytes? (n + 1 - c.utf8Size) text else none

theorem dropBytes?_append (before after : List Char) :
    dropBytes? (byteLength before) (before ++ after) = some after := by
  induction before with
  | nil => cases after <;> rfl
  | cons c before ih =>
    have hpos := c.utf8Size_pos
    obtain ⟨n, hn⟩ : ∃ n, byteLength (c :: before) = n + 1 :=
      ⟨byteLength (c :: before) - 1, by rw [byteLength]; omega⟩
    have hrest : n + 1 - c.utf8Size = byteLength before := by rw [byteLength] at hn; omega
    rw [hn, List.cons_append, dropBytes?, if_pos (by rw [byteLength] at hn; omega), hrest, ih]

/-- The place of the bracket that closes the one at a place, both counted in bytes. -/
def closing? (text : List Char) (start : Nat) : Option Nat :=
  ((dropBytes? start text).bind (bracketed? 0 .outside)).map fun (inner, _) =>
    start + byteLength inner - 1

/-- A list or an object ends at the bracket that closes its first one. -/
theorem bracketed?_chars {v : Json} (hv : (∃ items, v = .list items) ∨ ∃ members, v = .object members)
    (rest : List Char) : bracketed? 0 .outside (v.chars ++ rest) = some (v.chars, rest) := by
  rcases hv with ⟨items, rfl⟩ | ⟨members, rfl⟩
  · obtain ⟨body, hbody, hinner⟩ := chars_list fun v (_ : v ∈ items) => enclosed_chars v
    rw [hbody, List.cons_append, List.append_assoc]
    exact bracketed?_whole rfl rfl hinner rest
  · obtain ⟨body, hbody, hinner⟩ := chars_object fun m (_ : m ∈ members) => enclosed_chars m.2
    rw [hbody, List.cons_append, List.append_assoc]
    exact bracketed?_whole rfl rfl hinner rest

theorem closing?_chars {v : Json} (hv : (∃ items, v = .list items) ∨ ∃ members, v = .object members)
    (before after : List Char) :
    closing? (before ++ v.chars ++ after) (byteLength before) =
      some (byteLength (before ++ v.chars) - 1) := by
  unfold closing?
  rw [List.append_assoc, dropBytes?_append, Option.bind_some, bracketed?_chars hv, byteLength_append]
  rfl

/-! ## Both -/

/-- Scans respect JSON. The bracket that closes the first one of a list or an object is where its text
ends, whatever stands before and behind it. Texts that are no more than parts are found again between the
bars that join them. And the pieces of any text, with bars between them, are the text. -/
theorem scans_respect_json :
    (∀ (v : Json), ((∃ items, v = .list items) ∨ ∃ members, v = .object members) →
      ∀ before after : List Char,
        closing? (before ++ v.chars ++ after) (byteLength before) =
            some (byteLength (before ++ v.chars) - 1) ∧
          bracketed? 0 .outside (v.chars ++ after) = some (v.chars, after)) ∧
    (∀ parts : List (List Char), parts ≠ [] → (∀ text ∈ parts, IsPart '|' text) →
      splitTop '|' 0 .outside (List.intercalate ['|'] parts) = parts) ∧
    ∀ text : List Char, List.intercalate ['|'] (splitTop '|' 0 .outside text) = text :=
  ⟨fun _ hv before after => ⟨closing?_chars hv before after, bracketed?_chars hv after⟩,
    fun _ => splitTop_joined, intercalate_splitTop 0 .outside⟩

/-- Parts with a bar in quotes, with a bar behind a bracket that closes too early, and with nothing at all. -/
def barredParts : List (List Char) :=
  [['"', '\\', '"', '|', '"'], [']', '|', '['], [], ['\x7b', '|', ']']]

/-- So it is with a list of a text that has a bracket and a quote in it, and with parts that hold bars. -/
theorem scans_respect_json_barredParts :
    closing? (['é', '='] ++ (Json.list [.text "]\""]).chars ++ [',', ']']) 3 = some 9 ∧
      (∀ text ∈ barredParts, IsPart '|' text) ∧
      splitTop '|' 0 .outside (List.intercalate ['|'] barredParts) = barredParts := by
  obtain ⟨hclosing, hsplit, -⟩ := scans_respect_json
  have hparts : ∀ text ∈ barredParts, IsPart '|' text := by decide
  have hlist := (hclosing (.list [.text "]\""]) (.inl ⟨_, rfl⟩) ['é', '='] [',', ']']).1
  exact ⟨hlist, hparts, hsplit barredParts (by decide) hparts⟩

end Shorthand
end ChartAdvisor
