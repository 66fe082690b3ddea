import ChartAdvisor.Proofs.Shorthand.Parameters

/-!
# The text of a field

A recoverable field has at most one function, or some of its functions are open. Its text is the name of
the field, its type and its parameters, with the function and parentheses around them if there is
one; open functions stand in an object. Nothing in that text stands where it would be taken for the end
of a part or of a parameter, nor for the end of a line in the call of a function.
-/
namespace ChartAdvisor

namespace Shorthand

open Text

/-! ## The function of a field -/

theorem function?_aggregate (q : FieldEncoding) (op : Aggregate) :
    function? Include.all [] { q.withoutFunction with aggregate := .fixed (some op) } =
      some (Vocabulary.name op) := rfl

theorem function?_timeUnit (q : FieldEncoding) (unit : TimeUnit) :
    function? Include.all [] { q.withoutFunction with timeUnit := .fixed (some unit) } =
      some (Vocabulary.name unit) := rfl

theorem function?_bin (q : FieldEncoding) (b : Bin) :
    function? Include.all [] { q.withoutFunction with bin := some (.on b) } = some "bin" := rfl

theorem function?_withoutFunction (q : FieldEncoding) :
    function? Include.all [] q.withoutFunction = none := rfl

/-- The open functions of a field and whether it must have one, by ascending name. -/
def functionParts (q : FieldEncoding) : List (String × Option Json) := [
  ("aggregate", q.aggregate.wildcard?.map functionWildcard),
  ("bin", (q.bin.bind fun t => t.flag.wildcard?).map functionWildcard),
  ("hasFn", if q.hasFunction then some (.bool true) else none),
  ("timeUnit", q.timeUnit.wildcard?.map functionWildcard)]

theorem openFunctions_eq {q : FieldEncoding} (h : q.hasOpenFunction = true) :
    Json.object (openFunctions Include.all q) = .ofPresent (functionParts q) := by
  revert h
  unfold FieldEncoding.hasOpenFunction FieldEncoding.binIsOpen openFunctions functionParts Json.ofPresent
  rcases q.aggregate with _ | _ <;> rcases q.bin with _ | _ | _ | _ <;>
    rcases q.timeUnit with _ | _ <;> cases q.hasFunction <;> intro h <;>
    first | rfl | exact absurd h Bool.false_ne_true

theorem toList_marked (v : Json) : ("?" ++ v.compact).toList = '?' :: v.chars := by
  simp [Json.compact]

theorem function?_opened {q : FieldEncoding} (isOpen : q.hasOpenFunction = true)
    (aggregate : q.aggregate? = none) (timeUnit : q.timeUnit? = none) (bin : q.isBinned = false) :
    function? Include.all [] q = some ("?" ++ (Json.ofPresent (functionParts q)).compact) := by
  have hsome : (openFunctions Include.all q).isEmpty = false := by
    clear aggregate timeUnit bin
    revert isOpen
    unfold FieldEncoding.hasOpenFunction FieldEncoding.binIsOpen openFunctions
    rcases q.aggregate with _ | _ <;> rcases q.bin with _ | _ | _ | _ <;>
      rcases q.timeUnit with _ | _ <;> cases q.hasFunction <;> intro h <;>
      first | rfl | exact absurd h Bool.false_ne_true
  unfold function?
  simp only [aggregate, timeUnit, bin, Option.filter_none, Bool.false_and, hsome,
    openFunctions_eq isOpen]
  rfl

theorem isFunctionName_aggregate {op : Aggregate} (h : op ≠ .q1 ∧ op ≠ .q3) :
    IsFunctionName (Vocabulary.name op).toList := by
  cases op with
  | q1 => exact absurd rfl h.1
  | q3 => exact absurd rfl h.2
  | _ => exact ⟨List.cons_ne_nil _ _, List.all_eq_true.mp rfl⟩

theorem isFunctionName_timeUnit (unit : TimeUnit) : IsFunctionName (Vocabulary.name unit).toList := by
  cases unit <;> exact ⟨List.cons_ne_nil _ _, List.all_eq_true.mp rfl⟩

/-! ## What may stand in a text -/

/-- The characters that stand in escapes. -/
def isEscapeLetter (c : Char) : Bool := "\\\"btnfru0123456789acde".toList.contains c

/-- A character stands for itself, if it is no control character, or is escaped. -/
theorem escapeChar_cases (c : Char) : Json.escapeChar c = [c] ∧ ¬c.toNat < 32 ∨
    ∀ d ∈ Json.escapeChar c, isEscapeLetter d = true := by
  have hdigit : ∀ n < 16, isEscapeLetter (Json.hexDigit n) = true := by decide
  unfold Json.escapeChar
  split
  · exact .inr (List.all_eq_true.mp rfl)
  · split
    · exact .inr (List.all_eq_true.mp rfl)
    · split
      · right
        split
        · exact List.all_eq_true.mp rfl
        · exact List.all_eq_true.mp rfl
        · exact List.all_eq_true.mp rfl
        · exact List.all_eq_true.mp rfl
        · exact List.all_eq_true.mp rfl
        · have hhigh := hdigit (c.toNat / 16) (by omega)
          have hlow := hdigit (c.toNat % 16) (by omega)
          have hstart : ∀ d ∈ ['\\', 'u', '0', '0'], isEscapeLetter d = true :=
            List.all_eq_true.mp rfl
          exact List.forall_mem_append.mpr ⟨hstart, by simp [hhigh, hlow]⟩
      · next hcontrol => exact .inl ⟨rfl, hcontrol⟩

/-- A character stands in a quoted text if it stands in the text or in an escape. -/
theorem not_mem_quote {d : Char} (hescape : isEscapeLetter d = false) {s : String}
    (h : d.toNat < 32 ∨ d ∉ s.toList) : d ∉ Json.quote s := by
  have hquote : d ≠ '"' := by
    rintro rfl
    contradiction
  have hbody : d ∉ s.toList.flatMap Json.escapeChar := by
    rw [List.mem_flatMap]
    rintro ⟨c, hc, hd⟩
    rcases escapeChar_cases c with ⟨heq, hcontrol⟩ | hletters
    · rw [heq, List.mem_singleton] at hd
      subst hd
      rcases h with h | h
      · exact hcontrol h
      · exact h hc
    · exact absurd (hescape.symm.trans (hletters d hd)) Bool.false_ne_true
  simp [Json.quote, hbody, hquote]

theorem newline_not_mem_quote (s : String) : '\n' ∉ Json.quote s :=
  not_mem_quote (by decide) (.inl (by decide))

theorem newline_not_mem_itemChars {items : List Json} (h : ∀ v ∈ items, '\n' ∉ v.chars) :
    '\n' ∉ Json.itemChars items := by
  induction items with
  | nil => exact List.not_mem_nil
  | cons v rest ih =>
    have hv := h v List.mem_cons_self
    have hrest := ih fun w hw => h w (List.mem_cons_of_mem _ hw)
    simp [Json.itemChars, hv, hrest]

theorem newline_not_mem_memberChars {members : Json.Members} (h : ∀ m ∈ members, '\n' ∉ m.2.chars) :
    '\n' ∉ Json.memberChars members := by
  induction members with
  | nil => exact List.not_mem_nil
  | cons m rest ih =>
    obtain ⟨k, v⟩ := m
    have hv : '\n' ∉ v.chars := h (k, v) List.mem_cons_self
    have hrest := ih fun n hn => h n (List.mem_cons_of_mem _ hn)
    simp [Json.memberChars, newline_not_mem_quote, hv, hrest]

/-- A JSON text is a single line. -/
theorem newline_not_mem_chars (v : Json) : '\n' ∉ v.chars := by
  induction v using Json.induct with
  | null => decide
  | bool b => cases b <;> decide
  | number n => exact fun h => absurd (n.isNumeral_chars _ h) (by decide)
  | text s => exact newline_not_mem_quote s
  | list items ih =>
    cases items with
    | nil => decide
    | cons v rest =>
      have hv := ih v List.mem_cons_self
      have hrest := newline_not_mem_itemChars fun w hw => ih w (List.mem_cons_of_mem _ hw)
      simp [Json.chars, hv, hrest]
  | object members ih =>
    cases members with
    | nil => decide
    | cons m rest =>
      obtain ⟨k, v⟩ := m
      have hv : '\n' ∉ v.chars := ih (k, v) List.mem_cons_self
      have hrest := newline_not_mem_memberChars fun n hn => ih n (List.mem_cons_of_mem _ hn)
      simp [Json.chars, newline_not_mem_quote, hv, hrest]

theorem enclosed_uncut {text : List Char} (h : Enclosed isScalar text) : Enclosed isUncut text :=
  h.mono fun c hc => by
    rw [isUncut, bne_iff_ne]
    rintro rfl
    exact absurd hc (by decide)

theorem isScalar_of_isLower {c : Char} (h : isLower c = true) : isScalar c = true := by
  have hlower : c.isLower = true := h
  have halpha : c.isAlpha = true := Bool.or_eq_true_iff.mpr (.inr hlower)
  simp [isScalar, Char.isAlphanum, halpha]

theorem enclosed_lower {word : List Char} (h : ∀ c ∈ word, isLower c = true) :
    Enclosed isUncut word :=
  enclosed_uncut (enclosed_scalar fun c hc => isScalar_of_isLower (h c hc))

/-- The text of an open slot. -/
theorem enclosed_shorthand {α : Type} [Coded α] (w : Wildcard α) :
    Enclosed isUncut w.shorthand.toList := by
  rw [toList_shorthand_wildcard]
  refine .plain rfl (by decide) ?_
  cases w.candidates with
  | none => exact .nil
  | some vs => exact enclosed_uncut (enclosed_chars _)

theorem newline_not_mem_shorthand {α : Type} [Coded α] (w : Wildcard α) :
    '\n' ∉ w.shorthand.toList := by
  rw [toList_shorthand_wildcard]
  cases w.candidates <;> simp [newline_not_mem_chars]

theorem endsOpen_shorthand {α : Type} [Coded α] (w : Wildcard α) : EndsOpen w.shorthand.toList := by
  rw [toList_shorthand_wildcard]
  refine .cons (by decide) ?_
  cases w.candidates with
  | none => exact endsOpen_nil
  | some vs => exact (enclosed_chars (encode vs)).endsOpen rfl

/-! ## Parameters -/

/-- The key of a parameter is a word, and its value is found again: it ends at the next comma. -/
structure IsWritable (key text : String) : Prop where
  key : ∀ c ∈ key.toList, isLower c = true
  value : ∀ rest, StopsAt (· != ',') rest → value? (text.toList ++ rest) = .ok (text.toList, rest)
  newline : '\n' ∉ text.toList
  enclosed : Enclosed isUncut text.toList
  endsOpen : EndsOpen text.toList

theorem isWritable_json {key : String} (hkey : ∀ c ∈ key.toList, isLower c = true) {v : Json}
    (hquote : ∀ s, v = .text s → '"' ∉ s.toList) : IsWritable key v.compact := by
  have htext : v.compact.toList = v.chars := String.toList_ofList
  refine ⟨hkey, ?_, ?_, ?_, ?_⟩ <;> rw [htext]
  · exact fun _ hrest => value?_chars hquote hrest
  · exact newline_not_mem_chars v
  · exact enclosed_uncut (enclosed_chars v)
  · exact (enclosed_chars v).endsOpen rfl

theorem isWritable_shorthand {α : Type} [Coded α] {key : String}
    (hkey : ∀ c ∈ key.toList, isLower c = true) (w : Wildcard α) : IsWritable key w.shorthand := by
  refine ⟨hkey, fun rest hrest => ?_, newline_not_mem_shorthand w, enclosed_shorthand w,
    endsOpen_shorthand w⟩
  rw [toList_shorthand_wildcard]
  cases w.candidates with
  | none => exact value?_mark hrest
  | some vs => exact value?_marked _ rest

theorem isLower_binParameter (p : BinParameter) :
    ∀ c ∈ (Vocabulary.name p).toList, isLower c = true := by
  cases p <;> exact List.all_eq_true.mp rfl

theorem isWritable_of_mem_parameters {b : Bin} (h : b.IsTransparent) {p : BinParameter × Json}
    (hp : p ∈ b.parameters) : IsWritable (Vocabulary.name p.1) (binText b p) := by
  obtain ⟨p, -, hp⟩ := List.mem_filterMap.mp hp
  obtain ⟨v, hv, rfl⟩ := Option.map_eq_some_iff.mp hp
  unfold binText
  split
  · exact isWritable_shorthand (isLower_binParameter _) _
  · exact isWritable_json (isLower_binParameter p) (h.parameter p v hv).2

theorem isWritable_toggle {α : Type} (key : String) (hkey : ∀ c ∈ key.toList, isLower c = true)
    (members : α → Json.Members) (t : Toggle α) : IsWritable key (toggleText members t) := by
  cases t with
  | off => exact isWritable_json hkey fun _ h => absurd h Json.noConfusion
  | on t => exact isWritable_json hkey fun _ h => absurd h Json.noConfusion
  | wild w t =>
    rw [toggleText]
    split
    · exact isWritable_shorthand hkey w
    · exact isWritable_json hkey fun _ h => absurd h Json.noConfusion

theorem isWritable_sort (s : Slot Sorting) : IsWritable "sort" (slotText s) := by
  have hkey : ∀ c ∈ "sort".toList, isLower c = true := List.all_eq_true.mp rfl
  cases s with
  | wild w => exact isWritable_shorthand hkey w
  | fixed s =>
    refine isWritable_json hkey fun text htext => ?_
    cases s with
    | order o =>
      obtain rfl : Vocabulary.name o = text := Json.text.inj htext
      cases o <;> decide
    | field name op direction => exact absurd htext Json.noConfusion

theorem isWritable_of_mem {q : FieldEncoding} (h : q.IsRecoverable) {stackOffset : Option String}
    (hoffset : ∀ o ∈ stackOffset, '"' ∉ o.toList) {p : String × String}
    (hp : p ∈ parameterTexts q stackOffset) : IsWritable p.1 p.2 := by
  simp only [parameterTexts, List.mem_append, Option.mem_toList, Option.map_eq_some_iff] at hp
  rcases hp with ((((hbin | ⟨t, -, rfl⟩) | ⟨s, -, rfl⟩) | ⟨t, -, rfl⟩) | ⟨t, -, rfl⟩) | ⟨o, ho, rfl⟩
  · cases hb : q.bin with
    | none => simp [FieldEncoding.bin?, hb] at hbin
    | some t =>
      obtain ⟨b, hinner, htransparent⟩ := h.exists_bin hb
      rw [hinner, Option.map_some, Option.getD_some] at hbin
      obtain ⟨x, hx, rfl⟩ := List.mem_map.mp hbin
      exact isWritable_of_mem_parameters htransparent hx
  · exact isWritable_toggle "scale" (List.all_eq_true.mp rfl) _ t
  · exact isWritable_sort s
  · exact isWritable_toggle "axis" (List.all_eq_true.mp rfl) _ t
  · exact isWritable_toggle "legend" (List.all_eq_true.mp rfl) _ t
  · have hkey : ∀ c ∈ "stack".toList, isLower c = true := List.all_eq_true.mp rfl
    refine isWritable_json hkey fun s hs => ?_
    obtain rfl : o = s := Json.text.inj hs
    exact hoffset o ho

/-- The key and the text of a parameter, as they are cut out of a text. -/
def parameterChars (p : String × String) : List Char × List Char := (p.1.toList, p.2.toList)

theorem IsWritable.isParameter {key text : String} (h : IsWritable key text) :
    IsParameter key.toList text.toList where
  key hmem := absurd (h.key _ hmem) (by decide)
  value := h.value

/-! ## The name and the type -/

/-- A text that no comma cuts short. -/
structure IsCell (text : List Char) : Prop where
  comma : ',' ∉ text
  enclosed : Enclosed isUncut text

theorem isCell_letter (t : FieldType) : IsCell (toString t.letter).toList := by
  have hletter : (toString t.letter).toList = [t.letter] := String.toList_singleton _
  rw [hletter]
  cases t <;> exact ⟨by decide, .plain rfl (by decide) .nil⟩

/-- The name of a field as it is written. -/
def nameText (q : FieldEncoding) : String := slot [] .field id q.field

def typeText (q : FieldEncoding) : String := slot [] .type (fun t => toString (FieldType.letter t)) q.type

theorem isCell_nameText {q : FieldEncoding} (h : q.IsRecoverable) : IsCell (nameText q).toList := by
  unfold nameText
  cases hf : q.field with
  | fixed n => exact ⟨(h.name n hf).comma, (h.name n hf).enclosed⟩
  | wild w => exact ⟨(h.names w hf).comma, enclosed_shorthand w⟩

theorem isCell_typeText {q : FieldEncoding} (h : q.IsRecoverable) : IsCell (typeText q).toList := by
  unfold typeText
  cases ht : q.type with
  | fixed t => exact isCell_letter t
  | wild w => exact ⟨(h.type w ht).comma, enclosed_shorthand w⟩

theorem newline_not_mem_nameText {q : FieldEncoding} (h : q.IsRecoverable) (called : q.isCalled = true) :
    '\n' ∉ (nameText q).toList := by
  unfold nameText
  cases hf : q.field with
  | fixed n => exact h.line called n hf
  | wild w => exact newline_not_mem_shorthand w

theorem newline_not_mem_typeText (q : FieldEncoding) : '\n' ∉ (typeText q).toList := by
  unfold typeText
  cases q.type with
  | fixed t => cases t <;> decide
  | wild w => exact newline_not_mem_shorthand w

theorem endsOpen_typeText (q : FieldEncoding) : EndsOpen (typeText q).toList := by
  unfold typeText
  cases q.type with
  | fixed t =>
    have hletter : (toString t.letter).toList = [t.letter] := String.toList_singleton _
    change EndsOpen (toString t.letter).toList
    rw [hletter]
    refine .cons ?_ endsOpen_nil
    cases t <;> decide
  | wild w => exact endsOpen_shorthand w

/-! ## The text of a field -/

/-- The name, the type and the parameters of a field. -/
def bodyChars (name type : List Char) (parameters : List (String × String)) : List Char :=
  name ++ ',' :: (type ++ parameterTail (parameters.map parameterChars))

theorem toList_parameterText (parameters : List (String × String)) :
    (String.join ((parameters.map parameterText).map ("," ++ ·))).toList =
      parameterTail (parameters.map parameterChars) := by
  rw [String.toList_join, List.map_map, List.flatMap_map, parameterTail, List.flatMap_map]
  congr 1
  funext p
  simp [parameterText, parameterChars]

theorem toList_field {q : FieldEncoding} (h : q.IsRecoverable) (stackOffset : Option String) :
    (field Include.all [] q stackOffset).toList =
      match function? Include.all [] q with
      | some f => f.toList ++ '(' ::
          (bodyChars (nameText q).toList (typeText q).toList (parameterTexts q stackOffset) ++ [')'])
      | none => bodyChars (nameText q).toList (typeText q).toList (parameterTexts q stackOffset) := by
  have hbody : (nameText q ++ ("," ++ typeText q) ++
      String.join ((parameters Include.all q stackOffset).map ("," ++ ·))).toList =
      bodyChars (nameText q).toList (typeText q).toList (parameterTexts q stackOffset) := by
    rw [parameters_eq h, String.toList_append, toList_parameterText]
    simp [bodyChars]
  have hfield : field Include.all [] q stackOffset =
      match function? Include.all [] q with
      | some f => f ++ "(" ++ (nameText q ++ ("," ++ typeText q) ++
          String.join ((parameters Include.all q stackOffset).map ("," ++ ·))) ++ ")"
      | none => nameText q ++ ("," ++ typeText q) ++
          String.join ((parameters Include.all q stackOffset).map ("," ++ ·)) := rfl
  rw [hfield]
  cases function? Include.all [] q with
  | none => exact hbody
  | some f => simp only [String.toList_append, hbody]; simp

theorem newline_not_mem_bodyChars {name type : List Char} (hname : '\n' ∉ name) (htype : '\n' ∉ type)
    {parameters : List (String × String)} (h : ∀ p ∈ parameters, IsWritable p.1 p.2) :
    '\n' ∉ bodyChars name type parameters := by
  have htail : '\n' ∉ parameterTail (parameters.map parameterChars) := by
    rw [parameterTail, List.flatMap_map, List.mem_flatMap]
    rintro ⟨p, hp, hmem⟩
    have hkey : '\n' ∉ p.1.toList := fun hmem => absurd ((h p hp).key _ hmem) (by decide)
    simp [parameterChars, hkey, (h p hp).newline] at hmem
  simp [bodyChars, hname, htype, htail]

theorem enclosed_bodyChars {name type : List Char} (hname : IsCell name) (htype : IsCell type)
    {parameters : List (String × String)} (h : ∀ p ∈ parameters, IsWritable p.1 p.2) :
    Enclosed isUncut (bodyChars name type parameters) := by
  have htail : Enclosed isUncut (parameterTail (parameters.map parameterChars)) := by
    induction parameters with
    | nil => exact .nil
    | cons p rest ih =>
      have hp := h p List.mem_cons_self
      have hrest := ih fun p hp => h p (List.mem_cons_of_mem _ hp)
      rw [List.map_cons, parameterTail_cons]
      exact .plain rfl (by decide)
        ((enclosed_lower hp.key).append (.plain rfl (by decide) (hp.enclosed.append hrest)))
  exact hname.enclosed.append (.plain rfl (by decide) (htype.enclosed.append htail))

theorem endsOpen_bodyChars (name : List Char) {type : List Char} (htype : EndsOpen type)
    {parameters : List (String × String)} (h : ∀ p ∈ parameters, IsWritable p.1 p.2) :
    EndsOpen (bodyChars name type parameters) := by
  have htail : EndsOpen (parameterTail (parameters.map parameterChars)) := by
    induction parameters with
    | nil => exact endsOpen_nil
    | cons p rest ih =>
      have hrest := ih fun p hp => h p (List.mem_cons_of_mem _ hp)
      have hvalue := (h p List.mem_cons_self).endsOpen.append hrest
      rw [List.map_cons, parameterTail_cons, ← List.cons_append]
      exact (hvalue.cons (by decide)).append_cons _
  exact ((htype.append htail).cons (by decide)).append_cons _

/-- The function of a field is a word, or an object behind a mark. -/
theorem isFunctionName_or_opened {q : FieldEncoding} (h : q.IsRecoverable) {f : String}
    (hf : function? Include.all [] q = some f) :
    IsFunctionName f.toList ∨ f = "?" ++ (Json.ofPresent (functionParts q)).compact := by
  cases h.applied with
  | aggregate op written eq =>
    rw [eq, function?_aggregate] at hf
    exact .inl (Option.some.inj hf ▸ isFunctionName_aggregate written)
  | timeUnit unit eq =>
    rw [eq, function?_timeUnit] at hf
    exact .inl (Option.some.inj hf ▸ isFunctionName_timeUnit unit)
  | bin b eq =>
    rw [eq, function?_bin] at hf
    exact .inl (Option.some.inj hf ▸ ⟨List.cons_ne_nil _ _, List.all_eq_true.mp rfl⟩)
  | opened isOpen aggregate timeUnit bin =>
    rw [function?_opened isOpen aggregate timeUnit bin] at hf
    exact .inr (Option.some.inj hf).symm
  | none eq =>
    rw [eq, function?_withoutFunction] at hf
    contradiction

theorem enclosed_field {q : FieldEncoding} (h : q.IsRecoverable) {stackOffset : Option String}
    (hoffset : ∀ o ∈ stackOffset, '"' ∉ o.toList) :
    Enclosed isUncut (field Include.all [] q stackOffset).toList := by
  have hbody := enclosed_bodyChars (isCell_nameText h) (isCell_typeText h) fun p hp =>
    isWritable_of_mem h hoffset hp
  have hfunction : ∀ f, function? Include.all [] q = some f → Enclosed isUncut f.toList := by
    intro f hf
    rcases isFunctionName_or_opened h hf with hname | rfl
    · exact enclosed_lower hname.2
    · rw [toList_marked]
      exact .plain rfl (by decide) (enclosed_uncut (enclosed_chars _))
  rw [toList_field h]
  split
  · next f hf =>
    have hclose : Enclosed isUncut [')'] := .plain rfl (by decide) .nil
    exact (hfunction f hf).append (.plain rfl (by decide) (hbody.append hclose))
  · exact hbody

theorem field_ne_empty {q : FieldEncoding} (h : q.IsRecoverable) (stackOffset : Option String) :
    field Include.all [] q stackOffset ≠ "" := by
  intro hempty
  have htext := toList_field h stackOffset
  rw [hempty] at htext
  split at htext <;> simp [bodyChars] at htext

/-! ## Transparent fields -/

/-- An open slot has a comma in its text only between two candidates or in one of them. -/
theorem isCommaFree_single {α : Type} [Coded α] {w : Wildcard α} (h : w.IsSingle)
    (hcomma : ∀ vs ∈ w.candidates, ∀ v ∈ vs, ',' ∉ (encode v).chars) : w.IsCommaFree where
  name := h.name
  comma := by
    rw [toList_shorthand_wildcard]
    cases hc : w.candidates with
    | none => simp
    | some vs =>
      have hchars : ',' ∉ (Json.list (vs.map encode)).chars := by
        cases vs with
        | nil => simp [Json.chars]
        | cons v rest =>
          obtain rfl : rest = [] := List.length_eq_zero_iff.mp (by simpa using h.single _ hc)
          have hv := hcomma _ hc v List.mem_cons_self
          simp [Json.chars, Json.itemChars, hv]
      exact fun hmem => (List.mem_cons.mp hmem).elim (by decide) hchars

end Shorthand

open Shorthand

theorem Toggle.IsTransparent.isRecoverable {α : Type} [Settings α] {members : α → Json.Members}
    {P Q : α → Prop} (told : SettingsTold members Q) (hnone : members Settings.none = [])
    (hPQ : ∀ t, P t → Q t ∧ ∀ key ∈ Wildcard.keys, (members t).lookup key = none) {t : Toggle α}
    (h : t.IsTransparent P) : t.IsRecoverable members Q := by
  cases t with
  | off => trivial
  | on t =>
    obtain ⟨hQ, hkeys⟩ := hPQ t h.1
    exact ⟨hQ, fun hnil => h.2 (told.eq_none hQ hnil), hkeys⟩
  | wild w t =>
    obtain ⟨hname, hP, hcandidates⟩ := h
    obtain ⟨hQ, hkeys⟩ := hPQ t hP
    refine ⟨hQ, fun _ => hname, fun hne => ?_, hkeys _ (by decide), hkeys _ (by decide),
      fun _ => hkeys _ (by decide)⟩
    have hsome := hcandidates fun heq => hne (heq ▸ hnone)
    rw [Wildcard.isShort, Option.isNone_eq_false_iff.mpr hsome, Bool.and_false]

theorem FieldEncoding.IsTransparent.isRecoverable {q : FieldEncoding} (h : q.IsTransparent) :
    q.IsRecoverable where
  channel := h.channel
  name n hn := (h.field n hn).isFieldName
  names w hw := isCommaFree_single (h.fields w hw).1 fun vs hvs n hn =>
    not_mem_quote (by decide) (.inr (((h.fields w hw).2 vs hvs n hn).not_mem (by decide)))
  type w hw := isCommaFree_single (h.type w hw) fun _ _ t _ => by cases t <;> decide
  applied := h.applied
  line _ n hn := (h.field n hn).not_mem (by decide)
  constant _ _ n hn hstart :=
    (h.field n hn).not_mem (c := '=') (by decide) (hstart.subset (by decide))
  aggregate := h.aggregate
  timeUnit := h.timeUnit
  bin := h.bin
  scale t ht := (h.scale t ht).isRecoverable settingsTold_scale rfl fun s hs =>
    ⟨hs.isRecoverable, keys_scaleMembers s⟩
  sort := h.sort
  axis t ht := ⟨(h.axis t ht).1.isRecoverable settingsTold_guide rfl fun _ hg => ⟨hg.legible, hg.keys⟩,
    (h.axis t ht).2⟩
  legend t ht := ⟨(h.legend t ht).1.isRecoverable settingsTold_guide rfl fun _ hg => ⟨hg.legible, hg.keys⟩,
    (h.legend t ht).2⟩

/-- A transparent encoding comes back, an auto count as the count of all rows. -/
theorem Encoding.IsTransparent.isRecoverable {e : Encoding} (h : e.IsTransparent) : e.IsRecoverable := by
  cases e with
  | field q => exact FieldEncoding.IsTransparent.isRecoverable h
  | value c v => exact h
  | autoCount c b => exact ⟨h.1, Slot.isNameless_of_closed h.2⟩

theorem Encoding.IsTransparent.told_eq {e : Encoding} (h : e.IsTransparent) : e.told = e.reread := by
  cases e with
  | field | value => rfl
  | autoCount c b =>
    cases b with
    | fixed b => rfl
    | wild w => exact absurd h.2 Bool.noConfusion

theorem ChartQuery.IsTransparent.isRecoverable {q : ChartQuery} (h : q.IsTransparent) :
    q.IsRecoverable where
  mark := h.mark
  transform := h.transform
  encodings e he := (h.encodings e he).isRecoverable

end ChartAdvisor
