import ChartAdvisor.Proofs.Shorthand.Fields

/-!
# Definitions that read back

What is written for a recoverable field is read as that field: its name and type end at the first two
commas, its parameters at their values, and its function at the parentheses. So are a constant and
the count of all rows, and none of the three is taken for another one.
-/
namespace ChartAdvisor

/-! ## Slots by themselves -/

/-- A type whose values are read where their JSON form stands. -/
class LawfulReadable (α : Type) [Coded α] [Readable α] : Prop where
  read?_encode : ∀ (a : α) (depth : Nat),
    Readable.read? .byMeaning depth (Document.ofJson (encode a)) = some a

export LawfulReadable (read?_encode)

instance : LawfulReadable String := ⟨fun _ _ => rfl⟩

instance {α : Type} [Vocabulary α] [LawfulVocabulary α] : LawfulReadable α where
  read?_encode a depth := by
    change Vocabulary.ofName? (Vocabulary.name a) = some a
    exact ofName?_name a

namespace Shorthand

theorem readJson_list {α : Type} [Coded α] [LegibleCoded α] [Readable α] [LawfulReadable α]
    (vs : List α) : readJson (List α) (encode vs).chars = .ok vs := by
  have hlegible : (encode vs).Legible Json.depthLimit := .list fun v hv => by
    obtain ⟨a, -, rfl⟩ := List.mem_map.mp hv
    exact legible_encode a _
  have hitems : (Document.ofItems (vs.map encode)).mapM
      (Readable.read? (α := α) .byMeaning (Json.depthLimit - 1)) = some vs := by
    clear hlegible
    induction vs with
    | nil => rfl
    | cons a rest ih =>
      rw [List.map_cons, Document.ofItems, List.mapM_cons, read?_encode, ih]
      rfl
  have hread : Json.readTextAs? (List α) (encode vs).chars = some vs := by
    rw [Json.readTextAs?, hlegible.readDocument?_chars, Option.bind_some]
    exact hitems
  unfold readJson
  rw [hread]
  rfl

theorem readSlot_fixed {α : Type} [Readable α] {fixed : List Char → Result α} {token : List Char}
    (h : ∀ rest, token ≠ '?' :: rest) {a : α} (ha : fixed token = .ok a) :
    readSlot fixed token = .ok (.fixed a) := by
  unfold readSlot
  split
  · exact absurd rfl (h _)
  · exact absurd rfl (h _)
  · rw [ha]
    rfl

/-- An open slot reads back with its candidates, in their order. -/
theorem readSlot_shorthand {α : Type} [Coded α] [LegibleCoded α] [Readable α] [LawfulReadable α]
    (fixed : List Char → Result α) {w : Wildcard α} (h : w.name = none) :
    readSlot fixed w.shorthand.toList = .ok (.wild w) := by
  rw [toList_shorthand_wildcard]
  rcases eq_short_or_ofCandidates h with rfl | ⟨vs, rfl⟩
  · rfl
  · have hread := readJson_list vs
    obtain ⟨rest, hrest⟩ := exists_chars_encode vs
    change readSlot fixed ('?' :: (encode vs).chars) = _
    rw [hrest] at hread ⊢
    change (readJson (List α) ('[' :: rest)).map _ = _
    rw [hread]
    rfl

theorem readSlot_nameText {q : FieldEncoding} (h : q.IsRecoverable) :
    readSlot (fun f => .ok (String.ofList f)) (nameText q).toList = .ok q.field := by
  unfold nameText
  cases hf : q.field with
  | fixed n =>
    refine readSlot_fixed (h.name n hf).mark ?_
    exact congrArg Except.ok String.ofList_toList
  | wild w => exact readSlot_shorthand _ (h.names w hf).name

theorem readSlot_typeText {q : FieldEncoding} (h : q.IsRecoverable) (input : List Char) :
    readSlot (readType input) (typeText q).toList = .ok q.type := by
  unfold typeText
  cases ht : q.type with
  | fixed t =>
    have hletter : (toString t.letter).toList = [t.letter] := String.toList_singleton _
    change readSlot (readType input) (toString t.letter).toList = _
    rw [hletter]
    cases t <;> rfl
  | wild w => exact readSlot_shorthand _ (h.type w ht).name

theorem typeText_ne_nil (q : FieldEncoding) : (typeText q).toList.isEmpty = false := by
  unfold typeText
  cases q.type with
  | fixed t => cases t <;> rfl
  | wild w =>
    change w.shorthand.toList.isEmpty = false
    rw [toList_shorthand_wildcard]
    rfl

/-! ## Reading the text of a field -/

/-- The first two commas of a field stand behind its name and behind its type. -/
theorem splitWithTail_bodyChars {name type : List Char} (hname : IsCell name) (htype : IsCell type)
    {parameters : List (String × String)} (h : ∀ p ∈ parameters, IsWritable p.1 p.2) :
    ∃ tail, Text.splitWithTail [','] 2 (bodyChars name type parameters) = [name, type, tail] ∧
      splitParameters tail = .ok (parameters.map parameterChars) := by
  cases parameters with
  | nil =>
    have hnone : splitParameters [] = .ok [] := by rw [splitParameters, if_pos List.isEmpty_nil]
    refine ⟨[], ?_, hnone⟩
    rw [bodyChars, Text.splitWithTail_append hname.comma, List.map_nil]
    change _ :: Text.splitWithTail [','] 1 (type ++ []) = _
    rw [List.append_nil, Text.splitWithTail_of_not_mem htype.comma 0]
    rfl
  | cons p rest =>
    refine ⟨p.1.toList ++ '=' :: (p.2.toList ++ parameterTail (rest.map parameterChars)), ?_, ?_⟩
    · rw [bodyChars, Text.splitWithTail_append hname.comma, List.map_cons, parameterTail_cons]
      exact congrArg _ (Text.splitWithTail_append htype.comma 0 _)
    · refine splitParameters_tail (p := parameterChars p) fun x hx => ?_
      rw [← List.map_cons] at hx
      obtain ⟨y, hy, rfl⟩ := List.mem_map.mp hx
      exact (h y hy).isParameter

/-- What stands between the parentheses of the function of a field. -/
def fieldBody (q : FieldEncoding) (stackOffset : Option String) : List Char :=
  bodyChars (nameText q).toList (typeText q).toList (parameterTexts q stackOffset)

/-- It is read as the field without its function. -/
theorem readRawField_fieldBody {q : FieldEncoding} (h : q.IsRecoverable) {stackOffset : Option String}
    (hoffset : ∀ o ∈ stackOffset, '"' ∉ o.toList) :
    ∃ bin, readRawField q.channel (fieldBody q stackOffset) =
        .ok { query := q.withoutFunction, bin } ∧
      bin.getD {} = q.bin?.getD {} ∧ (q.bin = none → bin = none) := by
  obtain ⟨tail, hsplit, htail⟩ := splitWithTail_bodyChars (isCell_nameText h) (isCell_typeText h)
    fun p hp => isWritable_of_mem h hoffset hp
  obtain ⟨bin, hadd, hbin⟩ := addAll_parameterTexts (fieldBody q stackOffset) h stackOffset
  refine ⟨bin, ?_, hbin⟩
  unfold readRawField
  rw [fieldBody, hsplit]
  simp only [readSlot_nameText h, htail, typeText_ne_nil, readSlot_typeText h]
  rw [← hadd, addAll]
  exact List.foldlM_map

/-! ## Reading what is mapped to a channel -/

open Text

variable {channel : Slot Channel}

/-- A text that calls a function is no dash, no constant and no open function: those do not start
with a word and a parenthesis. -/
theorem readDefinition_call {name inner : List Char} (hname : IsFunctionName name)
    (hinner : '\n' ∉ inner) :
    readDefinition channel (name ++ '(' :: (inner ++ [')'])) =
      readFunction channel (name ++ '(' :: (inner ++ [')'])) name inner := by
  have hfirst : ∀ c rest, name ++ '(' :: (inner ++ [')']) = c :: rest → isLower c = true := by
    intro c rest heq
    obtain ⟨d, tail, rfl⟩ := List.exists_cons_of_ne_nil hname.1
    obtain rfl := (List.cons.inj heq).1
    exact hname.2 d List.mem_cons_self
  have hparen : (name ++ '(' :: (inner ++ [')'])).dropWhile isLower = '(' :: (inner ++ [')']) :=
    dropWhile_append_stop hname.2 (stopsAt_cons (by decide) _)
  unfold readDefinition
  split
  · next heq => exact absurd (hfirst _ _ heq) (by decide)
  · next raw heq =>
    rw [heq] at hparen
    exact absurd (List.cons.inj hparen).1 (by decide)
  · next heq => exact absurd (hfirst _ _ heq) (by decide)
  · rw [functionCall?_call hname hinner]

/-- A field without a function is none of those either, nor the call of a function: it does not end with
a parenthesis. -/
theorem readDefinition_plain {name : String} (hname : IsFieldName name)
    (hconstant : ¬"value=".toList <+: name.toList) {rest : List Char}
    (hend : EndsOpen (name.toList ++ ',' :: rest)) :
    readDefinition channel (name.toList ++ ',' :: rest) = do
      return .field (← (← readRawField channel (name.toList ++ ',' :: rest)).unbinned
        (name.toList ++ ',' :: rest)) := by
  have hstart {raw : List Char} (heq : name.toList ++ ',' :: rest = "value=".toList ++ raw) : False := by
    rcases List.append_eq_append_iff.mp heq with ⟨more, hmore, htail⟩ | ⟨more, hmore, -⟩
    · cases more with
      | nil => exact hconstant ⟨[], by rw [hmore, List.append_nil, List.append_nil]⟩
      | cons c more =>
        obtain rfl := (List.cons.inj htail).1
        have hcomma : ',' ∈ "value=".toList := hmore ▸ List.mem_append_right _ List.mem_cons_self
        exact absurd hcomma (by decide)
    · exact hconstant ⟨more, hmore.symm⟩
  unfold readDefinition
  split
  · next heq =>
    have hcomma : ',' ∈ ['-'] := heq ▸ List.mem_append_right _ List.mem_cons_self
    exact absurd hcomma (by decide)
  · next heq => exact (hstart heq).elim
  · next heq =>
    cases hn : name.toList with
    | nil =>
      rw [hn] at heq
      exact absurd (List.cons.inj heq).1 (by decide)
    | cons c tail =>
      rw [hn] at heq
      exact absurd ((List.cons.inj heq).1 ▸ hn) (hname.mark tail)
  · rw [functionCall?_eq_none hend]

/-- Neither is a field whose name is open: no object stands behind the mark. -/
theorem readDefinition_marked {text : List Char} (h : ∀ rest, text ≠ '\x7b' :: rest) :
    readDefinition channel ('?' :: text) = do
      return .field (← (← readRawField channel ('?' :: text)).unbinned ('?' :: text)) := by
  have hcall : functionCall? ('?' :: text) = none := rfl
  unfold readDefinition
  split
  · next heq => exact absurd (List.cons.inj heq).1 (by decide)
  · next heq => exact absurd (List.cons.inj heq).1 (by decide)
  · next heq => exact absurd (List.cons.inj heq).2 (h _)
  · rw [hcall]

theorem readDefinition_unapplied {q : FieldEncoding} (h : q.IsRecoverable) (called : q.isCalled = false)
    (opened : q.hasOpenFunction = false) {stackOffset : Option String}
    (hoffset : ∀ o ∈ stackOffset, '"' ∉ o.toList) :
    readDefinition channel (fieldBody q stackOffset) = do
      return .field (← (← readRawField channel (fieldBody q stackOffset)).unbinned
        (fieldBody q stackOffset)) := by
  have hend : EndsOpen (fieldBody q stackOffset) :=
    endsOpen_bodyChars _ (endsOpen_typeText q) fun p hp => isWritable_of_mem h hoffset hp
  unfold fieldBody bodyChars nameText at *
  cases hf : q.field with
  | fixed n =>
    rw [hf] at hend
    exact readDefinition_plain (h.name n hf) (h.constant called opened n hf) hend
  | wild w =>
    have htext : (slot [] .field id (Slot.wild w)).toList =
        '?' :: w.candidates.elim [] fun vs => (encode vs).chars := toList_shorthand_wildcard w
    rw [htext, List.cons_append]
    refine readDefinition_marked fun rest heq => ?_
    cases hc : w.candidates with
    | none =>
      rw [hc] at heq
      exact absurd (List.cons.inj heq).1 (by decide)
    | some vs =>
      obtain ⟨tail, htail⟩ := exists_chars_encode vs
      rw [hc, Option.elim_some, htail] at heq
      exact absurd (List.cons.inj heq).1 (by decide)

section

variable {input inner : List Char} {query : FieldEncoding}

theorem readFunction_aggregate (h : readRawField channel inner = .ok { query }) (op : Aggregate) :
    readFunction channel input (Vocabulary.name op).toList inner =
      .ok (.field { query with aggregate := .fixed (some op) }) := by
  have hcount : Vocabulary.name op ≠ "autocount" := by cases op <;> decide
  have hbin : Vocabulary.name op ≠ "bin" := by cases op <;> decide
  unfold readFunction
  simp only [String.ofList_toList, if_neg hcount, if_neg hbin, h, ofName?_name]
  rfl

theorem readFunction_timeUnit (h : readRawField channel inner = .ok { query }) (unit : TimeUnit) :
    readFunction channel input (Vocabulary.name unit).toList inner =
      .ok (.field { query with timeUnit := .fixed (some unit) }) := by
  have hcount : Vocabulary.name unit ≠ "autocount" := by cases unit <;> decide
  have hbin : Vocabulary.name unit ≠ "bin" := by cases unit <;> decide
  have hnone : (Vocabulary.ofName? (Vocabulary.name unit) : Option Aggregate) = none := by
    cases unit <;> decide
  unfold readFunction
  simp only [String.ofList_toList, if_neg hcount, if_neg hbin, h, hnone, ofName?_name]
  rfl

theorem readFunction_bin {bin : Option Bin} (h : readRawField channel inner = .ok { query, bin }) :
    readFunction channel input "bin".toList inner =
      .ok (.field { query with bin := some (.on (bin.getD {})) }) := by
  unfold readFunction
  simp only [String.ofList_toList, h]
  rfl

end

/-! ## Open functions -/

theorem readFunctionSlot_wildcard {α : Type} [Coded α] [LawfulCoded α] (fragment : List Char)
    {w : Wildcard α} (h : w.name = none) :
    readFunctionSlot α fragment (functionWildcard w) = .ok w := by
  rcases eq_short_or_ofCandidates h with rfl | ⟨vs, rfl⟩
  · rfl
  · change (inFragment fragment (decode (encode vs))).map Wildcard.ofCandidates = _
    rw [decode_encode]
    rfl

/-- Adds one open function after another. -/
def addFunctions (input fragment : List Char) (f : RawField) (parts : List (String × Option Json)) :
    Result RawField :=
  (parts.filterMap fun (k, v) => v.map (k, ·)).foldlM
    (fun f (key, v) => f.addFunction input fragment key v) f

theorem addFunctions_some {input fragment : List Char} {name : String} {v : Json} {f g : RawField}
    (h : f.addFunction input fragment name v = .ok g) (parts : List (String × Option Json)) :
    addFunctions input fragment f ((name, some v) :: parts) = addFunctions input fragment g parts := by
  change (f.addFunction input fragment name v >>= _) = _
  rw [h]
  rfl

section

variable {input fragment : List Char} {f : RawField} (parts : List (String × Option Json))

/-- A function that may be open. -/
theorem addFunctions_slot {α : Type} [Coded (Option α)] {key : String} {s : Slot (Option α)}
    (put : Slot (Option α) → RawField) (closed : put (.fixed none) = f) (hnone : s.value?.join = none)
    (opened : ∀ w, s = .wild w → f.addFunction input fragment key (functionWildcard w) = .ok (put s)) :
    addFunctions input fragment f ((key, s.wildcard?.map functionWildcard) :: parts) =
      addFunctions input fragment (put s) parts := by
  cases s with
  | fixed a =>
    obtain rfl : a = none := hnone
    rw [closed]
    rfl
  | wild w => exact addFunctions_some (opened w rfl) parts

theorem addFunctions_aggregate {s : Slot (Option Aggregate)} (h : s.IsNameless)
    (hnone : s.value?.join = none) (hf : f.query.aggregate = .fixed none) :
    addFunctions input fragment f (("aggregate", s.wildcard?.map functionWildcard) :: parts) =
      addFunctions input fragment { f with query := { f.query with aggregate := s } } parts := by
  refine addFunctions_slot parts (fun s => { f with query := { f.query with aggregate := s } })
    (by rw [← hf]) hnone ?_
  rintro w rfl
  change (do return { f with query := { f.query with
    aggregate := .wild (← readFunctionSlot _ fragment (functionWildcard w)) } }) = _
  rw [readFunctionSlot_wildcard fragment (h w rfl)]
  rfl

theorem addFunctions_timeUnit {s : Slot (Option TimeUnit)} (h : s.IsNameless)
    (hnone : s.value?.join = none) (hf : f.query.timeUnit = .fixed none) :
    addFunctions input fragment f (("timeUnit", s.wildcard?.map functionWildcard) :: parts) =
      addFunctions input fragment { f with query := { f.query with timeUnit := s } } parts := by
  refine addFunctions_slot parts (fun s => { f with query := { f.query with timeUnit := s } })
    (by rw [← hf]) hnone ?_
  rintro w rfl
  change (do return { f with query := { f.query with
    timeUnit := .wild (← readFunctionSlot _ fragment (functionWildcard w)) } }) = _
  rw [readFunctionSlot_wildcard fragment (h w rfl)]
  rfl

/-- The switch of a bin takes the parameters that have been read for it. -/
theorem addFunctions_bin {w : Wildcard Bool} {b : Bin} (h : w.name = none) (hf : f.bin.getD {} = b) :
    addFunctions input fragment f (("bin", some (functionWildcard w)) :: parts) =
      addFunctions input fragment { query := { f.query with bin := some (.wild w b) } } parts := by
  refine addFunctions_some ?_ parts
  change (do
    let flag ← readFunctionSlot Bool fragment (functionWildcard w)
    return ({ f with query := { f.query with bin := some (.wild flag (f.bin.getD {})) },
                     bin := none } : RawField)) = _
  rw [readFunctionSlot_wildcard fragment h, hf]
  rfl

theorem addFunctions_hasFunction {b : Bool} (hf : f.query.hasFunction = false) :
    addFunctions input fragment f (("hasFn", if b then some (.bool true) else none) :: parts) =
      addFunctions input fragment { f with query := { f.query with hasFunction := b } } parts := by
  cases b with
  | false =>
    change addFunctions input fragment f parts = _
    rw [← hf]
  | true => exact addFunctions_some rfl parts

end

/-- The open functions of a field are put back one after another. -/
theorem addFunctions_functionParts (input fragment : List Char) {q : FieldEncoding}
    (h : q.IsRecoverable) (aggregate : q.aggregate? = none) (timeUnit : q.timeUnit? = none)
    (binned : q.isBinned = false) {bin : Option Bin} (hbin : bin.getD {} = q.bin?.getD {})
    (hnone : q.bin = none → bin = none) :
    addFunctions input fragment { query := q.withoutFunction, bin } (functionParts q) =
      .ok { query := q } := by
  unfold functionParts
  rw [addFunctions_aggregate _ h.aggregate aggregate rfl]
  have hbin (parts : List (String × Option Json)) : addFunctions input fragment
      { query := { q.withoutFunction with aggregate := q.aggregate }, bin }
      (("bin", (q.bin.bind fun t => t.flag.wildcard?).map functionWildcard) :: parts) =
      addFunctions input fragment
        { query := { q.withoutFunction with aggregate := q.aggregate, bin := q.bin } } parts := by
    cases hb : q.bin with
    | none =>
      obtain rfl := hnone hb
      rfl
    | some t =>
      rcases h.bin t hb with ⟨b, rfl, -⟩ | ⟨w, b, rfl, hname, -⟩
      · rw [FieldEncoding.isBinned, hb] at binned
        contradiction
      · refine addFunctions_bin parts hname ?_
        rw [hbin, FieldEncoding.bin?, hb]
        rfl
  rw [hbin, addFunctions_hasFunction _ rfl, addFunctions_timeUnit _ h.timeUnit timeUnit rfl]
  rfl

theorem legible_functionWildcard {α : Type} [Coded α] [LegibleCoded α] (w : Wildcard α) :
    (functionWildcard w).Legible (Json.depthLimit - 1) := by
  unfold functionWildcard
  cases w.candidates with
  | none => exact .text _
  | some vs =>
    refine .list fun v hv => ?_
    obtain ⟨a, -, rfl⟩ := List.mem_map.mp hv
    exact legible_encode a _

theorem legible_functionParts (q : FieldEncoding) :
    (Json.ofPresent (functionParts q)).Legible Json.depthLimit := by
  have hslot {α : Type} [Coded α] [LegibleCoded α] (w : Option (Wildcard α)) :
      ∀ v ∈ w.map functionWildcard, v.Legible (Json.depthLimit - 1) := by
    intro v hv
    obtain ⟨w, -, rfl⟩ := Option.map_eq_some_iff.mp hv
    exact legible_functionWildcard w
  refine Json.legible_ofPresent ?_ fun m hm => ?_
  · simp only [functionParts, List.pairwise_cons, List.mem_cons, List.not_mem_nil, or_false,
      forall_eq_or_imp, forall_eq, List.Pairwise.nil, and_true, false_imp_iff, implies_true]
    decide
  · simp only [functionParts, List.mem_cons, List.not_mem_nil, or_false] at hm
    rcases hm with rfl | rfl | rfl | rfl
    · exact hslot _
    · exact hslot _
    · intro v hv
      obtain ⟨-, hv⟩ := Option.ite_none_right_eq_some.mp hv
      obtain rfl := Option.some.inj hv
      exact .bool true
    · exact hslot _

theorem readJson_members {members : Json.Members}
    (h : (Json.object members).Legible Json.depthLimit) :
    readJson Json.Members (Json.object members).chars = .ok members := by
  have hread : Json.readTextAs? Json.Members (Json.object members).chars = some members := by
    rw [Json.readTextAs?, h.readDocument?_chars, Option.bind_some]
    change ((Document.ofJson (.object members)).toJson? .byMeaning Json.depthLimit).bind _ = _
    rw [h.toJson?_ofJson]
    rfl
  unfold readJson
  rw [hread]
  rfl

/-- An object behind a mark is cut off at the parentheses behind it, and its members are read. -/
theorem readDefinition_object (channel : Slot Channel) {members : Json.Members}
    (legible : (Json.object members).Legible Json.depthLimit) (inner : List Char) :
    ∃ input fragment, readDefinition channel
        ('?' :: ((Json.object members).chars ++ '(' :: (inner ++ [')']))) =
      match Json.lookup members "autoCount" with
      | some v => do return .autoCount channel (.wild (← readFunctionSlot Bool fragment v))
      | none => do
        let f ← readRawField channel inner
        let f ← members.foldlM (fun f (key, v) => f.addFunction input fragment key v) f
        return .field (← f.unbinned input) := by
  refine ⟨'?' :: ((Json.object members).chars ++ '(' :: (inner ++ [')'])), (Json.object members).chars, ?_⟩
  have hread := readJson_members legible
  obtain ⟨body, hbody, hinner⟩ := chars_object fun m (_ : m ∈ members) => enclosed_chars m.2
  have hfragment : bracketed? 0 .outside ((Json.object members).chars ++ '(' :: (inner ++ [')'])) =
      some ((Json.object members).chars, '(' :: (inner ++ [')'])) := by
    rw [hbody, List.cons_append, List.append_assoc]
    exact bracketed?_whole rfl rfl hinner _
  have hopen : readDefinition channel ('?' :: ((Json.object members).chars ++ '(' :: (inner ++ [')']))) =
      readOpenFunctions channel ('?' :: ((Json.object members).chars ++ '(' :: (inner ++ [')']))) := by
    rw [hbody]
    rfl
  rw [hopen]
  unfold readOpenFunctions
  simp only [List.drop_succ_cons, List.drop_zero, hfragment, parenthesised?_append, hread]
  rfl

/-- The object holds the open functions of what stands in the parentheses. -/
theorem readDefinition_opened {parts : List (String × Option Json)} {inner : List Char} {f : RawField}
    (legible : (Json.ofPresent parts).Legible Json.depthLimit)
    (named : ∀ m ∈ parts, m.1 ≠ "autoCount") (h : readRawField channel inner = .ok f) :
    ∃ input fragment, readDefinition channel
        ('?' :: ((Json.ofPresent parts).chars ++ '(' :: (inner ++ [')']))) = do
      return .field (← (← addFunctions input fragment f parts).unbinned input) := by
  have hcount : Json.lookup (parts.filterMap fun (k, v) => v.map (k, ·)) "autoCount" = none := by
    rw [Json.lookup, List.lookup_eq_none_iff]
    intro m hm
    obtain ⟨n, hn, hm⟩ := List.mem_filterMap.mp hm
    obtain ⟨v, -, rfl⟩ := Option.map_eq_some_iff.mp hm
    simpa using (named n hn).symm
  obtain ⟨input, fragment, hread⟩ := readDefinition_object channel legible inner
  refine ⟨input, fragment, hread.trans ?_⟩
  rw [hcount]
  simp only [h]
  rfl

/-! ## Fields -/

/-- A recoverable field reads back from its text. -/
theorem readDefinition_field {q : FieldEncoding} (h : q.IsRecoverable) {stackOffset : Option String}
    (hoffset : ∀ o ∈ stackOffset, '"' ∉ o.toList) :
    readDefinition q.channel (field Include.all [] q stackOffset).toList = .ok (.field q) := by
  obtain ⟨bin, hraw, hbin, hunbinned⟩ := readRawField_fieldBody h hoffset
  have hline (called : q.isCalled = true) : '\n' ∉ fieldBody q stackOffset :=
    newline_not_mem_bodyChars (newline_not_mem_nameText h called) (newline_not_mem_typeText q)
      fun p hp => isWritable_of_mem h hoffset hp
  have htext := toList_field h stackOffset
  have hcall {f : String} (hf : function? Include.all [] q = some f) (hname : IsFunctionName f.toList)
      (called : q.isCalled = true) :
      readDefinition q.channel (field Include.all [] q stackOffset).toList =
        readFunction q.channel (field Include.all [] q stackOffset).toList f.toList
          (fieldBody q stackOffset) := by
    simp only [hf] at htext
    rw [htext]
    exact readDefinition_call hname (hline called)
  cases h.applied with
  | aggregate op written eq =>
    obtain rfl : bin = none := hunbinned (by rw [eq]; rfl)
    have hf : function? Include.all [] q = some (Vocabulary.name op) := by
      rw [eq]
      exact function?_aggregate q op
    have hcalled : q.isCalled = true := by rw [eq]; rfl
    rw [hcall hf (isFunctionName_aggregate written) hcalled, readFunction_aggregate hraw, ← eq]
  | timeUnit unit eq =>
    obtain rfl : bin = none := hunbinned (by rw [eq]; rfl)
    have hf : function? Include.all [] q = some (Vocabulary.name unit) := by
      rw [eq]
      exact function?_timeUnit q unit
    have hcalled : q.isCalled = true := by rw [eq]; rfl
    rw [hcall hf (isFunctionName_timeUnit unit) hcalled, readFunction_timeUnit hraw, ← eq]
  | bin b eq =>
    have hf : function? Include.all [] q = some "bin" := by
      rw [eq]
      exact function?_bin q b
    have hb : bin.getD {} = b := by
      rw [hbin, eq]
      rfl
    have hcalled : q.isCalled = true := by rw [eq]; rfl
    rw [hcall hf ⟨List.cons_ne_nil _ _, List.all_eq_true.mp rfl⟩ hcalled, readFunction_bin hraw, hb, ← eq]
  | opened isOpen aggregate timeUnit binned =>
    simp only [function?_opened isOpen aggregate timeUnit binned] at htext
    have hname : ∀ m ∈ functionParts q, m.1 ≠ "autoCount" := by
      simp [functionParts]
    obtain ⟨input, fragment, hread⟩ := readDefinition_opened (legible_functionParts q) hname hraw
    rw [addFunctions_functionParts input fragment h aggregate timeUnit binned hbin hunbinned] at hread
    rw [htext, toList_marked, List.cons_append]
    exact hread
  | none eq =>
    obtain rfl : bin = none := hunbinned (by rw [eq]; rfl)
    have hf : function? Include.all [] q = none := by
      rw [eq]
      exact function?_withoutFunction q
    simp only [hf] at htext
    rw [htext]
    have hcalled : q.isCalled = false := by rw [eq]; rfl
    have hopened : q.hasOpenFunction = false := by rw [eq]; rfl
    refine (readDefinition_unapplied h hcalled hopened hoffset).trans ?_
    rw [hraw, ← eq]
    rfl

/-! ## Encodings -/

theorem isRecoverable_countOfRows {c : Slot Channel} (h : c.IsNameless) :
    (FieldEncoding.countOfRows c).IsRecoverable :=
  (FieldEncoding.isTransparent_countOfRows h).isRecoverable

/-- The auto count is written like the count of all rows. -/
theorem definition_autoCount {c : Slot Channel} (hc : c.IsNameless) (stackOffset : Option String) :
    definition Include.all [] (.autoCount c (.fixed true)) stackOffset =
      field Include.all [] (.countOfRows c) none := by
  have hparameters : parameters Include.all (.countOfRows c) none = [] := by
    rw [parameters_eq (isRecoverable_countOfRows hc)]
    rfl
  unfold field
  rw [hparameters]
  rfl

/-- An open auto count is written as an object before the parentheses of all rows. -/
theorem toList_openCount (c : Slot Channel) (w : Wildcard Bool) (stackOffset : Option String) :
    (definition Include.all [] (.autoCount c (.wild w)) stackOffset).toList =
      '?' :: ((Json.object [("autoCount", functionWildcard w)]).chars ++ '(' :: (['*', ',', 'q'] ++ [')'])) := by
  change ("?" ++ (Json.object [("autoCount", functionWildcard w)]).compact ++ "(" ++
    ("*" ++ ("," ++ "q")) ++ ")").toList = _
  simp [Json.compact]

theorem readDefinition_openCount {c : Slot Channel} {w : Wildcard Bool} (h : w.name = none)
    (stackOffset : Option String) :
    readDefinition c (definition Include.all [] (.autoCount c (.wild w)) stackOffset).toList =
      .ok (.autoCount c (.wild w)) := by
  have hlegible : (Json.object [("autoCount", functionWildcard w)]).Legible Json.depthLimit := by
    refine .object (List.pairwise_singleton _ _) fun m hm => ?_
    obtain rfl := List.mem_singleton.mp hm
    exact legible_functionWildcard w
  obtain ⟨input, fragment, hread⟩ := readDefinition_object c hlegible ['*', ',', 'q']
  rw [toList_openCount, hread]
  change (do return Encoding.autoCount c (.wild (← readFunctionSlot Bool fragment (functionWildcard w)))) = _
  rw [readFunctionSlot_wildcard fragment h]
  rfl

theorem toList_value (v : Slot Json) :
    ("value=" ++ slotText v).toList = "value".toList ++ '=' :: (slotText v).toList := by
  simp

theorem readDefinition_value {c : Slot Channel} {v : Slot Json} (h : v.IsTransparent) :
    readDefinition c ("value=" ++ slotText v).toList = .ok (.value c v) := by
  rw [toList_value]
  change (do return Encoding.value c (← readInto _ (slotText v).toList)) = _
  rw [readInto_slot h]
  rfl

/-- A constant is written behind its key, in whichever way its slot is. -/
theorem definition_value (c : Slot Channel) (v : Slot Json) (stackOffset : Option String) :
    definition Include.all [] (.value c v) stackOffset = "value=" ++ slotText v := by
  cases v <;> rfl

/-- What a recoverable encoding maps to its channel reads back, apart from an auto count that is
switched off. -/
theorem readDefinition_definition {e : Encoding} (h : e.IsRecoverable)
    (shown : e.isDisabledAutoCount = false) {stackOffset : Option String}
    (hoffset : ∀ o ∈ stackOffset, '"' ∉ o.toList) :
    readDefinition e.channel (definition Include.all [] e stackOffset).toList = .ok e.told := by
  cases e with
  | field q => exact readDefinition_field h hoffset
  | value c v =>
    rw [definition_value]
    exact readDefinition_value h.2
  | autoCount c b =>
    obtain rfl | ⟨w, rfl, hname⟩ := h.eq_true_or_wild shown
    · rw [definition_autoCount h.1]
      exact readDefinition_field (isRecoverable_countOfRows h.1) nofun
    · exact readDefinition_openCount hname stackOffset

theorem enclosed_slotText {α : Type} [Coded α] (s : Slot α) : Enclosed isUncut (slotText s).toList := by
  cases s with
  | fixed v =>
    rw [slotText, Json.compact, String.toList_ofList]
    exact enclosed_uncut (enclosed_chars _)
  | wild w => exact enclosed_shorthand w

theorem enclosed_definition {e : Encoding} (h : e.IsRecoverable)
    (shown : e.isDisabledAutoCount = false) {stackOffset : Option String}
    (hoffset : ∀ o ∈ stackOffset, '"' ∉ o.toList) :
    Enclosed isUncut (definition Include.all [] e stackOffset).toList := by
  cases e with
  | field q => exact enclosed_field h hoffset
  | value c v =>
    have hword : ∀ c ∈ "value".toList, isLower c = true := List.all_eq_true.mp rfl
    rw [definition_value, toList_value]
    exact (enclosed_lower hword).append (.plain rfl (by decide) (enclosed_slotText v))
  | autoCount c b =>
    obtain rfl | ⟨w, rfl, -⟩ := h.eq_true_or_wild shown
    · rw [definition_autoCount h.1]
      exact enclosed_field (isRecoverable_countOfRows h.1) nofun
    · have hplain : ∀ c ∈ '(' :: (['*', ',', 'q'] ++ [')']), (isUncut c && decide (IsPlain c)) = true :=
        List.all_eq_true.mp rfl
      have hrows : Enclosed isUncut ('(' :: (['*', ',', 'q'] ++ [')'])) :=
        .of_forall fun c hc => by simpa using hplain c hc
      rw [toList_openCount]
      exact .plain rfl (by decide) ((enclosed_uncut (enclosed_chars _)).append hrows)

theorem definition_ne_empty {e : Encoding} (h : e.IsRecoverable) (stackOffset : Option String) :
    definition Include.all [] e stackOffset ≠ "" := by
  cases e with
  | field q => exact field_ne_empty h stackOffset
  | value c v =>
    rw [definition_value]
    intro hempty
    simpa using congrArg String.toList hempty
  | autoCount c b =>
    cases b with
    | wild w =>
      intro hempty
      have htext := toList_openCount c w stackOffset
      rw [hempty] at htext
      contradiction
    | fixed b =>
      change autoCount Include.all [] (.fixed b) ≠ ""
      cases b <;> decide

end Shorthand
end ChartAdvisor
