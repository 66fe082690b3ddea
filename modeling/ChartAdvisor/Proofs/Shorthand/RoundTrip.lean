import ChartAdvisor.Proofs.Shorthand.Definitions
import ChartAdvisor.Proofs.Stacking

/-!
# Queries that read back

The shorthand of a recoverable query is read as the query again, with every open slot and its
candidates. Its encodings come back in the order of their texts, without the auto counts that are
switched off, and with a count of all rows where an auto count was switched on.

That the values in the query read back from their own texts cannot be left out: a constant comes back
as whatever its text is read as, which is another number where reading rounds twice, and a text where
too many lists stand inside one another.
-/
namespace ChartAdvisor

open Shorthand

/-! ## Parts -/

namespace Shorthand

/-- The channel of an encoding as it is written. -/
def channelText (e : Encoding) : String := slot [] .channel Vocabulary.name e.channel

/-- The text of an encoding: its channel, a colon and what is mapped to the channel. -/
theorem toList_encodingWith {e : Encoding} (h : e.IsRecoverable) (stackOffset : Option String) :
    (encodingWith Include.all [] e stackOffset).toList =
      (channelText e).toList ++ ':' :: (definition Include.all [] e stackOffset).toList := by
  have hne := definition_ne_empty h stackOffset
  have htext : encodingWith Include.all [] e stackOffset =
      ":".intercalate [channelText e, definition Include.all [] e stackOffset] := by
    unfold encodingWith
    simp only [String.isEmpty_iff, if_neg hne]
    rfl
  rw [htext, String.toList_intercalate]
  simp [List.intercalate]

theorem encodingWith_ne_empty {e : Encoding} (h : e.IsRecoverable) (stackOffset : Option String) :
    encodingWith Include.all [] e stackOffset ≠ "" := by
  intro hempty
  have htext := toList_encodingWith h stackOffset
  rw [hempty] at htext
  simp at htext

theorem readWord_name {α : Type} [Vocabulary α] [LawfulVocabulary α] (a : α) :
    readWord α (Vocabulary.name a).toList = .ok a := by
  unfold readWord Vocabulary.parse
  rw [String.ofList_toList, ofName?_name]
  rfl

theorem isLower_channel (c : Channel) : ∀ d ∈ (Vocabulary.name c).toList, isLower d = true := by
  cases c <;> exact List.all_eq_true.mp rfl

theorem isLower_mark (m : Mark) : ∀ d ∈ (Vocabulary.name m).toList, isLower d = true := by
  cases m <;> exact List.all_eq_true.mp rfl

theorem not_mem_of_isLower {word : List Char} (h : ∀ c ∈ word, isLower c = true) {c : Char}
    (hc : isLower c = false) : c ∉ word := by
  intro hmem
  rw [h c hmem] at hc
  contradiction

theorem enclosed_word {α : Type} [Coded α] {p : Property} {text : α → String}
    (h : ∀ v, ∀ d ∈ (text v).toList, isLower d = true) (s : Slot α) :
    Enclosed isUncut (slot [] p text s).toList := by
  cases s with
  | fixed v => exact enclosed_lower (h v)
  | wild w => exact enclosed_shorthand w

theorem readSlot_word {α : Type} [Vocabulary α] [LawfulVocabulary α] (p : Property)
    (h : ∀ v : α, ∀ d ∈ (Vocabulary.name v).toList, isLower d = true) {s : Slot α}
    (nameless : s.IsNameless) :
    readSlot (readWord α) (slot [] p Vocabulary.name s).toList = .ok s := by
  cases s with
  | fixed v =>
    refine readSlot_fixed (fun rest heq => ?_) (readWord_name v)
    have hmark : '?' ∈ (Vocabulary.name v).toList :=
      (show (Vocabulary.name v).toList = '?' :: rest from heq) ▸ List.mem_cons_self
    exact not_mem_of_isLower (h v) rfl hmark
  | wild w => exact readSlot_shorthand _ (nameless w rfl)

/-- No colon stands in the text of a word, nor in a list of them. -/
theorem colon_not_mem_word {α : Type} [Vocabulary α] (p : Property)
    (h : ∀ v : α, ∀ d ∈ (Vocabulary.name v).toList, isLower d = true) (s : Slot α) :
    ':' ∉ (slot [] p Vocabulary.name s).toList := by
  cases s with
  | fixed v => exact not_mem_of_isLower (h v) rfl
  | wild w =>
    change ':' ∉ w.shorthand.toList
    rw [toList_shorthand_wildcard]
    have hword (v : α) : ':' ∉ (encode v).chars :=
      not_mem_quote (by decide) (.inr (not_mem_of_isLower (h v) rfl))
    have hitems (vs : List α) : ':' ∉ Json.itemChars (vs.map encode) := by
      induction vs with
      | nil => exact List.not_mem_nil
      | cons v rest ih => simp [Json.itemChars, hword, ih]
    cases w.candidates with
    | none => simp
    | some vs =>
      have hchars : ':' ∉ (Json.list (vs.map encode)).chars := by
        cases vs with
        | nil => simp [Json.chars]
        | cons v rest => simp [Json.chars, hword, hitems]
      exact fun hmem => (List.mem_cons.mp hmem).elim (by decide) hchars

theorem enclosed_encodingWith {e : Encoding} (h : e.IsRecoverable)
    (shown : e.isDisabledAutoCount = false) {stackOffset : Option String}
    (hoffset : ∀ o ∈ stackOffset, '"' ∉ o.toList) :
    Enclosed isUncut (encodingWith Include.all [] e stackOffset).toList := by
  rw [toList_encodingWith h]
  exact (enclosed_word isLower_channel e.channel).append
    (.plain rfl (by decide) (enclosed_definition h shown hoffset))

/-- No channel is called `transform`, so an encoding is not taken for the steps. -/
theorem dropStart?_channel (e : Encoding) (text : List Char) :
    Text.dropStart? ['t', 'r', 'a', 'n', 's', 'f', 'o', 'r', 'm', ':']
      ((channelText e).toList ++ ':' :: text) = none := by
  unfold channelText
  cases e.channel with
  | fixed c => cases c <;> rfl
  | wild w =>
    change Text.dropStart? _ (w.shorthand.toList ++ _) = none
    rw [toList_shorthand_wildcard]
    rfl

/-- An encoding that is read is put behind those that have been read before it. -/
theorem readPart_encoding {e : Encoding} (h : e.IsRecoverable) (shown : e.isDisabledAutoCount = false)
    {stackOffset : Option String} (hoffset : ∀ o ∈ stackOffset, '"' ∉ o.toList) (input : List Char)
    (q : ChartQuery) :
    readPart input q (encodingWith Include.all [] e stackOffset).toList =
      .ok { q with encodings := q.encodings ++ [e.told] } := by
  have hread := readDefinition_definition h shown hoffset
  have hne := definition_ne_empty h stackOffset
  rw [toList_encodingWith h]
  generalize (definition Include.all [] e stackOffset) = text at hread hne
  have hempty : text.toList.isEmpty = false := by
    rw [List.isEmpty_eq_false_iff]
    exact fun hnil => hne (String.toList_eq_nil_iff.mp hnil)
  have hsplit : Text.splitWithTail [':'] 1 ((channelText e).toList ++ ':' :: text.toList) =
      [(channelText e).toList, text.toList] :=
    Text.splitWithTail_append (colon_not_mem_word .channel isLower_channel e.channel) 0 _
  have hchannel : readSlot (readWord Channel) (channelText e).toList = .ok e.channel :=
    readSlot_word .channel isLower_channel h.nameless
  unfold readPart
  simp only [dropStart?_channel, hsplit, hempty, readEncoding, hchannel]
  change (readDefinition e.channel text.toList >>= fun e => Except.ok _) = _
  rw [hread]
  rfl

theorem readPart_transform {steps : List Json} (h : ∀ v ∈ steps, v.Legible (Json.depthLimit - 1))
    (input : List Char) (q : ChartQuery) :
    readPart input q ("transform:" ++ (Json.list steps).compact).toList =
      .ok { q with transform := some steps } := by
  have hread : readJson (List Json) (Json.list steps).chars = .ok steps := by
    unfold readJson
    rw [Json.readTextAs?_list h]
    rfl
  have htext : ("transform:" ++ (Json.list steps).compact).toList =
      ['t', 'r', 'a', 'n', 's', 'f', 'o', 'r', 'm', ':'] ++ (Json.list steps).chars := by
    simp [Json.compact]
  rw [htext]
  change (do return { q with transform := some (← readJson (List Json) (Json.list steps).chars) }) = _
  rw [hread]
  rfl

theorem enclosed_transform (steps : List Json) :
    Enclosed isUncut ("transform:" ++ (Json.list steps).compact).toList := by
  have hword : ∀ c ∈ "transform".toList, isLower c = true := List.all_eq_true.mp rfl
  have htext : ("transform:" ++ (Json.list steps).compact).toList =
      "transform".toList ++ ':' :: (Json.list steps).chars := by
    simp [Json.compact]
  rw [htext]
  exact (enclosed_lower hword).append (.plain rfl (by decide) (enclosed_uncut (enclosed_chars _)))

end Shorthand

/-! ## The whole text -/

namespace ChartQuery

/-- The encodings that are written, each with its text. -/
def written (q : ChartQuery) : List (Encoding × String) :=
  (q.encodings.zipIdx.filter fun (e, _) => !e.isDisabledAutoCount).map fun (e, i) =>
    (e, encodingWith Include.all [] e ((q.stack?.filter (·.fieldIndex == i)).map Stack.offset))

/-- The encodings that are written, by ascending text. -/
def writtenInOrder (q : ChartQuery) : List (Encoding × String) :=
  q.written.mergeSort fun a b => !decide (b.2 < a.2)

/-- What is read where a query is written. -/
def told (q : ChartQuery) : ChartQuery where
  mark := q.mark
  transform := q.transform
  encodings := q.writtenInOrder.map fun p => p.1.told

/-- What is read where a query without open auto counts is written. -/
def reread (q : ChartQuery) : ChartQuery where
  mark := q.mark
  transform := q.transform
  encodings := q.writtenInOrder.map fun p => p.1.reread

theorem map_fst_shown (q : ChartQuery) :
    (q.encodings.zipIdx.filter fun (e, _) => !e.isDisabledAutoCount).map Prod.fst = q.active := by
  rw [active, ← List.zipIdx_map_fst 0 q.encodings, List.filter_map, List.zipIdx_map_fst]
  rfl

/-- The encodings are written in another order, without the auto counts that are switched off. -/
theorem perm_writtenInOrder (q : ChartQuery) (f : Encoding → Encoding) :
    (q.writtenInOrder.map fun p => f p.1).Perm (q.active.map f) := by
  have hactive : q.written.map (fun p => f p.1) = q.active.map f := by
    rw [← map_fst_shown, written, List.map_map, List.map_map]
    rfl
  rw [← hactive]
  exact (List.mergeSort_perm _ _).map _

theorem perm_told (q : ChartQuery) : q.told.encodings.Perm (q.active.map Encoding.told) :=
  q.perm_writtenInOrder Encoding.told

theorem perm_reread (q : ChartQuery) : q.reread.encodings.Perm (q.active.map Encoding.reread) :=
  q.perm_writtenInOrder Encoding.reread

theorem of_mem_written {q : ChartQuery} (h : q.IsRecoverable) {p : Encoding × String}
    (hp : p ∈ q.written) : p.1.IsRecoverable ∧ p.1.isDisabledAutoCount = false ∧
      ∃ stackOffset : Option String, (∀ o ∈ stackOffset, '"' ∉ o.toList) ∧
        p.2 = encodingWith Include.all [] p.1 stackOffset := by
  obtain ⟨⟨e, i⟩, he, rfl⟩ := List.mem_map.mp hp
  obtain ⟨hmem, hshown⟩ := List.mem_filter.mp he
  refine ⟨h.encodings e (List.mem_filter.mpr ⟨List.fst_mem_of_mem_zipIdx hmem, hshown⟩),
    by simpa using hshown, _, fun o ho => ?_, rfl⟩
  obtain ⟨s, hs, rfl⟩ := Option.map_eq_some_iff.mp ho
  have hunquoted : ∀ o ∈ stackOffsets, '"' ∉ o.toList := by decide
  exact hunquoted _ (mem_stackOffsets (stack?_eq_some (Option.filter_eq_some_iff.mp hs).1).1)

end ChartQuery

namespace Shorthand

variable {q : ChartQuery}

theorem texts_eq (h : q.IsRecoverable) :
    ((encodings Include.all [] q).filter (!·.isEmpty)).mergeSort (fun a b => !decide (b < a)) =
      q.writtenInOrder.map Prod.snd := by
  have htexts : encodings Include.all [] q = q.written.map Prod.snd := by
    rw [ChartQuery.written, List.map_map]
    rfl
  have hshown : (encodings Include.all [] q).filter (!·.isEmpty) = q.written.map Prod.snd := by
    rw [htexts, List.filter_eq_self]
    intro text htext
    obtain ⟨p, hp, rfl⟩ := List.mem_map.mp htext
    obtain ⟨hrecoverable, -, o, -, heq⟩ := ChartQuery.of_mem_written h hp
    simpa [heq] using encodingWith_ne_empty hrecoverable o
  have hsort := List.map_mergeSort (l := q.written) (f := Prod.snd)
    (r := fun a b => !decide (b.2 < a.2)) (s := fun a b => !decide (b < a)) fun _ _ _ _ => rfl
  rw [hshown, ChartQuery.writtenInOrder, hsort]

theorem intercalate_cons {α : Type} (d : α) (part : List α) (parts : List (List α)) :
    [d].intercalate (part :: parts) = part ++ parts.flatMap (d :: ·) := by
  induction parts generalizing part with
  | nil => simp [List.intercalate]
  | cons next parts ih => rw [List.intercalate_cons_cons, ih]; simp

/-- The parts behind the mark. -/
def partTexts (q : ChartQuery) : List String :=
  (q.transform.map fun steps => "transform:" ++ (Json.list steps).compact).toList ++
    q.writtenInOrder.map Prod.snd

/-- The mark as it is written. -/
def markText (q : ChartQuery) : String := slot [] .mark Vocabulary.name q.mark

theorem toList_shorthand (h : q.IsRecoverable) :
    q.shorthand.toList =
      (markText q).toList ++ ((partTexts q).map String.toList).flatMap ('|' :: ·) := by
  have hparts : q.shorthand = "|".intercalate (markText q :: partTexts q) := by
    unfold ChartQuery.shorthand query
    simp only [texts_eq h]
    cases ht : q.transform with
    | none => rw [partTexts, ht]; rfl
    | some steps =>
      cases steps with
      | nil => exact absurd rfl (h.transform [] ht).1
      | cons v rest => rw [partTexts, ht]; rfl
  rw [hparts, String.toList_intercalate, List.map_cons]
  exact intercalate_cons '|' _ _

theorem exists_markText (q : ChartQuery) : ∃ c rest, (markText q).toList = c :: rest := by
  unfold markText
  cases q.mark with
  | fixed m => cases m <;> exact ⟨_, _, rfl⟩
  | wild w => exact ⟨_, _, toList_shorthand_wildcard w⟩

theorem of_mem_writtenInOrder (h : q.IsRecoverable) {p : Encoding × String} (hp : p ∈ q.writtenInOrder) :
    Enclosed isUncut p.2.toList ∧ ∀ input q', readPart input q' p.2.toList =
      .ok { q' with encodings := q'.encodings ++ [p.1.told] } := by
  obtain ⟨hrecoverable, hshown, o, ho, heq⟩ := ChartQuery.of_mem_written h (List.mem_mergeSort.mp hp)
  rw [heq]
  exact ⟨enclosed_encodingWith hrecoverable hshown ho,
    fun input q' => readPart_encoding hrecoverable hshown ho input q'⟩

/-- Encodings are read one after another, in the order of their texts. -/
theorem foldlM_readPart {written : List (Encoding × String)} {input : List Char}
    (h : ∀ p ∈ written, ∀ q', readPart input q' p.2.toList =
      .ok { q' with encodings := q'.encodings ++ [p.1.told] }) (q' : ChartQuery) :
    (written.map fun p => p.2.toList).foldlM (readPart input) q' =
      .ok { q' with encodings := q'.encodings ++ written.map fun p => p.1.told } := by
  induction written generalizing q' with
  | nil =>
    rw [List.map_nil, List.map_nil, List.append_nil]
    rfl
  | cons p rest ih =>
    rw [List.map_cons, List.foldlM_cons, h p List.mem_cons_self]
    change (rest.map fun p => p.2.toList).foldlM (readPart input) _ = _
    rw [ih fun x hx => h x (List.mem_cons_of_mem _ hx)]
    simp

theorem foldlM_transform (h : q.IsRecoverable) (input : List Char) :
    (q.transform.map fun steps => ("transform:" ++ (Json.list steps).compact).toList).toList.foldlM
        (readPart input) { mark := q.mark } = .ok { mark := q.mark, transform := q.transform } := by
  cases ht : q.transform with
  | none => rfl
  | some steps =>
    change (readPart input _ ("transform:" ++ (Json.list steps).compact).toList >>= pure) = _
    rw [readPart_transform (h.transform steps ht).2]
    rfl

/-- The parts behind the mark are read into the query. -/
theorem foldlM_partTexts (h : q.IsRecoverable) (input : List Char) :
    ((partTexts q).map String.toList).foldlM (readPart input) { mark := q.mark } = .ok q.told := by
  have hencodings := foldlM_readPart (fun p hp q' => (of_mem_writtenInOrder h hp).2 input q')
    { mark := q.mark, transform := q.transform }
  rw [partTexts, List.map_append, List.map_map, List.foldlM_append, ← Option.toList_map,
    Option.map_map]
  simp only [Function.comp_def]
  rw [foldlM_transform h input]
  exact hencodings

theorem enclosed_partTexts (h : q.IsRecoverable) :
    ∀ part ∈ (partTexts q).map String.toList, Enclosed isUncut part := by
  intro part hpart
  obtain ⟨text, htext, rfl⟩ := List.mem_map.mp hpart
  rcases List.mem_append.mp htext with htext | htext
  · obtain ⟨steps, -, rfl⟩ := Option.map_eq_some_iff.mp (Option.mem_toList.mp htext)
    exact enclosed_transform steps
  · obtain ⟨p, hp, rfl⟩ := List.mem_map.mp htext
    exact (of_mem_writtenInOrder h hp).1

end Shorthand

namespace ChartQuery

/-- What is written of a recoverable query is read. -/
theorem IsRecoverable.ofShorthand_eq {q : ChartQuery} (h : q.IsRecoverable) :
    ofShorthand q.shorthand = .ok q.told := by
  have hmark : readSlot (readWord Mark) (markText q).toList = .ok q.mark :=
    readSlot_word .mark isLower_mark h.mark
  have hsplit : splitTop '|' 0 .outside q.shorthand.toList =
      (markText q).toList :: (partTexts q).map String.toList := by
    rw [toList_shorthand h]
    exact splitTop_intercalate rfl (List.forall_mem_cons.mpr
      ⟨enclosed_word isLower_mark q.mark, enclosed_partTexts h⟩)
  obtain ⟨c, rest, hname⟩ := exists_markText q
  unfold ofShorthand
  rw [hname] at hmark hsplit
  simp only [hsplit, hmark]
  exact foldlM_partTexts h _

theorem IsTransparent.told_eq {q : ChartQuery} (h : q.IsTransparent) : q.told = q.reread := by
  have hencodings : (q.writtenInOrder.map fun p => p.1.told) =
      q.writtenInOrder.map fun p => p.1.reread := by
    refine List.map_congr_left fun p hp => Encoding.IsTransparent.told_eq ?_
    have hactive : p.1 ∈ q.active := by
      rw [← map_fst_shown]
      obtain ⟨x, hx, rfl⟩ := List.mem_map.mp (List.mem_mergeSort.mp hp)
      exact List.mem_map_of_mem hx
    exact h.encodings p.1 hactive
  rw [told, hencodings]
  rfl

theorem IsTransparent.ofShorthand_eq {q : ChartQuery} (h : q.IsTransparent) :
    ofShorthand q.shorthand = .ok q.reread := by
  rw [h.isRecoverable.ofShorthand_eq, h.told_eq]

/-- The shorthand of a legible query reads back as the query, up to the order of its encodings and
its auto counts. -/
theorem ofShorthand_shorthand {q : ChartQuery} (h : q.IsLegible) :
    ofShorthand q.shorthand = .ok q.reread ∧
      q.reread.encodings.Perm (q.active.map Encoding.reread) :=
  ⟨h.isTransparent.ofShorthand_eq, q.perm_reread⟩

/-- Prices in bins on one axis and a count on the other, of the rows that pass a filter with bars in
it; the count for the colour is switched off. -/
def binnedPrices : ChartQuery where
  mark := .fixed .bar
  transform := some [.object [("filter", .text "a || b")]]
  encodings := [
    .value (.fixed .size) (.fixed (.text "x:1")),
    .field {
      channel := .fixed .x
      field := .fixed "price"
      type := .fixed .quantitative
      bin := some (.on { maxbins := some (.fixed 10) })
      scale := some (.on { zero := some (.fixed false) })
      axis := some .off },
    .autoCount (.fixed .color) (.fixed false),
    .autoCount (.fixed .y) (.fixed true)]

theorem isLegible_binnedPrices : binnedPrices.IsLegible where
  data := rfl
  mark := rfl
  transform steps h := by
    obtain rfl := Option.some.inj h
    refine ⟨List.cons_ne_nil _ _, fun v hv => ?_⟩
    obtain rfl := List.mem_singleton.mp hv
    exact .object (List.pairwise_singleton _ _) fun m hm => by
      obtain rfl := List.mem_singleton.mp hm
      exact .text _
  encodings e h := by
    simp only [binnedPrices, List.mem_cons, List.not_mem_nil, or_false] at h
    rcases h with rfl | rfl | rfl | rfl
    · exact ⟨rfl, _, rfl, .text _, by decide⟩
    · have hmaxbins : (encode (Slot.fixed (10 : UInt32))).Legible Json.depthLimit :=
        .number (Number.isLegible_int _ _)
      refine {
        channel := rfl
        type := rfl
        field := ⟨"price", rfl, by simp [IsPlainName]⟩
        hasFunction := rfl
        aggregate := rfl
        aggregateName := by decide
        timeUnit := rfl
        bin := fun t ht => ?_
        single := by decide
        scale := fun t ht => ?_
        sort := fun _ h => absurd h (Option.not_mem_none _)
        axis := fun t ht => ?_
        legend := fun _ h => absurd h (Option.not_mem_none _) }
      · obtain rfl := Option.some.inj ht
        refine ⟨_, rfl, fun s hs => ?_, fun p v hv => ?_⟩
        · obtain rfl := Option.some.inj hs
          rfl
        · cases p with
          | maxbins =>
            obtain rfl := Option.some.inj hv
            exact ⟨hmaxbins, fun _ h => absurd h Json.noConfusion⟩
          | _ => contradiction
      · obtain rfl := Option.some.inj ht
        refine ⟨fun p v hv => ?_, .zero, rfl⟩
        cases p with
        | zero =>
          obtain rfl := Option.some.inj hv
          exact ⟨false, rfl, .bool false, id, Json.noConfusion⟩
        | _ => contradiction
      · obtain rfl := Option.some.inj ht
        exact ⟨trivial, rfl⟩
    · exact ⟨rfl, rfl⟩
    · exact ⟨rfl, rfl⟩
  config := rfl

theorem ofShorthand_shorthand_binnedPrices :
    ofShorthand binnedPrices.shorthand = .ok {
      mark := .fixed .bar
      transform := some [.object [("filter", .text "a || b")]]
      encodings := [
        .value (.fixed .size) (.fixed (.text "x:1")),
        .field {
          channel := .fixed .x
          field := .fixed "price"
          type := .fixed .quantitative
          bin := some (.on { maxbins := some (.fixed 10) })
          scale := some (.on { zero := some (.fixed false) })
          axis := some .off },
        .field (.countOfRows (.fixed .y))] } := by
  have hordered : binnedPrices.writtenInOrder = binnedPrices.written :=
    List.mergeSort_of_pairwise (by decide +kernel)
  have hreread := (ofShorthand_shorthand isLegible_binnedPrices).1
  rw [hreread, reread, hordered]
  rfl

end ChartQuery

/-! ## Constants that do not read back -/

namespace Json

/-- A list in a list in a list, with `depth` lists around an empty one. -/
def nested : (depth : Nat) → Json
  | 0 => .list []
  | depth + 1 => .list [nested depth]

theorem legible_nested (depth : Nat) : (nested depth).Legible (depth + 1) := by
  induction depth with
  | zero => exact .list nofun
  | succ depth ih =>
    refine .list fun v hv => ?_
    rw [List.mem_singleton.mp hv]
    exact ih

theorem toJson?_nested {limit depth : Nat} (h : limit ≤ depth) :
    (Document.ofJson (nested depth)).toJson? .byMeaning limit = none := by
  induction limit generalizing depth with
  | zero => cases depth <;> rw [nested, Document.ofJson, Document.toJson?]
  | succ limit ih =>
    cases depth with
    | zero => exact absurd h (by omega)
    | succ depth =>
      rw [nested, Document.ofJson, Document.toJson?, Document.ofItems, Document.itemsToJson?,
        ih (Nat.le_of_succ_le_succ h)]
      rfl

theorem read?_nested {depth : Nat} (h : depthLimit ≤ depth) : read? (nested depth).chars = none := by
  rw [read?, (legible_nested depth).readDocument?_chars, Option.bind_some, toJson?_nested h]

end Json

namespace ChartQuery

/-- A query that shows a constant on one axis. -/
def constant (v : Slot Json) : ChartQuery where
  mark := .fixed .point
  encodings := [.value (.fixed .x) v]

theorem shorthand_constant (v : Json) :
    (constant (.fixed v)).shorthand = "point|x:value=" ++ v.compact := by
  have hdefinition : ("value=" ++ v.compact).isEmpty = false := by simp
  have hencoding : ("x:value=" ++ v.compact).isEmpty = false := by simp
  have hencodings : Shorthand.encodings Include.all [] (constant (.fixed v)) =
      ["x:value=" ++ v.compact] := by
    change [":".intercalate (["x"] ++
      if ("value=" ++ v.compact).isEmpty then [] else ["value=" ++ v.compact])] = _
    rw [hdefinition]
    rfl
  unfold shorthand query
  rw [hencodings, List.filter_cons_of_pos (by rw [hencoding]; rfl), List.filter_nil,
    List.mergeSort_singleton]
  rfl

/-- A constant reads back as whatever its text is read as. -/
theorem ofShorthand_constant {v : Json} {read : Slot Json} (h : readInto (Slot Json) v.chars = .ok read) :
    ofShorthand (constant (.fixed v)).shorthand = .ok (constant read) := by
  have htext : (constant (.fixed v)).shorthand.toList =
      "point".toList ++ ["x:value=".toList ++ v.chars].flatMap ('|' :: ·) := by
    rw [shorthand_constant]
    simp [Json.compact]
  have hpart : Enclosed isUncut ("x:value=".toList ++ v.chars) := by
    have hstart : ∀ c ∈ "x:value=".toList, (isUncut c && decide (IsPlain c)) = true :=
      List.all_eq_true.mp rfl
    have henclosed : Enclosed isUncut "x:value=".toList :=
      .of_forall fun c hc => by simpa using hstart c hc
    exact henclosed.append (enclosed_uncut (enclosed_chars v))
  have hsplit : splitTop '|' 0 .outside (constant (.fixed v)).shorthand.toList =
      ["point".toList, "x:value=".toList ++ v.chars] := by
    rw [htext]
    exact splitTop_intercalate rfl (List.forall_mem_cons.mpr
      ⟨enclosed_lower (isLower_mark .point), List.forall_mem_singleton.mpr hpart⟩)
  have hread (input : List Char) :
      readPart input { mark := .fixed .point } ("x:value=".toList ++ v.chars) =
        .ok (constant read) := by
    change (do
      let e ← (do return Encoding.value (.fixed .x) (← readInto (Slot Json) v.chars))
      return ({ mark := .fixed .point, encodings := [] ++ [e] } : ChartQuery)) = _
    rw [h]
    rfl
  unfold ofShorthand
  simp only [hsplit]
  change (readPart _ { mark := .fixed .point } ("x:value=".toList ++ v.chars) >>= pure) = _
  rw [hread]
  rfl

theorem reread_constant (v : Json) : (constant (.fixed v)).reread = constant (.fixed v) := by
  have hone : (constant (.fixed v)).written =
      [(.value (.fixed .x) (.fixed v), encodingWith Include.all [] (.value (.fixed .x) (.fixed v)) none)] :=
    rfl
  rw [reread, writtenInOrder, hone, List.mergeSort_singleton]
  rfl

/-- A constant of which the reader makes another value does not come back. -/
theorem ofShorthand_constant_ne {v w : Json} (h : readValue v.chars = .ok w) (hopen : ¬w.LooksOpen)
    (hne : w ≠ v) :
    ofShorthand (constant (.fixed v)).shorthand ≠ .ok (constant (.fixed v)).reread := by
  have hread : readInto (Slot Json) v.chars = .ok (.fixed w) :=
    readInto_of_readValue h (Slot.decode_encode_fixed hopen)
  rw [ofShorthand_constant hread, reread_constant]
  intro heq
  have hvalues := congrArg ChartQuery.encodings (Except.ok.inj heq)
  simp only [constant, List.cons.injEq, Encoding.value.injEq, Slot.fixed.injEq] at hvalues
  exact hne hvalues.1.2

/-- The number nearest to 3e23. It is written in digits that the reader, which rounds after each
step, takes for the number before it. -/
def inexact : Json := .number (.float ⟨false, 8940696716308594, 25, by decide⟩)

/-- Neither a number that is rounded twice nor a list that is nested too deep reads back. -/
theorem ofShorthand_shorthand_limits :
    (¬inexact.LooksOpen ∧ ofShorthand (constant (.fixed inexact)).shorthand ≠
        .ok (constant (.fixed inexact)).reread) ∧
      ¬(Json.nested 127).LooksOpen ∧ ofShorthand (constant (.fixed (.nested 127))).shorthand ≠
        .ok (constant (.fixed (.nested 127))).reread := by
  have hinexact : readValue inexact.chars =
      .ok (.number (.float ⟨false, 8940696716308593, 25, by decide⟩)) := by
    have hread : Json.read? inexact.chars =
        some (.number (.float ⟨false, 8940696716308593, 25, by decide⟩)) := by decide +kernel
    rw [readValue_eq, hread]
    rfl
  have hnested : readValue (Json.nested 127).chars = .ok (.text (Json.nested 127).compact) := by
    rw [readValue_eq, Json.read?_nested (Nat.le_refl 127)]
    rfl
  exact ⟨⟨id, ofShorthand_constant_ne hinexact id (by decide +kernel)⟩, id,
    ofShorthand_constant_ne hnested (not_looksOpen_compact _) nofun⟩

end ChartQuery
end ChartAdvisor
