import ChartAdvisor.Proofs.Shorthand.Cutting
import ChartAdvisor.Proofs.Shorthand.Recoverable

/-!
# Parameters that read back

Each parameter that is written for a recoverable field sets, when it is read, what it was written for.
The parameters of a bin make up the whole bin again, although they are read one by one into a bin
that starts with none of them.
-/
namespace ChartAdvisor

/-! ## Bins -/

namespace Bin

/-- A bin with a parameter taken over from another one, where that one has it. -/
def patch (b origin : Bin) : BinParameter → Bin
  | .maxbins => { b with maxbins := origin.maxbins.or b.maxbins }
  | .extent => { b with extent := origin.extent.or b.extent }
  | .base => { b with base := origin.base.or b.base }
  | .step => { b with step := origin.step.or b.step }
  | .steps => { b with steps := origin.steps.or b.steps }
  | .minstep => { b with minstep := origin.minstep.or b.minstep }
  | .divide => { b with divide := origin.divide.or b.divide }

theorem patch_of_none {origin : Bin} {p : BinParameter} (h : origin.get? p = none) (b : Bin) :
    b.patch origin p = b := by
  cases p with
  | maxbins =>
    have hnone : origin.maxbins = none := Option.map_eq_none_iff.mp h
    simp only [patch, hnone, Option.none_or]
  | extent | base | step | steps | minstep | divide =>
    simp only [get?] at h
    simp only [patch, h, Option.none_or]

/-- A parameter reads back as it was, open or not. -/
theorem set_eq {origin : Bin} {p : BinParameter} {v : Json} (hv : origin.get? p = some v) (b : Bin) :
    b.set p v = .ok (b.patch origin p) := by
  cases p with
  | maxbins =>
    obtain ⟨s, hs, rfl⟩ := Option.map_eq_some_iff.mp hv
    have hread : decode (encode s) = Except.ok s := by
      cases s with
      | wild w => exact Slot.decode_encode_wild w
      | fixed n =>
        have hopen : ¬(encode n).LooksOpen := id
        exact Slot.decode_encode_fixed hopen
    change (decode (encode s)).map _ = _
    rw [hread, patch, hs]
    rfl
  | extent | base | step | steps | minstep | divide =>
    simp only [get?] at hv
    simp only [set, patch, hv, Option.some_or]

theorem foldl_patch (origin : Bin) : Vocabulary.all.foldl (fun b p => b.patch origin p) {} = origin := by
  change ([.maxbins, .extent, .base, .step, .steps, .minstep, .divide] : List BinParameter).foldl
    (fun b p => b.patch origin p) {} = origin
  simp only [List.foldl_cons, List.foldl_nil, patch, Option.or_none]

end Bin

/-! ## Settings -/

namespace Json

theorem Legible.of_object {depth : Nat} {members : Members}
    (h : (Json.object members).Legible (depth + 1)) :
    Table.Ascending members ∧ ∀ m ∈ members, m.2.Legible depth := by
  cases h with
  | object ordered legible => exact ⟨ordered, legible⟩

theorem legible_ofPresent {depth : Nat} {members : List (String × Option Json)}
    (ordered : members.Pairwise fun a b => a.1 < b.1)
    (h : ∀ m ∈ members, ∀ v ∈ m.2, v.Legible depth) : (ofPresent members).Legible (depth + 1) := by
  refine .object (ordered.filterMap _ fun a b hab x hx y hy => ?_) fun m hm => ?_
  · obtain ⟨v, -, rfl⟩ := Option.map_eq_some_iff.mp hx
    obtain ⟨w, -, rfl⟩ := Option.map_eq_some_iff.mp hy
    exact hab
  · obtain ⟨n, hn, hnm⟩ := List.mem_filterMap.mp hm
    obtain ⟨v, hv, rfl⟩ := Option.map_eq_some_iff.mp hnm
    exact h n hn v hv

end Json

namespace Shorthand

theorem lookup_scaleMembers (s : Scale) (p : ScaleProperty) :
    (scaleMembers Include.all s).lookup (Vocabulary.name p) = s.json? p := by
  have hnodup : Property.scaleParts.Nodup := by decide
  have hp : p ∈ Property.scaleParts := by cases p <;> decide
  refine (Json.lookup_extend (Vocabulary.nodup_named s.json? hnodup) (Vocabulary.name p)).trans ?_
  rw [Vocabulary.lookup_named, if_pos hp, List.lookup_nil, Option.or_none]

theorem mem_scaleMembers {s : Scale} {m : String × Json} (h : m ∈ scaleMembers Include.all s) :
    ∃ p, s.json? p = some m.2 ∧ m.1 = Vocabulary.name p := by
  rcases Json.mem_of_mem_extend h with h | h
  · contradiction
  · obtain ⟨p, -, hp⟩ := List.mem_filterMap.mp h
    obtain ⟨v, hv, rfl⟩ := Option.map_eq_some_iff.mp hp
    exact ⟨p, hv, rfl⟩

end Shorthand

open Shorthand

/-- Settings of a kind have a legible JSON form that reads back. -/
structure SettingsTold {α : Type} [Settings α] (members : α → Json.Members) (P : α → Prop) :
    Prop where
  legible : ∀ t, P t → (Json.object (members t)).Legible Json.depthLimit
  decode_eq : ∀ t, P t → decode (.object (members t)) = Except.ok t
  decode_nil : decode (.object []) = Except.ok (Settings.none : α)

theorem SettingsTold.eq_none {α : Type} [Settings α] {members : α → Json.Members} {P : α → Prop}
    (told : SettingsTold members P) {t : α} (h : P t) (hnil : members t = []) : t = Settings.none := by
  have hread := told.decode_eq t h
  rw [hnil, told.decode_nil] at hread
  exact (Except.ok.inj hread).symm

theorem settingsTold_scale : SettingsTold (scaleMembers Include.all) Scale.IsRecoverable where
  legible s h := by
    refine .object (Json.ascending_extend List.Pairwise.nil _) fun m hm => ?_
    obtain ⟨p, hp, -⟩ := mem_scaleMembers hm
    rw [h.json?_eq] at hp
    obtain ⟨v, hv, hm⟩ := Option.map_eq_some_iff.mp hp
    rw [← hm]
    exact (h p v hv).2.2
  decode_eq s h := h.decode_eq (lookup_scaleMembers s)
  decode_nil := rfl

/-- No part of a scale is called like a key of a wildcard. -/
theorem keys_scaleMembers (s : Scale) :
    ∀ key ∈ Wildcard.keys, (scaleMembers Include.all s).lookup key = none := by
  intro key hkey
  rw [List.lookup_eq_none_iff]
  intro m hm
  obtain ⟨p, -, hname⟩ := mem_scaleMembers hm
  rw [hname]
  simpa using (Scale.name_notMem_keys key hkey p).symm

theorem settingsTold_guide : SettingsTold Guide.members Guide.IsRecoverable where
  legible _ h := h
  decode_eq _ _ := rfl
  decode_nil := rfl

instance : LegibleCoded Sorting where
  legible_encode s depth := by
    cases s with
    | order o => exact .text _
    | field name op direction =>
      refine Json.legible_ofPresent ?_ fun m hm v hv => ?_
      · simp only [List.pairwise_cons, List.mem_cons, List.not_mem_nil, or_false, forall_eq_or_imp,
          forall_eq, List.Pairwise.nil, and_true, false_imp_iff, implies_true]
        decide
      · simp only [List.mem_cons, List.not_mem_nil, or_false] at hm
        rcases hm with rfl | rfl | rfl
        · cases hv
          exact .text name
        · obtain ⟨a, -, rfl⟩ := Option.map_eq_some_iff.mp hv
          exact .text _
        · obtain ⟨a, -, rfl⟩ := Option.map_eq_some_iff.mp hv
          exact .text _

namespace Shorthand

/-! ## The texts of the parameters -/

/-- The text of a slot as the value of a parameter. -/
def slotText {α : Type} [Coded α] : Slot α → String
  | .fixed v => (encode v).compact
  | .wild w => w.shorthand

/-- The text of a part that is switched off, on or open, as the value of a parameter. -/
def toggleText {α : Type} (members : α → Json.Members) : Toggle α → String
  | .off => (Json.bool false).compact
  | .on t => (Json.object (members t)).compact
  | .wild w t =>
    if (members t).isEmpty then w.shorthand
    else (Json.object (Json.extend (members t) w.members)).compact

/-- The text of a parameter of a bin. -/
def binText (b : Bin) (p : BinParameter × Json) : String :=
  match p.1, b.maxbins with
  | .maxbins, some (.wild w) => w.shorthand
  | _, _ => p.2.compact

/-- The parameters of a recoverable field, as keys and texts. -/
def parameterTexts (q : FieldEncoding) (stackOffset : Option String) : List (String × String) :=
  (q.bin?.map fun b => b.parameters.map fun p => (Vocabulary.name p.1, binText b p)).getD [] ++
    (q.scale.map fun t => ("scale", toggleText (scaleMembers Include.all) t)).toList ++
    (q.sort.map fun s => ("sort", slotText s)).toList ++
    (q.axis.map fun t => ("axis", toggleText Guide.members t)).toList ++
    (q.legend.map fun t => ("legend", toggleText Guide.members t)).toList ++
    (stackOffset.map fun o => ("stack", (Json.text o).compact)).toList

/-- A parameter as it is written. -/
def parameterText (p : String × String) : String := p.1 ++ "=" ++ p.2

theorem binParameters_eq (b : Bin) :
    binParameters Include.all b =
      (b.parameters.map fun p => (Vocabulary.name p.1, binText b p)).map parameterText := by
  unfold binParameters
  rw [List.map_map, ← List.filterMap_eq_map]
  congr 1
  funext (p, v)
  have hshown : ¬(p = .maxbins ∧ (!Include.all .maxBins) = true) := by simp [Include.all]
  simp only [if_neg hshown]
  rfl

theorem toggleParameter_eq {α : Type} {key : String} {members : α → Json.Members} {P : α → Prop}
    {t : Toggle α} (h : t.IsRecoverable members P) :
    toggleParameter key t ((t.inner?.map members).getD []) =
      some (parameterText (key, toggleText members t)) := by
  cases t with
  | off =>
    rw [parameterText, String.append_assoc]
    rfl
  | on t =>
    have hne : (members t).isEmpty = false := List.isEmpty_eq_false_iff.mpr h.2.1
    simp [toggleParameter, Toggle.inner?, hne, parameterText, toggleText]
  | wild w t =>
    rw [parameterText, toggleText]
    change (if (members t).isEmpty then some _ else some _) = _
    split <;> rfl

theorem guideParameter_eq (key : String) {guide : Option (Toggle Guide)} {c : Slot Channel}
    {supports : Channel → Bool}
    (h : ∀ t ∈ guide, t.IsRecoverable Guide.members Guide.IsRecoverable ∧ c.value?.all supports) :
    (if true && c.value?.all supports then
      guide.bind fun t => toggleParameter key t ((t.inner?.map Guide.members).getD [])
    else none) =
      (guide.map fun t => (key, toggleText Guide.members t)).map parameterText := by
  cases guide with
  | none => exact ite_self none
  | some t =>
    obtain ⟨hrecoverable, hsupported⟩ := h t rfl
    rw [hsupported, Bool.and_self, if_pos rfl]
    exact toggleParameter_eq hrecoverable

theorem parameters_eq {q : FieldEncoding} (h : q.IsRecoverable) (stackOffset : Option String) :
    parameters Include.all q stackOffset = (parameterTexts q stackOffset).map parameterText := by
  have hbin : (q.bin?.map (binParameters Include.all)).getD [] =
      ((q.bin?.map fun b => b.parameters.map fun p => (Vocabulary.name p.1, binText b p)).getD []).map
        parameterText := by
    cases hb : q.bin? with
    | none => rfl
    | some b => exact binParameters_eq b
  have hscale : (q.scale.bind fun t =>
        toggleParameter "scale" t ((t.inner?.map (scaleMembers Include.all)).getD [])) =
      (q.scale.map fun t => ("scale", toggleText (scaleMembers Include.all) t)).map
        parameterText := by
    cases hs : q.scale with
    | none => rfl
    | some t => exact toggleParameter_eq (h.scale t hs)
  have hsort : q.sort.map sorting = (q.sort.map fun s => ("sort", slotText s)).map parameterText := by
    rcases q.sort with _ | _ | _ <;> rfl
  have haxis := guideParameter_eq "axis" h.axis
  have hlegend := guideParameter_eq "legend" h.legend
  have hstack : (stackOffset.map fun o => "stack=" ++ (Json.text o).compact) =
      (stackOffset.map fun o => ("stack", (Json.text o).compact)).map parameterText := by
    rw [Option.map_map]
    rfl
  simp only [parameterTexts, List.map_append, ← Option.toList_map]
  rw [← hbin, ← hscale, ← hsort, ← haxis, ← hlegend, ← hstack]
  rfl

/-! ## Reading a value -/

/-- No JSON text looks like an open slot. -/
theorem chars_ne_mark (v : Json) (rest : List Char) : v.chars ≠ '?' :: rest := by
  intro h
  have henclosed := enclosed_chars v
  rw [h] at henclosed
  cases henclosed with
  | plain accepted => exact absurd accepted (by decide)
  | bracketed opening => exact absurd opening (by decide)

theorem not_looksOpen_compact (v : Json) : ¬(Json.text v.compact).LooksOpen := by
  intro h
  exact chars_ne_mark v [] (String.toList_ofList.symm.trans (congrArg String.toList h))

/-- What stands in a text for a JSON value is read as JSON if it can be, and as a text if not. -/
theorem readValue_eq (v : Json) :
    readValue v.chars = .ok ((Json.read? v.chars).getD (.text v.compact)) := by
  unfold readValue
  split
  · next heq => exact absurd heq (chars_ne_mark v _)
  · next heq => exact absurd heq (chars_ne_mark v _)
  · rfl

theorem readValue_chars {v : Json} (h : v.Legible Json.depthLimit) : readValue v.chars = .ok v := by
  rw [readValue_eq, h.read?_chars]
  rfl

theorem readInto_of_readValue {α : Type} [Coded α] {raw : List Char} {v : Json} {a : α}
    (h : readValue raw = .ok v) (ha : decode v = .ok a) : readInto α raw = .ok a := by
  unfold readInto
  rw [h]
  change inFragment raw (decode v) = .ok a
  rw [ha]
  rfl

theorem readInto_chars {α : Type} [Coded α] {v : Json} (h : v.Legible Json.depthLimit) {a : α}
    (ha : decode v = .ok a) : readInto α v.chars = .ok a :=
  readInto_of_readValue (readValue_chars h) ha

/-- A wildcard without a name is a mark, with a list behind it if it has candidates. -/
theorem eq_short_or_ofCandidates {α : Type} {w : Wildcard α} (h : w.name = none) :
    w = .short ∨ ∃ vs, w = .ofCandidates vs := by
  obtain ⟨name, candidates⟩ := w
  obtain rfl : name = none := h
  cases candidates with
  | none => exact .inl rfl
  | some vs => exact .inr ⟨vs, rfl⟩

/-- The text of an open slot is a mark with the list of its candidates behind it, if it has any. -/
theorem toList_shorthand_wildcard {α : Type} [Coded α] (w : Wildcard α) :
    w.shorthand.toList = '?' :: w.candidates.elim [] fun vs => (encode vs).chars := by
  have hmark : Wildcard.mark.toList = ['?'] := by decide
  unfold Wildcard.shorthand
  cases w.candidates with
  | none => exact hmark
  | some vs => simp [hmark, Json.compact]

theorem exists_chars_encode {α : Type} [Coded α] (vs : List α) :
    ∃ rest, (encode vs).chars = '[' :: rest := by
  obtain ⟨body, hbody, -⟩ := chars_list fun v (_ : v ∈ vs.map encode) => enclosed_chars v
  exact ⟨_, hbody⟩

/-- An open slot is read as the object that is written for it in JSON. -/
theorem readValue_shorthand {α : Type} [Coded α] {w : Wildcard α} (h : w.IsTransparent) :
    readValue w.shorthand.toList = .ok w.toJson := by
  rw [toList_shorthand_wildcard]
  rcases eq_short_or_ofCandidates h.name with rfl | ⟨vs, rfl⟩
  · rfl
  · have hlegible : (encode vs).Legible Json.depthLimit := .list fun v hv => by
      obtain ⟨a, ha, rfl⟩ := List.mem_map.mp hv
      exact h.candidates vs rfl a ha
    have hread : readJson Json (encode vs).chars = .ok (encode vs) := by
      have hread? : Json.readTextAs? Json (encode vs).chars = some (encode vs) := hlegible.read?_chars
      unfold readJson
      rw [hread?]
      rfl
    obtain ⟨rest, hrest⟩ := exists_chars_encode vs
    change readValue ('?' :: (encode vs).chars) = _
    rw [hrest] at hread ⊢
    change (readJson Json ('[' :: rest)).map _ = _
    rw [hread]
    rfl

/-- A slot reads back from its text. -/
theorem readInto_slot {α : Type} [Coded α] [LawfulCoded α] {s : Slot α} (h : s.IsTransparent) :
    readInto (Slot α) (slotText s).toList = .ok s := by
  cases s with
  | fixed v =>
    have htext : (slotText (Slot.fixed v)).toList = (encode v).chars := String.toList_ofList
    rw [htext]
    exact readInto_chars h.1 (Slot.decode_encode_fixed h.2)
  | wild w => exact readInto_of_readValue (readValue_shorthand h) (Slot.decode_encode_wild w)

/-- With what is said of a switch among them, settings are as legible as before. -/
theorem legible_extend {members : Json.Members} (h : (Json.object members).Legible Json.depthLimit)
    (w : Wildcard Bool) : (Json.object (Json.extend members w.members)).Legible Json.depthLimit := by
  obtain ⟨ordered, legible⟩ := h.of_object
  refine .object (Json.ascending_extend ordered _) fun m hm => ?_
  rcases Json.mem_of_mem_extend hm with hm | hm
  · exact legible m hm
  · rcases List.mem_append.mp hm with hm | hm
    · obtain ⟨n, -, rfl⟩ := Option.map_eq_some_iff.mp (Option.mem_toList.mp hm)
      exact .text n
    · obtain ⟨vs, -, rfl⟩ := Option.map_eq_some_iff.mp (Option.mem_toList.mp hm)
      refine .list fun v hv => ?_
      obtain ⟨b, -, rfl⟩ := List.mem_map.mp hv
      exact .bool b

/-- So does a part that may be switched off, on or open. -/
theorem readInto_toggle {α : Type} [Settings α] {members : α → Json.Members} {P : α → Prop}
    (told : SettingsTold members P) {t : Toggle α} (h : t.IsRecoverable members P) :
    readInto (Toggle α) (toggleText members t).toList = .ok t := by
  have hcompact (v : Json) : v.compact.toList = v.chars := String.toList_ofList
  cases t with
  | off =>
    rw [toggleText, hcompact]
    exact readInto_chars (.bool false) Toggle.decode_off
  | on t =>
    obtain ⟨hP, -, hkeys⟩ := h
    rw [toggleText, hcompact]
    exact readInto_chars (told.legible t hP) (Toggle.decode_on hkeys (told.decode_eq t hP))
  | wild w t =>
    obtain ⟨hP, halone, hbeside, hname, henum, hvalues⟩ := h
    by_cases hnil : members t = []
    · have hnone := told.eq_none hP hnil
      have hname := halone hnil
      rw [toggleText, if_pos (List.isEmpty_iff.mpr hnil), hnone]
      refine readInto_of_readValue (readValue_shorthand (Wildcard.isTransparent_of_nameless hname)) ?_
      rcases eq_short_or_ofCandidates hname with rfl | ⟨vs, rfl⟩
      · exact Toggle.decode_short
      · exact Toggle.decode_wild (w := .ofCandidates vs) List.Pairwise.nil rfl rfl nofun rfl
          told.decode_nil
    · rw [toggleText, if_neg (by simpa using hnil), hcompact]
      exact readInto_chars (legible_extend (told.legible t hP) w)
        (Toggle.decode_wild (told.legible t hP).of_object.1 hname henum hvalues (hbeside hnil)
          (told.decode_eq t hP))

theorem readValue_binText {b : Bin} (h : b.IsTransparent) {p : BinParameter} {v : Json}
    (hv : b.get? p = some v) : readValue (binText b (p, v)).toList = .ok v := by
  have hcompact : readValue v.compact.toList = .ok v := by
    rw [Json.compact, String.toList_ofList]
    exact readValue_chars (h.parameter p v hv).1
  cases p with
  | maxbins =>
    obtain ⟨s, hs, rfl⟩ := Option.map_eq_some_iff.mp hv
    cases s with
    | fixed n =>
      rw [binText, hs]
      exact hcompact
    | wild w =>
      rw [binText, hs]
      exact readValue_shorthand (Wildcard.isTransparent_of_nameless (h.maxbins _ hs w rfl))
  | extent | base | step | steps | minstep | divide => exact hcompact

/-! ## Adding a parameter to a field -/

variable {input : List Char}

theorem add_bin {b : Bin} (h : b.IsTransparent) {p : BinParameter} {v : Json} (hv : b.get? p = some v)
    (f : RawField) :
    f.add input (Vocabulary.name p).toList (binText b (p, v)).toList =
      .ok { f with bin := some ((f.bin.getD {}).patch b p) } := by
  unfold RawField.add
  simp only [String.ofList_toList, ofName?_name, readValue_binText h hv]
  change (inFragment _ ((f.bin.getD {}).set p v) >>= _) = _
  rw [Bin.set_eq hv]
  rfl

theorem isTransparent_sort {s : Slot Sorting} (h : s.IsNameless) : s.IsTransparent := by
  cases s with
  | fixed s => exact ⟨legible_encode s _, not_looksOpen_sorting s⟩
  | wild w => exact Wildcard.isTransparent_of_nameless (h w rfl)

/-- The offset of a stack follows from the query and is passed over. -/
theorem add_stack (f : RawField) (raw : List Char) : f.add input "stack".toList raw = .ok f := rfl

/-- Adds one parameter after another. -/
def addAll (input : List Char) (f : RawField) (parameters : List (String × String)) : Result RawField :=
  parameters.foldlM (fun f p => f.add input p.1.toList p.2.toList) f

theorem addAll_append {f g : RawField} {a : List (String × String)} (h : addAll input f a = .ok g)
    (b : List (String × String)) : addAll input f (a ++ b) = addAll input g b := by
  unfold addAll at *
  rw [List.foldlM_append, h]
  rfl

/-- A parameter that may be absent. -/
theorem addAll_toList {α : Type} {f : RawField} (input : List Char) (a : Option α)
    (text : α → String × String) (put : Option α → RawField) (absent : put none = f)
    (present : ∀ x ∈ a, f.add input (text x).1.toList (text x).2.toList = .ok (put (some x))) :
    addAll input f (a.map text).toList = .ok (put a) := by
  cases a with
  | none => exact congrArg Except.ok absent.symm
  | some x =>
    change (f.add input (text x).1.toList (text x).2.toList >>= pure) = _
    rw [present x rfl]
    rfl

/-- A parameter of which the text is read into a part of the definition. -/
theorem addAll_read {α : Type} [Coded α] {f : RawField} {text : α → String} (input : List Char)
    (name : String) (a : Option α) (put : Option α → RawField) (absent : put none = f)
    (named : ∀ raw, f.add input name.toList raw = do return put (some (← readInto α raw)))
    (read : ∀ x ∈ a, readInto α (text x).toList = .ok x) :
    addAll input f (a.map fun x => (name, text x)).toList = .ok (put a) := by
  refine addAll_toList input a _ put absent fun x hx => ?_
  rw [named, read x hx]
  rfl

/-- The parameters of a bin patch the bin that is read, whatever it is so far. -/
theorem addAll_bin (input : List Char) {b : Bin} (h : b.IsTransparent) (parameters : List BinParameter)
    (f : RawField) :
    ∃ bin, addAll input f ((parameters.filterMap fun p => (b.get? p).map (p, ·)).map fun p =>
        (Vocabulary.name p.1, binText b p)) = .ok { f with bin } ∧
      bin.getD {} = parameters.foldl (fun b' p => b'.patch b p) (f.bin.getD {}) := by
  induction parameters generalizing f with
  | nil => exact ⟨f.bin, rfl, rfl⟩
  | cons p parameters ih =>
    cases hv : b.get? p with
    | none =>
      obtain ⟨bin, hadd, hbin⟩ := ih f
      refine ⟨bin, ?_, ?_⟩
      · rw [List.filterMap_cons_none (by rw [hv]; rfl), hadd]
      · rw [hbin, List.foldl_cons, Bin.patch_of_none hv]
    | some v =>
      obtain ⟨bin, hadd, hbin⟩ := ih { f with bin := some ((f.bin.getD {}).patch b p) }
      refine ⟨bin, ?_, hbin⟩
      rw [List.filterMap_cons_some (by rw [hv]; rfl)]
      unfold addAll at *
      rw [List.map_cons, List.foldlM_cons, add_bin h hv]
      exact hadd

/-- The parameters of a recoverable field read back as the field without its function, and beside it
what is needed of its bin. -/
theorem addAll_parameterTexts (input : List Char) {q : FieldEncoding} (h : q.IsRecoverable)
    (stackOffset : Option String) :
    ∃ bin, addAll input { query := { channel := q.channel, field := q.field, type := q.type } }
        (parameterTexts q stackOffset) = .ok { query := q.withoutFunction, bin } ∧
      bin.getD {} = q.bin?.getD {} ∧ (q.bin = none → bin = none) := by
  obtain ⟨bin, hbin, hvalue, habsent⟩ : ∃ bin,
      addAll input { query := { channel := q.channel, field := q.field, type := q.type } }
        ((q.bin?.map fun b => b.parameters.map fun p => (Vocabulary.name p.1, binText b p)).getD []) =
        .ok { query := { channel := q.channel, field := q.field, type := q.type }, bin } ∧
      bin.getD {} = q.bin?.getD {} ∧ (q.bin = none → bin = none) := by
    cases hb : q.bin with
    | none => exact ⟨none, by simp [FieldEncoding.bin?, hb, addAll]; rfl⟩
    | some t =>
      obtain ⟨b, hinner, htransparent⟩ := h.exists_bin hb
      obtain ⟨bin, hadd, hbin⟩ := addAll_bin input htransparent Vocabulary.all
        { query := { channel := q.channel, field := q.field, type := q.type } }
      refine ⟨bin, ?_, ?_, fun h => absurd h (Option.some_ne_none _)⟩
      · rw [hinner]
        exact hadd
      · rw [hbin, hinner]
        exact b.foldl_patch
  -- Each part starts from what the parts before it have left.
  have hscale := addAll_read input "scale" q.scale
    (fun scale => { query := { channel := q.channel, field := q.field, type := q.type, scale }, bin })
    rfl (fun _ => rfl) fun t ht => readInto_toggle settingsTold_scale (h.scale t ht)
  have hsort := addAll_read input "sort" q.sort
    (fun sort => { query := { channel := q.channel, field := q.field, type := q.type,
                              scale := q.scale, sort }, bin })
    rfl (fun _ => rfl) fun s hs => readInto_slot (isTransparent_sort (h.sort s hs))
  have haxis := addAll_read input "axis" q.axis
    (fun axis => { query := { channel := q.channel, field := q.field, type := q.type,
                              scale := q.scale, sort := q.sort, axis }, bin })
    rfl (fun _ => rfl) fun t ht => readInto_toggle settingsTold_guide (h.axis t ht).1
  have hlegend := addAll_read input "legend" q.legend
    (fun legend => { query := { channel := q.channel, field := q.field, type := q.type,
                                scale := q.scale, sort := q.sort, axis := q.axis, legend }, bin })
    rfl (fun _ => rfl) fun t ht => readInto_toggle settingsTold_guide (h.legend t ht).1
  have hstack := addAll_toList input stackOffset (fun o => ("stack", (Json.text o).compact))
    (fun _ => { query := q.withoutFunction, bin }) rfl fun o _ => add_stack _ _
  refine ⟨bin, ?_, hvalue, habsent⟩
  unfold parameterTexts
  rw [List.append_assoc, List.append_assoc, List.append_assoc, List.append_assoc, addAll_append hbin,
    addAll_append hscale, addAll_append hsort, addAll_append haxis, addAll_append hlegend]
  exact hstack

end Shorthand
end ChartAdvisor
