import ChartAdvisor.Proofs.Json.Reading
import ChartAdvisor.Encoding.Basic

/-!
# Settings read back from JSON

Writing a part of an encoding and reading it again gives the part back, a wildcard with its name and
its candidates. A slot is the exception: a fixed value that is written like a wildcard is read as one.
-/
namespace ChartAdvisor

/-- A type whose values read back from their JSON form. -/
class LawfulCoded (α : Type) [Coded α] : Prop where
  decode_encode : ∀ a : α, decode (encode a) = .ok a

/-- A vocabulary in which every member is listed and no two members share a name. -/
class LawfulVocabulary (α : Type) [Vocabulary α] : Prop where
  ofName?_name : ∀ a : α, Vocabulary.ofName? (Vocabulary.name a) = some a

export LawfulCoded (decode_encode)

export LawfulVocabulary (ofName?_name)

instance : LawfulVocabulary Mark := ⟨fun m => by cases m <;> decide⟩

instance : LawfulVocabulary Channel := ⟨fun c => by cases c <;> decide⟩

instance : LawfulVocabulary FieldType := ⟨fun t => by cases t <;> decide⟩

instance : LawfulVocabulary Aggregate := ⟨fun op => by cases op <;> decide⟩

instance : LawfulVocabulary TimeUnit := ⟨fun u => by cases u <;> decide⟩

instance : LawfulVocabulary ScaleType := ⟨fun t => by cases t <;> decide⟩

instance : LawfulVocabulary SortOrder := ⟨fun o => by cases o <;> decide⟩

instance : LawfulVocabulary ScaleProperty := ⟨fun p => by cases p <;> decide⟩

instance : LawfulVocabulary BinParameter := ⟨fun p => by cases p <;> decide⟩

theorem Vocabulary.name_injective {α : Type} [Vocabulary α] [LawfulVocabulary α] {a b : α}
    (h : Vocabulary.name a = Vocabulary.name b) : a = b := by
  have hb := ofName?_name b
  rw [← h, ofName?_name a] at hb
  exact Option.some.inj hb

instance {α : Type} [Vocabulary α] [LawfulVocabulary α] : LawfulCoded α where
  decode_encode a := by
    change JsonError.ofOption (Vocabulary.ofName? (Vocabulary.name a)) = .ok a
    rw [ofName?_name]
    rfl

instance : LawfulCoded Json := ⟨fun _ => rfl⟩

instance : LawfulCoded Bool := ⟨fun _ => rfl⟩

instance : LawfulCoded Number := ⟨fun _ => rfl⟩

instance : LawfulCoded UInt32 where
  decode_encode n := by
    change JsonError.ofOption (Number.ofCount n).toCount? = .ok n
    simp [Number.ofCount, Number.toCount?, Number.toNat?, n.toNat_lt, JsonError.ofOption]

instance {α : Type} [Coded α] [LawfulCoded α] : LawfulCoded (List α) where
  decode_encode items := by
    change (items.map encode).mapM decode = Except.ok items
    induction items with
    | nil => rfl
    | cons a rest ih =>
      rw [List.map_cons, List.mapM_cons, decode_encode, ih]
      rfl

/-- What is not `null` is read as a value that is present. -/
theorem decode_some {α : Type} [Coded α] {v : Json} {a : α} (hnull : v ≠ .null)
    (h : decode v = .ok a) : decode v = Except.ok (some a) := by
  have hread : (decode v : Except JsonError (Option α)) = some <$> (decode v : Except JsonError α) := by
    cases v with
    | null => contradiction
    | bool | number | text | list | object => rfl
  rw [hread, h]
  rfl

/-- A word that may be missing; no word is written as `null`. -/
instance {α : Type} [Vocabulary α] [LawfulVocabulary α] : LawfulCoded (Option α) where
  decode_encode
    | none => rfl
    | some a => decode_some Json.noConfusion (decode_encode a)

/-! ## Members under the names of a vocabulary -/

section Named

variable {κ : Type} [Vocabulary κ] [LawfulVocabulary κ] (value? : κ → Option Json)

/-- Each name leads to the value of what it names. -/
theorem Vocabulary.lookup_named [DecidableEq κ] (parts : List κ) (p : κ) :
    (parts.filterMap fun q => (value? q).map (name q, ·)).lookup (name p) =
      if p ∈ parts then value? p else none := by
  induction parts with
  | nil => rfl
  | cons q parts ih =>
    cases hv : value? q with
    | none =>
      rw [List.filterMap_cons_none (by rw [hv]; rfl), ih]
      by_cases hpq : p = q
      · subst hpq
        simp [hv]
      · simp [hpq]
    | some v =>
      rw [List.filterMap_cons_some (by rw [hv]; rfl), Table.lookup_cons_eq_ite, ih]
      by_cases hpq : p = q
      · subst hpq
        simp [hv]
      · have hname : name p ≠ name q := fun h => hpq (name_injective h)
        simp [hpq, hname]

theorem Vocabulary.nodup_named {parts : List κ} (nodup : parts.Nodup) :
    ((parts.filterMap fun q => (value? q).map (name q, ·)).map Prod.fst).Nodup := by
  have hsub := Json.keys_present (parts.map fun q => (name q, value? q))
  rw [List.filterMap_map, List.map_map] at hsub
  exact List.Nodup.sublist hsub
    (List.pairwise_map.mpr (nodup.imp fun hne he => hne (name_injective he)))

end Named

/-! ## Slots -/

namespace Json

/-- The value has one of the forms in which a wildcard is written. -/
def LooksOpen : Json → Prop
  | .text s => s = Wildcard.mark
  | .object members => Wildcard.isWildcardObject members = true
  | _ => False

instance : (v : Json) → Decidable v.LooksOpen
  | .text s => inferInstanceAs (Decidable (s = Wildcard.mark))
  | .object _ => inferInstanceAs (Decidable (_ = true))
  | .null | .bool _ | .number _ | .list _ => inferInstanceAs (Decidable False)

end Json

theorem Wildcard.ofJson?_eq_none {α : Type} [Coded α] {v : Json} (h : ¬v.LooksOpen) :
    (Wildcard.ofJson? v : Except JsonError (Option (Wildcard α))) = .ok none := by
  unfold Wildcard.ofJson?
  split
  · next s => exact congrArg Except.ok (if_neg h)
  · next members => exact if_neg h
  · rfl

theorem Slot.decode_encode_fixed {α : Type} [Coded α] [LawfulCoded α] {v : α}
    (h : ¬(encode v).LooksOpen) : decode (encode v) = Except.ok (Slot.fixed v) := by
  have hread : (decode (encode v) : Except JsonError (Slot α)) =
      (decode (encode v) : Except JsonError α).map Slot.fixed := by
    simp only [Coded.decode, Wildcard.ofJson?_eq_none h]
  rw [hread, decode_encode]
  rfl

theorem Wildcard.ofJson?_toJson {α : Type} [Coded α] [LawfulCoded α] (w : Wildcard α) :
    ofJson? w.toJson = Except.ok (some w) := by
  obtain ⟨name, candidates⟩ := w
  cases candidates with
  | none => cases name <;> rfl
  | some vs =>
    have hread : (ofJson? (toJson ⟨name, some vs⟩) : Except JsonError (Option (Wildcard α))) =
        (decode (encode vs)).map fun vs => some ⟨name, some vs⟩ := by
      cases name <;> rfl
    rw [hread, decode_encode]
    rfl

theorem Slot.decode_encode_wild {α : Type} [Coded α] [LawfulCoded α] (w : Wildcard α) :
    decode (encode (Slot.wild w)) = Except.ok (Slot.wild w) := by
  change decode w.toJson = Except.ok (Slot.wild w)
  simp only [Coded.decode, w.ofJson?_toJson]

theorem Slot.encode_wild_ne_null {α : Type} [Coded α] (w : Wildcard α) :
    encode (Slot.wild w) ≠ .null := by
  change w.toJson ≠ .null
  unfold Wildcard.toJson
  split <;> exact Json.noConfusion

theorem Record.optional_eq {α : Type} [Coded α] [LawfulCoded α] {r : Record} {name : String}
    {position : Nat} {a : Option α} (hnull : ∀ a : α, encode a ≠ .null)
    (h : r.get? name position = a.map encode) : r.optional name position = .ok a := by
  unfold Record.optional Record.orElse
  rw [h]
  cases a with
  | none => rfl
  | some a => exact decode_some (hnull a) (decode_encode a)

/-! ## Sorting -/

theorem not_looksOpen_sorting (s : Sorting) : ¬(encode s).LooksOpen := by
  cases s with
  | order o => cases o <;> decide
  | field name op direction => cases op <;> cases direction <;> exact Bool.false_ne_true

theorem Sorting.decodeField_encode (name : String) (op : Option Aggregate)
    (direction : Option SortOrder) :
    decodeField (encode (field name op direction)) = .ok (field name op direction) := by
  obtain ⟨members, hmembers⟩ : ∃ members, encode (field name op direction) = .object members :=
    ⟨_, rfl⟩
  have hname : (Record.named members).required "field" 0 = Except.ok name := by
    cases hmembers
    rfl
  have hop : (Record.named members).get? "op" 1 = op.map encode := by
    cases hmembers
    cases op <;> cases direction <;> rfl
  have hdirection : (Record.named members).get? "order" 2 = direction.map encode := by
    cases hmembers
    cases op <;> cases direction <;> rfl
  have hop := Record.optional_eq (fun _ => Json.noConfusion) hop
  have hdirection := Record.optional_eq (fun _ => Json.noConfusion) hdirection
  rw [hmembers]
  unfold decodeField
  simp only [Record.ofJson, bind, Except.bind, hname, hop, hdirection]
  rfl

instance : LawfulCoded Sorting where
  decode_encode s := by
    cases s with
    | order o => cases o <;> rfl
    | field name op direction =>
      have horder : (decode (encode (Sorting.field name op direction)) :
          Except JsonError SortOrder) = .error .malformed := by
        cases op <;> cases direction <;> rfl
      change (match (decode (encode (Sorting.field name op direction)) : Except JsonError SortOrder) with
        | .ok o => .ok (Sorting.order o)
        | .error _ => Sorting.decodeField (encode (Sorting.field name op direction))) = Except.ok _
      rw [horder]
      exact Sorting.decodeField_encode name op direction

/-! ## Scales -/

instance (p : ScaleProperty) : LawfulCoded p.Value := by
  cases p with
  | type => exact inferInstanceAs (LawfulCoded ScaleType)
  | bandSize => exact inferInstanceAs (LawfulCoded UInt32)
  | clamp | nice | round | useRawDomain | zero => exact inferInstanceAs (LawfulCoded Bool)
  | domain | range => exact inferInstanceAs (LawfulCoded Json)
  | exponent => exact inferInstanceAs (LawfulCoded Number)

namespace Scale

/-- Every part that is set reads back; one that is fixed looks neither absent nor open. -/
def IsTransparent (s : Scale) : Prop :=
  ∀ p v, s.get p = some v → (encode v).Legible (Json.depthLimit - 1) ∧
    ∀ x, v = .fixed x → ¬(encode x).LooksOpen ∧ encode x ≠ .null

/-- Some part is set, and every part that is set is fixed at a value that can be read and looks
neither absent nor open. -/
structure IsLegible (s : Scale) : Prop where
  part : ∀ p v, s.get p = some v → ∃ x, v = .fixed x ∧ (encode x).Legible (Json.depthLimit - 1) ∧
    ¬(encode x).LooksOpen ∧ encode x ≠ .null
  nonempty : ∃ p, (s.get p).isSome = true

theorem IsLegible.isTransparent {s : Scale} (h : s.IsLegible) : s.IsTransparent := by
  intro p v hv
  obtain ⟨x, rfl, hlegible, hopen, hnull⟩ := h.part p v hv
  refine ⟨hlegible, fun y hy => ?_⟩
  obtain rfl := Slot.fixed.inj hy
  exact ⟨hopen, hnull⟩

theorem decode_parts {s : Scale} {r : Record}
    (h : ∀ p position, r.optionalByName (Vocabulary.name p) position = .ok (s.get p))
    (parts : List ScaleProperty) (position : Nat) (start : Scale) :
    decodeParts r parts position start = .ok (parts.foldl (fun t p => t.put p (s.get p)) start) := by
  induction parts generalizing position start with
  | nil => rfl
  | cons p parts ih =>
    rw [decodeParts, h]
    exact ih (position + 1) (start.put p (s.get p))

theorem foldl_put_get (s : Scale) : recordOrder.foldl (fun t p => t.put p (s.get p)) {} = s := by
  simp only [recordOrder, List.foldl_cons, List.foldl_nil, put, get]

end Scale

/-! ## Switched parts -/

theorem Toggle.decode_off {α : Type} [Settings α] :
    decode (.bool false) = Except.ok (Toggle.off : Toggle α) := rfl

/-- Settings without a key of a wildcard read back as the settings of a part that is switched
on. -/
theorem Toggle.decode_on {α : Type} [Settings α] {members : Json.Members} {t : α}
    (hkeys : ∀ key ∈ Wildcard.keys, members.lookup key = none)
    (h : decode (.object members) = Except.ok t) :
    decode (.object members) = Except.ok (Toggle.on t) := by
  have hname : Json.lookup members "name" = none := hkeys "name" (by decide)
  have henum : Json.lookup members "enum" = none := hkeys "enum" (by decide)
  have hvalues : Json.lookup members "values" = none := hkeys "values" (by decide)
  change Toggle.ofJson (.object members) = _
  unfold Toggle.ofJson
  simp only [Json.without, Table.erase_eq_self hname, Table.erase_eq_self hvalues, hname, henum,
    hvalues, h]
  rfl

theorem Toggle.decode_short {α : Type} [Settings α] :
    decode (.text Wildcard.mark) = Except.ok (Toggle.wild .short Settings.none : Toggle α) := rfl

/-- With a name or candidates of the switch among them, they read back as the settings of a part whose
switch is open. -/
theorem Toggle.decode_wild {α : Type} [Settings α] {members : Json.Members} {t : α} {w : Wildcard Bool}
    (ordered : Table.Ascending members) (hname : members.lookup "name" = none)
    (henum : members.lookup "enum" = none)
    (hvalues : w.candidates = none → members.lookup "values" = none) (hshort : w.isShort = false)
    (h : decode (.object members) = Except.ok t) :
    decode (.object (Json.extend members w.members)) = Except.ok (Toggle.wild w t) := by
  obtain ⟨name, candidates⟩ := w
  have hlookup (key : String) :
      (Json.extend members (Wildcard.members ⟨name, candidates⟩)).lookup key =
        ((Wildcard.members ⟨name, candidates⟩).lookup key).or (members.lookup key) :=
    Json.lookup_extend (by cases name <;> cases candidates <;> simp [Wildcard.members]) key
  have hascending := Json.ascending_extend ordered (Wildcard.members ⟨name, candidates⟩)
  generalize hfull : Json.extend members (Wildcard.members ⟨name, candidates⟩) = full at hlookup hascending ⊢
  have hname' : Json.lookup full "name" = name.map .text := by
    rw [Json.lookup, hlookup, hname]
    cases name <;> cases candidates <;> rfl
  change Toggle.ofJson (.object full) = _
  unfold Toggle.ofJson
  cases candidates with
  | none =>
    have hrest : Table.erase "name" full = members := by
      refine (hascending.erase _).eq_of_lookup_eq ordered fun key => ?_
      rw [Table.lookup_erase, hlookup]
      split
      · next hkey => rw [hkey, hname]
      · next hkey => cases name <;> simp [Wildcard.members, Table.lookup_cons_eq_ite, hkey]
    cases name with
    | none => contradiction
    | some n =>
      have hvalues := hvalues rfl
      simp only [Json.without, Json.lookup] at hname' ⊢
      simp only [hname', hrest, henum, hvalues, Table.erase_eq_self hvalues, h]
      rfl
  | some vs =>
    have henum' : (Table.erase "name" full).lookup "enum" = some (encode vs) := by
      rw [Table.lookup_erase, if_neg (by decide), hlookup]
      cases name <;> rfl
    have hrest : Table.erase "enum" (Table.erase "name" full) = members := by
      refine ((hascending.erase _).erase _).eq_of_lookup_eq ordered fun key => ?_
      rw [Table.lookup_erase, Table.lookup_erase, hlookup]
      split
      · next hkey => rw [hkey, henum]
      · next hkey =>
        split
        · next hkey' => rw [hkey', hname]
        · next hkey' =>
          cases name <;> simp [Wildcard.members, Table.lookup_cons_eq_ite, hkey, hkey']
    simp only [Json.without, Json.lookup] at hname' ⊢
    simp only [hname', henum', hrest, h]
    cases name with
    | none =>
      change (do let vs ← decode (encode vs); return Toggle.wild ⟨none, some vs⟩ t) = _
      rw [decode_encode]
      rfl
    | some n =>
      change (do let vs ← decode (encode vs); return Toggle.wild ⟨some n, some vs⟩ t) = _
      rw [decode_encode]
      rfl

end ChartAdvisor
