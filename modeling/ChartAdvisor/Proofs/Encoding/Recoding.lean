import ChartAdvisor.Proofs.Encoding.Change
import ChartAdvisor.Proofs.Encoding.Coding
import ChartAdvisor.Proofs.Outcome

/-!
# Parts of an encoding that read back from their JSON form

What was read from JSON reads back from the JSON that is written for it, which can differ from what was
read: names can come as objects, records as lists, and `null` for a switch. Two things are lost. A switch
that nothing is said of but that it is open is not written beside settings, and a parameter of a bin that
is `null` counts as absent; the latter cannot come from JSON.
-/
namespace ChartAdvisor

/-- The value is what is read from its JSON form. -/
def ReadsBack {α : Type} [Coded α] (a : α) : Prop := decode (encode a).sorted = Except.ok a

/-- A type of which every value has a JSON form in order that reads back and that looks neither absent
nor open. -/
class PlainCoded (α : Type) [Coded α] : Prop extends LawfulCoded α where
  sorted_encode : ∀ a : α, (encode a).sorted = encode a
  not_looksOpen_encode : ∀ a : α, ¬(encode a).LooksOpen
  encode_ne_null : ∀ a : α, encode a ≠ .null

/-- A type of which every value that was read reads back, and looks absent or open in JSON only if it
was read from a value that does. -/
class StableCoded (α : Type) [Coded α] : Prop where
  readsBack : ∀ {v : Json} {a : α}, v.Ordered → decode v = .ok a → ReadsBack a
  not_looksOpen : ∀ {v : Json} {a : α}, v.Ordered → decode v = .ok a → ¬v.LooksOpen →
    ¬(encode a).sorted.LooksOpen
  ne_null : ∀ {v : Json} {a : α}, v.Ordered → decode v = .ok a → v ≠ .null → (encode a).sorted ≠ .null

section Plain

variable {α : Type}

theorem PlainCoded.ofVocabulary [Vocabulary α] [LawfulVocabulary α]
    (h : (Vocabulary.ofName? Wildcard.mark : Option α) = none) : PlainCoded α where
  sorted_encode _ := rfl
  not_looksOpen_encode a hopen := by
    have hread := ofName?_name a
    rw [show Vocabulary.name a = Wildcard.mark from hopen, h] at hread
    contradiction
  encode_ne_null _ := Json.noConfusion

instance : PlainCoded Mark := .ofVocabulary rfl

instance : PlainCoded Channel := .ofVocabulary rfl

instance : PlainCoded FieldType := .ofVocabulary rfl

instance : PlainCoded Aggregate := .ofVocabulary rfl

instance : PlainCoded TimeUnit := .ofVocabulary rfl

instance : PlainCoded ScaleType := .ofVocabulary rfl

instance : PlainCoded Bool where
  sorted_encode _ := rfl
  not_looksOpen_encode _ := id
  encode_ne_null _ := Json.noConfusion

instance : PlainCoded UInt32 where
  sorted_encode _ := rfl
  not_looksOpen_encode _ := id
  encode_ne_null _ := Json.noConfusion

instance : PlainCoded Number where
  sorted_encode _ := rfl
  not_looksOpen_encode _ := id
  encode_ne_null _ := Json.noConfusion

instance : PlainCoded Sorting where
  sorted_encode s := by
    cases s with
    | order o => rfl
    | field name op direction => cases op <;> cases direction <;> rfl
  not_looksOpen_encode := not_looksOpen_sorting
  encode_ne_null s := by cases s <;> exact Json.noConfusion

variable [Coded α] [PlainCoded α]

theorem readsBack_plain (a : α) : ReadsBack a := by
  rw [ReadsBack, PlainCoded.sorted_encode, decode_encode]

theorem readsBack_option (a : Option α) : ReadsBack a := by
  cases a with
  | none => rfl
  | some a =>
    change decode (encode a).sorted = Except.ok (some a)
    rw [PlainCoded.sorted_encode]
    exact decode_some (PlainCoded.encode_ne_null a) (decode_encode a)

instance : StableCoded α where
  readsBack _ _ := readsBack_plain _
  not_looksOpen {_ a} _ _ _ := by
    rw [PlainCoded.sorted_encode]
    exact PlainCoded.not_looksOpen_encode a
  ne_null {_ a} _ _ _ := by
    rw [PlainCoded.sorted_encode]
    exact PlainCoded.encode_ne_null a

end Plain

theorem not_looksOpen_option {α : Type} [Coded α] [PlainCoded α] (a : Option α) :
    ¬(encode a).sorted.LooksOpen := by
  cases a with
  | none => exact id
  | some a =>
    change ¬(encode a).sorted.LooksOpen
    rw [PlainCoded.sorted_encode]
    exact PlainCoded.not_looksOpen_encode a

instance {α : Type} [Coded α] [PlainCoded α] : StableCoded (Option α) where
  readsBack _ _ := readsBack_option _
  not_looksOpen _ _ _ := not_looksOpen_option _
  ne_null {v a} _ h hnull := by
    cases a with
    | none =>
      cases v with
      | null => contradiction
      | bool | number | text | list | object =>
        obtain ⟨b, -, hb⟩ := map_eq_ok.mp h
        cases hb
    | some a =>
      change (encode a).sorted ≠ .null
      rw [PlainCoded.sorted_encode]
      exact PlainCoded.encode_ne_null a

instance : StableCoded Json where
  readsBack hv h := by
    obtain rfl := Except.ok.inj h
    exact congrArg Except.ok hv.sorted_eq
  not_looksOpen {v _} hv h hopen := by
    obtain rfl := Except.ok.inj h
    change ¬v.sorted.LooksOpen
    rwa [hv.sorted_eq]
  ne_null {v _} hv h hnull := by
    obtain rfl := Except.ok.inj h
    change v.sorted ≠ .null
    rwa [hv.sorted_eq]

theorem String.readsBack (s : String) : ReadsBack s := rfl

instance : StableCoded String where
  readsBack _ _ := rfl
  not_looksOpen {v s} _ h hopen := by
    cases v with
    | text t =>
      obtain rfl : t = s := Except.ok.inj h
      exact hopen
    | null | bool | number | list | object => contradiction
  ne_null _ _ _ := Json.noConfusion

theorem readsBack_list {α : Type} [Coded α] {items : List α} (h : ∀ a ∈ items, ReadsBack a) :
    ReadsBack items := by
  change (Json.sortedItems (items.map encode)).mapM decode = Except.ok items
  induction items with
  | nil => rfl
  | cons a rest ih =>
    have ha : decode (encode a).sorted = Except.ok a := h a List.mem_cons_self
    rw [List.map_cons, Json.sortedItems, List.mapM_cons, ha,
      ih fun b hb => h b (List.mem_cons_of_mem _ hb)]
    rfl

/-- Each value of a list was read from a value of its own. -/
theorem of_decode_list {α : Type} [Coded α] {v : Json} {items : List α} (hv : v.Ordered)
    (h : decode v = .ok items) {a : α} (ha : a ∈ items) : ∃ x : Json, x.Ordered ∧ decode x = .ok a := by
  cases v with
  | list vs =>
    obtain ⟨x, hx, hxa⟩ := exists_of_mapM_eq_ok (show vs.mapM decode = .ok items from h) ha
    exact ⟨x, hv.of_list x hx, hxa⟩
  | null | bool | number | text | object => contradiction

/-! ## Slots -/

section Slots

variable {α : Type} [Coded α]

theorem Wildcard.candidates_of_ofJson? {v : Json} {w : Wildcard α} (hv : v.Ordered)
    (h : ofJson? v = .ok (some w)) {vs : List α} (hvs : w.candidates = some vs) {a : α} (ha : a ∈ vs) :
    ∃ x : Json, x.Ordered ∧ decode x = .ok a := by
  unfold ofJson? at h
  split at h
  · split at h
    · obtain rfl := Option.some.inj (Except.ok.inj h)
      contradiction
    · cases h
  · next members =>
    split at h
    · split at h
      · next x hx =>
        obtain ⟨ws, hws, heq⟩ := map_eq_ok.mp h
        obtain rfl := Option.some.inj heq
        obtain rfl := Option.some.inj hvs
        have hmember : (members.lookup "enum").or (members.lookup "values") = some x := hx
        rcases Option.or_eq_some_iff.mp hmember with hx | ⟨-, hx⟩
        · exact of_decode_list (hv.of_lookup hx) hws ha
        · exact of_decode_list (hv.of_lookup hx) hws ha
      · obtain rfl := Option.some.inj (Except.ok.inj h)
        contradiction
    · cases h
  · cases h

theorem Wildcard.not_looksOpen_of_ofJson? {v : Json}
    (h : (ofJson? v : Except JsonError (Option (Wildcard α))) = .ok none) : ¬v.LooksOpen := by
  intro hopen
  cases v with
  | text s =>
    have hopen : s = mark := hopen
    rw [ofJson?, if_pos hopen] at h
    cases h
  | object members =>
    have hopen : isWildcardObject members = true := hopen
    rw [ofJson?, if_pos hopen] at h
    split at h
    · obtain ⟨_, -, heq⟩ := map_eq_ok.mp h
      cases heq
    · cases h
  | null | bool | number | list => exact hopen

/-- What a slot is read from. -/
theorem Slot.decode_eq (v : Json) : (decode v : Except JsonError (Slot α)) =
    match Wildcard.ofJson? v with
    | .error e => .error e
    | .ok (some w) => .ok (Slot.wild w)
    | .ok none => (decode v).map Slot.fixed := rfl

theorem Slot.of_decode {v : Json} {s : Slot α} (h : decode v = .ok s) :
    (∃ w, s = .wild w ∧ Wildcard.ofJson? v = .ok (some w)) ∨
      ∃ a, s = .fixed a ∧ ¬v.LooksOpen ∧ decode v = .ok a := by
  rw [Slot.decode_eq] at h
  cases hw : (Wildcard.ofJson? v : Except JsonError (Option (Wildcard α))) with
  | error e => rw [hw] at h; contradiction
  | ok w? =>
    rw [hw] at h
    cases w? with
    | some w => exact .inl ⟨w, (Except.ok.inj h).symm, rfl⟩
    | none =>
      obtain ⟨a, ha, rfl⟩ := map_eq_ok.mp h
      exact .inr ⟨a, rfl, Wildcard.not_looksOpen_of_ofJson? hw, ha⟩

theorem Slot.readsBack_wild {w : Wildcard α} (h : ∀ vs, w.candidates = some vs → ∀ a ∈ vs, ReadsBack a) :
    ReadsBack (Slot.wild w) := by
  have hread : (Wildcard.ofJson? w.toJson.sorted : Except JsonError (Option (Wildcard α))) =
      .ok (some w) := by
    obtain ⟨name, candidates⟩ := w
    cases candidates with
    | none => cases name <;> rfl
    | some vs =>
      have hread : (Wildcard.ofJson? (Wildcard.toJson ⟨name, some vs⟩).sorted :
          Except JsonError (Option (Wildcard α))) =
          (decode (encode vs).sorted).map fun vs => some ⟨name, some vs⟩ := by
        cases name <;> rfl
      have hvs : decode (encode vs).sorted = Except.ok vs := readsBack_list (h vs rfl)
      rw [hread, hvs]
      rfl
  change decode w.toJson.sorted = Except.ok (Slot.wild w)
  simp only [Coded.decode, hread]

theorem Slot.readsBack_fixed {a : α} (h : ReadsBack a) (hopen : ¬(encode a).sorted.LooksOpen) :
    ReadsBack (Slot.fixed a) := by
  change decode (encode a).sorted = Except.ok (Slot.fixed a)
  have hread : (decode (encode a).sorted : Except JsonError (Slot α)) =
      (decode (encode a).sorted : Except JsonError α).map Slot.fixed := by
    simp only [Coded.decode, Wildcard.ofJson?_eq_none hopen]
  rw [hread, show decode (encode a).sorted = Except.ok a from h]
  rfl

theorem Wildcard.sorted_toJson_ne_null (w : Wildcard α) : w.toJson.sorted ≠ .null := by
  unfold toJson
  split <;> exact Json.noConfusion

instance [StableCoded α] : StableCoded (Slot α) where
  readsBack {v s} hv h := by
    obtain ⟨w, rfl, hw⟩ | ⟨a, rfl, hopen, ha⟩ := Slot.of_decode h
    · refine Slot.readsBack_wild fun vs hvs a ha => ?_
      obtain ⟨x, hx, hxa⟩ := Wildcard.candidates_of_ofJson? hv hw hvs ha
      exact StableCoded.readsBack hx hxa
    · exact Slot.readsBack_fixed (StableCoded.readsBack hv ha) (StableCoded.not_looksOpen hv ha hopen)
  not_looksOpen {v s} hv h hopen := by
    obtain ⟨w, rfl, hw⟩ | ⟨a, rfl, -, ha⟩ := Slot.of_decode h
    · rw [Wildcard.ofJson?_eq_none hopen] at hw
      cases hw
    · exact StableCoded.not_looksOpen (α := α) hv ha hopen
  ne_null {v s} hv h hnull := by
    obtain ⟨w, rfl, -⟩ | ⟨a, rfl, -, ha⟩ := Slot.of_decode h
    · exact w.sorted_toJson_ne_null
    · exact StableCoded.ne_null (α := α) hv ha hnull

end Slots

/-! ## Parts that may be missing -/

theorem of_decode_some {α : Type} [Coded α] {v : Json} {a : α} (h : decode v = Except.ok (some a)) :
    v ≠ .null ∧ decode v = Except.ok a := by
  cases v with
  | null => cases h
  | bool | number | text | list | object =>
    obtain ⟨b, hb, heq⟩ := map_eq_ok.mp h
    obtain rfl := Option.some.inj heq
    exact ⟨Json.noConfusion, hb⟩

namespace Record

variable {α : Type} [Coded α] {r : Record} {name : String} {position : Nat}

theorem of_optional {a : α} (h : r.optional name position = .ok (some a)) :
    ∃ v, r.get? name position = some v ∧ v ≠ .null ∧ decode v = .ok a := by
  unfold optional orElse at h
  split at h
  · next v hv => exact ⟨v, hv, of_decode_some h⟩
  · cases h

theorem optional_readsBack {a? : Option α} (hget : r.get? name position = a?.map fun a => (encode a).sorted)
    (h : ∀ a ∈ a?, ReadsBack a ∧ (encode a).sorted ≠ .null) : r.optional name position = .ok a? := by
  unfold optional orElse
  rw [hget]
  cases a? with
  | none => rfl
  | some a =>
    obtain ⟨hread, hnull⟩ := h a rfl
    exact decode_some hnull hread

theorem present_readsBack {a : α} (hget : r.get? name position = some (encode a).sorted)
    (h : ReadsBack a) : r.present name position = .ok (some a) := by
  unfold present
  rw [hget]
  change some <$> decode (encode a).sorted = _
  rw [show decode (encode a).sorted = Except.ok a from h]
  rfl

theorem required_readsBack {a : α} (hget : r.get? name position = some (encode a).sorted)
    (h : ReadsBack a) : r.required name position = .ok a := by
  unfold required
  rw [hget]
  exact h

theorem orElse_readsBack {a absent : α} (hget : r.get? name position = some (encode a).sorted)
    (h : ReadsBack a) : r.orElse name position absent = .ok a := by
  unfold orElse
  rw [hget]
  exact h

theorem of_required {a : α} (h : r.required name position = .ok a) :
    ∃ v, r.get? name position = some v ∧ decode v = .ok a := by
  unfold required at h
  split at h
  · next v hv => exact ⟨v, hv, h⟩
  · cases h

theorem of_orElse {a absent : α} (h : r.orElse name position absent = .ok a) :
    a = absent ∨ ∃ v, r.get? name position = some v ∧ decode v = .ok a := by
  unfold orElse at h
  split at h
  · next v hv => exact .inr ⟨v, hv, h⟩
  · exact .inl (Except.ok.inj h).symm

theorem of_present {a : α} (h : r.present name position = .ok (some a)) :
    ∃ v, r.get? name position = some v ∧ decode v = .ok a := by
  unfold present at h
  split at h
  · next v hv =>
    obtain ⟨b, hb, heq⟩ := map_eq_ok.mp h
    obtain rfl := Option.some.inj heq
    exact ⟨v, hv, hb⟩
  · cases h

end Record

/-! ## Switched parts -/

section Toggles

variable {α : Type} [Settings α]

/-- The settings read back from the members that are written for them. -/
structure Settings.Written (t : α) (members : Json.Members) : Prop where
  encode_eq : (encode t).sorted = .object members
  decode_eq : decode (.object members) = Except.ok t
  eq_none : Settings.isEmpty t = true → t = Settings.none

/-- Settings that read back once they were read, of which no more keys are written than were read. -/
class StableSettings (α : Type) [Settings α] : Prop where
  decode_nil : decode (.object []) = Except.ok (Settings.none : α)
  written : ∀ {members : Json.Members} {t : α}, (Json.object members).Ordered →
    decode (.object members) = .ok t → ∃ written, Settings.Written t written ∧
      ∀ key ∈ Wildcard.keys, members.lookup key = none → written.lookup key = none

namespace Toggle

/-- Nothing is said of the switch but that it is open, and there are settings: they are all that is
written. -/
def losesSwitch : Toggle α → Bool
  | wild w t => w.isShort && !Settings.isEmpty t
  | _ => false

theorem readsBack_off : ReadsBack (off : Toggle α) := rfl

/-- Settings that are switched on are read as what the members written for them are read as. -/
theorem decode_encode_on {t u : α} {members : Json.Members}
    (hencode : (encode t).sorted = .object members) (hdecode : decode (.object members) = Except.ok u)
    (hkeys : ∀ key ∈ Wildcard.keys, members.lookup key = none)
    (hempty : Settings.isEmpty t = true → u = Settings.none) :
    decode (encode (on t)).sorted = Except.ok (on u) := by
  change decode (if Settings.isEmpty t then Json.bool true else encode t).sorted = Except.ok (on u)
  split
  · next h =>
    rw [hempty h]
    rfl
  · rw [hencode]
    exact decode_on hkeys hdecode

theorem readsBack_on {t : α} {members : Json.Members} (h : Settings.Written t members)
    (hkeys : ∀ key ∈ Wildcard.keys, members.lookup key = none) : ReadsBack (on t) :=
  decode_encode_on h.encode_eq h.decode_eq hkeys h.eq_none

theorem ordered_members (w : Wildcard Bool) : ∀ m ∈ w.members, m.2.Ordered := by
  have hflags (vs : List Bool) : (encode vs).Ordered := by
    refine .list fun v hv => ?_
    obtain ⟨b, -, rfl⟩ := List.mem_map.mp hv
    exact .bool b
  obtain ⟨name, candidates⟩ := w
  intro m hm
  rcases List.mem_append.mp hm with hm | hm
  · obtain ⟨n, -, rfl⟩ := Option.map_eq_some_iff.mp (Option.mem_toList.mp hm)
    exact .text n
  · obtain ⟨vs, -, rfl⟩ := Option.map_eq_some_iff.mp (Option.mem_toList.mp hm)
    exact hflags vs

theorem readsBack_wild {w : Wildcard Bool} {t : α} {members : Json.Members}
    (hnil : decode (.object []) = Except.ok (Settings.none : α)) (h : Settings.Written t members)
    (hname : members.lookup "name" = none) (henum : members.lookup "enum" = none)
    (hvalues : w.candidates = none → members.lookup "values" = none)
    (hkeeps : (wild w t).losesSwitch = false) : ReadsBack (wild w t) := by
  change decode (if Settings.isEmpty t then w.toJson
    else .object (Json.extend ((encode t).sorted.object?.getD []) w.members)).sorted = Except.ok (wild w t)
  split
  · next hempty =>
    rw [h.eq_none hempty]
    cases hshort : w.isShort with
    | true =>
      obtain ⟨_ | _, _ | _⟩ := w <;> first | rfl | contradiction
    | false =>
      have hsorted : w.toJson.sorted = .object (Json.extend [] w.members) := by
        rw [Wildcard.toJson, hshort, if_neg Bool.false_ne_true, Json.sorted, Json.sortedMembers_eq_map,
          List.map_congr_left fun m hm => congrArg (Prod.mk m.1) (ordered_members w m hm).sorted_eq,
          List.map_id']
      rw [hsorted]
      exact decode_wild List.Pairwise.nil rfl rfl (fun _ => rfl) hshort hnil
  · next hempty =>
    have hordered : (Json.object members).Ordered := h.encode_eq ▸ Json.ordered_sorted (encode t)
    have hshort : w.isShort = false := by
      simpa [losesSwitch, hempty] using hkeeps
    rw [h.encode_eq, show (Json.object members).object?.getD [] = members from rfl,
      (hordered.extend (ordered_members w)).sorted_eq]
    exact decode_wild hordered.of_object.1 hname henum hvalues hshort h.decode_eq

/-- What a switch that comes as an object is read from: the settings, without what is said of the
switch. -/
theorem of_decode_object {members : Json.Members} {t : Toggle α} (hordered : (Json.object members).Ordered)
    (h : decode (.object members) = .ok t) :
    ∃ rest inner, (Json.object rest).Ordered ∧ decode (.object rest) = .ok inner ∧
      rest.lookup "name" = none ∧ rest.lookup "enum" = none ∧
      ((t = on inner ∧ rest.lookup "values" = none) ∨
        ∃ w, t = wild w inner ∧ (w.candidates = none → rest.lookup "values" = none)) := by
  change ofJson (.object members) = .ok t at h
  unfold ofJson at h
  simp only [Json.without, Json.lookup] at h
  cases henum : (Table.erase "name" members).lookup "enum" with
  | none =>
    simp only [henum] at h
    obtain ⟨inner, hinner, h⟩ := bind_eq_ok.mp h
    refine ⟨_, inner, (hordered.erase "name").erase "values", hinner, by simp, ?_, ?_⟩
    · rw [Table.lookup_erase, if_neg (by decide), henum]
    · have hvalues : (Table.erase "values" (Table.erase "name" members)).lookup "values" = none := by simp
      split at h
      · exact .inl ⟨(Except.ok.inj h).symm, hvalues⟩
      · exact .inr ⟨_, (Except.ok.inj h).symm, fun _ => hvalues⟩
      · obtain ⟨vs, -, h⟩ := bind_eq_ok.mp h
        exact .inr ⟨_, (Except.ok.inj h).symm, fun _ => hvalues⟩
  | some x =>
    simp only [henum] at h
    obtain ⟨inner, hinner, h⟩ := bind_eq_ok.mp h
    refine ⟨_, inner, (hordered.erase "name").erase "enum", hinner, by simp, by simp, .inr ?_⟩
    obtain ⟨vs, -, h⟩ := bind_eq_ok.mp h
    exact ⟨_, (Except.ok.inj h).symm, fun hnone => absurd hnone (Option.some_ne_none _)⟩

variable [StableSettings α]

/-- What a part that can be switched on is read from: the settings, and none where nothing is said but
whether it is switched on. -/
theorem of_decode {v : Json} {t : Toggle α} (hv : v.Ordered) (h : decode v = .ok t) :
    t = off ∨ ∃ rest inner, (Json.object rest).Ordered ∧ decode (.object rest) = .ok inner ∧
      rest.lookup "name" = none ∧ rest.lookup "enum" = none ∧
      ((t = on inner ∧ rest.lookup "values" = none) ∨
        ∃ w, t = wild w inner ∧ (w.candidates = none → rest.lookup "values" = none)) := by
  have hnil : (Json.object []).Ordered := .object List.Pairwise.nil (by simp)
  cases v with
  | null => exact .inl (Except.ok.inj h).symm
  | bool b =>
    cases b with
    | false => exact .inl (Except.ok.inj h).symm
    | true =>
      obtain rfl := Except.ok.inj h
      exact .inr ⟨[], _, hnil, StableSettings.decode_nil, rfl, rfl, .inl ⟨rfl, rfl⟩⟩
  | object members => exact .inr (of_decode_object hv h)
  | text s =>
    change (if Json.text s = .text Wildcard.mark then Except.ok (wild .short Settings.none)
      else .error (JsonError.notToggle (.text s))) = Except.ok t at h
    split at h
    · obtain rfl := Except.ok.inj h
      exact .inr ⟨[], _, hnil, StableSettings.decode_nil, rfl, rfl, .inr ⟨_, rfl, fun _ => rfl⟩⟩
    · cases h
  | number | list => contradiction

theorem readsBack_of_decode {v : Json} {t : Toggle α} (hv : v.Ordered) (h : decode v = .ok t)
    (hkeeps : t.losesSwitch = false) : ReadsBack t := by
  obtain rfl | ⟨rest, inner, hrest, hinner, hname, henum, ht⟩ := of_decode hv h
  · exact readsBack_off
  · obtain ⟨written, hwritten, hkeys⟩ := StableSettings.written hrest hinner
    obtain ⟨rfl, hvalues⟩ | ⟨w, rfl, hvalues⟩ := ht
    · refine readsBack_on hwritten fun key hkey => hkeys key hkey ?_
      simp only [Wildcard.keys, List.mem_cons, List.not_mem_nil, or_false] at hkey
      rcases hkey with rfl | rfl | rfl <;> assumption
    · exact readsBack_wild StableSettings.decode_nil hwritten (hkeys _ (by decide) hname)
        (hkeys _ (by decide) henum) (fun hc => hkeys _ (by decide) (hvalues hc)) hkeeps

omit [StableSettings α] in
theorem ne_null_of_readsBack {t : Toggle α} (h : ReadsBack t) : (encode t).sorted ≠ .null := by
  intro hnull
  rw [ReadsBack, hnull] at h
  obtain rfl : off = t := Except.ok.inj h
  contradiction

end Toggle

end Toggles

/-! ## Settings -/

instance : StableSettings Guide where
  decode_nil := rfl
  written {members t} hordered h := by
    obtain rfl : ⟨members⟩ = t := Except.ok.inj h
    refine ⟨members, ⟨hordered.sorted_eq, rfl, fun hempty => ?_⟩, fun _ _ hkey => hkey⟩
    exact congrArg Guide.mk (List.isEmpty_iff.mp hempty)

/-- An object of named parts in order has each part under its name, and nothing else. -/
theorem sorted_named {κ : Type} [Vocabulary κ] [LawfulVocabulary κ] [DecidableEq κ] (parts : List κ)
    (nodup : parts.Nodup) (hparts : ∀ p, p ∈ parts) (value? : κ → Option Json) :
    ∃ written, (Json.object (parts.filterMap fun p => (value? p).map (Vocabulary.name p, ·))).sorted =
        .object written ∧
      (∀ p, written.lookup (Vocabulary.name p) = (value? p).map Json.sorted) ∧
      ∀ key, (∀ p : κ, Vocabulary.name p ≠ key) → written.lookup key = none := by
  obtain ⟨written, heq, hlookup⟩ := Json.sorted_object (Vocabulary.nodup_named value? nodup)
  refine ⟨written, heq, fun p => ?_, fun key hkey => ?_⟩
  · rw [hlookup, Vocabulary.lookup_named, if_pos (hparts p)]
  · rw [hlookup, Option.map_eq_none_iff, List.lookup_eq_none_iff]
    intro m hm
    obtain ⟨p, -, hp⟩ := List.mem_filterMap.mp hm
    obtain ⟨v, -, rfl⟩ := Option.map_eq_some_iff.mp hp
    simpa using (hkey p).symm

namespace Scale

instance (p : ScaleProperty) : StableCoded p.Value := by
  cases p with
  | type => exact inferInstanceAs (StableCoded ScaleType)
  | bandSize => exact inferInstanceAs (StableCoded UInt32)
  | clamp | nice | round | useRawDomain | zero => exact inferInstanceAs (StableCoded Bool)
  | domain | range => exact inferInstanceAs (StableCoded Json)
  | exponent => exact inferInstanceAs (StableCoded Number)

theorem get_of_decodeParts {members : Json.Members} {parts : List ScaleProperty} {position : Nat}
    {start s : Scale} (nodup : parts.Nodup)
    (h : decodeParts (.named members) parts position start = .ok s) (p : ScaleProperty) :
    if p ∈ parts then (Record.named members).optional (Vocabulary.name p) 0 = .ok (s.get p)
    else s.get p = start.get p := by
  induction parts generalizing position start with
  | nil =>
    obtain rfl := Except.ok.inj h
    rw [if_neg List.not_mem_nil]
  | cons q parts ih =>
    obtain ⟨hq, hparts⟩ := List.nodup_cons.mp nodup
    obtain ⟨v, hv, h⟩ := bind_eq_ok.mp h
    have hrest := ih hparts h
    by_cases hpq : p = q
    · subst hpq
      rw [if_neg hq, get_put] at hrest
      rw [if_pos List.mem_cons_self, hrest]
      exact hv
    · rw [get_put_of_ne _ hpq] at hrest
      simpa only [List.mem_cons, hpq, false_or] using hrest

theorem of_decode {members : Json.Members} {s : Scale} (h : decode (.object members) = .ok s)
    {p : ScaleProperty} {v : Slot p.Value} (hv : s.get p = some v) :
    ∃ x, members.lookup (Vocabulary.name p) = some x ∧ x ≠ .null ∧ decode x = .ok v := by
  have hpart := get_of_decodeParts (by decide) h p
  rw [if_pos (by cases p <;> decide), hv] at hpart
  exact Record.of_optional hpart

theorem eq_empty {s : Scale} (h : ∀ p, s.get p = none) : s = {} := by
  have hs := foldl_put_get s
  simp only [recordOrder, List.foldl_cons, List.foldl_nil, h, put] at hs
  exact hs.symm

theorem get_dropNulls_eq (s : Scale) (p : ScaleProperty) :
    s.dropNulls.get p = (s.get p).filter fun v => !(encode v).isNull := by
  have hwild {α : Type} [Coded α] (w : Wildcard α) : (encode (Slot.wild w)).isNull = false := by
    cases h : encode (Slot.wild w) with
    | null => exact absurd h (Slot.encode_wild_ne_null w)
    | bool | number | text | list | object => rfl
  have hjson (v : Option (Slot Json)) : keepUnlessNull v = v.filter fun v => !(encode v).isNull := by
    rcases v with _ | x | w
    · rfl
    · cases x <;> rfl
    · rw [Option.filter_some, hwild]
      rfl
  have hplain {α : Type} [Coded α] [PlainCoded α] (v : Option (Slot α)) :
      v = v.filter fun v => !(encode v).isNull := by
    rcases v with _ | x | w
    · rfl
    · have hx : (encode (Slot.fixed x)).isNull = false := by
        change (encode x).isNull = false
        cases h : encode x with
        | null => exact absurd h (PlainCoded.encode_ne_null x)
        | bool | number | text | list | object => rfl
      rw [Option.filter_some, hx]
      rfl
    · rw [Option.filter_some, hwild]
      rfl
  rw [dropNulls_eq]
  cases p with
  | domain => exact hjson s.domain
  | range => exact hjson s.range
  | type => exact hplain s.type
  | bandSize => exact hplain s.bandSize
  | clamp => exact hplain s.clamp
  | exponent => exact hplain s.exponent
  | nice => exact hplain s.nice
  | round => exact hplain s.round
  | useRawDomain => exact hplain s.useRawDomain
  | zero => exact hplain s.zero

theorem members_eq (s : Scale) : s.members =
    recordOrder.filterMap fun p => ((s.get p).map encode).map (Vocabulary.name p, ·) := by
  unfold members
  congr 1
  funext p
  rw [Option.map_map]
  rfl

theorem name_notMem_keys : ∀ key ∈ Wildcard.keys, ∀ p : ScaleProperty, Vocabulary.name p ≠ key := by
  intro key hkey p
  revert key
  cases p <;> decide

/-- What is set in a scale that was read reads back and does not look absent. -/
theorem readsBack_of_decode {members : Json.Members} {s : Scale} (hordered : (Json.object members).Ordered)
    (h : decode (.object members) = .ok s) (p : ScaleProperty) (v : Slot p.Value)
    (hv : s.get p = some v) : ReadsBack v ∧ (encode v).sorted ≠ .null := by
  obtain ⟨x, hx, hnull, hread⟩ := of_decode h hv
  have hx := hordered.of_lookup hx
  exact ⟨StableCoded.readsBack hx hread, StableCoded.ne_null hx hread hnull⟩

instance : StableSettings Scale where
  decode_nil := rfl
  written {members s} hordered h := by
    have hpart := readsBack_of_decode hordered h
    obtain ⟨written, heq, hlookup, hother⟩ := sorted_named recordOrder (by decide)
      (fun p => by cases p <;> decide) fun p => (s.get p).map encode
    refine ⟨written, ⟨?_, ?_, fun hempty => eq_empty fun p => ?_⟩, fun key hkey _ =>
      hother key (name_notMem_keys key hkey)⟩
    · rw [← members_eq] at heq
      exact heq
    · have hread (p : ScaleProperty) (position : Nat) :
          (Record.named written).optionalByName (Vocabulary.name p) position = .ok (s.get p) := by
        refine Record.optional_readsBack ?_ fun v hv => hpart p v hv
        rw [Record.get?, Json.lookup, hlookup, Option.map_map]
        rfl
      have hparts := decode_parts hread recordOrder 0 {}
      rwa [foldl_put_get] at hparts
    · have hhas := List.all_eq_true.mp hempty p (by cases p <;> decide)
      cases hv : s.get p with
      | none => rfl
      | some v =>
        have hkept : (encode v).sorted.isNull = false := by
          cases hx : (encode v).sorted with
          | null => exact absurd hx (hpart p v hv).2
          | bool | number | text | list | object => rfl
        rw [has, json?, hv, Option.map_some, Option.filter_some, hkept] at hhas
        contradiction

end Scale

namespace Bin

/-- The number of bins reads back, and the other parameters are in order. -/
structure IsStable (b : Bin) : Prop where
  maxbins : ∀ s ∈ b.maxbins, ReadsBack s
  parameter : ∀ p v, p ≠ .maxbins → b.get? p = some v → v.Ordered

/-- No parameter is `null`, which would count as absent. -/
def NullFree (b : Bin) : Prop := ∀ p, b.get? p ≠ some .null

theorem encode_eq (b : Bin) : encode b =
    .object (Vocabulary.all.filterMap fun p => (b.get? p).map (Vocabulary.name p, ·)) := by
  change Json.object (b.parameters.map _) = _
  unfold parameters
  rw [List.map_filterMap]
  congr 2
  funext p
  cases b.get? p <;> rfl

theorem name_notMem_keys : ∀ key ∈ Wildcard.keys, ∀ p : BinParameter, Vocabulary.name p ≠ key := by
  intro key hkey p
  revert key
  cases p <;> decide

theorem sorted_maxbins_ne_null (s : Slot UInt32) : (encode s).sorted ≠ .null := by
  cases s with
  | fixed n => exact Json.noConfusion
  | wild w => exact w.sorted_toJson_ne_null

theorem IsStable.written {b : Bin} (h : b.IsStable) (hnull : b.NullFree) :
    ∃ written, Settings.Written b written ∧ ∀ key ∈ Wildcard.keys, written.lookup key = none := by
  obtain ⟨written, heq, hlookup, hother⟩ := sorted_named (Vocabulary.all : List BinParameter)
    (by decide) (fun p => by cases p <;> decide) b.get?
  have hmaxbins : (Record.named written).optionalByName "maxbins" 0 = .ok b.maxbins := by
    refine Record.optional_readsBack ?_ fun s hs => ⟨h.maxbins s hs, sorted_maxbins_ne_null s⟩
    exact (hlookup .maxbins).trans (Option.map_map ..)
  have hpart {p : BinParameter} (hp : p ≠ .maxbins) (position : Nat) :
      (Record.named written).optionalByName (Vocabulary.name p) position = .ok (b.get? p) := by
    refine Record.optional_readsBack (hlookup p) fun v hv => ?_
    have hsorted : v.sorted = v := (h.parameter p v hp hv).sorted_eq
    exact ⟨congrArg Except.ok hsorted, hsorted.symm ▸ fun he => hnull p (he ▸ hv)⟩
  refine ⟨written, ⟨b.encode_eq ▸ heq, ?_, fun hempty => eq_of_beq hempty⟩, fun key hkey =>
    hother key (name_notMem_keys key hkey)⟩
  change (do
    let maxbins ← (Record.named written).optionalByName "maxbins" 0
    let extent ← (Record.named written).optionalByName "extent" 1
    let base ← (Record.named written).optionalByName "base" 2
    let step ← (Record.named written).optionalByName "step" 3
    let steps ← (Record.named written).optionalByName "steps" 4
    let minstep ← (Record.named written).optionalByName "minstep" 5
    let divide ← (Record.named written).optionalByName "divide" 6
    return ({ maxbins, extent, base, step, steps, minstep, divide } : Bin)) = Except.ok b
  have hextent := hpart (p := .extent) (by decide) 1
  have hbase := hpart (p := .base) (by decide) 2
  have hstep := hpart (p := .step) (by decide) 3
  have hsteps := hpart (p := .steps) (by decide) 4
  have hminstep := hpart (p := .minstep) (by decide) 5
  have hdivide := hpart (p := .divide) (by decide) 6
  simp only [Vocabulary.name, get?] at hextent hbase hstep hsteps hminstep hdivide
  simp only [hmaxbins, hextent, hbase, hstep, hsteps, hminstep, hdivide]
  rfl

/-- A parameter that is there was read from a value that is not `null`. -/
theorem isStable_of_decode {members : Json.Members} {b : Bin} (hordered : (Json.object members).Ordered)
    (h : decode (.object members) = .ok b) : b.IsStable ∧ b.NullFree := by
  have hvalue {name : String} {position : Nat} {value? : Option Json} {v : Json}
      (hread : (Record.named members).optional name position = .ok value?) (hv : value? = some v) :
      v.Ordered ∧ v ≠ .null := by
    obtain ⟨x, hx, hnull, hxv⟩ := Record.of_optional (hv ▸ hread)
    obtain rfl := Except.ok.inj hxv
    exact ⟨hordered.of_lookup hx, hnull⟩
  obtain ⟨r, hr, h⟩ := bind_eq_ok.mp h
  obtain rfl := Except.ok.inj hr
  obtain ⟨maxbins, hmaxbins, h⟩ := bind_eq_ok.mp h
  obtain ⟨extent, hextent, h⟩ := bind_eq_ok.mp h
  obtain ⟨base, hbase, h⟩ := bind_eq_ok.mp h
  obtain ⟨step, hstep, h⟩ := bind_eq_ok.mp h
  obtain ⟨steps, hsteps, h⟩ := bind_eq_ok.mp h
  obtain ⟨minstep, hminstep, h⟩ := bind_eq_ok.mp h
  obtain ⟨divide, hdivide, h⟩ := bind_eq_ok.mp h
  obtain rfl := Except.ok.inj h
  have hpart (p : BinParameter) (v : Json) (hp : p ≠ .maxbins)
      (hv : get? ⟨maxbins, extent, base, step, steps, minstep, divide⟩ p = some v) :
      v.Ordered ∧ v ≠ .null := by
    cases p with
    | maxbins => contradiction
    | extent => exact hvalue hextent hv
    | base => exact hvalue hbase hv
    | step => exact hvalue hstep hv
    | steps => exact hvalue hsteps hv
    | minstep => exact hvalue hminstep hv
    | divide => exact hvalue hdivide hv
  refine ⟨⟨fun s hs => ?_, fun p v hp hv => (hpart p v hp hv).1⟩, fun p hv => ?_⟩
  · obtain rfl : maxbins = some s := hs
    obtain ⟨x, hx, -, hxs⟩ := Record.of_optional hmaxbins
    exact StableCoded.readsBack (hordered.of_lookup hx) hxs
  · by_cases hp : p = .maxbins
    · subst hp
      obtain ⟨s, -, hs⟩ := Option.map_eq_some_iff.mp hv
      cases s with
      | fixed n => contradiction
      | wild w => exact Slot.encode_wild_ne_null w hs
    · exact (hpart p _ hp hv).2 rfl

instance : StableSettings Bin where
  decode_nil := rfl
  written hordered h := by
    obtain ⟨hstable, hnull⟩ := isStable_of_decode hordered h
    obtain ⟨written, hwritten, hkeys⟩ := hstable.written hnull
    exact ⟨written, hwritten, fun key hkey _ => hkeys key hkey⟩

end Bin

end ChartAdvisor
