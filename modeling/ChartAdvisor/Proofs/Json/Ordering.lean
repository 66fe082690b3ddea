import ChartAdvisor.Proofs.Pointwise
import ChartAdvisor.Proofs.Table
import ChartAdvisor.Document.Readable

/-!
# JSON values with their members in order

In an ordered value every object lists its members by ascending key. `sorted` puts a value in order
and leaves a value that is in order as it is. What a reader makes of a document is in order.
-/
namespace ChartAdvisor
namespace Json

/-- Induction over the values inside a value. -/
@[elab_as_elim]
theorem induct {P : Json → Prop} (null : P .null) (bool : ∀ b, P (.bool b))
    (number : ∀ n, P (.number n)) (text : ∀ s, P (.text s))
    (list : ∀ items, (∀ v ∈ items, P v) → P (.list items))
    (object : ∀ members : Members, (∀ m ∈ members, P m.2) → P (.object members)) (v : Json) : P v :=
  @Json.rec P (fun items => ∀ v ∈ items, P v) (fun members => ∀ m ∈ members, P m.2) (fun m => P m.2)
    null bool number text list object (fun _ h => absurd h List.not_mem_nil)
    (fun _ _ hv hrest _ h => (List.mem_cons.mp h).elim (· ▸ hv) (hrest _))
    (fun _ h => absurd h List.not_mem_nil)
    (fun _ _ hm hrest _ h => (List.mem_cons.mp h).elim (· ▸ hm) (hrest _))
    (fun _ _ hv => hv) v

/-! ## Members that are added in turn -/

theorem extend_of_ascending {members more : Members} (h : Table.Ascending (members ++ more)) :
    extend members more = members ++ more := by
  induction more generalizing members with
  | nil => exact (List.append_nil members).symm
  | cons m more ih =>
    obtain ⟨k, v⟩ := m
    have hk : ∀ e ∈ members, e.1 < k := fun e he =>
      (List.pairwise_append.mp h).2.2 e he (k, v) List.mem_cons_self
    have hstep : extend members ((k, v) :: more) = extend (Table.insert k v members) more := rfl
    rw [hstep, Table.insert_of_forall_lt hk, ih (by simpa using h)]
    simp

theorem extend_nil_of_ascending {members : Members} (h : Table.Ascending members) :
    extend [] members = members :=
  extend_of_ascending h

theorem ascending_extend {members : Members} (h : Table.Ascending members) (more : Members) :
    Table.Ascending (extend members more) := by
  induction more generalizing members with
  | nil => exact h
  | cons m more ih => exact ih (h.insert m.1 m.2)

theorem mem_of_mem_extend {members more : Members} {m : String × Json}
    (h : m ∈ extend members more) : m ∈ members ∨ m ∈ more := by
  induction more generalizing members with
  | nil => exact .inl h
  | cons n more ih =>
    rcases ih h with hm | hm
    · rcases Table.mem_insert hm with rfl | hm
      · exact .inr List.mem_cons_self
      · exact .inl hm
    · exact .inr (List.mem_cons_of_mem _ hm)

/-- Where no key is added twice, what is added hides what was there before. -/
theorem lookup_extend {members more : Members} (nodup : (more.map Prod.fst).Nodup) (key : String) :
    (extend members more).lookup key = (more.lookup key).or (members.lookup key) := by
  induction more generalizing members with
  | nil => rfl
  | cons m more ih =>
    obtain ⟨k, v⟩ := m
    obtain ⟨hk, hmore⟩ := List.nodup_cons.mp nodup
    have hstep : extend members ((k, v) :: more) = extend (Table.insert k v members) more := rfl
    rw [hstep, ih hmore, Table.lookup_insert, Table.lookup_cons_eq_ite]
    by_cases hkey : key = k
    · have hnone : more.lookup key = none := by
        rw [List.lookup_eq_none_iff]
        intro m hm
        have hne : key ≠ m.1 := fun he => hk (hkey ▸ List.mem_map.mpr ⟨m, hm, he.symm⟩)
        simpa using hne
      rw [hnone, if_pos hkey, if_pos hkey]
      rfl
    · rw [if_neg hkey, if_neg hkey]

theorem extend_perm {members more : Members} (nodup : ((members ++ more).map Prod.fst).Nodup) :
    (extend members more).Perm (members ++ more) := by
  induction more generalizing members with
  | nil => exact .of_eq (List.append_nil members).symm
  | cons m more ih =>
    obtain ⟨k, v⟩ := m
    have hmoved : (Table.insert k v members ++ more).Perm (members ++ (k, v) :: more) := by
      refine ((Table.insert_perm (fun e he hk => ?_) v).append_right more).trans List.perm_middle.symm
      rw [List.map_append, List.nodup_append] at nodup
      exact nodup.2.2 e.1 (List.mem_map_of_mem he) k List.mem_cons_self hk
    exact (ih ((hmoved.map _).nodup_iff.mpr nodup)).trans hmoved

theorem lookup_filter_map (keep : String → Bool) (f : String → Json → Json) (members : Members)
    (key : String) : ((members.filter fun m => keep m.1).map fun m => (m.1, f m.1 m.2)).lookup key =
      if keep key then (members.lookup key).map (f key) else none := by
  induction members with
  | nil => simp
  | cons m rest ih =>
    obtain ⟨k, v⟩ := m
    rw [List.filter_cons, Table.lookup_cons_eq_ite]
    by_cases hk : key = k
    · subst hk
      cases hkeep : keep key with
      | true =>
        rw [if_pos rfl, List.map_cons, Table.lookup_cons_eq_ite, if_pos rfl, if_pos rfl, if_pos rfl]
        rfl
      | false =>
        rw [hkeep, if_neg Bool.false_ne_true] at ih
        rwa [if_neg Bool.false_ne_true, if_neg Bool.false_ne_true]
    · rw [if_neg hk, ← ih]
      split
      · rw [List.map_cons, Table.lookup_cons_eq_ite, if_neg hk]
      · rfl

/-! ## Values in order -/

/-- Every object lists its members by ascending key. -/
inductive Ordered : Json → Prop
  | null : Ordered .null
  | bool (b : Bool) : Ordered (.bool b)
  | number (n : Number) : Ordered (.number n)
  | text (s : String) : Ordered (.text s)
  | list {items : List Json} (ordered : ∀ v ∈ items, Ordered v) : Ordered (.list items)
  | object {members : Members} (ascending : Table.Ascending members)
      (ordered : ∀ m ∈ members, Ordered m.2) : Ordered (.object members)

theorem sortedItems_eq_map (items : List Json) : sortedItems items = items.map sorted := by
  induction items with
  | nil => rfl
  | cons v rest ih => rw [sortedItems, ih, List.map_cons]

theorem sortedMembers_eq_map (members : Members) :
    sortedMembers members = members.map fun m => (m.1, m.2.sorted) := by
  induction members with
  | nil => rfl
  | cons m rest ih =>
    obtain ⟨k, v⟩ := m
    rw [sortedMembers, ih, List.map_cons]

theorem ordered_sorted (v : Json) : v.sorted.Ordered := by
  induction v using Json.induct with
  | null => exact .null
  | bool b => exact .bool b
  | number n => exact .number n
  | text s => exact .text s
  | list items ih =>
    rw [sorted, sortedItems_eq_map]
    refine .list fun w hw => ?_
    obtain ⟨v, hv, rfl⟩ := List.mem_map.mp hw
    exact ih v hv
  | object members ih =>
    rw [sorted, sortedMembers_eq_map]
    refine .object (ascending_extend List.Pairwise.nil _) fun m hm => ?_
    obtain ⟨n, hn, rfl⟩ := List.mem_map.mp ((mem_of_mem_extend hm).resolve_left List.not_mem_nil)
    exact ih n hn

namespace Ordered

theorem sorted_eq {v : Json} (h : v.Ordered) : v.sorted = v := by
  induction h with
  | null | bool | number | text => rfl
  | list _ ih => rw [sorted, sortedItems_eq_map, List.map_congr_left ih, List.map_id']
  | @object members ascending _ ih =>
    have hmembers : sortedMembers members = members := by
      rw [sortedMembers_eq_map, List.map_congr_left fun m hm => congrArg (Prod.mk m.1) (ih m hm)]
      exact List.map_id' members
    rw [sorted, hmembers, extend_nil_of_ascending ascending]

theorem of_list {items : List Json} (h : (Json.list items).Ordered) : ∀ v ∈ items, v.Ordered := by
  cases h with
  | list ordered => exact ordered

theorem of_object {members : Members} (h : (Json.object members).Ordered) :
    Table.Ascending members ∧ ∀ m ∈ members, m.2.Ordered := by
  cases h with
  | object ascending ordered => exact ⟨ascending, ordered⟩

theorem of_lookup {members : Members} (h : (Json.object members).Ordered) {key : String} {v : Json}
    (hv : members.lookup key = some v) : v.Ordered := by
  obtain ⟨l₁, l₂, rfl, -⟩ := List.lookup_eq_some_iff.mp hv
  exact h.of_object.2 (key, v) (by simp)

theorem erase {members : Members} (h : (Json.object members).Ordered) (key : String) :
    (Json.object (Table.erase key members)).Ordered :=
  .object (h.of_object.1.erase key) fun m hm => h.of_object.2 m (List.mem_filter.mp hm).1

theorem extend {members more : Members} (h : (Json.object members).Ordered)
    (hmore : ∀ m ∈ more, m.2.Ordered) : (Json.object (Json.extend members more)).Ordered :=
  .object (ascending_extend h.of_object.1 more) fun m hm =>
    (mem_of_mem_extend hm).elim (h.of_object.2 m) (hmore m)

end Ordered

/-- Putting an object in order puts what it has under each key in order. -/
theorem sorted_object {members : Members} (nodup : (members.map Prod.fst).Nodup) :
    ∃ ordered, (object members).sorted = .object ordered ∧
      ∀ key, ordered.lookup key = (members.lookup key).map sorted := by
  refine ⟨_, rfl, fun key => ?_⟩
  have hkeys : (sortedMembers members).map Prod.fst = members.map Prod.fst := by
    rw [sortedMembers_eq_map, List.map_map]
    rfl
  rw [lookup_extend (hkeys ▸ nodup), List.lookup_nil, Option.or_none]
  clear nodup hkeys
  induction members with
  | nil => rfl
  | cons m rest ih =>
    obtain ⟨k, v⟩ := m
    rw [sortedMembers, Table.lookup_cons_eq_ite, Table.lookup_cons_eq_ite, ih]
    split <;> rfl

theorem keys_present (parts : List (String × Option Json)) :
    ((parts.filterMap fun (k, v) => v.map (k, ·)).map Prod.fst).Sublist (parts.map Prod.fst) := by
  induction parts with
  | nil => exact .slnil
  | cons m rest ih =>
    obtain ⟨k, v⟩ := m
    cases v with
    | none => exact ih.cons k
    | some v => exact ih.cons_cons k

theorem lookup_present {parts : List (String × Option Json)} (nodup : (parts.map Prod.fst).Nodup)
    (key : String) :
    (parts.filterMap fun (k, v) => v.map (k, ·)).lookup key = (parts.lookup key).join := by
  induction parts with
  | nil => rfl
  | cons m rest ih =>
    obtain ⟨k, v⟩ := m
    obtain ⟨hk, hrest⟩ := List.nodup_cons.mp nodup
    have hnone : (rest.filterMap fun (k, v) => v.map (k, ·)).lookup k = none := by
      rw [List.lookup_eq_none_iff]
      intro m hm
      have hne : k ≠ m.1 := fun he =>
        hk ((keys_present rest).subset (List.mem_map.mpr ⟨m, hm, he.symm⟩))
      simpa using hne
    rw [Table.lookup_cons_eq_ite]
    cases v with
    | none =>
      split
      · next hkey => exact hkey ▸ hnone
      · exact ih hrest
    | some v =>
      change List.lookup key ((k, v) :: rest.filterMap _) = _
      rw [Table.lookup_cons_eq_ite]
      split
      · rfl
      · exact ih hrest

theorem sorted_ofPresent (parts : List (String × Option Json)) (nodup : (parts.map Prod.fst).Nodup) :
    ∃ ordered, (ofPresent parts).sorted = .object ordered ∧
      ∀ key, ordered.lookup key = (parts.lookup key).join.map sorted := by
  obtain ⟨ordered, heq, hlookup⟩ := sorted_object (nodup.sublist (keys_present parts))
  exact ⟨ordered, heq, fun key => by rw [hlookup, lookup_present nodup]⟩

/-! ## What a reader makes -/

mutual

theorem ordered_of_toJson? {r : Reading} {depth : Nat} : ∀ {d : Document} {v : Json},
    d.toJson? r depth = some v → v.Ordered
  | .scalar s _, v, h => by
    rw [Document.toJson?.eq_def] at h
    cases s <;> cases h <;> constructor
  | .list items, v, h => by
    cases depth with
    | zero => rw [Document.toJson?.eq_def] at h; contradiction
    | succ depth =>
      rw [Document.toJson?] at h
      obtain ⟨vs, hvs, rfl⟩ := Option.map_eq_some_iff.mp h
      exact .list (ordered_of_itemsToJson? hvs)
  | .mapping entries, v, h => by
    cases depth with
    | zero => rw [Document.toJson?.eq_def] at h; contradiction
    | succ depth =>
      rw [Document.toJson?] at h
      obtain ⟨ms, hms, rfl⟩ := Option.map_eq_some_iff.mp h
      exact .object (ascending_extend List.Pairwise.nil _) fun m hm =>
        ordered_of_entriesToJson? hms m ((mem_of_mem_extend hm).resolve_left List.not_mem_nil)

theorem ordered_of_itemsToJson? {r : Reading} {depth : Nat} : ∀ {items : List Document}
    {vs : List Json}, Document.itemsToJson? r depth items = some vs → ∀ v ∈ vs, v.Ordered
  | [], vs, h => by
    cases h
    simp
  | d :: rest, vs, h => by
    rw [Document.itemsToJson?] at h
    obtain ⟨v, hv, h⟩ := Option.bind_eq_some_iff.mp h
    obtain ⟨ws, hws, h⟩ := Option.bind_eq_some_iff.mp h
    cases h
    exact List.forall_mem_cons.mpr ⟨ordered_of_toJson? hv, ordered_of_itemsToJson? hws⟩

theorem ordered_of_entriesToJson? {r : Reading} {depth : Nat} :
    ∀ {entries : List (Document × Document)} {ms : Members},
    Document.entriesToJson? r depth entries = some ms → ∀ m ∈ ms, m.2.Ordered
  | [], ms, h => by
    cases h
    simp
  | (k, d) :: rest, ms, h => by
    rw [Document.entriesToJson?] at h
    obtain ⟨k, hk, h⟩ := Option.bind_eq_some_iff.mp h
    obtain ⟨v, hv, h⟩ := Option.bind_eq_some_iff.mp h
    obtain ⟨ns, hns, h⟩ := Option.bind_eq_some_iff.mp h
    cases h
    exact List.forall_mem_cons.mpr ⟨ordered_of_toJson? hv, ordered_of_entriesToJson? hns⟩

end

theorem ordered_of_mapM {r : Reading} {depth : Nat} {items : List Document} {vs : List Json}
    (h : items.mapM (Document.toJson? r depth) = some vs) : ∀ v ∈ vs, v.Ordered := by
  intro v hv
  obtain ⟨d, -, hd⟩ := exists_of_forall₂ (forall₂_of_mapM_eq_some h).flip hv
  exact ordered_of_toJson? hd

theorem ordered_of_read? {cs : List Char} {v : Json} (h : read? cs = some v) : v.Ordered := by
  obtain ⟨d, -, hd⟩ := Option.bind_eq_some_iff.mp h
  exact ordered_of_toJson? hd

end Json
end ChartAdvisor
