import ChartAdvisor.Table

/-!
# Tables by ascending key, and tables made from their keys

A table that `insert` and `erase` have made has its keys in ascending order, so what is found
under each key tells the whole table. In a table that is made from its keys the value of a key is
found under it.
-/
namespace ChartAdvisor
namespace Table

variable {β : Type}

/-- What is found in a table of which the values are changed by key. -/
theorem lookup_map {κ α : Type} [BEq κ] [LawfulBEq κ] (f : κ → α → β) (entries : List (κ × α)) (key : κ) :
    (entries.map fun e => (e.1, f e.1 e.2)).lookup key = (entries.lookup key).map (f key) := by
  induction entries with
  | nil => rfl
  | cons e rest ih =>
    rw [List.map_cons, List.lookup_cons, List.lookup_cons]
    by_cases h : key = e.1
    · rw [h, beq_self_eq_true]
      rfl
    · rw [beq_eq_false_iff_ne.mpr h]
      exact ih

/-- The keys of a table are in ascending order, each once. -/
def Ascending (entries : List (String × β)) : Prop :=
  entries.Pairwise fun a b => a.1 < b.1

theorem mem_insert {key : String} {value : β} {entries : List (String × β)} {e : String × β}
    (h : e ∈ insert key value entries) : e = (key, value) ∨ e ∈ entries := by
  induction entries with
  | nil => exact .inl (List.mem_singleton.mp h)
  | cons f rest ih =>
    obtain ⟨k, v⟩ := f
    unfold insert at h
    split at h
    · rcases List.mem_cons.mp h with h | h
      · exact .inl h
      · exact .inr (List.mem_cons_of_mem _ h)
    · split at h
      · exact List.mem_cons.mp h
      · rcases List.mem_cons.mp h with h | h
        · exact .inr (h ▸ List.mem_cons_self ..)
        · exact (ih h).imp_right (List.mem_cons_of_mem _)

theorem Ascending.insert {entries : List (String × β)} (h : Ascending entries) (key : String)
    (value : β) : Ascending (insert key value entries) := by
  induction entries with
  | nil => exact List.pairwise_singleton _ _
  | cons f rest ih =>
    obtain ⟨k, v⟩ := f
    obtain ⟨hk, hrest⟩ := List.pairwise_cons.mp h
    unfold Table.insert
    split
    · next he =>
      subst he
      exact List.pairwise_cons.mpr ⟨hk, hrest⟩
    · next hne =>
      split
      · next hlt =>
        refine List.pairwise_cons.mpr ⟨fun e he => ?_, h⟩
        rcases List.mem_cons.mp he with rfl | he
        · exact hlt
        · exact String.lt_trans hlt (hk e he)
      · next hnlt =>
        refine List.pairwise_cons.mpr ⟨fun e he => ?_, ih hrest⟩
        rcases mem_insert he with rfl | he
        · exact Std.lt_of_le_of_ne (String.not_lt.mp hnlt) (Ne.symm hne)
        · exact hk e he

theorem Ascending.nodup {entries : List (String × β)} (h : Ascending entries) :
    (entries.map Prod.fst).Nodup :=
  List.pairwise_map.mpr (h.imp String.ne_of_lt)

theorem insert_perm {key : String} {entries : List (String × β)} (h : ∀ e ∈ entries, e.1 ≠ key)
    (value : β) : (insert key value entries).Perm ((key, value) :: entries) := by
  induction entries with
  | nil => exact .refl _
  | cons e rest ih =>
    obtain ⟨k, v⟩ := e
    obtain ⟨hk, hrest⟩ := List.forall_mem_cons.mp h
    unfold insert
    rw [if_neg (Ne.symm hk)]
    split
    · exact .refl _
    · exact ((ih hrest).cons _).trans (.swap _ _ _)

theorem insert_of_forall_lt {key : String} {entries : List (String × β)}
    (h : ∀ e ∈ entries, e.1 < key) (value : β) :
    insert key value entries = entries ++ [(key, value)] := by
  induction entries with
  | nil => rfl
  | cons f rest ih =>
    obtain ⟨k, v⟩ := f
    have hk : k < key := h (k, v) List.mem_cons_self
    unfold insert
    rw [if_neg (Ne.symm (String.ne_of_lt hk)), if_neg (String.not_lt.mpr (Std.le_of_lt hk)),
      ih fun e he => h e (List.mem_cons_of_mem _ he)]
    rfl

theorem erase_eq_self {key : String} {entries : List (String × β)}
    (h : entries.lookup key = none) : erase key entries = entries := by
  unfold erase
  rw [List.filter_eq_self]
  intro e he
  rw [bne_iff_ne]
  rintro rfl
  have hany : entries.any (·.1 == e.1) = true := List.any_eq_true.mpr ⟨e, he, beq_self_eq_true e.1⟩
  rw [← lookup_isSome_eq_any, h] at hany
  contradiction

theorem Ascending.erase {entries : List (String × β)} (h : Ascending entries) (key : String) :
    Ascending (erase key entries) := List.Pairwise.filter _ h

/-- The smallest key of a table is found nowhere in what follows. -/
theorem Ascending.lookup_eq_none {e : String × β} {rest : List (String × β)}
    (h : Ascending (e :: rest)) {key : String} (hk : key ≤ e.1) : rest.lookup key = none := by
  rw [List.lookup_eq_none_iff]
  intro f hf
  have hlt := (List.pairwise_cons.mp h).1 f hf
  simpa using Std.ne_of_lt (Std.lt_of_le_of_lt hk hlt)

/-- What a table by ascending key has is found in it. -/
theorem Ascending.lookup_of_mem {entries : List (String × β)} (h : Ascending entries) {e : String × β}
    (he : e ∈ entries) : entries.lookup e.1 = some e.2 := by
  induction entries with
  | nil => contradiction
  | cons f rest ih =>
    obtain ⟨hf, hrest⟩ := List.pairwise_cons.mp h
    rw [lookup_cons_eq_ite]
    rcases List.mem_cons.mp he with rfl | he
    · exact if_pos rfl
    · rw [if_neg (Ne.symm (String.ne_of_lt (hf e he))), ih hrest he]

/-- Two tables by ascending key in which the same is found under every key are the same. -/
theorem Ascending.eq_of_lookup_eq {a b : List (String × β)} (ha : Ascending a) (hb : Ascending b)
    (h : ∀ key, a.lookup key = b.lookup key) : a = b := by
  induction a generalizing b with
  | nil =>
    cases b with
    | nil => rfl
    | cons f rest =>
      have hf := h f.1
      rw [lookup_cons_eq_ite] at hf
      simp at hf
  | cons e rest ih =>
    cases b with
    | nil =>
      have he := h e.1
      rw [lookup_cons_eq_ite] at he
      simp at he
    | cons f rest' =>
      obtain ⟨k, v⟩ := e
      obtain ⟨k', v'⟩ := f
      have hk := h k
      have hk' := h k'
      simp only [lookup_cons_eq_ite, if_true] at hk hk'
      have hkk : k = k' := by
        rcases Std.lt_trichotomy k k' with hlt | heq | hgt
        · rw [if_neg (Std.ne_of_lt hlt), hb.lookup_eq_none (Std.le_of_lt hlt)] at hk
          contradiction
        · exact heq
        · rw [if_neg (Std.ne_of_lt hgt), ha.lookup_eq_none (Std.le_of_lt hgt)] at hk'
          contradiction
      subst hkk
      rw [if_pos rfl] at hk
      obtain rfl : v = v' := Option.some.inj hk
      congr 1
      refine ih (List.pairwise_cons.mp ha).2 (List.pairwise_cons.mp hb).2 fun key => ?_
      have hkey := h key
      simp only [lookup_cons_eq_ite] at hkey
      by_cases he : key = k
      · subst he
        rw [ha.lookup_eq_none (Std.le_refl _), hb.lookup_eq_none (Std.le_refl _)]
      · rwa [if_neg he, if_neg he] at hkey

theorem insert_comm {entries : List (String × β)} (h : Ascending entries) {k k' : String} (hk : k ≠ k')
    (v v' : β) : insert k v (insert k' v' entries) = insert k' v' (insert k v entries) := by
  refine ((h.insert k' v').insert k v).eq_of_lookup_eq ((h.insert k v).insert k' v') fun key => ?_
  simp only [lookup_insert]
  by_cases hkey : key = k
  · rw [if_pos hkey, if_neg (hkey ▸ hk), if_pos hkey]
  · rw [if_neg hkey, if_neg hkey]

/-- A value that is put under a key that is there takes the place of the old one. -/
theorem insert_insert {entries : List (String × β)} (h : Ascending entries) (k : String) (v v' : β) :
    insert k v (insert k v' entries) = insert k v entries := by
  refine ((h.insert k v').insert k v).eq_of_lookup_eq (h.insert k v) fun key => ?_
  simp only [lookup_insert]
  split <;> rfl

/-! ## One entry for each key -/

section Keys

variable {κ : Type} [BEq κ] [LawfulBEq κ] [DecidableEq κ]

theorem lookup_map_self (keys : List κ) (f : κ → β) (key : κ) :
    (keys.map fun k => (k, f k)).lookup key = if key ∈ keys then some (f key) else none := by
  induction keys with
  | nil => rfl
  | cons k rest ih =>
    rw [List.map_cons, lookup_cons_eq_ite, ih]
    by_cases hk : key = k
    · simp [hk]
    · simp [hk]

theorem lookup_put (key other : κ) (value : β) (entries : List (κ × β)) :
    (put key value entries).lookup other = if other = key then some value else entries.lookup other := by
  unfold put
  by_cases hany : entries.any (·.1 == key) = true
  · rw [if_pos hany]
    have hchange : (entries.map fun e => if e.1 == key then (e.1, value) else e) =
        entries.map fun e => (e.1, if e.1 = key then value else e.2) := by
      refine List.map_congr_left fun e _ => ?_
      by_cases he : e.1 = key <;> simp [he]
    rw [hchange, lookup_map (fun k v => if k = key then value else v)]
    rw [← lookup_isSome_eq_any] at hany
    by_cases ho : other = key
    · obtain ⟨v, hv⟩ := Option.isSome_iff_exists.mp hany
      simp [ho, hv]
    · simp [ho]
  · rw [if_neg hany]
    rw [← lookup_isSome_eq_any, Option.not_isSome_iff_eq_none] at hany
    rw [List.lookup_append, lookup_cons_eq_ite]
    by_cases ho : other = key
    · subst ho
      simp [hany]
    · simp [ho]

/-- Keys that stand once each still do when an entry is put. -/
theorem nodup_put (key : κ) (value : β) {entries : List (κ × β)} (h : (entries.map Prod.fst).Nodup) :
    ((put key value entries).map Prod.fst).Nodup := by
  unfold put
  by_cases hany : entries.any (·.1 == key) = true
  · have hkeys : (entries.map fun e => if e.1 == key then (e.1, value) else e).map Prod.fst =
        entries.map Prod.fst := by
      rw [List.map_map]
      exact List.map_congr_left fun e _ => by by_cases he : e.1 = key <;> simp [he]
    rwa [if_pos hany, hkeys]
  · have hnew : key ∉ entries.map Prod.fst := by
      rintro hmem
      obtain ⟨e, he, rfl⟩ := List.mem_map.mp hmem
      exact hany (List.any_eq_true.mpr ⟨e, he, beq_self_eq_true _⟩)
    rw [if_neg hany, List.map_append, List.map_singleton]
    exact (List.perm_append_singleton key _).nodup_iff.mpr (List.nodup_cons.mpr ⟨hnew, h⟩)

theorem put_map_self (keys : List κ) (f : κ → β) (key : κ) (value : β) :
    put key value (keys.map fun k => (k, f k)) =
      (if key ∈ keys then keys else keys ++ [key]).map fun k => (k, if k = key then value else f k) := by
  have hany : ((keys.map fun k => (k, f k)).any (·.1 == key)) = decide (key ∈ keys) := by
    rw [Bool.eq_iff_iff]
    simp
  unfold put
  rw [hany]
  by_cases hk : key ∈ keys
  · simp only [hk, decide_true, if_true, List.map_map]
    refine List.map_congr_left fun k _ => ?_
    by_cases heq : k = key <;> simp [heq]
  · simp only [hk, decide_false, Bool.false_eq_true, if_false, List.map_append, List.map_cons,
      List.map_nil, if_true]
    refine congrArg (· ++ _) (List.map_congr_left fun k hmem => ?_)
    rw [if_neg fun heq : k = key => hk (heq ▸ hmem)]

end Keys

end Table
end ChartAdvisor
